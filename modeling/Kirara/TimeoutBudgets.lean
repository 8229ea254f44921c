import Kirara.Fallible
import Kirara.SecretRestoration

namespace Kirara.TimeoutBudgets

open Kirara.Channels Kirara.ConfigValues Kirara.Fallible Kirara.SecretRestoration

section Numbers

/-- Floats. Numbers of tenths stand for the decimals of the source. -/
structure Floats (φ : Type) where
  tenths : Nat → φ
  le : φ → φ → Bool
  lt : φ → φ → Bool
  add : φ → φ → φ
  double : φ → φ
  le_tenths : ∀ a b, le (tenths a) (tenths b) = decide (a ≤ b)
  lt_tenths : ∀ a b, lt (tenths a) (tenths b) = decide (a < b)

variable {φ : Type} (N : Floats φ)

/-- `min`: of two that are not less than each other the first. -/
def Floats.min (a b : φ) : φ := if N.lt b a then b else a

end Numbers

section Backends

variable {α φ : Type}

structure ModelConfig (α : Type) where
  id : Text
  type : Text
  ability : Int
  extra : List (Text × Value α)

/-- An entry of `models`: an id, in the older format, or a configuration. -/
inductive ModelItem (α : Type) where
  | id (t : Text)
  | config (m : ModelConfig α)

inductive ReasoningEffort where
  | low
  | medium
  | high
  | max
  deriving DecidableEq

/-- The fields of an `LLMBackendConfig`: its values, or what of them is given. -/
structure BackendFields (F : Type → Type) (μ α φ : Type) where
  name : F Text
  adapter : F Text
  config : F (Value α)
  enable : F Bool
  models : F (List μ)
  autoDetectIntervalDays : F Int
  priority : F Int
  participateInFailover : F Bool
  maxRetries : F Int
  retryBackoffSeconds : F φ
  retryBackoffMaxSeconds : F φ
  requestTimeoutSeconds : F φ
  nonStreamTimeoutSeconds : F φ
  streamFirstByteTimeoutSeconds : F φ
  streamIdleTimeoutSeconds : F φ
  streamTotalTimeoutSeconds : F φ
  circuitFailureThreshold : F Int
  circuitErrorRateThreshold : F φ
  circuitMinRequests : F Int
  circuitRecoveryTimeoutSeconds : F φ
  circuitRecoverySuccessThreshold : F Int
  reasoningEffort : F (Option ReasoningEffort)
  hideAiAttribution : F Bool
  rectifierEnabled : F Bool
  rectifyThinkingSignature : F Bool
  rectifyThinkingBudget : F Bool
  rectifyMediaFallback : F Bool
  rectifyReasoningEffortUnsupported : F Bool

abbrev Given (μ α φ : Type) := BackendFields Option μ α φ

abbrev Values (α φ : Type) := BackendFields Id (ModelConfig α) α φ

variable (N : Floats φ)

def withDefaults (d : Given (ModelConfig α) α φ) : Values α φ where
  name := d.name.getD []
  adapter := d.adapter.getD []
  config := d.config.getD (.dict [])
  enable := d.enable.getD true
  models := d.models.getD []
  autoDetectIntervalDays := d.autoDetectIntervalDays.getD 5
  priority := d.priority.getD 100
  participateInFailover := d.participateInFailover.getD true
  maxRetries := d.maxRetries.getD 0
  retryBackoffSeconds := d.retryBackoffSeconds.getD (N.tenths 5)
  retryBackoffMaxSeconds := d.retryBackoffMaxSeconds.getD (N.tenths 50)
  requestTimeoutSeconds := d.requestTimeoutSeconds.getD (N.tenths 6000)
  nonStreamTimeoutSeconds := d.nonStreamTimeoutSeconds.getD (N.tenths 6000)
  streamFirstByteTimeoutSeconds := d.streamFirstByteTimeoutSeconds.getD (N.tenths 600)
  streamIdleTimeoutSeconds := d.streamIdleTimeoutSeconds.getD (N.tenths 1200)
  streamTotalTimeoutSeconds := d.streamTotalTimeoutSeconds.getD (N.tenths 6000)
  circuitFailureThreshold := d.circuitFailureThreshold.getD 3
  circuitErrorRateThreshold := d.circuitErrorRateThreshold.getD (N.tenths 5)
  circuitMinRequests := d.circuitMinRequests.getD 10
  circuitRecoveryTimeoutSeconds := d.circuitRecoveryTimeoutSeconds.getD (N.tenths 300)
  circuitRecoverySuccessThreshold := d.circuitRecoverySuccessThreshold.getD 2
  reasoningEffort := d.reasoningEffort.getD none
  hideAiAttribution := d.hideAiAttribution.getD false
  rectifierEnabled := d.rectifierEnabled.getD true
  rectifyThinkingSignature := d.rectifyThinkingSignature.getD true
  rectifyThinkingBudget := d.rectifyThinkingBudget.getD true
  rectifyMediaFallback := d.rectifyMediaFallback.getD true
  rectifyReasoningEffortUnsupported := d.rectifyReasoningEffortUnsupported.getD true

def constraints (d : Given (ModelConfig α) α φ) : List (Text × Bool) :=
  [("priority".toList, d.priority.all (fun n => 0 ≤ n)),
   ("max_retries".toList, d.maxRetries.all (fun n => 0 ≤ n && n ≤ 10)),
   ("retry_backoff_seconds".toList, d.retryBackoffSeconds.all (N.le (N.tenths 0))),
   ("retry_backoff_max_seconds".toList, d.retryBackoffMaxSeconds.all (N.le (N.tenths 0))),
   ("request_timeout_seconds".toList, d.requestTimeoutSeconds.all (N.lt (N.tenths 0))),
   ("non_stream_timeout_seconds".toList, d.nonStreamTimeoutSeconds.all (N.lt (N.tenths 0))),
   ("stream_first_byte_timeout_seconds".toList, d.streamFirstByteTimeoutSeconds.all (N.lt (N.tenths 0))),
   ("stream_idle_timeout_seconds".toList, d.streamIdleTimeoutSeconds.all (N.lt (N.tenths 0))),
   ("stream_total_timeout_seconds".toList, d.streamTotalTimeoutSeconds.all (N.lt (N.tenths 0))),
   ("circuit_failure_threshold".toList, d.circuitFailureThreshold.all (fun n => 1 ≤ n)),
   ("circuit_error_rate_threshold".toList,
     d.circuitErrorRateThreshold.all (fun x => N.le (N.tenths 0) x && N.le x (N.tenths 10))),
   ("circuit_min_requests".toList, d.circuitMinRequests.all (fun n => 1 ≤ n)),
   ("circuit_recovery_timeout_seconds".toList, d.circuitRecoveryTimeoutSeconds.all (N.le (N.tenths 0))),
   ("circuit_recovery_success_threshold".toList, d.circuitRecoverySuccessThreshold.all (fun n => 1 ≤ n && n ≤ 100))]

inductive Failure (φ : Type) where
  | missing (field : Text)
  | outOfBounds (field : Text)
  /-- "retry_backoff_max_seconds cannot be smaller than retry_backoff_seconds" -/
  | backoffOrder
  /-- "stream_first_byte_timeout_seconds + stream_idle_timeout_seconds exceeds stream_total_timeout_seconds" -/
  | streamActivity (activity total : φ)
  /-- "retry backoff budget exceeds non_stream_timeout_seconds" -/
  | backoffBudget (budget limit : φ)

def backoffBudget (maximum : φ) : Nat → φ → φ → φ
  | 0, _, budget => budget
  | n + 1, delay, budget => backoffBudget maximum n (N.double delay) (N.add budget (N.min delay maximum))

def Values.retries (v : Values α φ) : Int := v.maxRetries

def Values.streamActivity (v : Values α φ) : φ := N.add v.streamFirstByteTimeoutSeconds v.streamIdleTimeoutSeconds

def Values.backoffBudget (v : Values α φ) : φ :=
  TimeoutBudgets.backoffBudget N v.retryBackoffMaxSeconds v.retries.toNat v.retryBackoffSeconds (N.tenths 0)

/-- `validate_timeout_budget`, with whether the two totals are given. -/
def validateTimeoutBudget (v : Values α φ) (totalGiven nonStreamGiven : Bool) : Except (Failure φ) Unit :=
  if N.lt v.retryBackoffMaxSeconds v.retryBackoffSeconds then .error .backoffOrder
  else if totalGiven && N.lt v.streamTotalTimeoutSeconds (v.streamActivity N) then
    .error (.streamActivity (v.streamActivity N) v.streamTotalTimeoutSeconds)
  else if v.retries ≠ 0 ∧ nonStreamGiven ∧ N.lt v.nonStreamTimeoutSeconds (v.backoffBudget N) then
    .error (.backoffBudget (v.backoffBudget N) v.nonStreamTimeoutSeconds)
  else .ok ()

/-- `migrate_models_format`. -/
def migrateModel : ModelItem α → ModelConfig α
  | .id t => ⟨t, "llm".toList, 14, []⟩
  | .config m => m

def migrateModelsFormat (d : Given (ModelItem α) α φ) : Given (ModelConfig α) α φ :=
  { d with models := d.models.map (fun items => items.map migrateModel) }

def checkFields (d : Given (ModelConfig α) α φ) : Except (Failure φ) Unit :=
  if d.name = none then .error (.missing "name".toList)
  else if d.adapter = none then .error (.missing "adapter".toList)
  else
    match (constraints N d).find? (fun p => !p.2) with
    | some p => .error (.outOfBounds p.1)
    | none => validateTimeoutBudget N (withDefaults N d) d.streamTotalTimeoutSeconds.isSome d.nonStreamTimeoutSeconds.isSome

/-- An `LLMBackendConfig` that the validators accept, by the given fields. -/
structure LLMBackendConfig (α : Type) (N : Floats φ) where
  given : Given (ModelConfig α) α φ
  accepted : checkFields N given = .ok ()

def modelValidate (d : Given (ModelItem α) α φ) : Except (Failure φ) (LLMBackendConfig α N) :=
  match h : checkFields N (migrateModelsFormat d) with
  | .error e => .error e
  | .ok () => .ok ⟨migrateModelsFormat d, h⟩

variable {N}

def LLMBackendConfig.values (c : LLMBackendConfig α N) : Values α φ := withDefaults N c.given

def LLMBackendConfig.adapter (c : LLMBackendConfig α N) : Text := c.values.adapter

def LLMBackendConfig.effectiveStreamTotalTimeout (c : LLMBackendConfig α N) : φ :=
  if c.given.streamTotalTimeoutSeconds.isSome then c.values.streamTotalTimeoutSeconds else c.values.requestTimeoutSeconds

def LLMBackendConfig.effectiveNonStreamTimeout (c : LLMBackendConfig α N) : φ :=
  if c.given.nonStreamTimeoutSeconds.isSome then c.values.nonStreamTimeoutSeconds else c.values.requestTimeoutSeconds

def overlaid (d : Given (ModelConfig α) α φ) (v : Values α φ) : Given (ModelConfig α) α φ where
  name := d.name.or (some v.name)
  adapter := d.adapter.or (some v.adapter)
  config := d.config.or (some v.config)
  enable := d.enable.or (some v.enable)
  models := d.models.or (some v.models)
  autoDetectIntervalDays := d.autoDetectIntervalDays.or (some v.autoDetectIntervalDays)
  priority := d.priority.or (some v.priority)
  participateInFailover := d.participateInFailover.or (some v.participateInFailover)
  maxRetries := d.maxRetries.or (some v.maxRetries)
  retryBackoffSeconds := d.retryBackoffSeconds.or (some v.retryBackoffSeconds)
  retryBackoffMaxSeconds := d.retryBackoffMaxSeconds.or (some v.retryBackoffMaxSeconds)
  requestTimeoutSeconds := d.requestTimeoutSeconds.or (some v.requestTimeoutSeconds)
  nonStreamTimeoutSeconds := d.nonStreamTimeoutSeconds.or (some v.nonStreamTimeoutSeconds)
  streamFirstByteTimeoutSeconds := d.streamFirstByteTimeoutSeconds.or (some v.streamFirstByteTimeoutSeconds)
  streamIdleTimeoutSeconds := d.streamIdleTimeoutSeconds.or (some v.streamIdleTimeoutSeconds)
  streamTotalTimeoutSeconds := d.streamTotalTimeoutSeconds.or (some v.streamTotalTimeoutSeconds)
  circuitFailureThreshold := d.circuitFailureThreshold.or (some v.circuitFailureThreshold)
  circuitErrorRateThreshold := d.circuitErrorRateThreshold.or (some v.circuitErrorRateThreshold)
  circuitMinRequests := d.circuitMinRequests.or (some v.circuitMinRequests)
  circuitRecoveryTimeoutSeconds := d.circuitRecoveryTimeoutSeconds.or (some v.circuitRecoveryTimeoutSeconds)
  circuitRecoverySuccessThreshold := d.circuitRecoverySuccessThreshold.or (some v.circuitRecoverySuccessThreshold)
  reasoningEffort := d.reasoningEffort.or (some v.reasoningEffort)
  hideAiAttribution := d.hideAiAttribution.or (some v.hideAiAttribution)
  rectifierEnabled := d.rectifierEnabled.or (some v.rectifierEnabled)
  rectifyThinkingSignature := d.rectifyThinkingSignature.or (some v.rectifyThinkingSignature)
  rectifyThinkingBudget := d.rectifyThinkingBudget.or (some v.rectifyThinkingBudget)
  rectifyMediaFallback := d.rectifyMediaFallback.or (some v.rectifyMediaFallback)
  rectifyReasoningEffortUnsupported := d.rectifyReasoningEffortUnsupported.or (some v.rectifyReasoningEffortUnsupported)

def nothing : Given (ModelConfig α) α φ :=
  ⟨none, none, none, none, none, none, none, none, none, none, none, none, none, none, none, none, none, none, none, none,
    none, none, none, none, none, none, none, none⟩

def document (d : Given (ModelConfig α) α φ) : Given (ModelItem α) α φ :=
  { d with models := d.models.map (fun models => models.map .config) }

def LLMBackendConfig.modelDump (c : LLMBackendConfig α N) : Given (ModelItem α) α φ := document (overlaid nothing c.values)

/-- `save_config`, for the backends. -/
def saveConfig (backends : List (LLMBackendConfig α N)) : List (Given (ModelItem α) α φ) :=
  backends.map LLMBackendConfig.modelDump

variable (N) in
/-- `load_config`, for the backends. -/
def loadConfig (documents : List (Given (ModelItem α) α φ)) : Except (Failure φ) (List (LLMBackendConfig α N)) :=
  documents.mapM (modelValidate N)

/-- The request's fields over the backend's, with its secrets for the same adapter. -/
def submitted (original request : LLMBackendConfig α N) : Given (ModelConfig α) α φ :=
  let merged := overlaid request.given original.values
  if request.adapter = original.adapter then
    { merged with
      config := some (restoreUnchangedSecrets (merged.config.getD (.dict [])) (some original.values.config)) }
  else merged

/-- `update_backend`, up to the new configuration of the backend. -/
def updatedBackend (original request : LLMBackendConfig α N) : Except (Failure φ) (LLMBackendConfig α N) :=
  modelValidate N (document (submitted original request))

end Backends

variable {α φ : Type} {N : Floats φ} {c r : LLMBackendConfig α N} {d e : Given (ModelConfig α) α φ} {v : Values α φ}

/-- The deadlines are given or inherited as defaults, and given ones accepted. -/
def Kept (c : LLMBackendConfig α N) : Prop :=
  (c.given.streamTotalTimeoutSeconds.isSome ∨
    N.lt c.values.streamTotalTimeoutSeconds (c.values.streamActivity N) = false ∧
      c.values.requestTimeoutSeconds = c.values.streamTotalTimeoutSeconds) ∧
  (c.given.nonStreamTimeoutSeconds.isSome ∨
    (c.values.retries = 0 ∨ N.lt c.values.nonStreamTimeoutSeconds (c.values.backoffBudget N) = false) ∧
      c.values.requestTimeoutSeconds = c.values.nonStreamTimeoutSeconds)

/-- The values and the deadlines of two backends are the same. -/
structure Same (c c' : LLMBackendConfig α N) : Prop where
  values : c'.values = c.values
  streamTotal : c'.effectiveStreamTotalTimeout = c.effectiveStreamTotalTimeout
  nonStream : c'.effectiveNonStreamTimeout = c.effectiveNonStreamTimeout

/-- A request gives none of the timeout and retry fields. -/
structure Untouched (d : Given (ModelConfig α) α φ) : Prop where
  maxRetries : d.maxRetries = none
  retryBackoffSeconds : d.retryBackoffSeconds = none
  retryBackoffMaxSeconds : d.retryBackoffMaxSeconds = none
  requestTimeoutSeconds : d.requestTimeoutSeconds = none
  nonStreamTimeoutSeconds : d.nonStreamTimeoutSeconds = none
  streamFirstByteTimeoutSeconds : d.streamFirstByteTimeoutSeconds = none
  streamIdleTimeoutSeconds : d.streamIdleTimeoutSeconds = none
  streamTotalTimeoutSeconds : d.streamTotalTimeoutSeconds = none

theorem accepted_iff : checkFields N d = .ok () ↔ d.name ≠ none ∧ d.adapter ≠ none ∧ (∀ p ∈ constraints N d, p.2 = true) ∧
    validateTimeoutBudget N (withDefaults N d) d.streamTotalTimeoutSeconds.isSome d.nonStreamTimeoutSeconds.isSome =
      .ok () := by
  rw [checkFields, ite_error_eq_ok, ite_error_eq_ok]
  refine and_congr Iff.rfl (and_congr Iff.rfl ?_)
  cases hfind : (constraints N d).find? (fun p => !p.2) with
  | some p =>
    have hp : p.2 = false := by simpa using List.find?_some hfind
    refine ⟨nofun, fun h => ?_⟩
    rw [h.1 p (List.mem_of_find?_eq_some hfind)] at hp
    cases hp
  | none =>
    have hall : ∀ p ∈ constraints N d, p.2 = true := by simpa using hfind
    exact ⟨fun h => ⟨hall, h⟩, fun h => h.2⟩

theorem all_or {β : Type} {o o' : Option β} {p : β → Bool} {b : β} (ho : o.all p = true) (ho' : o'.all p = true)
    (hb : p b = true) : (o.or (some (o'.getD b))).all p = true := by
  cases o with
  | some x => exact ho
  | none =>
    cases o' with
    | some x => exact ho'
    | none => exact hb

theorem constraints_over (hd : ∀ p ∈ constraints N d, p.2 = true) (he : ∀ p ∈ constraints N e, p.2 = true) :
    ∀ p ∈ constraints N (overlaid d (withDefaults N e)), p.2 = true := by
  have hle (a b : Nat) (h : a ≤ b) : N.le (N.tenths a) (N.tenths b) = true := by
    rw [N.le_tenths]
    exact decide_eq_true h
  have hlt (a b : Nat) (h : a < b) : N.lt (N.tenths a) (N.tenths b) = true := by
    rw [N.lt_tenths]
    exact decide_eq_true h
  simp only [constraints, List.forall_mem_cons] at hd he ⊢
  obtain ⟨d₁, d₂, d₃, d₄, d₅, d₆, d₇, d₈, d₉, d₁₀, d₁₁, d₁₂, d₁₃, d₁₄, -⟩ := hd
  obtain ⟨e₁, e₂, e₃, e₄, e₅, e₆, e₇, e₈, e₉, e₁₀, e₁₁, e₁₂, e₁₃, e₁₄, -⟩ := he
  refine ⟨all_or d₁ e₁ rfl, all_or d₂ e₂ rfl, all_or d₃ e₃ (hle _ _ ?_), all_or d₄ e₄ (hle _ _ ?_), all_or d₅ e₅ (hlt _ _ ?_),
    all_or d₆ e₆ (hlt _ _ ?_), all_or d₇ e₇ (hlt _ _ ?_), all_or d₈ e₈ (hlt _ _ ?_), all_or d₉ e₉ (hlt _ _ ?_),
    all_or d₁₀ e₁₀ rfl, all_or d₁₁ e₁₁ ?_, all_or d₁₂ e₁₂ rfl, all_or d₁₃ e₁₃ (hle _ _ ?_), all_or d₁₄ e₁₄ rfl,
    fun p hp => (nomatch hp)⟩
  case refine_8 => rw [hle _ _ (by decide), hle _ _ (by decide)]; rfl
  all_goals decide

theorem migrate_document : migrateModelsFormat (document d) = d := by
  have hmodels (models : List (ModelConfig α)) : (models.map ModelItem.config).map migrateModel = models := by
    rw [List.map_map]
    exact List.map_id models
  cases d with
  | mk =>
    simp only [migrateModelsFormat, document, Option.map_map, Function.comp_def, hmodels, Option.map_id']

theorem modelValidate_eq_ok : modelValidate N (document d) = .ok c ↔ c.given = d := by
  constructor
  · intro h
    unfold modelValidate at h
    split at h
    · cases h
    · cases h
      exact migrate_document
  · intro h
    subst h
    unfold modelValidate
    split
    · next e he =>
      rw [migrate_document, c.accepted] at he
      cases he
    · congr 1
      cases c
      congr 1
      exact migrate_document

theorem validate_eq_ok {a b : Bool} : validateTimeoutBudget N v a b = .ok () ↔
    N.lt v.retryBackoffMaxSeconds v.retryBackoffSeconds = false ∧
      (a = true → N.lt v.streamTotalTimeoutSeconds (v.streamActivity N) = false) ∧
      (b = true → v.retries = 0 ∨ N.lt v.nonStreamTimeoutSeconds (v.backoffBudget N) = false) := by
  rw [validateTimeoutBudget, ite_error_eq_ok, ite_error_eq_ok, ite_error_eq_ok]
  cases a <;> cases b <;> simp [or_iff_not_imp_left]

/-- Whether the values of a backend are accepted when all are given. -/
def Fits (c : LLMBackendConfig α N) : Prop :=
  N.lt c.values.streamTotalTimeoutSeconds (c.values.streamActivity N) = false ∧
    (c.values.retries = 0 ∨ N.lt c.values.nonStreamTimeoutSeconds (c.values.backoffBudget N) = false)

theorem validate_values (c : LLMBackendConfig α N) : validateTimeoutBudget N c.values true true = .ok () ↔ Fits c := by
  obtain ⟨-, -, -, hbudget⟩ := accepted_iff.mp c.accepted
  rw [validate_eq_ok]
  exact ⟨fun h => ⟨h.2.1 rfl, h.2.2 rfl⟩, fun h => ⟨(validate_eq_ok.mp hbudget).1, fun _ => h.1, fun _ => h.2⟩⟩

theorem validate_over (h : Untouched d) {a b : Bool} :
    validateTimeoutBudget N (withDefaults N (overlaid d v)) a b = validateTimeoutBudget N v a b := by
  simp only [validateTimeoutBudget, Values.retries, Values.streamActivity, Values.backoffBudget, withDefaults, overlaid, h.maxRetries,
    h.retryBackoffSeconds, h.retryBackoffMaxSeconds, h.nonStreamTimeoutSeconds, h.streamFirstByteTimeoutSeconds,
    h.streamIdleTimeoutSeconds, h.streamTotalTimeoutSeconds, Option.none_or, Option.getD_some]
  rfl

theorem accepted_over (hd : ∀ p ∈ constraints N d, p.2 = true) (h : Untouched d) :
    checkFields N (overlaid d c.values) = .ok () ↔ Fits c := by
  obtain ⟨-, -, hconstraints, -⟩ := accepted_iff.mp c.accepted
  rw [accepted_iff, ← validate_values c]
  have htotal : (overlaid d c.values).streamTotalTimeoutSeconds.isSome = true := by
    rw [overlaid, h.streamTotalTimeoutSeconds]
    rfl
  have hnonStream : (overlaid d c.values).nonStreamTimeoutSeconds.isSome = true := by
    rw [overlaid, h.nonStreamTimeoutSeconds]
    rfl
  rw [htotal, hnonStream, validate_over h]
  have hsome {β : Type} (o : Option β) (b : β) : o.or (some b) ≠ none := by
    cases o <;> exact fun hn => (nomatch hn)
  exact ⟨fun hc => hc.2.2.2, fun hc => ⟨hsome _ _, hsome _ _, constraints_over hd hconstraints, hc⟩⟩

theorem untouched_nothing : Untouched (nothing : Given (ModelConfig α) α φ) := ⟨rfl, rfl, rfl, rfl, rfl, rfl, rfl, rfl⟩

theorem constraints_nothing : ∀ p ∈ constraints N (nothing : Given (ModelConfig α) α φ), p.2 = true := by
  simp [constraints, nothing]

theorem effective_of_given (htotal : r.given.streamTotalTimeoutSeconds = some c.values.streamTotalTimeoutSeconds)
    (hnonStream : r.given.nonStreamTimeoutSeconds = some c.values.nonStreamTimeoutSeconds) :
    r.effectiveStreamTotalTimeout = c.values.streamTotalTimeoutSeconds ∧
      r.effectiveNonStreamTimeout = c.values.nonStreamTimeoutSeconds := by
  constructor
  · rw [LLMBackendConfig.effectiveStreamTotalTimeout, htotal]
    change (withDefaults N r.given).streamTotalTimeoutSeconds = _
    rw [withDefaults, htotal]
    rfl
  · rw [LLMBackendConfig.effectiveNonStreamTimeout, hnonStream]
    change (withDefaults N r.given).nonStreamTimeoutSeconds = _
    rw [withDefaults, hnonStream]
    rfl

theorem kept_iff : Kept c ↔ Fits c ∧ c.values.streamTotalTimeoutSeconds = c.effectiveStreamTotalTimeout ∧
    c.values.nonStreamTimeoutSeconds = c.effectiveNonStreamTimeout := by
  obtain ⟨-, -, -, hbudget⟩ := accepted_iff.mp c.accepted
  obtain ⟨-, htotal, hnonStream⟩ := validate_eq_ok.mp hbudget
  rw [Kept, Fits, LLMBackendConfig.effectiveStreamTotalTimeout, LLMBackendConfig.effectiveNonStreamTimeout]
  constructor
  · intro h
    obtain ⟨hs, hn⟩ := h
    refine ⟨⟨?_, ?_⟩, ?_, ?_⟩
    · cases hs with
      | inl hs => exact htotal hs
      | inr hs => exact hs.1
    · cases hn with
      | inl hn => exact hnonStream hn
      | inr hn => exact hn.1
    · split
      · rfl
      · next hnot => exact (hs.resolve_left hnot).2.symm
    · split
      · rfl
      · next hnot => exact (hn.resolve_left hnot).2.symm
  · intro h
    obtain ⟨⟨hactivity, hretries⟩, hs, hn⟩ := h
    constructor
    · by_cases hgiven : c.given.streamTotalTimeoutSeconds.isSome
      · exact .inl hgiven
      · rw [if_neg hgiven] at hs
        exact .inr ⟨hactivity, hs.symm⟩
    · by_cases hgiven : c.given.nonStreamTimeoutSeconds.isSome
      · exact .inl hgiven
      · rw [if_neg hgiven] at hn
        exact .inr ⟨hretries, hn.symm⟩

theorem saved_backend_iff : (∃ c', modelValidate N c.modelDump = .ok c' ∧ Same c c') ↔ Kept c := by
  rw [kept_iff]
  constructor
  · intro h
    obtain ⟨c', hok, hsame⟩ := h
    have hgiven : c'.given = overlaid nothing c.values := modelValidate_eq_ok.mp hok
    have haccepted : checkFields N (overlaid nothing c.values) = .ok () := hgiven ▸ c'.accepted
    obtain ⟨hs, hn⟩ : c'.effectiveStreamTotalTimeout = c.values.streamTotalTimeoutSeconds ∧
        c'.effectiveNonStreamTimeout = c.values.nonStreamTimeoutSeconds :=
      effective_of_given (by rw [hgiven]; rfl) (by rw [hgiven]; rfl)
    exact ⟨(accepted_over constraints_nothing untouched_nothing).mp haccepted, hs.symm.trans hsame.streamTotal,
      hn.symm.trans hsame.nonStream⟩
  · intro h
    obtain ⟨hfits, hs, hn⟩ := h
    let c' : LLMBackendConfig α N :=
      ⟨overlaid nothing c.values, (accepted_over constraints_nothing untouched_nothing).mpr hfits⟩
    obtain ⟨hs', hn'⟩ : c'.effectiveStreamTotalTimeout = c.values.streamTotalTimeoutSeconds ∧
        c'.effectiveNonStreamTimeout = c.values.nonStreamTimeoutSeconds := effective_of_given rfl rfl
    exact ⟨c', modelValidate_eq_ok.mpr rfl, rfl, hs'.trans hs, hn'.trans hn⟩

theorem updated_backend (hkept : Kept c) (h : Untouched r.given) : ∃ c', updatedBackend c r = .ok c' ∧
    c'.effectiveStreamTotalTimeout = c.effectiveStreamTotalTimeout ∧
    c'.effectiveNonStreamTimeout = c.effectiveNonStreamTimeout := by
  obtain ⟨hfits, hs, hn⟩ := kept_iff.mp hkept
  obtain ⟨-, -, hconstraints, -⟩ := accepted_iff.mp r.accepted
  have hover : checkFields N (overlaid r.given c.values) = .ok () := (accepted_over hconstraints h).mpr hfits
  have haccepted : checkFields N (submitted c r) = .ok () := by
    unfold submitted
    dsimp only
    split
    · rw [accepted_iff] at hover ⊢
      exact hover
    · exact hover
  let c' : LLMBackendConfig α N := ⟨submitted c r, haccepted⟩
  have htotal : c'.given.streamTotalTimeoutSeconds = some c.values.streamTotalTimeoutSeconds := by
    change (submitted c r).streamTotalTimeoutSeconds = _
    unfold submitted
    dsimp only
    split <;> rw [overlaid, h.streamTotalTimeoutSeconds] <;> rfl
  have hnonStream : c'.given.nonStreamTimeoutSeconds = some c.values.nonStreamTimeoutSeconds := by
    change (submitted c r).nonStreamTimeoutSeconds = _
    unfold submitted
    dsimp only
    split <;> rw [overlaid, h.nonStreamTimeoutSeconds] <;> rfl
  obtain ⟨hs', hn'⟩ := effective_of_given htotal hnonStream
  exact ⟨c', modelValidate_eq_ok.mpr rfl, hs'.trans hs, hn'.trans hn⟩

/-- A configuration is loaded as saved, and an update without timeouts leaves the deadlines,
exactly when each backend either gives its deadlines or inherits their default. -/
theorem saved_iff (cs : List (LLMBackendConfig α N)) :
    ((∃ cs', loadConfig N (saveConfig cs) = .ok cs' ∧ List.Forall₂ Same cs cs') ∧
      ∀ c ∈ cs, ∀ r : LLMBackendConfig α N, Untouched r.given → ∃ c', updatedBackend c r = .ok c' ∧
        c'.effectiveStreamTotalTimeout = c.effectiveStreamTotalTimeout ∧
        c'.effectiveNonStreamTimeout = c.effectiveNonStreamTimeout) ↔ ∀ c ∈ cs, Kept c := by
  have hload : (∃ cs', loadConfig N (saveConfig cs) = .ok cs' ∧ List.Forall₂ Same cs cs') ↔
      ∀ c ∈ cs, ∃ c', modelValidate N c.modelDump = .ok c' ∧ Same c c' := by
    rw [← mapM_forall₂_iff, loadConfig, saveConfig, List.mapM_map]
    rfl
  rw [hload]
  constructor
  · intro h c hc
    exact saved_backend_iff.mp (h.1 c hc)
  · intro h
    exact ⟨fun c hc => saved_backend_iff.mpr (h c hc), fun c hc r hr => updated_backend (h c hc) hr⟩

def exact : Floats ℕ where
  tenths := id
  le a b := decide (a ≤ b)
  lt a b := decide (a < b)
  add := (· + ·)
  double a := 2 * a
  le_tenths _ _ := rfl
  lt_tenths _ _ := rfl

def legacy (requestTimeout firstByte : ℕ) : Given (ModelConfig Unit) Unit ℕ :=
  { nothing with
    name := some "main".toList
    adapter := some "openai".toList
    requestTimeoutSeconds := some requestTimeout
    streamFirstByteTimeoutSeconds := some firstByte }

/-- A short deadline becomes the default, and a configuration with a long first byte is not loaded again. -/
theorem legacy_lost :
    (∃ c : LLMBackendConfig Unit exact, c.effectiveStreamTotalTimeout = 300 ∧ ∀ c', modelValidate exact c.modelDump = .ok c' →
      c'.effectiveStreamTotalTimeout = 6000) ∧
    ∃ c : LLMBackendConfig Unit exact, ∀ c', modelValidate exact c.modelDump ≠ .ok c' := by
  refine ⟨⟨⟨legacy 300 600, rfl⟩, rfl, fun c' h => ?_⟩, ⟨legacy 9000 5000, rfl⟩, fun c' h => ?_⟩
  · have hgiven := modelValidate_eq_ok.mp h
    rw [LLMBackendConfig.effectiveStreamTotalTimeout, LLMBackendConfig.values, hgiven]
    rfl
  · have hgiven := modelValidate_eq_ok.mp h
    have haccepted := c'.accepted
    rw [hgiven] at haccepted
    cases haccepted

end Kirara.TimeoutBudgets
