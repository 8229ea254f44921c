import Kirara.Dicts
import Kirara.Schedules
import Kirara.TokenUsage

namespace Kirara.LogicalTraces

open Kirara.Channels Kirara.Dicts Kirara.Pricing Kirara.Schedules Kirara.TokenUsage

/-- What the trace reads of a `ProviderAttempt`. -/
structure Attempt where
  provider : Text
  success : Bool

/-- Whether `except Exception` catches it. -/
inductive ExceptionKind where
  | exception
  | generatorExit
  | baseException
  deriving DecidableEq

structure Raised where
  kind : ExceptionKind
  message : Text
  attempts : Option (List Attempt)

inductive Event (δ : Type) where
  | started (traceId backendName : Text)
  | completed (traceId backendName : Text) (attempts : List Attempt)
      (costSnapshot : Option CostSnapshot) (response : Response δ)
  | failed (traceId backendName : Text) (attempts : List Attempt) (error : Text)

/-- The active traces with their backends, and the events that were posted. -/
structure Tracer (δ : Type) where
  activeTraces : Dict Text Text
  events : List (Event δ)

/-- One logical request, with what the manager reads of its surroundings. -/
structure Setting where
  hasTracer : Bool
  startRaises : Bool
  completeRaises : Bool
  failRaises : Bool
  traceId : Text
  fallback : Text
  model : Option Text
  contents : List (List Part)
  candidates : List Text
  catalog : Option (List PriceVersion)
  requestedAt : Int

variable {δ : Type}

section Tracking

def Tracer.startRequestTracking (traceId backendName : Text) (T : Tracer δ) : Tracer δ :=
  ⟨T.activeTraces.set traceId backendName, T.events ++ [.started traceId backendName]⟩

def Tracer.finish (traceId backendName : Text) (event : Text → Event δ) (T : Tracer δ) :
    Tracer δ :=
  match T.activeTraces.get traceId with
  | none => T
  | some known =>
    ⟨T.activeTraces.pop traceId, T.events ++ [event (if backendName = [] then known else backendName)]⟩

def Event.terminal (traceId : Text) : Event δ → Option Bool
  | .started _ _ => none
  | .completed i _ _ _ _ => if i = traceId then some true else none
  | .failed i _ _ _ => if i = traceId then some false else none

def Tracer.terminals (T : Tracer δ) (traceId : Text) : List Bool :=
  T.events.filterMap (Event.terminal traceId)

variable (S : Setting)

def Setting.started : Bool := S.hasTracer && !S.startRaises

/-- `_candidate_provider`. -/
def Setting.initialProvider : Text := S.candidates.head?.getD "unknown".toList

def finalProvider (attempts : List Attempt) (fallback : Text) : Text :=
  let last := (attempts.getLast?.map Attempt.provider).getD fallback
  match attempts.reverse.find? Attempt.success with
  | some attempt => if attempt.provider = [] then last else attempt.provider
  | none => last

def startLogicalTrace (T : Tracer δ) : Text × Tracer δ :=
  if S.started then (S.traceId, T.startRequestTracking S.traceId S.initialProvider)
  else (S.fallback, T)

def completeLogicalTrace (traceId : Text) (response : Response δ) (attempts : List Attempt)
    (backendName : Text) (costSnapshot : Option CostSnapshot) (T : Tracer δ) : Tracer δ :=
  if S.hasTracer && !S.completeRaises then
    T.finish traceId backendName (fun b => .completed traceId b attempts costSnapshot response)
  else T

def failLogicalTrace (traceId error : Text) (attempts : List Attempt) (backendName : Text)
    (T : Tracer δ) : Tracer δ :=
  if S.hasTracer && !S.failRaises then
    T.finish traceId backendName (fun b => .failed traceId b attempts error)
  else T

/-- `except (LookupError, ValueError)`. It lets `decimal.InvalidOperation` pass. -/
def unpriced : Except PricingError CostSnapshot → Except PricingError (Option CostSnapshot)
  | .ok snapshot => .ok (some snapshot)
  | .error .lookupError => .ok none
  | .error .valueError => .ok none
  | .error .invalidOperation => .error .invalidOperation

/-- `_calculate_cost_snapshot`. -/
def calculateSnapshot (response : Response δ) (provider : Text) :
    Except PricingError (Option CostSnapshot) :=
  match response.usage, S.catalog, response.model with
  | some usage, some catalog, some model =>
    if model = [] then .ok none
    else
      unpriced (resolve catalog provider model S.requestedAt >>= fun price =>
        calculateCostSnapshot usage price S.requestedAt provider model)
  | _, _, _ => .ok none

def invalidOperation : Raised := ⟨.exception, "decimal.InvalidOperation".toList, none⟩

section Tracker

variable {T : Tracer δ} {traceId backendName : Text}

@[simp] theorem terminals_startRequestTracking :
    (T.startRequestTracking traceId backendName).terminals traceId = T.terminals traceId := by
  simp [Tracer.startRequestTracking, Tracer.terminals, Event.terminal]

theorem terminals_finish {known : Text} {event : Text → Event δ} {success : Bool}
    (h : T.activeTraces.get traceId = some known) (he : ∀ b, (event b).terminal traceId = some success) :
    (T.finish traceId backendName event).terminals traceId = T.terminals traceId ++ [success] := by
  simp [Tracer.finish, Tracer.terminals, h, he]

end Tracker

section Calls

variable {S} {T : Tracer δ}

theorem hasTracer_of_started (h : S.started) : S.hasTracer := (Bool.and_eq_true_iff.mp h).1

theorem terminals_complete (response : Response δ) (attempts : List Attempt) (backendName : Text)
    (costSnapshot : Option CostSnapshot) {known : Text} (hs : S.started)
    (ha : T.activeTraces.get S.traceId = some known) :
    (completeLogicalTrace S S.traceId response attempts backendName costSnapshot T).terminals S.traceId =
        T.terminals S.traceId ++ [true] ↔ S.completeRaises = false := by
  unfold completeLogicalTrace
  rw [hasTracer_of_started hs, Bool.true_and]
  cases S.completeRaises with
  | false => simp [terminals_finish ha, Event.terminal]
  | true => simp

theorem terminals_fail (error : Text) (attempts : List Attempt) (backendName : Text) {known : Text}
    (hs : S.started) (ha : T.activeTraces.get S.traceId = some known) :
    (failLogicalTrace S S.traceId error attempts backendName T).terminals S.traceId =
        T.terminals S.traceId ++ [false] ↔ S.failRaises = false := by
  unfold failLogicalTrace
  rw [hasTracer_of_started hs, Bool.true_and]
  cases S.failRaises with
  | false => simp [terminals_finish ha, Event.terminal]
  | true => simp

theorem startLogicalTrace_of_started (hs : S.started) :
    startLogicalTrace S T = (S.traceId, T.startRequestTracking S.traceId S.initialProvider) :=
  if_pos hs

end Calls

/-- Whatever price applies, the costs of the response fit. -/
def Priceable (response : Response δ) (provider : Text) : Prop :=
  ∀ usage catalog model price, response.usage = some usage → S.catalog = some catalog →
    response.model = some model → model ≠ [] →
    resolve catalog provider model S.requestedAt = .ok price → price.Covers usage

theorem unpriced_ok_iff {x : Except PricingError CostSnapshot} :
    (∃ c, unpriced x = .ok c) ↔ x ≠ .error .invalidOperation := by
  cases x with
  | ok snapshot => exact ⟨fun _ h => (nomatch h), fun _ => ⟨_, rfl⟩⟩
  | error e => cases e <;> simp [unpriced]

theorem resolve_bind_ne_iff {catalog : List PriceVersion} {usage : Usage} {provider model : Text} :
    (resolve catalog provider model S.requestedAt >>= fun price =>
        calculateCostSnapshot usage price S.requestedAt provider model) ≠ .error .invalidOperation ↔
      ∀ price, resolve catalog provider model S.requestedAt = .ok price → price.Covers usage := by
  cases hr : resolve catalog provider model S.requestedAt with
  | error e =>
    cases resolve_error hr
    exact ⟨fun _ _ hp => (nomatch hp), fun _ he => (nomatch he)⟩
  | ok price =>
    obtain ⟨-, rfl, rfl, -⟩ := resolve_mem hr
    constructor
    · intro h p hp
      cases hp
      cases hc : calculateCostSnapshot usage price S.requestedAt price.provider price.model with
      | ok c => exact calculateCostSnapshot_ok_iff.mp ⟨c, hc⟩
      | error e =>
        cases calculateCostSnapshot_error hc
        exact absurd hc h
    · intro h he
      obtain ⟨c, hc⟩ := calculateCostSnapshot_ok_iff (t := S.requestedAt).mpr (h price rfl)
      exact nomatch hc.symm.trans he

theorem calculateSnapshot_ok_iff {response : Response δ} {provider : Text} :
    (∃ c, calculateSnapshot S response provider = .ok c) ↔ Priceable S response provider := by
  unfold calculateSnapshot Priceable
  split
  · next usage catalog model hu hc hm =>
    by_cases hmodel : model = []
    · rw [if_pos hmodel]
      refine ⟨fun _ u c m price _ _ hm' hne => ?_, fun _ => ⟨none, rfl⟩⟩
      exact absurd hmodel (Option.some.inj (hm.symm.trans hm') ▸ hne)
    · rw [if_neg hmodel, unpriced_ok_iff, resolve_bind_ne_iff]
      constructor
      · intro h u c m price hu' hc' hm' _ hp
        cases hu.symm.trans hu'
        cases hc.symm.trans hc'
        cases hm.symm.trans hm'
        exact h price hp
      · intro h price hp
        exact h usage catalog model price hu hc hm hmodel hp
  · next hnone =>
    refine ⟨fun _ u c m price hu hc hm => ?_, fun _ => ⟨none, rfl⟩⟩
    exact absurd hm (hnone u c m hu hc)

end Tracking

section Chat

/-- `execute_chat`, given how the attempts at the providers come out. -/
def executeChat (S : Setting) (T : Tracer δ)
    (outcome : Except Raised (Response δ × List Attempt)) :
    Except Raised (Response δ × List Attempt) × Tracer δ :=
  let (traceId, T) := startLogicalTrace S T
  match outcome with
  | .error e =>
    let attempts := e.attempts.getD []
    match e.kind with
    | .exception =>
      (.error e, failLogicalTrace S traceId e.message attempts (finalProvider attempts S.initialProvider) T)
    | _ => (.error e, T)
  | .ok (result, attempts) =>
    let response := attachEstimatedUsage S.contents (markProviderUsage result)
    let provider := finalProvider attempts S.initialProvider
    match calculateSnapshot S response provider with
    | .error _ => (.error invalidOperation, T)
    | .ok snapshot =>
      (.ok (response, attempts), completeLogicalTrace S traceId response attempts provider snapshot T)

variable (S : Setting) (T : Tracer δ)

/-- An answer is handed on, and the trace gets the one event that tells so. -/
structure ChatTraced (outcome : Except Raised (Response δ × List Attempt)) : Prop where
  answered : outcome.isOk → (executeChat S T outcome).1.isOk
  traced : S.started → (executeChat S T outcome).2.terminals S.traceId =
    T.terminals S.traceId ++ [(executeChat S T outcome).1.isOk]

/-- The costs fit, the providers fail with an `Exception`, and the tracer takes the event. -/
def ChatCareful : Except Raised (Response δ × List Attempt) → Prop
  | .ok (result, attempts) =>
    Priceable S (attachEstimatedUsage S.contents (markProviderUsage result))
      (finalProvider attempts S.initialProvider) ∧ (S.started → S.completeRaises = false)
  | .error e => S.started → e.kind = .exception ∧ S.failRaises = false

variable {S T}

theorem error_traced_iff {e : Raised} (hs : S.started) :
    (executeChat S T (.error e)).2.terminals S.traceId = T.terminals S.traceId ++ [false] ↔
      e.kind = .exception ∧ S.failRaises = false := by
  have ha : (T.startRequestTracking S.traceId S.initialProvider).activeTraces.get S.traceId =
      some S.initialProvider := Dict.get_set_self
  simp only [executeChat, startLogicalTrace_of_started hs]
  cases e.kind with
  | exception =>
    have h := terminals_fail e.message (e.attempts.getD [])
      (finalProvider (e.attempts.getD []) S.initialProvider) hs ha
    rw [terminals_startRequestTracking] at h
    simp [h]
  | generatorExit => simp
  | baseException => simp

theorem answer_traced_iff {result : Response δ} {attempts : List Attempt} (hs : S.started)
    (hp : Priceable S (attachEstimatedUsage S.contents (markProviderUsage result))
      (finalProvider attempts S.initialProvider)) :
    (executeChat S T (.ok (result, attempts))).2.terminals S.traceId =
        T.terminals S.traceId ++ [true] ↔ S.completeRaises = false := by
  have ha : (T.startRequestTracking S.traceId S.initialProvider).activeTraces.get S.traceId =
      some S.initialProvider := Dict.get_set_self
  obtain ⟨c, hc⟩ := (calculateSnapshot_ok_iff S).mpr hp
  have h := terminals_complete (attachEstimatedUsage S.contents (markProviderUsage result)) attempts
    (finalProvider attempts S.initialProvider) c hs ha
  rw [terminals_startRequestTracking] at h
  simp only [executeChat, startLogicalTrace_of_started hs, hc, h]

theorem answered_iff {result : Response δ} {attempts : List Attempt} :
    (executeChat S T (.ok (result, attempts))).1.isOk ↔
      Priceable S (attachEstimatedUsage S.contents (markProviderUsage result))
        (finalProvider attempts S.initialProvider) := by
  rw [← calculateSnapshot_ok_iff]
  simp only [executeChat]
  cases calculateSnapshot S (attachEstimatedUsage S.contents (markProviderUsage result))
    (finalProvider attempts S.initialProvider) with
  | error e => simp [Except.isOk, Except.toBool]
  | ok c => simp [Except.isOk, Except.toBool]

theorem chatTraced_iff (outcome : Except Raised (Response δ × List Attempt)) :
    ChatTraced S T outcome ↔ ChatCareful S outcome := by
  cases outcome with
  | error e =>
    have hfail : (executeChat S T (.error e)).1.isOk = false := by
      simp only [executeChat]
      cases e.kind <;> rfl
    constructor
    · intro h hs
      exact (error_traced_iff hs).mp (hfail ▸ h.traced hs)
    · intro h
      exact ⟨nofun, fun hs => hfail ▸ (error_traced_iff hs).mpr (h hs)⟩
  | ok r =>
    obtain ⟨result, attempts⟩ := r
    constructor
    · intro h
      have hok := h.answered rfl
      have hp := answered_iff.mp hok
      exact ⟨hp, fun hs => (answer_traced_iff hs hp).mp (hok ▸ h.traced hs)⟩
    · intro h
      have hok := (answered_iff (T := T)).mpr h.1
      exact ⟨fun _ => hok, fun hs => hok ▸ (answer_traced_iff hs h.1).mpr (h.2 hs)⟩

end Chat

section Stream

inductive Chunk (δ : Type) where
  | response (r : Response δ)
  | other

/-- What the iterator over the providers yields and how it ends, with the attempts so far and in
the end. -/
structure Providers (δ : Type) where
  chunks : List (Chunk δ)
  ending : Option Raised
  attempts : List Attempt
  finalAttempts : List Attempt

/-- The generator of `_trace_stream_iterator`: what is to come and the responses so far. -/
inductive Generator (δ : Type) where
  | live (rest : List (Chunk δ)) (responses : List (Response δ))
  | finished

/-- A `StreamExecutionResult`. That the consumer has the whole response is only recorded. -/
structure Stream (δ : Type) where
  generator : Generator δ
  started : Bool
  closed : Bool
  tracer : Tracer δ
  exhausted : Bool

/-- What a consumer does: ask for a chunk, close the stream, or fail and drop it. -/
inductive Label where
  | next
  | close
  | drop
  deriving DecidableEq

inductive Reply (δ : Type) where
  | chunk (c : Chunk δ)
  | stop
  | raised (e : Raised)
  | done

def executeStream (S : Setting) (T : Tracer δ) (P : Providers δ) (cancelled : Bool) :
    Except Raised (Stream δ) × Tracer δ :=
  let (traceId, T) := startLogicalTrace S T
  let failed (message : Text) :=
    (.error ⟨.exception, message, some []⟩, failLogicalTrace S traceId message [] S.initialProvider T)
  if cancelled then failed "LLM request cancelled".toList
  else if S.candidates = [] then
    failed ("No eligible providers for model ".toList ++ S.model.getD [])
  else (.ok ⟨.live P.chunks [], false, false, T, false⟩, T)

def markChunk : Chunk δ → Chunk δ
  | .response r => .response (markProviderUsage r)
  | .other => .other

def Chunk.collected : Chunk δ → List (Response δ)
  | .response r => [r]
  | .other => []

variable (S : Setting) (P : Providers δ)

def Setting.currentId : Text := if S.started then S.traceId else S.fallback

def Stream.end (s : Stream δ) (T : Tracer δ) (exhausted : Bool) : Stream δ :=
  { s with generator := .finished, closed := true, tracer := T, exhausted := exhausted }

/-- The generator has no more chunks to hand on. -/
def exhaust (responses : List (Response δ)) (s : Stream δ) : Stream δ × Reply δ :=
  match P.ending with
  | none =>
    let response := attachEstimatedUsage S.contents (combineStreamResponses S.model responses)
    let provider := finalProvider P.finalAttempts S.initialProvider
    match calculateSnapshot S response provider with
    | .error _ => (s.end s.tracer false, .raised invalidOperation)
    | .ok snapshot =>
      (s.end (completeLogicalTrace S S.currentId response P.finalAttempts provider snapshot s.tracer)
        true, .stop)
  | some e =>
    match e.kind with
    | .exception =>
      let attempts := e.attempts.getD P.finalAttempts
      (s.end (failLogicalTrace S S.currentId e.message attempts
        (finalProvider attempts S.initialProvider) s.tracer) false, .raised e)
    | .generatorExit =>
      (s.end (failLogicalTrace S S.currentId "LLM stream closed before completion".toList
        P.finalAttempts (finalProvider P.finalAttempts S.initialProvider) s.tracer) false, .raised e)
    | .baseException => (s.end s.tracer false, .raised e)

/-- `GeneratorExit` at the `yield` the generator is suspended at. -/
def interrupt (s : Stream δ) : Stream δ :=
  s.end (failLogicalTrace S S.currentId "LLM stream closed before completion".toList P.attempts
    (finalProvider P.attempts S.initialProvider) s.tracer) false

def step (s : Stream δ) : Label → Stream δ × Reply δ
  | .next =>
    if s.closed then (s, .stop)
    else
      match s.generator with
      | .finished => ({ s with started := true, closed := true }, .stop)
      | .live [] responses => exhaust S P responses { s with started := true }
      | .live (c :: rest) responses =>
        ({ s with started := true, generator := .live rest (responses ++ (markChunk c).collected) },
          .chunk (markChunk c))
  | .close =>
    if s.closed then (s, .done)
    else
      match s.generator, s.started with
      | .live _ _, true => (interrupt S P s, .done)
      | .finished, true => ({ s with closed := true }, .done)
      | _, false =>
        (s.end (failLogicalTrace S S.currentId "LLM stream closed before iteration".toList []
          S.initialProvider s.tracer) false, .done)
  | .drop =>
    match s.generator with
    | .live _ _ => if s.started then (interrupt S P s, .done) else (s, .done)
    | .finished => (s, .done)

def next (s : Stream δ) (l : Label) : Option (Stream δ) := some (step S P s l).1

def opened (T : Tracer δ) : Stream δ :=
  ⟨.live P.chunks [], false, false, (startLogicalTrace S T).2, false⟩

/-- The terminal events that the stream should have posted so far. -/
def Stream.verdict (s : Stream δ) : List Bool :=
  match s.generator with
  | .live _ _ => []
  | .finished => [s.exhausted]

def Traced (earlier : List Bool) (s : Stream δ) : Prop :=
  S.started → s.tracer.terminals S.traceId = earlier ++ s.verdict

/-- The trace has its events, and the consumer sees no error but a provider's. -/
structure Keeps (earlier : List Bool) (s : Stream δ) (l : Label) : Prop where
  traced : Traced S earlier (step S P s l).1
  clean : ∀ e, (step S P s l).2 = .raised e → P.ending = some e

def EndCareful (responses : List (Response δ)) : Prop :=
  match P.ending with
  | none =>
    Priceable S (attachEstimatedUsage S.contents (combineStreamResponses S.model responses))
      (finalProvider P.finalAttempts S.initialProvider) ∧ (S.started → S.completeRaises = false)
  | some e => S.started → e.kind ≠ .baseException ∧ S.failRaises = false

/-- The costs fit, the providers raise no bare `BaseException`, and the event is taken. -/
def Careful (s : Stream δ) : Label → Prop
  | .next =>
    match s.generator with
    | .live [] responses => EndCareful S P responses
    | _ => True
  | .close =>
    match s.generator with
    | .live _ _ => S.started → S.failRaises = false
    | .finished => True
  | .drop =>
    match s.generator with
    | .live _ _ => S.started → s.started → S.failRaises = false
    | .finished => True

/-- A stream that is not over has its trace among the active ones. -/
structure Sound (s : Stream δ) : Prop where
  closed_iff : s.closed ↔ s.generator = .finished
  active : S.started → ∀ rest responses, s.generator = .live rest responses →
    ∃ known, s.tracer.activeTraces.get S.traceId = some known

section Steps

variable {S P} {s : Stream δ} {earlier : List Bool}

theorem sound_end {T : Tracer δ} {exhausted : Bool} : Sound S (s.end T exhausted) where
  closed_iff := by simp [Stream.end]
  active := by
    intro _ _ _ h
    cases h

theorem sound_exhaust {responses : List (Response δ)} : Sound S (exhaust S P responses s).1 := by
  unfold exhaust
  split
  · dsimp only
    split
    · exact sound_end
    · exact sound_end
  · dsimp only
    split
    · exact sound_end
    · exact sound_end
    · exact sound_end

theorem step_finished (h : Sound S s) (hg : s.generator = .finished) (l : Label) :
    (step S P s l).1 = s ∧ ∀ e, (step S P s l).2 ≠ .raised e := by
  have hc : s.closed = true := h.closed_iff.mpr hg
  cases l <;> simp [step, hc, hg]

theorem closed_of_live (h : Sound S s) {rest : List (Chunk δ)} {responses : List (Response δ)}
    (hg : s.generator = .live rest responses) : s.closed = false := by
  apply Bool.eq_false_iff.mpr
  intro hc
  cases hg.symm.trans (h.closed_iff.mp hc)

theorem sound_step (h : Sound S s) (l : Label) : Sound S (step S P s l).1 := by
  cases hg : s.generator with
  | finished =>
    rw [(step_finished h hg l).1]
    exact h
  | live rest responses =>
    have hc := closed_of_live h hg
    cases l with
    | next =>
      cases rest with
      | nil =>
        simp only [step, hc, hg, Bool.false_eq_true, if_false]
        exact sound_exhaust
      | cons c rest =>
        simp only [step, hc, hg, Bool.false_eq_true, if_false]
        refine ⟨by simp, fun hs _ _ _ => h.active hs _ _ hg⟩
    | close =>
      simp only [step, hc, hg, Bool.false_eq_true, if_false]
      split
      · exact sound_end
      · next heq _ => cases heq
      · exact sound_end
    | drop =>
      simp only [step, hg]
      split
      · exact sound_end
      · exact h

variable {rest : List (Chunk δ)} {responses : List (Response δ)}

theorem traced_fail_iff (h : Sound S s) (ht : Traced S earlier s)
    (hg : s.generator = .live rest responses) (error : Text) (attempts : List Attempt) (backendName : Text) :
    Traced S earlier
        (s.end (failLogicalTrace S S.currentId error attempts backendName s.tracer) false) ↔
      (S.started → S.failRaises = false) := by
  refine forall_congr' (fun hs => ?_)
  obtain ⟨known, hk⟩ := h.active hs _ _ hg
  have hv : s.tracer.terminals S.traceId = earlier := by simpa [Stream.verdict, hg] using ht hs
  rw [Setting.currentId, if_pos hs, ← terminals_fail error attempts backendName hs hk, hv]
  exact Iff.rfl

theorem traced_complete_iff (h : Sound S s) (ht : Traced S earlier s)
    (hg : s.generator = .live rest responses) (response : Response δ) (attempts : List Attempt)
    (backendName : Text) (costSnapshot : Option CostSnapshot) : Traced S earlier
        (s.end (completeLogicalTrace S S.currentId response attempts backendName costSnapshot s.tracer)
          true) ↔
      (S.started → S.completeRaises = false) := by
  refine forall_congr' (fun hs => ?_)
  obtain ⟨known, hk⟩ := h.active hs _ _ hg
  have hv : s.tracer.terminals S.traceId = earlier := by simpa [Stream.verdict, hg] using ht hs
  rw [Setting.currentId, if_pos hs,
    ← terminals_complete response attempts backendName costSnapshot hs hk, hv]
  exact Iff.rfl

theorem traced_silent_iff (ht : Traced S earlier s) (hg : s.generator = .live rest responses) :
    Traced S earlier (s.end s.tracer false) ↔ ¬ S.started := by
  refine forall_congr' (fun hs => ?_)
  have hv : s.tracer.terminals S.traceId = earlier := by simpa [Stream.verdict, hg] using ht hs
  simp [Stream.end, Stream.verdict, hv]

theorem exhaust_iff (h : Sound S s) (ht : Traced S earlier s) (hg : s.generator = .live rest responses) :
    (Traced S earlier (exhaust S P responses s).1 ∧
        ∀ e, (exhaust S P responses s).2 = .raised e → P.ending = some e) ↔
      EndCareful S P responses := by
  unfold exhaust EndCareful
  cases he : P.ending with
  | none =>
    dsimp only
    rw [← calculateSnapshot_ok_iff]
    cases calculateSnapshot S
      (attachEstimatedUsage S.contents (combineStreamResponses S.model responses))
      (finalProvider P.finalAttempts S.initialProvider) with
    | error x => simp
    | ok c =>
      dsimp only
      rw [traced_complete_iff h ht hg]
      simp
  | some e =>
    dsimp only
    cases e.kind with
    | exception => simp [traced_fail_iff h ht hg]
    | generatorExit => simp [traced_fail_iff h ht hg]
    | baseException => simp [traced_silent_iff ht hg]

theorem keeps_iff (h : Sound S s) (ht : Traced S earlier s) (l : Label) :
    Keeps S P earlier s l ↔ Careful S P s l := by
  have hsplit : Keeps S P earlier s l ↔ Traced S earlier (step S P s l).1 ∧
      ∀ e, (step S P s l).2 = .raised e → P.ending = some e :=
    ⟨fun hk => ⟨hk.traced, hk.clean⟩, fun hk => ⟨hk.1, hk.2⟩⟩
  rw [hsplit]
  cases hg : s.generator with
  | finished =>
    obtain ⟨hstep, hclean⟩ := step_finished (P := P) h hg l
    have hl : Careful S P s l := by cases l <;> simp [Careful, hg]
    rw [hstep]
    exact iff_of_true ⟨ht, fun e he => absurd he (hclean e)⟩ hl
  | live rest responses =>
    have hc := closed_of_live h hg
    cases l with
    | next =>
      cases rest with
      | nil =>
        have hs' : Sound S { s with started := true } := ⟨h.closed_iff, h.active⟩
        have hstep : step S P s .next = exhaust S P responses { s with started := true } := by
          simp [step, hc, hg]
        have hcareful : Careful S P s .next = EndCareful S P responses := by simp [Careful, hg]
        rw [hstep, hcareful]
        exact exhaust_iff hs' ht hg
      | cons c rest =>
        simp only [step, Careful, hc, hg, Bool.false_eq_true, if_false]
        refine iff_of_true ⟨fun hs => ?_, fun e he => (nomatch he)⟩ trivial
        simpa [Stream.verdict, hg] using ht hs
    | close =>
      cases hb : s.started with
      | false => simp [step, Careful, hc, hg, hb, traced_fail_iff h ht hg]
      | true => simp [step, Careful, hc, hg, hb, interrupt, traced_fail_iff h ht hg]
    | drop =>
      cases hb : s.started with
      | false => simp [step, Careful, hg, hb, ht]
      | true => simp [step, Careful, hg, hb, interrupt, traced_fail_iff h ht hg]

end Steps

variable (T : Tracer δ)

theorem sound_opened : Sound S (opened S P T) where
  closed_iff := by simp [opened]
  active := by
    intro hs _ _ _
    exact ⟨S.initialProvider, by
      simp [opened, startLogicalTrace_of_started hs, Tracer.startRequestTracking]⟩

theorem traced_opened : Traced S (T.terminals S.traceId) (opened S P T) := by
  intro hs
  simp [opened, startLogicalTrace_of_started hs, Stream.verdict]

/-- A refused stream ends its trace; another has its events after every step. -/
def StreamTraced (T : Tracer δ) (cancelled : Bool) (labels : List Label) : Prop :=
  match executeStream S T P cancelled with
  | (.error _, T') => S.started → T'.terminals S.traceId = T.terminals S.traceId ++ [false]
  | (.ok s, _) => Along (next S P) (Keeps S P (T.terminals S.traceId)) s labels

def StreamCareful (T : Tracer δ) (cancelled : Bool) (labels : List Label) : Prop :=
  if cancelled ∨ S.candidates = [] then S.started → S.failRaises = false
  else Along (next S P) (Careful S P) (opened S P T) labels

theorem along_iff (labels : List Label) :
    Along (next S P) (Keeps S P (T.terminals S.traceId)) (opened S P T) labels ↔
      Along (next S P) (Careful S P) (opened S P T) labels := by
  have hstart := And.intro (sound_opened S P T) (traced_opened S P T)
  constructor
  · apply along_of_invariant (next S P)
      (I := fun s => Sound S s ∧ Traced S (T.terminals S.traceId) s) _ _ hstart
    · intro s l hs hk
      exact (keeps_iff hs.1 hs.2 l).mp hk
    · intro s l t hk hs ht
      cases ht
      exact ⟨sound_step hs.1 l, hk.traced⟩
  · apply along_of_invariant (next S P)
      (I := fun s => Sound S s ∧ Traced S (T.terminals S.traceId) s) _ _ hstart
    · intro s l hs hc
      exact (keeps_iff hs.1 hs.2 l).mpr hc
    · intro s l t hc hs ht
      cases ht
      exact ⟨sound_step hs.1 l, ((keeps_iff hs.1 hs.2 l).mpr hc).traced⟩

theorem refused_iff (error : Text) :
    (S.started → (failLogicalTrace S (startLogicalTrace S T).1 error [] S.initialProvider
        (startLogicalTrace S T).2).terminals S.traceId = T.terminals S.traceId ++ [false]) ↔
      (S.started → S.failRaises = false) := by
  refine forall_congr' (fun hs => ?_)
  have ha : (T.startRequestTracking S.traceId S.initialProvider).activeTraces.get S.traceId =
      some S.initialProvider := Dict.get_set_self
  have h := terminals_fail error [] S.initialProvider hs ha
  rw [terminals_startRequestTracking] at h
  rw [startLogicalTrace_of_started hs, h]

theorem streamTraced_iff (cancelled : Bool) (labels : List Label) :
    StreamTraced S P T cancelled labels ↔ StreamCareful S P T cancelled labels := by
  unfold StreamTraced StreamCareful executeStream
  cases cancelled with
  | true => simpa using refused_iff S T _
  | false =>
    by_cases hc : S.candidates = []
    · simpa [hc] using refused_iff S T _
    · simpa [hc, opened] using along_iff S P T labels

/-- The trace of every logical request gets exactly its terminal event, and no error of the
manager's own reaches the caller, just in case the request is careful. -/
theorem terminal_event_iff (T : Tracer δ) : (∀ outcome, ChatTraced S T outcome ↔ ChatCareful S outcome) ∧
      ∀ cancelled labels, StreamTraced S P T cancelled labels ↔ StreamCareful S P T cancelled labels :=
  ⟨chatTraced_iff, streamTraced_iff S P T⟩

def outputPrice : PriceVersion where
  versionId := ['v']
  provider := ['p']
  model := ['m']
  effectiveFrom := 0
  currency := ['U', 'S', 'D']
  inputPerMillion := ⟨0, 0⟩
  outputPerMillion := ⟨1, 20⟩
  cacheReadPerMillion := ⟨0, 0⟩
  cacheWritePerMillion := ⟨0, 0⟩

def pricedRequest : Setting where
  hasTracer := true
  startRaises := false
  completeRaises := false
  failRaises := false
  traceId := ['t']
  fallback := ['f']
  model := some ['m']
  contents := []
  candidates := [['p']]
  catalog := some [outputPrice]
  requestedAt := 1

def millionTokens : Response Unit where
  model := some ['m']
  usage := some {
    completionTokens := some 1000000
    promptTokens := some 1
    totalTokens := some 1000001
    cachedTokens := none
    cacheWriteTokens := none
    source := .unknown }
  message := ⟨['a'], [.text ['y']], none, none⟩

/-- The provider has answered, but with a price too high for the precision the caller gets an
exception, and the trace no terminal event. -/
theorem overpriced_answer_lost :
    (executeChat pricedRequest ⟨Dict.empty, []⟩ (.ok (millionTokens, [⟨['p'], true⟩]))).1.isOk = false ∧
      (executeChat pricedRequest ⟨Dict.empty, []⟩
        (.ok (millionTokens, [⟨['p'], true⟩]))).2.terminals ['t'] = [] ∧
      ¬ ChatTraced pricedRequest ⟨Dict.empty, []⟩ (.ok (millionTokens, [⟨['p'], true⟩])) := by
  have hlost : (executeChat pricedRequest ⟨Dict.empty, []⟩
      (.ok (millionTokens, [⟨['p'], true⟩]))).1.isOk = false := by
    decide +kernel
  refine ⟨hlost, by decide +kernel, fun h => ?_⟩
  have hok := h.answered rfl
  rw [hlost] at hok
  cases hok

end Stream

end Kirara.LogicalTraces
