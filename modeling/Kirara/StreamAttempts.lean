import Kirara.Failover
import Kirara.LoadedBackends

namespace Kirara.StreamAttempts

open Kirara.Channels Kirara.Failover Kirara.LoadedBackends

/-- What `classify_llm_error` reads of an exception, its message in lower case. -/
structure LlmError where
  requestCancelled : Bool
  isException : Bool
  statusCode : Option Int
  timeout : Bool
  network : Bool
  message : Text

def LlmError.says (e : LlmError) (tokens : List String) : Bool := tokens.any (fun token => token.toList <:+: e.message)

def classifyLlmError (e : LlmError) : ErrorCategory :=
  let status := fun (low high : Int) => e.statusCode.any (fun code => low ≤ code ∧ code ≤ high)
  if e.requestCancelled then .cancelled
  else if status 401 401 || status 403 403 then .authentication
  else if status 408 408 then .timeout
  else if status 429 429 then .rateLimit
  else if status 500 599 then .upstream
  else if status 400 499 then .invalidRequest
  else if e.timeout then .timeout
  else if e.network then .network
  else if e.says ["content policy", "safety refusal", "safety filter", "policy rejection"] then .policyRejection
  else if e.says ["unauthorized", "forbidden", "invalid api key", "authentication failed"] then .authentication
  else if e.says ["invalid request", "validation error", "invalid parameter", "bad request"] then .invalidRequest
  else if e.says ["timeout", "timed out", "deadline exceeded"] then .timeout
  else if e.says ["connection refused", "connection reset", "name or service not known"] then .network
  else .unknown

def LlmError.ending (e : LlmError) : StreamEnding :=
  if e.requestCancelled then .requestCancelled
  else if e.isException then .error (classifyLlmError e)
  else .baseException

section Bridge

variable {χ : Type}

/-- What the worker of an attempt puts in its queue. -/
inductive Event (χ : Type) where
  | chunk (value : χ)
  | done
  | error (e : LlmError)

def Event.value : Event χ → Option χ
  | .chunk v => some v
  | _ => none

/-- A round of the wait: the clock, the flag before and after, and whether an event arrives. -/
structure Poll where
  now : ℚ
  cancelled : Bool
  arrived : Bool
  cancelledAfter : Bool

/-- An attempt: what the provider streams, and the rounds of the wait for it. -/
structure Stream (χ : Type) where
  events : List (Event χ × ℚ)
  polls : List Poll
  startedAt : ℚ
  firstByteTimeout : ℚ
  idleTimeout : ℚ
  completedAt : ℚ

def Stream.output (s : Stream χ) : List χ := s.events.filterMap (fun e => e.1.value)

/-- `_stream_adapter_events`. After the last round the time is up. -/
def streamAdapterEvents (deadline idleTimeout : ℚ) :
    ℚ → List Poll → List (Event χ × ℚ) → List (χ × ℚ) × StreamEnding
  | _, [], _ => ([], .error .timeout)
  | activityDeadline, poll :: polls, events =>
    if poll.cancelled then ([], .requestCancelled)
    else if min deadline activityDeadline - poll.now ≤ 0 then ([], .error .timeout)
    else if poll.arrived then
      match events with
      | [] => streamAdapterEvents deadline idleTimeout activityDeadline polls []
      | (event, receivedAt) :: events =>
        if poll.cancelledAfter then ([], .requestCancelled)
        else if deadline < receivedAt then ([], .error .timeout)
        else
          match event with
          | .error e => ([], e.ending)
          | .done => ([], .exhausted)
          | .chunk value =>
            let rest := streamAdapterEvents deadline idleTimeout (min deadline (receivedAt + idleTimeout)) polls events
            ((value, receivedAt) :: rest.1, rest.2)
    else streamAdapterEvents deadline idleTimeout activityDeadline polls events

def Stream.turn (deadline : ℚ) (s : Stream χ) : StreamTurn χ :=
  let bridged := streamAdapterEvents deadline s.idleTimeout (min deadline (s.startedAt + s.firstByteTimeout)) s.polls s.events
  ⟨bridged.1, bridged.2, s.completedAt⟩

theorem bridged_starts (deadline idleTimeout activityDeadline : ℚ) (polls : List Poll) (events : List (Event χ × ℚ)) :
    (streamAdapterEvents deadline idleTimeout activityDeadline polls events).1.map Prod.fst <+:
      events.filterMap (fun e => e.1.value) := by
  induction polls generalizing activityDeadline events with
  | nil => exact List.nil_prefix
  | cons poll polls ih =>
    rw [streamAdapterEvents.eq_def]
    dsimp only
    split
    · exact List.nil_prefix
    split
    · exact List.nil_prefix
    split
    · cases events with
      | nil => exact ih _ _
      | cons e events =>
        dsimp only
        split
        · exact List.nil_prefix
        split
        · exact List.nil_prefix
        obtain ⟨event, receivedAt⟩ := e
        cases event with
        | error | done => exact List.nil_prefix
        | chunk value => exact List.cons_prefix_cons.mpr ⟨rfl, ih _ _⟩
    · exact ih _ _

end Bridge

section Tries

variable {ρ ς χ : Type} {pass : ς → Pass χ} {deadline : ℚ}

/-- A turn of a candidate, or that it is left out because its circuit is open. -/
abbrev Try (ρ ς : Type) := Candidate ρ ς × Option Nat

/-- Each candidate has its turns in a row, at most one more than its retries. -/
inductive InPolicyOrder : List (Candidate ρ ς) → List (Try ρ ς) → Prop
  | nil {cs} : InPolicyOrder cs []
  | skipped {c cs tries} : InPolicyOrder cs tries → InPolicyOrder (c :: cs) ((c, none) :: tries)
  | ran {c cs n tries} : n ≤ c.providerRetries + 1 → InPolicyOrder cs tries →
    InPolicyOrder (c :: cs) ((List.range' 0 n).map (fun i => (c, some i)) ++ tries)

def delivers (pass : ς → Pass χ) : Try ρ ς → List χ
  | (_, none) => []
  | (c, some i) => (pass (c.turns i).body).delivered

def lists (pass : ς → Pass χ) : Try ρ ς → List (ρ × Nat)
  | (c, none) => [(c.provider, 0)]
  | (c, some i) => ((pass (c.turns i).body).reports.filter Report.listed).map (fun _ => (c.provider, i))

/-- Nothing was delivered, and the failure is one that may be retried. -/
def GoesOn (pass : ς → Pass χ) : Try ρ ς → Prop
  | (_, none) => True
  | (c, some i) => (pass (c.turns i).body).delivered = [] ∧
    ∃ category, (pass (c.turns i).body).ending = .failed category ∧ category.retryable = true

def tried (w : World ρ χ) : List (ρ × Nat) := w.attempts.map (fun a => (a.provider, a.retryIndex))

def Numbered (w : World ρ χ) : Prop := w.attempts.map ProviderAttempt.attempt = List.range' 1 w.attempts.length

structure Traced (pass : ς → Pass χ) (tries : List (Try ρ ς)) (w w' : World ρ χ) : Prop where
  delivered : w'.delivered = w.delivered ++ tries.flatMap (delivers pass)
  listed : tried w' = tried w ++ tries.flatMap (lists pass)
  numbered : Numbered w → Numbered w'

theorem Traced.refl (w : World ρ χ) : Traced pass ([] : List (Try ρ ς)) w w := ⟨by simp, by simp, id⟩

theorem Traced.trans {ts us : List (Try ρ ς)} {w w' w'' : World ρ χ} (h : Traced pass ts w w') (h' : Traced pass us w' w'') :
    Traced pass (ts ++ us) w w'' := by
  refine ⟨?_, ?_, fun hw => h'.numbered (h.numbered hw)⟩
  · rw [h'.delivered, h.delivered, List.flatMap_append, List.append_assoc]
  · rw [h'.listed, h.listed, List.flatMap_append, List.append_assoc]

theorem goesOn_of_decision {c : Candidate ρ ς} {i : Nat} {category : ErrorCategory}
    (hsilent : ∀ b category, (pass b).ending = .failed category → (pass b).delivered = [])
    (he : (pass (c.turns i).body).ending = .failed category) (h : retryDecision deadline c i category ≠ .stop true) :
    GoesOn pass (c, some i) := by
  refine ⟨hsilent _ category he, category, he, ?_⟩
  by_contra hretry
  simp [retryDecision, hretry] at h

variable [DecidableEq ρ]

theorem numbered_listAttempt {w : World ρ χ} {a : ProviderAttempt ρ} (ha : a.attempt = w.attempts.length + 1)
    (h : Numbered w) : Numbered (listAttempt w a) := by
  rw [Numbered] at h
  simp [Numbered, listAttempt, h, ha, List.range'_1_concat, Nat.add_comm 1]

theorem traced_reports (p : ρ) (i : Nat) (startedAt : ℚ) (rs : List Report) (w : World ρ χ) :
    (rs.foldl (applyReport p i startedAt) w).delivered = w.delivered ∧
      tried (rs.foldl (applyReport p i startedAt) w) = tried w ++ (rs.filter Report.listed).map (fun _ => (p, i)) ∧
      (Numbered w → Numbered (rs.foldl (applyReport p i startedAt) w)) := by
  induction rs generalizing w with
  | nil => simp
  | cons r rs ih =>
    obtain ⟨hdelivered, htried, hnumbered⟩ := ih (applyReport p i startedAt w r)
    rw [List.foldl_cons, hdelivered, htried]
    cases hr : r.listed with
    | false => simp_all [applyReport, tried, Numbered]
    | true =>
      refine ⟨by simp [applyReport, hr, listAttempt], by simp [applyReport, hr, listAttempt, tried], fun hw => ?_⟩
      apply hnumbered
      simp only [applyReport, hr, if_true]
      exact numbered_listAttempt rfl hw

theorem traced_runTurn (c : Candidate ρ ς) (i : Nat) (w : World ρ χ) : Traced pass [(c, some i)] w (runTurn pass c i w) := by
  obtain ⟨hdelivered, htried, hnumbered⟩ := traced_reports c.provider i (c.turns i).startedAt
    (pass (c.turns i).body).reports { w with delivered := w.delivered ++ (pass (c.turns i).body).delivered }
  exact ⟨by simp [runTurn, hdelivered, delivers], htried.trans (by simp [lists, tried]), hnumbered⟩

theorem traced_attemptLoop (hsilent : ∀ b category, (pass b).ending = .failed category → (pass b).delivered = [])
    (c : Candidate ρ ς) (remaining index : Nat) (w : World ρ χ) :
    ∃ n ≤ remaining, ∃ ts : List (Try ρ ς), ts = (List.range' index n).map (fun i => (c, some i)) ∧
      Traced pass ts w (attemptLoop pass deadline c remaining index w).2 ∧ (∀ t ∈ ts.dropLast, GoesOn pass t) ∧
      ((attemptLoop pass deadline c remaining index w).1 = .exhausted false → ∀ t ∈ ts, GoesOn pass t) := by
  induction remaining generalizing index w with
  | zero => exact ⟨0, le_rfl, [], rfl, .refl w, nofun, fun _ => nofun⟩
  | succ remaining ih =>
    have hone := @traced_runTurn _ _ _ pass _ c index w
    rw [attemptLoop]
    split
    · exact ⟨0, Nat.zero_le _, [], rfl, .refl w, nofun, nofun⟩
    split
    · exact ⟨1, by omega, _, rfl, hone, nofun, nofun⟩
    · next category he =>
      split
      · next _ stopFailover hstop =>
        refine ⟨1, by omega, _, rfl, hone, nofun, fun hend t ht => ?_⟩
        cases hend
        cases List.mem_singleton.mp ht
        exact goesOn_of_decision hsilent he (fun h => nomatch hstop.symm.trans h)
      · exact ⟨1, by omega, _, rfl, hone, nofun, nofun⟩
      · next hagain =>
        have hgoes : GoesOn pass (c, some index) := goesOn_of_decision hsilent he (fun h => nomatch hagain.symm.trans h)
        obtain ⟨n, hn, ts, hts, htraced, hdrop, hall⟩ := ih (index + 1) (runTurn pass c index w)
        refine ⟨n + 1, by omega, (c, some index) :: ts, by simp [hts, List.range'_succ], hone.trans htraced, ?_, ?_⟩
        · intro t ht
          cases ts with
          | nil => cases ht
          | cons u ts => exact (List.mem_cons.mp ht).elim (fun h => h ▸ hgoes) (hdrop t)
        · exact fun hend t ht => (List.mem_cons.mp ht).elim (fun h => h ▸ hgoes) (hall hend t)

theorem traced_providerQueue (hsilent : ∀ b category, (pass b).ending = .failed category → (pass b).delivered = [])
    (cs : List (Candidate ρ ς)) (w : World ρ χ) :
    ∃ ts, InPolicyOrder cs ts ∧ Traced pass ts w (providerQueue pass deadline cs w).2 ∧ ∀ t ∈ ts.dropLast, GoesOn pass t := by
  induction cs generalizing w with
  | nil => exact ⟨[], .nil, .refl w, nofun⟩
  | cons c cs ih =>
    have happend : ∀ {ts us : List (Try ρ ς)}, (∀ t ∈ ts, GoesOn pass t) → (∀ t ∈ us.dropLast, GoesOn pass t) →
        ∀ t ∈ (ts ++ us).dropLast, GoesOn pass t := by
      intro ts us hts hus t ht
      rw [List.dropLast_append] at ht
      split at ht
      · exact hts t (List.dropLast_subset ts ht)
      · exact (List.mem_append.mp ht).elim (hts t) (hus t)
    rw [providerQueue]
    split
    · exact ⟨[], .nil, .refl w, nofun⟩
    split
    · next b _ =>
      have hskip : Traced pass [(c, none)] w (skipOpenCircuit c b w) := by
        refine ⟨by simp [skipOpenCircuit, listAttempt, delivers], by simp [skipOpenCircuit, listAttempt, tried, lists], ?_⟩
        exact fun hw => numbered_listAttempt rfl hw
      obtain ⟨ts, horder, htraced, hdrop⟩ := ih (skipOpenCircuit c b w)
      have hleft : ∀ t ∈ [((c, none) : Try ρ ς)], GoesOn pass t := by
        intro t ht
        rw [List.mem_singleton.mp ht]
        trivial
      exact ⟨_, .skipped horder, hskip.trans htraced, happend hleft hdrop⟩
    · next b _ =>
      have henter : Traced pass ([] : List (Try ρ ς)) w (enter c b w) := ⟨by simp [enter], by simp [enter, tried], id⟩
      dsimp only
      split
      · exact ⟨[], .nil, henter, nofun⟩
      obtain ⟨n, hn, ts, hts, htraced, hdrop, hall⟩ :=
        @traced_attemptLoop _ _ _ pass deadline _ hsilent c (c.providerRetries + 1) 0 (enter c b w)
      have hone := henter.trans htraced
      have horder : InPolicyOrder (c :: cs) ts := by simpa [hts] using InPolicyOrder.ran hn (@InPolicyOrder.nil ρ ς cs)
      split
      · next hend =>
        rw [hend] at hone
        exact ⟨ts, horder, hone, hdrop⟩
      · next hend =>
        rw [hend] at hone
        exact ⟨ts, horder, hone, hdrop⟩
      · next w' hend =>
        rw [hend] at hone hall
        obtain ⟨us, hus, hrest, hlast⟩ := ih w'
        exact ⟨ts ++ us, hts ▸ .ran hn hus, hone.trans hrest, happend (hall rfl) hlast⟩

end Tries

variable {α χ : Type} {closesAfter : Option Nat} {deadline : ℚ}

theorem streamPass_silent (t : StreamTurn χ) (category : ErrorCategory)
    (h : (streamPass closesAfter t).ending = .failed category) : (streamPass closesAfter t).delivered = [] := by
  unfold streamPass at h ⊢
  dsimp only at h ⊢
  split at h
  · cases h
  · next hopen =>
    rw [if_neg hopen]
    split at h
    · cases h
    · cases h
    · split at h
      · cases h
      · next c hending hfirst =>
        simpa [StreamTurn.firstByteAt] using hfirst
    · cases h

theorem streamPass_delivered (t : StreamTurn χ) : (streamPass closesAfter t).delivered <+: t.chunks.map Prod.fst := by
  unfold streamPass
  dsimp only
  split
  · exact List.take_prefix _ _
  · split <;> exact List.prefix_rfl

def bridged {ρ : Type} (deadline : ℚ) (c : Candidate ρ (Stream χ)) : Candidate ρ (StreamTurn χ) :=
  { c with turns := fun i => ⟨(c.turns i).startedAt, (c.turns i).body.turn deadline, (c.turns i).backoffAt, (c.turns i).backoffCancelled⟩ }

def streamCandidates (s : LoadedBackends.Manager α) (model : Text) (providerAllowlist : List Text)
    (tried : Nat → Candidate Text (Stream χ)) : List (Candidate Text (Stream χ)) :=
  (getProviderCandidates s model providerAllowlist).mapIdx (fun i a => { tried i with provider := a.backendName })

/-- All tries but the last may be retried, and what is delivered begins the last one's output. -/
def SingleAttempt (closesAfter : Option Nat) (deadline : ℚ) (cs : List (Candidate Text (Stream χ)))
    (w : World Text χ) : Prop :=
  ∃ tries, InPolicyOrder (cs.map (bridged deadline)) tries ∧ (∀ t ∈ tries.dropLast, GoesOn (streamPass closesAfter) t) ∧
    (w.delivered = [] ∨ ∃ c ∈ cs, ∃ i, tries.getLast? = some (bridged deadline c, some i) ∧
      w.delivered <+: (c.turns i).body.output) ∧
    tried w = tries.flatMap (lists (streamPass closesAfter)) ∧ Numbered w

theorem mem_of_inPolicyOrder {ρ ς : Type} {cs : List (Candidate ρ ς)} {tries : List (Try ρ ς)} (h : InPolicyOrder cs tries) :
    ∀ t ∈ tries, t.1 ∈ cs := by
  induction h with
  | nil => exact nofun
  | skipped _ ih => exact List.forall_mem_cons.mpr ⟨List.mem_cons_self, fun t ht => List.mem_cons_of_mem _ (ih t ht)⟩
  | ran _ _ ih =>
    intro t ht
    cases List.mem_append.mp ht with
    | inl ht =>
      obtain ⟨i, -, rfl⟩ := List.mem_map.mp ht
      exact List.mem_cons_self
    | inr ht => exact List.mem_cons_of_mem _ (ih t ht)

theorem singleAttempt_queue (cs : List (Candidate Text (Stream χ))) (m : Failover.Manager Text) :
    SingleAttempt closesAfter deadline cs
      (providerQueue (streamPass closesAfter) deadline (cs.map (bridged deadline)) (.start m)).2 := by
  obtain ⟨tries, horder, htraced, hdrop⟩ := @traced_providerQueue _ _ _ (streamPass closesAfter) deadline _
    streamPass_silent (cs.map (bridged deadline)) (.start m)
  refine ⟨tries, horder, hdrop, ?_, by simpa [tried, World.start] using htraced.listed, htraced.numbered rfl⟩
  have hdelivered := htraced.delivered
  cases List.eq_nil_or_concat' tries with
  | inl hnil => exact .inl (by simpa [hnil, World.start] using hdelivered)
  | inr hlast =>
    obtain ⟨init, last, rfl⟩ := hlast
    rw [List.dropLast_concat] at hdrop
    have hinit : init.flatMap (delivers (streamPass closesAfter)) = [] := by
      rw [List.flatMap_eq_nil_iff]
      intro t ht
      obtain ⟨c, _ | i⟩ := t
      · rfl
      · exact (hdrop _ ht).1
    rw [List.flatMap_append, hinit, List.flatMap_singleton] at hdelivered
    obtain ⟨c, _ | i⟩ := last
    · exact .inl hdelivered
    · obtain ⟨d, hd, rfl⟩ := List.mem_map.mp (mem_of_inPolicyOrder horder _ List.mem_concat_self)
      refine .inr ⟨d, hd, i, by simp, ?_⟩
      rw [hdelivered]
      exact (streamPass_delivered _).trans (bridged_starts _ _ _ _ _)

theorem priority_of_seat {s : LoadedBackends.Manager α} {c : Adapter α} {i : Nat} {z : Int × Nat × Adapter α} {b : Backend α}
    (hz : (match s.backendConfig c.backendName with
      | none => none
      | some backend =>
        if !backend.enable || !backend.participateInFailover then none else some (backend.priority, i, c)) = some z)
    (hb : s.backendConfig z.2.2.backendName = some b) : z.1 = b.priority := by
  cases hc : s.backendConfig c.backendName with
  | none => simp [hc] at hz
  | some e =>
    simp only [hc, Option.ite_none_left_eq_some, Option.some.injEq] at hz
    cases hz.2
    exact congrArg Backend.priority (Option.some.inj (hc.symm.trans hb))

theorem candidates_sorted (s : LoadedBackends.Manager α) (model : Text) (providerAllowlist : List Text) :
    (getProviderCandidates s model providerAllowlist).Pairwise (fun a b => ∀ x ∈ s.backendConfig a.backendName,
      ∀ y ∈ s.backendConfig b.backendName, x.priority ≤ y.priority) := by
  have htrans : ∀ x y z : Int × Nat × Adapter α, before x y = true → before y z = true → before x z = true := by
    intro x y z
    simp only [before, Bool.or_eq_true, Bool.and_eq_true, decide_eq_true_eq]
    omega
  have htotal : ∀ x y : Int × Nat × Adapter α, (before x y || before y x) = true := by
    intro x y
    simp only [before, Bool.or_eq_true, Bool.and_eq_true, decide_eq_true_eq]
    omega
  rw [getProviderCandidates, List.pairwise_map]
  refine (List.pairwise_mergeSort htrans htotal _).imp_of_mem ?_
  intro x y hx hy hle a ha b hb
  rw [List.mem_mergeSort, List.mem_filterMap] at hx hy
  obtain ⟨⟨c, i⟩, -, hx⟩ := hx
  obtain ⟨⟨d, j⟩, -, hy⟩ := hy
  dsimp only at hx hy
  split_ifs at hx hy
  have hxa := priority_of_seat hx ha
  have hyb := priority_of_seat hy hb
  simp only [before, Bool.or_eq_true, Bool.and_eq_true, decide_eq_true_eq] at hle
  omega

end Kirara.StreamAttempts
