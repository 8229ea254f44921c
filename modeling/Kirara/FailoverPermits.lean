import Kirara.Failover

namespace Kirara.FailoverPermits

open Kirara.Breaker Kirara.Failover Kirara.PermitLedger

variable {ρ ς χ : Type} [DecidableEq ρ]

def entries (w : World ρ χ) : List (Entry ρ) := w.calls.map BreakerCall.entry

/-- What an attempt means for the breaker, read off the attempt alone. -/
structure PassShape (pass : ς → Pass χ) where
  silent : ς → Prop
  single : ς → Prop
  fails : ς → ErrorCategory → Prop
  failedAt : ς → ℚ
  silent_iff : ∀ b, silent b ↔ (pass b).reports.length = 0
  single_iff : ∀ b, single b ↔ (pass b).reports.length = 1
  fails_iff : ∀ b c, fails b c ↔ (pass b).ending = .failed c
  leaves_of_silent : ∀ b, silent b → ∃ e, (pass b).ending = .leaves e
  report_of_fails : ∀ b c, single b → fails b c →
    ∃ r, (pass b).reports = [r] ∧ r.outcome = .failure ∧ r.timestamp = failedAt b

section Loop

variable {pass : ς → Pass χ} (shape : PassShape pass) (deadline : ℚ) (c : Candidate ρ ς)

/-- Turn `i` failed and the loop goes on to the next turn. -/
def Retries (i : Nat) : Prop :=
  ∃ category, shape.fails (c.turns i).body category ∧ category.retryable = true ∧
    i < c.providerRetries ∧ (c.turns i).backoffAt < deadline ∧ (c.turns i).backoffCancelled = false

/-- The first turn is taken and makes one report; no second turn adds another. -/
structure ReportsOnce : Prop where
  prepared : c.preparesRequest = true
  inTime : (c.turns 0).startedAt < deadline
  single : shape.single (c.turns 0).body
  noSecond : Retries shape deadline c 0 →
    deadline ≤ (c.turns 1).startedAt ∨ shape.silent (c.turns 1).body

/-- The candidate's one turn ends in a failure that another provider may make good. -/
structure HandsOn : Prop where
  single : c.providerRetries = 0
  fails : ∃ category, shape.fails (c.turns 0).body category ∧ category.retryable = true

omit [DecidableEq ρ] in
theorem retryDecision_again_iff (i : Nat) (category : ErrorCategory) :
    retryDecision deadline c i category = .again ↔
      category.retryable = true ∧ i < c.providerRetries ∧ (c.turns i).backoffAt < deadline ∧
        (c.turns i).backoffCancelled = false := by
  simp only [retryDecision, sub_nonpos]
  split_ifs <;> simp_all

/-- How many reports the loop makes from turn `index` on. -/
def reportCount (pass : ς → Pass χ) : Nat → Nat → Nat
  | 0, _ => 0
  | remaining + 1, index =>
    if deadline ≤ (c.turns index).startedAt then 0
    else
      (pass (c.turns index).body).reports.length +
        match (pass (c.turns index).body).ending with
        | .leaves _ => 0
        | .failed category =>
          if retryDecision deadline c index category = .again then
            reportCount pass remaining (index + 1)
          else 0

theorem applyReport_entries (p : ρ) (i : Nat) (startedAt : ℚ) (w : World ρ χ) (r : Report) :
    entries (applyReport p i startedAt w r) = entries w ++ [.given p] := by
  unfold applyReport
  by_cases h : r.listed <;> simp [entries, listAttempt, h, BreakerCall.entry]

theorem foldl_applyReport_entries (p : ρ) (i : Nat) (startedAt : ℚ) (rs : List Report) (w : World ρ χ) :
    entries (rs.foldl (applyReport p i startedAt) w) =
      entries w ++ List.replicate rs.length (.given p) := by
  induction rs generalizing w with
  | nil => simp
  | cons r rs ih =>
    rw [List.foldl_cons, ih, applyReport_entries, List.append_assoc]
    rfl

theorem runTurn_entries (i : Nat) (w : World ρ χ) : entries (runTurn pass c i w) =
      entries w ++ List.replicate (pass (c.turns i).body).reports.length (.given c.provider) :=
  foldl_applyReport_entries c.provider i _ _ _

theorem attemptLoop_entries (remaining index : Nat) (w : World ρ χ) :
    entries (attemptLoop pass deadline c remaining index w).2 =
      entries w ++ List.replicate (reportCount deadline c pass remaining index)
        (.given c.provider) := by
  induction remaining generalizing index w with
  | zero => simp [attemptLoop, reportCount]
  | succ remaining ih =>
    by_cases hd : deadline ≤ (c.turns index).startedAt
    · simp [attemptLoop, reportCount, hd]
    cases he : (pass (c.turns index).body).ending with
    | leaves e => simp [attemptLoop, reportCount, hd, he, runTurn_entries]
    | failed category =>
      cases hr : retryDecision deadline c index category with
      | stop b => simp [attemptLoop, reportCount, hd, he, hr, runTurn_entries]
      | requestCancelled => simp [attemptLoop, reportCount, hd, he, hr, runTurn_entries]
      | again =>
        simp only [attemptLoop, reportCount, hd, he, hr, if_true, if_false]
        rw [ih, runTurn_entries, List.append_assoc, List.replicate_append_replicate]

include shape in
omit [DecidableEq ρ] in
theorem reportCount_eq_zero_iff (remaining index : Nat) :
    reportCount deadline c pass (remaining + 1) index = 0 ↔
      deadline ≤ (c.turns index).startedAt ∨ shape.silent (c.turns index).body := by
  by_cases hd : deadline ≤ (c.turns index).startedAt
  · simp [reportCount, hd]
  rw [shape.silent_iff]
  simp only [reportCount, hd, if_false, false_or, Nat.add_eq_zero_iff]
  refine ⟨fun h => h.1, fun h => ⟨h, ?_⟩⟩
  obtain ⟨e, he⟩ := shape.leaves_of_silent _ ((shape.silent_iff _).mpr h)
  simp [he]

omit [DecidableEq ρ] in
theorem reportCount_eq_one_iff : reportCount deadline c pass (c.providerRetries + 1) 0 = 1 ↔
      (c.turns 0).startedAt < deadline ∧ shape.single (c.turns 0).body ∧
        (Retries shape deadline c 0 →
          deadline ≤ (c.turns 1).startedAt ∨ shape.silent (c.turns 1).body) := by
  by_cases hd : deadline ≤ (c.turns 0).startedAt
  · simp [reportCount, hd, not_lt.mpr hd]
  have hlt := not_le.mp hd
  cases he : (pass (c.turns 0).body).ending with
  | leaves e =>
    have hn : ¬ Retries shape deadline c 0 := by
      rintro ⟨category, hf, -⟩
      rw [shape.fails_iff, he] at hf
      cases hf
    simp [reportCount, hd, he, hlt, hn, shape.single_iff]
  | failed category =>
    have hr : Retries shape deadline c 0 ↔ retryDecision deadline c 0 category = .again := by
      rw [retryDecision_again_iff]
      constructor
      · rintro ⟨category', hf, h⟩
        rw [shape.fails_iff, he, PassEnd.failed.injEq] at hf
        exact hf ▸ h
      · exact fun h => ⟨category, (shape.fails_iff _ _).mpr he, h⟩
    -- a failed pass made a report, so a second one has to be silent
    have hpos : (pass (c.turns 0).body).reports.length ≠ 0 := by
      intro h
      obtain ⟨e, hl⟩ := shape.leaves_of_silent _ ((shape.silent_iff _).mpr h)
      rw [he] at hl
      cases hl
    by_cases ha : retryDecision deadline c 0 category = .again
    · have hp := ((retryDecision_again_iff deadline c 0 category).mp ha).2.1
      obtain ⟨n, hn⟩ : ∃ n, c.providerRetries = n + 1 := ⟨c.providerRetries - 1, by omega⟩
      have hu : reportCount deadline c pass (c.providerRetries + 1) 0 =
          (pass (c.turns 0).body).reports.length +
            reportCount deadline c pass c.providerRetries 1 := by
        simp [reportCount, hd, he, ha]
      have hz := reportCount_eq_zero_iff shape deadline c n 1
      rw [hu, hn, ← hz, hr, shape.single_iff]
      simp only [hlt, ha, true_and, forall_const]
      omega
    · simp [reportCount, hd, he, ha, hlt, hr, shape.single_iff]

omit [DecidableEq ρ] in
theorem reportsOnce_iff : ReportsOnce shape deadline c ↔
    c.preparesRequest = true ∧ reportCount deadline c pass (c.providerRetries + 1) 0 = 1 := by
  rw [reportCount_eq_one_iff shape]
  exact ⟨fun h => ⟨h.prepared, h.inTime, h.single, h.noSecond⟩,
    fun ⟨hp, ht, hs, hn⟩ => ⟨hp, ht, hs, hn⟩⟩

include shape in
theorem attemptLoop_leaves_of_silent (w : World ρ χ)
    (h : reportCount deadline c pass (c.providerRetries + 1) 0 = 0) :
    (attemptLoop pass deadline c (c.providerRetries + 1) 0 w).1 ≠ .exhausted false := by
  by_cases hd : deadline ≤ (c.turns 0).startedAt
  · simp [attemptLoop, hd]
  simp only [reportCount, hd, if_false, Nat.add_eq_zero_iff] at h
  obtain ⟨e, he⟩ := shape.leaves_of_silent _ ((shape.silent_iff _).mpr h.1)
  simp [attemptLoop, hd, he]

omit [DecidableEq ρ] in
theorem retryDecision_of_no_retries (h : c.providerRetries = 0) (category : ErrorCategory) :
    retryDecision deadline c 0 category = .stop (!category.retryable) := by
  cases hr : category.retryable <;> simp [retryDecision, h, hr]

theorem attemptLoop_exhausted_iff (ho : ReportsOnce shape deadline c) (w : World ρ χ) :
    (attemptLoop pass deadline c (c.providerRetries + 1) 0 w).1 = .exhausted false ↔
      HandsOn shape c := by
  have hd := not_le.mpr ho.inTime
  cases he : (pass (c.turns 0).body).ending with
  | leaves e =>
    have hn : ¬ HandsOn shape c := by
      rintro ⟨-, category, hf, -⟩
      rw [shape.fails_iff, he] at hf
      cases hf
    simp [attemptLoop, hd, he, hn]
  | failed category =>
    by_cases hz : c.providerRetries = 0
    · have hh : HandsOn shape c ↔ category.retryable = true := by
        constructor
        · rintro ⟨-, category', hf, hr⟩
          rw [shape.fails_iff, he, PassEnd.failed.injEq] at hf
          rwa [hf]
        · exact fun hr => ⟨hz, category, (shape.fails_iff _ _).mpr he, hr⟩
      simp [attemptLoop, hd, he, retryDecision_of_no_retries deadline c hz, hh]
    · have hn : ¬ HandsOn shape c := fun h => hz h.single
      simp only [hn, iff_false]
      cases hr : retryDecision deadline c 0 category with
      | stop b =>
        have hb : b = true := by
          simp only [retryDecision] at hr
          split_ifs at hr <;> simp_all
        simp [attemptLoop, hd, he, hr, hb]
      | requestCancelled => simp [attemptLoop, hd, he, hr]
      | again =>
        have hra := (retryDecision_again_iff deadline c 0 category).mp hr
        have hsecond := ho.noSecond ⟨category, (shape.fails_iff _ _).mpr he, hra⟩
        obtain ⟨n, hn⟩ : ∃ n, c.providerRetries = n + 1 := ⟨c.providerRetries - 1, by omega⟩
        rw [hn]
        simp only [attemptLoop, hd, he, hr, if_false]
        by_cases hl : deadline ≤ (c.turns 1).startedAt
        · simp [hl]
        · obtain ⟨e, hs⟩ := shape.leaves_of_silent _ (hsecond.resolve_left hl)
          simp [hl, hs]

theorem attemptLoop_breakers_of_handsOn (ho : ReportsOnce shape deadline c)
    (hh : HandsOn shape c) (w : World ρ χ) :
    (attemptLoop pass deadline c (c.providerRetries + 1) 0 w).2.manager.resilienceBreakers =
      Function.update w.manager.resilienceBreakers c.provider
        (record (w.manager.resilienceBreakers c.provider) (shape.failedAt (c.turns 0).body)
          .failure) := by
  obtain ⟨category, hf, -⟩ := hh.fails
  obtain ⟨r, hr, hout, htime⟩ := shape.report_of_fails _ _ ho.single hf
  have he := (shape.fails_iff _ _).mp hf
  have hd := not_le.mpr ho.inTime
  have hl : (attemptLoop pass deadline c (c.providerRetries + 1) 0 w).2 = runTurn pass c 0 w := by
    simp [attemptLoop, hd, he, retryDecision_of_no_retries deadline c hh.single]
  rw [hl]
  simp only [runTurn, hr, List.foldl_cons, List.foldl_nil, applyReport, hout, htime]
  by_cases hlisted : r.listed <;>
    simp [hlisted, listAttempt, recordAttempt, updateBreaker]

end Loop

variable (pass : ς → Pass χ) (deadline : ℚ)

/-- Every admitted candidate reports once, read off the breakers before. -/
def EachReportsOnce {pass : ς → Pass χ} (shape : PassShape pass) (deadline : ℚ) :
    List (Candidate ρ ς) → (ρ → CircuitBreaker) → Prop
  | [], _ => True
  | c :: cs, breakers =>
    c.cancelledAtEntry = false →
      match acquire (breakers c.provider) c.acquireAt with
      | (false, b) => EachReportsOnce shape deadline cs (Function.update breakers c.provider b)
      | (true, b) =>
        ReportsOnce shape deadline c ∧
          (HandsOn shape c → EachReportsOnce shape deadline cs (Function.update breakers c.provider
              (record b (shape.failedAt (c.turns 0).body) .failure)))

variable (c : Candidate ρ ς) (b : CircuitBreaker) (w : World ρ χ)

theorem skipOpenCircuit_entries : entries (skipOpenCircuit c b w) = entries w := rfl

@[simp] theorem skipOpenCircuit_breakers : (skipOpenCircuit c b w).manager.resilienceBreakers =
      Function.update w.manager.resilienceBreakers c.provider b := rfl

@[simp] theorem enter_breakers : (enter c b w).manager.resilienceBreakers =
      Function.update w.manager.resilienceBreakers c.provider b := rfl

theorem enter_entries : entries (enter c b w) = entries w ++ [.taken c.provider] := by
  simp [entries, enter, BreakerCall.entry]

theorem attemptLoop_lease : entries (attemptLoop pass deadline c (c.providerRetries + 1) 0 (enter c b w)).2 =
      entries w ++ lease c.provider (reportCount deadline c pass (c.providerRetries + 1) 0) := by
  rw [attemptLoop_entries, enter_entries, List.append_assoc]
  rfl

theorem providerQueue_prefix (cs : List (Candidate ρ ς)) (w : World ρ χ) :
    ∃ es, entries (providerQueue pass deadline cs w).2 = entries w ++ es := by
  induction cs generalizing w with
  | nil => exact ⟨[], by simp [providerQueue]⟩
  | cons c cs ih =>
    unfold providerQueue
    split
    · exact ⟨[], by simp⟩
    split
    · exact ih _
    dsimp only
    split
    · exact ⟨_, enter_entries c _ w⟩
    next b _ _ =>
    have hl := attemptLoop_lease pass deadline c b w
    split
    · next e v hv => exact ⟨_, by rw [hv] at hl; exact hl⟩
    · next v hv => exact ⟨_, by rw [hv] at hl; exact hl⟩
    · next v hv =>
      rw [hv] at hl
      obtain ⟨es, he⟩ := ih v
      exact ⟨_, by rw [he, hl, List.append_assoc]⟩

theorem not_balanced_of_lease {w : World ρ χ} (hw : Balanced (entries w)) (p : ρ) {n : Nat}
    (hn : n ≠ 1) (es : List (Entry ρ)) (hz : n = 0 → es = []) : ¬ Balanced (entries w ++ lease p n ++ es) := by
  rw [List.append_assoc, balanced_append_iff hw]
  match n, hn with
  | 0, _ =>
    rw [hz rfl, List.append_nil]
    exact not_balanced_lease_zero p
  | n + 2, _ => exact not_balanced_of_held_none (held_lease_many p n) es

theorem providerQueue_balanced_iff {pass : ς → Pass χ} (shape : PassShape pass)
    (cs : List (Candidate ρ ς)) (w : World ρ χ) (hw : Balanced (entries w)) :
    Balanced (entries (providerQueue pass deadline cs w).2) ↔
      EachReportsOnce shape deadline cs w.manager.resilienceBreakers := by
  induction cs generalizing w with
  | nil => simpa [providerQueue, EachReportsOnce] using hw
  | cons c cs ih =>
    by_cases hc : c.cancelledAtEntry
    · simpa [providerQueue, EachReportsOnce, hc] using hw
    cases ha : acquire (w.manager.resilienceBreakers c.provider) c.acquireAt with
    | mk ok b =>
    cases ok with
    | false =>
      have hs := ih (skipOpenCircuit c b w) (by rwa [skipOpenCircuit_entries])
      simpa [providerQueue, EachReportsOnce, hc, ha] using hs
    | true =>
    cases hp : c.preparesRequest with
    | false =>
      have hn : ¬ ReportsOnce shape deadline c := fun h => by simp [h.prepared] at hp
      have hb := not_balanced_of_lease hw c.provider (n := 0) (by simp) [] (fun _ => rfl)
      rw [List.append_nil] at hb
      simp only [providerQueue, EachReportsOnce, hc, ha, hp, hn, Bool.not_false, if_true,
        Bool.false_eq_true, if_false, false_and, forall_const, iff_false, enter_entries]
      exact hb
    | true =>
    have hl := attemptLoop_lease pass deadline c b w
    have hone := reportsOnce_iff shape deadline c
    rw [hp] at hone
    generalize hcount : reportCount deadline c pass (c.providerRetries + 1) 0 = n at hl hone
    have hleft := attemptLoop_leaves_of_silent shape deadline c (enter c b w)
    have hends := attemptLoop_exhausted_iff shape deadline c (w := enter c b w)
    have hbreakers := attemptLoop_breakers_of_handsOn shape deadline c (w := enter c b w)
    rw [hcount] at hleft
    cases hloop : attemptLoop pass deadline c (c.providerRetries + 1) 0 (enter c b w) with
    | mk e v =>
    rw [hloop] at hl hleft hends hbreakers
    by_cases hn : n = 1
    · -- one report: the ledger is balanced again where the loop ends
      have hv : Balanced (entries v) := by
        rw [hl, hn, balanced_append_iff hw]
        exact balanced_lease_one c.provider
      have ho := hone.mpr ⟨rfl, hn⟩
      by_cases hh : HandsOn shape c
      · have he : e = .exhausted false := (hends ho).mpr hh
        have hq := ih v hv
        rw [hbreakers ho hh] at hq
        simpa [providerQueue, EachReportsOnce, hc, ha, hp, hloop, ho, hh, he] using hq
      · have he : e ≠ .exhausted false := fun h => hh ((hends ho).mp h)
        cases e with
        | leaves e => simpa [providerQueue, EachReportsOnce, hc, ha, hp, hloop, ho, hh] using hv
        | exhausted stop =>
          cases stop with
          | true => simpa [providerQueue, EachReportsOnce, hc, ha, hp, hloop, ho, hh] using hv
          | false => exact absurd rfl he
    · have ho : ¬ ReportsOnce shape deadline c := fun h => hn (hone.mp h).2
      have hv : ∀ es, (n = 0 → es = []) → ¬ Balanced (entries v ++ es) := by
        intro es hz
        rw [hl]
        exact not_balanced_of_lease hw c.provider hn es hz
      have hv0 : ¬ Balanced (entries v) := by simpa using hv [] (fun _ => rfl)
      cases e with
      | leaves e => simpa [providerQueue, EachReportsOnce, hc, ha, hp, hloop, ho] using hv0
      | exhausted stop =>
        cases stop with
        | true => simpa [providerQueue, EachReportsOnce, hc, ha, hp, hloop, ho] using hv0
        | false =>
          obtain ⟨es, he⟩ := providerQueue_prefix pass deadline cs v
          have hq := hv es (fun h => absurd rfl (hleft h))
          simpa [providerQueue, EachReportsOnce, hc, ha, hp, hloop, ho, he] using hq

end Kirara.FailoverPermits
