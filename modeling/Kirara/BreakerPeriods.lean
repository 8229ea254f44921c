import Kirara.Breaker
import Kirara.Schedules

namespace Kirara.BreakerPeriods

open Kirara.Breaker Kirara.BoundedQueue Kirara.Schedules

variable {ι : Type}

/-- A breaker, with the clock reading at its last opening and what else it does not record. -/
structure Observed (ι : Type) where
  breaker : CircuitBreaker
  issued : List ι
  probes : List ι
  probeSuccesses : Nat
  lastOpening : ℚ
  history : List Bool

/-- Each call has its own clock reading. An outcome may be that of a request never admitted. -/
inductive Event (ι : Type) where
  | acquire (request : ι) (now : ℚ)
  | record (request : ι) (outcome : Outcome) (timestamp : ℚ)
  | look (now : ℚ)
  | reconfigure (failureThreshold : Option Int) (errorRateThreshold : Option ℚ) (minRequests : Option Int)
      (recoveryTimeoutSeconds : Option ℚ) (recoverySuccessThreshold : Option Int) (historySize : Option Int)
  deriving DecidableEq

def Event.clock : Event ι → Option ℚ
  | .acquire _ now | .record _ _ now | .look now => some now
  | .reconfigure .. => none

/-- A HALF_OPEN period begins with the refresh that ends the open one. -/
def refreshed (s : Observed ι) (now : ℚ) : Observed ι :=
  let b := refreshState s.breaker now
  if b.state = s.breaker.state then { s with breaker := b }
  else { s with breaker := b, probes := [], probeSuccesses := 0 }

def met (s : Observed ι) (timestamp : ℚ) : Outcome → Observed ι
  | .success => refreshed s timestamp
  | .failure | .cancelled => s

def reported [DecidableEq ι] (s : Observed ι) (r : ι) (o : Outcome) (timestamp : ℚ) (b : CircuitBreaker) : Observed ι where
  breaker := b
  issued := s.issued
  probes := s.probes.filter (fun p => p ≠ r)
  probeSuccesses := if o = .success ∧ r ∈ s.probes then s.probeSuccesses + 1 else s.probeSuccesses
  lastOpening := if b.state = .opened ∧ s.breaker.state ≠ .opened then timestamp else s.lastOpening
  history :=
    match o with
    | .success =>
      if s.breaker.state = .closed then s.history ++ [true]
      else if b.state = .closed then [true] else s.history
    | .failure => if s.breaker.state = .closed then s.history ++ [false] else s.history
    | .cancelled => s.history

def next [DecidableEq ι] (s : Observed ι) : Event ι → Option (Observed ι)
  | .acquire r now =>
    if r ∈ s.issued then none
    else
      let u := refreshed s now
      let (admitted, b) := acquire s.breaker now
      some { u with
        breaker := b
        issued := if admitted then r :: u.issued else u.issued
        probes := if admitted ∧ b.state = .halfOpen then r :: u.probes else u.probes }
  | .record r o timestamp => some (reported (met s timestamp o) r o timestamp (record s.breaker timestamp o))
  | .look now => some (refreshed s now)
  | .reconfigure failureThreshold errorRateThreshold minRequests recoveryTimeoutSeconds
      recoverySuccessThreshold historySize =>
    some { s with
      breaker := reconfigure s.breaker failureThreshold errorRateThreshold minRequests
        recoveryTimeoutSeconds recoverySuccessThreshold historySize }

def start (b : CircuitBreaker) : Observed ι := ⟨b, [], [], 0, 0, []⟩

def trailingFailures (h : List Bool) : Nat := (h.reverse.takeWhile (fun success => !success)).length

/-- One of the thresholds is met by the outcomes since the breaker was closed. -/
def ThresholdMet (b : CircuitBreaker) (h : List Bool) : Prop :=
  b.thresholds.failureThreshold ≤ trailingFailures h ∨
  ∃ w, w <:+ h ∧ b.thresholds.minRequests ≤ w.length ∧
    b.thresholds.errorRateThreshold ≤ 1 - (w.count true : ℚ) / w.length

def Elapsed (s : Observed ι) (now : ℚ) : Prop :=
  s.lastOpening + s.breaker.thresholds.recoveryTimeoutSeconds ≤ now

structure Follows (s : Observed ι) (e : Event ι) (t : Observed ι) : Prop where
  opens : s.breaker.state = .closed → t.breaker.state = .opened →
    ∃ r timestamp, e = .record r .failure timestamp ∧ ThresholdMet s.breaker (s.history ++ [false])
  staysClosed : s.breaker.state = .closed → t.breaker.state ≠ .halfOpen
  admits : ∀ r now, e = .acquire r now → s.breaker.state = .opened →
    (Breaker.acquire s.breaker now).1 = true → Elapsed s now
  recovers : s.breaker.state = .opened → t.breaker.state ≠ .opened → ∃ now, e.clock = some now ∧ Elapsed s now
  closes : s.breaker.state ≠ .closed → t.breaker.state = .closed →
    ∃ r timestamp, e = .record r .success timestamp ∧ s.breaker.state = .halfOpen ∧ r ∈ s.probes ∧
      s.breaker.thresholds.recoverySuccessThreshold ≤ s.probeSuccesses + 1
  reopens : ∀ r timestamp, e = .record r .failure timestamp → s.breaker.state = .halfOpen → r ∈ s.probes →
    t.breaker.state = .opened
  earlier : ∀ r o timestamp, e = .record r o timestamp →
    (s.breaker.state = .opened → t.breaker.openedAt = s.breaker.openedAt) ∧
    (s.breaker.state = .halfOpen → r ∉ s.probes → t.breaker.state ≠ .opened)

def counted (b : CircuitBreaker) : CircuitBreaker :=
  { releaseInFlight b with
    outcomes := append b.outcomes false
    consecutiveFailures := b.consecutiveFailures + 1
    halfOpenProbeInFlight := false
    recoverySuccesses := 0 }

/-- Only probes report in HALF_OPEN, and in OPEN no failure that meets a threshold. -/
def Timely (s : Observed ι) : Event ι → Prop
  | .record r .success timestamp =>
    (refreshState s.breaker timestamp).state = .halfOpen → r ∈ (refreshed s timestamp).probes
  | .record r .failure timestamp =>
    (s.breaker.state = .halfOpen → r ∈ s.probes) ∧
    (s.breaker.state = .opened → shouldOpen (counted s.breaker) → s.breaker.openedAt = some timestamp)
  | _ => True

instance decidableTimely [DecidableEq ι] (s : Observed ι) : DecidablePred (Timely s)
  | .record r .success timestamp => inferInstanceAs (Decidable (_ → r ∈ (refreshed s timestamp).probes))
  | .record r .failure timestamp => inferInstanceAs (Decidable
      ((s.breaker.state = .halfOpen → r ∈ s.probes) ∧
        (s.breaker.state = .opened → shouldOpen (counted s.breaker) → s.breaker.openedAt = some timestamp)))
  | .record _ .cancelled _ | .acquire .. | .look _ | .reconfigure .. => isTrue trivial

/-- What the breaker's own counters say about what was observed. -/
structure Tracks (s : Observed ι) : Prop where
  opened : s.breaker.state = .opened → s.breaker.openedAt = some s.lastOpening ∧ s.breaker.recoverySuccesses = 0
  halfOpen : s.breaker.state = .halfOpen → s.breaker.recoverySuccesses = s.probeSuccesses
  consecutive : s.breaker.state = .closed → s.breaker.consecutiveFailures = trailingFailures s.history
  window : s.breaker.state = .closed → s.breaker.outcomes.items <:+ s.history

theorem trailingFailures_failure (h : List Bool) : trailingFailures (h ++ [false]) = trailingFailures h + 1 := by
  simp [trailingFailures]

theorem trailingFailures_success (h : List Bool) : trailingFailures (h ++ [true]) = 0 := by
  simp [trailingFailures]

theorem append_suffix {α : Type} {w : Window α} {h : List α} (a : α) (hw : w.items <:+ h) :
    (append w a).items <:+ h ++ [a] := by
  obtain ⟨l, rfl⟩ := hw
  refine (List.drop_suffix _ _).trans ⟨l, ?_⟩
  rw [List.append_assoc]

theorem resize_suffix {α : Type} {w : Window α} {h : List α} (n : Nat) (hw : w.items <:+ h) :
    (resize w n).items <:+ h :=
  (List.drop_suffix _ _).trans hw

section Refresh

variable {s t u : Observed ι} {b : CircuitBreaker} {now timestamp : ℚ} {r : ι} {o : Outcome} {e : Event ι}

theorem recordTransition_fields (b : CircuitBreaker) (now : ℚ) (p c : CircuitState) (reason : TransitionReason) :
    (recordTransition b p c reason now).openedAt = b.openedAt ∧
    (recordTransition b p c reason now).recoverySuccesses = b.recoverySuccesses ∧
    (recordTransition b p c reason now).outcomes = b.outcomes ∧
    (recordTransition b p c reason now).consecutiveFailures = b.consecutiveFailures := by
  unfold recordTransition
  split
  · exact ⟨rfl, rfl, rfl, rfl⟩
  · exact ⟨rfl, rfl, rfl, rfl⟩

theorem refreshState_cases (b : CircuitBreaker) (now : ℚ) : refreshState b now = b ∨
    b.state = .opened ∧ (∃ openedAt, b.openedAt = some openedAt ∧
        b.thresholds.recoveryTimeoutSeconds ≤ now - openedAt) ∧
      (refreshState b now).state = .halfOpen ∧ (refreshState b now).openedAt = b.openedAt ∧
      (refreshState b now).recoverySuccesses = b.recoverySuccesses ∧
      (refreshState b now).thresholds = b.thresholds := by
  unfold refreshState
  split
  · next openedAt hs hopened =>
    split
    · next helapsed =>
      obtain ⟨hat, hsuccesses, -, -⟩ := recordTransition_fields b now .opened .halfOpen .recoveryTimeout
      exact .inr ⟨hs, ⟨openedAt, hopened, helapsed⟩, rfl, hat, hsuccesses, recordTransition_thresholds b now _ _ _⟩
    · exact .inl rfl
  · exact .inl rfl

theorem elapsed_of_openedAt (h : Tracks s) (hs : s.breaker.state = .opened)
    (hopened : ∃ openedAt, s.breaker.openedAt = some openedAt ∧
      s.breaker.thresholds.recoveryTimeoutSeconds ≤ now - openedAt) : Elapsed s now := by
  obtain ⟨openedAt, hat, helapsed⟩ := hopened
  rw [(h.opened hs).1] at hat
  cases hat
  rw [Elapsed, add_comm]
  exact le_sub_iff_add_le.mp helapsed

theorem refreshed_cases (h : Tracks s) (now : ℚ) : refreshed s now = s ∨
    s.breaker.state = .opened ∧ Elapsed s now ∧ (refreshed s now).breaker.state = .halfOpen ∧
      (refreshed s now).breaker.thresholds = s.breaker.thresholds ∧
      (refreshed s now).breaker.recoverySuccesses = 0 ∧ (refreshed s now).breaker.openedAt = s.breaker.openedAt ∧
      (refreshed s now).probes = [] ∧ (refreshed s now).probeSuccesses = 0 := by
  obtain heq | ⟨hs, hopened, hhalf, hat, hsuccesses, hthresholds⟩ := refreshState_cases s.breaker now
  · refine .inl ?_
    unfold refreshed
    rw [heq, if_pos rfl]
  · have hne : (refreshState s.breaker now).state ≠ s.breaker.state := by
      rw [hhalf, hs]
      exact fun h => (nomatch h)
    have href : refreshed s now =
        { s with breaker := refreshState s.breaker now, probes := [], probeSuccesses := 0 } := if_neg hne
    rw [href]
    exact .inr ⟨hs, elapsed_of_openedAt h hs hopened, hhalf, hthresholds, hsuccesses.trans (h.opened hs).2, hat, rfl, rfl⟩

theorem refreshed_breaker (s : Observed ι) (now : ℚ) : (refreshed s now).breaker = refreshState s.breaker now := by
  unfold refreshed
  dsimp only
  split
  · rfl
  · rfl

theorem tracks_of_halfOpen (hs : s.breaker.state = .halfOpen)
    (h : s.breaker.recoverySuccesses = s.probeSuccesses) : Tracks s :=
  ⟨fun ho => (nomatch hs.symm.trans ho), fun _ => h, fun hc => (nomatch hs.symm.trans hc),
    fun hc => (nomatch hs.symm.trans hc)⟩

theorem tracks_refreshed (h : Tracks s) (now : ℚ) : Tracks (refreshed s now) := by
  obtain heq | ⟨-, -, hhalf, -, hsuccesses, -, -, hzero⟩ := refreshed_cases h now
  · rw [heq]
    exact h
  · exact tracks_of_halfOpen hhalf (hsuccesses.trans hzero.symm)

theorem refreshState_releaseInFlight (b : CircuitBreaker) (now : ℚ) :
    refreshState (releaseInFlight b) now = releaseInFlight (refreshState b now) := by
  have htransition : ∀ p c reason, recordTransition (releaseInFlight b) p c reason now =
      releaseInFlight (recordTransition b p c reason now) := by
    intro p c reason
    unfold recordTransition
    split
    · rfl
    · rfl
  by_cases hs : b.state = .opened
  · cases hat : b.openedAt with
    | none => simp only [refreshState, releaseInFlight, hs, hat]
    | some openedAt =>
      have hleft : (releaseInFlight b).state = .opened ∧ (releaseInFlight b).openedAt = some openedAt := ⟨hs, hat⟩
      simp only [refreshState, hleft.1, hleft.2, hs, hat]
      split
      · rw [if_pos ‹_›, htransition]
        rfl
      · rw [if_neg ‹_›]
  · rw [refreshState_of_ne_opened now hs, refreshState_of_ne_opened now (b := releaseInFlight b) hs]

theorem closeAfterSuccess_fields (b : CircuitBreaker) (c : CircuitState) (timestamp : ℚ) :
    (closeAfterSuccess b c timestamp).state = .closed ∧
    (closeAfterSuccess b c timestamp).outcomes = append b.outcomes true ∧
    (closeAfterSuccess b c timestamp).consecutiveFailures = 0 := by
  unfold closeAfterSuccess
  dsimp only
  rw [refreshState_of_ne_opened timestamp (show CircuitState.closed ≠ CircuitState.opened by decide)]
  split
  · exact ⟨rfl, rfl, rfl⟩
  obtain ⟨-, -, houtcomes, hfailures⟩ := recordTransition_fields { b with
    outcomes := append b.outcomes true
    consecutiveFailures := 0
    openedAt := none
    halfOpenProbeInFlight := false } timestamp c .closed .recoverySuccess
  exact ⟨rfl, houtcomes, hfailures⟩

theorem recordSuccess_cases (b : CircuitBreaker) (timestamp : ℚ) :
    ((refreshState b timestamp).state = .opened ∧ (recordSuccess b timestamp).state = .opened ∧
      (recordSuccess b timestamp).openedAt = (refreshState b timestamp).openedAt ∧
      (recordSuccess b timestamp).recoverySuccesses = (refreshState b timestamp).recoverySuccesses) ∨
    ((refreshState b timestamp).state = .halfOpen ∧ (recordSuccess b timestamp).state = .halfOpen ∧
      (recordSuccess b timestamp).recoverySuccesses = (refreshState b timestamp).recoverySuccesses + 1) ∨
    ((refreshState b timestamp).state = .halfOpen ∧
      (refreshState b timestamp).thresholds.recoverySuccessThreshold ≤ (refreshState b timestamp).recoverySuccesses + 1 ∧
      (recordSuccess b timestamp).state = .closed ∧ (recordSuccess b timestamp).outcomes.items <:+ [true] ∧
      (recordSuccess b timestamp).consecutiveFailures = 0) ∨
    ((refreshState b timestamp).state = .closed ∧ (recordSuccess b timestamp).state = .closed ∧
      (recordSuccess b timestamp).outcomes = append (refreshState b timestamp).outcomes true ∧
      (recordSuccess b timestamp).consecutiveFailures = 0) := by
  unfold recordSuccess
  dsimp only
  rw [refreshState_releaseInFlight]
  generalize refreshState b timestamp = c
  cases hs : c.state with
  | opened =>
    have hrelease : (releaseInFlight c).state = .opened := hs
    rw [hrelease]
    exact .inl ⟨rfl, hs, rfl, rfl⟩
  | halfOpen =>
    have hrelease : (releaseInFlight c).state = .halfOpen := hs
    rw [hrelease]
    dsimp only
    split
    · exact .inr (.inl ⟨rfl, rfl, rfl⟩)
    · next hlt =>
      refine .inr (.inr (.inl ⟨rfl, not_lt.mp hlt, (closeAfterSuccess_fields _ _ _).1, ?_,
        (closeAfterSuccess_fields _ _ _).2.2⟩))
      rw [(closeAfterSuccess_fields _ _ _).2.1]
      exact append_suffix (h := []) true List.nil_suffix
  | closed =>
    have hrelease : (releaseInFlight c).state = .closed := hs
    rw [hrelease]
    obtain ⟨hclosed, houtcomes, hfailures⟩ := closeAfterSuccess_fields (releaseInFlight c) .closed timestamp
    exact .inr (.inr (.inr ⟨rfl, hclosed, houtcomes, hfailures⟩))

theorem recordFailure_cases (b : CircuitBreaker) (timestamp : ℚ) :
    ((b.state = .halfOpen ∨ shouldOpen (counted b)) ∧ (recordFailure b timestamp).state = .opened ∧
      (recordFailure b timestamp).openedAt = some timestamp ∧ (recordFailure b timestamp).recoverySuccesses = 0) ∨
    (b.state ≠ .halfOpen ∧ recordFailure b timestamp = counted b) := by
  have hcounted : recordFailure b timestamp =
      if b.state = .halfOpen ∨ shouldOpen (counted b) then
        { recordTransition (counted b) b.state .opened
            (if b.state = .halfOpen then .halfOpenProbeFailed
              else if b.thresholds.failureThreshold ≤ (counted b).consecutiveFailures then .failureThreshold
              else .errorRate) timestamp with
          state := .opened
          openedAt := some timestamp }
      else counted b := rfl
  rw [hcounted]
  split
  · next h => exact .inl ⟨h, rfl, rfl, (recordTransition_fields _ _ _ _ _).2.1⟩
  · next h => exact .inr ⟨fun hs => h (.inl hs), rfl⟩

end Refresh

section Steps

variable {s t : Observed ι} {now timestamp : ℚ} {r : ι} {e : Event ι}

/-- A step that only lets time pass. -/
structure Passes (s : Observed ι) (e : Event ι) (t : Observed ι) (now : ℚ) : Prop where
  clock : e.clock = some now
  noRecord : ∀ r o timestamp, e ≠ .record r o timestamp
  state : t.breaker.state = (refreshed s now).breaker.state
  admitted : ∀ r then', e = .acquire r then' → then' = now ∧
    ((Breaker.acquire s.breaker then').1 = true → (refreshed s now).breaker.state ≠ .opened)

theorem follows_passes (now : ℚ) (h : Tracks s) (hp : Passes s e t now) : Follows s e t := by
  have hnot : ∀ r o timestamp, e = .record r o timestamp → False := fun r o timestamp he => hp.noRecord r o timestamp he
  obtain heq | ⟨hopened, helapsed, hhalf, -⟩ := refreshed_cases h now
  · have hsame : t.breaker.state = s.breaker.state := by
      rw [hp.state, heq]
    refine ⟨fun hc ho => ?_, fun hc hh => ?_, fun r then' he ho had => ?_, fun ho hne => ?_, fun hne hc => ?_,
      fun r timestamp he => (hnot _ _ _ he).elim, fun r o timestamp he => (hnot _ _ _ he).elim⟩
    · cases hc.symm.trans (hsame.symm.trans ho)
    · cases hc.symm.trans (hsame.symm.trans hh)
    · obtain ⟨-, hallowed⟩ := hp.admitted r then' he
      rw [heq] at hallowed
      exact absurd ho (hallowed had)
    · exact absurd (hsame.trans ho) hne
    · exact absurd (hsame.symm.trans hc) hne
  · have hstate := hp.state.trans hhalf
    refine ⟨fun hc _ => ?_, fun hc _ => ?_, fun r then' he _ _ => ?_, fun _ _ => ⟨now, hp.clock, helapsed⟩,
      fun _ hc => ?_, fun r timestamp he => (hnot _ _ _ he).elim, fun r o timestamp he => (hnot _ _ _ he).elim⟩
    · cases hopened.symm.trans hc
    · cases hopened.symm.trans hc
    · exact (hp.admitted r then' he).1 ▸ helapsed
    · cases hstate.symm.trans hc

theorem follows_of_same_state (hstate : t.breaker.state = s.breaker.state)
    (hadmissible : ∀ r now, e ≠ .acquire r now) (hreopens : ∀ r timestamp, e = .record r .failure timestamp → s.breaker.state ≠ .halfOpen)
    (hopened : s.breaker.state = .opened → t.breaker.openedAt = s.breaker.openedAt) : Follows s e t := by
  refine ⟨fun hc ho => ?_, fun hc hh => ?_, fun r now he => absurd he (hadmissible r now), fun ho hne => ?_,
    fun hne hc => ?_, fun r timestamp he hs => absurd hs (hreopens r timestamp he), fun r o timestamp _ => ⟨hopened, ?_⟩⟩
  · cases hc.symm.trans (hstate.symm.trans ho)
  · cases hc.symm.trans (hstate.symm.trans hh)
  · exact absurd (hstate.trans ho) hne
  · exact absurd (hstate.symm.trans hc) hne
  · intro hh _ ho
    cases hh.symm.trans (hstate.symm.trans ho)

theorem thresholdMet_of_shouldOpen (h : Tracks s) (hs : s.breaker.state = .closed)
    (hopen : shouldOpen (counted s.breaker)) : ThresholdMet s.breaker (s.history ++ [false]) := by
  unfold shouldOpen at hopen
  cases Bool.or_eq_true_iff.mp hopen with
  | inl hcount =>
    refine .inl ?_
    rw [trailingFailures_failure, ← h.consecutive hs]
    exact of_decide_eq_true hcount
  | inr hrate =>
    obtain ⟨hmin, hrate⟩ := Bool.and_eq_true_iff.mp hrate
    exact .inr ⟨_, append_suffix false (h.window hs), of_decide_eq_true hmin, of_decide_eq_true hrate⟩

theorem tracks_with (h : Tracks s) {b : CircuitBreaker} (issued probes : List ι)
    (hstate : b.state = s.breaker.state) (hat : b.openedAt = s.breaker.openedAt)
    (hsuccesses : b.recoverySuccesses = s.breaker.recoverySuccesses)
    (hfailures : b.consecutiveFailures = s.breaker.consecutiveFailures)
    (houtcomes : s.breaker.state = .closed → b.outcomes.items <:+ s.history) :
    Tracks { s with breaker := b, issued := issued, probes := probes } := by
  refine ⟨fun hs => ?_, fun hs => ?_, fun hs => ?_, fun hs => houtcomes (hstate.symm.trans hs)⟩
  · dsimp only
    rw [hat, hsuccesses]
    exact h.opened (hstate.symm.trans hs)
  · exact hsuccesses.trans (h.halfOpen (hstate.symm.trans hs))
  · exact hfailures.trans (h.consecutive (hstate.symm.trans hs))

variable [DecidableEq ι]

theorem success_step (h : Tracks s) (hok : Timely s (.record r .success timestamp))
    (ht : next s (.record r .success timestamp) = some t) :
    Follows s (.record r .success timestamp) t ∧ Tracks t := by
  obtain heq | ⟨-, -, hhalf, -, -, -, hprobes, -⟩ := refreshed_cases h timestamp
  · have hb : refreshState s.breaker timestamp = s.breaker := by
      rw [← refreshed_breaker, heq]
    have hprobe : s.breaker.state = .halfOpen → r ∈ s.probes := by
      intro hs
      rw [← heq]
      exact hok (by rw [hb, hs])
    have hnext : reported s r .success timestamp (recordSuccess s.breaker timestamp) = t := by
      rw [← Option.some_inj, ← ht]
      change _ = some (reported (refreshed s timestamp) r .success timestamp _)
      rw [heq]
      rfl
    subst hnext
    have hcases := recordSuccess_cases s.breaker timestamp
    rw [hb] at hcases
    obtain ⟨hs, hstate, hat, hsuccesses⟩ | ⟨hs, hstate, hsuccesses⟩ | ⟨hs, hmet, hstate, houtcomes, hfailures⟩ |
      ⟨hs, hstate, houtcomes, hfailures⟩ := hcases
    · refine ⟨follows_of_same_state (hstate.trans hs.symm) (fun _ _ he => (nomatch he)) (fun _ _ he => (nomatch he))
        (fun _ => hat), fun _ => ⟨?_, hsuccesses.trans (h.opened hs).2⟩, fun hh => ?_, fun hc => ?_, fun hc => ?_⟩
      · simp only [reported, hs, ne_eq, not_true_eq_false, and_false, if_false]
        exact hat.trans (h.opened hs).1
      · cases hstate.symm.trans hh
      · cases hstate.symm.trans hc
      · cases hstate.symm.trans hc
    · refine ⟨follows_of_same_state (hstate.trans hs.symm) (fun _ _ he => (nomatch he)) (fun _ _ he => (nomatch he))
        (fun ho => (nomatch hs.symm.trans ho)), tracks_of_halfOpen hstate ?_⟩
      simp only [reported, hprobe hs, and_self, if_true]
      rw [hsuccesses, h.halfOpen hs]
    · refine ⟨⟨fun hc _ => (nomatch hs.symm.trans hc), fun hc _ => (nomatch hs.symm.trans hc),
        fun _ _ he => (nomatch he), fun ho _ => (nomatch hs.symm.trans ho),
        fun _ _ => ⟨r, timestamp, rfl, hs, hprobe hs, h.halfOpen hs ▸ hmet⟩, fun _ _ he => (nomatch he),
        fun _ _ _ _ => ⟨fun ho => (nomatch hs.symm.trans ho), fun _ _ ho => (nomatch hstate.symm.trans ho)⟩⟩,
        fun ho => (nomatch hstate.symm.trans ho), fun hh => (nomatch hstate.symm.trans hh), fun _ => ?_, fun _ => ?_⟩
      · simp only [reported, hs, hstate]
        exact hfailures
      · simp only [reported, hs, hstate]
        exact houtcomes
    · refine ⟨follows_of_same_state (hstate.trans hs.symm) (fun _ _ he => (nomatch he)) (fun _ _ he => (nomatch he))
        (fun ho => (nomatch hs.symm.trans ho)), fun ho => (nomatch hstate.symm.trans ho),
        fun hh => (nomatch hstate.symm.trans hh), fun _ => ?_, fun _ => ?_⟩
      · simp only [reported, hs, if_true]
        rw [hfailures, trailingFailures_success]
      · simp only [reported, hs, if_true, houtcomes]
        exact append_suffix true (h.window hs)
  · have hprobe := hok (by rw [← refreshed_breaker, hhalf])
    rw [hprobes] at hprobe
    exact absurd hprobe List.not_mem_nil

theorem failure_step (h : Tracks s) (hok : Timely s (.record r .failure timestamp))
    (ht : next s (.record r .failure timestamp) = some t) :
    Follows s (.record r .failure timestamp) t ∧ Tracks t := by
  obtain ⟨hprobe, hthreshold⟩ := hok
  cases ht
  change _ ∧ Tracks (reported s r .failure timestamp (recordFailure s.breaker timestamp))
  obtain ⟨hmet, hstate, hat, hsuccesses⟩ | ⟨hhalf, heq⟩ := recordFailure_cases s.breaker timestamp
  · have hopened : s.breaker.state = .opened → s.breaker.openedAt = some timestamp := by
      intro hs
      refine hthreshold hs (hmet.resolve_left (fun hh => ?_))
      cases hs.symm.trans hh
    refine ⟨⟨fun hc _ => ⟨r, timestamp, rfl, thresholdMet_of_shouldOpen h hc (hmet.resolve_left (fun hh => ?_))⟩,
      fun _ hh => (nomatch hstate.symm.trans hh), fun _ _ he => (nomatch he), fun _ hne => absurd hstate hne,
      fun _ hc => (nomatch hstate.symm.trans hc), fun _ _ _ _ _ => hstate, fun q o t he => ?_⟩,
      fun _ => ⟨?_, hsuccesses⟩, fun hh => (nomatch hstate.symm.trans hh), fun hc => (nomatch hstate.symm.trans hc),
      fun hc => (nomatch hstate.symm.trans hc)⟩
    · cases hc.symm.trans hh
    · cases he
      exact ⟨fun hs => hat.trans (hopened hs).symm, fun hh hnot => absurd (hprobe hh) hnot⟩
    · refine hat.trans ?_
      by_cases hs : s.breaker.state = .opened
      · simp only [reported, hs, ne_eq, not_true_eq_false, and_false, if_false]
        exact (hopened hs).symm.trans (h.opened hs).1
      · simp only [reported, hs, hstate, ne_eq, not_false_eq_true, and_self, if_true]
  · have hsame : (recordFailure s.breaker timestamp).state = s.breaker.state := by
      rw [heq]
      rfl
    refine ⟨follows_of_same_state hsame (fun _ _ he => (nomatch he)) (fun _ _ _ => hhalf) (fun _ => ?_),
      fun hs => ⟨?_, ?_⟩, fun hh => absurd (hsame.symm.trans hh) hhalf, fun hc => ?_, fun hc => ?_⟩
    · change (recordFailure s.breaker timestamp).openedAt = _
      rw [heq]
      rfl
    · have hs' : s.breaker.state = .opened := hsame.symm.trans hs
      simp only [reported, hs', ne_eq, not_true_eq_false, and_false, if_false]
      rw [heq]
      exact (h.opened hs').1
    · change (recordFailure s.breaker timestamp).recoverySuccesses = 0
      rw [heq]
      rfl
    · have hc' : s.breaker.state = .closed := hsame.symm.trans hc
      simp only [reported, hc', if_true]
      rw [heq, trailingFailures_failure, ← h.consecutive hc']
      rfl
    · have hc' : s.breaker.state = .closed := hsame.symm.trans hc
      simp only [reported, hc', if_true]
      rw [heq]
      exact append_suffix false (h.window hc')

theorem cancelled_step (h : Tracks s) (ht : next s (.record r .cancelled timestamp) = some t) :
    Follows s (.record r .cancelled timestamp) t ∧ Tracks t := by
  cases ht
  refine ⟨follows_of_same_state rfl (fun _ _ he => (nomatch he)) (fun _ _ he => (nomatch he)) (fun _ => rfl), ?_⟩
  refine ⟨fun hs => ⟨?_, (h.opened hs).2⟩, h.halfOpen, h.consecutive, h.window⟩
  have hs' : s.breaker.state = .opened := hs
  change s.breaker.openedAt = some (if s.breaker.state = .opened ∧ s.breaker.state ≠ .opened then timestamp else s.lastOpening)
  rw [if_neg (fun hne => hne.2 hs')]
  exact (h.opened hs').1

theorem acquire_step (h : Tracks s) (ht : next s (.acquire r now) = some t) :
    Follows s (.acquire r now) t ∧ Tracks t := by
  dsimp only [next] at ht
  split at ht
  · cases ht
  cases ht
  have hb := refreshed_breaker s now
  have hkeep := tracks_refreshed h now
  have hpasses : ∀ u : Observed ι, u.breaker.state = (refreshState s.breaker now).state →
      ((Breaker.acquire s.breaker now).1 = true → (refreshState s.breaker now).state ≠ .opened) →
      Follows s (.acquire r now) u := by
    intro u hstate hadmissible
    refine follows_passes now h ⟨rfl, fun _ _ _ he => (nomatch he), hb ▸ hstate, fun q then' he => ?_⟩
    cases he
    exact ⟨rfl, hb ▸ hadmissible⟩
  obtain ⟨hrefused, heq⟩ | ⟨hs, -, heq⟩ | ⟨hs, heq⟩ := acquire_cases s.breaker now
  · refine ⟨hpasses _ (congrArg _ heq) (fun hadmitted => (nomatch hrefused.symm.trans hadmitted)), ?_⟩
    rw [heq, ← hb]
    exact tracks_with hkeep _ _ rfl rfl rfl rfl hkeep.window
  · rw [heq]
    refine ⟨hpasses _ rfl (fun _ ho => (nomatch hs.symm.trans ho)), ?_⟩
    rw [← hb]
    exact tracks_with hkeep _ _ rfl rfl rfl rfl hkeep.window
  · rw [heq]
    refine ⟨hpasses _ rfl (fun _ ho => (nomatch hs.symm.trans ho)), ?_⟩
    rw [← hb]
    exact tracks_with hkeep _ _ rfl rfl rfl rfl hkeep.window

theorem next_step (h : Tracks s) (hok : Timely s e) (ht : next s e = some t) : Follows s e t ∧ Tracks t := by
  cases e with
  | acquire r now => exact acquire_step h ht
  | record r o timestamp =>
    cases o with
    | success => exact success_step h hok ht
    | failure => exact failure_step h hok ht
    | cancelled => exact cancelled_step h ht
  | look now =>
    cases ht
    refine ⟨follows_passes now h ⟨rfl, fun _ _ _ he => (nomatch he), rfl, fun _ _ he => (nomatch he)⟩, ?_⟩
    exact tracks_refreshed h now
  | reconfigure failureThreshold errorRateThreshold minRequests recoveryTimeoutSeconds recoverySuccessThreshold
      historySize =>
    cases ht
    refine ⟨follows_of_same_state rfl (fun _ _ he => (nomatch he)) (fun _ _ he => (nomatch he)) (fun _ => rfl), ?_⟩
    refine tracks_with h s.issued s.probes rfl rfl rfl rfl (fun hs => ?_)
    unfold reconfigure
    dsimp only
    split
    · exact h.window hs
    · exact resize_suffix _ (h.window hs)

end Steps

theorem tracks_start (thresholds : Thresholds) (historySize : Int) :
    Tracks (start (CircuitBreaker.init thresholds historySize) : Observed ι) :=
  ⟨nofun, nofun, fun _ => rfl, fun _ => List.nil_suffix⟩

variable [DecidableEq ι]

/-- Where only probes report in HALF_OPEN, and in OPEN no failure that meets a threshold, every
step is one the breaker is to take. -/
theorem follows_specification (thresholds : Thresholds) (historySize : Int) (events : List (Event ι))
    (h : Along next Timely (start (CircuitBreaker.init thresholds historySize)) events) :
    Along next (fun s e => ∀ t, next s e = some t → Follows s e t)
      (start (CircuitBreaker.init thresholds historySize)) events :=
  along_of_invariant next (fun _ _ hs hok _ ht => (next_step hs hok ht).1)
    (fun _ _ _ hok hs ht => (next_step hs hok ht).2) (tracks_start thresholds historySize) h

/-- One failure opens the breaker, and two probes close it. -/
def thresholds : Thresholds := .clamp 1 (1 / 2) 10 30 2

/-- The late failure of 1 at 20 extends the open period, and 2 is refused at 40. -/
def lateFailure : List (Event ℕ) :=
  [.acquire 0 0, .acquire 1 0, .record 0 .failure 1, .record 1 .failure 20]

def lateSuccess : List (Event ℕ) :=
  [.acquire 0 0, .acquire 1 0, .record 0 .failure 1, .record 1 .success 40]

def observed (thresholds : Thresholds) (events : List (Event ℕ)) : Option (Observed ℕ) :=
  exec next (start (CircuitBreaker.init thresholds 20)) events

theorem late_outcomes_move_the_open_period : ¬ Along next (fun s e => ∀ t, next s e = some t → Follows s e t)
      (start (CircuitBreaker.init thresholds 20)) lateFailure ∧
    ¬ Along next (fun s e => ∀ t, next s e = some t → Follows s e t)
      (start (CircuitBreaker.init (.clamp 1 (1 / 2) 10 30 1) 20)) lateSuccess := by
  constructor
  · intro h
    have hlast := (along_append next (show Along next _ _ (lateFailure.take 3 ++ [.record 1 .failure 20]) from h)
      (Option.some_get (show (observed thresholds (lateFailure.take 3)).isSome by decide +kernel)).symm).1
    exact absurd ((hlast _ rfl).earlier 1 .failure 20 rfl).1 (by decide +kernel)
  · intro h
    have hlast := (along_append next (show Along next _ _ (lateSuccess.take 3 ++ [.record 1 .success 40]) from h)
      (Option.some_get (show (observed (.clamp 1 (1 / 2) 10 30 1) (lateSuccess.take 3)).isSome by decide +kernel)).symm).1
    obtain ⟨r, timestamp, -, hs, -⟩ := (hlast _ rfl).closes (by decide +kernel) (by decide +kernel)
    exact absurd hs (by decide +kernel)

def twoProbes : List (Event ℕ) :=
  [.acquire 0 0, .acquire 1 0, .record 0 .failure 1, .record 1 .success 20, .acquire 2 40, .record 2 .success 41,
    .acquire 3 42, .record 3 .success 43]

theorem two_probes_close : (observed thresholds twoProbes).map (fun s => s.breaker.state) = some .closed ∧
    Along next (fun s e => ∀ t, next s e = some t → Follows s e t)
      (start (CircuitBreaker.init thresholds 20)) twoProbes :=
  ⟨by decide +kernel, follows_specification thresholds 20 twoProbes (by decide +kernel)⟩

end Kirara.BreakerPeriods
