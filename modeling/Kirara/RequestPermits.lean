import Kirara.FailoverPermits
import Kirara.Schedules

namespace Kirara.RequestPermits

open Kirara.Breaker Kirara.Failover Kirara.FailoverPermits Kirara.PermitLedger Kirara.Schedules

variable {ρ ς χ : Type} [DecidableEq ρ]

section InFlight

/-- Every breaker counts what the request holds on top of what was in flight. -/
def Tracks (m : Manager ρ) (w : World ρ χ) : Prop :=
  ∀ p n, held p (entries w) = some n →
    (w.manager.resilienceBreakers p).inFlight = (m.resilienceBreakers p).inFlight + n

variable {m : Manager ρ} {w : World ρ χ}

theorem held_taken {p q : ρ} {es : List (Entry ρ)} {n : Nat} (h : held q (es ++ [.taken p]) = some n) :
    ∃ k, held q es = some k ∧ n = k + if p = q then 1 else 0 := by
  rw [held_append] at h
  cases hk : held q es with
  | none => simp [hk, settle] at h
  | some k =>
    refine ⟨k, rfl, ?_⟩
    by_cases hpq : p = q <;> simp_all [settle]

theorem held_given {p q : ρ} {es : List (Entry ρ)} {n : Nat} (h : held q (es ++ [.given p]) = some n) :
    ∃ k, held q es = some k ∧ k = n + if p = q then 1 else 0 := by
  rw [held_append] at h
  cases hk : held q es with
  | none => simp [hk, settle] at h
  | some k =>
    refine ⟨k, rfl, ?_⟩
    by_cases hpq : p = q <;> cases k <;> simp_all [settle]

theorem tracks_start : Tracks m (World.start m : World ρ χ) := by
  intro p n h
  have hn : n = 0 := by simpa [World.start, entries, held] using h.symm
  rw [hn]
  rfl

theorem tracks_skipOpenCircuit {c : Candidate ρ ς} {b : CircuitBreaker} (hw : Tracks m w)
    (ha : acquire (w.manager.resilienceBreakers c.provider) c.acquireAt = (false, b)) :
    Tracks m (skipOpenCircuit c b w) := by
  intro p n h
  have hb : b.inFlight = (w.manager.resilienceBreakers c.provider).inFlight := by
    simpa [ha] using acquire_inFlight (w.manager.resilienceBreakers c.provider) c.acquireAt
  have hp := hw p n h
  rw [skipOpenCircuit_breakers, Function.update_apply]
  split
  · next hpc =>
    subst hpc
    simpa [hb] using hp
  · exact hp

theorem tracks_enter {c : Candidate ρ ς} {b : CircuitBreaker} (hw : Tracks m w)
    (ha : acquire (w.manager.resilienceBreakers c.provider) c.acquireAt = (true, b)) :
    Tracks m (enter c b w) := by
  intro p n h
  have hb : b.inFlight = (w.manager.resilienceBreakers c.provider).inFlight + 1 := by
    simpa [ha] using acquire_inFlight (w.manager.resilienceBreakers c.provider) c.acquireAt
  rw [enter_entries] at h
  obtain ⟨k, hk, rfl⟩ := held_taken h
  have hp := hw p k hk
  rw [enter_breakers, Function.update_apply]
  by_cases hpc : p = c.provider
  · subst hpc
    rw [if_pos rfl, hb, hp, if_pos rfl]
    omega
  · simpa [hpc, Ne.symm hpc] using hp

theorem applyReport_breakers (p : ρ) (i : Nat) (startedAt : ℚ) (w : World ρ χ) (r : Report) :
    (applyReport p i startedAt w r).manager.resilienceBreakers =
      Function.update w.manager.resilienceBreakers p
        (record (w.manager.resilienceBreakers p) r.timestamp r.outcome) := by
  unfold applyReport
  by_cases h : r.listed <;> simp [h, listAttempt, recordAttempt, updateBreaker]

theorem tracks_applyReport (p : ρ) (i : Nat) (startedAt : ℚ) (r : Report) (hw : Tracks m w) :
    Tracks m (applyReport p i startedAt w r) := by
  intro q n h
  rw [applyReport_entries] at h
  obtain ⟨k, hk, rfl⟩ := held_given h
  have hq := hw q _ hk
  rw [applyReport_breakers, Function.update_apply]
  by_cases hqp : q = p
  · subst hqp
    rw [if_pos rfl, record_inFlight, hq, if_pos rfl]
    omega
  · simpa [hqp, Ne.symm hqp] using hq

variable (pass : ς → Pass χ) (deadline : ℚ)

theorem tracks_runTurn (c : Candidate ρ ς) (i : Nat) (hw : Tracks m w) : Tracks m (runTurn pass c i w) :=
  List.foldlRecOn _ _ (motive := Tracks m) hw (fun _ hb r _ => tracks_applyReport _ _ _ r hb)

theorem tracks_attemptLoop (c : Candidate ρ ς) (remaining index : Nat) (hw : Tracks m w) :
    Tracks m (attemptLoop pass deadline c remaining index w).2 := by
  induction remaining generalizing index w with
  | zero => exact hw
  | succ remaining ih =>
    have ht := tracks_runTurn pass c index hw
    unfold attemptLoop
    split
    · exact hw
    split
    · exact ht
    split
    · exact ht
    · exact ht
    · exact ih (index + 1) ht

theorem tracks_providerQueue (cs : List (Candidate ρ ς)) (hw : Tracks m w) :
    Tracks m (providerQueue pass deadline cs w).2 := by
  induction cs generalizing w with
  | nil => exact hw
  | cons c cs ih =>
    unfold providerQueue
    split
    · exact hw
    split
    · next b ha => exact ih (tracks_skipOpenCircuit hw ha)
    · next b ha =>
      have hl := tracks_attemptLoop pass deadline c (c.providerRetries + 1) 0 (tracks_enter hw ha)
      dsimp only
      split
      · exact tracks_enter hw ha
      split
      · next v hv => rwa [hv] at hl
      · next v hv => rwa [hv] at hl
      · next v hv =>
        rw [hv] at hl
        exact ih hl

end InFlight

variable (deadline : ℚ) (closesAfter : Option Nat)

def ChatFails (t : ChatTurn χ) (c : ErrorCategory) : Prop :=
  t.cancelled = false ∧
    match t.outcome with
    | .response r => if deadline < t.completedAt then c = .timeout else t.policy r = .error c
    | .error d => c = d
    | _ => False

/-- The policy does not fail on a response in time, and the exception is caught. -/
def ChatSingle (t : ChatTurn χ) : Prop :=
  t.cancelled = true ∨
    match t.outcome with
    | .response r => deadline < t.completedAt ∨ ∃ answer, t.policy r = .ok answer
    | .baseException => False
    | _ => True

theorem chatPass_spec (t : ChatTurn χ) : (t.cancelled = false ∧ t.outcome = .baseException ↔
      (chatPass deadline t).reports.length = 0) ∧
    (ChatSingle deadline t ↔ (chatPass deadline t).reports.length = 1) ∧
    (∀ c, ChatFails deadline t c ↔ (chatPass deadline t).ending = .failed c) ∧
    (∀ c, ChatSingle deadline t → ChatFails deadline t c →
      (chatPass deadline t).reports = [failureReport c none t.failedAt]) := by
  cases hc : t.cancelled with
  | true => simp [chatPass, ChatSingle, ChatFails, hc]
  | false =>
    cases ho : t.outcome with
    | response r =>
      by_cases hd : deadline < t.completedAt
      · simp [chatPass, ChatSingle, ChatFails, hc, ho, hd, eq_comm]
      cases hp : t.policy r with
      | ok answer => simp [chatPass, ChatSingle, ChatFails, hc, ho, hd, hp]
      | error d => simp [chatPass, ChatSingle, ChatFails, hc, ho, hd, hp, eq_comm]
    | requestCancelled => simp [chatPass, ChatSingle, ChatFails, hc, ho]
    | error d => simp [chatPass, ChatSingle, ChatFails, hc, ho, eq_comm]
    | baseException => simp [chatPass, ChatSingle, ChatFails, hc, ho]

def chatShape : PassShape (chatPass (χ := χ) deadline) where
  silent t := t.cancelled = false ∧ t.outcome = .baseException
  single := ChatSingle deadline
  fails := ChatFails deadline
  failedAt := ChatTurn.failedAt
  silent_iff t := (chatPass_spec deadline t).1
  single_iff t := (chatPass_spec deadline t).2.1
  fails_iff t := (chatPass_spec deadline t).2.2.1
  leaves_of_silent t h := ⟨.baseException, by simp [chatPass, h.1, h.2]⟩
  report_of_fails t c hs hf := ⟨_, (chatPass_spec deadline t).2.2.2 c hs hf, rfl, rfl⟩

theorem streamPass_spec (t : StreamTurn χ) : (t.closedEarly closesAfter = true ∨ t.ending = .baseException ↔
      (streamPass closesAfter t).reports.length = 0) ∧
    (t.closedEarly closesAfter = false ∧ t.ending ≠ .baseException ↔
      (streamPass closesAfter t).reports.length = 1) ∧
    (∀ c, t.closedEarly closesAfter = false ∧ t.ending = .error c ∧ t.chunks = [] ↔
      (streamPass closesAfter t).ending = .failed c) := by
  cases hc : t.closedEarly closesAfter with
  | true => simp [streamPass, hc]
  | false =>
    cases he : t.ending with
    | exhausted => simp [streamPass, hc, he]
    | requestCancelled => simp [streamPass, hc, he]
    | error d =>
      cases ht : t.chunks with
      | nil => simp [streamPass, hc, he, ht, StreamTurn.firstByteAt]
      | cons chunk chunks => simp [streamPass, hc, he, ht, StreamTurn.firstByteAt]
    | baseException => simp [streamPass, hc, he]

/-- No report when the consumer closes it or nothing catches the exception, else one. -/
def streamShape : PassShape (streamPass (χ := χ) closesAfter) where
  silent t := t.closedEarly closesAfter = true ∨ t.ending = .baseException
  single t := t.closedEarly closesAfter = false ∧ t.ending ≠ .baseException
  fails t c := t.closedEarly closesAfter = false ∧ t.ending = .error c ∧ t.chunks = []
  failedAt := StreamTurn.completedAt
  silent_iff t := (streamPass_spec closesAfter t).1
  single_iff t := (streamPass_spec closesAfter t).2.1
  fails_iff t := (streamPass_spec closesAfter t).2.2
  leaves_of_silent t h := by
    cases hc : t.closedEarly closesAfter with
    | true => exact ⟨.generatorExit, by simp [streamPass, hc]⟩
    | false =>
      have he : t.ending = .baseException := by simpa [hc] using h
      exact ⟨.baseException, by simp [streamPass, hc, he]⟩
  report_of_fails t c _ hf := by
    obtain ⟨hc, he, -⟩ := hf
    exact ⟨failureReport c t.firstByteAt t.completedAt, by simp [streamPass, hc, he], rfl, rfl⟩

/-- A request as it reaches the manager, with everything that happens to it. -/
inductive Request (ρ χ : Type) where
  | chat (cancelled : Bool) (started configuredDeadline : ℚ)
      (candidates : List (Candidate ρ (ChatTurn χ)))
  | stream (cancelled : Bool) (started configuredDeadline : ℚ) (closesAfter : Option Nat)
      (candidates : List (Candidate ρ (StreamTurn χ)))

def execute (m : Manager ρ) : Request ρ χ → Exit χ × World ρ χ
  | .chat cancelled started deadline candidates =>
    executeChat cancelled started deadline candidates m
  | .stream cancelled started deadline closesAfter candidates =>
    executeStream cancelled started deadline closesAfter candidates m

def serve (m : Manager ρ) (r : Request ρ χ) : Option (Manager ρ) := some (execute m r).2.manager

/-- The request was admitted in HALF_OPEN and did not report afterwards. -/
def HoldsProbe (p : ρ) (calls : List (BreakerCall ρ)) : Prop :=
  ∃ pre post, calls = pre ++ .acquired p .halfOpen :: post ∧ ∀ o, .recorded p o ∉ post

/-- What an ended request owes the breakers. -/
structure Settled (m : Manager ρ) (w : World ρ χ) : Prop where
  inFlight : ∀ p, (w.manager.resilienceBreakers p).inFlight = (m.resilienceBreakers p).inFlight
  noProbe : ∀ p, ¬ HoldsProbe p w.calls
  balanced : Balanced (entries w)

def ReportsEachAdmission (m : Manager ρ) : Request ρ χ → Prop
  | .chat cancelled started deadline candidates =>
    cancelled = false →
      EachReportsOnce (chatShape (requestDeadline started deadline))
        (requestDeadline started deadline) candidates m.resilienceBreakers
  | .stream cancelled started deadline closesAfter candidates =>
    cancelled = false → closesAfter ≠ some 0 →
      EachReportsOnce (streamShape closesAfter) (requestDeadline started deadline) candidates
        m.resilienceBreakers

omit [DecidableEq ρ] in
theorem onLoan_of_holdsProbe {p : ρ} {w : World ρ χ} (h : HoldsProbe p w.calls) : OnLoan p (entries w) := by
  obtain ⟨pre, post, hc, hpost⟩ := h
  refine ⟨pre.map BreakerCall.entry, post.map BreakerCall.entry, ?_, ?_⟩
  · simp [entries, hc, BreakerCall.entry]
  · rintro hg
    obtain ⟨e, he, hp⟩ := List.mem_map.mp hg
    cases e with
    | acquired q s => cases hp
    | recorded q o =>
      cases hp
      exact hpost o he

theorem settled_iff_balanced {m : Manager ρ} {w : World ρ χ} (ht : Tracks m w) :
    Settled m w ↔ Balanced (entries w) := by
  refine ⟨Settled.balanced, fun hb => ⟨fun p => ?_, fun p hp => ?_, hb⟩⟩
  · simpa using ht p 0 (hb p)
  · exact not_onLoan_of_balanced hb p (onLoan_of_holdsProbe hp)

variable (m : Manager ρ)

theorem execute_tracks (r : Request ρ χ) : Tracks m (execute m r).2 := by
  cases r with
  | chat cancelled started deadline candidates =>
    simp only [execute, executeChat]
    split
    · exact tracks_start
    · exact tracks_providerQueue _ _ _ tracks_start
  | stream cancelled started deadline closesAfter candidates =>
    simp only [execute, executeStream]
    split_ifs
    · exact tracks_start
    · exact tracks_start
    · exact tracks_start
    · exact tracks_providerQueue _ _ _ tracks_start

theorem balanced_start : Balanced (entries (World.start m : World ρ χ)) :=
  balanced_nil

theorem execute_balanced_iff (r : Request ρ χ) :
    Balanced (entries (execute m r).2) ↔ ReportsEachAdmission m r := by
  cases r with
  | chat cancelled started deadline candidates =>
    cases cancelled with
    | true => simpa [execute, executeChat, ReportsEachAdmission] using balanced_start m
    | false =>
      have h := providerQueue_balanced_iff (requestDeadline started deadline)
        (chatShape (requestDeadline started deadline)) candidates (World.start m)
        (balanced_start m)
      simpa [execute, executeChat, ReportsEachAdmission] using h
  | stream cancelled started deadline closesAfter candidates =>
    by_cases hc : cancelled = true
    · simpa [execute, executeStream, ReportsEachAdmission, hc] using balanced_start m
    by_cases he : candidates = []
    · simpa [execute, executeStream, ReportsEachAdmission, hc, he, EachReportsOnce]
        using balanced_start m
    by_cases hz : closesAfter = some 0
    · simpa [execute, executeStream, ReportsEachAdmission, hc, he, hz] using balanced_start m
    have h := providerQueue_balanced_iff (requestDeadline started deadline)
      (streamShape closesAfter) candidates (World.start m) (balanced_start m)
    simpa [execute, executeStream, ReportsEachAdmission, hc, he, hz] using h

/-- In a sequence of requests each leaves the breakers settled exactly when each reports every
admission once. -/
theorem requests_settle_iff (m : Manager ρ) (rs : List (Request ρ χ)) :
    Along serve (fun m r => Settled m (execute m r).2) m rs ↔
      Along serve ReportsEachAdmission m rs := by
  have hiff : ∀ (m : Manager ρ) (r : Request ρ χ),
      Settled m (execute m r).2 ↔ ReportsEachAdmission m r := fun m r =>
    (settled_iff_balanced (execute_tracks m r)).trans (execute_balanced_iff m r)
  exact ⟨along_mono serve (fun m r => (hiff m r).mp), along_mono serve (fun m r => (hiff m r).mpr)⟩

/-- The breaker opened at time 0 and lets one probe through from time 30 on. -/
def recovering : Manager ℕ :=
  ⟨fun _ => recordFailure (CircuitBreaker.init (.clamp 1 (1 / 2) 10 30 2) 20) 0,
    fun _ => BoundedQueue.empty 20⟩

def closedStream : Request ℕ Unit :=
  .stream false 40 60 (some 1)
    [⟨0, false, 40, (40, 40), 0, true, fun _ => ⟨40, ⟨[((), 41)], .exhausted, 42⟩, 42, false⟩⟩]

def retriedChat : Request ℕ Unit :=
  .chat false 40 60
    [⟨0, false, 40, (40, 40), 1, true, fun i =>
      ⟨40, ⟨false, if i = 0 then .error .network else .response (), 41, .ok, 41⟩, 41, false⟩⟩]

/-- A closed stream leaves the probe permit taken, and a request that succeeds on its second
attempt has reported twice. -/
theorem closed_stream_and_retried_chat_unsettled :
    ¬ Along serve (fun m r => Settled m (execute m r).2) recovering [closedStream] ∧
      ¬ Along serve (fun m r => Settled m (execute m r).2) recovering [retriedChat] := by
  constructor
  · rintro ⟨h, -⟩
    have hp := h.inFlight 0
    revert hp
    decide +kernel
  · rintro ⟨h, -⟩
    have hp := h.balanced 0
    revert hp
    decide +kernel

end Kirara.RequestPermits
