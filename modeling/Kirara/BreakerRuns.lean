import Kirara.Breaker
import Kirara.Schedules

namespace Kirara.BreakerRuns

open Kirara.Breaker Kirara.Schedules

variable {ι : Type} [DecidableEq ι]

/-- One breaker shared by requests, each with the state it was admitted in. -/
structure Shared (ι : Type) where
  breaker : CircuitBreaker
  unresolved : List (ι × CircuitState)

/-- Callers read the clock before they take the lock, so readings need not be in order. -/
inductive Call (ι : Type) where
  | acquire (request : ι) (now : ℚ)
  | record (request : ι) (outcome : Outcome) (timestamp : ℚ)
  deriving DecidableEq

def next (s : Shared ι) : Call ι → Option (Shared ι)
  | .acquire r now =>
    if r ∈ s.unresolved.map Prod.fst then none
    else
      let (admitted, b) := acquire s.breaker now
      some ⟨b, if admitted then (r, b.state) :: s.unresolved else s.unresolved⟩
  | .record r o timestamp =>
    if r ∈ s.unresolved.map Prod.fst then
      some ⟨record s.breaker timestamp o, s.unresolved.filter (fun e => e.1 ≠ r)⟩
    else none

def start (b : CircuitBreaker) : Shared ι := ⟨b, []⟩

/-- The requests that were admitted in HALF_OPEN and have not reported yet. -/
def probes (s : Shared ι) : List ι :=
  (s.unresolved.filter (fun e => e.2 = .halfOpen)).map Prod.fst

/-- No outcome of another request is recorded while a probe is unresolved. -/
def NoStaleOutcome (s : Shared ι) : Call ι → Prop
  | .acquire _ _ => True
  | .record r _ _ => ∀ p ∈ probes s, p = r

instance (s : Shared ι) : DecidablePred (NoStaleOutcome s)
  | .acquire _ _ => inferInstanceAs (Decidable True)
  | .record r _ _ => inferInstanceAs (Decidable (∀ p ∈ probes s, p = r))

/-- Whoever is listed as an unresolved probe really holds the only permit. -/
structure PermitHeld (s : Shared ι) : Prop where
  single : (probes s).length ≤ 1
  halfOpen : probes s ≠ [] → s.breaker.state = .halfOpen
  permit : probes s ≠ [] → s.breaker.halfOpenProbeInFlight = true

omit [DecidableEq ι] in
theorem permitHeld_start (b : CircuitBreaker) : PermitHeld (start b : Shared ι) where
  single := Nat.zero_le _
  halfOpen h := absurd rfl h
  permit h := absurd rfl h

omit [DecidableEq ι] in
theorem permitHeld_of_probes_nil {s : Shared ι} (h : probes s = []) : PermitHeld s where
  single := by simp [h]
  halfOpen hs := absurd h hs
  permit hs := absurd h hs

omit [DecidableEq ι] in
theorem acquire_refused {s : Shared ι} (hi : PermitHeld s) (hp : probes s ≠ []) (now : ℚ) :
    acquire s.breaker now = (false, s.breaker) := by
  have hs := hi.halfOpen hp
  have hr : refreshState s.breaker now = s.breaker :=
    refreshState_of_ne_opened now (by simp [hs])
  simp [acquire, hr, hs, hi.permit hp]

variable {s t : Shared ι}

theorem permitHeld_acquire {r : ι} {now : ℚ} (hi : PermitHeld s)
    (h : next s (.acquire r now) = some t) : PermitHeld t := by
  simp only [next] at h
  split at h
  · cases h
  cases h
  by_cases hp : probes s = []
  · obtain ⟨hf, hb⟩ | ⟨hs, -, hb⟩ | ⟨hs, hb⟩ := acquire_cases s.breaker now
    · refine permitHeld_of_probes_nil ?_
      simpa [probes, hf] using hp
    · have hq : (s.unresolved.filter (fun e => e.2 = .halfOpen)) = [] :=
        List.map_eq_nil_iff.mp hp
      simp only [hb, if_true]
      exact ⟨by simp [probes, hs, hq], fun _ => hs, fun _ => rfl⟩
    · refine permitHeld_of_probes_nil ?_
      simpa [probes, hb, hs] using hp
  · rw [acquire_refused hi hp]
    exact hi

theorem permitHeld_record {r : ι} {o : Outcome} {timestamp : ℚ} (hok : NoStaleOutcome s (.record r o timestamp))
    (h : next s (.record r o timestamp) = some t) : PermitHeld t := by
  simp only [next] at h
  split at h
  · cases h
    refine permitHeld_of_probes_nil ?_
    simp only [probes, List.map_eq_nil_iff, List.filter_filter, List.filter_eq_nil_iff]
    intro e he hq
    simp only [Bool.and_eq_true, decide_eq_true_eq] at hq
    exact hq.2 (hok e.1 (List.mem_map.mpr ⟨e, List.mem_filter.mpr ⟨he, by simpa using hq.1⟩, rfl⟩))
  · cases h

theorem permitHeld_next {c : Call ι} (hok : NoStaleOutcome s c)
    (hi : PermitHeld s) (h : next s c = some t) : PermitHeld t := by
  cases c with
  | acquire r now => exact permitHeld_acquire hi h
  | record r o timestamp => exact permitHeld_record hok h

/-- Where no stale outcome meets an unresolved probe, the breaker never has more than one probe
out. -/
theorem single_probe (b : CircuitBreaker) (calls : List (Call ι)) (s : Shared ι)
    (h : exec next (start b) calls = some s)
    (hok : Along next NoStaleOutcome (start b) calls) : (probes s).length ≤ 1 := by
  have hi := exec_invariant next (fun _ _ _ hc hi ht => permitHeld_next hc hi ht)
    (permitHeld_start b) hok h
  exact hi.single

def sampleBreaker : CircuitBreaker :=
  CircuitBreaker.init (.clamp 1 (1 / 2) 10 30 2) 20

/-- Request 2 becomes the probe; the late cancellation of 1 frees its permit for 3. -/
def staleCancellation : List (Call ℕ) :=
  [.acquire 0 0, .acquire 1 0, .record 0 .failure 1, .acquire 2 31, .record 1 .cancelled 32, .acquire 3 33]

theorem stale_cancellation_frees_probe :
    (exec next (start sampleBreaker) staleCancellation).map probes = some [3, 2] := by
  decide +kernel

/-- Here request 1 fails before the breaker can be probed, and 3 is refused. -/
def orderlyProbe : List (Call ℕ) :=
  [.acquire 0 0, .acquire 1 0, .record 0 .failure 1, .record 1 .failure 2, .acquire 2 40, .acquire 3 41]

theorem single_probe_orderly :
    (probes ((exec next (start sampleBreaker) orderlyProbe).get (by decide +kernel))).length ≤ 1 :=
  single_probe sampleBreaker orderlyProbe _ (Option.some_get _).symm (by decide +kernel)

end Kirara.BreakerRuns
