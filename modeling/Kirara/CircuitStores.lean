import Kirara.Breaker
import Kirara.Channels
import Kirara.Dicts

namespace Kirara.CircuitStores

open Kirara.BoundedQueue Kirara.Breaker Kirara.Channels Kirara.Dicts Kirara.Rosters

/-- A reading of the wall clock, which outlives the process, and of the monotonic one. -/
structure Instant where
  wall : ℚ
  monotonic : ℚ

/-- What `durable_state` exports. -/
structure DurableState where
  state : CircuitState
  consecutiveFailures : Nat
  recoverySuccesses : Nat
  openedAgoSeconds : Option ℚ

def durableState (now : ℚ) (b : CircuitBreaker) : Option DurableState :=
  let b := refreshState b now
  if b.state = .closed then none
  else some ⟨b.state, b.consecutiveFailures, b.recoverySuccesses, b.openedAt.map (fun openedAt => max 0 (now - openedAt))⟩

def restoreDurableState (elapsedSeconds now : ℚ) (state : DurableState) (b : CircuitBreaker) : CircuitBreaker :=
  if state.state = .closed then b
  else
    let totalOpen := (state.openedAgoSeconds.map (max 0)).getD 0 + max 0 elapsedSeconds
    refreshState { b with
      consecutiveFailures := state.consecutiveFailures
      recoverySuccesses := state.recoverySuccesses
      outcomes := clear b.outcomes
      halfOpenProbeInFlight := false
      state := .opened
      openedAt := some (now - totalOpen) } now

structure Document where
  savedAt : ℚ
  breakers : Dict Text DurableState

def maxAgeSeconds : ℚ := 24 * 60 * 60

def snapshots (now : ℚ) (breakers : Dict Text CircuitBreaker) : Dict Text DurableState where
  entries := breakers.entries.filterMap (fun e => (durableState now e.2).map (e.1, ·))
  distinct := by
    have hsub : ((breakers.entries.filterMap (fun e => (durableState now e.2).map (e.1, ·))).map Prod.fst).Sublist
        (breakers.entries.map Prod.fst) := by
      induction breakers.entries with
      | nil => exact .slnil
      | cons e entries ih => cases h : durableState now e.2 <;> simp [h, ih]
    exact breakers.distinct.sublist hsub

theorem get_snapshots (now : ℚ) (breakers : Dict Text CircuitBreaker) (name : Text) :
    (snapshots now breakers).get name = (breakers.get name).bind (durableState now) := by
  apply Option.ext
  intro state
  rw [Dict.get_eq_some_iff, Option.bind_eq_some_iff]
  simp [snapshots, Dict.get_eq_some_iff]

def save (now : Instant) (breakers : Dict Text CircuitBreaker) (file : Option Document) : Option Document :=
  let stored := snapshots now.monotonic breakers
  if stored.entries = [] ∧ file.isNone then none else some ⟨now.wall, stored⟩

def load (now : Instant) (file : Option Document) : Dict Text DurableState :=
  match file with
  | none => .empty
  | some document => if maxAgeSeconds < now.wall - document.savedAt then .empty else document.breakers

def forget (file : Option Document) (providerName : Text) : Option Document :=
  file.map (fun document => { document with breakers := document.breakers.pop providerName })

def elapsed (now : Instant) (file : Option Document) : ℚ :=
  match file with
  | none => 0
  | some document => max 0 (now.wall - document.savedAt)

def restore (now : Instant) (file : Option Document) (breakers : Dict Text CircuitBreaker) : Dict Text CircuitBreaker :=
  breakers.mapEntries (fun name b =>
    match (load now file).get name with
    | none => b
    | some state => restoreDurableState (elapsed now file) now.monotonic state b)

variable {saved stopped now : Instant} {breakers fresh : Dict Text CircuitBreaker} {file : Option Document}
variable {forgotten : List Text} {name : Text}

def restarted (saved now : Instant) (breakers : Dict Text CircuitBreaker) (file : Option Document) (forgotten : List Text)
    (fresh : Dict Text CircuitBreaker) : Dict Text CircuitBreaker :=
  restore now (forgotten.foldl forget (save saved breakers file)) fresh

def age (b : CircuitBreaker) (t : Instant) : ℚ := (b.openedAt.map (fun openedAt => max 0 (t.monotonic - openedAt))).getD 0

def downtime (saved now : Instant) : ℚ := max 0 (now.wall - saved.wall)

/-- A new breaker goes on where one stopped that was not closed. -/
structure Resumes (saved now : Instant) (b f r : CircuitBreaker) : Prop where
  thresholds : r.thresholds = f.thresholds
  failures : r.consecutiveFailures = b.consecutiveFailures
  recoveries : r.recoverySuccesses = b.recoverySuccesses
  openedAt : r.openedAt = some (now.monotonic - (age b saved + downtime saved now))
  state : r.state = if f.thresholds.recoveryTimeoutSeconds ≤ age b saved + downtime saved now then .halfOpen else .opened
  outcomes : r.outcomes.items = []
  /-- An open one is in the state it would be in if it had not stopped. -/
  asBefore : b.thresholds = f.thresholds → b.state = .opened → (∃ openedAt ≤ saved.monotonic, b.openedAt = some openedAt) →
    r.state = (refreshState b (saved.monotonic + downtime saved now)).state

/-- The record of a breaker is still of use. -/
structure Lasts (saved now : Instant) (forgotten : List Text) (name : Text) (b : CircuitBreaker) : Prop where
  notClosed : (refreshState b saved.monotonic).state ≠ .closed
  kept : name ∉ forgotten
  recent : now.wall - saved.wall ≤ maxAgeSeconds

theorem get_load_save : (load now (save saved breakers file)).get name =
    if now.wall - saved.wall ≤ maxAgeSeconds then (breakers.get name).bind (durableState saved.monotonic) else none := by
  rw [← get_snapshots]
  unfold save
  dsimp only
  split
  · next h => simp [load, Dict.get, h.1, lookup, Dict.empty]
  · simp only [load, apply_ite (Dict.get · name), ← not_le, ite_not]
    rfl

theorem get_load_forgotten (file : Option Document) :
    (load now (forgotten.foldl forget file)).get name = if name ∈ forgotten then none else (load now file).get name := by
  induction forgotten generalizing file with
  | nil => simp
  | cons q forgotten ih =>
    have hone : (load now (forget file q)).get name = if name = q then none else (load now file).get name := by
      cases file with
      | none => simp [forget, load]
      | some document =>
        simp only [forget, load, Option.map_some]
        split
        · simp
        · exact Dict.get_pop
    rw [List.foldl_cons, ih, hone]
    by_cases h : name = q <;> simp [h]

theorem elapsed_forgotten (file : Option Document) : elapsed now (forgotten.foldl forget file) = elapsed now file := by
  induction forgotten generalizing file with
  | nil => rfl
  | cons q forgotten ih =>
    rw [List.foldl_cons, ih]
    cases file <;> rfl

theorem refreshState_counts (b : CircuitBreaker) (t : ℚ) :
    (refreshState b t).thresholds = b.thresholds ∧ (refreshState b t).consecutiveFailures = b.consecutiveFailures ∧
      (refreshState b t).recoverySuccesses = b.recoverySuccesses ∧ (refreshState b t).openedAt = b.openedAt ∧
      (refreshState b t).outcomes = b.outcomes := by
  unfold refreshState recordTransition
  split
  · split <;> simp
  · simp

theorem refreshState_opened {b : CircuitBreaker} {openedAt : ℚ} (hs : b.state = .opened) (ho : b.openedAt = some openedAt)
    (t : ℚ) : (refreshState b t).state =
      if b.thresholds.recoveryTimeoutSeconds ≤ t - openedAt then .halfOpen else .opened := by
  rw [refreshState, hs, ho]
  dsimp only
  split <;> simp [hs]

theorem resumes_restored {b f : CircuitBreaker} {state : DurableState}
    (hstate : durableState saved.monotonic b = some state) :
    Resumes saved now b f (restoreDurableState (downtime saved now) now.monotonic state f) := by
  rw [durableState, Option.ite_none_left_eq_some] at hstate
  obtain ⟨hopen, hstate⟩ := hstate
  obtain ⟨-, hfailures, hrecoveries, hopenedAt, -⟩ := refreshState_counts b saved.monotonic
  rw [hfailures, hrecoveries, hopenedAt] at hstate
  cases hstate
  have htotal : (((b.openedAt.map (fun openedAt => max 0 (saved.monotonic - openedAt))).map (max 0)).getD 0 : ℚ) +
      max 0 (downtime saved now) = age b saved + downtime saved now := by
    have hdowntime : max 0 (downtime saved now) = downtime saved now := max_eq_right (le_max_left 0 _)
    rw [hdowntime, age]
    cases b.openedAt <;> simp
  rw [restoreDurableState, if_neg hopen]
  dsimp only
  rw [htotal]
  generalize hc : ({ f with
    consecutiveFailures := b.consecutiveFailures, recoverySuccesses := b.recoverySuccesses, outcomes := clear f.outcomes,
    halfOpenProbeInFlight := false, state := .opened,
    openedAt := some (now.monotonic - (age b saved + downtime saved now)) } : CircuitBreaker) = c
  obtain ⟨hthresholds, hfailures, hrecoveries, hopened, houtcomes⟩ := refreshState_counts c now.monotonic
  have hrestored := @refreshState_opened c _ (by rw [← hc]) (by rw [← hc]) now.monotonic
  rw [sub_sub_cancel, ← hc] at hrestored
  refine ⟨by rw [hthresholds, ← hc], by rw [hfailures, ← hc], by rw [hrecoveries, ← hc], by rw [hopened, ← hc], ?_,
    by rw [houtcomes, ← hc]; rfl, ?_⟩
  · rw [← hc, hrestored]
  · intro hsame hbopen ⟨openedAt, hle, hbopened⟩
    have hage : age b saved = saved.monotonic - openedAt := by simp [age, hbopened, hle]
    rw [← hc, hrestored, refreshState_opened hbopen hbopened, hsame, hage, add_sub_right_comm]

/-- What a restart makes of each breaker of the new process. -/
def RestartsWell (saved now : Instant) (breakers : Dict Text CircuitBreaker) (file : Option Document) (forgotten : List Text)
    (fresh : Dict Text CircuitBreaker) : Prop :=
  ∀ name, ∀ f ∈ fresh.get name, ∃ r ∈ (restarted saved now breakers file forgotten fresh).get name,
    (∃ b ∈ breakers.get name, Lasts saved now forgotten name b ∧ Resumes saved now b f r) ∨
      (r = f ∧ ∀ b ∈ breakers.get name, ¬ Lasts saved now forgotten name b)

theorem restart_resumes (saved now : Instant) (breakers : Dict Text CircuitBreaker) (file : Option Document)
    (forgotten : List Text) (fresh : Dict Text CircuitBreaker) : RestartsWell saved now breakers file forgotten fresh := by
  intro name f hf
  have hget := @get_load_forgotten now forgotten name (save saved breakers file)
  rw [get_load_save] at hget
  refine ⟨_, by rw [restarted, restore, Dict.get_mapEntries, Option.mem_def.mp hf]; rfl, ?_⟩
  rw [hget]
  by_cases hlasts : ∃ b ∈ breakers.get name, Lasts saved now forgotten name b
  · obtain ⟨b, hb, hlast⟩ := hlasts
    have hstate : durableState saved.monotonic b = some _ := if_neg hlast.notClosed
    refine .inl ⟨b, hb, hlast, ?_⟩
    rw [if_neg hlast.kept, if_pos hlast.recent, Option.mem_def.mp hb, Option.bind_some, hstate, elapsed_forgotten]
    have hsaved : save saved breakers file = some ⟨saved.wall, snapshots saved.monotonic breakers⟩ := by
      refine if_neg (fun hnil => ?_)
      have hget := get_snapshots saved.monotonic breakers name
      rw [Option.mem_def.mp hb, Option.bind_some, hstate, Dict.get, hnil.1] at hget
      cases hget
    rw [hsaved]
    exact resumes_restored hstate
  · refine .inr ⟨?_, fun b hb hlast => hlasts ⟨b, hb, hlast⟩⟩
    have hnone : (if name ∈ forgotten then none else if now.wall - saved.wall ≤ maxAgeSeconds then
        (breakers.get name).bind (durableState saved.monotonic) else none) = none := by
      split
      · rfl
      · next hkept =>
        split
        · next hrecent =>
          rw [Option.bind_eq_none_iff]
          intro b hb
          apply if_pos
          by_contra hopen
          exact hlasts ⟨b, hb, hopen, hkept, hrecent⟩
        · rfl
    rw [hnone]

def failedOnce : CircuitBreaker :=
  { CircuitBreaker.init (.clamp 3 (1 / 2) 5 60 2) 64 with consecutiveFailures := 1 }

/-- Its failure is not saved. -/
theorem closed_failure_lost : ∃ r ∈ (restarted ⟨0, 0⟩ ⟨1, 0⟩ (Dict.empty.set ['p'] failedOnce) none []
      (Dict.empty.set ['p'] (.init failedOnce.thresholds 64))).get ['p'],
      r.consecutiveFailures ≠ failedOnce.consecutiveFailures :=
  ⟨.init failedOnce.thresholds 64, rfl, by decide⟩

end Kirara.CircuitStores
