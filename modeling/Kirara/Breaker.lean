import Kirara.BoundedQueue
import Mathlib.Data.Rat.Cast.Order

namespace Kirara.Breaker

open Kirara.BoundedQueue

inductive CircuitState where
  | closed
  | opened
  | halfOpen
  deriving DecidableEq, Repr

inductive TransitionReason where
  | recoveryTimeout
  | recoverySuccess
  | halfOpenProbeFailed
  | failureThreshold
  | errorRate
  deriving DecidableEq, Repr

structure Transition where
  fromState : CircuitState
  toState : CircuitState
  reason : TransitionReason
  timestamp : ℚ
  failureCount : Nat
  errorRate : ℚ

def circuitTransitionHistory : Nat := 64

/-- The five thresholds, within the bounds to which constructor and `reconfigure` clamp them. -/
structure Thresholds where
  failureThreshold : Nat
  errorRateThreshold : ℚ
  minRequests : Nat
  recoveryTimeoutSeconds : ℚ
  recoverySuccessThreshold : Nat
  failureThreshold_pos : 1 ≤ failureThreshold
  errorRateThreshold_nonneg : 0 ≤ errorRateThreshold
  errorRateThreshold_le_one : errorRateThreshold ≤ 1
  minRequests_pos : 1 ≤ minRequests
  recoveryTimeoutSeconds_nonneg : 0 ≤ recoveryTimeoutSeconds
  recoverySuccessThreshold_pos : 1 ≤ recoverySuccessThreshold

def Thresholds.clamp (failureThreshold : Int) (errorRateThreshold : ℚ) (minRequests : Int)
    (recoveryTimeoutSeconds : ℚ) (recoverySuccessThreshold : Int) : Thresholds where
  failureThreshold := (max 1 failureThreshold).toNat
  errorRateThreshold := min 1 (max 0 errorRateThreshold)
  minRequests := (max 1 minRequests).toNat
  recoveryTimeoutSeconds := max 0 recoveryTimeoutSeconds
  recoverySuccessThreshold := (max 1 recoverySuccessThreshold).toNat
  failureThreshold_pos := by omega
  errorRateThreshold_nonneg := le_min zero_le_one (le_max_left _ _)
  errorRateThreshold_le_one := min_le_left _ _
  minRequests_pos := by omega
  recoveryTimeoutSeconds_nonneg := le_max_left _ _
  recoverySuccessThreshold_pos := by omega

structure CircuitBreaker where
  thresholds : Thresholds
  historySize : Nat
  outcomes : Window Bool
  consecutiveFailures : Nat
  state : CircuitState
  openedAt : Option ℚ
  halfOpenProbeInFlight : Bool
  recoverySuccesses : Nat
  inFlight : Nat
  transitions : Window Transition

def CircuitBreaker.init (thresholds : Thresholds) (historySize : Int) : CircuitBreaker where
  thresholds := thresholds
  historySize := (max 1 historySize).toNat
  outcomes := empty (max (max 1 historySize).toNat thresholds.minRequests)
  consecutiveFailures := 0
  state := .closed
  openedAt := none
  halfOpenProbeInFlight := false
  recoverySuccesses := 0
  inFlight := 0
  transitions := empty circuitTransitionHistory

/-- An omitted argument keeps its value; so do the state, the counters and the outcomes. -/
def reconfigure (b : CircuitBreaker) (failureThreshold : Option Int)
    (errorRateThreshold : Option ℚ) (minRequests : Option Int)
    (recoveryTimeoutSeconds : Option ℚ) (recoverySuccessThreshold : Option Int)
    (historySize : Option Int) : CircuitBreaker :=
  let thresholds := Thresholds.clamp
    (failureThreshold.getD b.thresholds.failureThreshold)
    (errorRateThreshold.getD b.thresholds.errorRateThreshold)
    (minRequests.getD b.thresholds.minRequests)
    (recoveryTimeoutSeconds.getD b.thresholds.recoveryTimeoutSeconds)
    (recoverySuccessThreshold.getD b.thresholds.recoverySuccessThreshold)
  let historySize := (historySize.map fun n => (max 1 n).toNat).getD b.historySize
  let desired := max 1 (max historySize thresholds.minRequests)
  { b with
    thresholds := thresholds
    historySize := historySize
    outcomes := if desired = b.outcomes.maxlen then b.outcomes else resize b.outcomes desired }

def currentErrorRate (b : CircuitBreaker) : ℚ :=
  if b.outcomes.items.length = 0 then 0
  else 1 - (b.outcomes.items.count true : ℚ) / b.outcomes.items.length

def recordTransition (b : CircuitBreaker) (previous current : CircuitState)
    (reason : TransitionReason) (now : ℚ) : CircuitBreaker :=
  if previous = current then b
  else { b with
    transitions := append b.transitions
      ⟨previous, current, reason, now, b.consecutiveFailures, currentErrorRate b⟩ }

/-- OPEN turns into HALF_OPEN by the passing of time alone. -/
def refreshState (b : CircuitBreaker) (now : ℚ) : CircuitBreaker :=
  match b.state, b.openedAt with
  | .opened, some openedAt =>
    if b.thresholds.recoveryTimeoutSeconds ≤ now - openedAt then
      { recordTransition b .opened .halfOpen .recoveryTimeout now with
        state := .halfOpen
        halfOpenProbeInFlight := false }
    else b
  | _, _ => b

def acquire (b : CircuitBreaker) (now : ℚ) : Bool × CircuitBreaker :=
  let b := refreshState b now
  match b.state with
  | .opened => (false, b)
  | .halfOpen =>
    if b.halfOpenProbeInFlight then (false, b)
    else (true, { b with halfOpenProbeInFlight := true, inFlight := b.inFlight + 1 })
  | .closed => (true, { b with inFlight := b.inFlight + 1 })

def shouldOpen (b : CircuitBreaker) : Bool :=
  b.thresholds.failureThreshold ≤ b.consecutiveFailures ||
    (b.thresholds.minRequests ≤ b.outcomes.items.length && b.thresholds.errorRateThreshold ≤
        1 - (b.outcomes.items.count true : ℚ) / b.outcomes.items.length)

/-- The counter is clamped at zero, which hides a record without a matching acquire. -/
def releaseInFlight (b : CircuitBreaker) : CircuitBreaker :=
  { b with inFlight := b.inFlight - 1 }

/-- The common tail of `recordSuccess`, from the state the breaker is leaving. -/
def closeAfterSuccess (b : CircuitBreaker) (current : CircuitState) (timestamp : ℚ) :
    CircuitBreaker :=
  let b := { b with
    outcomes := append b.outcomes true
    consecutiveFailures := 0
    openedAt := none
    halfOpenProbeInFlight := false }
  let b := if current = .closed then b
    else recordTransition b current .closed .recoverySuccess timestamp
  refreshState { b with state := .closed } timestamp

def recordSuccess (b : CircuitBreaker) (timestamp : ℚ) : CircuitBreaker :=
  let b := refreshState (releaseInFlight b) timestamp
  match b.state with
  | .opened => b
  | .halfOpen =>
    let b := { b with
      recoverySuccesses := b.recoverySuccesses + 1
      halfOpenProbeInFlight := false }
    if b.recoverySuccesses < b.thresholds.recoverySuccessThreshold then b
    else closeAfterSuccess { b with outcomes := clear b.outcomes, recoverySuccesses := 0 }
      .halfOpen timestamp
  | .closed => closeAfterSuccess b .closed timestamp

def recordFailure (b : CircuitBreaker) (timestamp : ℚ) : CircuitBreaker :=
  let b := releaseInFlight b
  let previous := b.state
  let b := { b with
    outcomes := append b.outcomes false
    consecutiveFailures := b.consecutiveFailures + 1
    halfOpenProbeInFlight := false
    recoverySuccesses := 0 }
  if previous = .halfOpen ∨ shouldOpen b then
    let reason :=
      if previous = .halfOpen then .halfOpenProbeFailed
      else if b.thresholds.failureThreshold ≤ b.consecutiveFailures then .failureThreshold
      else .errorRate
    { recordTransition b previous .opened reason timestamp with
      state := .opened
      openedAt := some timestamp }
  else b

def recordCancelled (b : CircuitBreaker) : CircuitBreaker :=
  { releaseInFlight b with halfOpenProbeInFlight := false }

/-- What a caller reports back for a request it was admitted for. -/
inductive Outcome where
  | success
  | failure
  | cancelled
  deriving DecidableEq, Repr

def record (b : CircuitBreaker) (timestamp : ℚ) : Outcome → CircuitBreaker
  | .success => recordSuccess b timestamp
  | .failure => recordFailure b timestamp
  | .cancelled => recordCancelled b

variable (b : CircuitBreaker) (now timestamp : ℚ)

theorem refreshState_of_ne_opened {b : CircuitBreaker} (h : b.state ≠ .opened) : refreshState b now = b := by
  unfold refreshState
  split
  · next hs _ => exact absurd hs h
  · rfl

variable (p c : CircuitState) (r : TransitionReason)

@[simp] theorem recordTransition_inFlight : (recordTransition b p c r now).inFlight = b.inFlight := by
  unfold recordTransition
  split <;> rfl

@[simp] theorem recordTransition_thresholds : (recordTransition b p c r now).thresholds = b.thresholds := by
  unfold recordTransition
  split <;> rfl

@[simp] theorem recordTransition_halfOpenProbeInFlight :
    (recordTransition b p c r now).halfOpenProbeInFlight = b.halfOpenProbeInFlight := by
  unfold recordTransition
  split <;> rfl

@[simp] theorem refreshState_inFlight : (refreshState b now).inFlight = b.inFlight := by
  unfold refreshState
  split
  · split <;> simp
  · rfl

@[simp] theorem releaseInFlight_inFlight : (releaseInFlight b).inFlight = b.inFlight - 1 := rfl

@[simp] theorem closeAfterSuccess_inFlight (c : CircuitState) :
    (closeAfterSuccess b c timestamp).inFlight = b.inFlight := by
  unfold closeAfterSuccess
  by_cases h : c = .closed <;> simp [h]

theorem acquire_cases : ((acquire b now).1 = false ∧ (acquire b now).2 = refreshState b now) ∨
    ((refreshState b now).state = .halfOpen ∧ (refreshState b now).halfOpenProbeInFlight = false ∧
      acquire b now = (true, { refreshState b now with
        halfOpenProbeInFlight := true, inFlight := b.inFlight + 1 })) ∨
    ((refreshState b now).state = .closed ∧
      acquire b now = (true, { refreshState b now with inFlight := b.inFlight + 1 })) := by
  cases hs : (refreshState b now).state with
  | opened => exact Or.inl (by simp [acquire, hs])
  | closed => exact Or.inr (Or.inr ⟨rfl, by simp [acquire, hs]⟩)
  | halfOpen =>
    cases hp : (refreshState b now).halfOpenProbeInFlight with
    | true => exact Or.inl (by simp [acquire, hs, hp])
    | false => exact Or.inr (Or.inl ⟨rfl, rfl, by simp [acquire, hs, hp]⟩)

theorem acquire_inFlight : (acquire b now).2.inFlight = b.inFlight + (acquire b now).1.toNat := by
  obtain ⟨hf, h⟩ | ⟨-, -, h⟩ | ⟨-, h⟩ := acquire_cases b now
  · rw [h, hf]
    simp
  · rw [h]
    rfl
  · rw [h]
    rfl

@[simp] theorem recordSuccess_inFlight : (recordSuccess b timestamp).inFlight = b.inFlight - 1 := by
  cases hs : (refreshState (releaseInFlight b) timestamp).state with
  | opened => simp [recordSuccess, hs]
  | closed => simp [recordSuccess, hs]
  | halfOpen =>
    simp only [recordSuccess, hs]
    split <;> simp

@[simp] theorem recordFailure_inFlight : (recordFailure b timestamp).inFlight = b.inFlight - 1 := by
  unfold recordFailure
  dsimp only
  split <;> simp

theorem record_inFlight (o : Outcome) : (record b timestamp o).inFlight = b.inFlight - 1 := by
  cases o <;> simp [record, recordCancelled]

end Kirara.Breaker
