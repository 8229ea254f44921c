import Kirara.Breaker
import Kirara.PermitLedger

namespace Kirara.Failover

open Kirara.BoundedQueue Kirara.Breaker

variable {ρ ς χ : Type} [DecidableEq ρ]

inductive ErrorCategory where
  | network
  | timeout
  | rateLimit
  | upstream
  | authentication
  | invalidRequest
  | policyRejection
  | cancelled
  | unknown
  deriving DecidableEq, Repr

def ErrorCategory.retryable : ErrorCategory → Bool
  | .network | .timeout | .rateLimit | .upstream => true
  | _ => false

inductive AttemptError where
  | circuitOpen
  | category (c : ErrorCategory)
  deriving DecidableEq, Repr

structure ProviderAttempt (ρ : Type) where
  provider : ρ
  attempt : Nat
  retryIndex : Nat
  success : Bool
  errorCategory : Option AttemptError
  startedAt : ℚ
  firstByteAt : Option ℚ
  completedAt : ℚ
  partialOutput : Bool

/-- Reading an absent provider gives what `setdefault` would insert for it. -/
structure Manager (ρ : Type) where
  resilienceBreakers : ρ → CircuitBreaker
  resilienceAttempts : ρ → Window (ProviderAttempt ρ)

/-- A call one request made on a breaker and that went through. -/
inductive BreakerCall (ρ : Type) where
  | acquired (provider : ρ) (state : CircuitState)
  | recorded (provider : ρ) (outcome : Outcome)

def BreakerCall.entry : BreakerCall ρ → PermitLedger.Entry ρ
  | .acquired p _ => .taken p
  | .recorded p _ => .given p

/-- The manager in the middle of one request, with what that request has done. -/
structure World (ρ χ : Type) where
  manager : Manager ρ
  attempts : List (ProviderAttempt ρ)
  calls : List (BreakerCall ρ)
  delivered : List χ

/-- What one pass through the retry loop tells the breaker. -/
structure Report where
  outcome : Outcome
  timestamp : ℚ
  errorCategory : Option AttemptError
  firstByteAt : Option ℚ
  listed : Bool

/-- How a request ends: with a response, with a stream, or by an exception. -/
inductive Exit (χ : Type) where
  | response (r : χ)
  | streamed
  | requestCancelled
  | streamInterrupted
  | failoverExecution
  | baseException
  | generatorExit
  | requestPreparation
  deriving DecidableEq, Repr

/-- The end of a pass: it leaves the request, or a failure and the retry decision follow. -/
inductive PassEnd (χ : Type) where
  | leaves (e : Exit χ)
  | failed (c : ErrorCategory)

structure Pass (χ : Type) where
  reports : List Report
  delivered : List χ
  ending : PassEnd χ

/-- A turn of the retry loop, with the clock and the cancellation flag of the backoff. -/
structure Turn (ς : Type) where
  startedAt : ℚ
  body : ς
  backoffAt : ℚ
  backoffCancelled : Bool

/-- One provider of the queue with everything that happens while it is tried. -/
structure Candidate (ρ ς : Type) where
  provider : ρ
  cancelledAtEntry : Bool
  acquireAt : ℚ
  skippedAt : ℚ × ℚ
  maxRetries : Int
  preparesRequest : Bool
  turns : Nat → Turn ς

def Candidate.providerRetries (c : Candidate ρ ς) : Nat := (max 0 c.maxRetries).toNat

def updateBreaker (m : Manager ρ) (p : ρ) (b : CircuitBreaker) : Manager ρ :=
  { m with resilienceBreakers := Function.update m.resilienceBreakers p b }

def recordAttempt (m : Manager ρ) (a : ProviderAttempt ρ) : Manager ρ :=
  { m with
    resilienceAttempts := Function.update m.resilienceAttempts a.provider
      (append (m.resilienceAttempts a.provider) a) }

def listAttempt (w : World ρ χ) (a : ProviderAttempt ρ) : World ρ χ :=
  { w with manager := recordAttempt w.manager a, attempts := w.attempts ++ [a] }

def skipOpenCircuit (c : Candidate ρ ς) (b : CircuitBreaker) (w : World ρ χ) : World ρ χ :=
  listAttempt { w with manager := updateBreaker w.manager c.provider b }
    ⟨c.provider, w.attempts.length + 1, 0, false, some .circuitOpen, c.skippedAt.1, none,
      c.skippedAt.2, false⟩

def enter (c : Candidate ρ ς) (b : CircuitBreaker) (w : World ρ χ) : World ρ χ :=
  { w with
    manager := updateBreaker w.manager c.provider b
    calls := w.calls ++ [.acquired c.provider b.state] }

def applyReport (p : ρ) (retryIndex : Nat) (startedAt : ℚ) (w : World ρ χ) (r : Report) :
    World ρ χ :=
  let w := { w with
    manager := updateBreaker w.manager p
      (record (w.manager.resilienceBreakers p) r.timestamp r.outcome)
    calls := w.calls ++ [.recorded p r.outcome] }
  if r.listed then
    listAttempt w ⟨p, w.attempts.length + 1, retryIndex, r.outcome == .success, r.errorCategory,
      startedAt, r.firstByteAt, r.timestamp, r.outcome != .success && r.firstByteAt.isSome⟩
  else w

inductive LoopEnd (χ : Type) where
  | leaves (e : Exit χ)
  | exhausted (stopFailover : Bool)

/-- Take what one attempt delivered and apply its reports in order. -/
def runTurn (pass : ς → Pass χ) (c : Candidate ρ ς) (index : Nat) (w : World ρ χ) : World ρ χ :=
  let t := c.turns index
  (pass t.body).reports.foldl (applyReport c.provider index t.startedAt)
    { w with delivered := w.delivered ++ (pass t.body).delivered }

inductive Decision where
  | stop (stopFailover : Bool)
  | requestCancelled
  | again
  deriving DecidableEq, Repr

def retryDecision (deadline : ℚ) (c : Candidate ρ ς) (index : Nat) (category : ErrorCategory) :
    Decision :=
  let t := c.turns index
  if !category.retryable then .stop true
  else if c.providerRetries ≤ index then .stop false
  else if deadline - t.backoffAt ≤ 0 then .stop true
  else if t.backoffCancelled then .requestCancelled
  else .again

/-- The loop over one provider, with `remaining` turns to go. -/
def attemptLoop (pass : ς → Pass χ) (deadline : ℚ) (c : Candidate ρ ς) :
    Nat → Nat → World ρ χ → LoopEnd χ × World ρ χ
  | 0, _, w => (.exhausted false, w)
  | remaining + 1, index, w =>
    if deadline ≤ (c.turns index).startedAt then (.exhausted true, w)
    else
      match (pass (c.turns index).body).ending with
      | .leaves e => (.leaves e, runTurn pass c index w)
      | .failed category =>
        match retryDecision deadline c index category with
        | .stop stopFailover => (.exhausted stopFailover, runTurn pass c index w)
        | .requestCancelled => (.leaves .requestCancelled, runTurn pass c index w)
        | .again => attemptLoop pass deadline c remaining (index + 1) (runTurn pass c index w)

def providerQueue (pass : ς → Pass χ) (deadline : ℚ) :
    List (Candidate ρ ς) → World ρ χ → Exit χ × World ρ χ
  | [], w => (.failoverExecution, w)
  | c :: cs, w =>
    if c.cancelledAtEntry then (.requestCancelled, w)
    else
      match acquire (w.manager.resilienceBreakers c.provider) c.acquireAt with
      | (false, b) => providerQueue pass deadline cs (skipOpenCircuit c b w)
      | (true, b) =>
        let w := enter c b w
        if !c.preparesRequest then (.requestPreparation, w)
        else
          match attemptLoop pass deadline c (c.providerRetries + 1) 0 w with
          | (.leaves e, w) => (e, w)
          | (.exhausted true, w) => (.failoverExecution, w)
          | (.exhausted false, w) => providerQueue pass deadline cs w

inductive ChatOutcome (χ : Type) where
  | response (r : χ)
  | requestCancelled
  | error (c : ErrorCategory)
  | baseException

/-- One attempt; `failedAt` is the clock read again when an exception is handled. -/
structure ChatTurn (χ : Type) where
  cancelled : Bool
  outcome : ChatOutcome χ
  completedAt : ℚ
  policy : χ → Except ErrorCategory χ
  failedAt : ℚ

def failureReport (c : ErrorCategory) (firstByteAt : Option ℚ) (failedAt : ℚ) : Report :=
  ⟨.failure, failedAt, some (.category c), firstByteAt, true⟩

def cancelledReport (firstByteAt : Option ℚ) (failedAt : ℚ) : Report :=
  ⟨.cancelled, failedAt, some (.category .cancelled), firstByteAt, true⟩

def chatPass (deadline : ℚ) (t : ChatTurn χ) : Pass χ :=
  if t.cancelled then
    ⟨[⟨.cancelled, t.failedAt, none, none, false⟩], [], .leaves .requestCancelled⟩
  else
    match t.outcome with
    | .response r =>
      if deadline < t.completedAt then
        ⟨[failureReport .timeout none t.failedAt], [], .failed .timeout⟩
      else
        -- the policy runs inside the same `try`, after the success was recorded
        match t.policy r with
        | .ok r => ⟨[⟨.success, t.completedAt, none, none, true⟩], [], .leaves (.response r)⟩
        | .error c =>
          ⟨[⟨.success, t.completedAt, none, none, true⟩, failureReport c none t.failedAt], [], .failed c⟩
    | .requestCancelled => ⟨[cancelledReport none t.failedAt], [], .leaves .requestCancelled⟩
    | .error c => ⟨[failureReport c none t.failedAt], [], .failed c⟩
    -- neither handler catches a BaseException that is no Exception
    | .baseException => ⟨[], [], .leaves .baseException⟩

inductive StreamEnding where
  | exhausted
  | requestCancelled
  | error (c : ErrorCategory)
  | baseException
  deriving DecidableEq, Repr

/-- One attempt: the chunks, with the time of each, and how the bridge ends. -/
structure StreamTurn (χ : Type) where
  chunks : List (χ × ℚ)
  ending : StreamEnding
  completedAt : ℚ

def StreamTurn.firstByteAt (t : StreamTurn χ) : Option ℚ := t.chunks.head?.map Prod.snd

/-- The consumer closes the generator while it is suspended at a `yield`. -/
def StreamTurn.closedEarly (closesAfter : Option Nat) (t : StreamTurn χ) : Bool :=
  closesAfter.any (fun k => k ≤ t.chunks.length)

def streamPass (closesAfter : Option Nat) (t : StreamTurn χ) : Pass χ :=
  let chunks := t.chunks.map Prod.fst
  if t.closedEarly closesAfter then
    ⟨[], chunks.take (closesAfter.getD 0), .leaves .generatorExit⟩
  else
    match t.ending with
    | .exhausted => ⟨[⟨.success, t.completedAt, none, t.firstByteAt, true⟩], chunks, .leaves .streamed⟩
    | .requestCancelled =>
      ⟨[cancelledReport t.firstByteAt t.completedAt], chunks, .leaves .requestCancelled⟩
    | .error c =>
      ⟨[failureReport c t.firstByteAt t.completedAt], chunks,
        if t.firstByteAt.isSome then .leaves .streamInterrupted else .failed c⟩
    | .baseException => ⟨[], chunks, .leaves .baseException⟩

def World.start (m : Manager ρ) : World ρ χ := ⟨m, [], [], []⟩

omit [DecidableEq ρ] in
@[simp] theorem World.start_manager (m : Manager ρ) : (World.start m : World ρ χ).manager = m := rfl

def requestDeadline (started configuredDeadline : ℚ) : ℚ := started + max 0 configuredDeadline

def executeChat (cancelled : Bool) (started configuredDeadline : ℚ)
    (candidates : List (Candidate ρ (ChatTurn χ))) (m : Manager ρ) : Exit χ × World ρ χ :=
  if cancelled then (.requestCancelled, .start m)
  else
    let deadline := requestDeadline started configuredDeadline
    providerQueue (chatPass deadline) deadline candidates (.start m)

def executeStream (cancelled : Bool) (started configuredDeadline : ℚ) (closesAfter : Option Nat)
    (candidates : List (Candidate ρ (StreamTurn χ))) (m : Manager ρ) : Exit χ × World ρ χ :=
  if cancelled then (.requestCancelled, .start m)
  else if candidates.isEmpty then (.failoverExecution, .start m)
  else if closesAfter = some 0 then (.generatorExit, .start m)
  else providerQueue (streamPass closesAfter) (requestDeadline started configuredDeadline)
    candidates (.start m)

end Kirara.Failover
