import Kirara.Rosters
import Mathlib.Data.List.MinMax
import Mathlib.Data.List.Sort

namespace Kirara.Outboxes

open Kirara.Rosters

variable {ι δ ρ S : Type} [DecidableEq ι] [DecidableEq δ] [LinearOrder ρ] [DecidableEq S]

inductive Status where
  | queued
  | retryWait
  | sending
  | accepted
  | ambiguous
  | deadLetter
  deriving DecidableEq, Repr

def terminalStatuses : List Status := [.accepted, .ambiguous, .deadLetter]

def pendingStatuses : List Status := [.queued, .retryWait]

/-- A row of the outbox table. The adapter instance is for OneBot's statements only. -/
structure Delivery (δ ρ S : Type) where
  deliveryId : δ
  adapterInstance : S
  recipientKey : ρ
  recipientSequence : ℕ
  status : Status
  attemptCount : ℕ

inductive Reply where
  | response
  | nothing
  | cancelled
  | timeout
  | connectionError
  | osError
  | networkError
  | apiNotAvailable
  | actionFailed (retcode : Option ℤ)
  | retryableError
  | otherError
  deriving DecidableEq

inductive Verdict where
  | accepted
  | ambiguous
  | cancelled
  | retryable
  | deadLetter
  deriving DecidableEq

/-- What the platforms do differently. What may have arrived is never attempted again. -/
structure Platform where
  ownRowsOnly : Bool
  looksTwice : Bool
  verdict : Reply → Verdict
  mayHaveArrived : Reply → Bool
  safe : ∀ o, mayHaveArrived o = true → verdict o ≠ .retryable

/-- `_deliver_one` of the Telegram outbox. -/
def telegramVerdict : Reply → Verdict
  | .response => .accepted
  | .cancelled => .cancelled
  | .nothing | .timeout | .connectionError | .osError | .networkError => .ambiguous
  | .retryableError => .retryable
  | .apiNotAvailable | .actionFailed _ | .otherError => .deadLetter

def retryableActionRetcodes : List ℤ := [429, 503]

def ambiguousActionRetcodes : List ℤ := [1200]

/-- `_deliver_one` of the OneBot outbox. -/
def oneBotVerdict : Reply → Verdict
  | .response | .nothing => .accepted
  | .cancelled => .cancelled
  | .timeout | .networkError | .connectionError | .osError => .ambiguous
  | .retryableError | .apiNotAvailable => .retryable
  | .actionFailed retcode =>
    if retcode.any (fun c => c ∈ retryableActionRetcodes) then .retryable
    else if retcode.any (fun c => c ∈ ambiguousActionRetcodes) then .ambiguous
    else .deadLetter
  | .otherError => .deadLetter

def successOrUnknown : List Reply :=
  [.response, .nothing, .cancelled, .timeout, .connectionError, .osError, .networkError]

def telegram : Platform where
  ownRowsOnly := true
  looksTwice := false
  verdict := telegramVerdict
  mayHaveArrived o := o ∈ successOrUnknown
  safe o ho := by
    cases o with
    | retryableError => simp [successOrUnknown] at ho
    | _ => simp [telegramVerdict]

/-- The action of a failure with return code 1200 had begun. -/
def oneBot : Platform where
  ownRowsOnly := false
  looksTwice := true
  verdict := oneBotVerdict
  mayHaveArrived o := o ∈ successOrUnknown ∨ o = .actionFailed (some 1200)
  safe o ho := by
    cases o with
    | retryableError | apiNotAvailable => simp [successOrUnknown] at ho
    | actionFailed retcode =>
      have hr : retcode = some 1200 := by simpa [successOrUnknown] using ho
      simp [hr, oneBotVerdict, retryableActionRetcodes, ambiguousActionRetcodes]
    | _ => simp [oneBotVerdict]

/-- `max_attempts` of each service. -/
structure Limits (S : Type) where
  maxAttempts : S → ℕ
  positive : ∀ s, 1 ≤ maxAttempts s

def get (rows : List (Delivery δ ρ S)) (d : δ) : Option (Delivery δ ρ S) :=
  rows.find? (fun r => r.deliveryId = d)

def update (d : δ) (f : Delivery δ ρ S → Delivery δ ρ S) (rows : List (Delivery δ ρ S)) :
    List (Delivery δ ρ S) :=
  rows.map (fun r => if r.deliveryId = d then f r else r)

def setStatus (status : Status) (r : Delivery δ ρ S) : Delivery δ ρ S := { r with status := status }

def startSending (r : Delivery δ ρ S) : Delivery δ ρ S :=
  { r with status := .sending, attemptCount := r.attemptCount + 1 }

def nextSequence (rows : List (Delivery δ ρ S)) (key : ρ) : ℕ :=
  ((rows.filter (fun r => r.recipientKey = key)).map Delivery.recipientSequence).foldr max 0 + 1

def enqueue (rows : List (Delivery δ ρ S)) (s : S) (d : δ) (key : ρ) : List (Delivery δ ρ S) :=
  match get rows d with
  | some _ => rows
  | none => rows ++ [⟨d, s, key, nextSequence rows key, .queued, 0⟩]

def earliest (rows : List (Delivery δ ρ S)) : Option (Delivery δ ρ S) :=
  rows.argmin Delivery.recipientSequence

def blocker (rows : List (Delivery δ ρ S)) (key : ρ) (sequence : ℕ) : Option (Delivery δ ρ S) :=
  earliest (rows.filter (fun r => r.recipientKey = key ∧ r.recipientSequence < sequence ∧
    r.status ≠ .accepted))

def nextDelivery (rows : List (Delivery δ ρ S)) (key : ρ) (sequence : ℕ) :
    Option (Delivery δ ρ S) :=
  earliest (rows.filter (fun r => r.recipientKey = key ∧ r.recipientSequence ≤ sequence ∧
    r.status ∈ pendingStatuses))

/-- The row to deliver next on the way to the target, if there is one. -/
def selected (rows : List (Delivery δ ρ S)) (target : δ) (key : ρ) : Option (Delivery δ ρ S) :=
  match get rows target with
  | none => none
  | some current =>
    if current.status ∈ terminalStatuses then none
    else if (blocker rows key current.recipientSequence).any (fun b => b.status ∈ terminalStatuses)
    then none
    else nextDelivery rows key current.recipientSequence

def selects (p : Platform) (s : S) (r : Delivery δ ρ S) : Bool :=
  !p.ownRowsOnly || decide (r.adapterInstance = s)

def recoverOnStartup (p : Platform) (s : S) (rows : List (Delivery δ ρ S)) :
    List (Delivery δ ρ S) :=
  rows.map (fun r =>
    if selects p s r ∧ r.status = .sending then setStatus .ambiguous r else r)

def pendingDeliveryIds (p : Platform) (s : S) (rows : List (Delivery δ ρ S)) : List δ :=
  ((rows.filter (fun r => selects p s r ∧ r.status ∈ pendingStatuses)).insertionSort
    (fun a b => a.recipientKey < b.recipientKey ∨
      a.recipientKey = b.recipientKey ∧ a.recipientSequence ≤ b.recipientSequence)).map
    Delivery.deliveryId

/-- Where a call of `deliver` is. From `looking` on it holds the recipient's lock. -/
inductive Phase (δ : Type) where
  | waiting
  | looking
  | checking (d : δ)
  | sleeping (d : δ)
  | claiming (d : δ)
  | claimed (d : δ) (attempt : ℕ)
  | inFlight (d : δ) (attempt : ℕ)
  | marking (d : δ) (attempt : ℕ) (verdict : Verdict)
  deriving DecidableEq

def Phase.holding : Phase δ → Bool
  | .waiting => false
  | _ => true

def Phase.row : Phase δ → Option δ
  | .waiting | .looking => none
  | .checking d | .sleeping d | .claiming d | .claimed d _ | .inFlight d _ | .marking d _ _ =>
    some d

def Phase.attempt : Phase δ → Option ℕ
  | .claimed _ n | .inFlight _ n | .marking _ n _ => some n
  | _ => none

structure Task (δ ρ S : Type) where
  service : S
  target : δ
  recipientKey : ρ
  lock : ℕ
  phase : Phase δ

/-- What a call does up to its next suspension. -/
inductive Act where
  | look
  | check (delayed : Bool)
  | wake
  | claim
  | invoke
  | reply (o : Reply)
  | mark (delayed : Bool)
  | writeFails
  | cancel
  deriving DecidableEq

/-- The table afterwards, and the row that has been passed to the sender. -/
structure Effect (δ ρ S : Type) where
  rows : List (Delivery δ ρ S)
  phase : Option (Phase δ)
  invokes : Option δ
  settles : Option δ

variable (p : Platform) (limits : Limits S)

def atFirst (d : δ) : Phase δ := if p.looksTwice then .checking d else .claiming d

def afterRefusal (delayed : Bool) (d : δ) : Phase δ :=
  if p.looksTwice then .checking d else if delayed then .sleeping d else .claiming d

/-- After `_deliver_one` the loop goes on where the row is accepted. -/
def afterResult (status : Status) : Option (Phase δ) :=
  if status = .accepted then some .looking else none

/-- `_mark_accepted`, `_mark_ambiguous`, `_mark_dead_letter`, `_mark_retry_wait`. -/
def marked (maxAttempts attempt : ℕ) : Verdict → Status
  | .accepted => .accepted
  | .ambiguous | .cancelled => .ambiguous
  | .deadLetter => .deadLetter
  | .retryable => if maxAttempts ≤ attempt then .deadLetter else .retryWait

def act (rows : List (Delivery δ ρ S)) (x : Task δ ρ S) : Phase δ → Act → Option (Effect δ ρ S)
  | .looking, .look => some
    ⟨rows, (selected rows x.target x.recipientKey).map (fun r => atFirst p r.deliveryId), none, none⟩
  | .checking d, .check delayed =>
    match get rows d with
    | none => some ⟨rows, none, none, none⟩
    | some r =>
      if r.status ∈ terminalStatuses then some ⟨rows, afterResult r.status, none, none⟩
      else if delayed ∧ r.status = .retryWait then some ⟨rows, some (.sleeping d), none, none⟩
      else some ⟨rows, some (.claiming d), none, none⟩
  | .sleeping d, .wake => some ⟨rows, some (.claiming d), none, none⟩
  | .sleeping _, .cancel => some ⟨rows, none, none, none⟩
  | .claiming d, .claim =>
    match get rows d with
    | none => some ⟨rows, none, none, none⟩
    | some r =>
      if r.status ∈ terminalStatuses then some ⟨rows, afterResult r.status, none, none⟩
      else some ⟨update d startSending rows, some (.claimed d (r.attemptCount + 1)), none, none⟩
  | .claiming _, .writeFails => some ⟨rows, none, none, none⟩
  | .claimed d n, .invoke => some ⟨rows, some (.inFlight d n), some d, none⟩
  | .inFlight d n, .reply o => some ⟨rows, some (.marking d n (p.verdict o)), none,
      if p.mayHaveArrived o then some d else none⟩
  | .marking d n v, .mark delayed =>
    let status := marked (limits.maxAttempts x.service) n v
    some ⟨update d (setStatus status) rows,
      if status = .retryWait then some (afterRefusal p delayed d) else afterResult status, none, none⟩
  | .marking _ _ _, .writeFails => some ⟨rows, none, none, none⟩
  | _, _ => none

/-- A lock object is a number. The last fields list the calls of the senders, and those that may
have succeeded. -/
structure Outbox (ι δ ρ S : Type) where
  rows : List (Delivery δ ρ S)
  tasks : List (ι × Task δ ρ S)
  recipientLocks : S → ρ → Option ℕ
  users : ℕ → ℕ
  locked : ℕ → Bool
  created : ℕ
  running : S → Bool
  invoked : List (S × δ)
  settled : List δ

def empty : Outbox ι δ ρ S := ⟨[], [], fun _ _ => none, fun _ => 0, fun _ => false, 0,
  fun _ => false, [], []⟩

inductive Label (ι δ ρ S : Type) where
  | enqueue (s : S) (d : δ) (key : ρ)
  | deliver (t : ι) (s : S) (d : δ)
  | resume (s : S) (ts : List ι)
  | acquire (t : ι)
  | act (t : ι) (a : Act)
  | leave (t : ι)
  | crash
  | recover (s : S)
  deriving DecidableEq

def setEntry (s : S) (key : ρ) (entry : Option ℕ) (dict : S → ρ → Option ℕ) : S → ρ → Option ℕ :=
  Function.update dict s (Function.update (dict s) key entry)

/-- The call enters itself with the lock of its recipient, new if there is none. -/
def register (t : ι) (s : S) (r : Delivery δ ρ S) (σ : Outbox ι δ ρ S) : Outbox ι δ ρ S :=
  match σ.recipientLocks s r.recipientKey with
  | some l => { σ with
      tasks := (t, ⟨s, r.deliveryId, r.recipientKey, l, .waiting⟩) :: σ.tasks
      users := Function.update σ.users l (σ.users l + 1) }
  | none => { σ with
      tasks := (t, ⟨s, r.deliveryId, r.recipientKey, σ.created, .waiting⟩) :: σ.tasks
      recipientLocks := setEntry s r.recipientKey (some σ.created) σ.recipientLocks
      users := Function.update σ.users σ.created 1
      locked := Function.update σ.locked σ.created false
      created := σ.created + 1 }

/-- `deliver` up to the lock. -/
def deliver (t : ι) (s : S) (d : δ) (σ : Outbox ι δ ρ S) : Outbox ι δ ρ S :=
  match get σ.rows d with
  | none => σ
  | some r => if r.status ∈ terminalStatuses then σ else register t s r σ

/-- The call gives its lock back, and one that nobody uses any more is thrown away. -/
def leave (t : ι) (x : Task δ ρ S) (σ : Outbox ι δ ρ S) : Outbox ι δ ρ S :=
  let users := σ.users x.lock - 1
  let locked := σ.locked x.lock && !x.phase.holding
  { σ with
    tasks := remove t σ.tasks
    users := Function.update σ.users x.lock users
    locked := Function.update σ.locked x.lock locked
    recipientLocks := if users = 0 ∧ locked = false
      then setEntry x.service x.recipientKey none σ.recipientLocks else σ.recipientLocks }

def perform (t : ι) (x : Task δ ρ S) (e : Effect δ ρ S) (σ : Outbox ι δ ρ S) : Outbox ι δ ρ S :=
  let σ' := { σ with
    rows := e.rows
    invoked := (e.invokes.map (Prod.mk x.service)).toList ++ σ.invoked
    settled := e.settles.toList ++ σ.settled }
  match e.phase with
  | some phase => { σ' with tasks := replace t { x with phase := phase } σ.tasks }
  | none => leave t x σ'

/-- All calls are lost. Nobody knows what comes of those that are in flight. -/
def crash (σ : Outbox ι δ ρ S) : Outbox ι δ ρ S :=
  { σ with
    tasks := []
    recipientLocks := fun _ _ => none
    users := fun _ => 0
    locked := fun _ => false
    running := fun _ => false
    settled := σ.tasks.filterMap (fun p =>
      match p.2.phase with
      | .inFlight d _ => some d
      | _ => none) ++ σ.settled }

/-- `leave` is the cancellation of a call that waits for the lock. -/
def next (σ : Outbox ι δ ρ S) : Label ι δ ρ S → Option (Outbox ι δ ρ S)
  | .enqueue s d key => if σ.running s then some { σ with rows := enqueue σ.rows s d key } else none
  | .deliver t s d =>
    if σ.running s ∧ t ∉ σ.tasks.map Prod.fst then some (deliver t s d σ) else none
  | .resume s ts =>
    if σ.running s ∧ (ts ++ σ.tasks.map Prod.fst).Nodup ∧
        ts.length = (pendingDeliveryIds p s σ.rows).length then
      some ((ts.zip (pendingDeliveryIds p s σ.rows)).foldl (fun σ q => deliver q.1 s q.2 σ) σ)
    else none
  | .acquire t =>
    (lookup t σ.tasks).bind (fun x =>
      if x.phase = .waiting ∧ σ.locked x.lock = false then
        some { σ with
          tasks := replace t { x with phase := .looking } σ.tasks
          locked := Function.update σ.locked x.lock true }
      else none)
  | .act t a =>
    (lookup t σ.tasks).bind (fun x =>
      (act p limits σ.rows x x.phase a).map (fun e => perform t x e σ))
  | .leave t =>
    (lookup t σ.tasks).bind (fun x => if x.phase = .waiting then some (leave t x σ) else none)
  | .crash => some (crash σ)
  | .recover s =>
    if σ.running s then none
    else some { σ with
      rows := recoverOnStartup p s σ.rows
      running := Function.update σ.running s true }

end Kirara.Outboxes
