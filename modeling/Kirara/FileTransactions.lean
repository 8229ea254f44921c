import Kirara.CrashHoare
import Mathlib.Data.List.Sort

namespace Kirara.FileTransactions

open Kirara.CrashHoare

variable {τ κ ν : Type} [DecidableEq τ] [LinearOrder κ]

/-- Staged file and backup carry the transaction id and the mutation's index. -/
inductive FileName (τ κ : Type) where
  | target (t : τ)
  | staged (t : τ) (transactionId : κ) (index : Nat)
  | backup (t : τ) (transactionId : κ) (index : Nat)
  deriving DecidableEq

def FileName.base : FileName τ κ → τ
  | .target t => t
  | .staged t _ _ => t
  | .backup t _ _ => t

def FileName.owner : FileName τ κ → Option κ
  | .target _ => none
  | .staged _ k _ => some k
  | .backup _ k _ => some k

inductive Node (ν : Type) where
  | file (content : ν)
  | directory
  deriving DecidableEq

/-- A replacement with what its writer puts into the staged file, or a deletion. -/
inductive FileMutation (τ ν : Type) where
  | replace (target : τ) (writer : Option ν)
  | remove (target : τ)

def FileMutation.target : FileMutation τ ν → τ
  | .replace t _ => t
  | .remove t => t

def FileMutation.delete : FileMutation τ ν → Bool
  | .replace _ _ => false
  | .remove _ => true

def FileMutation.outcome : FileMutation τ ν → Option (Node ν)
  | .replace _ writer => writer.map .file
  | .remove _ => none

structure Entry (τ κ : Type) where
  target : τ
  staged : Option (FileName τ κ)
  backup : FileName τ κ
  delete : Bool
  hadTarget : Bool

inductive EntryState where
  | pending
  | publishing
  | published
  deriving DecidableEq, Repr

inductive JournalState where
  | prepared
  | rollingBack
  | committed
  deriving DecidableEq, Repr

structure Journal (τ κ : Type) where
  state : JournalState
  entries : List (Entry τ κ)

/-- `rolledBack` is no file: it records the transactions rolled back in full. -/
structure World (τ κ ν : Type) where
  files : FileName τ κ → Option (Node ν)
  journals : List (κ × Journal τ κ)
  rolledBack : List κ

/-- `OSError`, another `Exception`, or a `BaseException` that is none. -/
inductive Failure where
  | osError
  | exception
  | baseException
  deriving DecidableEq, Repr

/-- A cut-off write leaves nothing or a file with some content. -/
abbrev Action (τ κ ν α : Type) := Proc (World τ κ ν) (Option ν) Failure α

def setFile (n : FileName τ κ) (x : Option (Node ν)) (w : World τ κ ν) : World τ κ ν :=
  { w with files := Function.update w.files n x }

def isFile (w : World τ κ ν) (n : FileName τ κ) : Bool :=
  match w.files n with
  | some (.file _) => true
  | _ => false

def fileExists (w : World τ κ ν) (n : FileName τ κ) : Bool := (w.files n).isSome

def leaveBehind (n : FileName τ κ) (left : Option ν) (w : World τ κ ν) : World τ κ ν :=
  match left with
  | none => w
  | some v => setFile n (some (.file v)) w

/-- An operation that changes no file a transaction looks at. -/
def checkpoint : Action τ κ ν Unit := atomically id

def unlink (n : FileName τ κ) : Action τ κ ν Unit := atomically (setFile n none)

def replaceFile (src dst : FileName τ κ) : Action τ κ ν Unit :=
  atomically (fun w => setFile src none (setFile dst (w.files src) w))

def copyFile (src dst : FileName τ κ) : Action τ κ ν Unit :=
  perform (fun w => setFile dst (w.files src) w) (leaveBehind dst)

def stageWriter (staged : FileName τ κ) (writer : Option ν) : Action τ κ ν Unit :=
  perform (leaveBehind staged writer) (leaveBehind staged)

def putJournal (k : κ) (j : Journal τ κ) (w : World τ κ ν) : World τ κ ν :=
  { w with journals := (k, j) :: w.journals.filter (fun p => p.1 ≠ k) }

def dropJournal (k : κ) (w : World τ κ ν) : World τ κ ν :=
  { w with journals := w.journals.filter (fun p => p.1 ≠ k) }

def writeJournal (k : κ) (j : Journal τ κ) : Action τ κ ν Unit := atomically (putJournal k j)

def unlinkJournal (k : κ) : Action τ κ ν Unit := atomically (dropJournal k)

def unlinkAny : Option (FileName τ κ) → Action τ κ ν Unit
  | none => pure ()
  | some n => unlink n

def cleanupEntry (e : Entry τ κ) : Action τ κ ν Unit := do
  unlinkAny e.staged
  unlink e.backup

def cleanupEntries (entries : List (Entry τ κ)) : Action τ κ ν Unit :=
  forEach cleanupEntry entries

def whenever (c : Bool) (p : Action τ κ ν Unit) : Action τ κ ν Unit := if c then p else pure ()

def publishTarget (w : World τ κ ν) (state : EntryState) (e : Entry τ κ) : Action τ κ ν Unit :=
  if e.delete then whenever (fileExists w (.target e.target)) (unlink (.target e.target))
  else
    match e.staged.filter (fileExists w) with
    | some staged => replaceFile staged (.target e.target)
    | none =>
      if state = .pending then raise .osError
      else whenever (!isFile w (.target e.target)) (raise .osError)

def publishEntry (state : EntryState) (e : Entry τ κ) : Action τ κ ν Unit := do
  let w ← readState
  publishTarget w state e
  checkpoint

def rollbackTarget (w : World τ κ ν) (e : Entry τ κ) : Action τ κ ν Unit :=
  if e.hadTarget then
    if fileExists w e.backup then replaceFile e.backup (.target e.target)
    else whenever (!isFile w (.target e.target)) (raise .osError)
  else whenever (fileExists w (.target e.target)) (unlink (.target e.target))

def rollbackEntry (e : Entry τ κ) : Action τ κ ν Unit := do
  let w ← readState
  rollbackTarget w e
  checkpoint

def rollbackAll (entries : List (Entry τ κ)) : Action τ κ ν Bool := do
  forEach rollbackEntry entries.reverse
  pure true

def rollbackEntries (entries : List (Entry τ κ)) : Action τ κ ν Bool :=
  attempt (rollbackAll entries) (fun e => if e = .osError then pure false else raise e)

def publishMarked (k : κ) (j : Journal τ κ) (e : Entry τ κ) : Action τ κ ν Unit := do
  writeJournal k j
  publishEntry .publishing e
  writeJournal k j

def publishEntries (k : κ) (j : Journal τ κ) : Action τ κ ν Unit :=
  forEach (publishMarked k j) j.entries

variable (inside : τ → Bool)

/-- Run a part of the preparation; if it raises, the entries so far are cleaned up first. -/
def cleaningUp {α : Type} (entries : List (Entry τ κ)) (p : Action τ κ ν α) : Action τ κ ν α :=
  attempt p (fun e => do
    cleanupEntries entries
    raise e)

def plannedEntry (k : κ) (index : Nat) (m : FileMutation τ ν) (hadTarget : Bool) : Entry τ κ where
  target := m.target
  staged := if m.delete then none else some (.staged m.target k index)
  backup := .backup m.target k index
  delete := m.delete
  hadTarget := hadTarget

/-- The checks a mutation has to pass, which tell whether its target is there. -/
def checkMutation (m : FileMutation τ ν) (seenTargets : List τ) : Action τ κ ν Bool :=
  if !inside m.target then raise .exception
  else if m.target ∈ seenTargets then raise .exception
  else do
    checkpoint
    let w ← readState
    if fileExists w (.target m.target) && !isFile w (.target m.target) then raise .osError
    else pure (isFile w (.target m.target))

def backUp (e : Entry τ κ) : Action τ κ ν Unit := do
  copyFile (.target e.target) e.backup
  checkpoint

def stage (staged : FileName τ κ) (writer : Option ν) : Action τ κ ν Unit := do
  stageWriter staged writer
  let w ← readState
  whenever (!isFile w staged) (raise .osError)
  checkpoint

def stageFile (m : FileMutation τ ν) (e : Entry τ κ) : Action τ κ ν Unit :=
  match m, e.staged with
  | .replace _ writer, some staged => stage staged writer
  | _, _ => pure ()

def stageMutation (m : FileMutation τ ν) (e : Entry τ κ) : Action τ κ ν Unit := do
  whenever e.hadTarget (backUp e)
  stageFile m e
  checkpoint

def prepareEntries (k : κ) :
    List (FileMutation τ ν) → Nat → List (Entry τ κ) → Action τ κ ν (List (Entry τ κ))
  | [], _, entries => pure entries
  | m :: ms, index, entries => do
    let hadTarget ← cleaningUp entries (checkMutation inside m (entries.map Entry.target))
    let e := plannedEntry k index m hadTarget
    cleaningUp (entries ++ [e]) (stageMutation m e)
    prepareEntries k ms (index + 1) (entries ++ [e])

structure FileTransaction (τ ν : Type) where
  mutations : List (FileMutation τ ν)
  nonempty : mutations ≠ []

/-- The artifacts of a transaction go before its journal. -/
def discard (k : κ) (entries : List (Entry τ κ)) : Action τ κ ν Unit := do
  cleanupEntries entries
  unlinkJournal k
  checkpoint

def noteRollback (k : κ) : Action τ κ ν Unit :=
  note (fun w => { w with rolledBack := k :: w.rolledBack })

def afterRollback (k : κ) (entries : List (Entry τ κ)) : Action τ κ ν Unit := do
  noteRollback k
  discard k entries

def rollBack (k : κ) (entries : List (Entry τ κ)) (e : Failure) : Action τ κ ν Unit := do
  writeJournal k ⟨.rollingBack, entries⟩
  let done ← rollbackEntries entries
  whenever done (afterRollback k entries)
  raise e

def finishCommit (k : κ) (entries : List (Entry τ κ)) : Action τ κ ν Unit :=
  attempt (discard k entries) (fun e => if e = .osError then pure () else raise e)

def openJournal (k : κ) (entries : List (Entry τ κ)) : Action τ κ ν Unit :=
  attempt (writeJournal k ⟨.prepared, entries⟩) (fun e => do
    discard k entries
    raise e)

/-- The callback changes none of the files, but it may raise. -/
def publish (k : κ) (entries : List (Entry τ κ)) (afterPublish : Bool) : Action τ κ ν Unit := do
  publishEntries k ⟨.prepared, entries⟩
  whenever afterPublish checkpoint
  writeJournal k ⟨.committed, entries⟩

/-- `commit` of the transaction `k`; the flag says whether a callback is given. -/
def commit (txn : FileTransaction τ ν) (k : κ) (afterPublish : Bool) : Action τ κ ν Unit := do
  checkpoint
  let entries ← prepareEntries inside k txn.mutations 0 []
  openJournal k entries
  attempt (publish k entries afterPublish)
    (fun e => if e = .baseException then raise e else rollBack k entries e)
  finishCommit k entries

def validEntries (entries : List (Entry τ κ)) : Bool :=
  !entries.isEmpty && entries.all (fun e =>
    inside e.target && inside e.backup.base && e.staged.all (fun n => inside n.base))

def redo (k : κ) (j : Journal τ κ) : Action τ κ ν Unit := do
  publishEntries k j
  writeJournal k { j with state := .committed }

def undo (entries : List (Entry τ κ)) : Action τ κ ν Unit := do
  let done ← rollbackEntries entries
  whenever (!done) (raise .osError)

def resolveJournal (k : κ) (j : Journal τ κ) : Action τ κ ν Unit :=
  match j.state with
  | .rollingBack => undo j.entries
  | .committed => pure ()
  | .prepared => redo k j

def recoverJournal (k : κ) : Action τ κ ν Unit := do
  checkpoint
  let w ← readState
  match w.journals.find? (fun p => p.1 = k) with
  | none => raise .osError
  | some (_, j) =>
    if !validEntries inside j.entries then raise .exception
    else do
      resolveJournal k j
      discard k j.entries

/-- `recover_directory`: the journals there are, in the order of their ids. -/
def recoverDirectory : Action τ κ ν Unit := do
  let w ← readState
  forEach (recoverJournal inside) ((w.journals.map Prod.fst).insertionSort (· ≤ ·))

end Kirara.FileTransactions
