import Kirara.FileRecovery

namespace Kirara.TransactionOutcomes

open Kirara.CrashHoare Kirara.FileTransactions Kirara.FileEntries Kirara.FileCommits
open Kirara.FileRecovery

/-- One that is neither finished nor undone waits for the next recovery. -/
structure Disk (τ β : Type) where
  files : τ → Option β
  pending : Option (τ → Option β)

/-- It returns, it raises with everything undone, or it is left to recovery. -/
inductive Publish (τ : Type) where
  | done
  | undone
  | left (published : τ → Bool) (forward : Bool)

variable {τ β κ ν : Type}

def Disk.settled (d : Disk τ β) : τ → Option β := d.pending.getD d.files

/-- `FileTransaction.recover_directory`, where it goes through. -/
def Disk.recover (d : Disk τ β) : Disk τ β := ⟨d.settled, none⟩

def publish (files new : τ → Option β) : Publish τ → Disk τ β
  | .done => ⟨new, none⟩
  | .undone => ⟨files, none⟩
  | .left published forward =>
    ⟨fun t => if published t then new t else files t, some (if forward then new else files)⟩

@[simp] theorem settled_recover (d : Disk τ β) : d.recover.settled = d.settled := rfl

theorem settled_publish (files new : τ → Option β) (p : Publish τ) :
    (publish files new p).settled = files ∨ (publish files new p).settled = new := by
  cases p with
  | done => exact .inr rfl
  | undone => exact .inl rfl
  | left published forward =>
    cases forward with
    | true => exact .inr rfl
    | false => exact .inl rfl

variable [DecidableEq τ] [LinearOrder κ]

variable {inside : τ → Bool} {w₀ w : World τ κ ν} {all : List (FileMutation τ ν)} {k : κ} {es : List (Entry τ κ)}

def targets (w : World τ κ ν) (t : τ) : Option (Node ν) := w.files (.target t)

/-- A transaction returns just in case it is done, and has left the files, on disk and for a
recovery after any number of interrupted ones, as the outcome says. -/
structure ComesTo (inside : τ → Bool) (w₀ : World τ κ ν) (all : List (FileMutation τ ν))
    (run : Outcome Failure Unit × World τ κ ν × List (Fault (Option ν) Failure)) (p : Publish τ) : Prop where
  returned : run.1 = .returned () ↔ p = .done
  files : targets run.2.1 = (publish (targets w₀) (wanted w₀ all) p).files
  recovered : ∀ restarts, targets (recoverDirectory inside (restarted inside run.2.1 restarts) []).2.1 =
    (publish (targets w₀) (wanted w₀ all) p).settled

omit [LinearOrder κ] in
theorem exists_published (h : Underway inside w₀ all k es w) (hb : ∀ e ∈ es, Between w₀ all w e) :
    ∃ published : τ → Bool, targets w = fun t => if published t then wanted w₀ all t else targets w₀ t := by
  classical
  refine ⟨fun t => decide (targets w t ≠ targets w₀ t), funext (fun t => ?_)⟩
  by_cases ht : targets w t = targets w₀ t
  · simp [ht]
  rw [if_pos (by simpa using ht)]
  by_cases hmem : ∃ e ∈ es, t = e.target
  · obtain ⟨e, he, rfl⟩ := hmem
    exact (hb e he).resolve_left ht
  · refine absurd (h.apart (.target t) (by simp [FileName.owner]) (fun e he hte => hmem ⟨e, he, ?_⟩)) ht
    exact FileName.target.inj hte

variable {run : Outcome Failure Unit × World τ κ ν × List (Fault (Option ν) Failure)}

theorem comesTo_left (hne : run.1 ≠ .returned ()) (h : Underway inside w₀ all k es run.2.1)
    (hb : ∀ e ∈ es, Between w₀ all run.2.1 e) (forward : Bool)
    (hrecovered : ∀ restarts, targets (recoverDirectory inside (restarted inside run.2.1 restarts) []).2.1 =
      if forward then wanted w₀ all else targets w₀) : ∃ p, ComesTo inside w₀ all run p := by
  obtain ⟨published, hpublished⟩ := exists_published h hb
  exact ⟨.left published forward, ⟨fun hr => absurd hr hne, nofun⟩, hpublished, hrecovered⟩

theorem comesTo_halfway (hne : all ≠ []) (h₀ : w₀.journals = []) (h : Halfway inside w₀ all k run.2.1)
    (hraised : run.1 ≠ .returned ()) : ∃ p, ComesTo inside w₀ all run p := by
  cases h with
  | inl hold =>
    have hrecovered := fun restarts => funext (recovered_old hne h₀ hold restarts).2
    cases hold with
    | inl huntouched =>
      refine ⟨.undone, ⟨fun hr => absurd hr hraised, nofun⟩, funext (fun t => ?_), hrecovered⟩
      exact huntouched.files (.target t) (by simp [FileName.owner])
    | inr hretreating =>
      obtain ⟨es, hes⟩ := hretreating
      exact comesTo_left hraised hes.toUnderway hes.between false hrecovered
  | inr hnew =>
    have hrecovered := fun restarts => funext (recovered_new hne h₀ hnew.1 restarts).2
    obtain ⟨es, hready | hfinished⟩ := hnew.1
    · exact comesTo_left hraised hready.toUnderway hready.between true hrecovered
    · exact comesTo_left hraised hfinished.toUnderway (fun e he => .inr (hfinished.allNew e he)) true hrecovered

theorem commit_comesTo (hfresh : Fresh k w₀) (h₀ : w₀.journals = []) (txn : FileTransaction τ ν)
    (afterPublish : Bool) (faults : List (Fault (Option ν) Failure)) :
    ∃ p, ComesTo inside w₀ txn.mutations (commit inside txn k afterPublish w₀ faults) p := by
  have hcommit := (commit_triple inside txn afterPublish w₀ faults ⟨rfl, hfresh⟩ False.elim).1
  generalize commit inside txn k afterPublish w₀ faults = run at hcommit
  obtain ⟨outcome, w, rest⟩ := run
  cases outcome with
  | returned a =>
    obtain ⟨es, hes⟩ := hcommit
    exact ⟨.done, ⟨fun _ => rfl, fun _ => rfl⟩, funext (finished_targets hes),
      fun restarts => funext (recovered_new txn.nonempty h₀ ⟨es, .inr hes⟩ restarts).2⟩
  | raised f => exact comesTo_halfway txn.nonempty h₀ hcommit nofun
  | crashed => exact comesTo_halfway txn.nonempty h₀ hcommit nofun

end Kirara.TransactionOutcomes
