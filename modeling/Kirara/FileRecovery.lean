import Kirara.FileCommits

namespace Kirara.FileRecovery

open Kirara.CrashHoare Kirara.FileTransactions Kirara.FileSteps Kirara.FileEntries
open Kirara.FilePreparation Kirara.FileCommits

set_option linter.unusedSectionVars false

variable {τ κ ν : Type} [DecidableEq τ] [LinearOrder κ]
variable {inside : τ → Bool} {w₀ w w' : World τ κ ν} {all : List (FileMutation τ ν)} {k : κ}
  {es : List (Entry τ κ)} {calm : Prop}

theorem validEntries_of_underway (hne : all ≠ []) (h : Underway inside w₀ all k es w) :
    validEntries inside es = true := by
  have hes : es ≠ [] := by
    rintro rfl
    have ht := h.targets
    rw [List.map_nil, eq_comm, List.map_eq_nil_iff] at ht
    exact hne ht
  simp only [validEntries, Bool.and_eq_true, Bool.not_eq_true', List.isEmpty_eq_false_iff, List.all_eq_true]
  refine ⟨hes, fun e he => ?_⟩
  have hp := h.planned e he
  refine ⟨⟨hp.inside, by rw [hp.backup.1]; exact hp.inside⟩, ?_⟩
  rw [Option.all_eq_true]
  intro s hs
  rw [(staged_base hp s hs).1]
  exact hp.inside

theorem recoverJournal_triple {P M Q E : World τ κ ν → Prop} {j : Journal τ κ}
    (hfind : ∀ w, P w → w.journals.find? (fun p => p.1 = k) = some (k, j))
    (hvalid : validEntries inside j.entries = true) (he : ∀ w, ¬ calm → P w → E w)
    (hresolve : Triple calm P (resolveJournal k j) (fun _ => M) (fun _ => E) E)
    (hdiscard : Triple calm M (discard k j.entries) (fun _ => Q) (fun _ => E) E) :
    Triple calm P (recoverJournal inside k) (fun _ => Q) (fun _ => E) E := by
  refine Triple.then_ (checkpoint_triple he) (Triple.readState (fun w hw => ?_))
  rw [hfind w hw]
  dsimp only
  rw [if_neg (by simp [hvalid])]
  exact Triple.then_ (hresolve.strengthen (fun s hs => hs ▸ hw)) hdiscard

theorem find_of_cons {j : Journal τ κ} {rest : List (κ × Journal τ κ)}
    (h : w.journals = (k, j) :: rest) : w.journals.find? (fun p => p.1 = k) = some (k, j) := by
  rw [h, List.find?_cons_of_pos (by simp)]

variable (es) in
theorem recoverJournal_ready_triple (hne : all ≠ []) (hk : ∀ p ∈ w₀.journals, p.1 ≠ k) :
    Triple calm (Ready inside w₀ all k es) (recoverJournal inside k)
      (fun _ w => Finished inside w₀ all k es w ∧ w.journals = w₀.journals)
      (fun _ w => ¬ calm ∧ HeadsNew inside w₀ all k w)
      (fun w => ¬ calm ∧ HeadsNew inside w₀ all k w) := by
  have hready : ∀ w, Ready inside w₀ all k es w → HeadsNew inside w₀ all k w :=
    fun w h => ⟨es, Or.inl h⟩
  have hfinished : ∀ w, Finished inside w₀ all k es w → HeadsNew inside w₀ all k w :=
    fun w h => ⟨es, Or.inr h⟩
  refine Triple.assume (A := validEntries inside es = true)
    (fun w h => validEntries_of_underway hne h.toUnderway) (fun hvalid => ?_)
  refine recoverJournal_triple (j := ⟨.prepared, es⟩) (M := Finished inside w₀ all k es)
    (fun w h => find_of_cons h.journals) hvalid (fun w hc h => ⟨hc, hready w h⟩) ?_ ?_
  · refine Triple.then_ ((publishEntries_triple hk).exits (fun w h => ⟨h.1, hready w h.2⟩))
      (Triple.atomically_exits ?_ ?_)
    · exact fun w h => finished_of_ready hk h.1 h.2
    · exact fun w hc h => ⟨hc, hready w h.1⟩
  · exact (discard_finished_triple hk).exits (fun w h => ⟨h.1, hfinished w h.2⟩)

theorem recoverJournal_finished_triple (hne : all ≠ []) (hk : ∀ p ∈ w₀.journals, p.1 ≠ k) : Triple calm
      (fun w => Finished inside w₀ all k es w ∧
        w.journals = (k, ⟨.committed, es⟩) :: w₀.journals)
      (recoverJournal inside k)
      (fun _ w => Finished inside w₀ all k es w ∧ w.journals = w₀.journals)
      (fun _ w => ¬ calm ∧ HeadsNew inside w₀ all k w)
      (fun w => ¬ calm ∧ HeadsNew inside w₀ all k w) := by
  have hfinished : ∀ w, Finished inside w₀ all k es w → HeadsNew inside w₀ all k w :=
    fun w h => ⟨es, Or.inr h⟩
  refine Triple.assume (A := validEntries inside es = true)
    (fun w h => validEntries_of_underway hne h.1.toUnderway) (fun hvalid => ?_)
  refine recoverJournal_triple (j := ⟨.committed, es⟩) (M := Finished inside w₀ all k es)
    (fun w h => find_of_cons h.2) hvalid (fun w hc h => ⟨hc, hfinished w h.1⟩)
    (Triple.pure (fun w h => h.1)) ?_
  exact (discard_finished_triple hk).exits (fun w h => ⟨h.1, hfinished w h.2⟩)

variable (es) in
theorem recoverJournal_retreating_triple (hne : all ≠ []) (hk : ∀ p ∈ w₀.journals, p.1 ≠ k) :
    Triple calm (Retreating inside w₀ all k es) (recoverJournal inside k)
      (fun _ => Untouched w₀ k)
      (fun _ w => ¬ calm ∧ HeadsOld inside w₀ all k w)
      (fun w => ¬ calm ∧ HeadsOld inside w₀ all k w) := by
  have hback : ∀ w, Retreating inside w₀ all k es w → HeadsOld inside w₀ all k w :=
    fun w h => Or.inr ⟨es, h⟩
  refine Triple.assume (A := validEntries inside es = true)
    (fun w h => validEntries_of_underway hne h.toUnderway) (fun hvalid => ?_)
  refine recoverJournal_triple (j := ⟨.rollingBack, es⟩)
    (M := fun w => Retreating inside w₀ all k es w ∧ AllOld w₀ es w)
    (fun w h => find_of_cons h.journals) hvalid (fun w hc h => ⟨hc, hback w h⟩) ?_
    (discard_back_triple hk)
  refine Triple.bind (rollbackEntries_triple.exits (fun w h => ⟨h.1, hback w h.2⟩))
    (fun b => whenever_triple (fun hb => Triple.raise ?_) (fun hb => ?_))
  · rintro w ⟨h, hold | hold⟩
    · rw [hold.1] at hb
      cases hb
    · exact ⟨hold.2, hback w h⟩
  · rintro w ⟨h, hold | hold⟩
    · exact ⟨h, hold.2⟩
    · rw [hold.1] at hb
      cases hb

theorem recoverDirectory_triple {P Q : World τ κ ν → Prop} {R : Failure → World τ κ ν → Prop}
    {C : World τ κ ν → Prop} (hj : ∀ w, P w → w.journals = [] ∨ ∃ j, w.journals = [(k, j)])
    (hnone : ∀ w, P w → w.journals = [] → Q w)
    (hone : Triple calm (fun w => P w ∧ w.journals ≠ []) (recoverJournal inside k)
      (fun _ => Q) R C) :
    Triple calm P (recoverDirectory inside) (fun _ => Q) R C := by
  refine Triple.readState (fun w hw => ?_)
  cases hj w hw with
  | inl h =>
    rw [h]
    exact Triple.pure (fun s hs => hs ▸ hnone w hw h)
  | inr h =>
    obtain ⟨j, h⟩ := h
    rw [h]
    refine Triple.then_ (hone.strengthen ?_) (Triple.pure (fun _ h => h))
    rintro s rfl
    exact ⟨hw, by rw [h]; exact List.cons_ne_nil _ _⟩

section Alone

variable (hne : all ≠ []) (h₀ : w₀.journals = [])

include hne h₀

theorem recoverDirectory_new_triple : Triple calm (HeadsNew inside w₀ all k) (recoverDirectory inside)
      (fun _ w => ∃ es, Finished inside w₀ all k es w)
      (fun _ w => ¬ calm ∧ HeadsNew inside w₀ all k w)
      (fun w => ¬ calm ∧ HeadsNew inside w₀ all k w) := by
  have hk : ∀ p ∈ w₀.journals, p.1 ≠ k := fun p hp => by rw [h₀] at hp; cases hp
  apply recoverDirectory_triple (k := k)
  · rintro w ⟨es, h | h⟩
    · exact Or.inr ⟨_, by rw [h.journals, h₀]⟩
    · exact h.journals.imp (fun hj => hj.trans h₀) (fun hj => ⟨_, by rw [hj, h₀]⟩)
  · rintro w ⟨es, h | h⟩ hj
    · rw [h.journals] at hj
      cases hj
    · exact ⟨es, h⟩
  · refine Triple.strengthen (Triple.some_ (fun es => (Triple.either
      (recoverJournal_ready_triple es hne hk)
      (recoverJournal_finished_triple hne hk)).weaken (fun _ w h => ⟨es, h.1⟩))) ?_
    rintro w ⟨⟨es, h | h⟩, hj⟩
    · exact ⟨es, Or.inl h⟩
    · cases h.journals with
      | inl hj' => exact absurd (hj'.trans h₀) hj
      | inr hj' => exact ⟨es, Or.inr ⟨h, hj'⟩⟩

theorem recoverDirectory_old_triple :
    Triple calm (HeadsOld inside w₀ all k) (recoverDirectory inside) (fun _ => Untouched w₀ k)
      (fun _ w => ¬ calm ∧ HeadsOld inside w₀ all k w)
      (fun w => ¬ calm ∧ HeadsOld inside w₀ all k w) := by
  have hk : ∀ p ∈ w₀.journals, p.1 ≠ k := fun p hp => by rw [h₀] at hp; cases hp
  apply recoverDirectory_triple (k := k)
  · rintro w (h | ⟨es, h⟩)
    · exact Or.inl (h.journals.trans h₀)
    · exact Or.inr ⟨_, by rw [h.journals, h₀]⟩
  · rintro w (h | ⟨es, h⟩) hj
    · exact h
    · rw [h.journals] at hj
      cases hj
  · refine Triple.strengthen (Triple.some_ (fun es =>
      recoverJournal_retreating_triple es hne hk)) ?_
    rintro w ⟨h | ⟨es, h⟩, hj⟩
    · exact absurd (h.journals.trans h₀) hj
    · exact ⟨es, h⟩

theorem headsNew_recoverDirectory (h : HeadsNew inside w₀ all k w) (fs : List (Fault (Option ν) Failure)) :
    HeadsNew inside w₀ all k (recoverDirectory inside w fs).2.1 :=
  ((recoverDirectory_new_triple hne h₀).consequence (fun _ h => h)
    (fun _ _ ⟨es, h⟩ => ⟨es, Or.inr h⟩) (fun _ _ h => h.2) (fun _ h => h.2)).ends h fs

theorem headsOld_recoverDirectory (h : HeadsOld inside w₀ all k w) (fs : List (Fault (Option ν) Failure)) :
    HeadsOld inside w₀ all k (recoverDirectory inside w fs).2.1 :=
  ((recoverDirectory_old_triple hne h₀).consequence (fun _ h => h)
    (fun _ _ h => Or.inl h) (fun _ _ h => h.2) (fun _ h => h.2)).ends h fs

end Alone

theorem finished_targets (h : Finished inside w₀ all k es w) (t : τ) :
    w.files (.target t) = wanted w₀ all t := by
  by_cases ht : ∃ e ∈ es, t = e.target
  · obtain ⟨e, he, rfl⟩ := ht
    exact h.allNew e he
  · have hfind : all.find? (fun m => m.target = t) = none := by
      rw [List.find?_eq_none]
      intro m hm hmt
      have hmem : m.target ∈ es.map Entry.target := by
        rw [h.targets]
        exact List.mem_map_of_mem hm
      obtain ⟨e, he, het⟩ := List.mem_map.mp hmem
      exact ht ⟨e, he, by rw [het, of_decide_eq_true hmt]⟩
    rw [wanted, hfind]
    apply h.apart _ (by simp [FileName.owner])
    intro e he hte
    cases hte
    exact ht ⟨e, he, rfl⟩

def restarted (inside : τ → Bool) (w : World τ κ ν)
    (restarts : List (List (Fault (Option ν) Failure))) : World τ κ ν :=
  restarts.foldl (fun w fs => (recoverDirectory inside w fs).2.1) w

theorem restarted_invariant (I : World τ κ ν → Prop)
    (hI : ∀ w fs, I w → I (recoverDirectory inside w fs).2.1) (hw : I w)
    (restarts : List (List (Fault (Option ν) Failure))) : I (restarted inside w restarts) := by
  induction restarts generalizing w with
  | nil => exact hw
  | cons fs restarts ih => exact ih (hI w fs hw)

theorem recovered_new (hne : all ≠ []) (h₀ : w₀.journals = []) (h : HeadsNew inside w₀ all k w)
    (restarts : List (List (Fault (Option ν) Failure))) :
    let last := recoverDirectory inside (restarted inside w restarts) []
    last.1 = .returned () ∧ ∀ t, last.2.1.files (.target t) = wanted w₀ all t := by
  have hr : HeadsNew inside w₀ all k (restarted inside w restarts) :=
    restarted_invariant (HeadsNew inside w₀ all k)
      (fun _ fs hw => headsNew_recoverDirectory hne h₀ hw fs) h restarts
  obtain ⟨_, ho, es, hes⟩ := ((recoverDirectory_new_triple hne h₀).consequence (fun _ h => h)
    (fun _ _ h => h) (fun _ _ h => h.1 trivial) (fun _ h => h.1 trivial)).returns hr
  exact ⟨ho, finished_targets hes⟩

theorem recovered_old (hne : all ≠ []) (h₀ : w₀.journals = []) (h : HeadsOld inside w₀ all k w)
    (restarts : List (List (Fault (Option ν) Failure))) :
    let last := recoverDirectory inside (restarted inside w restarts) []
    last.1 = .returned () ∧ ∀ t, last.2.1.files (.target t) = w₀.files (.target t) := by
  have hr : HeadsOld inside w₀ all k (restarted inside w restarts) :=
    restarted_invariant (HeadsOld inside w₀ all k)
      (fun _ fs hw => headsOld_recoverDirectory hne h₀ hw fs) h restarts
  obtain ⟨_, ho, hu⟩ := ((recoverDirectory_old_triple hne h₀).consequence (fun _ h => h)
    (fun _ _ h => h) (fun _ _ h => h.1 trivial) (fun _ h => h.1 trivial)).returns hr
  exact ⟨ho, fun t => hu.files _ (by simp [FileName.owner])⟩

def ordinary (files : τ → Option (Node ν)) : World τ κ ν where
  files
    | .target t => files t
    | _ => none
  journals := []
  rolledBack := []

theorem fresh_ordinary (files : τ → Option (Node ν)) (k : κ) : Fresh k (ordinary files) where
  artifacts n hn := by
    cases n with
    | target t => cases hn
    | staged t k' i => rfl
    | backup t k' i => rfl
  journal p hp := by cases hp
  rollback := List.not_mem_nil

end Kirara.FileRecovery
