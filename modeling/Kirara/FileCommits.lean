import Kirara.FilePreparation

namespace Kirara.FileCommits

open Kirara.CrashHoare Kirara.FileTransactions Kirara.FileSteps Kirara.FileEntries
open Kirara.FilePreparation

set_option linter.unusedSectionVars false

variable {τ κ ν : Type} [DecidableEq τ] [LinearOrder κ]

section Stages

variable (inside : τ → Bool) (w₀ : World τ κ ν) (all : List (FileMutation τ ν)) (k : κ)
  (es : List (Entry τ κ)) (w : World τ κ ν)

def AllNew : Prop := ∀ e ∈ es, w.files (.target e.target) = wanted w₀ all e.target

def AllOld : Prop := ∀ e ∈ es, w.files (.target e.target) = w₀.files (.target e.target)

/-- The entries are the whole transaction's, and only their targets and artifacts have changed. -/
structure Underway : Prop where
  targets : es.map Entry.target = all.map FileMutation.target
  distinct : (es.map Entry.target).Nodup
  planned : ∀ e ∈ es, Planned inside w₀ all k e
  apart : ∀ n : FileName τ κ, n.owner ≠ some k → (∀ e ∈ es, n ≠ .target e.target) →
    w.files n = w₀.files n

/-- The journal asks to go forward, and everything for it is there. -/
structure Ready : Prop extends Underway inside w₀ all k es w where
  journals : w.journals = (k, ⟨.prepared, es⟩) :: w₀.journals
  armed : ∀ e ∈ es, Armed w₀ all w e
  backedUp : ∀ e ∈ es, BackedUp w₀ w e
  between : ∀ e ∈ es, Between w₀ all w e
  quiet : k ∉ w.rolledBack

/-- The new state is complete; a journal that is left says so. -/
structure Finished : Prop extends Underway inside w₀ all k es w where
  journals : w.journals = w₀.journals ∨ w.journals = (k, ⟨.committed, es⟩) :: w₀.journals
  allNew : AllNew w₀ all es w
  quiet : k ∉ w.rolledBack

/-- The journal asks to go back, and everything for it is there. -/
structure Retreating : Prop extends Underway inside w₀ all k es w where
  journals : w.journals = (k, ⟨.rollingBack, es⟩) :: w₀.journals
  undoable : ∀ e ∈ es, Undoable w₀ w e
  between : ∀ e ∈ es, Between w₀ all w e

def HeadsOld : Prop := Untouched w₀ k w ∨ ∃ es, Retreating inside w₀ all k es w

def HeadsNew : Prop := ∃ es, Ready inside w₀ all k es w ∨ Finished inside w₀ all k es w

end Stages

variable {inside : τ → Bool} {w₀ w w' : World τ κ ν} {all : List (FileMutation τ ν)} {k : κ}
  {es : List (Entry τ κ)} {e d : Entry τ κ} {calm : Prop}

theorem otherJournals_of_cons {j : Journal τ κ} (hk : ∀ p ∈ w₀.journals, p.1 ≠ k)
    (h : w.journals = w₀.journals ∨ w.journals = (k, j) :: w₀.journals) : otherJournals w k = w₀.journals := by
  have hfilter : w₀.journals.filter (fun p => p.1 ≠ k) = w₀.journals := by
    rw [List.filter_eq_self]
    intro p hp
    exact decide_eq_true (hk p hp)
  unfold otherJournals
  cases h with
  | inl h => rw [h, hfilter]
  | inr h => rw [h, List.filter_cons_of_neg (by simp), hfilter]

theorem putJournal_journals {j j' : Journal τ κ} (hk : ∀ p ∈ w₀.journals, p.1 ≠ k)
    (h : w.journals = w₀.journals ∨ w.journals = (k, j) :: w₀.journals) :
    (putJournal k j' w).journals = (k, j') :: w₀.journals :=
  congrArg (List.cons (k, j')) (otherJournals_of_cons hk h)

theorem eq_or_target_ne (h : Underway inside w₀ all k es w) (he : e ∈ es) :
    ∀ d ∈ es, d = e ∨ d.target ≠ e.target := by
  intro d hd
  by_cases ht : d.target = e.target
  · exact Or.inl (List.inj_on_of_nodup_map h.distinct hd he ht)
  · exact Or.inr ht

theorem underway_step (h : Underway inside w₀ all k es w) (he : e ∈ es)
    (hs : ∀ n : FileName τ κ, n.owner ≠ some k → n ≠ .target e.target → w'.files n = w.files n) :
    Underway inside w₀ all k es w' where
  targets := h.targets
  distinct := h.distinct
  planned := h.planned
  apart n hn hne := (hs n hn (hne e he)).trans (h.apart n hn hne)

theorem ready_published (he : e ∈ es) (h : Ready inside w₀ all k es w) :
    Ready inside w₀ all k es (published e w) := by
  have hp := h.planned e he
  obtain ⟨hnew, harmed, hbackup⟩ := published_armed hp (h.armed e he)
  have hsame := published_sameBut (w := w) hp
  have hcase := eq_or_target_ne h.toUnderway he
  refine ⟨underway_step h.toUnderway he (fun n ho hn => published_elsewhere hp ho hn),
    published_journals.1.trans h.journals, ?_, ?_, ?_, by rw [published_journals.2]; exact h.quiet⟩
  · intro d hd
    cases hcase d hd with
    | inl hde => rwa [hde]
    | inr hde => exact armed_frame (h.planned d hd) hde hsame (h.armed d hd)
  · intro d hd
    cases hcase d hd with
    | inl hde =>
      intro hh
      rw [hde, hbackup]
      exact h.backedUp e he (hde ▸ hh)
    | inr hde => exact backedUp_frame (h.planned d hd) hde hsame (h.backedUp d hd)
  · intro d hd
    cases hcase d hd with
    | inl hde => exact Or.inr (hde ▸ hnew)
    | inr hde => exact between_frame (h.planned d hd) hde hsame (h.between d hd)

theorem retreating_restored (he : e ∈ es) (h : Retreating inside w₀ all k es w) :
    Retreating inside w₀ all k es (restored e w) := by
  have hp := h.planned e he
  obtain ⟨hold, hundo⟩ := restored_undoable hp (h.undoable e he)
  have hsame := restored_sameBut (w := w) hp
  have hcase := eq_or_target_ne h.toUnderway he
  refine ⟨underway_step h.toUnderway he (fun n ho hn => restored_elsewhere hp ho hn),
    restored_journals.1.trans h.journals, ?_, ?_⟩
  · intro d hd
    cases hcase d hd with
    | inl hde => rwa [hde]
    | inr hde => exact undoable_frame (h.planned d hd) hde hsame (h.undoable d hd)
  · intro d hd
    cases hcase d hd with
    | inl hde => exact Or.inl (hde ▸ hold)
    | inr hde => exact between_frame (h.planned d hd) hde hsame (h.between d hd)

theorem target_of_append {done rest : List (Entry τ κ)} (h : Underway inside w₀ all k es w)
    (hl : es = done ++ e :: rest) : ∀ d ∈ done, d.target ≠ e.target := by
  have hd := h.distinct
  rw [hl, List.map_append, List.map_cons, List.nodup_append] at hd
  exact fun d hdd => hd.2.2 d.target (List.mem_map_of_mem hdd) e.target List.mem_cons_self

theorem publishEntries_triple (hk : ∀ p ∈ w₀.journals, p.1 ≠ k) :
    Triple calm (Ready inside w₀ all k es) (publishEntries k ⟨.prepared, es⟩)
      (fun _ w => Ready inside w₀ all k es w ∧ AllNew w₀ all es w)
      (fun _ w => ¬ calm ∧ Ready inside w₀ all k es w)
      (fun w => ¬ calm ∧ Ready inside w₀ all k es w) := by
  have hloop : Triple calm (fun w => Ready inside w₀ all k es w ∧ AllNew w₀ all [] w)
      (publishEntries k ⟨.prepared, es⟩)
      (fun _ w => Ready inside w₀ all k es w ∧ AllNew w₀ all es w)
      (fun _ w => ¬ calm ∧ Ready inside w₀ all k es w)
      (fun w => ¬ calm ∧ Ready inside w₀ all k es w) := by
    apply Triple.forEach (fun done w => Ready inside w₀ all k es w ∧ AllNew w₀ all done w) es
    intro done e rest hl
    have he : e ∈ es := by
      rw [hl]
      exact List.mem_append_right _ List.mem_cons_self
    have hput : ∀ w, Ready inside w₀ all k es w →
        Ready inside w₀ all k es (putJournal k ⟨.prepared, es⟩ w) :=
      fun w h => { h with journals := putJournal_journals hk (Or.inr h.journals) }
    have hmark : ∀ entries, Triple calm
        (fun w => Ready inside w₀ all k es w ∧ AllNew w₀ all entries w)
        (writeJournal k ⟨.prepared, es⟩)
        (fun _ w => Ready inside w₀ all k es w ∧ AllNew w₀ all entries w)
        (fun _ w => ¬ calm ∧ Ready inside w₀ all k es w)
        (fun w => ¬ calm ∧ Ready inside w₀ all k es w) :=
      fun entries =>
        Triple.atomically_exits (fun w h => ⟨hput w h.1, h.2⟩) (fun w hc h => ⟨hc, h.1⟩)
    refine Triple.then_ (hmark done) (Triple.then_ (publishEntry_triple ?_ ?_ ?_) (hmark (done ++ [e])))
    · rintro w ⟨h, hnew⟩
      refine ⟨ready_published he h, fun d hd => ?_⟩
      cases List.mem_append.mp hd with
      | inl hd =>
        have hne := target_of_append h.toUnderway hl d hd
        have hs := published_sameBut (w := w) (h.planned e he)
        rw [hs (.target d.target) hne]
        exact hnew d hd
      | inr hd =>
        rw [List.mem_singleton.mp hd]
        exact (published_armed (h.planned e he) (h.armed e he)).1
    · rintro w hc ⟨h, -⟩
      have hready := publishable_of_armed (h.planned e he) (h.armed e he)
      exact ⟨hc.resolve_right (not_not.mpr hready), h⟩
    · exact fun w hc h => ⟨hc, ready_published he h.1⟩
  exact hloop.strengthen (fun w h => ⟨h, fun e he => by cases he⟩)

theorem rollbackEntries_triple : Triple calm (Retreating inside w₀ all k es) (rollbackEntries es)
      (fun b w => Retreating inside w₀ all k es w ∧ (b = true ∧ AllOld w₀ es w ∨ b = false ∧ ¬ calm))
      (fun _ w => ¬ calm ∧ Retreating inside w₀ all k es w)
      (fun w => ¬ calm ∧ Retreating inside w₀ all k es w) := by
  have hloop : Triple calm (fun w => Retreating inside w₀ all k es w ∧ AllOld w₀ [] w)
      (forEach rollbackEntry es.reverse)
      (fun _ w => Retreating inside w₀ all k es w ∧ AllOld w₀ es.reverse w)
      (fun _ w => ¬ calm ∧ Retreating inside w₀ all k es w)
      (fun w => ¬ calm ∧ Retreating inside w₀ all k es w) := by
    apply Triple.forEach (fun done w => Retreating inside w₀ all k es w ∧ AllOld w₀ done w)
      es.reverse
    intro done e rest hl
    have he : e ∈ es := by
      rw [← List.mem_reverse, hl]
      exact List.mem_append_right _ List.mem_cons_self
    apply rollbackEntry_triple
    · rintro w ⟨h, hold⟩
      refine ⟨retreating_restored he h, fun d hd => ?_⟩
      have hself := (restored_undoable (h.planned e he) (h.undoable e he)).1
      by_cases ht : d.target = e.target
      · rwa [ht]
      cases List.mem_append.mp hd with
      | inl hd =>
        have hs := restored_sameBut (w := w) (h.planned e he)
        rw [hs (.target d.target) ht]
        exact hold d hd
      | inr hd => exact absurd (congrArg Entry.target (List.mem_singleton.mp hd)) ht
    · rintro w hc ⟨h, -⟩
      have hready := restorable_of_undoable (h.planned e he) (h.undoable e he)
      exact ⟨hc.resolve_right (not_not.mpr hready), h⟩
    · exact fun w hc h => ⟨hc, retreating_restored he h.1⟩
  refine Triple.attempt (Triple.then_ (hloop.strengthen ?_) (Triple.pure ?_)) (fun f => ?_)
  · exact fun w h => ⟨h, fun e he => by cases he⟩
  · rintro w ⟨h, hold⟩
    exact ⟨h, Or.inl ⟨rfl, fun e he => hold e (List.mem_reverse.mpr he)⟩⟩
  · split
    · exact Triple.pure (fun w h => ⟨h.2, Or.inr ⟨rfl, h.1⟩⟩)
    · exact Triple.raise (fun w h => h)

variable {n : FileName τ κ}

theorem allNew_setFile (hn : n.owner = some k) (h : AllNew w₀ all es w) :
    AllNew w₀ all es (setFile n none w) := by
  intro e he
  rw [setFile_files_of_ne _ _ _ (target_ne_artifact hn)]
  exact h e he

theorem underway_setFile {x : Option (Node ν)} (hn : n.owner = some k)
    (h : Underway inside w₀ all k es w) : Underway inside w₀ all k es (setFile n x w) where
  targets := h.targets
  distinct := h.distinct
  planned := h.planned
  apart m hm hne := by
    have hmn : m ≠ n := by
      rintro rfl
      exact hm hn
    rw [setFile_files_of_ne _ _ _ hmn]
    exact h.apart m hm hne

theorem discard_finished_triple (hk : ∀ p ∈ w₀.journals, p.1 ≠ k) :
    Triple calm (Finished inside w₀ all k es) (discard k es)
      (fun _ w => Finished inside w₀ all k es w ∧ w.journals = w₀.journals)
      (fun _ w => ¬ calm ∧ Finished inside w₀ all k es w)
      (fun w => ¬ calm ∧ Finished inside w₀ all k es w) := by
  apply discard_triple
  · intro e he n hn w h
    have ho := planned_owner (h.planned e he) n hn
    exact ⟨underway_setFile ho h.toUnderway, h.journals, allNew_setFile ho h.allNew, h.quiet⟩
  · intro w h
    have hj : (dropJournal k w).journals = w₀.journals := otherJournals_of_cons hk h.journals
    exact ⟨{ h with journals := Or.inl hj }, hj⟩
  · exact fun w hc h => ⟨hc, h⟩
  · exact fun w hc h => ⟨hc, h.1⟩

theorem retreating_cleaned (he : e ∈ es) (hn : n ∈ artifacts e)
    (h : Retreating inside w₀ all k es w ∧ AllOld w₀ es w) :
    Retreating inside w₀ all k es (setFile n none w) ∧ AllOld w₀ es (setFile n none w) := by
  have ho := planned_owner (h.1.planned e he) n hn
  have hold : AllOld w₀ es (setFile n none w) := by
    intro d hd
    rw [setFile_files_of_ne _ _ _ (target_ne_artifact ho)]
    exact h.2 d hd
  refine ⟨⟨underway_setFile ho h.1.toUnderway, h.1.journals, fun d hd hh => ?_,
    fun d hd => Or.inl (hold d hd)⟩, hold⟩
  by_cases hb : d.backup = n
  · exact Or.inr ⟨by rw [hb, setFile_files_self], hold d hd⟩
  · rw [setFile_files_of_ne _ _ _ hb, hold d hd]
    exact (h.1.undoable d hd hh).imp id (fun hu => ⟨hu.1, rfl⟩)

theorem untouched_of_old (h : Underway inside w₀ all k es w) (hold : AllOld w₀ es w)
    (hj : w'.journals = w₀.journals) (hf : w'.files = w.files) : Untouched w₀ k w' := by
  refine ⟨fun n hn => ?_, hj⟩
  rw [hf]
  by_cases hne : ∀ e ∈ es, n ≠ .target e.target
  · exact h.apart n hn hne
  push Not at hne
  obtain ⟨e, he, rfl⟩ := hne
  exact hold e he

theorem discard_back_triple (hk : ∀ p ∈ w₀.journals, p.1 ≠ k) :
    Triple calm (fun w => Retreating inside w₀ all k es w ∧ AllOld w₀ es w) (discard k es)
      (fun _ => Untouched w₀ k)
      (fun _ w => ¬ calm ∧ HeadsOld inside w₀ all k w)
      (fun w => ¬ calm ∧ HeadsOld inside w₀ all k w) := by
  apply discard_triple
  · exact fun e he n hn w h => retreating_cleaned he hn h
  · intro w h
    exact untouched_of_old h.1.toUnderway h.2 (otherJournals_of_cons hk (Or.inr h.1.journals)) rfl
  · exact fun w hc h => ⟨hc, Or.inr ⟨es, h.1⟩⟩
  · exact fun w hc h => ⟨hc, Or.inl h⟩

/-- What a commit that raised, or was cut off, leaves behind. -/
def Halfway (inside : τ → Bool) (w₀ : World τ κ ν) (all : List (FileMutation τ ν)) (k : κ)
    (w : World τ κ ν) : Prop :=
  HeadsOld inside w₀ all k w ∨ HeadsNew inside w₀ all k w ∧ k ∉ w.rolledBack

theorem halfway_of_ready (h : Ready inside w₀ all k es w) : Halfway inside w₀ all k w :=
  Or.inr ⟨⟨es, Or.inl h⟩, h.quiet⟩

theorem halfway_of_finished (h : Finished inside w₀ all k es w) : Halfway inside w₀ all k w :=
  Or.inr ⟨⟨es, Or.inr h⟩, h.quiet⟩

variable (hk : ∀ p ∈ w₀.journals, p.1 ≠ k)

include hk

theorem ready_of_preparing (h : Preparing inside w₀ all k all es w) :
    Ready inside w₀ all k es (putJournal k ⟨.prepared, es⟩ w) where
  targets := h.targets
  distinct := h.distinct
  planned := h.planned
  apart n hn _ := h.files n hn
  journals := putJournal_journals (j := ⟨.prepared, es⟩) hk (Or.inl h.journals)
  armed e he s hs := Or.inl (h.written e he s hs)
  backedUp := h.backedUp
  between e _ := Or.inl (h.files (.target e.target) (by simp [FileName.owner]))
  quiet := h.quiet

theorem finished_of_ready (h : Ready inside w₀ all k es w)
    (hnew : AllNew w₀ all es w) : Finished inside w₀ all k es (putJournal k ⟨.committed, es⟩ w) where
  toUnderway := ⟨h.targets, h.distinct, h.planned, h.apart⟩
  journals := Or.inr (putJournal_journals hk (Or.inr h.journals))
  allNew := hnew
  quiet := h.quiet

theorem openJournal_triple : Triple False (Preparing inside w₀ all k all es) (openJournal k es)
      (fun _ => Ready inside w₀ all k es) (fun _ => Abandoned w₀ k) (Abandoned w₀ k) := by
  refine Triple.assume (A := ∀ e ∈ es, Planned inside w₀ all k e) (fun w hw => hw.planned) ?_
  intro hplanned
  refine Triple.attempt (M := fun _ => Abandoned w₀ k) (Triple.atomically_exits ?_ ?_)
    (fun f => Triple.then_ (M := Abandoned w₀ k) (discard_triple ?_ ?_ ?_ ?_)
      (Triple.raise (fun _ h => h)))
  · exact fun w h => ready_of_preparing hk h
  · exact fun w _ h => ⟨h.toUntouched, h.quiet⟩
  · exact fun e he n hn w h => ⟨untouched_setFile (planned_owner (hplanned e he) n hn) h.1, h.2⟩
  · intro w h
    refine ⟨⟨h.1.files, ?_⟩, h.2⟩
    exact otherJournals_of_cons (j := ⟨.prepared, es⟩) hk (Or.inl h.1.journals)
  · exact fun w _ h => h
  · exact fun w _ h => h

theorem publish_triple (afterPublish : Bool) :
    Triple False (Ready inside w₀ all k es) (publish k es afterPublish)
      (fun _ => Finished inside w₀ all k es) (fun _ => Ready inside w₀ all k es)
      (Ready inside w₀ all k es) := by
  refine Triple.then_ ((publishEntries_triple hk).exits (fun _ h => h.2)) (Triple.then_
    (M := fun w => Ready inside w₀ all k es w ∧ AllNew w₀ all es w) (whenever_triple ?_ ?_)
    (Triple.atomically_exits ?_ ?_))
  · exact fun _ => checkpoint_triple (fun _ _ h => h.1)
  · exact fun _ _ h => h
  · exact fun w h => finished_of_ready hk h.1 h.2
  · exact fun w _ h => h.1

theorem rollBack_triple (f : Failure) : Triple False (Ready inside w₀ all k es) (rollBack k es f)
      (fun _ _ => False) (fun _ => Halfway inside w₀ all k) (Halfway inside w₀ all k) := by
  have hretreat : ∀ w, Retreating inside w₀ all k es w → Halfway inside w₀ all k w :=
    fun w h => Or.inl (Or.inr ⟨es, h⟩)
  refine Triple.then_ (M := Retreating inside w₀ all k es) (Triple.atomically_exits ?_ ?_)
    (Triple.bind (rollbackEntries_triple.exits (fun w h => hretreat w h.2)) (fun b => Triple.then_
      (M := Halfway inside w₀ all k) (whenever_triple ?_ ?_) (Triple.raise (fun _ h => h))))
  · intro w h
    refine ⟨⟨h.targets, h.distinct, h.planned, h.apart⟩, ?_, fun e he hh => ?_, h.between⟩
    · exact putJournal_journals hk (Or.inr h.journals)
    · exact Or.inl (h.backedUp e he hh)
  · exact fun w _ h => halfway_of_ready h
  · intro hb
    refine Triple.then_ (M := fun w => Retreating inside w₀ all k es w ∧ AllOld w₀ es w)
      (Triple.note ?_) (((discard_back_triple hk).exits (fun _ h => Or.inl h.2)).weaken
        (fun _ w h => Or.inl (Or.inl h)))
    rintro w ⟨h, hold | hold⟩
    · exact ⟨⟨⟨h.targets, h.distinct, h.planned, h.apart⟩, h.journals, h.undoable, h.between⟩, hold.2⟩
    · rw [hb] at hold
      cases hold.1
  · exact fun _ w h => hretreat w h.1

omit hk

variable (inside) in
theorem commit_triple (txn : FileTransaction τ ν) (afterPublish : Bool) :
    Triple False (fun w => w = w₀ ∧ Fresh k w₀) (commit inside txn k afterPublish)
      (fun _ w => ∃ es, Finished inside w₀ txn.mutations k es w)
      (fun _ => Halfway inside w₀ txn.mutations k) (Halfway inside w₀ txn.mutations k) := by
  refine Triple.assume (A := Fresh k w₀) (fun w hw => hw.2) (fun hfresh => ?_)
  have hk := hfresh.journal
  have hgive : ∀ w, Abandoned w₀ k w → Halfway inside w₀ txn.mutations k w :=
    fun w h => Or.inl (Or.inl h.1)
  have hstart : Abandoned w₀ k w₀ := ⟨⟨fun _ _ => rfl, rfl⟩, hfresh.rollback⟩
  refine Triple.then_ (checkpoint_triple ?_) (Triple.bind
    (M := fun es => Preparing inside w₀ txn.mutations k txn.mutations es) ?_ (fun es => ?_))
  · exact fun w _ h => hgive w (h.1 ▸ hstart)
  · have hall : txn.mutations = [] ++ txn.mutations := rfl
    refine ((prepareEntries_triple txn.mutations 0 hall).exits hgive).strengthen ?_
    rintro w ⟨rfl, -⟩
    refine ⟨⟨fun _ _ => rfl, rfl⟩, rfl, List.nodup_nil, ?_, ?_, ?_, ?_, hfresh.rollback⟩
    · exact fun e he => by cases he
    · exact fun e he => by cases he
    · exact fun e he => by cases he
    · exact fun n hn _ => hfresh.artifacts n hn
  · refine Triple.then_ ((openJournal_triple hk).exits hgive) (Triple.then_
      (M := Finished inside w₀ txn.mutations k es)
      (Triple.attempt ((publish_triple hk afterPublish).consequence (fun _ h => h)
        (fun _ _ h => h) (fun _ _ h => h) (fun _ h => halfway_of_ready h)) (fun f => ?_)) ?_)
    · split
      · exact Triple.raise (fun w h => halfway_of_ready h)
      · exact (rollBack_triple hk f).weaken (fun _ _ h => h.elim)
    · refine Triple.attempt ((discard_finished_triple hk).consequence (fun _ h => h)
        (fun _ w h => ⟨es, h.1⟩) (fun _ _ h => h.2) (fun _ h => halfway_of_finished h.2))
        (fun f => ?_)
      split
      · exact Triple.pure (fun w h => ⟨es, h⟩)
      · exact Triple.raise (fun w h => halfway_of_finished h)

end Kirara.FileCommits
