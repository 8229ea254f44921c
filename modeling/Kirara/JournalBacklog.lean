import Kirara.FileRecovery

namespace Kirara.JournalBacklog

open Kirara.CrashHoare Kirara.FileTransactions Kirara.FileSteps Kirara.FilePreparation

set_option linter.unusedSectionVars false

variable {τ κ ν : Type} [DecidableEq τ] [LinearOrder κ]

/-- What recovery would still put at the target of an entry, if anything. -/
def pending (w : World τ κ ν) (state : JournalState) (e : Entry τ κ) : Option (Option (Node ν)) :=
  match state with
  | .prepared =>
    if e.delete then some none else (e.staged.filter (fileExists w)).map w.files
  | .rollingBack =>
    if e.hadTarget then (if fileExists w e.backup then some (w.files e.backup) else none)
    else some none
  | .committed => none

/-- The contents `track` allows are all that is there or in journals. -/
structure Kept (used : List κ) (track : τ → Option (List (Option (Node ν))))
    (w : World τ κ ν) : Prop where
  unused : ∀ n : FileName τ κ, ∀ k, n.owner = some k → k ∉ used → w.files n = none
  journals : ∀ p ∈ w.journals, p.1 ∈ used
  owned : ∀ p ∈ w.journals, ∀ e ∈ p.2.entries, ∀ n ∈ artifacts e, n.owner = some p.1
  found : ∀ t l, track t = some l → w.files (.target t) ∈ l
  backlog : ∀ t l, track t = some l → ∀ p ∈ w.journals, ∀ e ∈ p.2.entries, e.target = t →
    ∀ x ∈ pending w p.2.state e, x ∈ l

variable {inside : τ → Bool} {used : List κ} {track : τ → Option (List (Option (Node ν)))}
  {w w' : World τ κ ν} {k : κ} {j : Journal τ κ} {e : Entry τ κ} {n : FileName τ κ} {t : τ}
  {s : JournalState}

theorem mem_artifacts_staged {m : FileName τ κ} (h : e.staged = some m) : m ∈ artifacts e := by
  simp [artifacts, h]

theorem mem_artifacts_backup : e.backup ∈ artifacts e := by
  simp [artifacts]

theorem pending_anti (h : ∀ n ∈ artifacts e, w'.files n = w.files n ∨ w'.files n = none)
    {x : Option (Node ν)} (hx : x ∈ pending w' s e) : x ∈ pending w s e := by
  have hkeep : ∀ n ∈ artifacts e, fileExists w' n = true →
      w'.files n = w.files n ∧ fileExists w n = true := by
    intro n hn hex
    cases h n hn with
    | inl hs => exact ⟨hs, by rwa [fileExists, ← hs]⟩
    | inr hs => simp [fileExists, hs] at hex
  cases s with
  | committed => exact hx
  | prepared =>
    unfold pending at hx ⊢
    dsimp only at hx ⊢
    by_cases hd : e.delete = true
    · rw [if_pos hd] at hx ⊢
      exact hx
    · rw [if_neg hd] at hx ⊢
      obtain ⟨m, hm, rfl⟩ := Option.map_eq_some_iff.mp hx
      obtain ⟨hst, hex⟩ := Option.mem_filter_iff.mp hm
      obtain ⟨hsame, hex'⟩ := hkeep m (mem_artifacts_staged hst) hex
      exact Option.map_eq_some_iff.mpr ⟨m, Option.mem_filter_iff.mpr ⟨hst, hex'⟩, hsame.symm⟩
  | rollingBack =>
    unfold pending at hx ⊢
    dsimp only at hx ⊢
    by_cases hh : e.hadTarget = true
    · rw [if_pos hh] at hx ⊢
      by_cases hex : fileExists w' e.backup = true
      · obtain ⟨hsame, hex'⟩ := hkeep _ mem_artifacts_backup hex
        rw [if_pos hex, hsame] at hx
        rwa [if_pos hex']
      · rw [if_neg hex] at hx
        cases hx
    · rw [if_neg hh] at hx ⊢
      exact hx

theorem artifact_ne_target (hn : n.owner = some k) : n ≠ .target t := by
  rintro rfl
  cases hn

theorem kept_unlink (hn : n.owner = some k) (h : Kept used track w) : Kept used track (setFile n none w) where
  unused m k' hm hk' := by
    by_cases hmn : m = n
    · rw [hmn, setFile_files_self]
    · rw [setFile_files_of_ne _ _ _ hmn]
      exact h.unused m k' hm hk'
  journals := h.journals
  owned := h.owned
  found t l hl := by
    rw [setFile_files_of_ne _ _ _ (Ne.symm (artifact_ne_target hn))]
    exact h.found t l hl
  backlog t l hl p hp e he ht x hx := by
    apply h.backlog t l hl p hp e he ht
    apply pending_anti _ hx
    intro m hm
    by_cases hmn : m = n
    · exact Or.inr (by rw [hmn, setFile_files_self])
    · exact Or.inl (setFile_files_of_ne _ _ _ hmn)

theorem kept_setTarget {x : Option (Node ν)} (hx : ∀ l, track t = some l → x ∈ l)
    (h : Kept used track w) : Kept used track (setFile (.target t) x w) where
  unused m k' hm hk' := by
    rw [setFile_files_of_ne _ _ _ (artifact_ne_target hm)]
    exact h.unused m k' hm hk'
  journals := h.journals
  owned := h.owned
  found t' l hl := by
    by_cases htt : t' = t
    · rw [htt, setFile_files_self]
      exact hx l (htt ▸ hl)
    · rw [setFile_files_of_ne _ _ _ (by simpa using htt)]
      exact h.found t' l hl
  backlog t' l hl p hp e he ht y hy := by
    apply h.backlog t' l hl p hp e he ht
    apply pending_anti _ hy
    intro m hm
    exact Or.inl (setFile_files_of_ne _ _ _ (artifact_ne_target (h.owned p hp e he m hm)))

theorem kept_published (hj : (k, j) ∈ w.journals) (hs : j.state = .prepared) (he : e ∈ j.entries)
    (h : Kept used track w) : Kept used track (published e w) := by
  have hback : ∀ x ∈ pending w .prepared e, ∀ l, track e.target = some l → x ∈ l := by
    intro x hx l hl
    apply h.backlog e.target l hl (k, j) hj e he rfl
    rwa [hs]
  unfold published
  split
  · next hd => exact kept_setTarget (hback none (by simp [pending, hd])) h
  split
  · next hd _ m hm =>
    apply kept_unlink (h.owned _ hj e he m (mem_artifacts_staged (Option.mem_filter_iff.mp hm).1))
    apply kept_setTarget (hback _ _) h
    simp [pending, hd, hm]
  · exact h

theorem kept_restored (hj : (k, j) ∈ w.journals) (hs : j.state = .rollingBack)
    (he : e ∈ j.entries) (h : Kept used track w) : Kept used track (restored e w) := by
  have hback : ∀ x ∈ pending w .rollingBack e, ∀ l, track e.target = some l → x ∈ l := by
    intro x hx l hl
    apply h.backlog e.target l hl (k, j) hj e he rfl
    rwa [hs]
  unfold restored
  split
  · split
    · next hh hb =>
      apply kept_unlink (h.owned _ hj e he _ mem_artifacts_backup)
      apply kept_setTarget (hback _ _) h
      simp [pending, hh, hb]
    · exact h
  · next hh => exact kept_setTarget (hback none (by simp [pending, hh])) h

theorem kept_putJournal {j' : Journal τ κ} (hj : (k, j) ∈ w.journals)
    (he : j'.entries = j.entries) (hs : j'.state = j.state ∨ j'.state = .committed)
    (h : Kept used track w) : Kept used track (putJournal k j' w) := by
  have hmem : ∀ p ∈ (putJournal k j' w).journals, p = (k, j') ∨ p ∈ w.journals := by
    intro p hp
    cases List.mem_cons.mp hp with
    | inl hp => exact Or.inl hp
    | inr hp => exact Or.inr (List.mem_of_mem_filter hp)
  constructor
  · exact h.unused
  · intro p hp
    cases hmem p hp with
    | inl hp =>
      rw [hp]
      exact h.journals (k, j) hj
    | inr hp => exact h.journals p hp
  · intro p hp
    cases hmem p hp with
    | inl hp =>
      rw [hp]
      dsimp only
      rw [he]
      exact h.owned _ hj
    | inr hp => exact h.owned p hp
  · exact h.found
  · intro t l hl p hp e hep ht x hx
    cases hmem p hp with
    | inl hp =>
      rw [hp] at hep hx
      dsimp only at hep hx
      rw [he] at hep
      cases hs with
      | inl hs =>
        rw [hs] at hx
        exact h.backlog t l hl _ hj e hep ht x hx
      | inr hs =>
        rw [hs] at hx
        cases hx
    | inr hp => exact h.backlog t l hl p hp e hep ht x hx

theorem kept_dropJournal (h : Kept used track w) : Kept used track (dropJournal k w) where
  unused := h.unused
  journals p hp := h.journals p (List.mem_of_mem_filter hp)
  owned p hp := h.owned p (List.mem_of_mem_filter hp)
  found := h.found
  backlog t l hl p hp := h.backlog t l hl p (List.mem_of_mem_filter hp)

def Following (used : List κ) (track : τ → Option (List (Option (Node ν)))) (k : κ)
    (j : Journal τ κ) (w : World τ κ ν) : Prop :=
  Kept used track w ∧ (k, j) ∈ w.journals

theorem following_writeJournal_triple : Triple False (Following used track k j) (writeJournal k j)
      (fun _ => Following used track k j) (fun _ => Kept used track) (Kept used track) := by
  apply Triple.atomically_exits
  · exact fun w h => ⟨kept_putJournal h.2 rfl (Or.inl rfl) h.1, List.mem_cons_self⟩
  · exact fun w _ h => h.1

theorem redo_triple (hs : j.state = .prepared) :
    Triple False (Following used track k j) (redo k j) (fun _ => Kept used track)
      (fun _ => Kept used track) (Kept used track) := by
  have hfollow : ∀ e ∈ j.entries, ∀ w, Following used track k j w →
      Following used track k j (published e w) := by
    intro e he w h
    refine ⟨kept_published h.2 hs he h.1, ?_⟩
    rw [FileEntries.published_journals.1]
    exact h.2
  refine Triple.then_ (M := Following used track k j) ?_ (Triple.atomically_exits ?_ ?_)
  · apply Triple.forEach (fun _ => Following used track k j)
    intro done e rest hl
    have he : e ∈ j.entries := by
      rw [hl]
      exact List.mem_append_right _ List.mem_cons_self
    apply Triple.then_ following_writeJournal_triple
    refine Triple.then_ (publishEntry_triple ?_ ?_ ?_) following_writeJournal_triple
    · exact hfollow e he
    · exact fun w _ h => h.1
    · exact fun w _ h => (hfollow e he w h).1
  · exact fun w h => kept_putJournal h.2 rfl (Or.inr rfl) h.1
  · exact fun w _ h => h.1

theorem undo_triple (hs : j.state = .rollingBack) :
    Triple False (Following used track k j) (undo j.entries) (fun _ => Kept used track)
      (fun _ => Kept used track) (Kept used track) := by
  have hfollow : ∀ e ∈ j.entries, ∀ w, Following used track k j w →
      Following used track k j (restored e w) := by
    intro e he w h
    refine ⟨kept_restored h.2 hs he h.1, ?_⟩
    rw [FileEntries.restored_journals.1]
    exact h.2
  refine Triple.bind (M := fun _ => Kept used track) (Triple.attempt (M := fun _ => Kept used track)
    (Triple.then_ (M := Following used track k j) ?_ (Triple.pure (fun w h => h.1)))
    (fun f => ?_)) (fun b => whenever_triple (fun _ => Triple.raise (fun _ h => h))
      (fun _ _ h => h))
  · apply Triple.forEach (fun _ => Following used track k j)
    intro done e rest hl
    have he : e ∈ j.entries := by
      rw [← List.mem_reverse, hl]
      exact List.mem_append_right _ List.mem_cons_self
    apply rollbackEntry_triple
    · exact hfollow e he
    · exact fun w _ h => h.1
    · exact fun w _ h => (hfollow e he w h).1
  · split
    · exact Triple.pure (fun _ h => h)
    · exact Triple.raise (fun _ h => h)

theorem resolveJournal_triple :
    Triple False (Following used track k j) (resolveJournal k j) (fun _ => Kept used track)
      (fun _ => Kept used track) (Kept used track) := by
  unfold resolveJournal
  cases hs : j.state with
  | prepared => exact redo_triple hs
  | rollingBack => exact undo_triple hs
  | committed => exact Triple.pure (fun w h => h.1)

theorem kept_discard_triple {entries : List (Entry τ κ)}
    (ho : ∀ e ∈ entries, ∀ n ∈ artifacts e, n.owner = some k) :
    Triple False (Kept used track) (discard k entries) (fun _ => Kept used track)
      (fun _ => Kept used track) (Kept used track) := by
  apply discard_triple
  · exact fun e he n hn w h => kept_unlink (ho e he n hn) h
  · exact fun w h => kept_dropJournal h
  · exact fun _ _ h => h
  · exact fun _ _ h => h

theorem kept_recoverJournal_triple :
    Triple False (Kept used track) (recoverJournal inside k) (fun _ => Kept used track)
      (fun _ => Kept used track) (Kept used track) := by
  refine Triple.then_ (checkpoint_triple (fun _ _ h => h)) (Triple.readState (fun w hw => ?_))
  split
  · exact Triple.raise (fun s hs => hs ▸ hw)
  · next k' j hfind =>
    have hk : k' = k := by simpa using List.find?_some hfind
    have hj : (k, j) ∈ w.journals := hk ▸ List.mem_of_find?_eq_some hfind
    split
    · exact Triple.raise (fun s hs => hs ▸ hw)
    refine Triple.then_ (resolveJournal_triple.strengthen ?_)
      (kept_discard_triple (hw.owned _ hj))
    exact fun s hs => hs ▸ ⟨hw, hj⟩

theorem kept_recoverDirectory (h : Kept used track w) (fs : List (Fault (Option ν) Failure)) :
    Kept used track (recoverDirectory inside w fs).2.1 := by
  have hrun : Triple False (Kept used track) (recoverDirectory inside) (fun _ => Kept used track)
      (fun _ => Kept used track) (Kept used track) := by
    refine Triple.readState (fun w hw => ?_)
    refine (Triple.forEach (fun _ => Kept used track) _ ?_).strengthen (fun s hs => hs ▸ hw)
    exact fun _ k _ _ => kept_recoverJournal_triple
  exact hrun.ends h fs

end Kirara.JournalBacklog
