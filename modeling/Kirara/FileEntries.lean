import Kirara.FileTransactions

namespace Kirara.FileSteps

open Kirara.CrashHoare Kirara.FileTransactions

set_option linter.unusedSectionVars false

variable {τ κ ν : Type} [DecidableEq τ] [LinearOrder κ]

section Fields

variable (w : World τ κ ν) (n : FileName τ κ) (x : Option (Node ν)) (k : κ) (j : Journal τ κ)

@[simp] theorem setFile_files_self : (setFile n x w).files n = x := Function.update_self _ _ _

theorem setFile_files_of_ne {m : FileName τ κ} (h : m ≠ n) : (setFile n x w).files m = w.files m :=
  Function.update_of_ne h _ _

theorem isFile_iff : isFile w n = true ↔ ∃ v, w.files n = some (.file v) := by
  unfold isFile
  split <;> simp_all

end Fields

section Journals

variable (w : World τ κ ν) (k : κ) (j : Journal τ κ)

def otherJournals (w : World τ κ ν) (k : κ) : List (κ × Journal τ κ) :=
  w.journals.filter (fun p => p.1 ≠ k)

end Journals

variable {calm : Prop} {P Q E : World τ κ ν → Prop} {k : κ} {e : Entry τ κ}

theorem checkpoint_triple (he : ∀ w, ¬ calm → P w → E w) :
    Triple calm P checkpoint (fun _ => P) (fun _ => E) E :=
  Triple.atomically_exits (fun _ h => h) he

def published (e : Entry τ κ) (w : World τ κ ν) : World τ κ ν :=
  if e.delete then setFile (.target e.target) none w
  else
    match e.staged.filter (fileExists w) with
    | some staged => setFile staged none (setFile (.target e.target) (w.files staged) w)
    | none => w

def Publishable (e : Entry τ κ) (w : World τ κ ν) : Prop :=
  e.delete = true ∨ (e.staged.filter (fileExists w)).isSome = true ∨
    isFile w (.target e.target) = true

def restored (e : Entry τ κ) (w : World τ κ ν) : World τ κ ν :=
  if e.hadTarget then
    if fileExists w e.backup then
      setFile e.backup none (setFile (.target e.target) (w.files e.backup) w)
    else w
  else setFile (.target e.target) none w

def Restorable (e : Entry τ κ) (w : World τ κ ν) : Prop :=
  e.hadTarget = false ∨ fileExists w e.backup = true ∨ isFile w (.target e.target) = true

variable {w : World τ κ ν}

theorem setFile_none_of_absent {n : FileName τ κ} (h : fileExists w n = false) : setFile n none w = w := by
  have hn : w.files n = none := by simpa [fileExists] using h
  cases w
  simp only [setFile, World.mk.injEq, and_true]
  exact Function.update_eq_self_iff.mpr hn.symm

theorem whenever_unlink_triple {n : FileName τ κ} :
    Triple calm (fun s => s = w) (whenever (fileExists w n) (unlink n))
      (fun _ s => s = setFile n none w) (fun _ s => ¬ calm ∧ s = w) (fun s => ¬ calm ∧ s = w) := by
  unfold whenever
  split
  · exact Triple.atomically (fun s hs => by rw [hs]) (fun s _ hn hs => ⟨hn, hs⟩)
      (fun s hn hs => ⟨hn, hs⟩)
  · next h =>
    refine Triple.pure (fun s hs => ?_)
    rw [hs, setFile_none_of_absent (by simpa using h)]

theorem whenever_raise_triple {c : Bool} {f : Failure} : Triple calm (fun s => s = w) (whenever c (raise f))
      (fun _ s => s = w ∧ c = false) (fun _ s => s = w ∧ c = true) (fun s => ¬ calm ∧ s = w) := by
  unfold whenever
  cases c with
  | true => exact Triple.raise (fun s hs => ⟨hs, rfl⟩)
  | false => exact Triple.pure (fun s hs => ⟨hs, rfl⟩)

theorem publishTarget_triple :
    Triple calm (fun s => s = w) (publishTarget w .publishing e) (fun _ s => s = published e w)
      (fun _ s => (¬ calm ∨ ¬ Publishable e w) ∧ s = w) (fun s => ¬ calm ∧ s = w) := by
  unfold publishTarget published
  by_cases hd : e.delete = true
  · rw [if_pos hd, if_pos hd]
    exact whenever_unlink_triple.consequence (fun _ h => h) (fun _ _ h => h)
      (fun _ s h => ⟨Or.inl h.1, h.2⟩) (fun _ h => h)
  rw [if_neg hd, if_neg hd]
  cases hs : e.staged.filter (fileExists w) with
  | some staged =>
    exact Triple.atomically (fun s hs => by rw [hs]) (fun s _ hn hs => ⟨Or.inl hn, hs⟩)
      (fun s hn hs => ⟨hn, hs⟩)
  | none =>
    rw [if_neg (by decide)]
    refine whenever_raise_triple.consequence (fun _ h => h) (fun _ s h => h.1) (fun _ s h => ?_)
      (fun _ h => h)
    refine ⟨Or.inr ?_, h.1⟩
    rintro (hp | hp | hp)
    · exact hd hp
    · rw [hs] at hp
      cases hp
    · have hm := h.2
      rw [hp] at hm
      cases hm

theorem rollbackTarget_triple : Triple calm (fun s => s = w) (rollbackTarget w e) (fun _ s => s = restored e w)
      (fun _ s => (¬ calm ∨ ¬ Restorable e w) ∧ s = w) (fun s => ¬ calm ∧ s = w) := by
  unfold rollbackTarget restored
  by_cases hh : e.hadTarget = true
  · rw [if_pos hh, if_pos hh]
    by_cases hb : fileExists w e.backup = true
    · rw [if_pos hb, if_pos hb]
      exact Triple.atomically (fun s hs => by rw [hs]) (fun s _ hn hs => ⟨Or.inl hn, hs⟩)
        (fun s hn hs => ⟨hn, hs⟩)
    · rw [if_neg hb, if_neg hb]
      refine whenever_raise_triple.consequence (fun _ h => h) (fun _ s h => h.1) (fun _ s h => ?_)
        (fun _ h => h)
      refine ⟨Or.inr ?_, h.1⟩
      rintro (hp | hp | hp)
      · rw [hh] at hp
        cases hp
      · exact hb hp
      · have hm := h.2
        rw [hp] at hm
        cases hm
  · rw [if_neg hh, if_neg hh]
    exact whenever_unlink_triple.consequence (fun _ h => h) (fun _ _ h => h)
      (fun _ s h => ⟨Or.inl h.1, h.2⟩) (fun _ h => h)

theorem entryStep_triple {p : World τ κ ν → Action τ κ ν Unit} {f : World τ κ ν → World τ κ ν}
    {G : World τ κ ν → Prop} (hp : ∀ w, Triple calm (fun s => s = w) (p w) (fun _ s => s = f w)
      (fun _ s => (¬ calm ∨ ¬ G w) ∧ s = w) (fun s => ¬ calm ∧ s = w))
    (hq : ∀ w, P w → Q (f w)) (hstay : ∀ w, ¬ calm ∨ ¬ G w → P w → E w)
    (hmove : ∀ w, ¬ calm → P w → E (f w)) :
    Triple calm P (readState >>= fun w => p w >>= fun _ => checkpoint) (fun _ => Q)
      (fun _ => E) E := by
  refine Triple.readState (fun w hw => Triple.then_ (M := fun s => s = f w) ?_ ?_)
  · exact (hp w).consequence (fun _ h => h) (fun _ _ h => h)
      (fun _ s h => h.2 ▸ hstay w h.1 hw) (fun s h => h.2 ▸ hstay w (Or.inl h.1) hw)
  · refine (checkpoint_triple ?_).weaken ?_
    · exact fun s hn hs => hs ▸ hmove w hn hw
    · exact fun _ s hs => hs ▸ hq w hw

theorem publishEntry_triple (hq : ∀ w, P w → Q (published e w))
    (hstay : ∀ w, ¬ calm ∨ ¬ Publishable e w → P w → E w) (hmove : ∀ w, ¬ calm → P w → E (published e w)) :
    Triple calm P (publishEntry .publishing e) (fun _ => Q) (fun _ => E) E :=
  entryStep_triple (fun _ => publishTarget_triple) hq hstay hmove

theorem rollbackEntry_triple (hq : ∀ w, P w → Q (restored e w))
    (hstay : ∀ w, ¬ calm ∨ ¬ Restorable e w → P w → E w) (hmove : ∀ w, ¬ calm → P w → E (restored e w)) :
    Triple calm P (rollbackEntry e) (fun _ => Q) (fun _ => E) E :=
  entryStep_triple (fun _ => rollbackTarget_triple) hq hstay hmove

def artifacts (e : Entry τ κ) : List (FileName τ κ) := e.staged.toList ++ [e.backup]

theorem cleanupEntries_triple (entries : List (Entry τ κ))
    (hP : ∀ e ∈ entries, ∀ n ∈ artifacts e, ∀ w, P w → P (setFile n none w)) :
    Triple calm P (cleanupEntries entries) (fun _ => P) (fun _ w => ¬ calm ∧ P w)
      (fun w => ¬ calm ∧ P w) := by
  have hunlink : ∀ n, (∀ w, P w → P (setFile n none w)) →
      Triple calm P (unlink n) (fun _ => P) (fun _ w => ¬ calm ∧ P w) (fun w => ¬ calm ∧ P w) :=
    fun n hn => Triple.atomically_exits hn (fun _ hc hw => ⟨hc, hw⟩)
  refine Triple.forEach (fun _ => P) entries (fun done e rest hl => ?_)
  have he : e ∈ entries := by
    rw [hl]
    exact List.mem_append_right _ List.mem_cons_self
  refine Triple.then_ ?_ (hunlink e.backup (hP e he _ (by simp [artifacts])))
  cases hs : e.staged with
  | none => exact Triple.pure (fun _ h => h)
  | some n => exact hunlink n (hP e he n (by simp [artifacts, hs]))

theorem discard_triple {entries : List (Entry τ κ)}
    (hclean : ∀ e ∈ entries, ∀ n ∈ artifacts e, ∀ w, P w → P (setFile n none w))
    (hdrop : ∀ w, P w → Q (dropJournal k w)) (hp : ∀ w, ¬ calm → P w → E w) (hq : ∀ w, ¬ calm → Q w → E w) :
    Triple calm P (discard k entries) (fun _ => Q) (fun _ => E) E := by
  refine Triple.then_ ((cleanupEntries_triple entries hclean).exits ?_)
    (Triple.then_ (Triple.atomically_exits hdrop hp) (checkpoint_triple hq))
  exact fun w h => hp w h.1 h.2

end Kirara.FileSteps

namespace Kirara.FileEntries

open Kirara.CrashHoare Kirara.FileTransactions Kirara.FileSteps

set_option linter.unusedSectionVars false

variable {τ κ ν : Type} [DecidableEq τ] [LinearOrder κ]

def wanted (w₀ : World τ κ ν) (ms : List (FileMutation τ ν)) (t : τ) : Option (Node ν) :=
  match ms.find? (fun m => m.target = t) with
  | some m => m.outcome
  | none => w₀.files (.target t)

/-- No file, journal or rollback of the transaction id is there yet. -/
structure Fresh (k : κ) (w : World τ κ ν) : Prop where
  artifacts : ∀ n : FileName τ κ, n.owner = some k → w.files n = none
  journal : ∀ p ∈ w.journals, p.1 ≠ k
  rollback : k ∉ w.rolledBack

variable (inside : τ → Bool) (w₀ : World τ κ ν) (ms : List (FileMutation τ ν)) (k : κ)

/-- An entry of the transaction as it was planned in the world `w₀`. -/
structure Planned (e : Entry τ κ) : Prop where
  inside : inside e.target = true
  regular : w₀.files (.target e.target) ≠ some .directory
  hadTarget : e.hadTarget = isFile w₀ (.target e.target)
  backup : e.backup.base = e.target ∧ e.backup.owner = some k
  deletes : e.delete = true → e.staged = none ∧ wanted w₀ ms e.target = none
  writes : e.delete = false → ∃ s v, e.staged = some s ∧ s.base = e.target ∧ s.owner = some k ∧
    s ≠ e.backup ∧ wanted w₀ ms e.target = some (.file v)

/-- The new content is in the staged file, or it was moved to the target already. -/
def Armed (w : World τ κ ν) (e : Entry τ κ) : Prop :=
  ∀ s ∈ e.staged, w.files s = wanted w₀ ms e.target ∨
    w.files s = none ∧ w.files (.target e.target) = wanted w₀ ms e.target

def BackedUp (w : World τ κ ν) (e : Entry τ κ) : Prop :=
  e.hadTarget = true → w.files e.backup = w₀.files (.target e.target)

/-- The old content is in the backup, or it was moved back to the target already. -/
def Undoable (w : World τ κ ν) (e : Entry τ κ) : Prop :=
  e.hadTarget = true → w.files e.backup = w₀.files (.target e.target) ∨
    w.files e.backup = none ∧ w.files (.target e.target) = w₀.files (.target e.target)

/-- The target has its old or its new content. -/
def Between (w : World τ κ ν) (e : Entry τ κ) : Prop :=
  w.files (.target e.target) = w₀.files (.target e.target) ∨
    w.files (.target e.target) = wanted w₀ ms e.target

/-- The files beside other targets are the same in both worlds. -/
def SameBut (t : τ) (w w' : World τ κ ν) : Prop :=
  ∀ n : FileName τ κ, n.base ≠ t → w'.files n = w.files n

variable {inside w₀ ms k} {w w' : World τ κ ν} {e d : Entry τ κ}

theorem target_regular (he : Planned inside w₀ ms k e) :
    e.hadTarget = false → w₀.files (.target e.target) = none := by
  intro hh
  rw [he.hadTarget] at hh
  cases hf : w₀.files (.target e.target) with
  | none => rfl
  | some n =>
    cases n with
    | file v => simp [isFile, hf] at hh
    | directory => exact absurd hf he.regular

variable {n : FileName τ κ}

theorem sameBut_setFile {x : Option (Node ν)} : SameBut n.base w (setFile n x w) := by
  intro m hm
  exact setFile_files_of_ne w n x (fun h => hm (by rw [h]))

variable {t : τ}

theorem sameBut_trans {w₁ w₂ w₃ : World τ κ ν} (h : SameBut t w₁ w₂) (h' : SameBut t w₂ w₃) : SameBut t w₁ w₃ :=
  fun n hn => (h' n hn).trans (h n hn)

variable (he : Planned inside w₀ ms k e)

include he

theorem staged_base : ∀ s ∈ e.staged,
    s.base = e.target ∧ s.owner = some k ∧ s ≠ e.backup := by
  intro s hs
  cases hd : e.delete with
  | true =>
    rw [(he.deletes hd).1] at hs
    cases hs
  | false =>
    obtain ⟨s', v, hs', hb, ho, hne, -⟩ := he.writes hd
    rw [hs'] at hs
    cases hs
    exact ⟨hb, ho, hne⟩

theorem published_sameBut : SameBut e.target w (published e w) := by
  unfold published
  split
  · exact sameBut_setFile (n := .target e.target)
  split
  · next s hs =>
    have hb := (staged_base he s (Option.mem_filter_iff.mp hs).1).1
    exact sameBut_trans (sameBut_setFile (n := .target e.target)) (hb ▸ sameBut_setFile)
  · exact fun _ _ => rfl

theorem restored_sameBut : SameBut e.target w (restored e w) := by
  unfold restored
  split
  · split
    · exact sameBut_trans (sameBut_setFile (n := .target e.target)) (he.backup.1 ▸ sameBut_setFile)
    · exact fun _ _ => rfl
  · exact sameBut_setFile (n := .target e.target)

omit he

theorem target_ne_artifact (hn : n.owner = some k) : (FileName.target t : FileName τ κ) ≠ n := by
  rintro rfl
  cases hn

variable (he : Planned inside w₀ ms k e)

include he

variable (ht : e.target ≠ t)

include ht

theorem entry_frame
    (h : SameBut t w w') : (w'.files (.target e.target) = w.files (.target e.target)) ∧
      w'.files e.backup = w.files e.backup ∧ ∀ s ∈ e.staged, w'.files s = w.files s := by
  refine ⟨h _ ht, h _ (by rwa [he.backup.1]), fun s hs => h _ ?_⟩
  rwa [(staged_base he s hs).1]

theorem armed_frame (h : SameBut t w w') (ha : Armed w₀ ms w e) : Armed w₀ ms w' e := by
  obtain ⟨h1, -, h3⟩ := entry_frame he ht h
  intro s hs
  rw [h3 s hs, h1]
  exact ha s hs

theorem backedUp_frame (h : SameBut t w w') (hb : BackedUp w₀ w e) : BackedUp w₀ w' e := by
  intro hh
  rw [(entry_frame he ht h).2.1]
  exact hb hh

theorem undoable_frame (h : SameBut t w w') (hu : Undoable w₀ w e) : Undoable w₀ w' e := by
  obtain ⟨h1, h2, -⟩ := entry_frame he ht h
  intro hh
  rw [h2, h1]
  exact hu hh

theorem between_frame
    (h : SameBut t w w') (hb : Between w₀ ms w e) : Between w₀ ms w' e := by
  unfold Between
  rw [(entry_frame he ht h).1]
  exact hb

omit ht

theorem publishable_of_armed (ha : Armed w₀ ms w e) : Publishable e w := by
  cases hd : e.delete with
  | true => exact Or.inl hd
  | false =>
    obtain ⟨s, v, hs, -, -, -, hv⟩ := he.writes hd
    cases ha s hs with
    | inl h =>
      rw [hv] at h
      exact Or.inr (Or.inl (by simp [hs, fileExists, h]))
    | inr h => exact Or.inr (Or.inr ((isFile_iff _ _).mpr ⟨v, h.2.trans hv⟩))

theorem published_armed (ha : Armed w₀ ms w e) :
    (published e w).files (.target e.target) = wanted w₀ ms e.target ∧
      Armed w₀ ms (published e w) e ∧ (published e w).files e.backup = w.files e.backup := by
  unfold published
  cases hd : e.delete with
  | true =>
    obtain ⟨hs, hw⟩ := he.deletes hd
    rw [if_pos rfl, setFile_files_self, hw]
    refine ⟨rfl, ?_, ?_⟩
    · intro s hs'
      rw [hs] at hs'
      cases hs'
    · exact setFile_files_of_ne _ _ _ (Ne.symm (target_ne_artifact he.backup.2))
  | false =>
    obtain ⟨s, v, hs, -, hso, hne, hv⟩ := he.writes hd
    rw [if_neg (by decide), hs]
    cases ha s hs with
    | inl h =>
      have hx : fileExists w s = true := by simp [fileExists, h, hv]
      rw [Option.filter_some, if_pos hx]
      dsimp only
      rw [setFile_files_of_ne _ _ _ (target_ne_artifact hso), setFile_files_self, h]
      refine ⟨rfl, ?_, ?_⟩
      · intro s' hs'
        rw [hs] at hs'
        cases hs'
        rw [setFile_files_self, setFile_files_of_ne _ _ _ (target_ne_artifact hso), setFile_files_self]
        exact Or.inr ⟨rfl, rfl⟩
      · rw [setFile_files_of_ne _ _ _ (Ne.symm hne),
          setFile_files_of_ne _ _ _ (Ne.symm (target_ne_artifact he.backup.2))]
    | inr h =>
      have hx : fileExists w s = false := by simp [fileExists, h.1]
      rw [Option.filter_some, if_neg (by rw [hx]; decide)]
      exact ⟨h.2, ha, rfl⟩

theorem restorable_of_undoable (hu : Undoable w₀ w e) : Restorable e w := by
  cases hh : e.hadTarget with
  | false => exact Or.inl hh
  | true =>
    obtain ⟨v, hv⟩ := (isFile_iff w₀ _).mp (he.hadTarget ▸ hh)
    cases hu hh with
    | inl h => exact Or.inr (Or.inl (by simp [fileExists, h, hv]))
    | inr h => exact Or.inr (Or.inr ((isFile_iff _ _).mpr ⟨v, h.2.trans hv⟩))

theorem restored_undoable (hu : Undoable w₀ w e) :
    (restored e w).files (.target e.target) = w₀.files (.target e.target) ∧
      Undoable w₀ (restored e w) e := by
  unfold restored
  cases hh : e.hadTarget with
  | false =>
    rw [if_neg (by decide), setFile_files_self]
    exact ⟨(target_regular he hh).symm, fun h => by rw [hh] at h; cases h⟩
  | true =>
    obtain ⟨v, hv⟩ := (isFile_iff w₀ _).mp (he.hadTarget ▸ hh)
    have hne := target_ne_artifact (t := e.target) he.backup.2
    rw [if_pos rfl]
    cases hu hh with
    | inl h =>
      have hx : fileExists w e.backup = true := by simp [fileExists, h, hv]
      rw [if_pos hx, setFile_files_of_ne _ _ _ hne, setFile_files_self, h]
      refine ⟨rfl, fun _ => Or.inr ⟨setFile_files_self _ _ _, ?_⟩⟩
      rw [setFile_files_of_ne _ _ _ hne, setFile_files_self]
    | inr h =>
      have hx : fileExists w e.backup = false := by simp [fileExists, h.1]
      rw [if_neg (by rw [hx]; decide)]
      exact ⟨h.2, hu⟩

theorem published_elsewhere
    (ho : n.owner ≠ some k) (hn : n ≠ .target e.target) : (published e w).files n = w.files n := by
  unfold published
  split
  · exact setFile_files_of_ne _ _ _ hn
  split
  · next s hs =>
    have hns : n ≠ s := by
      rintro rfl
      exact ho (staged_base he n (Option.mem_filter_iff.mp hs).1).2.1
    rw [setFile_files_of_ne _ _ _ hns, setFile_files_of_ne _ _ _ hn]
  · rfl

theorem restored_elsewhere
    (ho : n.owner ≠ some k) (hn : n ≠ .target e.target) : (restored e w).files n = w.files n := by
  unfold restored
  split
  · split
    · have hnb : n ≠ e.backup := by
        rintro rfl
        exact ho he.backup.2
      rw [setFile_files_of_ne _ _ _ hnb, setFile_files_of_ne _ _ _ hn]
    · rfl
  · exact setFile_files_of_ne _ _ _ hn

omit he

theorem published_journals : (published e w).journals = w.journals ∧
    (published e w).rolledBack = w.rolledBack := by
  unfold published
  split
  · exact ⟨rfl, rfl⟩
  split <;> exact ⟨rfl, rfl⟩

theorem restored_journals : (restored e w).journals = w.journals ∧
    (restored e w).rolledBack = w.rolledBack := by
  unfold restored
  split
  · split <;> exact ⟨rfl, rfl⟩
  · exact ⟨rfl, rfl⟩

end Kirara.FileEntries
