import Kirara.FileEntries

namespace Kirara.FilePreparation

open Kirara.CrashHoare Kirara.FileTransactions Kirara.FileSteps Kirara.FileEntries

set_option linter.unusedSectionVars false

variable {τ κ ν : Type} [DecidableEq τ] [LinearOrder κ]

/-- The world is what it was before the transaction, up to the artifacts. -/
structure Untouched (w₀ : World τ κ ν) (k : κ) (w : World τ κ ν) : Prop where
  files : ∀ n : FileName τ κ, n.owner ≠ some k → w.files n = w₀.files n
  journals : w.journals = w₀.journals

def Abandoned (w₀ : World τ κ ν) (k : κ) (w : World τ κ ν) : Prop :=
  Untouched w₀ k w ∧ k ∉ w.rolledBack

/-- The mutations in `done` have been prepared as the entries `es`. -/
structure Preparing (inside : τ → Bool) (w₀ : World τ κ ν) (all : List (FileMutation τ ν)) (k : κ)
    (done : List (FileMutation τ ν)) (es : List (Entry τ κ)) (w : World τ κ ν) : Prop
    extends Untouched w₀ k w where
  targets : es.map Entry.target = done.map FileMutation.target
  distinct : (es.map Entry.target).Nodup
  planned : ∀ e ∈ es, Planned inside w₀ all k e
  written : ∀ e ∈ es, ∀ s ∈ e.staged, w.files s = wanted w₀ all e.target
  backedUp : ∀ e ∈ es, BackedUp w₀ w e
  clear : ∀ n : FileName τ κ, n.owner = some k → n.base ∉ es.map Entry.target → w.files n = none
  quiet : k ∉ w.rolledBack

/-- The worlds differ in artifacts beside one target only. -/
structure Beside (k : κ) (t : τ) (w w' : World τ κ ν) : Prop where
  files : ∀ n : FileName τ κ, n.base ≠ t ∨ n.owner ≠ some k → w'.files n = w.files n
  journals : w'.journals = w.journals
  rolledBack : w'.rolledBack = w.rolledBack

variable {calm : Prop} {P : World τ κ ν → Prop} {Q : Unit → World τ κ ν → Prop}
  {R : Failure → World τ κ ν → Prop} {C : World τ κ ν → Prop}

theorem whenever_triple {c : Bool} {p : Action τ κ ν Unit}
    (hp : c = true → Triple calm P p Q R C) (hn : c = false → ∀ w, P w → Q () w) :
    Triple calm P (whenever c p) Q R C := by
  unfold whenever
  cases c with
  | true => exact hp rfl
  | false => exact Triple.pure (hn rfl)

variable {inside : τ → Bool} {w₀ w w' : World τ κ ν} {all done : List (FileMutation τ ν)} {k : κ}
  {es : List (Entry τ κ)} {m : FileMutation τ ν} {e : Entry τ κ} {t : τ} {n : FileName τ κ}

theorem untouched_setFile (hn : n.owner = some k) {x : Option (Node ν)} (h : Untouched w₀ k w) :
    Untouched w₀ k (setFile n x w) where
  files m hm := by
    have hmn : m ≠ n := by
      rintro rfl
      exact hm hn
    rw [setFile_files_of_ne _ _ _ hmn]
    exact h.files m hm
  journals := h.journals

theorem beside_refl : Beside k t w w := ⟨fun _ _ => rfl, rfl, rfl⟩

theorem beside_setFile (hb : n.base = t) (hn : n.owner = some k) {x : Option (Node ν)}
    (h : Beside k t w w') : Beside k t w (setFile n x w') where
  files m hm := by
    have hmn : m ≠ n := by
      rintro rfl
      cases hm with
      | inl hm => exact hm hb
      | inr hm => exact hm hn
    rw [setFile_files_of_ne _ _ _ hmn]
    exact h.files m hm
  journals := h.journals
  rolledBack := h.rolledBack

theorem beside_leaveBehind (hb : n.base = t) (hn : n.owner = some k) {left : Option ν}
    (h : Beside k t w w') : Beside k t w (leaveBehind n left w') := by
  cases left with
  | none => exact h
  | some v => exact beside_setFile hb hn h

theorem abandoned_of_beside (h : Preparing inside w₀ all k done es w) (hw : Beside k t w w') :
    Abandoned w₀ k w' := by
  refine ⟨⟨fun n hn => ?_, hw.journals.trans h.journals⟩, ?_⟩
  · exact (hw.files n (Or.inr hn)).trans (h.files n hn)
  · rw [hw.rolledBack]
    exact h.quiet

variable {index : Nat}

theorem plannedEntry_owner {hadTarget : Bool} :
    ∀ n ∈ artifacts (plannedEntry k index m hadTarget), n.owner = some k := by
  intro n hn
  cases m <;> simp [artifacts, plannedEntry, FileMutation.delete] at hn
  · cases hn with
    | inl h => rw [h]; rfl
    | inr h => rw [h]; rfl
  · rw [hn]
    rfl

theorem planned_owner (he : Planned inside w₀ all k e) : ∀ n ∈ artifacts e, n.owner = some k := by
  intro n hn
  cases List.mem_append.mp hn with
  | inl h => exact (staged_base he n (Option.mem_toList.mp h)).2.1
  | inr h =>
    rw [List.mem_singleton.mp h]
    exact he.backup.2

theorem cleaningUp_triple {α : Type} {p : Action τ κ ν α} {Q : α → World τ κ ν → Prop}
    (hes : ∀ e ∈ es, ∀ n ∈ artifacts e, n.owner = some k)
    (hp : Triple False P p Q (fun _ => Abandoned w₀ k) (Abandoned w₀ k)) :
    Triple False P (cleaningUp es p) Q (fun _ => Abandoned w₀ k) (Abandoned w₀ k) := by
  refine Triple.attempt hp (fun f => Triple.then_ (M := Abandoned w₀ k)
    ((cleanupEntries_triple es ?_).exits (fun _ h => h.2)) (Triple.raise (fun _ h => h)))
  exact fun e he n hn w hw => ⟨untouched_setFile (hes e he n hn) hw.1, hw.2⟩

theorem checkMutation_triple : Triple False (Preparing inside w₀ all k done es)
      (checkMutation inside m (es.map Entry.target))
      (fun b w => Preparing inside w₀ all k done es w ∧ inside m.target = true ∧
        m.target ∉ es.map Entry.target ∧ w₀.files (.target m.target) ≠ some .directory ∧
        b = isFile w₀ (.target m.target))
      (fun _ => Abandoned w₀ k) (Abandoned w₀ k) := by
  have hgive : ∀ w, Preparing inside w₀ all k done es w → Abandoned w₀ k w :=
    fun w h => abandoned_of_beside h (beside_refl (t := m.target))
  unfold checkMutation
  by_cases hi : inside m.target = true
  swap
  · rw [if_pos (by simp [hi])]
    exact Triple.raise hgive
  rw [if_neg (by simp [hi])]
  by_cases ht : m.target ∈ es.map Entry.target
  · rw [if_pos ht]
    exact Triple.raise hgive
  rw [if_neg ht]
  refine Triple.then_ (checkpoint_triple (fun w _ => hgive w)) (Triple.readState (fun w hw => ?_))
  have hsame : w.files (.target m.target) = w₀.files (.target m.target) :=
    hw.files _ (by simp [FileName.owner])
  split
  · exact Triple.raise (fun s hs => hs ▸ hgive w hw)
  · next hreg =>
    refine Triple.pure (fun s hs => ?_)
    rw [hs]
    refine ⟨hw, hi, ht, ?_, ?_⟩
    · intro hd
      apply hreg
      simp [fileExists, isFile, hsame, hd]
    · simp [isFile, hsame]

variable {ms : List (FileMutation τ ν)}

theorem preparing_append (hall : all = done ++ m :: ms)
    (hi : inside m.target = true) (ht : m.target ∉ es.map Entry.target)
    (hr : w₀.files (.target m.target) ≠ some .directory)
    (he : e = plannedEntry k index m (isFile w₀ (.target m.target)))
    (h : Preparing inside w₀ all k done es w) (hw : Beside k m.target w w') (hb : BackedUp w₀ w' e)
    (hs : ∀ s ∈ e.staged, ∃ v, m.outcome = some (.file v) ∧ w'.files s = some (.file v)) :
    Preparing inside w₀ all k (done ++ [m]) (es ++ [e]) w' := by
  have hwanted : wanted w₀ all m.target = m.outcome := by
    have hnone : done.find? (fun d => d.target = m.target) = none := by
      rw [List.find?_eq_none]
      intro d hd hdt
      apply ht
      rw [h.targets, ← of_decide_eq_true hdt]
      exact List.mem_map_of_mem hd
    simp [wanted, hall, List.find?_append, hnone]
  have htarget : e.target = m.target := by rw [he]; rfl
  have hother : ∀ d ∈ es, d.target ≠ m.target := by
    intro d hd hdt
    exact ht (hdt ▸ List.mem_map_of_mem hd)
  have hsame : SameBut m.target w w' := fun n hn => hw.files n (Or.inl hn)
  have hplanned : Planned inside w₀ all k e := by
    refine ⟨htarget ▸ hi, htarget ▸ hr, by rw [he]; rfl, by rw [he]; exact ⟨rfl, rfl⟩, ?_, ?_⟩
    · intro hd
      rw [htarget, hwanted]
      cases m with
      | replace t writer => rw [he] at hd; cases hd
      | remove t => exact ⟨by rw [he]; rfl, rfl⟩
    · intro hd
      rw [htarget, hwanted]
      cases m with
      | replace t writer =>
        have hes : e.staged = some (.staged t k index) := by rw [he]; rfl
        obtain ⟨v, hv, -⟩ := hs _ hes
        exact ⟨_, v, hes, rfl, rfl, by rw [he]; rintro ⟨⟩, hv⟩
      | remove t => rw [he] at hd; cases hd
  constructor
  · exact (abandoned_of_beside h hw).1
  · rw [List.map_append, List.map_append, h.targets]
    simp [htarget]
  · rw [List.map_append]
    refine List.nodup_append.mpr ⟨h.distinct, by simp, ?_⟩
    intro a ha b hb' hab
    simp only [List.map_cons, List.map_nil, List.mem_singleton] at hb'
    rw [hab, hb', htarget] at ha
    exact ht ha
  · intro d hd
    cases List.mem_append.mp hd with
    | inl hd => exact h.planned d hd
    | inr hd => rwa [List.mem_singleton.mp hd]
  · intro d hd s hds
    cases List.mem_append.mp hd with
    | inl hd =>
      rw [(entry_frame (h.planned d hd) (hother d hd) hsame).2.2 s hds]
      exact h.written d hd s hds
    | inr hd =>
      rw [List.mem_singleton.mp hd] at hds ⊢
      obtain ⟨v, hv, hf⟩ := hs s hds
      rw [htarget, hwanted, hv, hf]
  · intro d hd
    cases List.mem_append.mp hd with
    | inl hd => exact backedUp_frame (h.planned d hd) (hother d hd) hsame (h.backedUp d hd)
    | inr hd => rwa [List.mem_singleton.mp hd]
  · intro n hn hbase
    simp only [List.map_append, List.map_cons, List.map_nil, List.mem_append, List.mem_singleton,
      not_or, htarget] at hbase
    rw [hw.files n (Or.inl hbase.2)]
    exact h.clear n hn hbase.1
  · rw [hw.rolledBack]
    exact h.quiet

theorem backUp_triple (he : e = plannedEntry k index m (isFile w₀ (.target m.target)))
    (ht : m.target ∉ es.map Entry.target) :
    Triple False (Preparing inside w₀ all k done es) (whenever e.hadTarget (backUp e))
      (fun _ w' => ∃ w, Preparing inside w₀ all k done es w ∧ Beside k m.target w w' ∧
        BackedUp w₀ w' e ∧ ∀ s ∈ e.staged, w'.files s = none)
      (fun _ => Abandoned w₀ k) (Abandoned w₀ k) := by
  have howner : ∀ n ∈ artifacts e, n.owner = some k := he ▸ plannedEntry_owner
  have hback : e.backup.owner = some k := howner _ (by simp [artifacts])
  have hbase : e.backup.base = m.target := by rw [he]; rfl
  have hstaged : ∀ s ∈ e.staged, s ≠ e.backup ∧ s.base = m.target := by
    intro s hs
    rw [he] at hs ⊢
    cases m with
    | replace t writer =>
      cases hs
      exact ⟨by rintro ⟨⟩, rfl⟩
    | remove t => cases hs
  have hclear : ∀ w, Preparing inside w₀ all k done es w → ∀ s ∈ e.staged, w.files s = none := by
    intro w hw s hs
    exact hw.clear s (howner s (by simp [artifacts, Option.mem_toList.mpr hs]))
      ((hstaged s hs).2 ▸ ht)
  apply whenever_triple
  · intro hh
    refine Triple.then_ (M := fun w' => ∃ w, Preparing inside w₀ all k done es w ∧
      Beside k m.target w w' ∧ BackedUp w₀ w' e ∧ ∀ s ∈ e.staged, w'.files s = none)
      (Triple.perform_exits ?_ ?_) (checkpoint_triple ?_)
    · intro w hw
      refine ⟨w, hw, beside_setFile hbase hback beside_refl, ?_, ?_⟩
      · intro _
        rw [setFile_files_self]
        exact hw.files _ (by simp [FileName.owner])
      · intro s hs
        rw [setFile_files_of_ne _ _ _ (hstaged s hs).1]
        exact hclear w hw s hs
    · exact fun w left _ hw => abandoned_of_beside hw (beside_leaveBehind hbase hback beside_refl)
    · rintro w' - ⟨w, hw, hb, -⟩
      exact abandoned_of_beside hw hb
  · intro hh w hw
    refine ⟨w, hw, beside_refl, fun h => ?_, hclear w hw⟩
    rw [hh] at h
    cases h

variable (inside all done es e) in
theorem stage_triple {s : FileName τ κ} {writer : Option ν} (hb : s.base = t) (ho : s.owner = some k) :
    Triple False (fun w' => ∃ w, Preparing inside w₀ all k done es w ∧ Beside k t w w' ∧
        BackedUp w₀ w' e ∧ s ≠ e.backup ∧ w'.files s = none) (stage s writer)
      (fun _ w' => ∃ w, Preparing inside w₀ all k done es w ∧ Beside k t w w' ∧
        BackedUp w₀ w' e ∧ ∃ v, writer = some v ∧ w'.files s = some (.file v))
      (fun _ => Abandoned w₀ k) (Abandoned w₀ k) := by
  refine Triple.then_ (M := fun w' => ∃ w, Preparing inside w₀ all k done es w ∧ Beside k t w w' ∧
    BackedUp w₀ w' e ∧ w'.files s = writer.map .file) (Triple.perform_exits ?_ ?_) ?_
  · rintro w' ⟨w, hw, hbe, hbu, hne, hs⟩
    refine ⟨w, hw, beside_leaveBehind hb ho hbe, ?_, ?_⟩
    · cases writer with
      | none => exact hbu
      | some v =>
        intro hh
        rw [leaveBehind, setFile_files_of_ne _ _ _ (Ne.symm hne)]
        exact hbu hh
    · cases writer with
      | none => exact hs
      | some v => exact setFile_files_self _ _ _
  · rintro w' left - ⟨w, hw, hbe, -⟩
    exact abandoned_of_beside hw (beside_leaveBehind hb ho hbe)
  · refine Triple.readState (fun w' => ?_)
    rintro ⟨w, hw, hbe, hbu, hs⟩
    have hgone : Abandoned w₀ k w' := abandoned_of_beside hw hbe
    refine Triple.then_ (M := fun u => u = w' ∧ isFile w' s = true) ?_
      ((checkpoint_triple (fun u _ h => h.1 ▸ hgone)).weaken ?_)
    · exact whenever_raise_triple.consequence (fun _ h => h) (fun _ u h => ⟨h.1, by simpa using h.2⟩)
        (fun _ u h => h.1 ▸ hgone) (fun u h => h.2 ▸ hgone)
    · rintro - u ⟨rfl, hf⟩
      refine ⟨w, hw, hbe, hbu, ?_⟩
      obtain ⟨v, hv⟩ := (isFile_iff _ _).mp hf
      rw [hs] at hv
      cases writer with
      | none => cases hv
      | some x => exact ⟨x, rfl, hs⟩

theorem stageMutation_triple (hall : all = done ++ m :: ms) (hi : inside m.target = true)
    (ht : m.target ∉ es.map Entry.target) (hr : w₀.files (.target m.target) ≠ some .directory)
    (he : e = plannedEntry k index m (isFile w₀ (.target m.target))) :
    Triple False (Preparing inside w₀ all k done es) (stageMutation m e)
      (fun _ => Preparing inside w₀ all k (done ++ [m]) (es ++ [e]))
      (fun _ => Abandoned w₀ k) (Abandoned w₀ k) := by
  have hstop : ∀ w, Preparing inside w₀ all k (done ++ [m]) (es ++ [e]) w → Abandoned w₀ k w :=
    fun w hw => abandoned_of_beside hw (beside_refl (t := m.target))
  refine Triple.then_ (backUp_triple he ht)
    (Triple.then_ ?_ (checkpoint_triple (fun w _ => hstop w)))
  have hjoin : ∀ w w', Preparing inside w₀ all k done es w → Beside k m.target w w' →
      BackedUp w₀ w' e →
      (∀ s ∈ e.staged, ∃ v, m.outcome = some (.file v) ∧ w'.files s = some (.file v)) →
      Preparing inside w₀ all k (done ++ [m]) (es ++ [e]) w' :=
    fun w w' hw hbe hbu hs => preparing_append hall hi ht hr he hw hbe hbu hs
  cases m with
  | remove t =>
    have hs : e.staged = none := by rw [he]; rfl
    have hf : stageFile (FileMutation.remove t) e = (pure () : Action τ κ ν Unit) := rfl
    rw [hf]
    apply Triple.pure
    rintro w' ⟨w, hw, hbe, hbu, -⟩
    apply hjoin w w' hw hbe hbu
    intro s hs'
    rw [hs] at hs'
    cases hs'
  | replace t writer =>
    have hs : e.staged = some (.staged t k index) := by rw [he]; rfl
    have hf : stageFile (FileMutation.replace t writer) e = stage (.staged t k index) writer := by
      simp [stageFile, hs]
    rw [hf]
    refine (stage_triple inside all done es e rfl rfl).consequence ?_ ?_ (fun _ _ h => h)
      (fun _ h => h)
    · rintro w' ⟨w, hw, hbe, hbu, hnone⟩
      exact ⟨w, hw, hbe, hbu, by rw [he]; rintro ⟨⟩, hnone _ hs⟩
    · rintro - w' ⟨w, hw, hbe, hbu, v, hv, hfile⟩
      apply hjoin w w' hw hbe hbu
      intro s hs'
      rw [hs] at hs'
      cases hs'
      exact ⟨v, by rw [hv]; rfl, hfile⟩

theorem prepareEntries_triple (ms : List (FileMutation τ ν)) (index : Nat) (hall : all = done ++ ms) :
    Triple False (Preparing inside w₀ all k done es) (prepareEntries inside k ms index es)
      (fun es' => Preparing inside w₀ all k all es') (fun _ => Abandoned w₀ k)
      (Abandoned w₀ k) := by
  induction ms generalizing done es index with
  | nil =>
    rw [List.append_nil] at hall
    exact Triple.pure (fun w hw => hall ▸ hw)
  | cons m ms ih =>
    refine Triple.assume (A := ∀ e ∈ es, Planned inside w₀ all k e) (fun w hw => hw.planned) ?_
    intro hplanned
    have howner : ∀ e ∈ es, ∀ n ∈ artifacts e, n.owner = some k :=
      fun e he => planned_owner (hplanned e he)
    refine Triple.bind (cleaningUp_triple howner checkMutation_triple) (fun hadTarget => ?_)
    refine Triple.assume (fun w hw => hw.2) ?_
    rintro ⟨hi, ht, hr, rfl⟩
    refine Triple.strengthen ?_ (fun w hw => hw.1)
    refine Triple.then_ (cleaningUp_triple ?_ (stageMutation_triple hall hi ht hr rfl)) ?_
    · intro e he
      cases List.mem_append.mp he with
      | inl he => exact howner e he
      | inr he =>
        rw [List.mem_singleton.mp he]
        exact plannedEntry_owner
    · apply ih
      rw [hall, List.append_assoc]
      rfl

end Kirara.FilePreparation
