import Kirara.BackendSteps

namespace Kirara.BackendRuns

open Kirara.BackendEdits Kirara.BackendSteps Kirara.Channels Kirara.Fallible Kirara.Schedules
open Kirara.TimeoutBudgets (Floats Given LLMBackendConfig ModelItem Same document loadConfig modelValidate modelValidate_eq_ok
  nothing overlaid updatedBackend)

variable {α φ : Type} {N : Floats φ} {P : Plugins α} {s t : State α N} {n : Text}

section Documents

variable {e : Environment α φ} {data : List (Given (ModelItem α) α φ)} {b c c' : LLMBackendConfig α N}

theorem foldl_tryLoad (ns : List Text) : (ns.foldl (tryLoad P) s).apiBackends = s.apiBackends ∧
    ∀ m ∉ ns, (ns.foldl (tryLoad P) s).loaded m = s.loaded m := by
  induction ns generalizing s with
  | nil => exact ⟨rfl, fun m _ => rfl⟩
  | cons n ns ih =>
    obtain ⟨hbackends, hloaded⟩ := tryLoad_spec (P := P) (s := s) (n := n)
    obtain ⟨ihbackends, ihloaded⟩ := ih (s := tryLoad P s n)
    refine ⟨ihbackends.trans hbackends, fun m hm => ?_⟩
    obtain ⟨hmn, hmns⟩ := not_or.mp (fun h => hm (List.mem_cons.mpr h))
    rw [List.foldl_cons, ihloaded m hmns, hloaded, Function.update_of_ne hmn]

theorem loadEnabled_spec (bs : List (LLMBackendConfig α N)) : (loadEnabled e bs s).apiBackends = s.apiBackends ∧
    ∀ m, (∀ b ∈ bs, name b ≠ m) → (loadEnabled e bs s).loaded m = s.loaded m := by
  obtain ⟨hbackends, hloaded⟩ := foldl_tryLoad (P := e.plugins) (s := s) ((bs.filter enable).map name)
  refine ⟨hbackends, fun m hm => hloaded m (fun hmem => ?_)⟩
  obtain ⟨b, hb, hname⟩ := List.mem_map.mp hmem
  exact hm b (List.mem_of_mem_filter hb) hname

variable {bs : List (LLMBackendConfig α N)}

theorem validateEntries_spec {seen : List Text} (h : validateEntries N seen data = some bs) :
    (bs.map name).Nodup ∧ (∀ b ∈ bs, strip (name b) ∉ seen) ∧ ∀ b ∈ bs, ∃ d ∈ data, d.name = some (name b) := by
  induction data generalizing seen bs with
  | nil =>
    cases h
    exact ⟨List.nodup_nil, fun b hb => (nomatch hb), fun b hb => (nomatch hb)⟩
  | cons d ds ih =>
    rw [validateEntries] at h
    cases hd : modelValidate N d with
    | error x =>
      rw [hd] at h
      cases h
    | ok b =>
      rw [hd] at h
      dsimp only at h
      split at h
      · cases h
      · next hfresh =>
        obtain ⟨rest, hrest, rfl⟩ := Option.map_eq_some_iff.mp h
        obtain ⟨hnodup, hseen, hentries⟩ := ih hrest
        refine ⟨?_, fun c hc => ?_, fun c hc => ?_⟩
        · rw [List.map_cons, List.nodup_cons]
          refine ⟨fun hmem => ?_, hnodup⟩
          obtain ⟨c, hc, hname⟩ := List.mem_map.mp hmem
          exact hseen c hc (List.mem_cons.mpr (.inl (congrArg strip hname)))
        · cases List.mem_cons.mp hc with
          | inl hc => exact hc ▸ fun hmem => hfresh (.inr hmem)
          | inr hc => exact fun hmem => hseen c hc (List.mem_cons_of_mem _ hmem)
        · cases List.mem_cons.mp hc with
          | inl hc => exact ⟨d, List.mem_cons_self, hc ▸ name_of_validate hd⟩
          | inr hc =>
            obtain ⟨d', hd', hname⟩ := hentries c hc
            exact ⟨d', List.mem_cons_of_mem _ hd', hname⟩

variable {entries : Option (List (Given (ModelItem α) α φ))}

theorem validateBackendDocument_spec (h : validateBackendDocument N entries = some bs) :
    (bs.map name).Nodup ∧ ∀ b ∈ bs, ∃ ds ∈ entries, ∃ d ∈ ds, d.name = some (name b) := by
  cases entries with
  | none => cases h
  | some data =>
    cases data with
    | nil => cases h
    | cons d ds =>
      obtain ⟨hnodup, -, hentries⟩ := validateEntries_spec h
      exact ⟨hnodup, fun b hb => ⟨_, rfl, hentries b hb⟩⟩

theorem existing_none (h : existing s n = none) : n ∉ s.apiBackends.map name := by
  intro hn
  obtain ⟨c, hc, hname⟩ := List.mem_map.mp hn
  obtain ⟨i, hi⟩ := List.mem_iff_getElem?.mp hc
  have hmem : (c, i) ∈ s.apiBackends.zipIdx.reverse := List.mem_reverse.mpr (List.mem_zipIdx_iff_getElem?.mpr hi)
  exact List.find?_eq_none.mp h (c, i) hmem (decide_eq_true hname)

theorem existing_some {i : Nat} (h : existing s n = some (c, i)) : name c = n ∧ ∃ before after,
    s.apiBackends = before ++ c :: after ∧ i = before.length := by
  have hmem := List.mem_zipIdx_iff_getElem?.mp (List.mem_reverse.mp (List.mem_of_find?_eq_some h))
  obtain ⟨hi, hc⟩ := List.getElem?_eq_some_iff.mp hmem
  have hname := List.find?_some (p := fun q : LLMBackendConfig α N × Nat => decide (name q.1 = n)) h
  refine ⟨of_decide_eq_true hname, s.apiBackends.take i, s.apiBackends.drop (i + 1), ?_, ?_⟩
  · have hdrop : s.apiBackends.drop i = c :: s.apiBackends.drop (i + 1) := by rw [List.drop_eq_getElem_cons hi, hc]
    rw [← hdrop, List.take_append_drop]
  · rw [List.length_take, Nat.min_eq_left hi.le]

theorem name_of_merged (h : modelValidate N (merged b c) = .ok c') : name c' = name b := by
  have hgiven := modelValidate_eq_ok.mp h
  change c'.given.name.getD [] = name b
  rw [hgiven]
  rfl

variable {incoming : List (LLMBackendConfig α N)}

theorem name_of_imported (h : Imported incoming c c') : name c' = name c := by
  cases h with
  | inl h =>
    obtain ⟨b, -, hname, hok⟩ := h
    exact (name_of_merged hok).trans hname
  | inr h => rw [h.2]

theorem map_eq_of_forall₂ {β γ : Type} {R : β → β → Prop} {f : β → γ} {l l' : List β} (h : List.Forall₂ R l l')
    (hf : ∀ x y, R x y → f y = f x) : l'.map f = l.map f := by
  induction h with
  | nil => rfl
  | cons hxy _ ih => rw [List.map_cons, List.map_cons, hf _ _ hxy, ih]

theorem forall₂_split {β : Type} {R : β → β → Prop} {before after l' : List β} {x : β}
    (h : List.Forall₂ R (before ++ x :: after) l') :
    ∃ before' y after', l' = before' ++ y :: after' ∧ before'.length = before.length ∧ List.Forall₂ R before before' ∧
      R x y ∧ List.Forall₂ R after after' := by
  induction before generalizing l' with
  | nil =>
    obtain ⟨y, after', hxy, hafter, rfl⟩ := List.forall₂_cons_left_iff.mp h
    exact ⟨[], y, after', rfl, rfl, .nil, hxy, hafter⟩
  | cons z before ih =>
    obtain ⟨z', l'', hz, hrest, rfl⟩ := List.forall₂_cons_left_iff.mp h
    obtain ⟨before', y, after', rfl, hlength, hbefore, hxy, hafter⟩ := ih hrest
    exact ⟨z' :: before', y, after', rfl, congrArg (· + 1) hlength, .cons hz hbefore, hxy, hafter⟩

/-- What the list is when some entries of a document have been imported. -/
def Partial (s : State α N) (done l : List (LLMBackendConfig α N)) : Prop :=
  ∃ kept, List.Forall₂ (Imported done) s.apiBackends kept ∧
    l = kept ++ done.filter (fun b => decide (name b ∉ s.apiBackends.map name))

theorem partial_nil (s : State α N) : Partial s [] s.apiBackends :=
  ⟨s.apiBackends, List.forall₂_same.mpr (fun _ _ => .inr ⟨fun _ hb => (nomatch hb), rfl⟩), (List.append_nil _).symm⟩

variable {done l : List (LLMBackendConfig α N)}

theorem distinct_of_partial (hs : Distinct s) (h : Partial s done l)
    (hdone : (done.map name).Nodup) : (l.map name).Nodup := by
  obtain ⟨kept, hkept, rfl⟩ := h
  have hnames : kept.map name = s.apiBackends.map name := map_eq_of_forall₂ hkept (fun _ _ h => name_of_imported h)
  rw [List.map_append, hnames, List.nodup_append]
  refine ⟨hs, hdone.sublist (List.filter_sublist.map name), fun x hx y hy hxy => ?_⟩
  obtain ⟨b, hb, hname⟩ := List.mem_map.mp hy
  exact of_decide_eq_true (List.mem_filter.mp hb).2 (hname ▸ hxy ▸ hx)

theorem imported_snoc_of_ne {done : List (LLMBackendConfig α N)} (h : Imported done c c') (hne : name b ≠ name c) :
    Imported (done ++ [b]) c c' := by
  cases h with
  | inl h =>
    obtain ⟨b', hb', hname, hok⟩ := h
    exact .inl ⟨b', List.mem_append_left _ hb', hname, hok⟩
  | inr h =>
    refine .inr ⟨fun b' hb' => ?_, h.2⟩
    cases List.mem_append.mp hb' with
    | inl hb' => exact h.1 b' hb'
    | inr hb' => exact (List.mem_singleton.mp hb') ▸ hne

theorem imported_snoc_self {done : List (LLMBackendConfig α N)} (hname : name b = name c)
    (hok : modelValidate N (merged b c) = .ok c') : Imported (done ++ [b]) c c' :=
  .inl ⟨b, List.mem_append_right _ List.mem_cons_self, hname, hok⟩

theorem forall₂_imp_mem {β : Type} {R S : β → β → Prop} {l l' : List β} (h : List.Forall₂ R l l')
    (hRS : ∀ x ∈ l, ∀ y, R x y → S x y) : List.Forall₂ S l l' := by
  have hand := (List.forall₂_and_left (p := (· ∈ l)) l l').mpr ⟨fun _ hx => hx, h⟩
  exact hand.imp (fun x y hxy => hRS x hxy.1 y hxy.2)

theorem forall₂_same_of_idle (hs : Distinct s) (h : Partial s done l)
    (hidle : ∀ b ∈ done, Idle s b) : List.Forall₂ Same s.apiBackends l := by
  obtain ⟨kept, hkept, rfl⟩ := h
  have hnone : done.filter (fun b => decide (name b ∉ s.apiBackends.map name)) = [] := by
    rw [List.filter_eq_nil_iff]
    intro b hb hnew
    obtain ⟨current, position, replacement, hexisting, -⟩ := hidle b hb
    obtain ⟨hname, before, after, hsplit, -⟩ := existing_some hexisting
    exact of_decide_eq_true hnew (mem_names hsplit hname)
  rw [hnone, List.append_nil]
  refine forall₂_imp_mem hkept (fun c hc c' himported => ?_)
  cases himported with
  | inr himported => rw [himported.2]; exact same_refl c
  | inl himported =>
    obtain ⟨b, hb, hbc, hok⟩ := himported
    obtain ⟨current, position, replacement, hexisting, hreplacement, hsame⟩ := hidle b hb
    obtain ⟨hname, before, after, hsplit, -⟩ := existing_some hexisting
    have hcurrent : current ∈ s.apiBackends := hsplit ▸ List.mem_append_right before List.mem_cons_self
    have heq : current = c := List.inj_on_of_nodup_map hs hcurrent hc (hname.trans hbc)
    subst heq
    cases hreplacement.symm.trans hok
    exact hsame

theorem idle_of_forall₂_same (hdone : (done.map name).Nodup) (h : Partial s done l)
    (hsame : List.Forall₂ Same s.apiBackends l) : ∀ b ∈ done, Idle s b := by
  obtain ⟨kept, hkept, rfl⟩ := h
  have hnone : done.filter (fun b => decide (name b ∉ s.apiBackends.map name)) = [] := by
    have hlength := hsame.length_eq
    rw [List.length_append, ← hkept.length_eq] at hlength
    exact List.length_eq_zero_iff.mp (by omega)
  rw [hnone, List.append_nil] at hsame
  have hboth : List.Forall₂ (fun c c' => Imported done c c' ∧ Same c c') s.apiBackends kept := by
    rw [List.forall₂_iff_get] at hkept hsame ⊢
    exact ⟨hkept.1, fun i h₁ h₂ => ⟨hkept.2 i h₁ h₂, hsame.2 i h₁ h₂⟩⟩
  intro b hb
  cases hexisting : existing s (name b) with
  | none => exact absurd (decide_eq_true (existing_none hexisting)) (List.filter_eq_nil_iff.mp hnone b hb)
  | some found =>
    obtain ⟨current, position⟩ := found
    obtain ⟨hname, before, after, hsplit, -⟩ := existing_some hexisting
    rw [hsplit] at hboth
    obtain ⟨-, c', -, -, -, -, ⟨himported, hc'⟩, -⟩ := forall₂_split hboth
    cases himported with
    | inr himported => exact absurd hname.symm (himported.1 b hb)
    | inl himported =>
      obtain ⟨b', hb', hname', hok⟩ := himported
      have heq : b' = b := List.inj_on_of_nodup_map hdone hb' hb (hname'.trans hname)
      subst heq
      exact ⟨current, position, c', hexisting, hok, hc'⟩

variable [DecidableEq α]

theorem equalBackends_name {v w : TimeoutBudgets.Values α φ} (h : equalBackends N v w = true) : @Eq Text v.name w.name := by
  simp only [equalBackends, Bool.and_eq_true] at h
  simp only [and_assoc] at h
  exact of_decide_eq_true h.1

theorem index_eq {before after : List (LLMBackendConfig α N)} (hbefore : ∀ b ∈ before, name b ≠ name c) :
    index c before.length (before ++ c :: after) = some (c, before.length) := by
  have hfind (k : Nat) : ((before ++ c :: after).zipIdx k).find? (fun p => p.2 == k + before.length ||
      equalBackends N p.1.values c.values) = some (c, k + before.length) := by
    induction before generalizing k with
    | nil => simp
    | cons d before ih =>
      obtain ⟨hd, hbefore⟩ := List.forall_mem_cons.mp hbefore
      have hne : equalBackends N d.values c.values = false :=
        Bool.eq_false_iff.mpr (fun h => hd (equalBackends_name h))
      have hk : (k == k + (before.length + 1)) = false := beq_eq_false_iff_ne.mpr (by omega)
      rw [List.cons_append, List.zipIdx_cons, List.find?_cons, List.length_cons, hk, hne]
      have hrest := ih hbefore (k + 1)
      rw [Nat.add_right_comm, Nat.add_assoc] at hrest
      exact hrest
  have h := hfind 0
  rw [Nat.zero_add] at h
  exact h

/-- By induction on the entries that are left; those that are done are in the invariant. -/
theorem importEntries_spec (hs : Distinct s) {done incoming l : List (LLMBackendConfig α N)} (hl : Partial s done l)
    (hnodup : ((done ++ incoming).map name).Nodup) :
    ∃ l', importEntries s l incoming = (l', incoming.all (merges s)) ∧
      Partial s (done ++ incoming.takeWhile (merges s)) l' := by
  induction incoming generalizing done l with
  | nil => exact ⟨l, rfl, by rw [List.takeWhile_nil, List.append_nil]; exact hl⟩
  | cons b bs ih =>
    have hfresh : ∀ d ∈ done, name d ≠ name b := by
      rw [List.map_append, List.nodup_append] at hnodup
      exact fun d hd => hnodup.2.2 _ (List.mem_map_of_mem hd) _ (List.mem_map_of_mem List.mem_cons_self)
    have hstep {l' : List (LLMBackendConfig α N)} (hl' : Partial s (done ++ [b]) l') (hb : merges s b = true) :
        ∃ l'', importEntries s l' bs = (l'', (b :: bs).all (merges s)) ∧
          Partial s (done ++ (b :: bs).takeWhile (merges s)) l'' := by
      have hmove : done ++ [b] ++ bs = done ++ b :: bs := by rw [List.append_assoc]; rfl
      obtain ⟨l'', hl'', hpartial⟩ := ih hl' (by rw [hmove]; exact hnodup)
      refine ⟨l'', by rw [hl'', List.all_cons, hb, Bool.true_and], ?_⟩
      rw [List.takeWhile_cons_of_pos hb]
      rw [List.append_assoc] at hpartial
      exact hpartial
    obtain ⟨kept, hkept, rfl⟩ := hl
    rw [importEntries]
    cases hexisting : existing s (name b) with
    | none =>
      have hnew : name b ∉ s.apiBackends.map name := existing_none hexisting
      refine hstep ⟨kept, ?_, ?_⟩ (by rw [merges, hexisting])
      · refine forall₂_imp_mem hkept (fun c hc c' h => imported_snoc_of_ne h (fun hname => hnew ?_))
        exact hname ▸ List.mem_map_of_mem hc
      · have hone : [b].filter (fun b => decide (name b ∉ s.apiBackends.map name)) = [b] := by simpa using hnew
        rw [List.filter_append, hone, List.append_assoc]
    | some found =>
      obtain ⟨current, position⟩ := found
      obtain ⟨hname, before, after, hsplit, rfl⟩ := existing_some hexisting
      dsimp only
      cases hok : modelValidate N (merged b current) with
      | error x =>
        have hb : merges s b = false := by
          rw [merges, hexisting]
          dsimp only
          rw [hok]
          rfl
        refine ⟨_, by rw [List.all_cons, hb, Bool.false_and], kept, ?_, ?_⟩
        · rw [List.takeWhile_cons_of_neg (by rw [hb]; exact Bool.false_ne_true), List.append_nil]
          exact hkept
        · rw [List.takeWhile_cons_of_neg (by rw [hb]; exact Bool.false_ne_true), List.append_nil]
      | ok replacement =>
        have hb : merges s b = true := by
          rw [merges, hexisting]
          dsimp only
          rw [hok]
          rfl
        rw [hsplit] at hkept
        obtain ⟨before', c', after', rfl, hlength, hbefore, hcurrent, hafter⟩ := forall₂_split hkept
        have hsame : c' = current := by
          cases hcurrent with
          | inl h =>
            obtain ⟨d, hd, hdname, -⟩ := h
            exact absurd (hdname.trans hname) (hfresh d hd)
          | inr h => exact h.2
        rw [BackendEdits.Distinct, hsplit, List.map_append, List.map_cons] at hs
        obtain ⟨-, hnodup', hdisjoint⟩ := List.nodup_append.mp hs
        have hbeforeNames : before'.map name = before.map name :=
          map_eq_of_forall₂ hbefore (fun _ _ h => name_of_imported h)
        have hothers : ∀ d ∈ before', name d ≠ name current := by
          intro d hd
          exact hdisjoint _ (hbeforeNames ▸ List.mem_map_of_mem hd) _ List.mem_cons_self
        have hindex : index current before.length (before' ++ c' :: after' ++
            done.filter (fun b => decide (name b ∉ s.apiBackends.map name))) = some (current, before.length) := by
          rw [hsame, ← hlength, List.append_assoc, List.cons_append]
          exact index_eq hothers
        dsimp only
        rw [hindex]
        refine hstep ⟨before' ++ replacement :: after', ?_, ?_⟩ hb
        · rw [hsplit]
          refine List.rel_append ?_ (.cons (imported_snoc_self hname.symm hok) ?_)
          · refine forall₂_imp_mem hbefore (fun c hc c' h => imported_snoc_of_ne h (fun hne => ?_))
            exact hdisjoint _ (List.mem_map_of_mem hc) _ List.mem_cons_self (hne.symm.trans hname.symm)
          · refine forall₂_imp_mem hafter (fun c hc c' h => imported_snoc_of_ne h (fun hne => ?_))
            exact (List.nodup_cons.mp hnodup').1 (List.mem_map.mpr ⟨c, hc, hne.symm.trans hname.symm⟩)
        · have hnone : [b].filter (fun b => decide (name b ∉ s.apiBackends.map name)) = [] := by
            have hmem : name b ∈ s.apiBackends.map name := mem_names hsplit hname
            simpa using hmem
          rw [List.filter_append, hnone, List.append_nil, ← hlength,
            List.append_assoc, List.set_append_right _ _ (le_refl _), Nat.sub_self, List.append_assoc]
          rfl

variable {overwrite : Bool}

theorem importBackends_spec (hs : Distinct s) (hincoming : validateBackendDocument N entries = some incoming)
    (hallowed : overwrite = true ∨ ∀ b ∈ incoming, name b ∉ s.apiBackends.map name) :
    ∃ l, Partial s (incoming.takeWhile (merges s)) l ∧ ∃ status,
      BackendEdits.importBackends e entries overwrite s =
        if incoming.all (merges s) && e.saves then (.success, loadEnabled e incoming { s with apiBackends := l })
        else (.error status, { s with apiBackends := l }) := by
  obtain ⟨hnodup, -⟩ := validateBackendDocument_spec hincoming
  obtain ⟨l, hl, hpartial⟩ := importEntries_spec hs (partial_nil s) hnodup
  have hconflicts : (incoming.any (fun b => (existing s (name b)).isSome) && !overwrite) = false := by
    cases hallowed with
    | inl hoverwrite => rw [hoverwrite, Bool.not_true, Bool.and_false]
    | inr hnew =>
      have hany : incoming.any (fun b => (existing s (name b)).isSome) = false := by
        rw [List.any_eq_false]
        intro b hb hsome
        obtain ⟨⟨c, i⟩, hc⟩ := Option.isSome_iff_exists.mp hsome
        obtain ⟨hname, before, after, hsplit, -⟩ := existing_some hc
        exact hnew b hb (mem_names hsplit hname)
      rw [hany, Bool.false_and]
  refine ⟨l, hpartial, if incoming.all (merges s) then 500 else 400, ?_⟩
  rw [BackendEdits.importBackends, hincoming]
  dsimp only
  rw [hconflicts, if_neg Bool.false_ne_true, hl]
  cases incoming.all (merges s) with
  | false => rfl
  | true =>
    dsimp only
    cases e.saves <;> rfl

theorem importBackends_keeps (hs : Distinct s) (h : Meets s (.importDocument entries overwrite, e)) :
    AllOrNothing s (.importDocument entries overwrite, e) (BackendEdits.importBackends e entries overwrite s) := by
  cases hincoming : validateBackendDocument N entries with
  | none =>
    rw [BackendEdits.importBackends, hincoming]
    exact refused hs (by decide)
  | some incoming =>
    obtain ⟨hnodup, hentries⟩ := validateBackendDocument_spec hincoming
    by_cases hallowed : overwrite = true ∨ ∀ b ∈ incoming, name b ∉ s.apiBackends.map name
    · have hmeets := h incoming hincoming hallowed
      obtain ⟨l, hpartial, status, hresult⟩ := importBackends_spec (e := e) hs hincoming hallowed
      have hdistinct : (l.map name).Nodup := by
        refine distinct_of_partial hs hpartial (hnodup.sublist ?_)
        exact (List.takeWhile_sublist _).map name
      rw [hresult]
      cases hall : incoming.all (merges s) && e.saves with
      | false =>
        have hidle : ∀ b ∈ incoming.takeWhile (merges s), Idle s b := by
          refine hmeets.resolve_left (fun hmerges => ?_)
          rw [List.all_eq_true.mpr hmerges.1, hmerges.2] at hall
          cases hall
        exact ⟨fun _ => ⟨forall₂_same_of_idle hs hpartial hidle, fun _ h => h, fun _ h _ => h⟩,
          fun hsuccess => (nomatch hsuccess), hdistinct⟩
      | true =>
        rw [if_pos rfl]
        rw [Bool.and_eq_true] at hall
        rw [List.takeWhile_eq_self_iff.mpr (List.all_eq_true.mp hall.1)] at hpartial
        obtain ⟨kept, hkept, hlist⟩ := hpartial
        let imported : State α N := { s with apiBackends := l }
        obtain ⟨hbackends, hloaded⟩ := loadEnabled_spec (e := e) (s := imported) incoming
        refine ⟨fun hne => absurd rfl hne, fun _ => ⟨⟨incoming, kept, hincoming, hkept, hbackends.trans hlist⟩,
          fun m hm => hloaded m (fun b hb hname => hm ?_)⟩, ?_⟩
        · obtain ⟨ds, hds, d, hd, hdname⟩ := hentries b hb
          exact ⟨ds, hds, d, hd, hname ▸ hdname⟩
        · change ((loadEnabled e incoming imported).apiBackends.map name).Nodup
          rw [hbackends]
          exact hdistinct
    · obtain ⟨hoverwrite, hconflict⟩ := not_or.mp hallowed
      have hany : incoming.any (fun b => (existing s (name b)).isSome) = true := by
        by_contra hnone
        refine hconflict (fun b hb hmem => ?_)
        have hfalse := List.any_eq_false.mp (Bool.eq_false_iff.mpr hnone) b hb
        exact existing_none (Option.not_isSome_iff_eq_none.mp hfalse) hmem
      rw [BackendEdits.importBackends, hincoming]
      dsimp only
      rw [hany, Bool.eq_false_iff.mpr hoverwrite, if_pos (by decide)]
      exact refused hs (by decide)

theorem importBackends_meets (hs : Distinct s)
    (h : AllOrNothing s (.importDocument entries overwrite, e) (BackendEdits.importBackends e entries overwrite s)) :
    Meets s (.importDocument entries overwrite, e) := by
  intro incoming hincoming hallowed
  obtain ⟨hnodup, -⟩ := validateBackendDocument_spec hincoming
  obtain ⟨l, hpartial, status, hresult⟩ := importBackends_spec (e := e) hs hincoming hallowed
  rw [hresult] at h
  cases hall : incoming.all (merges s) && e.saves with
  | true =>
    rw [Bool.and_eq_true, List.all_eq_true] at hall
    exact .inl hall
  | false =>
    rw [hall, if_neg Bool.false_ne_true] at h
    have hsame := (h.failed nofun).backends
    refine .inr (idle_of_forall₂_same (hnodup.sublist ?_) hpartial hsame)
    exact (List.takeWhile_sublist _).map name

end Documents

section Restorations

variable {e : Environment α φ}

theorem unloadAll_spec {ns : List Text} (h : ∀ n ∈ ns, n ∈ s.apiBackends.map name) : ∃ t, unloadAll ns s = (t, true) ∧
    t.apiBackends = s.apiBackends ∧ ∀ m, t.loaded m = (decide (m ∉ ns) && s.loaded m) := by
  induction ns generalizing s with
  | nil => exact ⟨s, rfl, rfl, fun m => by simp⟩
  | cons n ns ih =>
    obtain ⟨hn, hns⟩ := List.forall_mem_cons.mp h
    rw [unloadAll]
    cases hloaded : s.loaded n with
    | false =>
      obtain ⟨t, ht, hbackends, hrest⟩ := ih hns
      refine ⟨t, ht, hbackends, fun m => ?_⟩
      rw [hrest m]
      by_cases hm : m = n
      · rw [hm, hloaded, Bool.and_false, Bool.and_false]
      · simp [hm]
    | true =>
      obtain ⟨t, ht, hbackends, hgone⟩ := unload_ok hn hloaded
      obtain ⟨u, hu, hubackends, hrest⟩ := ih (s := t) (by rw [hbackends]; exact hns)
      rw [if_pos rfl, ht]
      refine ⟨u, hu, hubackends.trans hbackends, fun m => ?_⟩
      rw [hrest m, hgone]
      by_cases hm : m = n
      · simp [hm]
      · simp [hm]

theorem mem_of_canLoad (h : canLoad P n s.apiBackends = true) : n ∈ s.apiBackends.map name := by
  rw [canLoad, Option.any_eq_true] at h
  obtain ⟨c, hc, -⟩ := h
  have hname := List.find?_some (p := fun c : LLMBackendConfig α N => decide (name c = n)) hc
  exact List.mem_map.mpr ⟨c, List.mem_of_find?_eq_some hc, of_decide_eq_true hname⟩

variable {documents : List (Given (ModelItem α) α φ)}

theorem name_of_loadConfig {backends : List (LLMBackendConfig α N)}
    (h : loadConfig N documents = .ok backends) {b : LLMBackendConfig α N} (hb : b ∈ backends) :
    ∃ d ∈ documents, d.name = some (name b) := by
  obtain ⟨d, hd, hok⟩ := exists_of_forall₂ (forall₂_of_mapM h).flip hb
  exact ⟨d, hd, name_of_validate hok⟩

theorem restoreBackends_spec {backupConfig : List (LLMBackendConfig α N)}
    (h : loadConfig N documents = .ok backupConfig) : ∃ t, t.apiBackends = s.apiBackends ∧
      (∀ m, t.loaded m = (decide (m ∉ s.apiBackends.map name) && s.loaded m)) ∧
      restoreBackends e true (some documents) s =
        match backupConfig.mapM (fun b => modelValidate N b.modelDump) with
        | .error _ => (.error 500, t)
        | .ok restored =>
          if e.saves then (.success, loadEnabled e restored { t with apiBackends := restored })
          else (.error 500, { t with apiBackends := restored }) := by
  obtain ⟨t, ht, hbackends, hloaded⟩ := unloadAll_spec (s := s) (fun n hn => hn)
  refine ⟨t, hbackends, hloaded, ?_⟩
  rw [restoreBackends, if_neg (by decide)]
  dsimp only
  rw [h]
  dsimp only
  rewrite [ht]
  rfl

theorem restored_values {backupConfig restored : List (LLMBackendConfig α N)}
    (h : backupConfig.mapM (fun b => modelValidate N b.modelDump) = .ok restored) :
    restored.map LLMBackendConfig.values = backupConfig.map LLMBackendConfig.values ∧
      restored.map name = backupConfig.map name := by
  have hvalues : restored.map LLMBackendConfig.values = backupConfig.map LLMBackendConfig.values :=
    map_eq_of_forall₂ (forall₂_of_mapM h) (fun _ _ h => values_of_dump h)
  refine ⟨hvalues, ?_⟩
  have hcongr := congrArg (List.map (fun v : TimeoutBudgets.Values α φ => (v.name : Text))) hvalues
  rw [List.map_map, List.map_map] at hcongr
  exact hcongr

variable [DecidableEq α] {backup : Option (List (Given (ModelItem α) α φ))}

theorem restoreBackends_keeps {confirmed : Bool} (hs : Distinct s)
    (h : Meets s (.restore confirmed backup, e)) :
    AllOrNothing s (.restore confirmed backup, e) (restoreBackends e confirmed backup s) := by
  cases hconfirmed : confirmed with
  | false =>
    unfold restoreBackends
    exact refused hs (by decide)
  | true =>
    cases hbackup : backup with
    | none =>
      unfold restoreBackends
      exact refused hs (by decide)
    | some documents =>
      cases hbackends : loadConfig N documents with
      | error x =>
        rw [restoreBackends, if_neg (by decide)]
        dsimp only
        rw [hbackends]
        exact refused hs (by decide)
      | ok backupConfig =>
        have hmeets := h documents backupConfig hconfirmed hbackup hbackends
        obtain ⟨t, htbackends, htloaded, hresult⟩ := restoreBackends_spec (e := e) (s := s) hbackends
        rw [hresult]
        -- Nothing that was unloaded could be loaded again.
        have hfailed {u : State α N} (hu : List.Forall₂ Same s.apiBackends u.apiBackends) (hloaded : u.loaded = t.loaded)
            (hnone : ∀ n ∈ s.apiBackends.map name, s.loaded n = true → canLoad e.again n s.apiBackends = false) :
            AllOrNothing s (.restore true (some documents), e) (.error 500, u) := by
          refine ⟨fun _ => ⟨hu, fun m hm => ?_, fun m hm hcan => ?_⟩, nofun, ?_⟩
          · change u.loaded m = true at hm
            rw [hloaded, htloaded m, Bool.and_eq_true] at hm
            exact hm.2
          · rw [hnone m (mem_of_canLoad hcan) hm] at hcan
            cases hcan
          · change (u.apiBackends.map name).Nodup
            rw [map_eq_of_forall₂ (f := name) hu (fun _ _ h => congrArg TimeoutBudgets.BackendFields.name h.values)]
            exact hs
        cases hrestored : backupConfig.mapM (fun b => modelValidate N b.modelDump) with
        | error x =>
          cases hmeets with
          | inl hmeets =>
            obtain ⟨restored, hok, -⟩ := hmeets
            cases hrestored.symm.trans hok
          | inr hmeets =>
            refine hfailed ?_ rfl hmeets.2
            rw [htbackends]
            exact forall₂_same_refl _
        | ok restored =>
          obtain ⟨hvalues, hnames⟩ := restored_values hrestored
          dsimp only
          cases hsaves : e.saves with
          | false =>
            rw [if_neg Bool.false_ne_true]
            cases hmeets with
            | inl hmeets =>
              obtain ⟨-, -, htrue, -⟩ := hmeets
              cases hsaves.symm.trans htrue
            | inr hmeets => exact hfailed (hmeets.1 restored hrestored).2 rfl hmeets.2
          | true =>
            rw [if_pos rfl]
            let replaced : State α N := { t with apiBackends := restored }
            obtain ⟨hbackends', hloaded⟩ := loadEnabled_spec (e := e) (s := replaced) restored
            have hdistinct : (backupConfig.map name).Nodup := by
              cases hmeets with
              | inl hmeets =>
                obtain ⟨-, -, -, hnodup⟩ := hmeets
                exact hnodup
              | inr hmeets => cases hsaves.symm.trans (hmeets.1 restored hrestored).1
            refine ⟨fun hne => absurd rfl hne, fun _ => ⟨⟨documents, backupConfig, rfl, hbackends,
              (congrArg _ hbackends').trans hvalues⟩, fun m hm => ?_⟩, ?_⟩
            · obtain ⟨hold, hnew⟩ := not_or.mp hm
              have hkept : t.loaded m = s.loaded m := by
                rw [htloaded m, decide_eq_true hold, Bool.true_and]
              refine (hloaded m (fun b hb hname => hnew ?_)).trans hkept
              have hmem : m ∈ backupConfig.map name := hnames ▸ List.mem_map.mpr ⟨b, hb, hname⟩
              obtain ⟨b', hb', hname'⟩ := List.mem_map.mp hmem
              obtain ⟨d, hd, hdname⟩ := name_of_loadConfig hbackends hb'
              exact ⟨documents, rfl, d, hd, hname' ▸ hdname⟩
            · change ((loadEnabled e restored replaced).apiBackends.map name).Nodup
              rw [hbackends']
              exact hnames ▸ hdistinct

theorem restoreBackends_meets {confirmed : Bool}
    (h : AllOrNothing s (.restore confirmed backup, e) (restoreBackends e confirmed backup s)) :
    Meets s (.restore confirmed backup, e) := by
  intro documents backupConfig hconfirmed hbackup hbackends
  subst hconfirmed hbackup
  obtain ⟨t, htbackends, htloaded, hresult⟩ := restoreBackends_spec (e := e) (s := s) hbackends
  rw [hresult] at h
  have hnone (u : State α N) (hu : u.loaded = t.loaded) (hunchanged : Unchanged e.again s u) :
      ∀ n ∈ s.apiBackends.map name, s.loaded n = true → canLoad e.again n s.apiBackends = false := by
    intro n hn hloaded
    cases hcan : canLoad e.again n s.apiBackends with
    | false => rfl
    | true =>
      have hkept := hunchanged.noLess n hloaded hcan
      rw [hu, htloaded n, decide_eq_false (not_not_intro hn)] at hkept
      cases hkept
  cases hrestored : backupConfig.mapM (fun b => modelValidate N b.modelDump) with
  | error x =>
    rw [hrestored] at h
    exact .inr ⟨fun restored hok => (nomatch hok), hnone t rfl (h.failed nofun)⟩
  | ok restored =>
    obtain ⟨-, hnames⟩ := restored_values hrestored
    rw [hrestored] at h
    dsimp only at h
    cases hsaves : e.saves with
    | false =>
      rw [hsaves, if_neg Bool.false_ne_true] at h
      have hunchanged := h.failed nofun
      refine .inr ⟨fun restored' hok => ?_, hnone { t with apiBackends := restored } rfl hunchanged⟩
      cases hok
      exact ⟨rfl, hunchanged.backends⟩
    | true =>
      rw [hsaves, if_pos rfl] at h
      refine .inl ⟨restored, rfl, rfl, ?_⟩
      have hdistinct : ((loadEnabled e restored { t with apiBackends := restored }).apiBackends.map name).Nodup := h.distinct
      rw [(loadEnabled_spec restored).1] at hdistinct
      exact hnames ▸ hdistinct

end Restorations

section Runs

variable [DecidableEq α]

theorem perform_iff (hs : Distinct s) {l : Operation α φ × Environment α φ} :
    AllOrNothing s l (perform s l) ↔ Meets s l := by
  obtain ⟨o, e⟩ := l
  cases o with
  | create data => exact ⟨createBackend_meets, createBackend_keeps hs⟩
  | update n data => exact ⟨updateBackend_meets, updateBackend_keeps hs⟩
  | delete n => exact ⟨deleteBackend_meets, deleteBackend_keeps hs⟩
  | importDocument entries overwrite => exact ⟨importBackends_meets hs, importBackends_keeps hs⟩
  | restore confirmed backup => exact ⟨restoreBackends_meets, restoreBackends_keeps hs⟩
  | detect n found => exact ⟨fun _ => trivial, fun _ => detectBackend_keeps hs⟩

theorem exec_defined (s : State α N) (labels : List (Operation α φ × Environment α φ)) :
    ∃ u, exec BackendEdits.next s labels = some u := by
  induction labels generalizing s with
  | nil => exact ⟨s, rfl⟩
  | cons l labels ih => exact ih (perform s l).2

end Runs

def noBackends : State Unit TimeoutBudgets.exact := ⟨[], ⟨[], .empty, .empty, .empty, 0⟩⟩

def everyPlugin : Plugins Unit := ⟨fun _ => true, fun _ => true⟩

def environment (saves : Bool) : Environment Unit ℕ := ⟨everyPlugin, everyPlugin, saves, fun _ => []⟩

def disabled (n : Text) : Given (ModelItem Unit) Unit ℕ :=
  document { nothing with name := some n, adapter := some "openai".toList, enable := some false }

end Kirara.BackendRuns
