import Mathlib.Data.List.Nodup
import Mathlib.Data.List.Count

namespace Kirara.Rosters

variable {ι α : Type} [DecidableEq ι] {t : ι} {x y : α} {l : List (ι × α)} {p : ι × α}

def lookup (t : ι) (l : List (ι × α)) : Option α := (l.find? (fun p => p.1 = t)).map Prod.snd

def replace (t : ι) (x : α) (l : List (ι × α)) : List (ι × α) :=
  l.map (fun p => if p.1 = t then (t, x) else p)

def remove (t : ι) (l : List (ι × α)) : List (ι × α) := l.filter (fun p => p.1 ≠ t)

def Distinct (l : List (ι × α)) : Prop := (l.map Prod.fst).Nodup

theorem mem_of_lookup (h : lookup t l = some x) : (t, x) ∈ l := by
  obtain ⟨p, hp, rfl⟩ := Option.map_eq_some_iff.mp h
  have ht : p.1 = t := by simpa using List.find?_some hp
  rw [← ht]
  exact List.mem_of_find?_eq_some hp

omit [DecidableEq ι] in
theorem eq_of_distinct (h : Distinct l) (hx : (t, x) ∈ l) (hy : (t, y) ∈ l) : x = y := by
  have hxy := List.inj_on_of_nodup_map h hx hy rfl
  exact (Prod.mk.injEq _ _ _ _ ▸ hxy).2

theorem map_fst_replace : (replace t x l).map Prod.fst = l.map Prod.fst := by
  rw [replace, List.map_map]
  apply List.map_congr_left
  intro p _
  by_cases h : p.1 = t
  · simp [h]
  · simp [h]

theorem distinct_replace (h : Distinct l) : Distinct (replace t x l) := by
  rw [Distinct, map_fst_replace]
  exact h

theorem distinct_remove (h : Distinct l) : Distinct (remove t l) :=
  h.sublist ((List.filter_sublist).map _)

omit [DecidableEq ι] in
theorem distinct_cons (h : Distinct l) (ht : t ∉ l.map Prod.fst) : Distinct ((t, x) :: l) :=
  List.nodup_cons.mpr ⟨ht, h⟩

theorem mem_replace (h : p ∈ replace t x l) : p = (t, x) ∨ p ∈ l ∧ p.1 ≠ t := by
  obtain ⟨q, hq, rfl⟩ := List.mem_map.mp h
  by_cases ht : q.1 = t
  · exact Or.inl (if_pos ht)
  · rw [if_neg ht]
    exact Or.inr ⟨hq, ht⟩

theorem mem_replace_of_ne (h : p ∈ l) (ht : p.1 ≠ t) : p ∈ replace t x l :=
  List.mem_map.mpr ⟨p, h, if_neg ht⟩

theorem mem_replace_self (h : (t, y) ∈ l) : (t, x) ∈ replace t x l :=
  List.mem_map.mpr ⟨(t, y), h, if_pos rfl⟩

theorem mem_remove : p ∈ remove t l ↔ p ∈ l ∧ p.1 ≠ t := by
  rw [remove, List.mem_filter, decide_eq_true_iff]

variable (c : ι × α → Bool)

theorem countP_remove_of_not_mem (ht : t ∉ l.map Prod.fst) : (remove t l).countP c = l.countP c := by
  have hl : remove t l = l := by
    rw [remove, List.filter_eq_self]
    intro p hp
    rw [decide_eq_true_iff]
    rintro rfl
    exact ht (List.mem_map_of_mem hp)
  rw [hl]

theorem countP_replace_of_not_mem (ht : t ∉ l.map Prod.fst) : (replace t x l).countP c = l.countP c := by
  have hl : replace t x l = l := by
    conv_rhs => rw [← List.map_id l]
    apply List.map_congr_left
    intro p hp
    apply if_neg
    rintro rfl
    exact ht (List.mem_map_of_mem hp)
  rw [hl]

theorem countP_remove (h : Distinct l) (ht : (t, y) ∈ l) :
    (remove t l).countP c + (c (t, y)).toNat = l.countP c := by
  induction l with
  | nil => cases ht
  | cons p l ih =>
    obtain ⟨hp, hl⟩ := List.nodup_cons.mp h
    cases List.mem_cons.mp ht with
    | inl heq =>
      have hr : remove t (p :: l) = remove t l := List.filter_cons_of_neg (by simp [← heq])
      rw [hr, ← heq, List.countP_cons, countP_remove_of_not_mem c (by rwa [← heq] at hp)]
      cases c (t, y) <;> rfl
    | inr hmem =>
      have hne : p.1 ≠ t := by
        rintro rfl
        exact hp (List.mem_map.mpr ⟨_, hmem, rfl⟩)
      have hr : remove t (p :: l) = p :: remove t l := List.filter_cons_of_pos (by simpa using hne)
      have hi := ih hl hmem
      rw [hr, List.countP_cons, List.countP_cons]
      omega

theorem countP_replace (h : Distinct l) (ht : (t, y) ∈ l) :
    (replace t x l).countP c + (c (t, y)).toNat = l.countP c + (c (t, x)).toNat := by
  induction l with
  | nil => cases ht
  | cons p l ih =>
    obtain ⟨hp, hl⟩ := List.nodup_cons.mp h
    have hr : replace t x (p :: l) = (if p.1 = t then (t, x) else p) :: replace t x l := rfl
    cases List.mem_cons.mp ht with
    | inl heq =>
      rw [← heq] at hp
      rw [hr, ← heq, if_pos rfl, List.countP_cons, List.countP_cons, countP_replace_of_not_mem c hp]
      cases c (t, y) <;> cases c (t, x) <;> simp
    | inr hmem =>
      have hne : p.1 ≠ t := by
        rintro rfl
        exact hp (List.mem_map.mpr ⟨_, hmem, rfl⟩)
      have hi := ih hl hmem
      rw [hr, if_neg hne, List.countP_cons, List.countP_cons]
      omega

theorem eq_of_countP_le_one {β : Type} {c : β → Bool} {l : List β} {a b : β}
    (h : l.countP c ≤ 1) (ha : a ∈ l) (hb : b ∈ l) (hca : c a = true) (hcb : c b = true) : a = b := by
  by_contra hne
  rw [List.countP_eq_length_filter] at h
  have haf : a ∈ l.filter c := List.mem_filter.mpr ⟨ha, hca⟩
  have hbf : b ∈ l.filter c := List.mem_filter.mpr ⟨hb, hcb⟩
  obtain ⟨d, hd⟩ := List.length_eq_one_iff.mp (Nat.le_antisymm h (List.length_pos_of_mem haf))
  rw [hd, List.mem_singleton] at haf hbf
  exact hne (haf.trans hbf.symm)

end Kirara.Rosters
