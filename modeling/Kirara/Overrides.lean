import Mathlib.Data.List.Induction
import Mathlib.Data.Option.Basic

namespace Kirara.Overrides

/-! Reports that come one after the other, each of which says something of several things. Merged, a later
report overrides what it speaks of and leaves the rest. -/

variable {M N α : Type}

/-- Merging with a later report on the right: an overridden report adds nothing. -/
structure Overriding (merge : M → M → M) : Prop where
  assoc : ∀ x y z, merge (merge x y) z = merge x (merge y z)
  idem : ∀ x, merge x x = x
  absorb : ∀ x y, merge x (merge y x) = merge y x

theorem overriding_or : Overriding (fun x y : Option α => y.or x) where
  assoc _ _ z := by cases z <;> simp
  idem x := by cases x <;> rfl
  absorb x _ := by cases x <;> simp

variable {f : M → M → M}

theorem Overriding.prod {g : N → N → N} (hf : Overriding f) (hg : Overriding g) :
    Overriding (fun x y : M × N => (f x.1 y.1, g x.2 y.2)) where
  assoc _ _ _ := Prod.ext (hf.assoc _ _ _) (hg.assoc _ _ _)
  idem _ := Prod.ext (hf.idem _) (hg.idem _)
  absorb _ _ := Prod.ext (hf.absorb _ _) (hg.absorb _ _)

theorem Overriding.pi {ι : Type} (hf : Overriding f) : Overriding (fun (x y : ι → M) i => f (x i) (y i)) where
  assoc _ _ _ := funext (fun _ => hf.assoc _ _ _)
  idem _ := funext (fun _ => hf.idem _)
  absorb _ _ := funext (fun _ => hf.absorb _ _)

theorem Overriding.of_injective {g : N → N → N} {view : N → M} (hf : Overriding f)
    (hview : Function.Injective view) (h : ∀ x y, view (g x y) = f (view x) (view y)) : Overriding g where
  assoc x y z := hview (by simp only [h, hf.assoc])
  idem x := hview (by simp only [h, hf.idem])
  absorb x y := hview (by simp only [h, hf.absorb])

theorem or_eq_self_iff {x y : Option α} : y.or x = y ↔ (y = none → x = none) := by
  cases y <;> simp

def merged (merge : M → M → M) (l : List (Option M)) : Option M := l.foldl (Option.merge merge) none

def latest (l : List (Option α)) : Option α := l.foldl (fun acc o => o.or acc) none

section Folds

variable {merge : M → M → M}

@[simp] theorem latest_snoc (l : List (Option α)) (o : Option α) : latest (l ++ [o]) = o.or (latest l) := by
  simp [latest]

variable (l : List (Option M))

@[simp] theorem merged_snoc (o : Option M) :
    merged merge (l ++ [o]) = Option.merge merge (merged merge l) o := by
  simp [merged]

theorem merged_append_none {l after : List (Option M)} (h : ∀ o ∈ after, o = none) :
    merged merge (l ++ after) = merged merge l := by
  induction after using List.reverseRecOn with
  | nil => rw [List.append_nil]
  | append_singleton after o ih =>
    have hlast := h o (by simp)
    have hafter := ih (fun o ho => h o (List.mem_append_left _ ho))
    rw [← List.append_assoc, merged_snoc, hafter, hlast, Option.merge_none_right]

variable {before after : List (Option M)}

theorem merged_split {z : M} (h : ∀ o ∈ after, o = none) :
    merged merge (before ++ some z :: after) = Option.merge merge (merged merge before) (some z) := by
  rw [List.append_cons, merged_append_none h, merged_snoc]

theorem latest_eq_merged : latest l = merged (fun _ y => y) l := by
  induction l using List.reverseRecOn with
  | nil => rfl
  | append_singleton l o ih =>
    rw [latest_snoc, merged_snoc, ih]
    cases o <;> cases merged (fun _ y => y) l <;> rfl

theorem latest_split {z : M} (h : ∀ o ∈ after, o = none) : latest (before ++ some z :: after) = some z := by
  rw [latest_eq_merged, merged_split h]
  cases merged (fun _ y => y) before <;> rfl

theorem none_or_split :
    (∀ o ∈ l, o = none) ∨ ∃ before after z, l = before ++ some z :: after ∧ ∀ o ∈ after, o = none := by
  induction l using List.reverseRecOn with
  | nil => exact .inl (fun o ho => (nomatch ho))
  | append_singleton l o ih =>
    cases o with
    | some z => exact .inr ⟨l, [], z, rfl, fun o ho => (nomatch ho)⟩
    | none =>
      cases ih with
      | inl hnone =>
        left
        intro o ho
        cases List.mem_append.mp ho with
        | inl ho => exact hnone o ho
        | inr ho => exact List.mem_singleton.mp ho
      | inr hsplit =>
        obtain ⟨before, after, z, hl, hafter⟩ := hsplit
        refine .inr ⟨before, after ++ [none], z, by simp [hl], ?_⟩
        intro o ho
        cases List.mem_append.mp ho with
        | inl ho => exact hafter o ho
        | inr ho => exact List.mem_singleton.mp ho

end Folds

variable {merge : M → M → M} (hm : Overriding merge)
include hm

theorem covers_merge_iff {x y z : M} : merge (merge x y) z = z ↔ merge x z = z ∧ merge y z = z := by
  constructor
  · intro h
    rw [hm.assoc] at h
    constructor
    · calc merge x z = merge x (merge x (merge y z)) := by rw [h]
        _ = merge (merge x x) (merge y z) := (hm.assoc _ _ _).symm
        _ = z := by rw [hm.idem, h]
    · calc merge y z = merge y (merge x (merge y z)) := by rw [h]
        _ = merge (merge y (merge x y)) z := by rw [hm.assoc, hm.assoc]
        _ = merge (merge x y) z := by rw [hm.absorb]
        _ = z := by rw [hm.assoc, h]
  · intro ⟨hx, hy⟩
    rw [hm.assoc, hy, hx]

theorem covers_merged_iff (l : List (Option M)) (z : M) :
    Option.merge merge (merged merge l) (some z) = some z ↔ ∀ x, some x ∈ l → merge x z = z := by
  induction l using List.reverseRecOn with
  | nil => simp [merged]
  | append_singleton l o ih =>
    rw [merged_snoc]
    cases o with
    | none => simpa using ih
    | some y =>
      have hboth : Option.merge merge (Option.merge merge (merged merge l) (some y)) (some z) = some z ↔
          Option.merge merge (merged merge l) (some z) = some z ∧ merge y z = z := by
        cases merged merge l with
        | none => simp
        | some w => simp [covers_merge_iff hm]
      rw [hboth, ih]
      simp [or_imp, forall_and]

theorem merged_eq_latest_iff {l : List (Option M)} :
    merged merge l = latest l ↔ ∀ before after z, l = before ++ some z :: after → (∀ o ∈ after, o = none) →
      ∀ x, some x ∈ before → merge x z = z := by
  constructor
  · intro h before after z hl hafter
    subst hl
    rw [merged_split hafter, latest_split hafter] at h
    exact (covers_merged_iff hm before z).mp h
  · intro h
    cases none_or_split l with
    | inl hnone =>
      have hmerged : merged merge ([] ++ l) = none := merged_append_none hnone
      have hlatest : merged (fun _ y => y) ([] ++ l) = none := merged_append_none hnone
      rw [latest_eq_merged]
      exact hmerged.trans hlatest.symm
    | inr hsplit =>
      obtain ⟨before, after, z, hl, hafter⟩ := hsplit
      have hcovers := (covers_merged_iff hm before z).mpr (h before after z hl hafter)
      subst hl
      rw [merged_split hafter, latest_split hafter, hcovers]

end Kirara.Overrides
