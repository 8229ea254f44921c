import Mathlib.Data.List.DropRight
import Mathlib.Data.List.TakeDrop

namespace Kirara.BlankRuns

/-! Lists some of whose elements are blank, and what is left when runs of blanks are collapsed. -/

variable {α : Type} (blank : α → Bool)

def squeeze : Bool → List α → List α
  | _, [] => []
  | after, x :: xs =>
    if blank x then if after then squeeze true xs else x :: squeeze true xs
    else x :: squeeze false xs

/-- Runs of blanks are squeezed, and none stay at the ends. -/
def collapse (l : List α) : List α := ((squeeze blank false l).dropWhile blank).rdropWhile blank

def parts : List α → List α × List (α × List α)
  | [] => ([], [])
  | x :: xs => if blank x then (x :: (parts xs).1, (parts xs).2) else ([], (x, (parts xs).1) :: (parts xs).2)

def assemble (gap : List α) (solids : List (α × List α)) : List α := gap ++ solids.flatMap (fun p => p.1 :: p.2)

/-- Of each gap one blank is left, and of the last one none. -/
def shorten : List (α × List α) → List (α × List α)
  | [] => []
  | [p] => [(p.1, [])]
  | p :: q :: ps => (p.1, p.2.take 1) :: shorten (q :: ps)

def solids (l : List α) : List α := l.filter (fun x => !blank x)

attribute [grind =] squeeze parts shorten

section Parts

variable {blank} {x : α}

theorem parts_cons_blank (h : blank x) (xs : List α) :
    parts blank (x :: xs) = (x :: (parts blank xs).1, (parts blank xs).2) := by
  rw [parts, if_pos h]

theorem parts_cons_solid (h : ¬ blank x) (xs : List α) :
    parts blank (x :: xs) = ([], (x, (parts blank xs).1) :: (parts blank xs).2) := by
  rw [parts, if_neg h]

theorem assemble_parts (l : List α) : assemble (parts blank l).1 (parts blank l).2 = l := by
  induction l with
  | nil => rfl
  | cons x xs ih =>
    by_cases h : blank x
    · rw [parts_cons_blank h]
      exact congrArg (x :: ·) ih
    · rw [parts_cons_solid h]
      exact congrArg (x :: ·) ih

variable {l : List α}

theorem blank_of_mem_parts_fst (h : x ∈ (parts blank l).1) : blank x := by
  induction l with
  | nil => cases h
  | cons y ys ih =>
    by_cases hy : blank y
    · rw [parts_cons_blank hy] at h
      cases List.mem_cons.mp h with
      | inl he => exact he ▸ hy
      | inr hm => exact ih hm
    · rw [parts_cons_solid hy] at h
      cases h

theorem of_mem_parts_snd {p : α × List α} (h : p ∈ (parts blank l).2) : ¬ blank p.1 ∧ ∀ x ∈ p.2, blank x := by
  induction l with
  | nil => cases h
  | cons y ys ih =>
    by_cases hy : blank y
    · rw [parts_cons_blank hy] at h
      exact ih h
    · rw [parts_cons_solid hy] at h
      cases List.mem_cons.mp h with
      | inl he =>
        subst he
        exact ⟨hy, fun x hx => blank_of_mem_parts_fst hx⟩
      | inr hm => exact ih hm

theorem mem_of_mem_parts_fst (h : x ∈ (parts blank l).1) : x ∈ l := by
  rw [← @assemble_parts α blank l, assemble]
  exact List.mem_append_left _ h

theorem mem_of_mem_parts_snd {p : α × List α} (h : p ∈ (parts blank l).2) : p.1 ∈ l ∧ ∀ x ∈ p.2, x ∈ l := by
  have hmem : ∀ x ∈ p.1 :: p.2, x ∈ l := by
    intro x hx
    rw [← @assemble_parts α blank l, assemble]
    exact List.mem_append_right _ (List.mem_flatMap.mpr ⟨p, h, hx⟩)
  exact List.forall_mem_cons.mp hmem

theorem parts_snd_eq_nil_iff : (parts blank l).2 = [] ↔ ∀ x ∈ l, blank x := by
  induction l with
  | nil => simp [parts]
  | cons x xs ih =>
    by_cases h : blank x
    · simp [parts_cons_blank h, ih, h]
    · simp [parts_cons_solid h, h]

variable {gap : List α}

theorem parts_append_blanks (h : ∀ x ∈ gap, blank x) (l : List α) :
    parts blank (gap ++ l) = (gap ++ (parts blank l).1, (parts blank l).2) := by
  induction gap with
  | nil => rfl
  | cons x gap ih =>
    rw [List.cons_append, parts_cons_blank (h x List.mem_cons_self), ih (fun y hy => h y (List.mem_cons_of_mem x hy))]
    rfl

theorem parts_flatMap {solids : List (α × List α)} (h : ∀ p ∈ solids, ¬ blank p.1 ∧ ∀ x ∈ p.2, blank x) :
    parts blank (solids.flatMap (fun p => p.1 :: p.2)) = ([], solids) := by
  induction solids with
  | nil => rfl
  | cons p solids ih =>
    obtain ⟨hsolid, hgap⟩ := h p List.mem_cons_self
    rw [List.flatMap_cons, List.cons_append, parts_cons_solid hsolid, parts_append_blanks hgap,
      ih (fun q hq => h q (List.mem_cons_of_mem p hq)), List.append_nil]

theorem parts_assemble {solids : List (α × List α)} (hgap : ∀ x ∈ gap, blank x)
    (hsolids : ∀ p ∈ solids, ¬ blank p.1 ∧ ∀ x ∈ p.2, blank x) : parts blank (assemble gap solids) = (gap, solids) := by
  rw [assemble, parts_append_blanks hgap, parts_flatMap hsolids, List.append_nil]

theorem gap_inj {gap gap' l l' : List α} {x x' : α} (hgap : ∀ y ∈ gap, blank y) (hgap' : ∀ y ∈ gap', blank y)
    (hx : ¬ blank x) (hx' : ¬ blank x') (h : gap ++ x :: l = gap' ++ x' :: l') : gap = gap' ∧ x :: l = x' :: l' := by
  have hfirst : gap = gap' := by
    have ht := congrArg (List.takeWhile blank) h
    rw [List.takeWhile_append_of_pos hgap, List.takeWhile_append_of_pos hgap', List.takeWhile_cons_of_neg hx,
      List.takeWhile_cons_of_neg hx', List.append_nil, List.append_nil] at ht
    exact ht
  subst hfirst
  exact ⟨rfl, List.append_cancel_left h⟩

theorem parts_map {β : Type} {blank' : β → Bool} {f : α → β} (l : List α) (h : ∀ x ∈ l, blank' (f x) = blank x) :
    parts blank' (l.map f) =
      ((parts blank l).1.map f, (parts blank l).2.map (fun p => (f p.1, p.2.map f))) := by
  induction l with
  | nil => rfl
  | cons x xs ih =>
    have hrest := ih (fun y hy => h y (List.mem_cons_of_mem x hy))
    have hx := h x List.mem_cons_self
    by_cases hb : blank x
    · rw [List.map_cons, parts_cons_blank hb, parts_cons_blank (hx.trans hb), hrest]
      rfl
    · rw [List.map_cons, parts_cons_solid hb, parts_cons_solid (by rw [hx]; exact hb), hrest]
      rfl

theorem solids_map {β : Type} {blank' : β → Bool} {f : α → β} (l : List α) (h : ∀ x ∈ l, blank' (f x) = blank x) :
    solids blank' (l.map f) = (solids blank l).map f := by
  unfold solids
  rw [List.filter_map]
  congr 1
  exact List.filter_congr (fun x hx => by rw [Function.comp_apply, h x hx])

theorem solids_append (l m : List α) : solids blank (l ++ m) = solids blank l ++ solids blank m :=
  List.filter_append l m

theorem solids_of_blank (h : ∀ x ∈ l, blank x) : solids blank l = [] :=
  List.filter_eq_nil_iff.mpr (fun x hx => by simp [h x hx])

theorem map_fst_parts (l : List α) : (parts blank l).2.map Prod.fst = solids blank l := by
  unfold solids
  induction l with
  | nil => rfl
  | cons x xs ih =>
    by_cases h : blank x
    · rw [parts_cons_blank h, ih, List.filter_cons_of_neg (by simp [h])]
    · rw [parts_cons_solid h, List.map_cons, ih, List.filter_cons_of_pos (by simp [h])]

theorem squeeze_solid (h : ¬ blank x) (after : Bool) (xs : List α) :
    squeeze blank after (x :: xs) = x :: squeeze blank false xs := by
  rw [squeeze, if_neg h]

theorem dropWhile_squeeze_true (l : List α) : (squeeze blank true l).dropWhile blank = squeeze blank true l := by
  induction l with
  | nil => rfl
  | cons x xs ih =>
    by_cases h : blank x
    · rw [squeeze, if_pos h, if_pos rfl, ih]
    · rw [squeeze_solid h, List.dropWhile_cons_of_neg h]

theorem collapse_eq (l : List α) : collapse blank l = (squeeze blank true l).rdropWhile blank := by
  unfold collapse
  congr 1
  cases l with
  | nil => rfl
  | cons x xs =>
    by_cases h : blank x
    · rw [squeeze, if_pos h, if_neg Bool.false_ne_true, List.dropWhile_cons_of_pos h, dropWhile_squeeze_true,
        squeeze, if_pos h, if_pos rfl]
    · rw [squeeze_solid h, squeeze_solid h, List.dropWhile_cons_of_neg h]

theorem squeeze_true_parts (l : List α) :
    squeeze blank true l = (parts blank l).2.flatMap (fun p => p.1 :: p.2.take 1) ∧
      squeeze blank false l =
        (parts blank l).1.take 1 ++ (parts blank l).2.flatMap (fun p => p.1 :: p.2.take 1) := by
  induction l with
  | nil => exact ⟨rfl, rfl⟩
  | cons x xs ih =>
    by_cases h : blank x
    · rw [parts_cons_blank h, squeeze, if_pos h, if_pos rfl, squeeze, if_pos h, if_neg Bool.false_ne_true, ih.1]
      exact ⟨rfl, rfl⟩
    · rw [parts_cons_solid h, squeeze_solid h, squeeze_solid h, ih.2]
      exact ⟨rfl, rfl⟩

theorem rdropWhile_append_solid (h : ¬ blank x) (xs ys : List α) :
    (xs ++ x :: ys).rdropWhile blank = xs ++ x :: ys.rdropWhile blank := by
  induction ys using List.reverseRecOn with
  | nil => rw [List.rdropWhile_concat_neg _ _ _ h, List.rdropWhile_nil]
  | append_singleton ys y ih =>
    rw [← List.cons_append, ← List.append_assoc]
    by_cases hy : blank y
    · rw [List.rdropWhile_concat_pos _ _ _ hy, List.rdropWhile_concat_pos _ _ _ hy, ih]
    · rw [List.rdropWhile_concat_neg _ _ _ hy, List.rdropWhile_concat_neg _ _ _ hy]
      simp

theorem rdropWhile_blanks (h : ∀ x ∈ gap, blank x) : gap.rdropWhile blank = [] :=
  List.rdropWhile_eq_nil_iff.mpr h

theorem shorten_flatMap {solids : List (α × List α)} (h : ∀ p ∈ solids, ¬ blank p.1 ∧ ∀ x ∈ p.2, blank x) :
    (solids.flatMap (fun p => p.1 :: p.2.take 1)).rdropWhile blank = (shorten solids).flatMap (fun p => p.1 :: p.2) := by
  induction solids using shorten.induct with
  | case1 => rfl
  | case2 p =>
    obtain ⟨hsolid, hgap⟩ := h p List.mem_cons_self
    have hdrop := rdropWhile_append_solid hsolid [] (p.2.take 1)
    rw [rdropWhile_blanks (fun x hx => hgap x (List.mem_of_mem_take hx))] at hdrop
    simpa [shorten] using hdrop
  | case3 p q ps ih =>
    have hrest := ih (fun r hr => h r (List.mem_cons_of_mem p hr))
    obtain ⟨hsolid, _⟩ := h q (List.mem_cons_of_mem p List.mem_cons_self)
    rw [List.flatMap_cons, List.cons_append] at hrest
    have htail := rdropWhile_append_solid hsolid [] (q.2.take 1 ++ ps.flatMap (fun p => p.1 :: p.2.take 1))
    rw [List.nil_append, List.nil_append, hrest] at htail
    have hall := rdropWhile_append_solid hsolid (p.1 :: p.2.take 1)
      (q.2.take 1 ++ ps.flatMap (fun p => p.1 :: p.2.take 1))
    rw [← htail] at hall
    exact hall

theorem collapse_eq_assemble (l : List α) : collapse blank l = assemble [] (shorten (parts blank l).2) := by
  rw [collapse_eq, (squeeze_true_parts l).1, shorten_flatMap (fun p hp => of_mem_parts_snd hp)]
  rfl

theorem squeeze_sublist (after : Bool) (l : List α) : (squeeze blank after l).Sublist l := by
  induction l generalizing after with
  | nil => exact List.Sublist.refl _
  | cons x xs ih =>
    by_cases hx : blank x
    · cases after with
      | true =>
        rw [squeeze, if_pos hx, if_pos rfl]
        exact (ih true).cons x
      | false =>
        rw [squeeze, if_pos hx, if_neg Bool.false_ne_true]
        exact (ih true).cons_cons x
    · rw [squeeze_solid hx]
      exact (ih false).cons_cons x

theorem of_mem_shorten {solids : List (α × List α)} (h : ∀ p ∈ solids, ¬ blank p.1 ∧ ∀ x ∈ p.2, blank x) :
    ∀ p ∈ shorten solids, ¬ blank p.1 ∧ ∀ x ∈ p.2, blank x := by
  induction solids using shorten.induct with
  | case1 => exact h
  | case2 p =>
    intro q hq
    cases List.mem_singleton.mp hq
    exact ⟨(h p List.mem_cons_self).1, fun x hx => (nomatch hx)⟩
  | case3 p q ps ih =>
    intro r hr
    cases List.mem_cons.mp hr with
    | inl he =>
      subst he
      obtain ⟨hsolid, hgap⟩ := h p List.mem_cons_self
      exact ⟨hsolid, fun x hx => hgap x (List.mem_of_mem_take hx)⟩
    | inr hm => exact ih (fun s hs => h s (List.mem_cons_of_mem p hs)) r hm

theorem parts_collapse (l : List α) : parts blank (collapse blank l) = ([], shorten (parts blank l).2) := by
  rw [collapse_eq_assemble]
  exact parts_assemble (fun x hx => (nomatch hx)) (of_mem_shorten (fun p hp => of_mem_parts_snd hp))

theorem collapse_eq_self_iff :
    collapse blank l = l ↔ (parts blank l).1 = [] ∧ shorten (parts blank l).2 = (parts blank l).2 := by
  constructor
  · intro h
    have hparts := @parts_collapse α blank l
    rw [h] at hparts
    exact ⟨congrArg Prod.fst hparts, (congrArg Prod.snd hparts).symm⟩
  · intro ⟨hfront, hshort⟩
    rw [collapse_eq_assemble, hshort, ← hfront, assemble_parts]

theorem shorten_eq_self_iff {solids : List (α × List α)} : shorten solids = solids ↔
    (∀ p ∈ solids.dropLast, p.2.length ≤ 1) ∧ ∀ p ∈ solids.getLast?, p.2 = [] := by
  induction solids using shorten.induct with
  | case1 => simp [shorten]
  | case2 p =>
    obtain ⟨x, gap⟩ := p
    simp [shorten, eq_comm]
  | case3 p q ps ih =>
    obtain ⟨x, gap⟩ := p
    rw [shorten, List.cons.injEq, ih, List.dropLast_cons_cons, List.forall_mem_cons, List.getLast?_cons_cons, and_assoc]
    simp only [Prod.mk.injEq, true_and, List.take_eq_self_iff]

theorem shorten_eq_nil_iff {solids : List (α × List α)} : shorten solids = [] ↔ solids = [] := by
  cases solids with
  | nil => exact Iff.rfl
  | cons p ps => cases ps <;> simp [shorten]

theorem collapse_eq_nil_iff : collapse blank l = [] ↔ ∀ x ∈ l, blank x := by
  rw [← parts_snd_eq_nil_iff, collapse_eq_assemble, ← shorten_eq_nil_iff, assemble, List.nil_append]
  cases shorten (parts blank l).2 with
  | nil => simp
  | cons p ps => simp

theorem solids_squeeze (after : Bool) (l : List α) : solids blank (squeeze blank after l) = solids blank l := by
  unfold solids
  induction l generalizing after with
  | nil => rfl
  | cons x xs ih =>
    by_cases h : blank x
    · cases after <;> simp [squeeze, h, ih]
    · simp [squeeze, h, ih]

theorem solids_rdropWhile (l : List α) : solids blank (l.rdropWhile blank) = solids blank l := by
  unfold solids
  induction l using List.reverseRecOn with
  | nil => rfl
  | append_singleton l x ih =>
    by_cases h : blank x
    · rw [List.rdropWhile_concat_pos _ _ _ h, ih, List.filter_append]
      simp [h]
    · rw [List.rdropWhile_concat_neg _ _ _ h]

theorem collapse_subset (l : List α) : ∀ x ∈ collapse blank l, x ∈ l := by
  intro x hx
  rw [collapse_eq] at hx
  exact (squeeze_sublist true l).subset ((List.rdropWhile_prefix blank _).subset hx)

theorem solids_collapse (l : List α) : solids blank (collapse blank l) = solids blank l := by
  rw [collapse_eq, solids_rdropWhile, solids_squeeze]

end Parts

section Transducers

variable {σ : Type} (f : σ → α → α) (next : σ → α → σ)

def transduce : σ → List α → List α
  | _, [] => []
  | s, x :: xs => f s x :: transduce (next s x) xs

variable {blank f next}

theorem squeeze_transduce_squeeze (hf : ∀ s x, blank x → f s x = x) (hnext : ∀ s x, blank x → next s x = s)
    {inner outer : Bool} (h : inner → outer) (s : σ) (l : List α) :
    squeeze blank outer (transduce f next s (squeeze blank inner l)) = squeeze blank outer (transduce f next s l) := by
  induction l generalizing inner outer s with
  | nil => rfl
  | cons x xs ih =>
    by_cases hx : blank x
    · have hright : transduce f next s (x :: xs) = x :: transduce f next s xs := by
        rw [transduce, hf s x hx, hnext s x hx]
      cases inner with
      | true =>
        rw [h rfl, squeeze, if_pos hx, if_pos rfl, hright, squeeze, if_pos hx, if_pos rfl]
        exact ih (fun _ => rfl) s
      | false =>
        rw [squeeze, if_pos hx, if_neg Bool.false_ne_true, hright, transduce, hf s x hx, hnext s x hx, squeeze,
          squeeze, if_pos hx, if_pos hx, ih (fun _ => rfl) s]
    · rw [squeeze_solid hx, transduce, transduce]
      by_cases hy : blank (f s x)
      · have hrest := @ih false true (fun _ => rfl) (next s x)
        rw [squeeze, squeeze, if_pos hy, if_pos hy, hrest]
      · rw [squeeze_solid hy, squeeze_solid hy, ih (fun hfalse => hfalse) (next s x)]

theorem transduce_append (s : σ) (l m : List α) :
    transduce f next s (l ++ m) = transduce f next s l ++ transduce f next (l.foldl next s) m := by
  induction l generalizing s with
  | nil => rfl
  | cons x xs ih =>
    rw [List.cons_append, transduce, transduce, ih]
    rfl

variable {gap : List α}

theorem transduce_blanks (hf : ∀ s x, blank x → f s x = x) (hnext : ∀ s x, blank x → next s x = s)
    (h : ∀ x ∈ gap, blank x) (s : σ) : transduce f next s gap = gap := by
  induction gap with
  | nil => rfl
  | cons x gap ih =>
    have hx := h x List.mem_cons_self
    rw [transduce, hf s x hx, hnext s x hx, ih (fun y hy => h y (List.mem_cons_of_mem x hy))]

theorem squeeze_append (after : Bool) (l m : List α) :
    ∃ state, squeeze blank after (l ++ m) = squeeze blank after l ++ squeeze blank state m := by
  induction l generalizing after with
  | nil => exact ⟨after, rfl⟩
  | cons x xs ih =>
    by_cases hx : blank x
    · obtain ⟨state, hstate⟩ := ih true
      refine ⟨state, ?_⟩
      cases after with
      | true => rw [List.cons_append, squeeze, squeeze, if_pos hx, if_pos hx, if_pos rfl, if_pos rfl, hstate]
      | false =>
        rw [List.cons_append, squeeze, squeeze, if_pos hx, if_pos hx, if_neg Bool.false_ne_true,
          if_neg Bool.false_ne_true, hstate, List.cons_append]
    · obtain ⟨state, hstate⟩ := ih false
      exact ⟨state, by rw [List.cons_append, squeeze_solid hx, squeeze_solid hx, hstate, List.cons_append]⟩

theorem rdropWhile_append_blanks (h : ∀ x ∈ gap, blank x) (l : List α) :
    (l ++ gap).rdropWhile blank = l.rdropWhile blank := by
  induction gap using List.reverseRecOn with
  | nil => rw [List.append_nil]
  | append_singleton gap x ih =>
    rw [← List.append_assoc, List.rdropWhile_concat_pos _ _ _ (h x (by simp))]
    exact ih (fun y hy => h y (List.mem_append_left _ hy))

theorem collapse_append_blanks (h : ∀ x ∈ gap, blank x) (l : List α) :
    collapse blank (l ++ gap) = collapse blank l := by
  obtain ⟨state, hstate⟩ := @squeeze_append α blank true l gap
  rw [collapse_eq, collapse_eq, hstate]
  exact rdropWhile_append_blanks (fun x hx => h x ((squeeze_sublist state gap).subset hx)) _

theorem collapse_transduce_collapse (hf : ∀ s x, blank x → f s x = x) (hnext : ∀ s x, blank x → next s x = s) (s : σ)
    (l : List α) : collapse blank (transduce f next s (collapse blank l)) = collapse blank (transduce f next s l) := by
  have hends : ∃ gap, (∀ x ∈ gap, blank x) ∧ squeeze blank true l = collapse blank l ++ gap := by
    rw [collapse_eq]
    exact ⟨_, fun x hx => List.mem_rtakeWhile_imp hx, List.rdropWhile_append_rtakeWhile.symm⟩
  obtain ⟨gap, hgap, hsplit⟩ := hends
  have hsame : collapse blank (transduce f next s (squeeze blank true l)) =
      collapse blank (transduce f next s (collapse blank l)) := by
    rw [hsplit, transduce_append, transduce_blanks hf hnext hgap, collapse_append_blanks hgap]
  rw [← hsame, collapse_eq, collapse_eq, squeeze_transduce_squeeze hf hnext (fun h => h)]

end Transducers

variable {blank}

theorem solids_cons_blank {x : α} (h : blank x) (xs : List α) : solids blank (x :: xs) = solids blank xs :=
  List.filter_cons_of_neg (by simp [h])

theorem solids_cons_solid {x : α} (h : ¬ blank x) (xs : List α) : solids blank (x :: xs) = x :: solids blank xs :=
  List.filter_cons_of_pos (by simp [h])

theorem queue_step {queue l m : List α} {a b : α} (hne : queue ≠ []) (ha : ¬ blank a)
    (h : queue ++ solids blank (a :: l) = solids blank (b :: m)) :
    ∃ later, later ≠ [] ∧ (∀ x ∈ later, x ∈ queue ∨ x = a) ∧ later ++ solids blank l = solids blank m := by
  rw [solids_cons_solid ha] at h
  by_cases hb : blank b
  · rw [solids_cons_blank hb] at h
    exact ⟨queue ++ [a], by simp, by simp, by rw [List.append_assoc, List.singleton_append, h]⟩
  · rw [solids_cons_solid hb] at h
    obtain ⟨x, queue, rfl⟩ := List.exists_cons_of_ne_nil hne
    obtain ⟨_, hrest⟩ := List.cons.inj (List.cons_append ▸ h)
    refine ⟨queue ++ [a], by simp, ?_, by rw [List.append_assoc, List.singleton_append, hrest]⟩
    intro y hy
    cases List.mem_append.mp hy with
    | inl hq => exact .inl (List.mem_cons_of_mem x hq)
    | inr he => exact .inr (List.mem_singleton.mp he)

theorem mem_queue {queue l m : List α} {a : α} (hne : queue ≠ []) (ha : ¬ blank a)
    (h : queue ++ solids blank (a :: l) = solids blank (a :: m)) : a ∈ queue := by
  rw [solids_cons_solid ha, solids_cons_solid ha] at h
  obtain ⟨x, queue, rfl⟩ := List.exists_cons_of_ne_nil hne
  obtain ⟨hx, _⟩ := List.cons.inj h
  exact hx ▸ List.mem_cons_self

end Kirara.BlankRuns
