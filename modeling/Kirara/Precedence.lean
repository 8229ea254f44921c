import Mathlib.Data.List.Perm.Basic

namespace Kirara.Precedence

/-! What is kept of the opinions that are given one after the other, and when their order counts. -/

variable {α β γ : Type*}

def OrderFree (f : List α → γ) (l : List α) : Prop := ∀ m : List α, m.Perm l → f m = f l

def Unanimous (given : α → Option β) (l : List α) : Prop :=
  ∀ a ∈ l, ∀ b ∈ l, ∀ x ∈ given a, ∀ y ∈ given b, x = y

instance [DecidableEq β] (given : α → Option β) (l : List α) : Decidable (Unanimous given l) :=
  inferInstanceAs (Decidable (∀ a ∈ l, ∀ b ∈ l, ∀ x ∈ given a, ∀ y ∈ given b, x = y))

/-- An opinion that was not there replaces none. -/
def latest (kept given : Option β) : Option β := given.or kept

def dominant [DecidableEq β] (top : β) (kept given : Option β) : Option β :=
  if given = some top ∨ kept = none then given.or kept else kept

section Folds

variable {given : α → Option β} {l : List α}

theorem unanimous_perm {m : List α} (h : m.Perm l) : Unanimous given m ↔ Unanimous given l := by
  simp only [Unanimous, h.mem_iff]

theorem exists_perm_cons {a : α} (h : a ∈ l) : ∃ m, (a :: m).Perm l := by
  obtain ⟨before, after, rfl⟩ := List.append_of_mem h
  exact ⟨before ++ after, List.perm_middle.symm⟩

theorem exists_perm_concat {a : α} (h : a ∈ l) : ∃ m, (m ++ [a]).Perm l := by
  obtain ⟨m, hm⟩ := exists_perm_cons h
  exact ⟨m, List.perm_append_comm.trans hm⟩

theorem OrderFree.congr {f g : List α → γ} (h : ∀ m, f m = g m) : OrderFree f l ↔ OrderFree g l := by
  simp only [OrderFree, h]

theorem orderFree_prod {δ : Type*} {f : List α → γ} {g : List α → δ} :
    OrderFree (fun m => (f m, g m)) l ↔ OrderFree f l ∧ OrderFree g l := by
  constructor
  · intro h
    exact ⟨fun m hm => congrArg Prod.fst (h m hm), fun m hm => congrArg Prod.snd (h m hm)⟩
  · intro ⟨hf, hg⟩ m hm
    exact Prod.ext (hf m hm) (hg m hm)

theorem orderFree_any (p : α → Bool) : OrderFree (fun m => m.any p) l := by
  intro m hm
  apply Bool.eq_iff_iff.mpr
  simp only [List.any_eq_true, hm.mem_iff]

end Folds

section Latest

variable {given : α → Option β} {l : List α} {kept : Option β}

def latestOf (given : α → Option β) (l : List α) : Option β := l.foldl (fun kept a => latest kept (given a)) none

theorem latestOf_concat {a : α} : latestOf given (l ++ [a]) = (given a).or (latestOf given l) := by
  simp [latestOf, latest]

theorem mem_of_foldl_latest {x : β} (h : l.foldl (fun kept a => latest kept (given a)) kept = some x) :
    kept = some x ∨ ∃ a ∈ l, given a = some x := by
  induction l generalizing kept with
  | nil => exact .inl h
  | cons a l ih =>
    cases ih h with
    | inl hnow =>
      cases hg : given a with
      | none =>
        simp only [hg] at hnow
        exact .inl hnow
      | some y =>
        simp only [hg] at hnow
        exact .inr ⟨a, List.mem_cons_self, hg.trans hnow⟩
    | inr hlater =>
      obtain ⟨b, hb, hgiven⟩ := hlater
      exact .inr ⟨b, List.mem_cons_of_mem a hb, hgiven⟩

theorem exists_foldl_latest (h : kept.isSome ∨ ∃ a ∈ l, (given a).isSome) :
    (l.foldl (fun kept a => latest kept (given a)) kept).isSome := by
  induction l generalizing kept with
  | nil => simpa using h
  | cons a l ih =>
    apply ih
    by_cases ha : (given a).isSome
    · simp [latest, Option.isSome_or, ha]
    · simp only [List.mem_cons, exists_eq_or_imp, ha, Bool.false_eq_true, false_or] at h
      simpa [latest, Option.isSome_or, ha] using h

theorem exists_of_latestOf {x : β} (h : latestOf given l = some x) : ∃ a ∈ l, given a = some x :=
  (mem_of_foldl_latest h).resolve_left (by simp)

theorem latestOf_eq_of_unanimous {a : α} {x : β} (h : Unanimous given l) (ha : a ∈ l) (hx : given a = some x) :
    latestOf given l = some x := by
  have hsome : (latestOf given l).isSome := exists_foldl_latest (.inr ⟨a, ha, by simp [hx]⟩)
  obtain ⟨y, hy⟩ := Option.isSome_iff_exists.mp hsome
  obtain ⟨b, hb, hgiven⟩ := exists_of_latestOf hy
  rw [hy, h a ha b hb x hx y hgiven]

theorem latestOf_eq_none (h : ∀ a ∈ l, given a = none) : latestOf given l = none := by
  by_contra hne
  obtain ⟨x, hx⟩ := Option.ne_none_iff_exists'.mp hne
  obtain ⟨a, ha, hgiven⟩ := exists_of_latestOf hx
  simp [h a ha] at hgiven

theorem latestOf_filter {p : α → Bool} (h : ∀ a ∈ l, ¬ p a → given a = none) :
    latestOf given (l.filter p) = latestOf given l := by
  unfold latestOf
  rw [List.foldl_filter]
  apply List.foldl_ext
  intro kept a ha
  by_cases hp : p a
  · simp [hp]
  · simp [hp, h a ha hp, latest]

theorem orderFree_latestOf_iff : OrderFree (latestOf given) l ↔ Unanimous given l := by
  constructor
  · intro h a ha b hb x hx y hy
    obtain ⟨m, hm⟩ := exists_perm_concat ha
    obtain ⟨n, hn⟩ := exists_perm_concat hb
    have hax : latestOf given (m ++ [a]) = some x := by rw [latestOf_concat, hx, Option.some_or]
    have hby : latestOf given (n ++ [b]) = some y := by rw [latestOf_concat, hy, Option.some_or]
    exact Option.some.inj (hax.symm.trans ((h _ hm).trans ((h _ hn).symm.trans hby)))
  · intro h m hm
    by_cases hnone : ∀ a ∈ l, given a = none
    · rw [latestOf_eq_none hnone, latestOf_eq_none (fun a ha => hnone a (hm.mem_iff.mp ha))]
    simp only [not_forall] at hnone
    obtain ⟨a, ha, hne⟩ := hnone
    obtain ⟨x, hx⟩ := Option.ne_none_iff_exists'.mp hne
    rw [latestOf_eq_of_unanimous h ha hx,
      latestOf_eq_of_unanimous ((unanimous_perm hm).mpr h) (hm.mem_iff.mpr ha) hx]

end Latest

variable [DecidableEq β] {top : β} {given : α → Option β} {l : List α} {kept : Option β}

def dominantOf (top : β) (given : α → Option β) (l : List α) : Option β :=
  l.foldl (fun kept a => dominant top kept (given a)) none

@[simp] theorem dominant_none (kept : Option β) : dominant top kept none = kept := by
  unfold dominant
  split <;> simp

@[simp] theorem dominant_top (kept : Option β) : dominant top kept (some top) = some top := by
  simp [dominant]

@[simp] theorem top_dominant (given : Option β) : dominant top (some top) given = some top := by
  unfold dominant
  split
  · next h => simp [h.resolve_right (by simp)]
  · rfl

theorem foldl_dominant_top : l.foldl (fun kept a => dominant top kept (given a)) (some top) = some top := by
  induction l with
  | nil => rfl
  | cons a l ih => simpa using ih

theorem foldl_dominant_of_mem {a : α} (ha : a ∈ l) (h : given a = some top) :
    l.foldl (fun kept a => dominant top kept (given a)) kept = some top := by
  obtain ⟨before, after, rfl⟩ := List.append_of_mem ha
  rw [List.foldl_append, List.foldl_cons, h, dominant_top, foldl_dominant_top]

theorem foldl_dominant_some {x : β} (h : ∀ a ∈ l, given a ≠ some top) :
    l.foldl (fun kept a => dominant top kept (given a)) (some x) = some x := by
  induction l with
  | nil => rfl
  | cons a l ih =>
    have hkeep : dominant top (some x) (given a) = some x := by simp [dominant, h a List.mem_cons_self]
    rw [List.foldl_cons, hkeep]
    exact ih (fun b hb => h b (List.mem_cons_of_mem a hb))

theorem dominantOf_of_mem {a : α} (ha : a ∈ l) (h : given a = some top) : dominantOf top given l = some top :=
  foldl_dominant_of_mem ha h

theorem dominantOf_cons {a : α} {x : β} (hx : given a = some x) (h : ∀ b ∈ l, given b ≠ some top) :
    dominantOf top given (a :: l) = some x := by
  have hfirst : dominant top none (some x) = some x := by simp [dominant]
  rw [dominantOf, List.foldl_cons, hx, hfirst]
  exact foldl_dominant_some h

theorem dominantOf_eq_findSome (h : ∀ a ∈ l, given a ≠ some top) : dominantOf top given l = l.findSome? given := by
  induction l with
  | nil => rfl
  | cons a l ih =>
    have hrest : ∀ b ∈ l, given b ≠ some top := fun b hb => h b (List.mem_cons_of_mem a hb)
    cases hg : given a with
    | none =>
      rw [dominantOf, List.foldl_cons, hg, dominant_none, List.findSome?_cons, hg]
      exact ih hrest
    | some x => rw [dominantOf_cons hg hrest, List.findSome?_cons, hg]

theorem dominantOf_filter {p : α → Bool} (h : ∀ a ∈ l, ¬ p a → given a = none) :
    dominantOf top given (l.filter p) = dominantOf top given l := by
  unfold dominantOf
  rw [List.foldl_filter]
  apply List.foldl_ext
  intro kept a ha
  by_cases hp : p a
  · simp [hp]
  · simp [hp, h a ha hp]

theorem orderFree_dominantOf_iff :
    OrderFree (dominantOf top given) l ↔ (∃ a ∈ l, given a = some top) ∨ Unanimous given l := by
  by_cases htop : ∃ a ∈ l, given a = some top
  · simp only [htop, true_or, iff_true]
    obtain ⟨a, ha, hx⟩ := htop
    intro m hm
    rw [dominantOf_of_mem ha hx, dominantOf_of_mem (hm.mem_iff.mpr ha) hx]
  · simp only [htop, false_or]
    have hother : ∀ {m : List α}, m.Perm l → ∀ a ∈ m, given a ≠ some top :=
      fun hm a ha hx => htop ⟨a, hm.mem_iff.mp ha, hx⟩
    constructor
    · intro h a ha b hb x hx y hy
      obtain ⟨m, hm⟩ := exists_perm_cons ha
      obtain ⟨n, hn⟩ := exists_perm_cons hb
      have hax := dominantOf_cons hx (fun c hc => hother hm c (List.mem_cons_of_mem a hc))
      have hby := dominantOf_cons hy (fun c hc => hother hn c (List.mem_cons_of_mem b hc))
      exact Option.some.inj (hax.symm.trans ((h _ hm).trans ((h _ hn).symm.trans hby)))
    · intro h m hm
      rw [dominantOf_eq_findSome (hother hm), dominantOf_eq_findSome (hother (List.Perm.refl l))]
      cases hfound : l.findSome? given with
      | none =>
        rw [List.findSome?_eq_none_iff] at hfound ⊢
        exact fun a ha => hfound a (hm.mem_iff.mp ha)
      | some x =>
        obtain ⟨a, ha, hx⟩ := List.exists_of_findSome?_eq_some hfound
        have hsome : (m.findSome? given).isSome :=
          List.findSome?_isSome_iff.mpr ⟨a, hm.mem_iff.mpr ha, by simp [hx]⟩
        obtain ⟨y, hy⟩ := Option.isSome_iff_exists.mp hsome
        obtain ⟨b, hb, hgiven⟩ := List.exists_of_findSome?_eq_some hy
        rw [hy, h a ha b (hm.mem_iff.mp hb) x hx y hgiven]

end Kirara.Precedence
