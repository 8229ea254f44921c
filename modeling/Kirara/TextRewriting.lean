import Kirara.Channels

namespace Kirara.TextRewriting

open Kirara.Channels

/-! Replacing every match of a pattern that is a word of a list and something behind it. -/

/-- The alternatives a match begins with, in small letters, its rest, and what is written. -/
structure Rule where
  leads : List Text
  tail : Text → Option Text
  mark : Text
  leads_ne_nil : ∀ lead ∈ leads, lead ≠ []
  tail_suffix : ∀ t rest, tail t = some rest → rest <:+ t

variable (fold : Char → Char) (word : Char → Bool)

/-- The lead is found at the front of a text, whatever the case of its letters. -/
def Begins (lead t : Text) : Prop := (t.take lead.length).map fold = lead

instance (lead t : Text) : Decidable (Begins fold lead t) := inferInstanceAs (Decidable (_ = _))

/-- The lead as it stands in the text, and the rest behind the match. -/
def Rule.find (r : Rule) (t : Text) : Option (Text × Text) :=
  r.leads.findSome? (fun lead =>
    if Begins fold lead t then
      (r.tail (t.drop lead.length)).map (fun rest => (t.take lead.length, rest))
    else none)

def boundary (prev : Option Char) (c : Char) : Bool := prev.any word != word c

def Rule.matchAt (r : Rule) (prev : Option Char) : Text → Option (Text × Text)
  | [] => none
  | c :: t => if boundary word prev c then r.find fold (c :: t) else none

/-- One pass of `re.sub`, with the number of characters still to be left out. -/
def Rule.rewrite (r : Rule) : Option Char → Nat → Text → Text
  | _, _, [] => []
  | _, n + 1, c :: t => r.rewrite (some c) n t
  | prev, 0, c :: t =>
    match r.matchAt fold word prev (c :: t) with
    | some (lead, rest) => lead ++ r.mark ++ r.rewrite (some c) (t.length - rest.length) t
    | none => c :: r.rewrite (some c) 0 t

section Passes

variable {fold word} {r : Rule} {prev : Option Char} {c : Char} {t lead rest : Text}

theorem begins_append {x y : Text} (h : x.map fold = lead) : Begins fold lead (x ++ y) := by
  have hlen : lead.length = x.length := by rw [← h, List.length_map]
  rw [Begins, hlen, List.take_left', h]
  rfl

theorem Begins.exists_append (h : Begins fold lead t) :
    ∃ x y, t = x ++ y ∧ x.map fold = lead ∧ x.length = lead.length := by
  refine ⟨t.take lead.length, t.drop lead.length, (List.take_append_drop _ _).symm, h, ?_⟩
  rw [← List.length_map (f := fold), h]

theorem find_cases {x rest : Text} (h : r.find fold t = some (x, rest)) :
    ∃ y, t = x ++ y ∧ x.map fold ∈ r.leads ∧ r.tail y = some rest := by
  obtain ⟨lead, hlead, hf⟩ := List.exists_of_findSome?_eq_some h
  split at hf
  · next hb =>
    obtain ⟨rest', ht, he⟩ := Option.map_eq_some_iff.mp hf
    cases he
    exact ⟨t.drop lead.length, (List.take_append_drop _ _).symm, hb.symm ▸ hlead, ht⟩
  · cases hf

theorem find_of_lead {x y rest : Text} (hx : x.map fold ∈ r.leads) (ht : r.tail y = some rest)
    (hu : ∀ u v, x ++ y = u ++ v → u.map fold ∈ r.leads → (r.tail v).isSome → u = x) :
    r.find fold (x ++ y) = some (x, rest) := by
  have hsome : (r.find fold (x ++ y)).isSome := by
    rw [Rule.find, List.findSome?_isSome_iff]
    refine ⟨x.map fold, hx, ?_⟩
    rw [if_pos (begins_append rfl), List.length_map, List.drop_left', ht]
    · rfl
    · rfl
  obtain ⟨⟨u, rest'⟩, hf⟩ := Option.isSome_iff_exists.mp hsome
  obtain ⟨v, he, hu', hv⟩ := find_cases hf
  obtain rfl := hu u v he hu' (by rw [hv]; rfl)
  obtain rfl := List.append_cancel_left he
  rw [hf, Option.some.inj (hv.symm.trans ht)]

theorem find_eq_none_iff :
    r.find fold t = none ↔ ∀ x y, t = x ++ y → x.map fold ∈ r.leads → r.tail y = none := by
  rw [Rule.find, List.findSome?_eq_none_iff]
  constructor
  · intro h x y he hx
    have hl := h _ hx
    rw [he, if_pos (begins_append rfl), Option.map_eq_none_iff, List.length_map, List.drop_left' rfl] at hl
    exact hl
  · intro h lead hlead
    by_cases hb : Begins fold lead t
    · rw [if_pos hb, Option.map_eq_none_iff]
      exact h _ _ (List.take_append_drop _ _).symm (hb.symm ▸ hlead)
    · rw [if_neg hb]

theorem lead_length_pos {x : Text} (hx : x.map fold ∈ r.leads) : 0 < x.length := by
  apply List.length_pos_iff.mpr
  rintro rfl
  exact r.leads_ne_nil _ hx rfl

/-- A character that a match can begin with. -/
def Rule.Starter (fold : Char → Char) (r : Rule) (c : Char) : Prop :=
  ∃ lead ∈ r.leads, lead.head? = some (fold c)

theorem starter_of_lead {x y : Text} (hx : x.map fold ∈ r.leads) (ht : c :: t = x ++ y) : r.Starter fold c := by
  cases x with
  | nil => exact absurd rfl (r.leads_ne_nil _ hx)
  | cons d x =>
    obtain ⟨rfl, -⟩ := List.cons.inj ht
    exact ⟨_, hx, rfl⟩

theorem matchAt_of_not_starter (h : ¬ r.Starter fold c) : r.matchAt fold word prev (c :: t) = none := by
  have hf : r.find fold (c :: t) = none :=
    find_eq_none_iff.mpr (fun x y he hx => absurd (starter_of_lead hx he) h)
  simp [Rule.matchAt, hf]

variable (fold word r) in
theorem rewrite_skip (prev : Option Char) (n : Nat) (t : Text) :
    ∃ q, r.rewrite fold word prev n t = r.rewrite fold word q 0 (t.drop n) := by
  induction n generalizing prev t with
  | zero => exact ⟨prev, rfl⟩
  | succ n ih =>
    cases t with
    | nil => exact ⟨prev, rfl⟩
    | cons c t => exact ih (some c) t

theorem rewrite_of_none (h : r.matchAt fold word prev (c :: t) = none) :
    r.rewrite fold word prev 0 (c :: t) = c :: r.rewrite fold word (some c) 0 t := by
  rw [Rule.rewrite, h]

theorem rewrite_of_some {x : Text} (h : r.matchAt fold word prev t = some (x, rest)) :
    ∃ y q, t = x ++ y ∧ x.map fold ∈ r.leads ∧ r.tail y = some rest ∧
      r.rewrite fold word prev 0 t = x ++ r.mark ++ r.rewrite fold word q 0 rest := by
  cases t with
  | nil => cases h
  | cons c t =>
    have hf : r.find fold (c :: t) = some (x, rest) := by
      rw [Rule.matchAt] at h
      split at h
      · exact h
      · cases h
    obtain ⟨y, he, hx, hy⟩ := find_cases hf
    have hrest : rest <:+ t := by
      have hxy : y <:+ t := by
        cases x with
        | nil => exact absurd rfl (r.leads_ne_nil _ hx)
        | cons d x => exact ⟨x, (List.cons.inj he).2.symm⟩
      exact (r.tail_suffix y rest hy).trans hxy
    obtain ⟨q, hq⟩ := rewrite_skip fold word r (some c)
      (t.length - rest.length) t
    refine ⟨y, q, he, hx, hy, ?_⟩
    rw [← List.suffix_iff_eq_drop.mp hrest] at hq
    rw [Rule.rewrite, h]
    dsimp only
    rw [hq]

variable (fold word r) in
theorem rewrite_head? (prev : Option Char) (t : Text) : (r.rewrite fold word prev 0 t).head? = t.head? := by
  cases t with
  | nil => rfl
  | cons c t =>
    cases hm : r.matchAt fold word prev (c :: t) with
    | none => rw [rewrite_of_none hm]; rfl
    | some p =>
      obtain ⟨y, q, he, hx, -, hr⟩ := rewrite_of_some hm
      have hne : p.1 ≠ [] := fun h => r.leads_ne_nil _ hx (by rw [h]; rfl)
      rw [hr, he, List.append_assoc, List.head?_append_of_ne_nil _ hne, List.head?_append_of_ne_nil _ hne]

theorem rewrite_prev (h : ∀ c ∈ t.head?, ¬ r.Starter fold c) (p q : Option Char) :
    r.rewrite fold word p 0 t = r.rewrite fold word q 0 t := by
  cases t with
  | nil => rfl
  | cons c t =>
    have hc := h c rfl
    rw [rewrite_of_none (matchAt_of_not_starter hc), rewrite_of_none (matchAt_of_not_starter hc)]

variable (word) in
theorem dropWhile_rewrite {f : Char → Bool} (hf : ∀ c, f c = true → ¬ r.Starter fold c)
    (p : Option Char) (t : Text) :
    ∃ q, (r.rewrite fold word p 0 t).dropWhile f = r.rewrite fold word q 0 (t.dropWhile f) := by
  induction t generalizing p with
  | nil => exact ⟨p, rfl⟩
  | cons c t ih =>
    cases hc : f c with
    | true =>
      rw [rewrite_of_none (matchAt_of_not_starter (hf c hc)), List.dropWhile_cons_of_pos hc,
        List.dropWhile_cons_of_pos hc]
      exact ih (some c)
    | false =>
      have hn : ¬ f c = true := by simp [hc]
      have hhead := rewrite_head? fold word r p (c :: t)
      obtain ⟨u, hu⟩ := List.head?_eq_some_iff.mp (hhead.trans rfl)
      refine ⟨p, ?_⟩
      rw [List.dropWhile_cons_of_neg hn, hu, List.dropWhile_cons_of_neg hn]

def compatible (s t : Text) : Bool := s.isPrefixOf t || t.isPrefixOf s

theorem compatible_of_append {u v x y : Text} (h : u ++ v = x ++ y) : compatible u x = true := by
  rw [compatible, Bool.or_eq_true, List.isPrefixOf_iff_prefix, List.isPrefixOf_iff_prefix]
  exact List.prefix_or_prefix_of_prefix ⟨v, h⟩ ⟨y, rfl⟩

def Rule.passable (r : Rule) : Text → Bool
  | [] => true
  | c :: t => r.leads.all (fun lead => !compatible lead (c :: t)) && r.passable t

variable (fold word) in
theorem rewrite_passable {x : Text} (h : r.passable (x.map fold) = true) (p : Option Char)
    (y : Text) : ∃ q, r.rewrite fold word p 0 (x ++ y) = x ++ r.rewrite fold word q 0 y := by
  induction x generalizing p with
  | nil => exact ⟨p, rfl⟩
  | cons c x ih =>
    rw [List.map_cons, Rule.passable, Bool.and_eq_true] at h
    have hm : r.matchAt fold word p (c :: (x ++ y)) = none := by
      have hf : r.find fold (c :: (x ++ y)) = none := by
        refine find_eq_none_iff.mpr (fun u v he hu => ?_)
        have hc := List.all_eq_true.mp h.1 _ hu
        have he' := congrArg (List.map fold) he
        rw [List.map_cons, List.map_append, List.map_append, ← List.cons_append] at he'
        rw [compatible_of_append he'.symm] at hc
        cases hc
      simp [Rule.matchAt, hf]
    obtain ⟨q, hq⟩ := ih h.2 (some c)
    exact ⟨q, by rw [List.cons_append, rewrite_of_none hm, hq, List.cons_append]⟩

end Passes

variable {fold word} {r s : Rule}

/-- A tail that is found behind a rewritten text is found behind the text. -/
def Reflects (fold : Char → Char) (word : Char → Bool) (r s : Rule) : Prop :=
  ∀ p t, (r.tail (s.rewrite fold word p 0 t)).isSome → (r.tail t).isSome

/-- The same for a lead that ends in a match of the other rule. -/
def LeadsReflect (fold : Char → Char) (r s : Rule) (S : Text → Prop) : Prop :=
  ∀ c x y z w rest, S (c :: x) → y.map fold ∈ s.leads → s.tail w = some rest →
    Begins fold (c :: x) (y ++ s.mark ++ z) →
      (r.tail ((y ++ s.mark ++ z).drop (x.length + 1))).isSome →
        Begins fold (c :: x) (y ++ w) ∧ (r.tail ((y ++ w).drop (x.length + 1))).isSome

theorem begins_cons {c d : Char} {x t : Text} :
    Begins fold (c :: x) (d :: t) ↔ fold d = c ∧ Begins fold x t := by
  simp [Begins]

theorem lead_reflected {S : Text → Prop} (hS : ∀ c x, S (c :: x) → S x) (ht : Reflects fold word r s)
    (hl : LeadsReflect fold r s S) {x : Text} (hx : S x) {p : Option Char} {t : Text}
    (hb : Begins fold x (s.rewrite fold word p 0 t))
    (hsome : (r.tail ((s.rewrite fold word p 0 t).drop x.length)).isSome) :
    Begins fold x t ∧ (r.tail (t.drop x.length)).isSome := by
  induction x generalizing p t with
  | nil => exact ⟨rfl, ht p t hsome⟩
  | cons c x ih =>
    cases t with
    | nil => simp [Rule.rewrite, Begins] at hb
    | cons d t =>
      cases hm : s.matchAt fold word p (d :: t) with
      | none =>
        rw [rewrite_of_none hm] at hb hsome
        obtain ⟨hd, hb⟩ := begins_cons.mp hb
        obtain ⟨hi, his⟩ := ih (hS c x hx) hb hsome
        exact ⟨begins_cons.mpr ⟨hd, hi⟩, his⟩
      | some m =>
        obtain ⟨y, q, he, hy, hrest, hr⟩ := rewrite_of_some hm
        rw [hr] at hb hsome
        rw [he]
        exact hl c x m.1 _ y m.2 hx hy hrest hb hsome

theorem matchAt_rewrite_none {S : Text → Prop} (hS : ∀ c x, S (c :: x) → S x)
    (hleads : ∀ lead ∈ r.leads, S lead.tail) (ht : Reflects fold word r s)
    (hl : LeadsReflect fold r s S) {p : Option Char} {c : Char} {t : Text}
    (h : r.matchAt fold word p (c :: t) = none) :
    r.matchAt fold word p (c :: s.rewrite fold word (some c) 0 t) = none := by
  by_cases hb : boundary word p c = true
  · rw [Rule.matchAt, if_pos hb] at h ⊢
    refine find_eq_none_iff.mpr (fun x y he hx => ?_)
    cases x with
    | nil => exact absurd rfl (r.leads_ne_nil _ hx)
    | cons d x =>
      obtain ⟨rfl, htail⟩ := List.cons.inj he
      by_contra hy
      have hbegins : Begins fold (x.map fold) (s.rewrite fold word (some c) 0 t) := by
        rw [htail]
        exact begins_append rfl
      have hdrop : (s.rewrite fold word (some c) 0 t).drop (x.map fold).length = y := by
        rw [htail, List.length_map]
        exact List.drop_left' rfl
      have hsome : (r.tail ((s.rewrite fold word (some c) 0 t).drop (x.map fold).length)).isSome := by
        rw [hdrop]
        exact Option.isSome_iff_ne_none.mpr hy
      have hsuffix : S (x.map fold) := hleads _ hx
      obtain ⟨hbt, hts⟩ := lead_reflected hS ht hl hsuffix hbegins hsome
      obtain ⟨u, v, rfl, hu, hlen⟩ := hbt.exists_append
      have hnone := find_eq_none_iff.mp h (c :: u) v rfl (by rw [List.map_cons, hu]; exact hx)
      rw [← hlen, List.drop_left' rfl, hnone] at hts
      cases hts
  · rw [Rule.matchAt, if_neg hb]

end Kirara.TextRewriting
