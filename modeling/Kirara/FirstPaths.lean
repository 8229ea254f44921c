import Kirara.DepthFirst
import Mathlib.Data.List.TakeWhile

namespace Kirara.FirstPaths

open Kirara.DepthFirst

variable {α : Type} {succ : α → List α}

/-- A cycle without repetitions, from any of its nodes. -/
structure IsCycle (succ : α → List α) (nodes : List α) : Prop where
  nodup : nodes.Nodup
  chain : nodes.IsChain (fun a b => b ∈ succ a)
  closed : ∃ a ∈ nodes.head?, ∃ b ∈ nodes.getLast?, a ∈ succ b

/-- A path from the deepest node back, and successors of its deepest node. -/
structure Walk (succ : α → List α) (p cs : List α) : Prop where
  nodup : p.Nodup
  chain : p.IsChain (fun a b => a ∈ succ b)
  next : ∀ c ∈ cs, ∀ v ∈ p.head?, c ∈ succ v

variable {c : α}

theorem Walk.tail {p cs : List α} (h : Walk succ p (c :: cs)) : Walk succ p cs :=
  ⟨h.nodup, h.chain, fun d hd => h.next d (List.mem_cons_of_mem _ hd)⟩

theorem Walk.step {p cs : List α} (h : Walk succ p (c :: cs)) (hc : c ∉ p) : Walk succ (c :: p) (succ c) where
  nodup := List.nodup_cons.mpr ⟨hc, h.nodup⟩
  chain := List.isChain_cons.mpr ⟨h.next c List.mem_cons_self, h.chain⟩
  next d hd v hv := by
    cases hv
    exact hd

/-- No path without repetitions has more than `limit` nodes. -/
def Shallow (succ : α → List α) (limit : Nat) : Prop :=
  ∀ p : List α, p.Nodup → p.IsChain (fun a b => b ∈ succ a) → p.length ≤ limit

section Scans

variable [DecidableEq α] {limit : Nat} {V W p cs : List α} {out : List (Finding α)}

theorem closing_isCycle (h : Walk succ p (c :: cs)) (hc : c ∈ p) : IsCycle succ (closing p c) := by
  have hsuffix : closing p c <:+ p.reverse := List.dropWhile_suffix _
  have hne : closing p c ≠ [] := by
    unfold closing
    rw [Ne, List.dropWhile_eq_nil_iff]
    intro hall
    simpa using hall c (List.mem_reverse.mpr hc)
  refine ⟨hsuffix.sublist.nodup (List.nodup_reverse.mpr h.nodup),
    List.IsChain.suffix (List.isChain_reverse.mpr h.chain) hsuffix, ?_⟩
  obtain ⟨v, hv⟩ := Option.isSome_iff_exists.mp (List.isSome_head?.mpr (List.ne_nil_of_mem hc))
  refine ⟨c, ?_, v, ?_, h.next c List.mem_cons_self v hv⟩
  · have hfirst := List.head?_dropWhile_not (fun x => decide (x ≠ c)) p.reverse
    obtain ⟨a, ha⟩ := Option.isSome_iff_exists.mp (List.isSome_head?.mpr hne)
    unfold closing at ha ⊢
    rw [ha] at hfirst ⊢
    simpa using hfirst
  · obtain ⟨front, hfront⟩ := hsuffix
    have hlast : p.reverse.getLast? = some v := by rw [List.getLast?_reverse]; exact hv
    rw [← hfront, List.getLast?_append_of_ne_nil _ hne] at hlast
    exact hlast

theorem found_isCycle (h : Explores succ limit V p cs W out) (hw : Walk succ p cs)
    {nodes : List α} (hn : .cycle nodes ∈ out) : IsCycle succ nodes := by
  induction h with
  | done => cases hn
  | closes hc _ ih =>
    cases hn with
    | head => exact closing_isCycle hw hc
    | tail _ hn => exact ih hw.tail hn
  | skips _ _ _ ih => exact ih hw.tail hn
  | stops _ _ _ _ ih =>
    cases hn with
    | tail _ hn => exact ih hw.tail hn
  | enters hc _ _ _ _ ihi ih =>
    cases List.mem_append.mp hn with
    | inl hn => exact ihi (hw.step hc) hn
    | inr hn => exact ih hw.tail hn

theorem shallow_not_tooDeep (hs : Shallow succ limit) (h : Explores succ limit V p cs W out)
    (hw : Walk succ p cs) (x : α) : .tooDeep x ∉ out := by
  intro hx
  induction h with
  | done => cases hx
  | closes _ _ ih =>
    cases hx with
    | tail _ hx => exact ih hw.tail hx
  | skips _ _ _ ih => exact ih hw.tail hx
  | stops hc _ hl _ ih =>
    cases hx with
    | head =>
      have hstep := hw.step hc
      have hlen := hs _ (List.nodup_reverse.mpr hstep.nodup) (List.isChain_reverse.mpr hstep.chain)
      rw [List.length_reverse, List.length_cons] at hlen
      omega
    | tail _ hx => exact ih hw.tail hx
  | enters hc _ _ _ _ ihi ih =>
    cases List.mem_append.mp hx with
    | inl hx => exact ihi (hw.step hc) hx
    | inr hx => exact ih hw.tail hx

end Scans

/-- There is a path from `a` to `b` that meets no node of `avoid`. -/
def Reaches (succ : α → List α) (avoid : List α) (a b : α) : Prop :=
  a ∉ avoid ∧ Relation.ReflTransGen (fun x y => y ∈ succ x ∧ y ∉ avoid) a b

variable {avoid : List α}

theorem Reaches.refl {a : α} (h : a ∉ avoid) : Reaches succ avoid a a :=
  ⟨h, .refl⟩

theorem Reaches.from_succ {a b c : α} (ha : a ∉ avoid) (hb : b ∈ succ a)
    (h : Reaches succ avoid b c) : Reaches succ avoid a c :=
  ⟨ha, .head ⟨hb, h.1⟩ h.2⟩

theorem Reaches.trans {a b c : α} (h : Reaches succ avoid a b)
    (h' : Reaches succ avoid b c) : Reaches succ avoid a c := ⟨h.1, h.2.trans h'.2⟩

variable {A B : List α} {a b : α}

theorem Reaches.anti (hAB : A ⊆ B) (h : Reaches succ B a b) : Reaches succ A a b :=
  ⟨fun ha => h.1 (hAB ha),
    Relation.ReflTransGen.mono (fun _ _ hxy => ⟨hxy.1, fun hy => hxy.2 (hAB hy)⟩) _ _ h.2⟩

theorem Reaches.rec_head {b : α} {P : α → Prop} (hrefl : b ∉ avoid → P b)
    (hstep : ∀ a c, a ∉ avoid → c ∈ succ a → Reaches succ avoid c b → P c → P a) {a : α}
    (h : Reaches succ avoid a b) : P a := by
  obtain ⟨ha, hp⟩ := h
  revert ha
  induction hp using Relation.ReflTransGen.head_induction_on with
  | refl => exact hrefl
  | head hxy hyb ih => exact fun hx => hstep _ _ hx hxy.1 ⟨hxy.2, hyb⟩ (ih hxy.2)

theorem Reaches.right_not_mem (h : Reaches succ avoid a b) : b ∉ avoid :=
  Reaches.rec_head (P := fun _ => b ∉ avoid) (fun hb => hb) (fun _ _ _ _ _ ih => ih) h

/-- Successors of nodes entered and not on the path have been entered too. -/
def Closed (succ : α → List α) (V p : List α) : Prop :=
  ∀ x ∈ V, x ∉ p → ∀ y ∈ succ x, y ∈ V

theorem Closed.reaches {U V p : List α} (hU : Closed succ U p) (hp : p ⊆ V)
    (h : Reaches succ V a b) : a ∈ U → b ∈ U := by
  refine Reaches.rec_head (P := fun a => a ∈ U → b ∈ U) (fun _ hb => hb) ?_ h
  exact fun x y hx hy _ ih hxU => ih (hU x hxU (fun hxp => hx (hp hxp)) y hy)

theorem Closed.reaches_outside {U V p : List α} (hU : Closed succ U p) (hp : p ⊆ V)
    (hb : b ∉ U) (h : Reaches succ V a b) : Reaches succ U a b := by
  refine Reaches.rec_head (P := fun a => Reaches succ U a b) (fun _ => .refl hb) ?_ h
  intro x y hx hy hyb ih
  refine ih.from_succ (fun hxU => hb ?_) hy
  exact hU.reaches hp (hyb.from_succ hx hy) hxU

section Exploration

variable [DecidableEq α] {limit : Nat} {V W p cs : List α} {out : List (Finding α)}

/-- What has been visited when successors have been examined. -/
structure Visits (succ : α → List α) (V p cs W : List α) : Prop where
  closed : Closed succ W p
  mem : ∀ x, x ∈ W ↔ x ∈ V ∨ ∃ c ∈ cs, Reaches succ V c x

theorem Visits.leave {U : List α} (hi : Visits succ (c :: V) (c :: p) (succ c) U) : Closed succ U p := by
  intro x hx hxp y hy
  by_cases hxc : x = c
  · rw [hi.mem]
    by_cases hyV : y ∈ c :: V
    · exact .inl hyV
    · exact .inr ⟨y, hxc ▸ hy, .refl hyV⟩
  · exact hi.closed x hx (by simp [hxc, hxp]) y hy

theorem Visits.enters {U : List α} (hp : p ⊆ V) (hcV : c ∉ V)
    (hi : Visits succ (c :: V) (c :: p) (succ c) U) (hU : Visits succ U p cs W) :
    Visits succ V p (c :: cs) W := by
  have hVU : c :: V ⊆ U := fun x hx => (hi.mem x).mpr (.inl hx)
  refine ⟨hU.closed, fun x => ?_⟩
  rw [hU.mem]
  constructor
  · intro h
    cases h with
    | inl hx =>
      cases (hi.mem x).mp hx with
      | inl hx =>
        cases List.mem_cons.mp hx with
        | inl hx => exact .inr ⟨c, List.mem_cons_self, by rw [hx]; exact .refl hcV⟩
        | inr hx => exact .inl hx
      | inr hx =>
        obtain ⟨s, hs, hreach⟩ := hx
        have hreach := hreach.anti (List.subset_cons_self c V)
        exact .inr ⟨c, List.mem_cons_self, hreach.from_succ hcV hs⟩
    | inr hx =>
      obtain ⟨d, hd, hreach⟩ := hx
      refine .inr ⟨d, List.mem_cons_of_mem _ hd, hreach.anti fun y hy => ?_⟩
      exact hVU (List.mem_cons_of_mem _ hy)
  · intro h
    cases h with
    | inl hx => exact .inl (hVU (List.mem_cons_of_mem _ hx))
    | inr hx =>
      obtain ⟨d, hd, hreach⟩ := hx
      cases List.mem_cons.mp hd with
      | inl heq => exact .inl (hi.leave.reaches hp (heq ▸ hreach) (hVU List.mem_cons_self))
      | inr hd =>
        by_cases hxU : x ∈ U
        · exact .inl hxU
        · exact .inr ⟨d, hd, hi.leave.reaches_outside hp hxU hreach⟩

omit [DecidableEq α] in
theorem Visits.skips (hc : c ∈ V) (h : Visits succ V p cs W) : Visits succ V p (c :: cs) W := by
  refine ⟨h.closed, fun x => ?_⟩
  rw [h.mem]
  apply or_congr_right
  constructor
  · rintro ⟨d, hd, hreach⟩
    exact ⟨d, List.mem_cons_of_mem _ hd, hreach⟩
  · rintro ⟨d, hd, hreach⟩
    cases List.mem_cons.mp hd with
    | inl heq => exact absurd hc (heq ▸ hreach.1)
    | inr hd => exact ⟨d, hd, hreach⟩

theorem explores_visits (h : Explores succ limit V p cs W out) (hp : p ⊆ V)
    (hV : Closed succ V p) (hdeep : ∀ x, .tooDeep x ∉ out) : Visits succ V p cs W := by
  induction h with
  | done => exact ⟨hV, fun x => by simp⟩
  | closes hc _ ih =>
    exact (ih hp hV fun x hx => hdeep x (List.mem_cons_of_mem _ hx)).skips (hp hc)
  | skips _ hc _ ih => exact (ih hp hV hdeep).skips hc
  | stops => exact absurd List.mem_cons_self (hdeep _)
  | @enters V U W p cs c inner out hc hcV _ hi _ ihi ih =>
    have hVi : Closed succ (c :: V) (c :: p) := by
      intro x hx hxp y hy
      rw [List.mem_cons, not_or] at hxp
      have hxV := (List.mem_cons.mp hx).resolve_left hxp.1
      exact List.mem_cons_of_mem _ (hV x hxV hxp.2 y hy)
    have hvi := ihi (List.cons_subset_cons c hp) hVi
      fun x hx => hdeep x (List.mem_append_left _ hx)
    have hpU : p ⊆ U := fun x hx => hi.subset (List.mem_cons_of_mem _ (hp hx))
    have hv := ih hpU hvi.leave fun x hx => hdeep x (List.mem_append_right _ hx)
    exact hvi.enters hp hcV hv

end Exploration

/-- At every step the first node from which `v` can still be reached is taken. -/
inductive FirstPath (succ : α → List α) : List α → List α → α → List α → Prop where
  | stop {A cs : List α} {v : α} (hv : v ∉ A) : FirstPath succ A (v :: cs) v [v]
  | enter {A cs q : List α} {c v : α} (hc : c ∉ A) (h : FirstPath succ (c :: A) (succ c) v q) :
      FirstPath succ A (c :: cs) v (c :: q)
  | pass {A cs q : List α} {c v : α} (hc : ¬ Reaches succ A c v) (h : FirstPath succ A cs v q) :
      FirstPath succ A (c :: cs) v q

variable {v : α}

theorem FirstPath.reaches {A cs q : List α} (h : FirstPath succ A cs v q) : ∃ c ∈ cs, Reaches succ A c v := by
  induction h with
  | stop hv => exact ⟨_, List.mem_cons_self, .refl hv⟩
  | enter hc _ ih =>
    obtain ⟨s, hs, hreach⟩ := ih
    exact ⟨_, List.mem_cons_self, (hreach.anti (List.subset_cons_self _ _)).from_succ hc hs⟩
  | pass _ _ ih =>
    obtain ⟨d, hd, hreach⟩ := ih
    exact ⟨d, List.mem_cons_of_mem _ hd, hreach⟩

theorem FirstPath.not_mem {A cs q : List α} (h : FirstPath succ A cs v q) : v ∉ A := by
  obtain ⟨c, _, hreach⟩ := h.reaches
  exact hreach.right_not_mem

/-- Nodes that do not lead to `v` make no difference to the paths to it. -/
structure Irrelevant (succ : α → List α) (A B : List α) (v : α) : Prop where
  sub : A ⊆ B
  apart : ∀ s ∈ B, s ∉ A → ¬ Reaches succ A s v

theorem Irrelevant.cons (h : Irrelevant succ A B v) (c : α) : Irrelevant succ (c :: A) (c :: B) v where
  sub := List.cons_subset_cons c h.sub
  apart s hs hsA hreach := by
    rw [List.mem_cons, not_or] at hsA
    refine h.apart s ((List.mem_cons.mp hs).resolve_left hsA.1) hsA.2 ?_
    exact hreach.anti (List.subset_cons_self _ _)

theorem Irrelevant.reaches_iff (h : Irrelevant succ A B v) {x : α} :
    Reaches succ A x v ↔ Reaches succ B x v := by
  constructor
  · intro hx
    refine Reaches.rec_head (P := fun x => Reaches succ B x v) ?_ ?_ hx
    · exact fun hv => .refl fun hvB => h.apart v hvB hv (.refl hv)
    · intro a c ha hc hcv ih
      exact ih.from_succ (fun haB => h.apart a haB ha (hcv.from_succ ha hc)) hc
  · exact fun hx => hx.anti h.sub

theorem Irrelevant.not_mem {v x : α} (h : Irrelevant succ A B v)
    (hx : Reaches succ A x v) : x ∉ B := (h.reaches_iff.mp hx).1

theorem Irrelevant.firstPath_iff {A B cs q : List α} (h : Irrelevant succ A B v) :
    FirstPath succ A cs v q ↔ FirstPath succ B cs v q := by
  constructor
  · intro hq
    induction hq generalizing B with
    | stop hv => exact .stop (h.not_mem (.refl hv))
    | @enter A cs q c v hc hrest ih =>
      obtain ⟨s, hs, hreach⟩ := hrest.reaches
      have hcv := (hreach.anti (List.subset_cons_self c A)).from_succ hc hs
      exact .enter (h.not_mem hcv) (ih (h.cons c))
    | pass hc _ ih => exact .pass (fun hreach => hc (h.reaches_iff.mpr hreach)) (ih h)
  · intro hq
    induction hq generalizing A with
    | stop hv => exact .stop fun hvA => hv (h.sub hvA)
    | enter hc _ ih => exact .enter (fun hcA => hc (h.sub hcA)) (ih (h.cons _))
    | pass hc _ ih => exact .pass (fun hreach => hc (h.reaches_iff.mp hreach)) (ih h)

theorem firstPath_cons_iff {A cs q : List α} {c v : α} : FirstPath succ A (c :: cs) v q ↔
    (c ∉ A ∧ (v = c ∧ q = [c] ∨ ∃ r, q = c :: r ∧ FirstPath succ (c :: A) (succ c) v r)) ∨
    (¬ Reaches succ A c v ∧ FirstPath succ A cs v q) := by
  constructor
  · intro h
    cases h with
    | stop hv => exact .inl ⟨hv, .inl ⟨rfl, rfl⟩⟩
    | enter hc h => exact .inl ⟨hc, .inr ⟨_, rfl, h⟩⟩
    | pass hc h => exact .inr ⟨hc, h⟩
  · intro h
    cases h with
    | inr h => exact .pass h.1 h.2
    | inl h =>
      obtain ⟨hc, h | h⟩ := h
      · obtain ⟨rfl, rfl⟩ := h
        exact .stop hc
      · obtain ⟨r, rfl, h⟩ := h
        exact .enter hc h

theorem firstPath_skip {A cs q : List α} {c v : α} (hc : c ∈ A) :
    FirstPath succ A (c :: cs) v q ↔ FirstPath succ A cs v q := by
  rw [firstPath_cons_iff]
  constructor
  · intro h
    cases h with
    | inl h => exact absurd hc h.1
    | inr h => exact h.2
  · exact fun h => .inr ⟨fun hreach => hreach.1 hc, h⟩

variable [DecidableEq α] {limit : Nat} {V W p cs : List α} {out : List (Finding α)}

/-- The cycle is closed by an edge back to the path that first came to its last node. -/
def ClosedOnFirstPath (succ : α → List α) (V p cs : List α) (nodes : List α) : Prop :=
  ∃ v q, FirstPath succ V cs v q ∧
    ∃ u ∈ succ v, u ∈ q.reverse ++ p ∧ nodes = closing (q.reverse ++ p) u

theorem closedOnFirstPath_skip (hc : c ∈ V) {nodes : List α} :
    ClosedOnFirstPath succ V p (c :: cs) nodes ↔ ClosedOnFirstPath succ V p cs nodes := by
  unfold ClosedOnFirstPath
  simp only [firstPath_skip hc]

/-- The paths through `c` come first, then those without the nodes entered from it. -/
theorem closedOnFirstPath_enter {U : List α} (hp : p ⊆ V) (hc : c ∉ V)
    (hU : Visits succ (c :: V) (c :: p) (succ c) U) {nodes : List α} :
    ClosedOnFirstPath succ V p (c :: cs) nodes ↔
      ((∃ u ∈ succ c, u ∈ c :: p ∧ nodes = closing (c :: p) u) ∨
        ClosedOnFirstPath succ (c :: V) (c :: p) (succ c) nodes) ∨
      ClosedOnFirstPath succ U p cs nodes := by
  have hVU : V ⊆ U := fun x hx => (hU.mem x).mpr (.inl (List.mem_cons_of_mem _ hx))
  have hcU : c ∈ U := (hU.mem c).mpr (.inl List.mem_cons_self)
  have hfrom : ∀ s ∈ U, s ∉ V → Reaches succ V c s := by
    intro s hs hsV
    cases (hU.mem s).mp hs with
    | inl hs =>
      have heq := (List.mem_cons.mp hs).resolve_right hsV
      rw [heq]
      exact .refl hc
    | inr hs =>
      obtain ⟨d, hd, hreach⟩ := hs
      exact (hreach.anti (List.subset_cons_self c V)).from_succ hc hd
  have hsame : ∀ v, ¬ Reaches succ V c v → Irrelevant succ V U v := fun v hv =>
    ⟨hVU, fun s hs hsV hreach => hv ((hfrom s hs hsV).trans hreach)⟩
  have happend : ∀ r : List α, (c :: r).reverse ++ p = r.reverse ++ c :: p := by
    intro r
    rw [List.reverse_cons, List.append_assoc, List.singleton_append]
  constructor
  · rintro ⟨v, q, hq, u, hu, hup, hnodes⟩
    rw [firstPath_cons_iff] at hq
    cases hq with
    | inl hq =>
      obtain ⟨_, hq | hq⟩ := hq
      · obtain ⟨rfl, rfl⟩ := hq
        exact .inl (.inl ⟨u, hu, hup, hnodes⟩)
      · obtain ⟨r, rfl, hr⟩ := hq
        rw [happend] at hup hnodes
        exact .inl (.inr ⟨v, r, hr, u, hu, hup, hnodes⟩)
    | inr hq => exact .inr ⟨v, q, (hsame v hq.1).firstPath_iff.mp hq.2, u, hu, hup, hnodes⟩
  · intro h
    obtain (h | h) | h := h
    · obtain ⟨u, hu, hup, hnodes⟩ := h
      exact ⟨c, [c], .stop hc, u, hu, hup, hnodes⟩
    · obtain ⟨v, r, hr, u, hu, hup, hnodes⟩ := h
      rw [← happend] at hup hnodes
      exact ⟨v, c :: r, .enter hc hr, u, hu, hup, hnodes⟩
    · obtain ⟨v, q, hq, u, hu, hup, hnodes⟩ := h
      have hcv : ¬ Reaches succ V c v := fun hreach =>
        hq.not_mem (hU.leave.reaches hp hreach hcU)
      exact ⟨v, q, .pass hcv ((hsame v hcv).firstPath_iff.mpr hq), u, hu, hup, hnodes⟩

theorem explores_cycles (h : Explores succ limit V p cs W out) (hp : p ⊆ V)
    (hV : Closed succ V p) (hdeep : ∀ x, .tooDeep x ∉ out) (nodes : List α) :
    .cycle nodes ∈ out ↔ (∃ c ∈ cs, c ∈ p ∧ nodes = closing p c) ∨
      ClosedOnFirstPath succ V p cs nodes := by
  induction h with
  | done =>
    constructor
    · exact fun h => absurd h List.not_mem_nil
    · rintro (⟨c, hc, _⟩ | ⟨v, q, hq, _⟩)
      · exact absurd hc List.not_mem_nil
      · cases hq
  | @closes V W p cs c out hc _ ih =>
    rw [List.mem_cons, ih hp hV fun x hx => hdeep x (List.mem_cons_of_mem _ hx),
      closedOnFirstPath_skip (hp hc), ← or_assoc]
    apply or_congr_left
    simp only [List.mem_cons, Finding.cycle.injEq, exists_eq_or_imp, hc, true_and]
  | @skips V W p cs c out hcp hc _ ih =>
    rw [ih hp hV hdeep, closedOnFirstPath_skip hc]
    apply or_congr_left
    simp only [List.mem_cons, exists_eq_or_imp, hcp, false_and, false_or]
  | stops => exact absurd List.mem_cons_self (hdeep _)
  | @enters V U W p cs c inner out hcp hcV _ hi _ ihi ih =>
    have hVi : Closed succ (c :: V) (c :: p) := by
      intro x hx hxp y hy
      rw [List.mem_cons, not_or] at hxp
      have hxV := (List.mem_cons.mp hx).resolve_left hxp.1
      exact List.mem_cons_of_mem _ (hV x hxV hxp.2 y hy)
    have hdi : ∀ x, .tooDeep x ∉ inner := fun x hx => hdeep x (List.mem_append_left _ hx)
    have hvi := explores_visits hi (List.cons_subset_cons c hp) hVi hdi
    have hpU : p ⊆ U := fun x hx => hi.subset (List.mem_cons_of_mem _ (hp hx))
    rw [List.mem_append, ihi (List.cons_subset_cons c hp) hVi hdi,
      ih hpU hvi.leave fun x hx => hdeep x (List.mem_append_right _ hx),
      closedOnFirstPath_enter hp hcV hvi, or_left_comm]
    apply or_congr_left
    simp only [List.mem_cons, exists_eq_or_imp, hcp, false_and, false_or]

theorem scan_cycles {roots : List α} (h : Explores succ limit [] [] roots W out)
    (hs : Shallow succ limit) (nodes : List α) : .cycle nodes ∈ out ↔
      ∃ v q, FirstPath succ [] roots v q ∧ ∃ u ∈ succ v, u ∈ q ∧
        nodes = q.dropWhile (fun x => x ≠ u) := by
  have hw : Walk succ [] roots := ⟨List.nodup_nil, List.IsChain.nil, fun c _ v hv => by cases hv⟩
  rw [explores_cycles h (List.nil_subset _) (fun x hx => absurd hx List.not_mem_nil)
    (shallow_not_tooDeep hs h hw)]
  simp [ClosedOnFirstPath, closing]

end Kirara.FirstPaths
