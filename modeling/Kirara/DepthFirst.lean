import Mathlib.Data.Finset.Card
import Mathlib.Data.List.Chain

namespace Kirara.DepthFirst

variable {α : Type} [DecidableEq α]

/-- A scan has met a cycle, from the node the last edge leads back to, or a node too deep. -/
inductive Finding (α : Type) where
  | cycle (nodes : List α)
  | tooDeep (node : α)
  deriving DecidableEq, Repr

/-- The frames of the active path, the deepest first; the nodes entered; what was found. -/
structure Scan (α : Type) where
  stack : List (α × List α)
  visited : List α
  findings : List (Finding α)

def Scan.path (s : Scan α) : List α := s.stack.map Prod.fst

def Scan.start : Scan α := ⟨[], [], []⟩

/-- The part of the active path that an edge back to `c` closes. -/
def closing (p : List α) (c : α) : List α := p.reverse.dropWhile (fun x => x ≠ c)

section Machine

variable (succ : α → List α) (limit : Nat)

def enter (c : α) (s : Scan α) : Scan α :=
  { s with stack := (c, succ c) :: s.stack, visited := c :: s.visited }

def examine (c : α) (s : Scan α) : Scan α :=
  if c ∈ s.path then { s with findings := s.findings ++ [.cycle (closing s.path c)] }
  else if c ∈ s.visited then s
  else if limit ≤ s.stack.length then { s with findings := s.findings ++ [.tooDeep c] }
  else enter succ c s

def loop : Nat → Scan α → Option (Scan α)
  | 0, _ => none
  | n + 1, s =>
    match s.stack with
    | [] => some s
    | (_, []) :: rest => loop n { s with stack := rest }
    | (v, c :: cs) :: rest => loop n (examine succ limit c { s with stack := (v, cs) :: rest })

def scanRoots (n : Nat) : List α → Scan α → Option (Scan α)
  | [], s => some s
  | r :: rs, s =>
    if r ∈ s.visited then scanRoots n rs s
    else (loop succ limit n (enter succ r s)).bind (scanRoots n rs)

def scan (n : Nat) (roots : List α) : Option (List (Finding α)) :=
  (scanRoots succ limit n roots .start).map Scan.findings

/-- What examining the successors `cs` of the end of the path `p` makes of the visited nodes. -/
inductive Explores : List α → List α → List α → List α → List (Finding α) → Prop where
  | done {V p : List α} : Explores V p [] V []
  | closes {V W p cs : List α} {c : α} {out : List (Finding α)} (hp : c ∈ p)
      (h : Explores V p cs W out) : Explores V p (c :: cs) W (.cycle (closing p c) :: out)
  | skips {V W p cs : List α} {c : α} {out : List (Finding α)} (hp : c ∉ p) (hv : c ∈ V)
      (h : Explores V p cs W out) : Explores V p (c :: cs) W out
  | stops {V W p cs : List α} {c : α} {out : List (Finding α)} (hp : c ∉ p) (hv : c ∉ V)
      (hl : limit ≤ p.length) (h : Explores V p cs W out) :
      Explores V p (c :: cs) W (.tooDeep c :: out)
  | enters {V U W p cs : List α} {c : α} {inner out : List (Finding α)} (hp : c ∉ p)
      (hv : c ∉ V) (hl : p.length < limit) (hi : Explores (c :: V) (c :: p) (succ c) U inner)
      (h : Explores U p cs W out) : Explores V p (c :: cs) W (inner ++ out)

end Machine

variable {succ : α → List α} {limit : Nat} {out : List (Finding α)}

theorem Explores.subset {V p cs W : List α} (h : Explores succ limit V p cs W out) : V ⊆ W := by
  induction h with
  | done => exact List.Subset.refl _
  | closes _ _ ih => exact ih
  | skips _ _ _ ih => exact ih
  | stops _ _ _ _ ih => exact ih
  | enters _ _ _ _ _ ihi ih => exact fun x hx => ih (ihi (List.mem_cons_of_mem _ hx))

theorem card_unvisited_lt {nodes : Finset α} {c : α} {V U : List α} (hc : c ∈ nodes)
    (hv : c ∉ V) (hU : c :: V ⊆ U) : (nodes \ U.toFinset).card < (nodes \ V.toFinset).card := by
  apply Finset.card_lt_card
  apply Finset.ssubset_iff_subset_ne.mpr
  constructor
  · apply Finset.sdiff_subset_sdiff (Finset.Subset.refl _)
    intro x hx
    rw [List.mem_toFinset] at hx ⊢
    exact hU (List.mem_cons_of_mem _ hx)
  · intro heq
    have hin : c ∈ nodes \ V.toFinset := by
      rw [Finset.mem_sdiff, List.mem_toFinset]
      exact ⟨hc, hv⟩
    rw [← heq, Finset.mem_sdiff, List.mem_toFinset] at hin
    exact hin.2 (hU List.mem_cons_self)

/-- By induction on the number of nodes to enter, and within it on the successors. -/
theorem Explores.exists (nodes : Finset α) (hs : ∀ v, ∀ c ∈ succ v, c ∈ nodes) (n : Nat)
    (V p cs : List α) (hn : (nodes \ V.toFinset).card = n) (hcs : ∀ c ∈ cs, c ∈ nodes) :
    ∃ W out, Explores succ limit V p cs W out := by
  induction n using Nat.strong_induction_on generalizing V p cs with
  | h n ihn =>
    induction cs with
    | nil => exact ⟨V, [], .done⟩
    | cons c cs ih =>
      have hrest : ∀ d ∈ cs, d ∈ nodes := fun d hd => hcs d (List.mem_cons_of_mem _ hd)
      obtain ⟨W, out, h⟩ := ih hrest
      by_cases hp : c ∈ p
      · exact ⟨W, _, .closes hp h⟩
      by_cases hv : c ∈ V
      · exact ⟨W, out, .skips hp hv h⟩
      by_cases hl : limit ≤ p.length
      · exact ⟨W, _, .stops hp hv hl h⟩
      have hc := hcs c List.mem_cons_self
      have hcard := card_unvisited_lt hc hv (List.Subset.refl _)
      obtain ⟨U, inner, hi⟩ := ihn _ (by omega) (c :: V) (c :: p) (succ c) rfl (hs c)
      have hcardU := card_unvisited_lt hc hv hi.subset
      obtain ⟨W, out, h⟩ := ihn _ (by omega) U p cs rfl hrest
      exact ⟨W, _, .enters hp hv (by omega) hi h⟩

/-- The loop goes from one state to another, whatever fuel is left then. -/
def Leads (succ : α → List α) (limit : Nat) (s t : Scan α) : Prop :=
  ∃ k, ∀ n, loop succ limit (k + n) s = loop succ limit n t

theorem Leads.refl (s : Scan α) : Leads succ limit s s := ⟨0, fun n => by rw [Nat.zero_add]⟩

theorem Leads.trans {s t u : Scan α} (h : Leads succ limit s t) (h' : Leads succ limit t u) :
    Leads succ limit s u := by
  obtain ⟨k, hk⟩ := h
  obtain ⟨l, hl⟩ := h'
  exact ⟨k + l, fun n => by rw [Nat.add_assoc, hk, hl]⟩

variable {rest : List (α × List α)} {found : List (Finding α)} {V : List α}

theorem leads_pop {v : α} : Leads succ limit ⟨(v, []) :: rest, V, found⟩ ⟨rest, V, found⟩ :=
  ⟨1, fun n => by rw [Nat.add_comm]; rfl⟩

theorem leads_examine {v c : α} {cs : List α} : Leads succ limit ⟨(v, c :: cs) :: rest, V, found⟩
      (examine succ limit c ⟨(v, cs) :: rest, V, found⟩) :=
  ⟨1, fun n => by rw [Nat.add_comm]; rfl⟩

omit [DecidableEq α] in
theorem path_cons {p : List α} {v : α} {cs : List α} (hp : p = v :: rest.map Prod.fst) :
    Scan.path ⟨(v, cs) :: rest, V, found⟩ = p := hp.symm

theorem Explores.leads {V p cs W : List α}
    (h : Explores succ limit V p cs W out) (v : α) (rest : List (α × List α))
    (found : List (Finding α)) (hp : p = v :: rest.map Prod.fst) :
    Leads succ limit ⟨(v, cs) :: rest, V, found⟩ ⟨(v, []) :: rest, W, found ++ out⟩ := by
  induction h generalizing v rest found with
  | done =>
    rw [List.append_nil]
    exact Leads.refl _
  | @closes V W p cs c out hc _ ih =>
    apply leads_examine.trans
    have hstep : examine succ limit c ⟨(v, cs) :: rest, V, found⟩ =
        ⟨(v, cs) :: rest, V, found ++ [.cycle (closing p c)]⟩ := by
      rw [examine, path_cons hp, if_pos hc]
    rw [hstep]
    have hrest := ih v rest (found ++ [.cycle (closing p c)]) hp
    rw [List.append_assoc, List.singleton_append] at hrest
    exact hrest
  | @skips V W p cs c out hc hv _ ih =>
    apply leads_examine.trans
    have hstep : examine succ limit c ⟨(v, cs) :: rest, V, found⟩ =
        ⟨(v, cs) :: rest, V, found⟩ := by
      rw [examine, path_cons hp, if_neg hc, if_pos hv]
    rw [hstep]
    exact ih v rest found hp
  | @stops V W p cs c out hc hv hl _ ih =>
    apply leads_examine.trans
    have hlen : limit ≤ ((v, cs) :: rest).length := by
      rw [hp, List.length_cons, List.length_map] at hl
      exact hl
    have hstep : examine succ limit c ⟨(v, cs) :: rest, V, found⟩ =
        ⟨(v, cs) :: rest, V, found ++ [.tooDeep c]⟩ := by
      rw [examine, path_cons hp, if_neg hc, if_neg hv, if_pos hlen]
    rw [hstep]
    have hrest := ih v rest (found ++ [.tooDeep c]) hp
    rw [List.append_assoc, List.singleton_append] at hrest
    exact hrest
  | @enters V U W p cs c inner out hc hv hl hi _ ihi ih =>
    apply leads_examine.trans
    have hlen : ¬ limit ≤ ((v, cs) :: rest).length := by
      rw [hp, List.length_cons, List.length_map] at hl
      rw [List.length_cons]
      omega
    have hstep : examine succ limit c ⟨(v, cs) :: rest, V, found⟩ =
        ⟨(c, succ c) :: (v, cs) :: rest, c :: V, found⟩ := by
      rw [examine, path_cons hp, if_neg hc, if_neg hv, if_neg hlen]
      rfl
    rw [hstep]
    apply (ihi c ((v, cs) :: rest) found (by rw [hp]; rfl)).trans
    apply leads_pop.trans
    have hrest := ih v rest (found ++ inner) hp
    rw [List.append_assoc] at hrest
    exact hrest

theorem Explores.scanRoots (hlimit : 0 < limit) {V cs W : List α}
    (h : Explores succ limit V [] cs W out) (found : List (Finding α)) :
    ∃ N, ∀ n, N ≤ n → scanRoots succ limit n cs ⟨[], V, found⟩ = some ⟨[], W, found ++ out⟩ := by
  generalize hp : ([] : List α) = p at h
  induction h generalizing found with
  | done => exact ⟨0, fun n _ => by rw [List.append_nil]; rfl⟩
  | closes hc => exact absurd (hp ▸ hc) List.not_mem_nil
  | skips hc hv _ ih =>
    obtain ⟨N, hN⟩ := ih found hp
    refine ⟨N, fun n hn => ?_⟩
    rw [DepthFirst.scanRoots, if_pos hv]
    exact hN n hn
  | stops _ _ hl =>
    rw [← hp, List.length_nil] at hl
    omega
  | @enters V U W p cs c inner out hc hv hl hi _ _ ih =>
    obtain ⟨N, hN⟩ := ih (found ++ inner) hp
    subst hp
    obtain ⟨k, hk⟩ := (hi.leads c [] found rfl).trans leads_pop
    refine ⟨N + k + 1, fun n hn => ?_⟩
    have hloop : loop succ limit n (enter succ c ⟨[], V, found⟩) =
        some ⟨[], U, found ++ inner⟩ := by
      have hfuel : n = k + (n - k - 1 + 1) := by omega
      rw [hfuel]
      exact hk _
    rw [DepthFirst.scanRoots, if_neg hv, hloop, Option.bind_some, hN n (by omega),
      List.append_assoc]

theorem loop_mono {n : Nat} {s t : Scan α} (h : loop succ limit n s = some t) :
    loop succ limit (n + 1) s = some t := by
  induction n generalizing s with
  | zero => cases h
  | succ n ih =>
    rw [loop] at h ⊢
    split
    · next hs => rwa [hs] at h
    · next hs =>
      rw [hs] at h
      exact ih h
    · next hs =>
      rw [hs] at h
      exact ih h

theorem scanRoots_mono {n : Nat} {roots : List α} {s t : Scan α} (h : scanRoots succ limit n roots s = some t) :
    scanRoots succ limit (n + 1) roots s = some t := by
  induction roots generalizing s with
  | nil => exact h
  | cons r roots ih =>
    rw [scanRoots] at h ⊢
    by_cases hr : r ∈ s.visited
    · rw [if_pos hr] at h ⊢
      exact ih h
    · rw [if_neg hr, Option.bind_eq_some_iff] at h ⊢
      obtain ⟨u, hu, h⟩ := h
      exact ⟨u, loop_mono hu, ih h⟩

theorem scan_mono {m n : Nat} (hmn : m ≤ n) {roots : List α}
    (h : scan succ limit m roots = some out) : scan succ limit n roots = some out := by
  unfold scan at h ⊢
  rw [Option.map_eq_some_iff] at h ⊢
  obtain ⟨t, ht, hout⟩ := h
  refine ⟨t, ?_, hout⟩
  induction hmn with
  | refl => exact ht
  | step _ ih => exact scanRoots_mono ih

theorem scan_explores (hlimit : 0 < limit) (nodes : Finset α)
    (hs : ∀ v, ∀ c ∈ succ v, c ∈ nodes) (roots : List α) (hr : ∀ r ∈ roots, r ∈ nodes) :
    ∃ W out, Explores succ limit [] [] roots W out ∧
      ∃ N, ∀ n, N ≤ n → scan succ limit n roots = some out := by
  obtain ⟨W, out, h⟩ := Explores.exists nodes hs _ [] [] roots rfl hr
  obtain ⟨N, hN⟩ := h.scanRoots hlimit []
  refine ⟨W, out, h, N, fun n hn => ?_⟩
  rw [scan, Scan.start, hN n hn]
  rfl

end Kirara.DepthFirst

namespace Kirara.Worklists

open Kirara.DepthFirst

variable {α : Type} [DecidableEq α]

/-- Successors not reached before join the nodes; without fuel there is no result. -/
def reach (succ : α → List α) : Nat → List α → List α → Option (List α)
  | 0, _, _ => none
  | _ + 1, reachable, [] => some reachable
  | n + 1, reachable, source :: pending =>
    let fresh := (succ source).filter (fun target => target ∉ reachable)
    reach succ n (reachable ++ fresh) (fresh.reverse ++ pending)

variable {succ : α → List α}

/-- Everything comes from a node that is reached, and only pending ones may have successors that
are not. -/
structure Partial (succ : α → List α) (reachable pending : List α) : Prop where
  sub : pending ⊆ reachable
  closed : ∀ x ∈ reachable, x ∉ pending → ∀ y ∈ succ x, y ∈ reachable

theorem Partial.step {reachable pending fresh : List α} {source : α}
    (h : Partial succ reachable (source :: pending))
    (hf : fresh = (succ source).filter (fun target => target ∉ reachable)) :
    Partial succ (reachable ++ fresh) (fresh.reverse ++ pending) where
  sub x hx := by
    rw [List.mem_append, List.mem_reverse] at hx
    cases hx with
    | inl hx => exact List.mem_append_right _ hx
    | inr hx => exact List.mem_append_left _ (h.sub (List.mem_cons_of_mem _ hx))
  closed x hx hxp y hy := by
    rw [List.mem_append, List.mem_reverse, not_or] at hxp
    have hxr := (List.mem_append.mp hx).resolve_right hxp.1
    rw [List.mem_append]
    by_cases hyr : y ∈ reachable
    · exact .inl hyr
    by_cases hxs : x = source
    · subst hxs
      rw [hf, List.mem_filter]
      exact .inr ⟨hy, by simpa using hyr⟩
    · exact .inl (h.closed x hxr (by simp [hxs, hxp.2]) y hy)

/-- By induction on the nodes not reached, and within it on the pending ones. -/
theorem reach_ends (nodes : Finset α) (hs : ∀ v, ∀ c ∈ succ v, c ∈ nodes) (n : Nat)
    (reachable pending : List α) (hn : (nodes \ reachable.toFinset).card = n)
    (h : Partial succ reachable pending) :
    ∃ N result, (∀ k, N ≤ k → reach succ k reachable pending = some result) ∧
      ∀ x, x ∈ result ↔ ∃ r ∈ reachable, Relation.ReflTransGen (fun a b => b ∈ succ a) r x := by
  induction n using Nat.strong_induction_on generalizing reachable pending with
  | h n ihn =>
    induction pending with
    | nil => exact reach_nil h
    | cons source pending ih =>
      obtain ⟨fresh, hf⟩ : ∃ fresh, fresh =
        (succ source).filter (fun target => target ∉ reachable) := ⟨_, rfl⟩
      have hstep := h.step hf
      have hnext : ∃ N result,
          (∀ k, N ≤ k → reach succ k (reachable ++ fresh) (fresh.reverse ++ pending) = some result) ∧
          ∀ x, x ∈ result ↔ ∃ r ∈ reachable ++ fresh,
            Relation.ReflTransGen (fun a b => b ∈ succ a) r x := by
        cases hc : fresh with
        | nil =>
          rw [hc, List.append_nil, List.reverse_nil, List.nil_append] at hstep
          rw [List.append_nil, List.reverse_nil, List.nil_append]
          exact ih hstep
        | cons y rest =>
          rw [← hc]
          have hy : y ∈ (succ source).filter (fun target => target ∉ reachable) := by
            rw [← hf, hc]
            exact List.mem_cons_self
          obtain ⟨hys, hyr⟩ := List.mem_filter.mp hy
          have hcard : (nodes \ (reachable ++ fresh).toFinset).card <
              (nodes \ reachable.toFinset).card := by
            apply card_unvisited_lt (hs source y hys) (by simpa using hyr)
            intro x hx
            cases List.mem_cons.mp hx with
            | inl hx => exact List.mem_append_right _ (by rw [hx, hc]; exact List.mem_cons_self)
            | inr hx => exact List.mem_append_left _ hx
          exact ihn _ (by omega) _ _ rfl hstep
      obtain ⟨N, result, hr, hm⟩ := hnext
      refine ⟨N + 1, result, fun k hk => ?_, fun x => ?_⟩
      · obtain ⟨k, rfl⟩ := Nat.exists_eq_add_of_le' (Nat.lt_of_lt_of_le (Nat.succ_pos N) hk)
        rw [reach, ← hf]
        exact hr k (by omega)
      · rw [hm]
        constructor
        · rintro ⟨r, hr, hrx⟩
          cases List.mem_append.mp hr with
          | inl hr => exact ⟨r, hr, hrx⟩
          | inr hr =>
            rw [hf] at hr
            exact ⟨source, h.sub List.mem_cons_self, hrx.head (List.mem_filter.mp hr).1⟩
        · rintro ⟨r, hr, hrx⟩
          exact ⟨r, List.mem_append_left _ hr, hrx⟩
where
  reach_nil {reachable : List α} (h : Partial succ reachable []) :
      ∃ N result, (∀ k, N ≤ k → reach succ k reachable [] = some result) ∧
        ∀ x, x ∈ result ↔
          ∃ r ∈ reachable, Relation.ReflTransGen (fun a b => b ∈ succ a) r x := by
    refine ⟨1, reachable, fun k hk => ?_, fun x => ?_⟩
    · obtain ⟨k, rfl⟩ := Nat.exists_eq_add_of_le' hk
      rfl
    · constructor
      · exact fun hx => ⟨x, hx, .refl⟩
      · rintro ⟨r, hr, hrx⟩
        induction hrx with
        | refl => exact hr
        | tail _ hy ih => exact h.closed _ ih List.not_mem_nil _ hy

theorem reach_mono {m n : Nat} (hmn : m ≤ n) {reachable pending result : List α}
    (h : reach succ m reachable pending = some result) : reach succ n reachable pending = some result := by
  induction m generalizing n reachable pending with
  | zero => cases h
  | succ m ih =>
    obtain ⟨n, rfl⟩ := Nat.exists_eq_add_of_le' (Nat.lt_of_lt_of_le (Nat.succ_pos m) hmn)
    cases pending with
    | nil => exact h
    | cons source pending => exact ih (Nat.le_of_succ_le_succ hmn) h

theorem reach_entries (nodes : Finset α) (hs : ∀ v, ∀ c ∈ succ v, c ∈ nodes) (entries : List α) :
    ∃ N result, (∀ k, N ≤ k → reach succ k entries entries.reverse = some result) ∧
      ∀ x, x ∈ result ↔ ∃ r ∈ entries, Relation.ReflTransGen (fun a b => b ∈ succ a) r x :=
  reach_ends nodes hs _ entries entries.reverse rfl
    ⟨fun _ hx => List.mem_reverse.mp hx, fun _ hx hxp => absurd (List.mem_reverse.mpr hx) hxp⟩

end Kirara.Worklists
