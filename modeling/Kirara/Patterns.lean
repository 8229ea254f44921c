namespace Kirara.Patterns

variable {α : Type}

/-- The two tests consume nothing and look at the characters around. -/
inductive Pattern (α : Type) where
  | one (accepts : α → Bool)
  | seq (p q : Pattern α)
  | alt (p q : Pattern α)
  | many (p : Pattern α)
  | before (test : Option α → Bool)
  | next (test : Option α → Bool)

/-- A place in a text: the character before it, and what follows. -/
structure Place (α : Type) where
  last : Option α
  rest : List α

/-- As many repetitions as possible first; each has to consume something. -/
def repeatEnds (ends : Place α → List (Place α)) : Nat → Place α → List (Place α)
  | 0, s => [s]
  | n + 1, s =>
    ((ends s).filter (fun t => t.rest.length < s.rest.length)).flatMap (repeatEnds ends n) ++ [s]

/-- The places at which a match from here can end, the preferred one first. -/
def Pattern.ends : Pattern α → Place α → List (Place α)
  | .one accepts, s =>
    match s.rest with
    | [] => []
    | c :: cs => if accepts c then [⟨some c, cs⟩] else []
  | .seq p q, s => (p.ends s).flatMap q.ends
  | .alt p q, s => p.ends s ++ q.ends s
  | .many p, s => repeatEnds p.ends s.rest.length s
  | .before test, s => if test s.last then [s] else []
  | .next test, s => if test s.rest.head? then [s] else []

def Pattern.some_ (p : Pattern α) : Pattern α := .seq p (.many p)

def Pattern.optional (p : Pattern α) : Pattern α := .alt p (.next fun _ => true)

def Pattern.word [BEq α] : List α → Pattern α
  | [] => .next fun _ => true
  | c :: cs => .seq (.one (· == c)) (Pattern.word cs)

def Pattern.lineStart [BEq α] (newline : α) : Pattern α :=
  .before fun c => match c with
    | none => true
    | some c => c == newline

/-- After an empty match the search goes on one character later. -/
def Pattern.search (p : Pattern α) : Nat → Nat → Place α → List (Nat × Nat)
  | 0, _, _ => []
  | n + 1, i, s =>
    let onward := match s.rest with
      | [] => []
      | c :: cs => p.search n (i + 1) ⟨some c, cs⟩
    match (p.ends s).head? with
    | none => onward
    | some t =>
      let j := i + (s.rest.length - t.rest.length)
      if i < j then (i, j) :: p.search n j t else (i, j) :: onward

/-- `pattern.finditer(text)`. -/
def Pattern.findIter (p : Pattern α) (text : List α) : List (Nat × Nat) :=
  p.search (text.length + 1) 0 ⟨none, text⟩

/-- Whether `pattern.search(text)` finds anything. -/
def Pattern.found (p : Pattern α) (text : List α) : Bool := !(p.findIter text).isEmpty

/-- `pattern.match(text)`. -/
def Pattern.matches (p : Pattern α) (text : List α) : Bool := !(p.ends ⟨none, text⟩).isEmpty

def Pattern.subFrom (p : Pattern α) (f : List α → List α) : Nat → Place α → List α
  | 0, s => s.rest
  | n + 1, s =>
    let onward := match s.rest with
      | [] => []
      | c :: cs => c :: p.subFrom f n ⟨some c, cs⟩
    match (p.ends s).head? with
    | none => onward
    | some t =>
      if t.rest.length < s.rest.length then
        f (s.rest.take (s.rest.length - t.rest.length)) ++ p.subFrom f n t
      else f [] ++ onward

/-- `pattern.sub(f, text)`, where the replacement is read off the whole match. -/
def Pattern.sub (p : Pattern α) (f : List α → List α) (text : List α) : List α :=
  p.subFrom f (text.length + 1) ⟨none, text⟩

attribute [grind =] repeatEnds Pattern.ends Pattern.search

variable {p q : Pattern α} {s t u : Place α}

/-- The match of `p` from `s` that is tried first ends at `t`. -/
def Pattern.Leads (p : Pattern α) (s t : Place α) : Prop := (p.ends s).head? = some t

theorem Pattern.Leads.seq (hp : p.Leads s t) (hq : q.Leads t u) : (Pattern.seq p q).Leads s u := by
  obtain ⟨ts, hts⟩ := List.head?_eq_some_iff.mp hp
  obtain ⟨us, hus⟩ := List.head?_eq_some_iff.mp hq
  rw [Pattern.Leads, Pattern.ends, hts, List.flatMap_cons, hus]
  rfl

theorem Pattern.Leads.optional (hp : p.Leads s t) : p.optional.Leads s t := by
  obtain ⟨ts, hts⟩ := List.head?_eq_some_iff.mp hp
  rw [Pattern.Leads, Pattern.optional, Pattern.ends, hts]
  rfl

variable {test : Option α → Bool}

theorem leads_before (h : test s.last = true) : (Pattern.before test).Leads s s := by
  rw [Pattern.Leads, Pattern.ends, if_pos h]
  rfl

variable {accepts : α → Bool}

theorem leads_one {c : α} (h : accepts c = true) (last : Option α)
    (cs : List α) : (Pattern.one accepts).Leads ⟨last, c :: cs⟩ ⟨some c, cs⟩ := by
  simp only [Pattern.Leads, Pattern.ends, if_pos h, List.head?_cons]

theorem leads_word [BEq α] [LawfulBEq α] (w : List α) (last : Option α) (rest : List α) :
    ∃ last', (Pattern.word w).Leads ⟨last, w ++ rest⟩ ⟨last', rest⟩ := by
  induction w generalizing last with
  | nil => exact ⟨last, rfl⟩
  | cons c cs ih =>
    obtain ⟨last', hrest⟩ := ih (some c)
    exact ⟨last', (leads_one (beq_self_eq_true c) last (cs ++ rest)).seq hrest⟩

theorem repeatEnds_one {ds rest : List α}
    (hds : ∀ d ∈ ds, accepts d = true) (hrest : ∀ c, rest.head? = some c → accepts c = false)
    {n : Nat} (hn : ds.length ≤ n) (last : Option α) :
    ∃ last', (repeatEnds (Pattern.one accepts).ends n ⟨last, ds ++ rest⟩).head? =
      some ⟨last', rest⟩ := by
  induction ds generalizing n last with
  | nil =>
    refine ⟨last, ?_⟩
    cases n with
    | zero => rfl
    | succ n =>
      cases rest with
      | nil => rfl
      | cons c cs =>
        have hno : (Pattern.one accepts).ends ⟨last, c :: cs⟩ = [] := by
          simp [Pattern.ends, hrest c rfl]
        rw [List.nil_append, repeatEnds, hno]
        rfl
  | cons d ds ih =>
    cases n with
    | zero => cases hn
    | succ n =>
      obtain ⟨hd, hds⟩ := List.forall_mem_cons.mp hds
      obtain ⟨last', hlast⟩ := ih hds (Nat.le_of_succ_le_succ hn) (some d)
      obtain ⟨ts, hts⟩ := List.head?_eq_some_iff.mp hlast
      refine ⟨last', ?_⟩
      have hone : (Pattern.one accepts).ends ⟨last, d :: (ds ++ rest)⟩ = [⟨some d, ds ++ rest⟩] := by
        simp [Pattern.ends, hd]
      rw [List.cons_append, repeatEnds, hone, List.filter_cons_of_pos (by simp), List.filter_nil,
        List.flatMap_singleton, hts]
      rfl

theorem leads_some {ds rest : List α} (hne : ds ≠ [])
    (hds : ∀ d ∈ ds, accepts d = true) (hrest : ∀ c, rest.head? = some c → accepts c = false)
    (last : Option α) : ∃ last', (Pattern.one accepts).some_.Leads ⟨last, ds ++ rest⟩ ⟨last', rest⟩ := by
  obtain ⟨d, ds, rfl⟩ := List.exists_cons_of_ne_nil hne
  obtain ⟨hd, hds⟩ := List.forall_mem_cons.mp hds
  have hlen : ds.length ≤ (ds ++ rest).length := by
    rw [List.length_append]
    exact Nat.le_add_right _ _
  obtain ⟨last', hmany⟩ := repeatEnds_one hds hrest hlen (some d)
  exact ⟨last', (leads_one hd last (ds ++ rest)).seq hmany⟩

variable {text : List α}

theorem Pattern.Leads.findIter (h : p.Leads ⟨none, text⟩ t)
    (hlen : t.rest.length < text.length) : (p.findIter text).head? = some (0, text.length - t.rest.length) := by
  have hfirst : (p.ends ⟨none, text⟩).head? = some t := h
  rw [Pattern.findIter, Pattern.search]
  simp only [hfirst]
  rw [if_pos (by omega), Nat.zero_add]
  rfl

theorem repeatEnds_suffix {ends : Place α → List (Place α)}
    (hends : ∀ s t, t ∈ ends s → t.rest <:+ s.rest) (n : Nat) {s t : Place α}
    (ht : t ∈ repeatEnds ends n s) : t.rest <:+ s.rest := by
  induction n generalizing s with
  | zero =>
    cases List.mem_singleton.mp ht
    exact List.suffix_rfl
  | succ n ih =>
    rw [repeatEnds, List.mem_append, List.mem_singleton, List.mem_flatMap] at ht
    cases ht with
    | inr ht =>
      cases ht
      exact List.suffix_rfl
    | inl ht =>
      obtain ⟨u, hu, ht⟩ := ht
      exact (ih ht).trans (hends _ _ (List.mem_filter.mp hu).1)

theorem Pattern.ends_suffix (p : Pattern α) {s t : Place α} (ht : t ∈ p.ends s) : t.rest <:+ s.rest := by
  induction p generalizing s t with
  | one accepts =>
    rw [Pattern.ends] at ht
    cases hs : s.rest with
    | nil => simp [hs] at ht
    | cons c cs =>
      simp only [hs] at ht
      split at ht
      · rw [List.mem_singleton.mp ht]
        exact List.suffix_cons c cs
      · cases ht
  | seq p q hp hq =>
    rw [Pattern.ends, List.mem_flatMap] at ht
    obtain ⟨u, hu, ht⟩ := ht
    exact (hq ht).trans (hp hu)
  | alt p q hp hq =>
    rw [Pattern.ends, List.mem_append] at ht
    cases ht with
    | inl ht => exact hp ht
    | inr ht => exact hq ht
  | many p ih => exact repeatEnds_suffix (fun _ _ h => ih h) _ ht
  | before test =>
    rw [Pattern.ends] at ht
    split at ht
    · cases List.mem_singleton.mp ht
      exact List.suffix_rfl
    · cases ht
  | next test =>
    rw [Pattern.ends] at ht
    split at ht
    · cases List.mem_singleton.mp ht
      exact List.suffix_rfl
    · cases ht

variable {span : Nat × Nat}

theorem Pattern.mem_search (n i : Nat) (s : Place α) (h : span ∈ p.search n i s) :
    ∃ k last t, span.1 = i + k ∧ k ≤ s.rest.length ∧ p.Leads ⟨last, s.rest.drop k⟩ t ∧
      span.2 + t.rest.length = i + s.rest.length := by
  induction n generalizing i s with
  | zero => cases h
  | succ n ih =>
    have honward : ∀ onward : List (Nat × Nat), onward = (match s.rest with
        | [] => []
        | c :: cs => p.search n (i + 1) ⟨some c, cs⟩) → span ∈ onward →
        ∃ k last t, span.1 = i + k ∧ k ≤ s.rest.length ∧ p.Leads ⟨last, s.rest.drop k⟩ t ∧
          span.2 + t.rest.length = i + s.rest.length := by
      intro onward ho hmem
      rw [ho] at hmem
      cases hs : s.rest with
      | nil => simp [hs] at hmem
      | cons c cs =>
        simp only [hs] at hmem
        obtain ⟨k, last, t, hstart, hk, ht, hend⟩ := ih _ _ hmem
        refine ⟨k + 1, last, t, by omega, ?_, ht, ?_⟩
        · rw [List.length_cons]
          exact Nat.succ_le_succ hk
        · rw [List.length_cons]
          simp only at hend
          omega
    rw [Pattern.search] at h
    cases ht : (p.ends s).head? with
    | none =>
      simp only [ht] at h
      exact honward _ rfl h
    | some t =>
      have hsuffix := p.ends_suffix (List.mem_of_head? ht)
      have hlen := hsuffix.length_le
      obtain ⟨front, hfront⟩ := hsuffix
      have hhere : ∃ k last u, i = i + k ∧ k ≤ s.rest.length ∧ p.Leads ⟨last, s.rest.drop k⟩ u ∧
          i + (s.rest.length - t.rest.length) + u.rest.length = i + s.rest.length :=
        ⟨0, s.last, t, rfl, Nat.zero_le _, ht, by omega⟩
      simp only [ht] at h
      split at h
      · cases List.mem_cons.mp h with
        | inl h =>
          rw [h]
          exact hhere
        | inr h =>
          obtain ⟨k, last, u, hstart, hk, hu, hend⟩ := ih _ _ h
          have hdrop : s.rest.drop (s.rest.length - t.rest.length + k) = t.rest.drop k := by
            rw [← List.drop_drop, ← hfront, List.length_append, Nat.add_sub_cancel, List.drop_left]
          refine ⟨s.rest.length - t.rest.length + k, last, u, by omega, by omega, ?_, by omega⟩
          rw [hdrop]
          exact hu
      · cases List.mem_cons.mp h with
        | inl h =>
          rw [h]
          exact hhere
        | inr h => exact honward _ rfl h

theorem Pattern.mem_findIter (h : span ∈ p.findIter text) :
    span.1 ≤ text.length ∧ ∃ last t, p.Leads ⟨last, text.drop span.1⟩ t ∧
      span.2 + t.rest.length = text.length := by
  obtain ⟨k, last, t, hstart, hk, ht, hend⟩ := Pattern.mem_search _ _ _ h
  rw [Nat.zero_add] at hstart hend
  rw [hstart]
  exact ⟨hk, last, t, ht, hend⟩

theorem Pattern.findIter_bounds (h : span ∈ p.findIter text) : span.1 ≤ span.2 ∧ span.2 ≤ text.length := by
  obtain ⟨hstart, last, t, ht, hend⟩ := Pattern.mem_findIter h
  have hlen := (p.ends_suffix (List.mem_of_head? ht)).length_le
  rw [List.length_drop] at hlen
  omega

theorem Pattern.mem_ends_seq : u ∈ (Pattern.seq p q).ends s ↔ ∃ t ∈ p.ends s, u ∈ q.ends t := by
  rw [Pattern.ends, List.mem_flatMap]

theorem Pattern.mem_ends_one : t ∈ (Pattern.one accepts).ends s ↔
      ∃ c cs, s.rest = c :: cs ∧ accepts c = true ∧ t = ⟨some c, cs⟩ := by
  rw [Pattern.ends]
  cases s.rest with
  | nil => simp
  | cons c cs =>
    simp only [List.cons_eq_cons]
    split
    · next hc =>
      rw [List.mem_singleton]
      constructor
      · exact fun ht => ⟨c, cs, ⟨rfl, rfl⟩, hc, ht⟩
      · rintro ⟨_, _, ⟨rfl, rfl⟩, _, ht⟩
        exact ht
    · next hc =>
      constructor
      · exact fun ht => absurd ht List.not_mem_nil
      · rintro ⟨_, _, ⟨rfl, rfl⟩, hd, _⟩
        exact absurd hd hc

theorem Pattern.mem_ends_before : t ∈ (Pattern.before test).ends s ↔ test s.last = true ∧ t = s := by
  rw [Pattern.ends]
  split
  · next h => simp [h]
  · next h => simp [h]

end Kirara.Patterns
