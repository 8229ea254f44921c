import Kirara.TextSplitting

namespace Kirara.SpanCuts

open Kirara.CodePoints Kirara.TextSplitting

section Spans

variable (m : Measure) (limit : Nat)

/-- The inline spans of a text, in the order in which the patterns are tried. -/
def spans (t : Str) : List (Nat × Nat) := atomicSpanPatterns.flatMap (fun p => p.findIter t)

def spanText (t : Str) (span : Nat × Nat) : Str := (t.drop span.1).take (span.2 - span.1)

/-- A place strictly inside an inline span that fits. -/
def Inside (t : Str) (cut : Nat) : Prop :=
  ∃ span ∈ spans t, span.1 < cut ∧ cut < span.2 ∧ m.of (spanText t span) ≤ limit

instance (t : Str) (cut : Nat) : Decidable (Inside m limit t cut) :=
  inferInstanceAs (Decidable (∃ span ∈ spans t, _))

/-- Where a page is full, spans overlap: out of the first, the cut comes into another. -/
def Overlapped (t : Str) : Prop :=
  Inside m limit t (cutInsideAtomicSpan m limit t (hardCut m limit 0 t))

/-- What holds at each cut between chunks, of the text cut there and the place. -/
def AtCuts (P : Str → Nat → Prop) : List Str → Prop
  | [] => True
  | chunk :: chunks =>
    (chunks ≠ [] → P (chunk ++ chunks.flatten) chunk.length) ∧ AtCuts P chunks

/-- No cut is inside an inline span of the whole text that fits. -/
def KeepsSpans (text : Str) (chunks : List Str) : Prop :=
  ∀ before after, chunks = before ++ after → ¬ Inside m limit text before.flatten.length

/-- A limit that each character is within; half of a surrogate pair has no size in bytes. -/
structure Measured (text : Str) : Prop where
  within : ∀ c ∈ text, m.char c ≤ limit
  encodable : m = .utf8 → ∀ c ∈ text, isSurrogate c = false

end Spans

variable {m : Measure} {limit : Nat} {t : Str} {cut : Nat}

theorem moveOut_eq_none {span : Nat × Nat} : moveOut m limit t cut span = none ↔
      ¬ (span.1 < cut ∧ cut < span.2 ∧ m.of (spanText t span) ≤ limit) := by
  unfold moveOut spanText
  split
  · next h =>
    simp only [Bool.and_eq_true, decide_eq_true_eq] at h
    exact iff_of_false nofun fun hno => hno ⟨h.1.1, h.1.2, h.2⟩
  · next h =>
    simp only [Bool.and_eq_true, decide_eq_true_eq] at h
    exact iff_of_true rfl fun ⟨h1, h2, h3⟩ => h ⟨⟨h1, h2⟩, h3⟩

theorem moveOut_ne {span : Nat × Nat} {moved : Nat} (h : moveOut m limit t cut span = some moved) :
    moved ≠ cut := by
  unfold moveOut at h
  split at h
  · next hin =>
    simp only [Bool.and_eq_true, decide_eq_true_eq] at hin
    cases h
    split
    · omega
    · omega
  · cases h

theorem cutInsideAtomicSpan_eq_iff : cutInsideAtomicSpan m limit t cut = cut ↔ ¬ Inside m limit t cut := by
  unfold cutInsideAtomicSpan
  cases hs : (atomicSpanPatterns.flatMap (fun p => p.findIter t)).findSome?
      (moveOut m limit t cut) with
  | none =>
    refine iff_of_true rfl ?_
    rintro ⟨span, hspan, hin⟩
    exact moveOut_eq_none.mp (List.findSome?_eq_none_iff.mp hs span hspan) hin
  | some moved =>
    obtain ⟨span, hspan, hmove⟩ := List.exists_of_findSome?_eq_some hs
    refine iff_of_false (moveOut_ne hmove) fun hno => ?_
    have hnone := moveOut_eq_none.mpr fun hin => hno ⟨span, hspan, hin⟩
    rw [hnone] at hmove
    cases hmove

theorem keepBoundary_not_inside {candidate b : Nat} (h : keepBoundary m limit t candidate = some b) :
    ¬ Inside m limit t b := by
  unfold keepBoundary at h
  split at h
  · next heq =>
    cases h
    exact cutInsideAtomicSpan_eq_iff.mp heq
  · cases h

theorem structuralBoundaries_not_inside {hard b : Nat}
    (h : b ∈ structuralBoundaries m limit t hard) : ¬ Inside m limit t b := by
  obtain ⟨candidate, _, hb⟩ := List.mem_filterMap.mp h
  split at hb
  · cases hb
  · exact keepBoundary_not_inside hb

theorem markerBoundaries_not_inside {hard b : Nat} (h : b ∈ markerBoundaries m limit t hard) :
    ¬ Inside m limit t b := by
  obtain ⟨marker, _, hb⟩ := List.mem_filterMap.mp h
  obtain ⟨position, _, hb⟩ := Option.bind_eq_some_iff.mp hb
  exact keepBoundary_not_inside hb

theorem chooseCut_inside_iff (h : limit < m.of t) (hpos : 0 < hardCut m limit 0 t) :
    Inside m limit t (chooseCut m limit t (hardCut m limit 0 t)) ↔ Overlapped m limit t := by
  obtain ⟨hcut, _⟩ := preferredCut_bounds h hpos
  unfold chooseCut
  simp only
  rw [if_neg (Nat.ne_of_gt hcut)]
  unfold preferredCut Overlapped
  simp only
  split
  · next hsame =>
    rw [hsame]
    have houtside := cutInsideAtomicSpan_eq_iff.mp hsame
    refine iff_of_false ?_ houtside
    cases hmax : (if (structuralBoundaries m limit t (hardCut m limit 0 t)).isEmpty then
        markerBoundaries m limit t (hardCut m limit 0 t)
      else structuralBoundaries m limit t (hardCut m limit 0 t)).max? with
    | none => exact houtside
    | some b =>
      have hmem := List.max?_mem hmax
      rw [Option.getD_some]
      split at hmem
      · exact markerBoundaries_not_inside hmem
      · exact structuralBoundaries_not_inside hmem
  · exact Iff.rfl

theorem splitRemaining_cuts (n : Nat) {t : Str} {chunks : List Str}
    (h : splitRemaining m limit n t = .ok chunks) (hn : t.length ≤ n) : (∀ chunk ∈ chunks, chunk ≠ []) ∧
      AtCuts (fun rest cut => Inside m limit rest cut ↔ Overlapped m limit rest) chunks := by
  induction n generalizing t chunks with
  | zero =>
    cases h
    exact ⟨nofun, trivial⟩
  | succ n ih =>
    cases t with
    | nil =>
      cases h
      exact ⟨nofun, trivial⟩
    | cons c cs =>
      rw [splitRemaining] at h
      split at h
      · cases h
        refine ⟨fun chunk hchunk => ?_, fun hnil => absurd rfl hnil, trivial⟩
        rw [List.mem_singleton.mp hchunk]
        exact List.cons_ne_nil _ _
      · next hlong =>
        simp only at h
        split at h
        · cases h
        · next hzero =>
          have hlong := Nat.lt_of_not_le hlong
          have hpos := Nat.pos_of_ne_zero hzero
          obtain ⟨hcut, hle⟩ := chooseCut_bounds hlong hpos
          have hlt := (hardCut_maximal (m := m) 0 (c :: cs) (Nat.zero_le limit) (by omega)).1
          have hinside := chooseCut_inside_iff hlong hpos
          generalize chooseCut m limit (c :: cs) (hardCut m limit 0 (c :: cs)) = cut at *
          have hdrop : ((c :: cs).drop cut).length ≤ n := by
            rw [List.length_drop]
            omega
          cases hrest : splitRemaining m limit n ((c :: cs).drop cut) with
          | error e =>
            rw [hrest] at h
            cases h
          | ok rest =>
            rw [hrest] at h
            cases h
            obtain ⟨hne, hcuts⟩ := ih hrest hdrop
            refine ⟨List.forall_mem_cons.mpr ⟨?_, hne⟩, fun _ => ?_, hcuts⟩
            · rw [Ne, List.take_eq_nil_iff, not_or]
              exact ⟨Nat.ne_of_gt hcut, List.cons_ne_nil _ _⟩
            · have hwhole : rest.flatten = (c :: cs).drop cut := by
                cases splitRemaining_cases m limit n _ hdrop with
                | inl hok =>
                  obtain ⟨parts, hparts, hsplits, _⟩ := hok
                  rw [hrest] at hparts
                  cases hparts
                  exact hsplits.whole
                | inr herr =>
                  rw [hrest] at herr
                  cases herr.1
              rw [hwhole, List.take_append_drop, List.length_take, Nat.min_eq_left (by omega)]
              exact hinside

theorem AtCuts.imp {P Q : Str → Nat → Prop} (hpq : ∀ rest cut, P rest cut → Q rest cut)
    {chunks : List Str} (h : AtCuts P chunks) : AtCuts Q chunks := by
  induction chunks with
  | nil => trivial
  | cons chunk chunks ih => exact ⟨fun hne => hpq _ _ (h.1 hne), ih h.2⟩

end Kirara.SpanCuts
