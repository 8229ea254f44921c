import Kirara.Fallible
import Kirara.StructuredText

namespace Kirara.ChunkBounds

open Kirara.CodePoints Kirara.TextSplitting Kirara.StructuredText Kirara.Fallible

variable {m : Measure} {limit : Nat} {style : CodeStyle}

def Fit (m : Measure) (limit : Nat) (chunks : List Str) : Prop :=
  ∀ chunk ∈ chunks, m.of chunk ≤ limit

theorem Fit.nil : Fit m limit [] := fun _ h => absurd h List.not_mem_nil

variable {chunks : List Str}

theorem Fit.cons {chunk : Str} (h : m.of chunk ≤ limit)
    (hs : Fit m limit chunks) : Fit m limit (chunk :: chunks) := by
  intro c hc
  cases List.mem_cons.mp hc with
  | inl hc => exact hc ▸ h
  | inr hc => exact hs c hc

theorem Fit.append {xs ys : List Str} (hx : Fit m limit xs) (hy : Fit m limit ys) : Fit m limit (xs ++ ys) := by
  intro c hc
  cases List.mem_append.mp hc with
  | inl hc => exact hx c hc
  | inr hc => exact hy c hc

theorem Fit.reverse (h : Fit m limit chunks) : Fit m limit chunks.reverse :=
  fun c hc => h c (List.mem_reverse.mp hc)

theorem splitTextPreserving_fit {t : Str} {parts : List Str}
    (h : splitTextPreserving m limit t = .ok parts) : Fit m limit parts :=
  (splitTextPreserving_splits h).1.fit

theorem splitCodeBlock_fit {block : Str}
    (h : splitCodeBlock m limit style block = .ok chunks) : Fit m limit chunks := by
  unfold splitCodeBlock at h
  cases hp : fencedParts style block with
  | none =>
    rw [hp] at h
    exact splitTextPreserving_fit h
  | some p =>
    obtain ⟨opener, content, closer⟩ := p
    simp only [hp] at h
    split at h
    · cases h
    · next hroom =>
      obtain ⟨parts, hparts, rfl⟩ := map_ok h
      intro chunk hc
      obtain ⟨part, hpart, rfl⟩ := List.mem_map.mp hc
      have hle := splitTextPreserving_fit hparts part hpart
      simp only [Measure.of_append] at hle hroom ⊢
      omega

theorem closePage_fit {header pages current : List Str} {footer : Str} (hpages : Fit m limit pages)
    (hcurrent : m.of (join [newline] (current ++ [footer])) ≤ limit) :
    Fit m limit (closePage header footer pages current) := by
  unfold closePage
  split
  · exact hpages.append (Fit.nil.cons hcurrent)
  · exact hpages

theorem addRows_fit {header : List Str} {footer : Str}
    (hheader : m.of (join [newline] (header ++ [footer])) ≤ limit)
    (rows pages current out : List Str) (hpages : Fit m limit pages)
    (hcurrent : m.of (join [newline] (current ++ [footer])) ≤ limit)
    (h : addRows m limit header footer rows pages current = .ok out) : Fit m limit out := by
  induction rows generalizing pages current with
  | nil =>
    rw [addRows] at h
    cases h
    split
    · exact hpages.append (Fit.nil.cons hcurrent)
    · exact hpages
  | cons row rows ih =>
    have hclosed : Fit m limit (closePage header footer pages current) :=
      closePage_fit hpages hcurrent
    rw [addRows] at h
    split at h
    · next hrow => exact ih pages _ hpages (by simpa using hrow) h
    split at h
    · next hrow => exact ih _ _ hclosed (by simpa using hrow) h
    cases hp : splitTextPreserving m limit (rowNotice ++ row) with
    | error e =>
      rw [hp] at h
      cases h
    | ok parts =>
      rw [hp] at h
      exact ih _ _ (hclosed.append (splitTextPreserving_fit hp)) hheader h

theorem splitBoxTable_fit {lines chunks : List Str}
    (h : splitBoxTable m limit lines = .ok chunks) : Fit m limit chunks := by
  unfold splitBoxTable at h
  split at h
  · exact splitTextPreserving_fit h
  simp only at h
  split at h
  · cases h
  · next hborder =>
    have hheader := Nat.le_of_not_lt hborder
    exact addRows_fit hheader _ [] _ chunks Fit.nil hheader h

theorem backfillChunks_fit (h : Fit m limit chunks) : Fit m limit (backfillChunks m limit chunks) := by
  refine Fit.reverse (List.foldlRecOn chunks _ Fit.nil fun merged hm chunk hc => ?_)
  cases merged with
  | nil => exact Fit.nil.cons (h chunk hc)
  | cons last earlier =>
    simp only
    split
    · next hjoined => exact Fit.cons hjoined (fun c hc => hm c (List.mem_cons_of_mem _ hc))
    · exact hm.cons (h chunk hc)

theorem splitSegments_fit {segs : List Segment}
    (h : splitSegments m limit style segs = .ok chunks) : Fit m limit chunks := by
  induction segs generalizing chunks with
  | nil =>
    cases h
    exact Fit.nil
  | cons s rest ih =>
    rw [splitSegments] at h
    cases hs : splitSegment m limit style s with
    | error e =>
      rw [hs] at h
      cases h
    | ok first =>
      rw [hs] at h
      obtain ⟨others, hrest, rfl⟩ := map_ok h
      refine Fit.append ?_ (ih hrest)
      cases s with
      | prose text => exact splitTextPreserving_fit hs
      | code block => exact splitCodeBlock_fit hs
      | table lines => exact splitBoxTable_fit hs

theorem splitLines_eq_nil {t : Str} (h : splitLines t = []) : t = [] := by
  rw [← splitLines_flatten t, h]
  rfl

theorem splitStructuredBody_fit {text : Str}
    (h : splitStructuredBody m limit style text = .ok chunks) : Fit m limit chunks := by
  unfold splitStructuredBody at h
  split at h
  · next hempty =>
    cases h
    rw [splitLines_eq_nil (List.isEmpty_iff.mp hempty)]
    exact Fit.nil.cons (Nat.zero_le _)
  · obtain ⟨parts, hparts, rfl⟩ := map_ok h
    split
    · exact Fit.nil.cons (Nat.zero_le _)
    · exact backfillChunks_fit (splitSegments_fit hparts)

end Kirara.ChunkBounds
