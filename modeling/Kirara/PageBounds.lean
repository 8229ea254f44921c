import Kirara.ChunkBounds
import Mathlib.Data.List.MinMax
import Mathlib.Order.Nat

namespace Kirara.PageBounds

open Kirara.CodePoints Kirara.StructuredText Kirara.ChunkBounds

variable {m : Measure} {limit : Nat} {style : CodeStyle}

structure Within (l : Limits) (m : Measure) (limit : Nat) (pages : List Str) : Prop where
  each : Fit m limit pages
  count : pages.length ≤ l.maxPages
  total : ∀ most, l.maxTotalBytes = some most → totalBytes pages ≤ most
  labelled : 1 < pages.length → ∀ i page, pages[i]? = some page →
    ∃ body, page = pageLabel (i + 1) pages.length ++ body

/-- Limits that `split_structured_text` does not refuse. -/
structure Accepted (l : Limits) (m : Measure) (limit : Nat) : Prop where
  measured : l.measure = some (m, limit)
  limit_pos : 0 < limit
  pages_pos : 0 < l.maxPages
  total_pos : l.maxTotalBytes ≠ some 0

theorem pageLabel_le {i total : Nat} (h : i < total) : m.of (pageLabel (i + 1) total) ≤ labelSize m total := by
  have hmem := List.mem_map_of_mem (f := fun i => m.of (pageLabel (i + 1) total))
    (List.mem_range.mpr h)
  exact List.le_max_of_le hmem (Nat.le_refl _)

theorem numberPages_length (chunks : List Str) : (numberPages chunks).length = chunks.length := by
  rw [numberPages, List.length_map, List.length_zipIdx]

theorem numberPages_getElem? (chunks : List Str) (i : Nat) :
    (numberPages chunks)[i]? = chunks[i]?.map (fun c => pageLabel (i + 1) chunks.length ++ c) := by
  rw [numberPages, List.getElem?_map, List.getElem?_zipIdx]
  cases chunks[i]? with
  | none => rfl
  | some c => simp

variable {chunks : List Str}

theorem numberPages_fit (hroom : labelSize m chunks.length < limit)
    (h : Fit m (limit - labelSize m chunks.length) chunks) : Fit m limit (numberPages chunks) := by
  intro page hpage
  obtain ⟨i, hi⟩ := List.mem_iff_getElem?.mp hpage
  rw [numberPages_getElem?, Option.map_eq_some_iff] at hi
  obtain ⟨chunk, hchunk, rfl⟩ := hi
  have hi : i < chunks.length := (List.getElem?_eq_some_iff.mp hchunk).1
  have hlabel := pageLabel_le (m := m) hi
  have hfit := h chunk (List.mem_of_getElem? hchunk)
  rw [Measure.of_append]
  omega

variable {text : Str}

theorem stableChunks_ok {maxPages : Nat} {n total : Nat}
    (h : stableChunks m limit style maxPages text n total = .ok chunks) :
    labelSize m chunks.length < limit ∧ chunks.length ≤ maxPages ∧
      splitStructuredBody m (limit - labelSize m chunks.length) style text = .ok chunks := by
  induction n generalizing total with
  | zero => cases h
  | succ n ih =>
    rw [stableChunks] at h
    split at h
    · cases h
    · next hroom =>
      cases hb : splitStructuredBody m (limit - labelSize m total) style text with
      | error e =>
        rw [hb] at h
        cases h
      | ok found =>
        simp only [hb] at h
        split at h
        · cases h
        · next hcount =>
          split at h
          · next heq =>
            cases h
            rw [heq]
            exact ⟨by omega, by omega, hb⟩
          · exact ih h

theorem finishPages_eq {maxPages : Nat} (h : Fit m limit (numberPages chunks)) :
    finishPages m limit style maxPages text chunks = .ok (numberPages chunks) := by
  unfold finishPages
  rw [if_neg]
  intro hany
  obtain ⟨page, hpage, hlong⟩ := List.any_eq_true.mp hany
  have hle := h page hpage
  have hlt := of_decide_eq_true hlong
  omega

theorem exceeds_eq_none {maxTotalBytes : Option Nat} {bytes : Nat} :
    exceeds maxTotalBytes bytes = none ↔ ∀ most, maxTotalBytes = some most → bytes ≤ most := by
  unfold exceeds
  cases maxTotalBytes with
  | none => simp
  | some most => simp

variable {l : Limits} {pages : List Str}

theorem splitWithin_ok (h : splitWithin l style text m limit = .ok pages) :
    (m.of text ≤ limit ∧ pages = [text]) ∨ (limit < m.of text ∧ ∃ chunks, pages = numberPages chunks ∧
      labelSize m chunks.length < limit ∧ chunks.length ≤ l.maxPages ∧
      splitStructuredBody m (limit - labelSize m chunks.length) style text = .ok chunks ∧
      exceeds l.maxTotalBytes (totalBytes pages) = none) := by
  unfold splitWithin at h
  split at h
  · next hfits =>
    cases h
    exact .inl ⟨hfits, rfl⟩
  · next hfits =>
    refine .inr ⟨Nat.lt_of_not_le hfits, ?_⟩
    cases hc : stableChunks m limit style l.maxPages text 12 1 with
    | error e =>
      rw [hc] at h
      cases h
    | ok chunks =>
      obtain ⟨hroom, hcount, hbody⟩ := stableChunks_ok hc
      have hfit := numberPages_fit hroom (splitStructuredBody_fit hbody)
      simp only [hc, Except.bind, finishPages_eq hfit] at h
      cases hx : exceeds l.maxTotalBytes (totalBytes (numberPages chunks)) with
      | some most =>
        rw [hx] at h
        cases h
      | none =>
        rw [hx] at h
        cases h
        exact ⟨chunks, rfl, hroom, hcount, hbody, hx⟩

theorem splitStructuredText_ok (hl : Accepted l m limit) (h : splitStructuredText l style text = .ok pages) :
    splitWithin l style text m limit = .ok pages ∧
      ∀ most, l.maxTotalBytes = some most → Measure.utf8.of text ≤ most := by
  unfold splitStructuredText at h
  rw [hl.measured] at h
  simp only at h
  rw [if_neg (Nat.ne_of_gt hl.limit_pos), if_neg (Nat.ne_of_gt hl.pages_pos), if_neg hl.total_pos] at h
  split at h
  · cases h
  cases hx : exceeds l.maxTotalBytes (Measure.utf8.of text) with
  | some most =>
    rw [hx] at h
    cases h
  | none =>
    rw [hx] at h
    exact ⟨h, exceeds_eq_none.mp hx⟩

theorem splitStructuredText_within
    (hl : Accepted l m limit) (h : splitStructuredText l style text = .ok pages) : Within l m limit pages := by
  obtain ⟨hwithin, htext⟩ := splitStructuredText_ok hl h
  cases splitWithin_ok hwithin with
  | inl hone =>
    obtain ⟨hfits, rfl⟩ := hone
    refine ⟨Fit.nil.cons hfits, hl.pages_pos, fun most hmost => ?_, fun hmany => ?_⟩
    · simpa [totalBytes] using htext most hmost
    · exact absurd hmany (Nat.lt_irrefl 1)
  | inr hmany =>
    obtain ⟨_, chunks, rfl, hroom, hcount, hbody, htotal⟩ := hmany
    refine ⟨numberPages_fit hroom (splitStructuredBody_fit hbody), ?_, exceeds_eq_none.mp htotal,
      fun _ i page hpage => ?_⟩
    · rw [numberPages_length]
      exact hcount
    · rw [numberPages_getElem?, Option.map_eq_some_iff] at hpage
      obtain ⟨chunk, _, rfl⟩ := hpage
      rw [numberPages_length]
      exact ⟨chunk, rfl⟩

theorem contains_iff {part t : Str} : contains part t = true ↔ part <:+: t := by
  induction t with
  | nil => simp [contains]
  | cons c cs ih =>
    rw [contains, Bool.or_eq_true, ih, List.isPrefixOf_iff_prefix, List.infix_cons_iff]

theorem not_contains {part t : Str} {c : CodePoint} (hc : c ∈ part) (ht : c ∉ t) : contains part t = false := by
  rw [Bool.eq_false_iff]
  intro h
  exact ht ((contains_iff.mp h).subset hc)

theorem contains_append {part s t u : Str} (h : contains part t = true) :
    contains part (s ++ t ++ u) = true := by
  rw [contains_iff] at h ⊢
  exact h.trans (List.infix_append s t u)

theorem digits_ascii {n : Nat} {c : CodePoint} (h : c ∈ digits n) : c.val < 0x80 := by
  obtain ⟨d, hd, rfl⟩ := List.mem_map.mp h
  have hdigit := Nat.isDigit_of_mem_toDigits (by decide) (by decide) hd
  rw [Char.isDigit, Bool.and_eq_true, decide_eq_true_eq, decide_eq_true_eq] at hdigit
  have hle : d.toNat ≤ 57 := hdigit.2
  change d.toNat < 0x80
  omega

theorem overBudget_numbered {before after : Str} (n : Nat) (hlimit : contains (lit "上限") before = true)
    (hsmall : cp '太' ∉ before ++ after) (hmust : cp '必' ∉ before ++ after) :
    overBudget (before ++ digits n ++ after) = true := by
  have hnot : ∀ c : CodePoint, 0x80 ≤ c.val → c ∉ before ++ after →
      c ∉ before ++ digits n ++ after := by
    intro c hc habsent hmem
    rw [List.mem_append, List.mem_append] at hmem
    rw [List.mem_append] at habsent
    cases hmem with
    | inr h => exact habsent (.inr h)
    | inl h =>
      cases h with
      | inl h => exact habsent (.inl h)
      | inr h =>
        have hascii := digits_ascii h
        omega
  have h1 := contains_append (s := []) (u := digits n ++ after) hlimit
  have h2 : contains (lit "太小") (before ++ digits n ++ after) = false :=
    not_contains (by decide) (hnot _ (by decide) hsmall)
  have h3 : contains (lit "必须") (before ++ digits n ++ after) = false :=
    not_contains (by decide) (hnot _ (by decide) hmust)
  rw [List.nil_append, ← List.append_assoc] at h1
  rw [overBudget, h1, h2, h3]
  rfl

theorem overBudget_tooManyBytes (most : Nat) : overBudget (tooManyBytes most) = true :=
  overBudget_numbered most (by decide) (by decide) (by decide)

theorem cutNotice_fits (n : Nat) (notice : Str) (h : notice.length ≤ n) :
    m.of (cutNotice m limit n notice) ≤ limit ∧ cutNotice m limit n notice <+: notice := by
  induction n generalizing notice with
  | zero =>
    rw [List.length_eq_zero_iff.mp (Nat.le_zero.mp h)]
    exact ⟨Nat.zero_le _, List.prefix_refl _⟩
  | succ n ih =>
    rw [cutNotice]
    split
    · have hlen : notice.dropLast.length ≤ n := by
        rw [List.length_dropLast]
        omega
      obtain ⟨hfits, hprefix⟩ := ih _ hlen
      exact ⟨hfits, hprefix.trans (List.dropLast_prefix _)⟩
    · next hstop =>
      refine ⟨?_, List.prefix_refl _⟩
      by_cases hnil : notice = []
      · rw [hnil]
        exact Nat.zero_le _
      · by_contra hlong
        exact hstop ⟨hnil, Nat.lt_of_not_le hlong⟩

theorem fallbackNotice_fits : m.of (fallbackNotice m limit) ≤ limit :=
  (cutNotice_fits _ _ (Nat.le_refl _)).1

theorem of_infix_le {s t : Str} (h : s <:+: t) : m.of s ≤ m.of t := by
  obtain ⟨before, after, rfl⟩ := h
  rw [Measure.of_append, Measure.of_append]
  omega

theorem fallbackNotice_le (m : Measure) (limit k : Nat) (text : Str) :
    Measure.utf8.of (fallbackNotice m limit) ≤
      Measure.utf8.of (text.take k ++ truncationNotice) := by
  have hcut : fallbackNotice m limit <+: stripped truncationNotice :=
    (cutNotice_fits _ _ (Nat.le_refl _)).2
  have hstrip : stripped truncationNotice <:+: truncationNotice :=
    List.infix_iff_prefix_suffix.mpr ⟨_, List.rdropWhile_prefix _ _, List.dropWhile_suffix _⟩
  have hnotice := of_infix_le (m := .utf8) (hcut.isInfix.trans hstrip)
  rw [Measure.of_append]
  omega

theorem bisect_some {paginate : Str → Except Str (List Str)} {n low high : Nat} {best : Option (List Str)}
    (h : bisect paginate text n low high best = some pages) :
    best = some pages ∨ ∃ k, paginate (text.take k ++ truncationNotice) = .ok pages := by
  induction n generalizing low high best with
  | zero => exact .inl h
  | succ n ih =>
    rw [bisect] at h
    split at h
    · cases hp : paginate (text.take ((low + high + 1) / 2) ++ truncationNotice) with
      | error e =>
        simp only [hp] at h
        exact ih h
      | ok found =>
        simp only [hp] at h
        cases ih h with
        | inr hk => exact .inr hk
        | inl heq =>
          cases heq
          exact .inr ⟨_, hp⟩
    · exact .inl h

theorem splitStructuredText_tooLong (style : CodeStyle) {most : Nat}
    (hl : Accepted l m limit) (hmost : l.maxTotalBytes = some most) (hlong : most < Measure.utf8.of text) :
    splitStructuredText l style text =
      .error (if text.any isSurrogate then notEncodable else tooManyBytes most) := by
  unfold splitStructuredText
  rw [hl.measured]
  simp only
  rw [if_neg (Nat.ne_of_gt hl.limit_pos), if_neg (Nat.ne_of_gt hl.pages_pos), if_neg hl.total_pos, hmost]
  cases htext : text.any isSurrogate with
  | true => simp
  | false =>
    have hx : exceeds (some most) (Measure.utf8.of text) = some most := by
      rw [exceeds, Option.filter_some, if_pos (decide_eq_true hlong)]
    simp [hx]

/-- A text over its budget, in bytes, pages or labels. -/
def OverBudget (l : Limits) (style : CodeStyle) (text : Str) (most : Nat) : Measure → Prop
  | .utf8 => text.any isSurrogate = false ∧ most < Measure.utf8.of text
  | .characters => ∃ e, splitStructuredText l style text = .error e ∧ overBudget e = true

/-- The notice that stands in for a text is longer than all pages may be. -/
def NoticeOverTotal (l : Limits) (style : CodeStyle) (text : Str) (m : Measure) (limit : Nat) :
    Prop :=
  ∃ most, l.maxTotalBytes = some most ∧
    most < Measure.utf8.of (fallbackNotice m limit) ∧ OverBudget l style text most m

theorem overBudget_iff {most : Nat} (hl : Accepted l m limit) (hmost : l.maxTotalBytes = some most)
    (hnotice : most < Measure.utf8.of (fallbackNotice m limit)) : OverBudget l style text most m ↔
      ∃ e, splitStructuredText l style text = .error e ∧ overBudget e = true := by
  cases m with
  | characters => exact Iff.rfl
  | utf8 =>
    constructor
    · intro ⟨hencodable, hlong⟩
      refine ⟨_, splitStructuredText_tooLong style hl hmost hlong, ?_⟩
      rw [hencodable]
      exact overBudget_tooManyBytes most
    · intro ⟨e, he, hover⟩
      have hlong : most < Measure.utf8.of text := by
        by_contra hshort
        have hfits : Measure.utf8.of text ≤ limit := by
          have hle : Measure.utf8.of (fallbackNotice .utf8 limit) ≤ limit := fallbackNotice_fits
          omega
        unfold splitStructuredText at he
        rw [hl.measured] at he
        simp only at he
        rw [if_neg (Nat.ne_of_gt hl.limit_pos), if_neg (Nat.ne_of_gt hl.pages_pos),
          if_neg hl.total_pos] at he
        split at he
        · cases he
          exact absurd hover (by decide)
        · have hx : exceeds l.maxTotalBytes (Measure.utf8.of text) = none := by
            rw [exceeds_eq_none, hmost]
            intro b hb
            cases hb
            omega
          simp only [hx, splitWithin, if_pos hfits] at he
          cases he
      refine ⟨?_, hlong⟩
      have htold := splitStructuredText_tooLong style hl hmost hlong
      cases htext : text.any isSurrogate with
      | false => rfl
      | true =>
        rw [htext, if_pos rfl, he] at htold
        cases htold
        exact absurd hover (by decide)

theorem truncated_cases (l : Limits) (style : CodeStyle) (text : Str) (m : Measure) (limit : Nat) :
    (∃ k, splitStructuredText l style (text.take k ++ truncationNotice) =
      .ok (truncated l style text m limit)) ∨
    truncated l style text m limit =
      if fallbackNotice m limit = [] then [] else [fallbackNotice m limit] := by
  unfold truncated
  cases hb : bisect (splitStructuredText l style) text text.length 0 text.length none with
  | none => exact .inr rfl
  | some pages =>
    cases bisect_some hb with
    | inl h => cases h
    | inr h => exact .inl h

theorem fallback_within (hl : Accepted l m limit) (htotal : ∀ most, l.maxTotalBytes = some most →
      Measure.utf8.of (fallbackNotice m limit) ≤ most) :
    Within l m limit (if fallbackNotice m limit = [] then [] else [fallbackNotice m limit]) := by
  split
  · exact ⟨Fit.nil, Nat.zero_le _, fun _ _ => Nat.zero_le _, fun h => absurd h (Nat.not_lt_zero 1)⟩
  refine ⟨Fit.nil.cons fallbackNotice_fits, hl.pages_pos, fun most hmost => ?_,
    fun h => absurd h (Nat.lt_irrefl 1)⟩
  simpa [totalBytes] using htotal most hmost

theorem paginate_cases (hl : Accepted l m limit)
    {cut : Bool} (h : paginateWithTruncationNotice l style text = .ok (pages, cut)) :
    (splitStructuredText l style text = .ok pages ∧ cut = false) ∨
    (∃ e, splitStructuredText l style text = .error e ∧ overBudget e = true ∧
      pages = truncated l style text m limit ∧ cut = true) := by
  unfold paginateWithTruncationNotice at h
  cases hs : splitStructuredText l style text with
  | ok found =>
    rw [hs] at h
    cases h
    exact .inl ⟨rfl, rfl⟩
  | error e =>
    simp only [hs, hl.measured] at h
    split at h
    · next hover =>
      cases h
      exact .inr ⟨e, rfl, hover, rfl, rfl⟩
    · cases h

/-- What the two functions promise of the pages they return for a text. -/
structure KeepsBounds (l : Limits) (style : CodeStyle) (text : Str) (m : Measure) (limit : Nat) :
    Prop where
  split : ∀ pages, splitStructuredText l style text = .ok pages → Within l m limit pages
  paginate : ∀ pages cut, paginateWithTruncationNotice l style text = .ok (pages, cut) →
    Within l m limit pages
  whole : ∀ pages cut, paginateWithTruncationNotice l style text = .ok (pages, cut) →
    (cut = false ↔ splitStructuredText l style text = .ok pages)

/-- Pages keep within the limits, except for a notice longer than the total of all pages. -/
theorem keepsBounds_iff {l : Limits} {text : Str} (hl : Accepted l m limit) :
    KeepsBounds l style text m limit ↔ ¬NoticeOverTotal l style text m limit := by
  constructor
  · intro hkeeps ⟨most, hmost, hnotice, hover⟩
    obtain ⟨e, he, hbudget⟩ := (overBudget_iff hl hmost hnotice).mp hover
    have hpages : paginateWithTruncationNotice l style text =
        .ok (truncated l style text m limit, true) := by
      simp only [paginateWithTruncationNotice, he, hl.measured, hbudget, if_true]
    have htotal := (hkeeps.paginate _ _ hpages).total most hmost
    cases truncated_cases l style text m limit with
    | inl hbest =>
      obtain ⟨k, hk⟩ := hbest
      have hle := (splitStructuredText_ok hl hk).2 most hmost
      have hnot := fallbackNotice_le m limit k text
      omega
    | inr hfallback =>
      rw [hfallback] at htotal
      split at htotal
      · next hnil =>
        rw [hnil] at hnotice
        exact absurd hnotice (Nat.not_lt_zero most)
      · rw [totalBytes, List.map_singleton, List.sum_singleton] at htotal
        omega
  · intro hfine
    refine ⟨fun pages h => splitStructuredText_within hl h, fun pages cut h => ?_,
      fun pages cut h => ?_⟩
    · cases paginate_cases hl h with
      | inl hok => exact splitStructuredText_within hl hok.1
      | inr hcut =>
        obtain ⟨e, he, hover, rfl, rfl⟩ := hcut
        cases truncated_cases l style text m limit with
        | inl hbest =>
          obtain ⟨k, hk⟩ := hbest
          exact splitStructuredText_within hl hk
        | inr hfallback =>
          rw [hfallback]
          apply fallback_within hl
          intro most hmost
          by_contra hlong
          have hnotice := Nat.lt_of_not_le hlong
          exact hfine ⟨most, hmost, hnotice, (overBudget_iff hl hmost hnotice).mpr ⟨e, he, hover⟩⟩
    · cases paginate_cases hl h with
      | inl hok =>
        rw [hok.2]
        exact ⟨fun _ => hok.1, fun _ => rfl⟩
      | inr hcut =>
        obtain ⟨e, he, _, _, rfl⟩ := hcut
        rw [he]
        exact ⟨nofun, nofun⟩

def byteLimits (limit most : Nat) : Limits :=
  { maxBytes := some limit, maxLength := none, maxPages := 100, maxTotalBytes := some most }

theorem keepsBounds_notice_fits : Accepted (byteLimits 100 100) .utf8 100 ∧
      KeepsBounds (byteLimits 100 100) .markdown (List.replicate 101 (cp 'x')) .utf8 100 :=
  have hl : Accepted (byteLimits 100 100) .utf8 100 :=
    ⟨rfl, by decide, by decide, by decide⟩
  ⟨hl, (keepsBounds_iff hl).mpr (fun ⟨most, hmost, hnotice, _⟩ => by
    cases hmost
    exact absurd hnotice (by decide))⟩

/-- Eleven bytes with a total of ten are answered with a page of 84. -/
theorem notice_longer_than_total :
    ¬KeepsBounds (byteLimits 100 10) .markdown (List.replicate 11 (cp 'x')) .utf8 100 := by
  intro hkeeps
  have hpages : paginateWithTruncationNotice (byteLimits 100 10) .markdown
      (List.replicate 11 (cp 'x')) = .ok ([fallbackNotice .utf8 100], true) := by
    decide +kernel
  have htotal := (hkeeps.paginate _ _ hpages).total 10 rfl
  exact absurd htotal (by decide)

end Kirara.PageBounds
