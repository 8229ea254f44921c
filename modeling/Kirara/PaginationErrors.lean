import Kirara.PageBounds

namespace Kirara.PaginationErrors

open Kirara.CodePoints Kirara.TextSplitting Kirara.StructuredText Kirara.ChunkBounds
open Kirara.PageBounds Kirara.Fallible

variable {m : Measure} {limit : Nat} {style : CodeStyle}

/-- The errors of a message limit in which a piece of the text finds no room. -/
def tooSmall : List Str := [tooSmallForCharacter, tooSmallForFence, tooSmallForTable]

/-- Whether a splitter finds room for what it keeps whole. -/
def Room (m : Measure) (limit : Nat) (style : CodeStyle) : Segment → Prop
  | .prose _ => True
  | .code block => ∀ opener content closer, fencedParts style block = some (opener, content, closer) →
    m.of (opener ++ [newline]) + m.of closer + m.of [newline] < limit ∧
      ∀ c ∈ content, m.of (opener ++ [newline]) + m.of closer + m.of [newline] + m.char c ≤ limit
  | .table lines => 4 ≤ lines.length →
    m.of (join [newline] (lines.take 3 ++ [lines.getLastD []])) ≤ limit

theorem splitTextPreserving_ok_iff {t : Str} :
    (∃ parts, splitTextPreserving m limit t = .ok parts) ↔ ∀ c ∈ t, m.char c ≤ limit := by
  constructor
  · intro ⟨parts, hparts⟩
    cases splitTextPreserving_cases m limit t with
    | inl hok =>
      obtain ⟨_, _, _, _, hchars⟩ := hok
      exact hchars
    | inr herr =>
      rw [hparts] at herr
      cases herr.1
  · intro hchars
    cases splitTextPreserving_cases m limit t with
    | inl hok =>
      obtain ⟨parts, hparts, _⟩ := hok
      exact ⟨parts, hparts⟩
    | inr herr =>
      obtain ⟨_, c, hc, hlong⟩ := herr
      exact absurd (hchars c hc) (Nat.not_le_of_lt hlong)

theorem splitTextPreserving_error {t e : Str} (h : splitTextPreserving m limit t = .error e) :
    e = tooSmallForCharacter := by
  cases splitTextPreserving_cases m limit t with
  | inl hok =>
    obtain ⟨parts, hparts, _⟩ := hok
    rw [h] at hparts
    cases hparts
  | inr herr =>
    have heq := herr.1
    rw [h] at heq
    cases heq
    rfl

theorem splitTextPreserving_ok (hfour : 4 ≤ limit) (t : Str) :
    ∃ parts, splitTextPreserving m limit t = .ok parts :=
  splitTextPreserving_ok_iff.mpr fun _ _ => Nat.le_trans Measure.char_le hfour

theorem splitCodeBlock_ok_iff (hfour : 4 ≤ limit) (block : Str) :
    (∃ chunks, splitCodeBlock m limit style block = .ok chunks) ↔
      Room m limit style (.code block) := by
  rw [splitCodeBlock, Room]
  cases hp : fencedParts style block with
  | none =>
    have hok := splitTextPreserving_ok (m := m) hfour block
    exact ⟨fun _ _ _ _ h => (nomatch h), fun _ => hok⟩
  | some p =>
    obtain ⟨opener, content, closer⟩ := p
    simp only
    split
    · next hclosed =>
      refine ⟨fun ⟨_, h⟩ => (nomatch h), fun hroom => ?_⟩
      have hopen := (hroom opener content closer rfl).1
      omega
    · next hopen =>
      rw [map_ok_iff, splitTextPreserving_ok_iff]
      constructor
      · intro hchars o c l heq
        cases heq
        refine ⟨Nat.lt_of_not_le hopen, fun c hc => ?_⟩
        have hchar := hchars c hc
        omega
      · intro hroom c hc
        have hchar := (hroom opener content closer rfl).2 c hc
        omega

theorem splitCodeBlock_error {block e : Str} (h : splitCodeBlock m limit style block = .error e) :
    e ∈ tooSmall := by
  unfold splitCodeBlock at h
  cases hp : fencedParts style block with
  | none =>
    rw [hp] at h
    rw [splitTextPreserving_error h]
    decide
  | some p =>
    simp only [hp] at h
    split at h
    · cases h
      decide
    · rw [splitTextPreserving_error (map_error h)]
      decide

theorem addRows_ok (hfour : 4 ≤ limit) (header : List Str) (footer : Str) (rows pages current : List Str) :
    ∃ out, addRows m limit header footer rows pages current = .ok out := by
  induction rows generalizing pages current with
  | nil => exact ⟨_, rfl⟩
  | cons row rows ih =>
    rw [addRows]
    split
    · exact ih _ _
    split
    · exact ih _ _
    obtain ⟨parts, hparts⟩ := splitTextPreserving_ok (m := m) hfour (rowNotice ++ row)
    rw [hparts]
    exact ih _ _

theorem addRows_error {header : List Str} {footer e : Str} {rows pages current : List Str}
    (h : addRows m limit header footer rows pages current = .error e) : e ∈ tooSmall := by
  induction rows generalizing pages current with
  | nil => cases h
  | cons row rows ih =>
    rw [addRows] at h
    split at h
    · exact ih h
    split at h
    · exact ih h
    cases hp : splitTextPreserving m limit (rowNotice ++ row) with
    | ok parts =>
      rw [hp] at h
      exact ih h
    | error x =>
      rw [hp] at h
      cases h
      rw [splitTextPreserving_error hp]
      decide

theorem splitBoxTable_ok_iff (hfour : 4 ≤ limit) (lines : List Str) :
    (∃ chunks, splitBoxTable m limit lines = .ok chunks) ↔ Room m limit style (.table lines) := by
  rw [splitBoxTable, Room]
  split
  · next hshort =>
    have hok := splitTextPreserving_ok (m := m) hfour (join [newline] lines)
    exact ⟨fun _ hlong => by omega, fun _ => hok⟩
  · next hlong =>
    simp only
    split
    · next hborder =>
      refine ⟨fun ⟨_, h⟩ => (nomatch h), fun hroom => ?_⟩
      have hle := hroom (Nat.le_of_not_lt hlong)
      omega
    · next hborder =>
      have hok := addRows_ok (m := m) hfour (lines.take 3) (lines.getLastD [])
        (lines.drop 3).dropLast [] (lines.take 3)
      exact ⟨fun _ _ => Nat.le_of_not_lt hborder, fun _ => hok⟩

variable {e : Str}

theorem splitBoxTable_error {lines : List Str} (h : splitBoxTable m limit lines = .error e) : e ∈ tooSmall := by
  unfold splitBoxTable at h
  split at h
  · rw [splitTextPreserving_error h]
    decide
  · simp only at h
    split at h
    · cases h
      decide
    · exact addRows_error h

theorem splitSegment_ok_iff (hfour : 4 ≤ limit) (s : Segment) :
    (∃ chunks, splitSegment m limit style s = .ok chunks) ↔ Room m limit style s := by
  cases s with
  | prose text => exact ⟨fun _ => trivial, fun _ => splitTextPreserving_ok hfour text⟩
  | code block => exact splitCodeBlock_ok_iff hfour block
  | table lines => exact splitBoxTable_ok_iff hfour lines

theorem splitSegment_error {s : Segment} (h : splitSegment m limit style s = .error e) : e ∈ tooSmall := by
  cases s with
  | prose text =>
    rw [splitTextPreserving_error h]
    decide
  | code block => exact splitCodeBlock_error h
  | table lines => exact splitBoxTable_error h

theorem splitSegments_ok_iff (hfour : 4 ≤ limit) (segs : List Segment) :
    (∃ chunks, splitSegments m limit style segs = .ok chunks) ↔ ∀ s ∈ segs, Room m limit style s := by
  induction segs with
  | nil => exact ⟨fun _ s hs => absurd hs List.not_mem_nil, fun _ => ⟨[], rfl⟩⟩
  | cons s rest ih =>
    rw [List.forall_mem_cons, ← splitSegment_ok_iff hfour s, ← ih, splitSegments]
    cases splitSegment m limit style s with
    | error e => exact iff_of_false (by rintro ⟨_, ⟨⟩⟩) (by rintro ⟨⟨_, ⟨⟩⟩, _⟩)
    | ok first =>
      rw [map_ok_iff]
      exact ⟨fun h => ⟨⟨first, rfl⟩, h⟩, fun h => h.2⟩

theorem splitSegments_error {segs : List Segment}
    (h : splitSegments m limit style segs = .error e) : e ∈ tooSmall := by
  induction segs with
  | nil => cases h
  | cons s rest ih =>
    rw [splitSegments] at h
    cases hs : splitSegment m limit style s with
    | error x =>
      rw [hs] at h
      cases h
      exact splitSegment_error hs
    | ok first =>
      rw [hs] at h
      exact ih (map_error h)

def segmentsOf (style : CodeStyle) (text : Str) : List Segment :=
  segments style (splitLines text) (.regular [])

theorem splitStructuredBody_ok_iff (hfour : 4 ≤ limit) (text : Str) :
    (∃ chunks, splitStructuredBody m limit style text = .ok chunks) ↔
      ∀ s ∈ segmentsOf style text, Room m limit style s := by
  unfold splitStructuredBody segmentsOf
  split
  · next hempty =>
    rw [List.isEmpty_iff.mp hempty]
    exact ⟨fun _ s hs => absurd hs List.not_mem_nil, fun _ => ⟨_, rfl⟩⟩
  · rw [map_ok_iff, splitSegments_ok_iff hfour]

theorem splitStructuredBody_error {text e : Str}
    (h : splitStructuredBody m limit style text = .error e) : e ∈ tooSmall := by
  unfold splitStructuredBody at h
  split at h
  · cases h
  · exact splitSegments_error (map_error h)

/-- Each round of the page count has room for every segment beside its label. -/
def RoomEachRound (m : Measure) (limit : Nat) (style : CodeStyle) (maxPages : Nat) (text : Str) :
    Nat → Nat → Prop
  | 0, _ => True
  | n + 1, total =>
    (∀ s ∈ segmentsOf style text, Room m (limit - labelSize m total) style s) ∧
      ∀ chunks, splitStructuredBody m (limit - labelSize m total) style text = .ok chunks →
        chunks.length ≤ maxPages → chunks.length ≠ total →
        RoomEachRound m limit style maxPages text n chunks.length

theorem tooSmall_not_overBudget (h : e ∈ tooSmall) : overBudget e = false := by
  have hall : ∀ e ∈ tooSmall, overBudget e = false := by decide
  exact hall e h

theorem overBudget_tooManyPages (maxPages : Nat) : overBudget (tooManyPages maxPages) = true :=
  overBudget_numbered maxPages (by decide) (by decide) (by decide)

theorem overBudget_tooManyPageBytes (most : Nat) : overBudget (tooManyPageBytes most) = true :=
  overBudget_numbered most (by decide) (by decide) (by decide)

variable {text : Str}

/-- The page count fails for good only where a round leaves too little room; the labels of
`maxPages` pages leave four bytes. -/
theorem stableChunks_raises_iff {maxPages : Nat}
    (hlabel : ∀ total, total ≤ maxPages → labelSize m total + 4 ≤ limit) (n total : Nat)
    (htotal : total ≤ maxPages) :
    (∃ e, stableChunks m limit style maxPages text n total = .error e ∧ overBudget e = false) ↔
      ¬RoomEachRound m limit style maxPages text n total := by
  induction n generalizing total with
  | zero =>
    constructor
    · rintro ⟨e, he, hover⟩
      cases he
      exact absurd hover (by decide)
    · exact fun h => absurd trivial h
  | succ n ih =>
    have hle := hlabel total htotal
    have hfour : 4 ≤ limit - labelSize m total := by omega
    rw [stableChunks, if_neg (by omega), RoomEachRound, ← splitStructuredBody_ok_iff hfour]
    cases hb : splitStructuredBody m (limit - labelSize m total) style text with
    | error e =>
      have hfinal := tooSmall_not_overBudget (splitStructuredBody_error hb)
      exact iff_of_true ⟨e, rfl, hfinal⟩ (by rintro ⟨⟨_, ⟨⟩⟩, _⟩)
    | ok chunks =>
      simp only
      split
      · next hmany =>
        refine ⟨?_, fun h => ?_⟩
        · rintro ⟨e, he, hover⟩
          cases he
          rw [overBudget_tooManyPages] at hover
          cases hover
        · refine absurd ⟨⟨chunks, rfl⟩, fun c hc hcount => ?_⟩ h
          cases hc
          omega
      · next hcount =>
        split
        · next heq =>
          refine ⟨by rintro ⟨_, ⟨⟩, _⟩, fun h => ?_⟩
          refine absurd ⟨⟨chunks, rfl⟩, fun c hc _ hne => ?_⟩ h
          cases hc
          exact absurd heq hne
        · next hne =>
          rw [ih chunks.length (Nat.le_of_not_lt hcount)]
          refine not_congr ⟨fun h => ⟨⟨chunks, rfl⟩, fun c hc _ _ => ?_⟩, fun h => ?_⟩
          · cases hc
            exact h
          · exact h.2 chunks rfl (Nat.le_of_not_lt hcount) hne

theorem digits_size {n : Nat} (h : n ≤ 100) : Measure.utf8.of (digits n) ≤ 3 := by
  have hascii : ∀ t : Str, (∀ c ∈ t, c.val < 0x80) → Measure.utf8.of t = t.length := by
    intro t ht
    induction t with
    | nil => rfl
    | cons c cs ih =>
      have hc : Measure.utf8.char c = 1 := by
        rw [Measure.char, utf8Size, if_pos (ht c List.mem_cons_self)]
      rw [Measure.of_cons, hc, ih (fun d hd => ht d (List.mem_cons_of_mem _ hd)), List.length_cons]
      omega
  rw [hascii _ (fun c hc => digits_ascii hc), digits, List.length_map]
  exact (Nat.length_toDigits_le_iff (by decide) (by decide)).mpr (by omega)

theorem labelSize_le {total : Nat} (h : total ≤ 100) : labelSize .utf8 total ≤ 26 := by
  unfold labelSize
  apply List.max_le_of_forall_le
  intro n hn
  obtain ⟨i, hi, rfl⟩ := List.mem_map.mp hn
  have hpage := digits_size (n := i + 1) (by have := List.mem_range.mp hi; omega)
  have htotal := digits_size h
  have hwords : Measure.utf8.of (lit "第 ") + Measure.utf8.of (lit " 页 / 共 ") +
      Measure.utf8.of (lit " 页\n") = 20 := by decide
  simp only [pageLabel, Measure.of_append]
  omega

/-- A text that cannot be encoded, or whose fences or tables leave no room. -/
def Refused (limit : Nat) (style : CodeStyle) (text : Str) (most : Nat) : Prop :=
  text.any isSurrogate = true ∨
    (limit < Measure.utf8.of text ∧ Measure.utf8.of text ≤ most ∧
      ¬RoomEachRound .utf8 limit style 100 text 12 1)

theorem splitWithin_raises_iff {l : Limits} (hpages : l.maxPages = 100) (hlimit : 30 ≤ limit) :
    (∃ e, splitWithin l style text .utf8 limit = .error e ∧ overBudget e = false) ↔
      limit < Measure.utf8.of text ∧ ¬RoomEachRound .utf8 limit style 100 text 12 1 := by
  have hlabel : ∀ total, total ≤ 100 → labelSize .utf8 total + 4 ≤ limit := by
    intro total htotal
    have hle := labelSize_le htotal
    omega
  rw [← stableChunks_raises_iff hlabel 12 1 (by decide), splitWithin, hpages]
  split
  · next hfits =>
    exact iff_of_false (by rintro ⟨_, ⟨⟩, _⟩) (fun h => Nat.not_lt_of_le hfits h.1)
  · next hlong =>
    rw [and_iff_right (Nat.lt_of_not_le hlong)]
    cases hc : stableChunks .utf8 limit style 100 text 12 1 with
    | error e => exact Iff.rfl
    | ok chunks =>
      obtain ⟨hroom, _, hbody⟩ := stableChunks_ok hc
      have hfit := numberPages_fit hroom (splitStructuredBody_fit hbody)
      simp only [Except.bind, finishPages_eq hfit]
      refine iff_of_false ?_ (by rintro ⟨_, ⟨⟩, _⟩)
      rintro ⟨e, he, hover⟩
      split at he
      · cases he
        rw [overBudget_tooManyPageBytes] at hover
        cases hover
      · cases he

theorem splitStructuredText_raises_iff {limit most : Nat} (hlimit : 30 ≤ limit)
    (hmost : 0 < most) : (∃ e, splitStructuredText (byteLimits limit most) style text = .error e ∧
      overBudget e = false) ↔ Refused limit style text most := by
  have hl : Accepted (byteLimits limit most) .utf8 limit :=
    ⟨rfl, by omega, (by decide : 0 < 100), fun h => by cases h; omega⟩
  unfold Refused splitStructuredText
  rw [hl.measured]
  simp only
  rw [if_neg (Nat.ne_of_gt hl.limit_pos), if_neg (Nat.ne_of_gt hl.pages_pos), if_neg hl.total_pos]
  cases htext : text.any isSurrogate with
  | true =>
    rw [if_pos (by simp)]
    exact ⟨fun _ => .inl rfl, fun _ => ⟨_, rfl, by decide⟩⟩
  | false =>
    rw [if_neg (by simp), or_iff_right Bool.false_ne_true]
    cases hx : exceeds (byteLimits limit most).maxTotalBytes (Measure.utf8.of text) with
    | some most' =>
      simp only
      constructor
      · intro ⟨e, he, hover⟩
        cases he
        rw [overBudget_tooManyBytes] at hover
        cases hover
      · intro ⟨_, hle, _⟩
        have hnone : exceeds (byteLimits limit most).maxTotalBytes (Measure.utf8.of text) = none := by
          rw [exceeds_eq_none]
          intro b hb
          cases hb
          exact hle
        rw [hnone] at hx
        cases hx
    | none =>
      have hle := exceeds_eq_none.mp hx most rfl
      simp only
      rw [splitWithin_raises_iff rfl hlimit]
      exact ⟨fun h => ⟨h.1, hle, h.2⟩, fun h => ⟨h.1, h.2.2⟩⟩

theorem paginate_ok_iff {limit most : Nat} :
    (∃ r, paginateWithTruncationNotice (byteLimits limit most) style text = .ok r) ↔
      ¬∃ e, splitStructuredText (byteLimits limit most) style text = .error e ∧
        overBudget e = false := by
  unfold paginateWithTruncationNotice
  cases splitStructuredText (byteLimits limit most) style text with
  | ok pages => exact ⟨fun _ ⟨_, h, _⟩ => (nomatch h), fun _ => ⟨_, rfl⟩⟩
  | error e =>
    cases hover : overBudget e with
    | true =>
      refine ⟨fun _ ⟨x, hx, hfalse⟩ => ?_, fun _ => ⟨_, if_pos hover⟩⟩
      cases hx
      rw [hover] at hfalse
      cases hfalse
    | false =>
      simp only [hover]
      exact ⟨fun ⟨_, h⟩ => (nomatch h), fun h => absurd ⟨e, rfl, hover⟩ h⟩

/-- `DEFAULT_MAX_BYTES - MAX_PAGE_LABEL_BYTES`, in 100 pages of a million bytes. -/
def oneBotLimits : Limits :=
  byteLimits (3800 - Measure.utf8.of (pageLabel 100 100)) 1000000

/-- A reply is paginated or cut short unless its content is refused. -/
theorem paginates_iff (text : Str) : (∃ r, paginateWithTruncationNotice oneBotLimits .markdown text = .ok r) ↔
      ¬Refused 3774 .markdown text 1000000 := by
  have hlabel : Measure.utf8.of (pageLabel 100 100) = 26 := by decide
  rw [oneBotLimits, hlabel, paginate_ok_iff, splitStructuredText_raises_iff (by decide) (by decide)]

def endlessFence : Str := lit "```" ++ List.replicate 1300 (cp '码') ++ lit "\na\n```"

theorem endless_fence_raises :
    ¬∃ r, paginateWithTruncationNotice oneBotLimits .markdown endlessFence = .ok r := by
  have herror : paginateWithTruncationNotice oneBotLimits .markdown endlessFence =
      .error tooSmallForFence := by
    decide +kernel
  intro ⟨r, hr⟩
  rw [herror] at hr
  cases hr

end Kirara.PaginationErrors
