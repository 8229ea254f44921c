import Kirara.PageBounds

namespace Kirara.PageMarks

open Kirara.CodePoints Kirara.TextSplitting Kirara.StructuredText Kirara.PageBounds

/-- A `border` is a fence, a header or a footer that is repeated at a cut. -/
inductive Origin where
  | source
  | label
  | border
  | notice
  | glue
  deriving DecidableEq, Repr

abbrev Piece := Origin × Str

def plain (pieces : List Piece) : Str := (pieces.map Prod.snd).flatten

def kept (pieces : List Piece) : Str :=
  ((pieces.filter (fun p => p.1 == .source)).map Prod.snd).flatten

@[simp] theorem plain_nil : plain [] = [] := rfl

variable {ps : List Piece}

@[simp] theorem plain_cons {p : Piece} : plain (p :: ps) = p.2 ++ plain ps := rfl

@[simp] theorem plain_append {ps qs : List Piece} : plain (ps ++ qs) = plain ps ++ plain qs := by
  simp [plain]

@[simp] theorem kept_nil : kept [] = [] := rfl

@[simp] theorem kept_source {t : Str} : kept ((.source, t) :: ps) = t ++ kept ps := rfl

theorem kept_other {o : Origin} {t : Str} (h : o ≠ .source) : kept ((o, t) :: ps) = kept ps := by
  rw [kept, List.filter_cons_of_neg (by simpa using h), kept]

@[simp] theorem kept_append {ps qs : List Piece} : kept (ps ++ qs) = kept ps ++ kept qs := by
  simp [kept]

def sourceOr (own : Bool) : Origin := if own then .source else .border

def terminated (lines : List Str) : Str := (lines.map (· ++ [newline])).flatten

@[simp] theorem terminated_nil : terminated [] = [] := rfl

@[simp] theorem terminated_append {ks ls : List Str} :
    terminated (ks ++ ls) = terminated ks ++ terminated ls := by
  simp [terminated]

theorem join_concat (lines : List Str) (line : Str) :
    join [newline] (lines ++ [line]) = terminated lines ++ line := by
  induction lines with
  | nil => simp [join, terminated]
  | cons l ls ih =>
    have hne : ls ++ [line] ≠ [] := List.append_ne_nil_of_right_ne_nil _ (List.cons_ne_nil _ _)
    obtain ⟨k, ks, hk⟩ := List.exists_cons_of_ne_nil hne
    rw [hk] at ih
    rw [List.cons_append, hk, join, List.intercalate_cons_cons]
    change l ++ [newline] ++ join [newline] (k :: ks) = _
    rw [ih, terminated, terminated, List.map_cons, List.flatten_cons, List.append_assoc]
    simp

section Marking

variable (m : Measure) (limit : Nat) (style : CodeStyle)

def markText (t : Str) : Except Str (List (List Piece)) :=
  (splitTextPreserving m limit t).map (fun parts => parts.map (fun part => [(.source, part)]))

def markFences (opener closer : Str) : Bool → List Str → List (List Piece)
  | _, [] => []
  | first, part :: parts =>
    [(sourceOr first, opener ++ [newline]), (.source, part),
      (sourceOr parts.isEmpty, [newline] ++ closer)] :: markFences opener closer false parts

def markCodeBlock (block : Str) : Except Str (List (List Piece)) :=
  match fencedParts style block with
  | none => markText m limit block
  | some (opener, content, closer) =>
    let overhead := m.of (opener ++ [newline]) + m.of closer + m.of [newline]
    if limit ≤ overhead then .error tooSmallForFence
    else (splitTextPreserving m (limit - overhead) content).map (markFences opener closer true)

def markLongRow : Nat → List Str → List (List Piece)
  | _, [] => []
  | n, part :: parts =>
    [(.notice, part.take n), (.source, part.drop n)] :: markLongRow (n - part.length) parts

variable (header : List Str) (footer : Str)

def rowFits (row : Str) : Bool := m.of (join [newline] (header ++ [row, footer])) ≤ limit

def tablePage (first last : Bool) (rows : List Str) : List Piece :=
  [(sourceOr first, terminated header), (.source, terminated rows), (sourceOr last, footer)]

def closeMarked (first last : Bool) (pages : List (List Piece)) (rows : List Str) :
    List (List Piece) :=
  if rows.isEmpty then pages else pages ++ [tablePage header footer first last rows]

/-- `addRows` with the rows on this page, and whether it is the first with a header. -/
def markRows : List Str → List (List Piece) → Bool → List Str → Except Str (List (List Piece))
  | [], pages, first, current =>
    .ok (if !current.isEmpty || pages.isEmpty then
      pages ++ [tablePage header footer first true current] else pages)
  | row :: rows, pages, first, current =>
    if m.of (join [newline] (header ++ current ++ [row, footer])) ≤ limit then
      markRows rows pages first (current ++ [row])
    else if rowFits m limit header footer row then
      markRows rows (closeMarked header footer first false pages current)
        (first && current.isEmpty) [row]
    else
      match splitTextPreserving m limit (rowNotice ++ row) with
      | .error e => .error e
      | .ok parts =>
        markRows rows
          (closeMarked header footer first (!rows.any (rowFits m limit header footer)) pages current
            ++ markLongRow rowNotice.length parts)
          (first && current.isEmpty) []

def markBoxTable (lines : List Str) : Except Str (List (List Piece)) :=
  if lines.length < 4 then markText m limit (join [newline] lines)
  else
    let header := lines.take 3
    let footer := lines.getLastD []
    if limit < m.of (join [newline] (header ++ [footer])) then .error tooSmallForTable
    else markRows m limit header footer (lines.drop 3).dropLast [] true []

def mergeMarked (merged : List (List Piece)) (chunk : List Piece) : List (List Piece) :=
  match merged with
  | [] => [chunk]
  | last :: earlier =>
    let candidate := last ++ [(.glue, [newline, newline])] ++ chunk
    if m.of (plain candidate) ≤ limit then candidate :: earlier else chunk :: last :: earlier

def markBackfill (chunks : List (List Piece)) : List (List Piece) :=
  (chunks.foldl (mergeMarked m limit) []).reverse

def markSegment : Segment → Except Str (List (List Piece))
  | .prose text => markText m limit text
  | .code block => markCodeBlock m limit style block
  | .table lines => markBoxTable m limit lines

def markSegments : List Segment → Except Str (List (List Piece))
  | [] => .ok []
  | s :: rest =>
    match markSegment m limit style s with
    | .error e => .error e
    | .ok chunks => (markSegments rest).map (chunks ++ ·)

def markBody (text : Str) : Except Str (List (List Piece)) :=
  if (splitLines text).isEmpty then .ok [[(.source, text)]]
  else
    (markSegments m limit style (segments style (splitLines text) (.regular []))).map
      (fun chunks => if chunks.isEmpty then [[]] else markBackfill m limit chunks)

def markLabels (chunks : List (List Piece)) : List (List Piece) :=
  chunks.zipIdx.map (fun p => (.label, pageLabel (p.2 + 1) chunks.length) :: p.1)

def markPages (text : Str) (total : Nat) : Except Str (List (List Piece)) :=
  if m.of text ≤ limit then .ok [[(.source, text)]]
  else (markBody m (limit - labelSize m total) style text).map markLabels

end Marking

variable {m : Measure} {limit : Nat} {style : CodeStyle} {header : List Str} {footer : Str}

theorem map_map {ε α β γ : Type} (e : Except ε α) (f : α → β) (g : β → γ) :
    (e.map f).map g = e.map (fun a => g (f a)) := by
  cases e with
  | error x => rfl
  | ok a => rfl

theorem map_eq_self {ε α : Type} {e : Except ε α} {f : α → α} (h : ∀ a, f a = a) : e.map f = e := by
  cases e with
  | error x => rfl
  | ok a => exact congrArg Except.ok (h a)

theorem markText_plain (t : Str) :
    (markText m limit t).map (List.map plain) = splitTextPreserving m limit t := by
  rw [markText, map_map]
  apply map_eq_self
  intro parts
  simp [plain, Function.comp_def]

theorem markFences_plain (opener closer : Str) (first : Bool) (parts : List Str) :
    (markFences opener closer first parts).map plain =
      parts.map (fun part => opener ++ [newline] ++ part ++ [newline] ++ closer) := by
  induction parts generalizing first with
  | nil => rfl
  | cons part parts ih =>
    rw [markFences, List.map_cons, ih, List.map_cons]
    simp

theorem markCodeBlock_plain (block : Str) : (markCodeBlock m limit style block).map (List.map plain) =
      splitCodeBlock m limit style block := by
  unfold markCodeBlock splitCodeBlock
  cases fencedParts style block with
  | none => exact markText_plain block
  | some p =>
    obtain ⟨opener, content, closer⟩ := p
    simp only
    split
    · rfl
    rw [map_map]
    congr 1
    funext parts
    exact markFences_plain opener closer true parts

theorem markLongRow_plain (n : Nat) (parts : List Str) : (markLongRow n parts).map plain = parts := by
  induction parts generalizing n with
  | nil => rfl
  | cons part parts ih =>
    rw [markLongRow, List.map_cons, ih]
    simp

theorem tablePage_plain (first last : Bool) (rows : List Str) :
    plain (tablePage header footer first last rows) =
      join [newline] (header ++ rows ++ [footer]) := by
  rw [join_concat, terminated_append]
  simp [tablePage, plain]

theorem closeMarked_plain (first last : Bool) (pages : List (List Piece)) (rows : List Str) :
    (closeMarked header footer first last pages rows).map plain =
      closePage header footer (pages.map plain) (header ++ rows) := by
  unfold closeMarked closePage
  cases rows with
  | nil => simp
  | cons row rows => simp [tablePage_plain]

theorem markRows_plain (rows : List Str) (pages : List (List Piece)) (first : Bool) (current : List Str) :
    (markRows m limit header footer rows pages first current).map (List.map plain) =
      addRows m limit header footer rows (pages.map plain) (header ++ current) := by
  induction rows generalizing pages first current with
  | nil =>
    rw [markRows, addRows]
    cases current with
    | nil =>
      cases pages with
      | nil => simp [Except.map, tablePage_plain]
      | cons page pages => simp [Except.map]
    | cons row rows => simp [Except.map, tablePage_plain]
  | cons row rows ih =>
    rw [markRows, addRows]
    split
    · rw [ih, List.append_assoc]
    simp only [rowFits, decide_eq_true_eq]
    split
    · rw [ih, closeMarked_plain]
    cases splitTextPreserving m limit (rowNotice ++ row) with
    | error e => rfl
    | ok parts =>
      simp only
      rw [ih, List.map_append, closeMarked_plain, markLongRow_plain, List.append_nil]

theorem markBoxTable_plain (lines : List Str) :
    (markBoxTable m limit lines).map (List.map plain) = splitBoxTable m limit lines := by
  unfold markBoxTable splitBoxTable
  split
  · exact markText_plain _
  simp only
  split
  · rfl
  · rw [markRows_plain, List.map_nil, List.append_nil]

variable (chunks : List (List Piece))

theorem markBackfill_plain :
    (markBackfill m limit chunks).map plain = backfillChunks m limit (chunks.map plain) := by
  rw [markBackfill, backfillChunks, List.map_reverse, List.foldl_map]
  congr 1
  symm
  change List.foldl _ (List.map plain []) chunks = _
  apply List.foldl_hom (List.map plain)
  intro merged chunk
  cases merged with
  | nil => rfl
  | cons last earlier =>
    simp only [mergeMarked, List.map_cons, plain_append, plain_cons, plain_nil, List.append_nil]
    split
    · simp
    · simp

theorem markSegment_plain (s : Segment) :
    (markSegment m limit style s).map (List.map plain) = splitSegment m limit style s := by
  cases s with
  | prose text => exact markText_plain text
  | code block => exact markCodeBlock_plain block
  | table lines => exact markBoxTable_plain lines

theorem markSegments_plain (segs : List Segment) :
    (markSegments m limit style segs).map (List.map plain) = splitSegments m limit style segs := by
  induction segs with
  | nil => rfl
  | cons s rest ih =>
    rw [markSegments, splitSegments, ← markSegment_plain, ← ih]
    cases markSegment m limit style s with
    | error e => rfl
    | ok chunks =>
      simp only [Except.map]
      cases markSegments m limit style rest with
      | error e => rfl
      | ok others => simp

theorem markBody_plain (text : Str) :
    (markBody m limit style text).map (List.map plain) = splitStructuredBody m limit style text := by
  unfold markBody splitStructuredBody
  split
  · simp [Except.map]
  rw [map_map, ← markSegments_plain, map_map]
  congr 1
  funext chunks
  cases chunks with
  | nil => rfl
  | cons chunk chunks => simp [markBackfill_plain]

theorem markLabels_plain : (markLabels chunks).map plain = numberPages (chunks.map plain) := by
  rw [markLabels, numberPages, List.map_map, List.zipIdx_map, List.map_map]
  simp [Function.comp_def]

theorem markPages_plain {l : Limits} {text : Str} {pages : List Str} (hl : Accepted l m limit)
    (h : splitStructuredText l style text = .ok pages) :
    (markPages m limit style text pages.length).map (List.map plain) = .ok pages := by
  unfold markPages
  cases splitWithin_ok (splitStructuredText_ok hl h).1 with
  | inl hone =>
    obtain ⟨hfits, rfl⟩ := hone
    rw [if_pos hfits]
    simp [Except.map]
  | inr hmany =>
    obtain ⟨hlong, chunks, rfl, _, _, hbody, _⟩ := hmany
    rw [if_neg (Nat.not_le_of_lt hlong), numberPages_length, map_map]
    rw [← markBody_plain] at hbody
    cases hm : markBody m (limit - labelSize m chunks.length) style text with
    | error e =>
      rw [hm] at hbody
      cases hbody
    | ok marked =>
      rw [hm] at hbody
      cases hbody
      exact congrArg Except.ok (markLabels_plain marked)

end Kirara.PageMarks
