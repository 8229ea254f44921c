import Kirara.PageMarks

namespace Kirara.PageContent

open Kirara.CodePoints Kirara.TextSplitting Kirara.StructuredText
open Kirara.PageBounds Kirara.PageMarks Kirara.Fallible

section Rows

variable (fits : Str → Bool) (header : List Str) (footer : Str)

/-- The footer is after the last row that fits on a page. -/
def closing : List Str → Str
  | [] => visible footer
  | row :: rows =>
    if (row :: rows).any fits then visible row ++ closing rows
    else visible footer ++ visible (row :: rows).flatten

def opening : List Str → Str
  | [] => []
  | row :: rows =>
    if fits row then visible header.flatten ++ visible row ++ closing fits footer rows
    else visible row ++ opening rows

/-- What is kept of the rows on the page at hand and of those that are left. -/
def remaining (first : Bool) (current rows : List Str) : Str :=
  if current.isEmpty then
    if first then opening fits header footer rows
    else if rows.any fits then closing fits footer rows else visible rows.flatten
  else
    (if first then visible header.flatten else []) ++ visible current.flatten ++
      closing fits footer rows

def tooLong (row : Str) : Bool := !fits row

/-- The over-long rows do not show that they have moved past the header and the footer. -/
def RowsInOrder (rows : List Str) : Prop :=
  rows = [] ∨ (rows.any fits = true ∧ visible ((rows.takeWhile (tooLong fits)).flatten ++ header.flatten) =
      visible (header.flatten ++ (rows.takeWhile (tooLong fits)).flatten) ∧
    visible (footer ++ (rows.rtakeWhile (tooLong fits)).flatten) =
      visible ((rows.rtakeWhile (tooLong fits)).flatten ++ footer))

instance (rows : List Str) : Decidable (RowsInOrder fits header footer rows) :=
  inferInstanceAs (Decidable (_ ∨ _))

variable {fits header footer} {rows : List Str} {row : Str}

theorem rdropWhile_cons {p : Str → Bool} (h : (row :: rows).any (fun r => !p r) = true) :
    (row :: rows).rdropWhile p = row :: rows.rdropWhile p := by
  unfold List.rdropWhile
  rw [List.reverse_cons, List.dropWhile_append]
  split
  · next hall =>
    have hrows : ∀ r ∈ rows, p r = true := by
      intro r hr
      exact List.dropWhile_eq_nil_iff.mp (List.isEmpty_iff.mp hall) r (List.mem_reverse.mpr hr)
    have hrow : p row = false := by
      obtain ⟨r, hr, hp⟩ := List.any_eq_true.mp h
      cases List.mem_cons.mp hr with
      | inl heq => simpa [heq] using hp
      | inr hmem => simp [hrows r hmem] at hp
    rw [List.isEmpty_iff.mp hall, List.dropWhile_cons_of_neg (by simp [hrow])]
    rfl
  · rw [List.reverse_append, List.reverse_singleton, List.singleton_append]

theorem rtakeWhile_cons {p : Str → Bool} (h : (row :: rows).any (fun r => !p r) = true) :
    (row :: rows).rtakeWhile p = rows.rtakeWhile p := by
  have hwhole := List.rdropWhile_append_rtakeWhile (p := p) (l := row :: rows)
  rw [rdropWhile_cons h, List.cons_append] at hwhole
  have htail := List.tail_eq_of_cons_eq hwhole
  have hrows := List.rdropWhile_append_rtakeWhile (p := p) (l := rows)
  exact List.append_cancel_left (htail.trans hrows.symm)

theorem closing_cons_of_any (h : (row :: rows).any fits = true) :
    closing fits footer (row :: rows) = visible row ++ closing fits footer rows := by
  rw [closing, if_pos h]

theorem closing_of_none (h : rows.any fits = false) :
    closing fits footer rows = visible footer ++ visible rows.flatten := by
  cases rows with
  | nil => simp [closing]
  | cons row rows => rw [closing, if_neg (Bool.eq_false_iff.mp h)]

variable {first : Bool}

theorem remaining_add {current : List Str} (h : fits row = true) :
    remaining fits header footer first (current ++ [row]) rows =
      remaining fits header footer first current (row :: rows) := by
  have hany : (row :: rows).any fits = true := by simp [h]
  unfold remaining
  rw [closing_cons_of_any hany]
  cases current with
  | nil =>
    cases first with
    | true => simp [opening, h]
    | false => simp [h]
  | cons r rs => simp

theorem remaining_turn (current : List Str) (h : fits row = true) : (if current.isEmpty then [] else
        (if first then visible header.flatten else []) ++ visible current.flatten ++ []) ++
      remaining fits header footer (first && current.isEmpty) [row] rows =
      remaining fits header footer first current (row :: rows) := by
  have hany : (row :: rows).any fits = true := by simp [h]
  unfold remaining
  rw [closing_cons_of_any hany]
  cases current with
  | nil =>
    cases first with
    | true => simp [opening, h]
    | false => simp [h]
  | cons r rs => simp

theorem remaining_skip (current : List Str) (h : fits row = false) : (if current.isEmpty then [] else
        (if first then visible header.flatten else []) ++ visible current.flatten ++
          if !rows.any fits then visible footer else []) ++ visible row ++
      remaining fits header footer (first && current.isEmpty) [] rows =
      remaining fits header footer first current (row :: rows) := by
  have hcons : (row :: rows).any fits = rows.any fits := by simp [h]
  unfold remaining
  cases hany : rows.any fits with
  | true =>
    rw [hany] at hcons
    rw [closing_cons_of_any hcons]
    cases current with
    | nil =>
      cases first with
      | true => simp [opening, h]
      | false => simp [hcons]
    | cons r rs => simp
  | false =>
    rw [hany] at hcons
    rw [closing_of_none hcons]
    cases current with
    | nil =>
      cases first with
      | true => simp [opening, h]
      | false => simp [hcons]
    | cons r rs => simp

theorem any_not_tooLong : rows.any (fun r => !tooLong fits r) = rows.any fits := by
  simp [tooLong]

theorem closing_eq (rows : List Str) :
    closing fits footer rows = visible (rows.rdropWhile (tooLong fits)).flatten ++
      visible footer ++ visible (rows.rtakeWhile (tooLong fits)).flatten := by
  induction rows with
  | nil => simp [closing]
  | cons row rows ih =>
    rw [closing]
    split
    · next hany =>
      rw [← any_not_tooLong] at hany
      rw [rdropWhile_cons hany, rtakeWhile_cons hany, ih]
      simp
    · next hnone =>
      have hall : ∀ r ∈ row :: rows, tooLong fits r = true := by simpa [tooLong] using hnone
      rw [List.rdropWhile_eq_nil_iff.mpr hall, List.rtakeWhile_eq_self_iff.mpr hall]
      simp

theorem opening_none (h : rows.any fits = false) : opening fits header footer rows = visible rows.flatten := by
  induction rows with
  | nil => rfl
  | cons row rows ih =>
    rw [List.any_cons, Bool.or_eq_false_iff] at h
    rw [opening, h.1, if_neg Bool.false_ne_true, ih h.2, List.flatten_cons, visible_append]

theorem opening_eq (h : rows.any fits = true) : opening fits header footer rows =
      visible (rows.takeWhile (tooLong fits)).flatten ++ visible header.flatten ++
        visible ((rows.dropWhile (tooLong fits)).rdropWhile (tooLong fits)).flatten ++
        visible footer ++ visible (rows.rtakeWhile (tooLong fits)).flatten := by
  induction rows with
  | nil => cases h
  | cons row rows ih =>
    have hlast := h
    rw [← any_not_tooLong] at hlast
    rw [opening]
    split
    · next hrow =>
      have hnot : ¬tooLong fits row = true := by simp [tooLong, hrow]
      rw [List.takeWhile_cons_of_neg hnot, List.dropWhile_cons_of_neg hnot, rdropWhile_cons hlast,
        rtakeWhile_cons hlast, closing_eq]
      simp
    · next hrow =>
      have hlong : tooLong fits row = true := by simp [tooLong, hrow]
      have hrest : rows.any fits = true := by simpa [hrow] using h
      rw [List.takeWhile_cons_of_pos hlong, List.dropWhile_cons_of_pos hlong,
        rtakeWhile_cons hlast, ih hrest]
      simp

theorem rows_eq (h : rows.any fits = true) : rows.takeWhile (tooLong fits) ++
        ((rows.dropWhile (tooLong fits)).rdropWhile (tooLong fits) ++
          rows.rtakeWhile (tooLong fits)) = rows := by
  induction rows with
  | nil => cases h
  | cons row rows ih =>
    have hlast := h
    rw [← any_not_tooLong] at hlast
    by_cases hrow : fits row = true
    · have hnot : ¬tooLong fits row = true := by simp [tooLong, hrow]
      rw [List.takeWhile_cons_of_neg hnot, List.dropWhile_cons_of_neg hnot, List.nil_append]
      exact List.rdropWhile_append_rtakeWhile
    · have hlong : tooLong fits row = true := by simp [tooLong, hrow]
      have hrest : rows.any fits = true := by simpa [hrow] using h
      rw [List.takeWhile_cons_of_pos hlong, List.dropWhile_cons_of_pos hlong,
        rtakeWhile_cons hlast, List.cons_append, ih hrest]

theorem swapped_iff {a h b f z : Str} :
    a ++ h ++ b ++ f ++ z = h ++ (a ++ (b ++ z)) ++ f ↔ a ++ h = h ++ a ∧ f ++ z = z ++ f := by
  constructor
  · intro heq
    have heq' : (a ++ h) ++ (b ++ (f ++ z)) = (h ++ a) ++ (b ++ (z ++ f)) := by simpa using heq
    obtain ⟨hfront, hback⟩ := List.append_inj heq' (by simp [Nat.add_comm])
    exact ⟨hfront, List.append_cancel_left hback⟩
  · intro ⟨hfront, hback⟩
    calc a ++ h ++ b ++ f ++ z = (a ++ h) ++ b ++ (f ++ z) := by simp
      _ = (h ++ a) ++ b ++ (z ++ f) := by rw [hfront, hback]
      _ = h ++ (a ++ (b ++ z)) ++ f := by simp

theorem opening_whole_iff (hheader : visible header.flatten ≠ []) :
    (if rows = [] then visible header.flatten ++ visible footer else opening fits header footer rows) =
        visible header.flatten ++ visible rows.flatten ++ visible footer ↔
      RowsInOrder fits header footer rows := by
  unfold RowsInOrder
  split
  · next hnil => simp [hnil]
  · next hne =>
    rw [or_iff_right hne]
    cases hany : rows.any fits with
    | false =>
      rw [opening_none hany]
      refine ⟨fun heq => ?_, fun h => absurd h.1 Bool.false_ne_true⟩
      have hlen := congrArg List.length heq
      have hpos := List.length_pos_iff.mpr hheader
      rw [List.length_append, List.length_append] at hlen
      omega
    | true =>
      rw [opening_eq hany, and_iff_right rfl]
      conv => lhs; rhs; rw [← rows_eq hany]
      rw [List.flatten_append, List.flatten_append]
      simp only [visible_append]
      exact swapped_iff

theorem opening_length (rows : List Str) : (if rows = [] then visible header.flatten ++ visible footer
      else opening fits header footer rows).length ≤
        (visible header.flatten ++ visible rows.flatten ++ visible footer).length := by
  split
  · next hnil => simp [hnil]
  cases hany : rows.any fits with
  | false =>
    rw [opening_none hany, List.length_append, List.length_append]
    omega
  | true =>
    rw [opening_eq hany]
    conv => rhs; rw [← rows_eq hany]
    simp only [List.flatten_append, visible_append, List.length_append]
    omega

end Rows

section Splitters

variable {m : Measure} {limit : Nat} {style : CodeStyle} {header : List Str} {footer : Str}

theorem kept_sources (parts : List Str) :
    kept (parts.map (fun part => [(Origin.source, part)])).flatten = parts.flatten := by
  induction parts with
  | nil => rfl
  | cons part parts ih =>
    rw [List.map_cons, List.flatten_cons, kept_append, ih, kept_source, kept_nil, List.append_nil,
      List.flatten_cons]

variable {chunks : List (List Piece)}

theorem markText_kept {t : Str} (h : markText m limit t = .ok chunks) : kept chunks.flatten = t := by
  obtain ⟨parts, hparts, rfl⟩ := map_ok h
  rw [kept_sources, (splitTextPreserving_splits hparts).1.whole]

theorem kept_sourceOr {own : Bool} {t : Str} {ps : List Piece} :
    kept ((sourceOr own, t) :: ps) = (if own then t else []) ++ kept ps := by
  cases own with
  | true => rfl
  | false => exact kept_other (by decide)

theorem markFences_kept (opener closer : Str) (first : Bool) {parts : List Str} (h : parts ≠ []) :
    kept (markFences opener closer first parts).flatten =
      (if first then opener ++ [newline] else []) ++ parts.flatten ++ ([newline] ++ closer) := by
  induction parts generalizing first with
  | nil => exact absurd rfl h
  | cons part parts ih =>
    rw [markFences, List.flatten_cons, kept_append, kept_sourceOr, kept_source, kept_sourceOr]
    cases parts with
    | nil => simp [markFences]
    | cons next parts =>
      rw [ih false (List.cons_ne_nil _ _)]
      simp

theorem fencedParts_visible {block opener content closer : Str}
    (h : fencedParts style block = some (opener, content, closer)) :
    visible opener ++ visible content ++ visible closer = visible block := by
  unfold fencedParts at h
  split at h
  · next first second rest hlines =>
    simp only at h
    split at h
    · cases h
    split at h
    · simp only [Option.some.injEq, Prod.mk.injEq] at h
      obtain ⟨rfl, rfl, rfl⟩ := h
      have hrest : (second :: rest).dropLast.flatten ++
          (second :: rest).getLast (List.cons_ne_nil _ _) = (second :: rest).flatten := by
        conv => rhs; rw [← List.dropLast_concat_getLast (List.cons_ne_nil second rest)]
        rw [List.flatten_append, List.flatten_singleton]
      rw [visible_stripLineEnd, visible_stripLineEnd, ← splitLines_flatten block, hlines,
        List.flatten_cons, ← hrest, visible_append, visible_append, List.append_assoc]
    · cases h
  · cases h

theorem visible_newline : visible [newline] = [] := by decide

theorem markCodeBlock_kept {block : Str}
    (h : markCodeBlock m limit style block = .ok chunks) : visible (kept chunks.flatten) = visible block := by
  unfold markCodeBlock at h
  cases hp : fencedParts style block with
  | none =>
    rw [hp] at h
    rw [markText_kept h]
  | some p =>
    obtain ⟨opener, content, closer⟩ := p
    simp only [hp] at h
    split at h
    · cases h
    obtain ⟨parts, hparts, rfl⟩ := map_ok h
    obtain ⟨hsplits, hne⟩ := splitTextPreserving_splits hparts
    rw [markFences_kept _ _ _ hne, hsplits.whole, ← fencedParts_visible hp]
    simp only [if_true, visible_append, visible_newline, List.append_nil, List.nil_append]

theorem visible_terminated (lines : List Str) : visible (terminated lines) = visible lines.flatten := by
  induction lines with
  | nil => rfl
  | cons l ls ih =>
    change visible (l ++ [newline] ++ terminated ls) = _
    rw [visible_append, visible_append, visible_newline, ih, List.append_nil, List.flatten_cons,
      visible_append]

theorem tablePage_kept (first last : Bool) (rows : List Str) :
    visible (kept (tablePage header footer first last rows)) =
      (if first then visible header.flatten else []) ++ visible rows.flatten ++
        (if last then visible footer else []) := by
  rw [tablePage, kept_sourceOr, kept_source, kept_sourceOr]
  cases first with
  | true =>
    cases last with
    | true => simp [visible_terminated]
    | false => simp [visible_terminated]
  | false =>
    cases last with
    | true => simp [visible_terminated]
    | false => simp [visible_terminated]

theorem closeMarked_kept (first last : Bool) (pages : List (List Piece)) (rows : List Str) :
    visible (kept (closeMarked header footer first last pages rows).flatten) =
      visible (kept pages.flatten) ++
        if rows.isEmpty then [] else (if first then visible header.flatten else []) ++
          visible rows.flatten ++ if last then visible footer else [] := by
  unfold closeMarked
  split
  · simp
  · rw [List.flatten_append, kept_append, visible_append, List.flatten_singleton, tablePage_kept]

theorem markLongRow_kept (n : Nat) (parts : List Str) :
    kept (markLongRow n parts).flatten = parts.flatten.drop n := by
  induction parts generalizing n with
  | nil => simp [markLongRow]
  | cons part parts ih =>
    rw [markLongRow, List.flatten_cons, kept_append, kept_other (by decide), kept_source, ih,
      List.flatten_cons, List.drop_append]
    simp

theorem rowFits_of_below {current : List Str} {row : Str}
    (h : m.of (join [newline] (header ++ current ++ [row, footer])) ≤ limit) :
    rowFits m limit header footer row = true := by
  have hpage : header ++ current ++ [row, footer] = (header ++ current ++ [row]) ++ [footer] := by
    simp
  have hrow : header ++ [row, footer] = (header ++ [row]) ++ [footer] := by simp
  rw [hpage, join_concat] at h
  rw [rowFits, decide_eq_true_eq, hrow, join_concat]
  simp only [terminated_append, Measure.of_append] at h ⊢
  omega

theorem markRows_kept (rows : List Str) (pages : List (List Piece)) (first : Bool)
    (current : List Str) (out : List (List Piece))
    (hpages : pages = [] → current = [] → first = true ∧ rows ≠ [])
    (h : markRows m limit header footer rows pages first current = .ok out) :
    visible (kept out.flatten) = visible (kept pages.flatten) ++
      remaining (rowFits m limit header footer) header footer first current rows := by
  induction rows generalizing pages first current with
  | nil =>
    rw [markRows] at h
    cases h
    unfold remaining
    cases hc : current with
    | nil =>
      have hne : pages ≠ [] := fun hp => (hpages hp hc).2 rfl
      cases first with
      | true => simp [hne, opening]
      | false => simp [hne]
    | cons row rows =>
      rw [if_pos (by simp), List.flatten_append, kept_append, visible_append,
        List.flatten_singleton, tablePage_kept]
      simp [closing]
  | cons row rows ih =>
    rw [markRows] at h
    split at h
    · next hbelow =>
      rw [ih pages first _ (fun _ hnil => absurd hnil (List.append_ne_nil_of_right_ne_nil _
        (List.cons_ne_nil _ _))) h, remaining_add (rowFits_of_below hbelow)]
    · split at h
      · next hrow =>
        rw [ih _ _ _ (fun _ hnil => absurd hnil (List.cons_ne_nil _ _)) h, closeMarked_kept,
          List.append_assoc, ← remaining_turn current hrow]
        simp only [if_false, Bool.false_eq_true]
      · next hlong =>
        cases hp : splitTextPreserving m limit (rowNotice ++ row) with
        | error e =>
          rw [hp] at h
          cases h
        | ok parts =>
          rw [hp] at h
          obtain ⟨hsplits, hne⟩ := splitTextPreserving_splits hp
          have hpages' : closeMarked header footer first
              (!rows.any (rowFits m limit header footer)) pages current ++
              markLongRow rowNotice.length parts ≠ [] := by
            cases parts with
            | nil => exact absurd rfl hne
            | cons part parts => exact List.append_ne_nil_of_right_ne_nil _ (List.cons_ne_nil _ _)
          rw [ih _ _ _ (fun hnil => absurd hnil hpages') h, List.flatten_append, kept_append,
            visible_append, closeMarked_kept, markLongRow_kept, hsplits.whole, List.drop_left,
            ← remaining_skip current (Bool.eq_false_iff.mpr hlong)]
          simp only [List.append_assoc]

/-- The over-long rows are between others, and not all rows are too long. -/
def TableInOrder (m : Measure) (width : Nat) (lines : List Str) : Prop :=
  4 ≤ lines.length →
    RowsInOrder (rowFits m width (lines.take 3) (lines.getLastD [])) (lines.take 3)
      (lines.getLastD []) (lines.drop 3).dropLast

instance (width : Nat) (lines : List Str) : Decidable (TableInOrder m width lines) :=
  inferInstanceAs (Decidable (4 ≤ lines.length → _))

theorem visible_corner {line : Str} (h : startsWith line topCorner = true) : visible line ≠ [] := by
  obtain ⟨rest, rfl⟩ := List.isPrefixOf_iff_prefix.mp h
  have hcorner : visible topCorner = topCorner := by decide
  rw [visible_append, hcorner]
  exact List.append_ne_nil_of_left_ne_nil (List.cons_ne_nil _ _) _

theorem table_parts {lines : List Str} (h : 4 ≤ lines.length) :
    visible lines.flatten = visible (lines.take 3).flatten ++
      visible (lines.drop 3).dropLast.flatten ++ visible (lines.getLastD []) := by
  have hne : lines.drop 3 ≠ [] := by
    intro hnil
    have hlen := congrArg List.length hnil
    rw [List.length_drop, List.length_nil] at hlen
    omega
  have hlast : lines.getLastD [] = (lines.drop 3).getLast hne := by
    rw [List.getLastD_eq_getLast?, List.getLast_drop, List.getLast?_eq_some_getLast]
    rfl
  conv => lhs; rw [← List.take_append_drop 3 lines, ← List.dropLast_concat_getLast hne]
  rw [hlast, List.flatten_append, List.flatten_append, visible_append, visible_append,
    List.flatten_singleton, List.append_assoc]

theorem markBoxTable_kept {lines : List Str}
    (hcorner : ∃ line rest, lines = line :: rest ∧ startsWith line topCorner = true)
    (h : markBoxTable m limit lines = .ok chunks) :
    (visible (kept chunks.flatten)).length ≤ (visible lines.flatten).length ∧
      (visible (kept chunks.flatten) = visible lines.flatten ↔ TableInOrder m limit lines) := by
  unfold markBoxTable at h
  split at h
  · next hshort =>
    rw [markText_kept h, visible_join visible_newline, ← visible_flatten]
    exact ⟨Nat.le_refl _, fun _ hlong => by omega, fun _ => rfl⟩
  · next hlong =>
    have hlong : 4 ≤ lines.length := Nat.le_of_not_lt hlong
    simp only at h
    split at h
    · cases h
    have hkept : visible (kept chunks.flatten) =
        if (lines.drop 3).dropLast = [] then
          visible (lines.take 3).flatten ++ visible (lines.getLastD [])
        else opening (rowFits m limit (lines.take 3) (lines.getLastD [])) (lines.take 3)
          (lines.getLastD []) (lines.drop 3).dropLast := by
      split
      · next hnil =>
        rw [hnil, markRows] at h
        cases h
        simp [tablePage_kept]
      · next hne =>
        rw [markRows_kept _ [] true [] chunks (fun _ _ => ⟨rfl, hne⟩) h]
        rfl
    have hheader : visible (lines.take 3).flatten ≠ [] := by
      obtain ⟨line, rest, rfl, hstart⟩ := hcorner
      rw [List.take_succ_cons, List.flatten_cons, visible_append]
      exact List.append_ne_nil_of_left_ne_nil (visible_corner hstart) _
    rw [hkept, table_parts hlong]
    refine ⟨opening_length _, ?_⟩
    rw [opening_whole_iff hheader]
    exact ⟨fun hin _ => hin, fun hin => hin hlong⟩

theorem merged_kept (chunks merged : List (List Piece)) :
    kept (chunks.foldl (mergeMarked m limit) merged).reverse.flatten =
      kept merged.reverse.flatten ++ kept chunks.flatten := by
  induction chunks generalizing merged with
  | nil => simp
  | cons chunk chunks ih =>
    have hstep : kept (mergeMarked m limit merged chunk).reverse.flatten =
        kept merged.reverse.flatten ++ kept chunk := by
      unfold mergeMarked
      cases merged with
      | nil => simp
      | cons last earlier =>
        simp only
        split
        · simp [kept_other]
        · simp
    rw [List.foldl_cons, ih, hstep, List.flatten_cons, kept_append, List.append_assoc]

theorem markBackfill_kept (chunks : List (List Piece)) :
    kept (markBackfill m limit chunks).flatten = kept chunks.flatten := merged_kept chunks []

end Splitters

variable {m : Measure} {limit : Nat} {style : CodeStyle}

def segmentText : Segment → Str
  | .prose text => text
  | .code block => block
  | .table lines => lines.flatten

def scannedText : Scanning → Str
  | .regular lines => lines.flatten
  | .code _ lines => lines.flatten
  | .table lines => lines.flatten

def Cornered (lines : List Str) : Prop :=
  ∃ line rest, lines = line :: rest ∧ startsWith line topCorner = true

theorem Cornered.append {lines more : List Str} (h : Cornered lines) : Cornered (lines ++ more) := by
  obtain ⟨line, rest, rfl, hstart⟩ := h
  exact ⟨line, rest ++ more, rfl, hstart⟩

def WellScanned : Scanning → Prop
  | .table lines => Cornered lines
  | _ => True

theorem flushRegular_text (lines : List Str) :
    visible ((flushRegular lines).map segmentText).flatten = visible lines.flatten := by
  unfold flushRegular
  split
  · next hnil => simp [List.isEmpty_iff.mp hnil]
  · simp [segmentText]

theorem flushRegular_mem {lines table : List Str} : .table table ∉ flushRegular lines := by
  unfold flushRegular
  split
  · exact List.not_mem_nil
  · intro h
    cases List.mem_singleton.mp h

theorem segments_text (style : CodeStyle) (lines : List Str) (st : Scanning) (hst : WellScanned st) :
    visible ((segments style lines st).map segmentText).flatten =
        visible (scannedText st) ++ visible lines.flatten ∧
      ∀ table, .table table ∈ segments style lines st → Cornered table := by
  induction lines generalizing st with
  | nil =>
    cases st with
    | regular acc =>
      rw [segments, flushRegular_text]
      exact ⟨by simp [scannedText], fun _ h => absurd h flushRegular_mem⟩
    | code opening acc =>
      rw [segments]
      exact ⟨by simp [segmentText, scannedText], fun _ h => nomatch List.mem_singleton.mp h⟩
    | table acc =>
      rw [segments]
      refine ⟨by simp [segmentText, scannedText], fun _ h => ?_⟩
      cases List.mem_singleton.mp h
      exact hst
  | cons line lines ih =>
    cases st with
    | regular acc =>
      rw [segments]
      split
      · next opening hopen =>
        obtain ⟨htext, htables⟩ := ih (.code opening [line]) trivial
        refine ⟨?_, fun table h => ?_⟩
        · rw [List.map_append, List.flatten_append, visible_append, flushRegular_text, htext]
          simp [scannedText]
        · exact htables table ((List.mem_append.mp h).resolve_left flushRegular_mem)
      · split
        · next hcorner =>
          obtain ⟨htext, htables⟩ := ih (.table [stripLineEnd line]) ⟨_, [], rfl, hcorner⟩
          refine ⟨?_, fun table h => ?_⟩
          · rw [List.map_append, List.flatten_append, visible_append, flushRegular_text, htext]
            simp [scannedText, visible_stripLineEnd]
          · exact htables table ((List.mem_append.mp h).resolve_left flushRegular_mem)
        · obtain ⟨htext, htables⟩ := ih (.regular (acc ++ [line])) trivial
          refine ⟨?_, htables⟩
          rw [htext]
          simp [scannedText]
    | code opening acc =>
      rw [segments]
      split
      · obtain ⟨htext, htables⟩ := ih (.regular []) trivial
        refine ⟨?_, fun table h => ?_⟩
        · rw [List.map_cons, List.flatten_cons, visible_append, htext]
          simp [scannedText, segmentText]
        · cases List.mem_cons.mp h with
          | inl h => cases h
          | inr h => exact htables table h
      · obtain ⟨htext, htables⟩ := ih (.code opening (acc ++ [line])) trivial
        refine ⟨?_, htables⟩
        rw [htext]
        simp [scannedText]
    | table acc =>
      have hcornered : Cornered (acc ++ [stripLineEnd line]) := Cornered.append hst
      rw [segments]
      split
      · obtain ⟨htext, htables⟩ := ih (.regular []) trivial
        refine ⟨?_, fun table h => ?_⟩
        · rw [List.map_cons, List.flatten_cons, visible_append, htext]
          simp [scannedText, segmentText, visible_stripLineEnd]
        · cases List.mem_cons.mp h with
          | inl h =>
            cases h
            exact hcornered
          | inr h => exact htables table h
      · obtain ⟨htext, htables⟩ := ih (.table (acc ++ [stripLineEnd line])) hcornered
        refine ⟨?_, htables⟩
        rw [htext]
        simp [scannedText, visible_stripLineEnd]

def SegmentInOrder (m : Measure) (width : Nat) : Segment → Prop
  | .table lines => TableInOrder m width lines
  | _ => True

variable {chunks : List (List Piece)}

theorem markSegment_kept {s : Segment}
    (hs : ∀ table, s = .table table → Cornered table) (h : markSegment m limit style s = .ok chunks) :
    (visible (kept chunks.flatten)).length ≤ (visible (segmentText s)).length ∧
      (visible (kept chunks.flatten) = visible (segmentText s) ↔ SegmentInOrder m limit s) := by
  cases s with
  | prose text =>
    rw [markText_kept h]
    exact ⟨Nat.le_refl _, fun _ => trivial, fun _ => rfl⟩
  | code block =>
    rw [markCodeBlock_kept h]
    exact ⟨Nat.le_refl _, fun _ => trivial, fun _ => rfl⟩
  | table lines => exact markBoxTable_kept (hs lines rfl) h

theorem markSegments_kept {segs : List Segment}
    (hs : ∀ table, .table table ∈ segs → Cornered table) (h : markSegments m limit style segs = .ok chunks) :
    (visible (kept chunks.flatten)).length ≤ (visible (segs.map segmentText).flatten).length ∧
      (visible (kept chunks.flatten) = visible (segs.map segmentText).flatten ↔
        ∀ s ∈ segs, SegmentInOrder m limit s) := by
  induction segs generalizing chunks with
  | nil =>
    cases h
    exact ⟨Nat.le_refl _, fun _ s hmem => absurd hmem List.not_mem_nil, fun _ => rfl⟩
  | cons s rest ih =>
    rw [markSegments] at h
    cases hfirst : markSegment m limit style s with
    | error e =>
      rw [hfirst] at h
      cases h
    | ok first =>
      rw [hfirst] at h
      obtain ⟨others, hrest, rfl⟩ := map_ok h
      obtain ⟨hle, hiff⟩ := markSegment_kept
        (fun table heq => hs table (heq ▸ List.mem_cons_self)) hfirst
      obtain ⟨hles, hiffs⟩ := ih (fun table hmem => hs table (List.mem_cons_of_mem _ hmem)) hrest
      rw [List.flatten_append, kept_append, List.map_cons, List.flatten_cons, visible_append,
        visible_append, List.forall_mem_cons, ← hiff, ← hiffs]
      refine ⟨by rw [List.length_append, List.length_append]; omega, fun heq => ?_, fun heq => ?_⟩
      · have hlen := congrArg List.length heq
        rw [List.length_append, List.length_append] at hlen
        exact List.append_inj heq (by omega)
      · rw [heq.1, heq.2]

theorem markBody_kept_le {text : Str} (h : markBody m limit style text = .ok chunks) :
    (visible (kept chunks.flatten)).length ≤ (visible text).length ∧
      (visible (kept chunks.flatten) = visible text ↔
        ∀ s ∈ segments style (splitLines text) (.regular []), SegmentInOrder m limit s) := by
  obtain ⟨htext, htables⟩ := segments_text style (splitLines text) (.regular []) trivial
  rw [splitLines_flatten] at htext
  unfold markBody at h
  split at h
  · next hempty =>
    cases h
    rw [List.isEmpty_iff.mp hempty]
    exact ⟨by simp, fun _ s hmem => absurd hmem List.not_mem_nil, fun _ => by simp⟩
  · obtain ⟨parts, hparts, rfl⟩ := map_ok h
    obtain ⟨hle, hiff⟩ := markSegments_kept htables hparts
    rw [← hiff, htext]
    rw [htext] at hle
    split
    · next hnil =>
      rw [List.isEmpty_iff.mp hnil] at hle ⊢
      exact ⟨hle, Iff.rfl⟩
    · rw [markBackfill_kept]
      exact ⟨hle, Iff.rfl⟩

theorem markBody_kept {text : Str} (h : markBody m limit style text = .ok chunks) :
    visible (kept chunks.flatten) = visible text ↔
      ∀ s ∈ segments style (splitLines text) (.regular []), SegmentInOrder m limit s :=
  (markBody_kept_le h).2

theorem markLabels_kept (chunks : List (List Piece)) :
    kept (markLabels chunks).flatten = kept chunks.flatten := by
  unfold markLabels
  generalize chunks.length = total
  generalize 0 = start
  induction chunks generalizing start with
  | nil => rfl
  | cons chunk chunks ih =>
    rw [List.zipIdx_cons, List.map_cons, List.flatten_cons, kept_append, kept_other (by decide), ih,
      List.flatten_cons, kept_append]

/-- Without labels, repeated fences, borders and notices, the pages read like the text but for
white space. -/
def KeepsContent (l : Limits) (style : CodeStyle) (text : Str) (m : Measure) (limit : Nat) : Prop :=
  ∀ pages, splitStructuredText l style text = .ok pages →
    ∃ marked, markPages m limit style text pages.length = .ok marked ∧
      marked.map plain = pages ∧ visible (kept marked.flatten) = visible text

/-- A text on one page, or with each table in order in the width that labels leave. -/
def TablesInOrder (l : Limits) (style : CodeStyle) (text : Str) (m : Measure) (limit : Nat) : Prop :=
  ∀ pages, splitStructuredText l style text = .ok pages → limit < m.of text →
    ∀ table, .table table ∈ segments style (splitLines text) (.regular []) →
      TableInOrder m (limit - labelSize m pages.length) table

/-- Pages keep all content but for the over-long rows of tables. -/
theorem keepsContent_iff {l : Limits} {text : Str} (hl : Accepted l m limit) :
    KeepsContent l style text m limit ↔ TablesInOrder l style text m limit := by
  unfold KeepsContent TablesInOrder
  apply forall_congr'
  intro pages
  apply forall_congr'
  intro hpages
  have hplain := markPages_plain hl hpages
  obtain ⟨marked, hmarked, hread⟩ := map_ok hplain
  have hsome : (∃ other, markPages m limit style text pages.length = .ok other ∧
      other.map plain = pages ∧ visible (kept other.flatten) = visible text) ↔
      visible (kept marked.flatten) = visible text := by
    constructor
    · intro ⟨other, hother, _, hkept⟩
      rw [hmarked] at hother
      cases hother
      exact hkept
    · exact fun hkept => ⟨marked, hmarked, hread.symm, hkept⟩
  rw [hsome]
  unfold markPages at hmarked
  split at hmarked
  · next hfits =>
    cases hmarked
    refine ⟨fun _ hlong => absurd hfits (Nat.not_le_of_lt hlong), fun _ => by simp⟩
  · next hlong =>
    obtain ⟨chunks, hbody, rfl⟩ := map_ok hmarked
    rw [markLabels_kept, markBody_kept hbody]
    constructor
    · exact fun h _ table hmem => h (.table table) hmem
    · intro h s hmem
      cases s with
      | prose text => exact trivial
      | code block => exact trivial
      | table lines => exact h (Nat.lt_of_not_le hlong) lines hmem

def lengthLimits (limit : Nat) : Limits :=
  { maxBytes := none, maxLength := some limit, maxPages := 100, maxTotalBytes := some 1000000 }

theorem lengthLimits_accepted {limit : Nat} (h : 0 < limit) : Accepted (lengthLimits limit) .characters limit :=
  ⟨rfl, h, (by decide : 0 < 100), (by decide : some 1000000 ≠ some 0)⟩

def boxTable (row : Str) : Str := lit "┌─┐\n│a│\n├─┤\n" ++ row ++ lit "\n└─┘"

theorem keepsContent_boxTable : Accepted (lengthLimits 40) .characters 40 ∧
      KeepsContent (lengthLimits 40) .markdown
        (List.replicate 30 (cp 'x') ++ [newline] ++ boxTable (lit "│b│")) .characters 40 :=
  have hl := lengthLimits_accepted (by decide)
  ⟨hl, (keepsContent_iff hl).mpr (by
    intro pages hpages _ table htable
    have hcount : (splitStructuredText (lengthLimits 40) .markdown
        (List.replicate 30 (cp 'x') ++ [newline] ++ boxTable (lit "│b│"))).map List.length =
          .ok 2 := by
      decide +kernel
    have hsegments : segments .markdown (splitLines
        (List.replicate 30 (cp 'x') ++ [newline] ++ boxTable (lit "│b│"))) (.regular []) =
        [.prose (List.replicate 30 (cp 'x') ++ [newline]),
          .table [lit "┌─┐", lit "│a│", lit "├─┤", lit "│b│", lit "└─┘"]] := by
      decide +kernel
    rw [hpages] at hcount
    have hlength : pages.length = 2 := Except.ok.inj hcount
    rw [hsegments, List.mem_cons, List.mem_singleton] at htable
    cases htable.resolve_left Segment.noConfusion
    rw [hlength]
    decide +kernel)⟩

/-- A table whose only row is too long for a page loses its borders and its header. -/
theorem long_row_loses_header :
    ¬KeepsContent (lengthLimits 40) .markdown (boxTable (List.replicate 30 (cp 'x')))
      .characters 40 := by
  intro hkeeps
  have hcount : (splitStructuredText (lengthLimits 40) .markdown
      (boxTable (List.replicate 30 (cp 'x')))).map List.length = .ok 3 := by
    decide +kernel
  obtain ⟨pages, hpages, hlength⟩ := map_ok hcount
  obtain ⟨marked, hmarked, _, hkept⟩ := hkeeps pages hpages
  have hlost : (markPages .characters 40 .markdown (boxTable (List.replicate 30 (cp 'x'))) 3).map
      (fun marked => (visible (kept marked.flatten)).length) = .ok 30 := by
    decide +kernel
  rw [← hlength] at hmarked
  rw [hmarked] at hlost
  have hall := congrArg List.length hkept
  have hthirty : (visible (kept marked.flatten)).length = 30 := Except.ok.inj hlost
  rw [hthirty] at hall
  exact absurd hall (by decide +kernel)

end Kirara.PageContent
