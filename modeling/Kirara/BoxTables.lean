import Kirara.Appearances
import Kirara.CodePoints
import Mathlib.Data.List.GetD

namespace Kirara.BoxTables

open Kirara.CodePoints Kirara.Appearances

def wideRanges : List (Nat × Nat) :=
  [(0x1100, 0x115F), (0x2E80, 0xA4CF), (0xAC00, 0xD7A3), (0xF900, 0xFAFF), (0xFE30, 0xFE4F),
    (0xFF00, 0xFF60), (0xFFE0, 0xFFE6), (0x20000, 0x3FFFD)]

def charWidth (c : CodePoint) : Nat :=
  if wideRanges.any (fun r => r.1 ≤ c.val && c.val ≤ r.2) then 2 else 1

def displayWidth (text : Str) : Nat := (text.map charWidth).sum

def padCell (text : Str) (width : Nat) : Str :=
  text ++ List.replicate (width - displayWidth text) (cp ' ')

def columnCount (rows : List (List Str)) : Nat := (rows.map List.length).foldr max 0

def normalize (rows : List (List Str)) : List (List Str) :=
  rows.map fun row => row ++ List.replicate (columnCount rows - row.length) []

def columnWidths (rows : List (List Str)) : List Nat :=
  (List.range (columnCount rows)).map fun index =>
    ((normalize rows).map fun row => displayWidth (row.getD index [])).foldr max 0

def border (widths : List Nat) (left middle right : String) : Str :=
  lit left ++ join (lit middle) (widths.map fun width => List.replicate (width + 2) (cp '─')) ++
    lit right

def dataLine (widths : List Nat) (row : List Str) : Str :=
  lit "│ " ++ join (lit " │ ") (List.zipWith padCell row widths) ++ lit " │"

def renderBoxTable (rows : List (List Str)) : List Str :=
  let widths := columnWidths rows
  match normalize rows with
  | [] => []
  | first :: rest =>
    [border widths "┌" "┬" "┐", dataLine widths first] ++
      (if rest.isEmpty then [] else border widths "├" "┼" "┤" :: rest.map (dataLine widths)) ++
      [border widths "└" "┴" "┘"]

def boxTableDisplayWidth (rows : List (List Str)) : Nat :=
  if rows.isEmpty then 0
  else ((columnWidths rows).map (· + 2)).sum + columnCount rows + 1

def fieldName (header : List Str) (column : Nat) : Str :=
  if (header.getD column []).isEmpty then lit "第 " ++ digits (column + 1) ++ lit " 列"
  else header.getD column []

def fieldLine (header : Option (List Str)) (value : Str) (column : Nat) : Str :=
  match header with
  | some header => fieldName header column ++ lit "：" ++ value
  | none => lit "· " ++ value

def fieldLines (header : Option (List Str)) (row : List Str) : List Str :=
  row.zipIdx.map fun p => fieldLine header p.1 p.2

def renderFieldTable (rows : List (List Str)) (hasHeader : Bool) : List Str :=
  let normalized := normalize rows
  let header := if hasHeader then normalized.head? else none
  let body := if hasHeader then normalized.tail else normalized
  (body.zipIdx.map fun p =>
    if p.2 = 0 then fieldLines header p.1 else [] :: fieldLines header p.1).flatten

def maxTableDisplayWidth : Nat := 38

def renderTable (rows : List (List Str)) (hasHeader : Bool) : List Str :=
  if rows.isEmpty then []
  else if boxTableDisplayWidth rows ≤ maxTableDisplayWidth then renderBoxTable rows
  else renderFieldTable rows hasHeader

@[simp] theorem displayWidth_nil : displayWidth [] = 0 := rfl

@[simp] theorem displayWidth_append {s t : Str} : displayWidth (s ++ t) = displayWidth s + displayWidth t := by
  simp [displayWidth]

theorem displayWidth_replicate (n : Nat) (c : CodePoint) :
    displayWidth (List.replicate n c) = n * charWidth c := by
  simp [displayWidth]

theorem padCell_width {text : Str} {width : Nat} (h : displayWidth text ≤ width) :
    displayWidth (padCell text width) = width := by
  have hblank : charWidth (cp ' ') = 1 := by decide
  rw [padCell, displayWidth_append, displayWidth_replicate, hblank]
  omega

theorem join_width (sep : Str) (text : Str) (texts : List Str) : displayWidth (join sep (text :: texts)) =
      displayWidth text + (texts.map fun t => displayWidth sep + displayWidth t).sum := by
  induction texts generalizing text with
  | nil => simp [join]
  | cons next texts ih =>
    have hnext := ih next
    rw [join, List.intercalate_cons_cons, displayWidth_append, displayWidth_append]
    rw [join] at hnext
    rw [hnext, List.map_cons, List.sum_cons]
    omega

theorem line_width (left sep right : Str) (room : Nat) {cells : List Str} {widths : List Nat}
    (h : cells.map displayWidth = widths.map (· + room)) (hne : cells ≠ []) :
    displayWidth (left ++ join sep cells ++ right) + displayWidth sep =
      displayWidth left + displayWidth right + widths.sum +
        widths.length * (room + displayWidth sep) := by
  obtain ⟨cell, cells, rfl⟩ := List.exists_cons_of_ne_nil hne
  cases widths with
  | nil => cases h
  | cons width widths =>
    obtain ⟨hcell, hcells⟩ := List.cons_eq_cons.mp h
    have hcell : displayWidth cell = width + room := hcell
    have hsum : ∀ (texts : List Str) (widths : List Nat),
        texts.map displayWidth = widths.map (· + room) →
        (texts.map fun t => displayWidth sep + displayWidth t).sum =
          widths.sum + widths.length * (room + displayWidth sep) := by
      intro texts widths heq
      induction texts generalizing widths with
      | nil =>
        cases widths with
        | nil => simp
        | cons w ws => cases heq
      | cons t ts ih =>
        cases widths with
        | nil => cases heq
        | cons w ws =>
          obtain ⟨ht, hts⟩ := List.cons_eq_cons.mp heq
          have ht : displayWidth t = w + room := ht
          rw [List.map_cons, List.sum_cons, ih ws hts, List.sum_cons, List.length_cons, Nat.succ_mul, ht]
          omega
    rw [displayWidth_append, displayWidth_append, join_width, hsum cells widths hcells, hcell,
      List.sum_cons, List.length_cons, Nat.succ_mul]
    omega

section Boxes

variable {rows : List (List Str)} {row : List Str}

theorem length_le_columnCount (h : row ∈ rows) : row.length ≤ columnCount rows := by
  unfold columnCount
  induction rows with
  | nil => cases h
  | cons first rows ih =>
    rw [List.map_cons, List.foldr_cons]
    cases List.mem_cons.mp h with
    | inl h =>
      rw [h]
      exact Nat.le_max_left _ _
    | inr h => exact Nat.le_trans (ih h) (Nat.le_max_right _ _)

theorem normalize_length (h : row ∈ normalize rows) : row.length = columnCount rows := by
  obtain ⟨found, hfound, rfl⟩ := List.mem_map.mp h
  have hle := length_le_columnCount hfound
  rw [List.length_append, List.length_replicate]
  omega

theorem columnWidths_length : (columnWidths rows).length = columnCount rows := by
  rw [columnWidths, List.length_map, List.length_range]

theorem cell_width_le (h : row ∈ normalize rows) (index : Nat) : displayWidth (row.getD index []) ≤
      ((normalize rows).map fun row => displayWidth (row.getD index [])).foldr max 0 := by
  generalize normalize rows = cells at h ⊢
  induction cells with
  | nil => cases h
  | cons first rest ih =>
    rw [List.map_cons, List.foldr_cons]
    cases List.mem_cons.mp h with
    | inl h =>
      rw [h]
      exact Nat.le_max_left _ _
    | inr h => exact Nat.le_trans (ih h) (Nat.le_max_right _ _)

theorem padCells_width (h : row ∈ normalize rows) :
    (List.zipWith padCell row (columnWidths rows)).map displayWidth = columnWidths rows := by
  apply List.ext_getElem
  · rw [List.length_map, List.length_zipWith, columnWidths_length, normalize_length h, Nat.min_self]
  · intro index h1 h2
    rw [List.getElem_map, List.getElem_zipWith]
    apply padCell_width
    have hle := cell_width_le h index
    have hindex : index < row.length := by
      rw [normalize_length h, ← columnWidths_length]
      exact h2
    rw [List.getD_eq_getElem row [] hindex] at hle
    simpa [columnWidths] using hle

theorem renderBoxTable_width (hcolumns : 0 < columnCount rows) :
    ∀ line ∈ renderBoxTable rows, displayWidth line = boxTableDisplayWidth rows := by
  have hlen := @columnWidths_length rows
  have hpredicted : rows ≠ [] →
      boxTableDisplayWidth rows = (columnWidths rows).sum + columnCount rows * 3 + 1 := by
    intro hne
    rw [boxTableDisplayWidth, if_neg (by rwa [List.isEmpty_iff])]
    have hsum : ∀ widths : List Nat, (widths.map (· + 2)).sum = widths.sum + widths.length * 2 := by
      intro widths
      induction widths with
      | nil => rfl
      | cons w ws ih =>
        rw [List.map_cons, List.sum_cons, List.sum_cons, ih, List.length_cons]
        omega
    rw [hsum, hlen]
    omega
  have hwidths : columnWidths rows ≠ [] := by
    rw [Ne, ← List.length_eq_zero_iff, hlen]
    omega
  have hborder : ∀ left middle right : String, displayWidth (lit left) = 1 →
      displayWidth (lit middle) = 1 → displayWidth (lit right) = 1 →
      displayWidth (border (columnWidths rows) left middle right) =
        (columnWidths rows).sum + columnCount rows * 3 + 1 := by
    intro left middle right hleft hmiddle hright
    have hdash : charWidth (cp '─') = 1 := by decide
    have hcells : ((columnWidths rows).map fun width => List.replicate (width + 2) (cp '─')).map
        displayWidth = (columnWidths rows).map (· + 2) := by
      rw [List.map_map]
      apply List.map_congr_left
      intro width _
      rw [Function.comp_apply, displayWidth_replicate, hdash, Nat.mul_one]
    have hline := line_width (lit left) (lit middle) (lit right) 2 hcells (by simpa using hwidths)
    rw [hleft, hmiddle, hright, hlen] at hline
    unfold border
    omega
  have hdata : ∀ row ∈ normalize rows, displayWidth (dataLine (columnWidths rows) row) =
      (columnWidths rows).sum + columnCount rows * 3 + 1 := by
    intro row hrow
    have hcells := padCells_width hrow
    have hne : List.zipWith padCell row (columnWidths rows) ≠ [] := by
      intro hnil
      rw [hnil] at hcells
      exact hwidths hcells.symm
    have hroom : columnWidths rows = (columnWidths rows).map (· + 0) := by simp
    have hline := line_width (lit "│ ") (lit " │ ") (lit " │") 0 (hcells.trans hroom) hne
    have hends : displayWidth (lit "│ ") = 2 ∧ displayWidth (lit " │ ") = 3 ∧
        displayWidth (lit " │") = 2 := by decide
    rw [hends.1, hends.2.1, hends.2.2, hlen] at hline
    unfold dataLine
    omega
  intro line hline
  have hne : rows ≠ [] := by
    rintro rfl
    exact absurd hcolumns (by decide)
  rw [hpredicted hne]
  unfold renderBoxTable at hline
  cases hnormalized : normalize rows with
  | nil =>
    rw [hnormalized] at hline
    cases hline
  | cons first rest =>
    rw [hnormalized] at hline hdata
    obtain ⟨hfirst, hrest⟩ := List.forall_mem_cons.mp hdata
    simp only [List.mem_append, List.mem_cons, List.not_mem_nil, or_false] at hline
    rcases hline with ((rfl | rfl) | hmiddle) | rfl
    · exact hborder _ _ _ (by decide) (by decide) (by decide)
    · exact hfirst
    · split at hmiddle
      · cases hmiddle
      · cases List.mem_cons.mp hmiddle with
        | inl hmiddle =>
          rw [hmiddle]
          exact hborder _ _ _ (by decide) (by decide) (by decide)
        | inr hmiddle =>
          obtain ⟨row, hrow, rfl⟩ := List.mem_map.mp hmiddle
          exact hrest row hrow
    · exact hborder _ _ _ (by decide) (by decide) (by decide)

end Boxes

section Cells

variable {rows : List (List Str)} {row header : List Str} {widths : List Nat}

theorem appear_dataLine (h : row.length ≤ widths.length) : Appear row [dataLine widths row] := by
  have hjoined : Appear row [join (lit " │ ") (List.zipWith padCell row widths)] := by
    induction row generalizing widths with
    | nil => exact .nil _
    | cons cell row ih =>
      cases widths with
      | nil => cases h
      | cons width widths =>
        have hrest := ih (Nat.le_of_succ_le_succ h)
        rw [List.zipWith_cons_cons]
        cases hcells : List.zipWith padCell row widths with
        | nil =>
          rw [hcells] at hrest
          have hline : join (lit " │ ") [padCell cell width] =
              [] ++ (cell ++ (List.replicate (width - displayWidth cell) (cp ' ') ++
                join (lit " │ ") [])) := by
            simp [join, padCell]
          rw [hline]
          exact .here [] cell _ (hrest.prepend _)
        | cons next cells =>
          rw [hcells] at hrest
          rw [join, List.intercalate_cons_cons, padCell, List.append_assoc, List.append_assoc]
          exact .here [] cell _ ((hrest.prepend _).prepend _)
  exact (hjoined.prepend (lit "│ ")).extend_line (lit " │")

theorem appear_dataLines (h : ∀ row ∈ rows, row.length ≤ widths.length) :
    Appear rows.flatten (rows.map (dataLine widths)) := by
  induction rows with
  | nil => exact .nil _
  | cons row rows ih =>
    obtain ⟨hrow, hrows⟩ := List.forall_mem_cons.mp h
    exact (appear_dataLine hrow).append (ih hrows)

theorem flatten_sublist_normalize (rows : List (List Str)) : rows.flatten.Sublist (normalize rows).flatten := by
  unfold normalize
  generalize columnCount rows = columns
  induction rows with
  | nil => exact List.Sublist.refl _
  | cons row rows ih =>
    rw [List.map_cons, List.flatten_cons, List.flatten_cons]
    exact (List.sublist_append_left row _).append ih

theorem appear_renderBoxTable (rows : List (List Str)) : Appear rows.flatten (renderBoxTable rows) := by
  have hlength : ∀ row ∈ normalize rows, row.length ≤ (columnWidths rows).length := by
    intro row hrow
    rw [normalize_length hrow, columnWidths_length]
  refine Appear.sublist ?_ (flatten_sublist_normalize rows)
  unfold renderBoxTable
  cases hnormalized : normalize rows with
  | nil => exact .nil _
  | cons first rest =>
    rw [hnormalized] at hlength
    obtain ⟨hfirst, hrest⟩ := List.forall_mem_cons.mp hlength
    have hdata : Appear rest.flatten (if rest.isEmpty then [] else
        border (columnWidths rows) "├" "┼" "┤" :: rest.map (dataLine (columnWidths rows))) := by
      cases rest with
      | nil => exact .nil _
      | cons row rest => exact .skip _ (appear_dataLines hrest)
    have hall := (((appear_dataLine hfirst).append hdata).skips
      [border (columnWidths rows) "┌" "┬" "┐"]).append
      (.nil [border (columnWidths rows) "└" "┴" "┘"])
    rw [List.append_nil] at hall
    exact hall

def beside : List Str → List Str → List Str
  | [], row => row
  | header, [] => header
  | name :: header, value :: row => name :: value :: beside header row

theorem beside_sublist (header row more others : List Str) :
    (beside header row).Sublist (beside (header ++ more) (row ++ others)) := by
  induction header generalizing row with
  | nil =>
    have hrow : ∀ header row : List Str, row.Sublist (beside header row) := by
      intro header
      induction header with
      | nil => exact fun row => List.Sublist.refl _
      | cons name header ih =>
        intro row
        cases row with
        | nil => exact List.nil_sublist _
        | cons value row => exact ((ih row).cons_cons value).cons name
    rw [beside]
    exact (List.sublist_append_left row others).trans (hrow _ _)
  | cons name header ih =>
    cases row with
    | nil =>
      have hheader : ∀ header row : List Str, header.Sublist (beside header row) := by
        intro header
        induction header with
        | nil => exact fun row => List.nil_sublist _
        | cons name header ih =>
          intro row
          cases row with
          | nil => exact List.Sublist.refl _
          | cons value row => exact ((ih row).cons value).cons_cons name
      have hnames : beside (name :: header) [] = name :: header := rfl
      rw [hnames]
      exact (List.sublist_append_left (name :: header) more).trans (hheader _ _)
    | cons value row => exact ((ih row).cons_cons value).cons_cons name

theorem appear_fieldLines_named (hlength : row.length = header.length) :
    Appear (beside header row) (fieldLines (some header) row) := by
  have hfrom : ∀ (row : List Str) (k : Nat), row.length + k = header.length →
      Appear (beside (header.drop k) row)
        ((row.zipIdx k).map fun p => fieldLine (some header) p.1 p.2) := by
    intro row
    induction row with
    | nil =>
      intro k hk
      rw [List.length_nil, Nat.zero_add] at hk
      rw [hk, List.drop_length]
      exact .nil _
    | cons value row ih =>
      intro k hk
      rw [List.length_cons] at hk
      have hlt : k < header.length := by omega
      have hname : ∃ front, fieldName header k = front ++ header[k] := by
        unfold fieldName
        rw [List.getD_eq_getElem header [] hlt]
        split
        · next hempty =>
          rw [List.isEmpty_iff.mp hempty]
          exact ⟨_, (List.append_nil _).symm⟩
        · exact ⟨[], rfl⟩
      obtain ⟨front, hfront⟩ := hname
      have hrest := ih (k + 1) (by omega)
      rw [List.drop_eq_getElem_cons hlt, beside, List.zipIdx_cons, List.map_cons]
      have hline : fieldLine (some header) value k =
          front ++ (header[k] ++ (lit "：" ++ (value ++ []))) := by
        simp only [fieldLine, hfront, List.append_assoc, List.append_nil]
      rw [hline]
      exact .here front header[k] _ (.here (lit "：") value [] (.skip [] hrest))
  have hall := hfrom row 0 (by omega)
  rwa [List.drop_zero] at hall

theorem appear_fieldLines (row : List Str) : Appear row (fieldLines none row) := by
  unfold fieldLines
  generalize 0 = k
  induction row generalizing k with
  | nil => exact .nil _
  | cons value row ih =>
    have hline : fieldLine none value k = lit "· " ++ (value ++ []) := by
      simp only [fieldLine, List.append_nil]
    rw [List.zipIdx_cons, List.map_cons, hline]
    exact .here (lit "· ") value [] (.skip [] (ih (k + 1)))

theorem appear_groups {header : Option (List Str)} {cells : List Str → List Str}
    {body : List (List Str)} (h : ∀ row ∈ body, Appear (cells row) (fieldLines header row)) :
    Appear (body.map cells).flatten ((body.zipIdx.map fun p =>
      if p.2 = 0 then fieldLines header p.1 else [] :: fieldLines header p.1).flatten) := by
  have hfrom : ∀ (body : List (List Str)) (k : Nat),
      (∀ row ∈ body, Appear (cells row) (fieldLines header row)) →
      Appear (body.map cells).flatten (((body.zipIdx k).map fun p =>
        if p.2 = 0 then fieldLines header p.1 else [] :: fieldLines header p.1).flatten) := by
    intro body
    induction body with
    | nil => exact fun _ _ => .nil _
    | cons row body ih =>
      intro k h
      obtain ⟨hrow, hbody⟩ := List.forall_mem_cons.mp h
      rw [List.map_cons, List.flatten_cons, List.zipIdx_cons, List.map_cons, List.flatten_cons]
      refine Appear.append ?_ (ih (k + 1) hbody)
      simp only
      split
      · exact hrow
      · exact .skip [] hrow
  exact hfrom body 0 h

end Cells

variable {rows : List (List Str)} {hasHeader : Bool}

def cells (rows : List (List Str)) : List Str := rows.flatten.filter (fun cell => !cell.isEmpty)

/-- All cells but empty ones are shown, row by row or each row beside the header. -/
def Complete (rows : List (List Str)) (lines : List Str) : Prop :=
  Appear (cells rows) lines ∨
  ∃ header body, rows = header :: body ∧ body ≠ [] ∧ Appear (cells (body.map (beside header))) lines

/-- A table as it is meant to be read: every cell is there, and a box has straight sides. -/
structure Readable (rows : List (List Str)) (lines : List Str) : Prop where
  complete : Complete rows lines
  straight : boxTableDisplayWidth rows ≤ maxTableDisplayWidth →
    ∀ line ∈ lines, ∀ other ∈ lines, displayWidth line = displayWidth other

theorem Complete.mem {lines : List Str} (h : Complete rows lines) {row : List Str} {cell : Str}
    (hrow : row ∈ rows) (hcell : cell ∈ row) (hne : cell ≠ []) : ∃ line ∈ lines, cell <:+: line := by
  have hkept : ∀ rows : List (List Str), row ∈ rows → cell ∈ cells rows := by
    intro rows hrow
    refine List.mem_filter.mpr ⟨List.mem_flatten.mpr ⟨row, hrow, hcell⟩, ?_⟩
    rwa [Bool.not_eq_true', Bool.eq_false_iff, Ne, List.isEmpty_iff]
  cases h with
  | inl hrows => exact hrows.mem (hkept rows hrow)
  | inr hnamed =>
    obtain ⟨header, body, rfl, hbody, hnames⟩ := hnamed
    have hbeside : ∃ first ∈ body, cell ∈ beside header first := by
      have hparts : ∀ header row : List Str, cell ∈ header ∨ cell ∈ row →
          cell ∈ beside header row := by
        intro header
        induction header with
        | nil => exact fun row hmem => hmem.resolve_left List.not_mem_nil
        | cons name header ih =>
          intro row hmem
          cases row with
          | nil => exact hmem.resolve_right List.not_mem_nil
          | cons value row =>
            rw [beside]
            simp only [List.mem_cons] at hmem ⊢
            rcases hmem with (rfl | hmem) | rfl | hmem
            · exact .inl rfl
            · exact .inr (.inr (ih row (.inl hmem)))
            · exact .inr (.inl rfl)
            · exact .inr (.inr (ih row (.inr hmem)))
      cases List.mem_cons.mp hrow with
      | inl hheader =>
        obtain ⟨first, rest, rfl⟩ := List.exists_cons_of_ne_nil hbody
        exact ⟨first, List.mem_cons_self, hparts header first (.inl (hheader ▸ hcell))⟩
      | inr hmem => exact ⟨row, hmem, hparts header row (.inr hcell)⟩
    obtain ⟨first, hfirst, hmem⟩ := hbeside
    refine hnames.mem (List.mem_filter.mpr ⟨?_, ?_⟩)
    · exact List.mem_flatten.mpr ⟨_, List.mem_map_of_mem hfirst, hmem⟩
    · rwa [Bool.not_eq_true', Bool.eq_false_iff, Ne, List.isEmpty_iff]

theorem besides_sublist (columns : Nat) (header : List Str) (body : List (List Str)) :
    (body.map (beside header)).flatten.Sublist
      ((body.map fun row => row ++ List.replicate (columns - row.length) []).map
        (beside (header ++ List.replicate (columns - header.length) []))).flatten := by
  induction body with
  | nil => exact List.Sublist.refl _
  | cons row body ih =>
    rw [List.map_cons, List.map_cons, List.map_cons, List.flatten_cons, List.flatten_cons]
    exact (beside_sublist header row _ _).append ih

theorem renderFieldTable_unnamed (rows : List (List Str)) :
    Appear (cells rows) (renderFieldTable rows false) := by
  have hgroups : Appear ((normalize rows).map id).flatten (renderFieldTable rows false) :=
    appear_groups fun row _ => appear_fieldLines row
  rw [List.map_id] at hgroups
  exact hgroups.sublist (List.filter_sublist.trans (flatten_sublist_normalize rows))

theorem renderFieldTable_named (header : List Str) (body : List (List Str)) :
    Appear (cells (body.map (beside header))) (renderFieldTable (header :: body) true) := by
  have hnormalized : normalize (header :: body) =
      (header ++ List.replicate (columnCount (header :: body) - header.length) []) ::
        body.map fun row => row ++ List.replicate (columnCount (header :: body) - row.length) [] := rfl
  have hgroups : Appear ((normalize (header :: body)).tail.map
      (beside (header ++ List.replicate (columnCount (header :: body) - header.length) []))).flatten
      (renderFieldTable (header :: body) true) := by
    refine appear_groups fun row hrow => appear_fieldLines_named ?_
    have hheader := @normalize_length (header :: body) _ (hnormalized ▸ List.mem_cons_self)
    rw [hheader]
    exact normalize_length (List.mem_of_mem_tail hrow)
  rw [hnormalized, List.tail_cons] at hgroups
  exact hgroups.sublist (List.filter_sublist.trans (besides_sublist _ header body))

/-- A table is readable exactly when it has a column and a header without rows is not too wide
for a box. -/
theorem renderTable_readable_iff (rows : List (List Str)) (hasHeader : Bool) :
    Readable rows (renderTable rows hasHeader) ↔
      (rows = [] ∨ 0 < columnCount rows) ∧
      ¬ (hasHeader = true ∧ rows.length = 1 ∧ maxTableDisplayWidth < boxTableDisplayWidth rows ∧
        ∃ row ∈ rows, ∃ cell ∈ row, cell ≠ []) := by
  unfold renderTable
  split
  · next hempty =>
    rw [List.isEmpty_iff.mp hempty]
    refine iff_of_true ⟨.inl (.nil _), nofun⟩ ⟨.inl rfl, ?_⟩
    rintro ⟨_, hone, _⟩
    cases hone
  · next hempty =>
    have hne : rows ≠ [] := by rwa [List.isEmpty_iff] at hempty
    split
    · next hbox =>
      have hwide : ¬ (hasHeader = true ∧ rows.length = 1 ∧
          maxTableDisplayWidth < boxTableDisplayWidth rows ∧
          ∃ row ∈ rows, ∃ cell ∈ row, cell ≠ []) :=
        fun hno => absurd hno.2.2.1 (Nat.not_lt_of_le hbox)
      constructor
      · intro hreadable
        refine ⟨.inr (Nat.pos_of_ne_zero fun hzero => ?_), hwide⟩
        have hwidths : columnWidths rows = [] := by
          rw [← List.length_eq_zero_iff, columnWidths_length, hzero]
        obtain ⟨first, rest, hrows⟩ := List.exists_cons_of_ne_nil
          (show normalize rows ≠ [] by rwa [normalize, Ne, List.map_eq_nil_iff])
        have hfirst : first = [] := by
          rw [← List.length_eq_zero_iff, normalize_length (hrows ▸ List.mem_cons_self), hzero]
        have hlines : ∃ lines, renderBoxTable rows = lit "┌┐" :: lit "│  │" :: lines := by
          unfold renderBoxTable
          rw [hrows, hwidths, hfirst]
          exact ⟨_, rfl⟩
        obtain ⟨lines, hlines⟩ := hlines
        have hsame := hreadable.straight hbox
        rw [hlines] at hsame
        exact absurd (hsame _ List.mem_cons_self _ (List.mem_cons_of_mem _ List.mem_cons_self))
          (by decide)
      · rintro ⟨hcolumns, _⟩
        have hwidth := renderBoxTable_width (hcolumns.resolve_left hne)
        refine ⟨.inl ((appear_renderBoxTable rows).sublist List.filter_sublist), fun _ => ?_⟩
        intro line hline other hother
        rw [hwidth line hline, hwidth other hother]
    · next hbox =>
      have hwide := Nat.lt_of_not_le hbox
      have hcolumns : 0 < columnCount rows := by
        refine Nat.pos_of_ne_zero fun hzero => hbox ?_
        have hwidths : columnWidths rows = [] := by
          rw [← List.length_eq_zero_iff, columnWidths_length, hzero]
        rw [boxTableDisplayWidth, if_neg hempty, hwidths, hzero]
        decide
      rw [and_iff_right (.inr hcolumns)]
      obtain ⟨header, body, rfl⟩ := List.exists_cons_of_ne_nil hne
      constructor
      · rintro hreadable ⟨rfl, hone, _, row, hrow, cell, hcell, hshown⟩
        have hbody : body = [] := List.length_eq_zero_iff.mp (Nat.succ.inj hone)
        rw [hbody] at hreadable hrow
        obtain ⟨line, hline, _⟩ := hreadable.complete.mem hrow hcell hshown
        cases hline
      · intro hsafe
        refine ⟨?_, fun hnarrow => absurd hnarrow hbox⟩
        cases hasHeader with
        | false => exact .inl (renderFieldTable_unnamed _)
        | true =>
          by_cases hbody : body = []
          · left
            have hnone : cells (header :: body) = [] := by
              rw [cells, List.filter_eq_nil_iff]
              intro cell hcell hshown
              obtain ⟨row, hrow, hmem⟩ := List.mem_flatten.mp hcell
              refine hsafe ⟨rfl, by rw [hbody]; rfl, hwide, row, hrow, cell, hmem, ?_⟩
              rintro rfl
              cases hshown
            rw [hnone]
            exact .nil _
          · exact .inr ⟨header, body, rfl, hbody, renderFieldTable_named header body⟩

/-- A wide header with no row below it is lost, all of it. -/
theorem header_alone_is_lost :
    renderTable [[lit "Description of the parameter", lit "Default value"]] true = [] ∧
      ¬ Readable [[lit "Description of the parameter", lit "Default value"]] [] := by
  refine ⟨by decide, fun hreadable => ?_⟩
  obtain ⟨line, hline, _⟩ := hreadable.complete.mem List.mem_cons_self List.mem_cons_self (by decide)
  cases hline

end Kirara.BoxTables
