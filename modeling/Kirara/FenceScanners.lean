import Kirara.StructuredText

namespace Kirara.FenceScanners

open Kirara.CodePoints Kirara.Fences Kirara.StructuredText

/-- A line without the line end that `str.splitlines` leaves out. -/
def lineBody (line : Str) : Str :=
  if line.getLast? = some newline then
    if line.dropLast.getLast? = some carriageReturn then line.dropLast.dropLast else line.dropLast
  else if line.getLast?.any isLineBreak then line.dropLast
  else line

/-- `text.split("\n")`. -/
def splitNewline : Str → List Str
  | [] => [[]]
  | c :: cs =>
    if c = newline then [] :: splitNewline cs
    else
      match splitNewline cs with
      | [] => [[c]]
      | l :: ls => (c :: l) :: ls

def withNewlines : List Str → List Str
  | [] => []
  | [l] => [l]
  | l :: k :: ls => (l ++ [newline]) :: withNewlines (k :: ls)

/-- For each line the number of its code block, fences included, or zero. -/
def fenceScan : List Str → Option Str → Nat → List Nat
  | [], _, _ => []
  | line :: lines, none, n =>
    match fenceMarker line with
    | some marker => (n + 1) :: fenceScan lines (some marker) (n + 1)
    | none => 0 :: fenceScan lines none n
  | line :: lines, some opening, n =>
    n :: fenceScan lines (if closesFence line opening then none else some opening) n

def codeLines : List Str → List Nat → List Str
  | [], _ => []
  | _ :: _, [] => []
  | line :: lines, k :: ks => if k = 0 then codeLines lines ks else line :: codeLines lines ks

def fencedLineIndices (lines : List Str) : List Nat :=
  ((fenceScan lines none 0).zipIdx.filter (fun p => p.1 ≠ 0)).map Prod.snd

theorem ne_zero_of_opened {opening : Str} {n : Nat} (h : some opening = none ∨ 0 < n) : n ≠ 0 :=
  Nat.ne_of_gt (h.resolve_left (Option.some_ne_none _))

section Tables

variable (isTableSeparator isTableRow : Str → Bool) (parseTableRow : Str → List Str)
variable (renderTable : List (List Str) → Bool → List Str) (fenced : Bool)

def flushTable (buffer : List (List Str)) (sawSeparator : Bool) : List Str :=
  if buffer.isEmpty then []
  else if fenced then
    [[], lit "```"] ++ renderTable buffer sawSeparator ++ [lit "```", []]
  else [[]] ++ renderTable buffer sawSeparator ++ [[]]

/-- The loop of `convert_markdown_tables`, however tables are read and drawn. -/
def convertLines : List Str → Option Str → List (List Str) → Bool → List Str
  | [], _, buffer, sawSeparator => flushTable renderTable fenced buffer sawSeparator
  | line :: lines, none, buffer, sawSeparator =>
    match fenceMarker line with
    | some marker =>
      flushTable renderTable fenced buffer sawSeparator ++
        line :: convertLines lines (some marker) [] false
    | none =>
      if isTableSeparator line then convertLines lines none buffer true
      else if isTableRow line then
        convertLines lines none (buffer ++ [parseTableRow line]) sawSeparator
      else
        flushTable renderTable fenced buffer sawSeparator ++
          line :: convertLines lines none [] false
  | line :: lines, some opening, buffer, sawSeparator =>
    line :: convertLines lines (if closesFence line opening then none else some opening)
      buffer sawSeparator

def convertMarkdownTables (text : Str) : Str :=
  join [newline] (convertLines isTableSeparator isTableRow parseTableRow renderTable fenced
    (splitNewline text) none [] false)

variable {isTableSeparator isTableRow parseTableRow renderTable fenced}

theorem convertLines_code (lines : List Str) (opened : Option Str) (n : Nat)
    (hn : opened = none ∨ 0 < n) (buffer : List (List Str)) (sawSeparator : Bool) :
    (codeLines lines (fenceScan lines opened n)).Sublist
      (convertLines isTableSeparator isTableRow parseTableRow renderTable fenced lines opened
        buffer sawSeparator) := by
  induction lines generalizing opened n buffer sawSeparator with
  | nil => exact List.nil_sublist _
  | cons line lines ih =>
    cases opened with
    | none =>
      rw [fenceScan, convertLines]
      cases fenceMarker line with
      | some marker =>
        simp only [codeLines, Nat.succ_ne_zero, if_false]
        exact List.Sublist.trans (List.Sublist.cons_cons line
          (ih (some marker) (n + 1) (.inr (Nat.succ_pos n)) [] false)) (List.sublist_append_right _ _)
      | none =>
        simp only [codeLines, if_true]
        split
        · exact ih none n (.inl rfl) buffer true
        split
        · exact ih none n (.inl rfl) _ sawSeparator
        · exact List.Sublist.trans (List.Sublist.cons line (ih none n (.inl rfl) [] false))
            (List.sublist_append_right _ _)
    | some opening =>
      have hpos := ne_zero_of_opened hn
      rw [fenceScan, convertLines, codeLines, if_neg hpos]
      exact List.Sublist.cons_cons line (ih _ n (.inr (Nat.pos_of_ne_zero hpos)) buffer sawSeparator)

end Tables

/-- The loop of `_split_fenced_sections`. -/
def fencedSections : List Str → List Str → Option Str → List (Bool × Str)
  | [], buffer, opened => if buffer.isEmpty then [] else [(opened.isSome, buffer.flatten)]
  | line :: lines, buffer, none =>
    match fenceMarker line with
    | some marker =>
      (if buffer.isEmpty then [] else [(false, buffer.flatten)]) ++
        (true, line) :: fencedSections lines [] (some marker)
    | none => fencedSections lines (buffer ++ [line]) none
  | line :: lines, buffer, some opening =>
    if closesFence line opening then
      (if buffer.isEmpty then [] else [(true, buffer.flatten)]) ++
        (true, line) :: fencedSections lines [] none
    else fencedSections lines (buffer ++ [line]) (some opening)

def splitFencedSections (text : Str) : List (Bool × Str) :=
  if (splitLines text).isEmpty then [(false, text)] else fencedSections (splitLines text) [] none

def codeOf (sections : List (Bool × Str)) : Str :=
  ((sections.filter Prod.fst).map Prod.snd).flatten

theorem fencedSections_code (lines buffer : List Str) (opened : Option Str) (n : Nat)
    (hn : opened = none ∨ 0 < n) : codeOf (fencedSections lines buffer opened) =
      (if opened.isSome then buffer.flatten else []) ++
        (codeLines lines (fenceScan lines opened n)).flatten := by
  induction lines generalizing buffer opened n with
  | nil =>
    rw [fencedSections, fenceScan, codeLines]
    cases buffer with
    | nil => simp [codeOf]
    | cons b bs =>
      cases opened with
      | none => simp [codeOf]
      | some opening => simp [codeOf]
  | cons line lines ih =>
    cases opened with
    | none =>
      rw [fencedSections, fenceScan]
      cases fenceMarker line with
      | none =>
        have hrest := ih (buffer ++ [line]) none n (.inl rfl)
        simp only [codeLines, if_true]
        rw [hrest]
        rfl
      | some marker =>
        have hrest := ih [] (some marker) (n + 1) (.inr (Nat.succ_pos n))
        simp only [codeOf] at hrest
        cases buffer with
        | nil => simp [codeOf, codeLines, hrest]
        | cons b bs => simp [codeOf, codeLines, hrest]
    | some opening =>
      have hpos := ne_zero_of_opened hn
      rw [fencedSections, fenceScan, codeLines, if_neg hpos]
      split
      · have hrest := ih [] none n (.inl rfl)
        simp only [codeOf] at hrest
        cases buffer with
        | nil => simp [codeOf, hrest]
        | cons b bs => simp [codeOf, hrest]
      · rw [ih _ (some opening) n (.inr (Nat.pos_of_ne_zero hpos))]
        simp

/-- What `_split_fenced_sections` takes for code are the blocks of the scan. -/
theorem splitFencedSections_code (text : Str) : codeOf (splitFencedSections text) =
      (codeLines (splitLines text) (fenceScan (splitLines text) none 0)).flatten := by
  unfold splitFencedSections
  split
  · next hempty =>
    rw [List.isEmpty_iff.mp hempty]
    rfl
  · rw [fencedSections_code _ [] none 0 (.inl rfl)]
    rfl

/-- As in `_split_structured_body`: inside a table no line opens a block. -/
def bodyScan : List Str → Option Str → Bool → Nat → List Nat
  | [], _, _, _ => []
  | line :: lines, some opening, _, n =>
    n :: bodyScan lines (if closesFence line opening then none else some opening) false n
  | line :: lines, none, true, n =>
    0 :: bodyScan lines none (!startsWith (stripLineEnd line) bottomCorner) n
  | line :: lines, none, false, n =>
    match fenceMarker line with
    | some marker => (n + 1) :: bodyScan lines (some marker) false (n + 1)
    | none => 0 :: bodyScan lines none (startsWith (stripLineEnd line) topCorner) n

def codeSegments (segs : List Segment) : Str :=
  (segs.map fun s => match s with
    | .code block => block
    | _ => []).flatten

def scannedFence : Scanning → Option Str
  | .code opening _ => some opening
  | _ => none

def scannedTable : Scanning → Bool
  | .table _ => true
  | _ => false

def scannedCode : Scanning → Str
  | .code _ lines => lines.flatten
  | _ => []

theorem segments_code (lines : List Str) (st : Scanning) (n : Nat) (hn : scannedFence st = none ∨ 0 < n) :
    codeSegments (segments .markdown lines st) = scannedCode st ++
      (codeLines lines (bodyScan lines (scannedFence st) (scannedTable st) n)).flatten := by
  have hflush : ∀ acc : List Str, codeSegments (flushRegular acc) = [] := by
    intro acc
    unfold flushRegular
    split
    · rfl
    · rfl
  have happend : ∀ xs ys : List Segment,
      codeSegments (xs ++ ys) = codeSegments xs ++ codeSegments ys := by
    intro xs ys
    simp [codeSegments]
  induction lines generalizing st n with
  | nil =>
    cases st with
    | regular acc => simp [segments, hflush, scannedCode, codeLines]
    | code opening acc => simp [segments, codeSegments, scannedCode, codeLines]
    | table acc => simp [segments, codeSegments, scannedCode, codeLines]
  | cons line lines ih =>
    cases st with
    | regular acc =>
      simp only [segments, scannedFence, scannedTable, bodyScan, codeFenceOpen, scannedCode,
        List.nil_append]
      cases fenceMarker line with
      | some marker =>
        have hrest := ih (.code marker [line]) (n + 1) (.inr (Nat.succ_pos n))
        simp only [happend, hflush, List.nil_append, hrest]
        simp [scannedCode, scannedFence, scannedTable, codeLines]
      | none =>
        simp only [codeLines, if_true]
        split
        · next hcorner =>
          have hrest := ih (.table [stripLineEnd line]) n (.inl rfl)
          rw [happend, hflush, hrest, hcorner]
          rfl
        · next hcorner =>
          have hrest := ih (.regular (acc ++ [line])) n (.inl rfl)
          rw [hrest, Bool.eq_false_iff.mpr hcorner]
          rfl
    | code opening acc =>
      have hpos := ne_zero_of_opened hn
      have hcloses : codeFenceCloses line opening .markdown = closesFence line opening := rfl
      rw [segments, hcloses]
      simp only [scannedFence, bodyScan, scannedCode, codeLines, if_neg hpos]
      split
      · have hrest := ih (.regular []) n (.inl rfl)
        rw [← List.singleton_append, happend, hrest]
        simp [codeSegments, scannedCode, scannedFence, scannedTable]
      · have hrest := ih (.code opening (acc ++ [line])) n (.inr (Nat.pos_of_ne_zero hpos))
        rw [hrest]
        simp [scannedCode, scannedFence, scannedTable]
    | table acc =>
      simp only [segments, scannedFence, scannedTable, bodyScan, scannedCode, codeLines, if_true,
        List.nil_append]
      split
      · next hcorner =>
        have hrest := ih (.regular []) n (.inl rfl)
        rw [← List.singleton_append, happend, hrest, hcorner]
        rfl
      · next hcorner =>
        have hrest := ih (.table (acc ++ [stripLineEnd line])) n (.inl rfl)
        rw [hrest, Bool.eq_false_iff.mpr hcorner]
        rfl

end Kirara.FenceScanners
