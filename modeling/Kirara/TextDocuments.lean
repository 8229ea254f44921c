import Kirara.LineBodies

namespace Kirara.TextDocuments

open Kirara.CodePoints Kirara.Fences Kirara.StructuredText Kirara.FenceScanners Kirara.LineBodies

/-- What a line is to the search for code without fences. -/
inductive Role where
  | code
  | neutral
  | prose
  deriving DecidableEq

inductive Language where
  | javascript
  | python
  | bash
  | sql
  deriving DecidableEq

def Language.name : Language → Str
  | .javascript => lit "javascript"
  | .python => lit "python"
  | .bash => lit "bash"
  | .sql => lit "sql"

/-- What the code reads off lines by regular expressions. -/
structure LineRules where
  role : Str → Role
  defines : Str → Bool
  guess : Str → Option Language
  isDigit : CodePoint → Bool

inductive TextBlockKind where
  | heading
  | paragraph
  | list
  | quote
  | table
  | code
  deriving DecidableEq

structure TextBlock where
  kind : TextBlockKind
  text : Str
  level : Option Nat := none
  language : Option Str := none
  closed : Bool := true
  fenced : Bool := true
  deriving DecidableEq

structure TextDocument where
  source : Str
  blocks : List TextBlock

def leadingIndent : Str → Nat
  | [] => 0
  | c :: cs =>
    if c = cp ' ' then leadingIndent cs + 1
    else if c = cp '\t' then leadingIndent cs + 4
    else 0

def isTableSeparator (line : Str) : Bool :=
  (stripped line).contains (cp '|') && (stripped line).contains (cp '-') &&
    3 ≤ (stripped line).length &&
    (stripped line).all (fun c => isSpace c || c == cp ':' || c == cp '-' || c == cp '|')

def isTableRow (line : Str) : Bool :=
  (stripped line).contains (cp '|') && !isTableSeparator (stripped line) &&
    ((stripped line).head? == some (cp '|') && (stripped line).getLast? == some (cp '|') &&
        1 < (stripped line).length ||
      2 ≤ (stripped line).count (cp '|'))

/-- A match of `_HEADING_PATTERN`; the last of nothing but white space is the text. -/
def heading (line : Str) : Option (Nat × Str) :=
  let hashes := line.takeWhile (· == cp '#')
  let rest := line.dropWhile (· == cp '#')
  if 1 ≤ hashes.length && hashes.length ≤ 6 && rest.head?.any isSpace then
    match rest.dropWhile isSpace with
    | c :: cs => some (hashes.length, c :: cs)
    | [] => if 2 ≤ rest.length then rest.getLast?.map fun c => (hashes.length, [c]) else none
  else none

/-- A match of `_LIST_PATTERN`. -/
def isListItem (rules : LineRules) (line : Str) : Bool :=
  match line.dropWhile isSpace with
  | [] => false
  | c :: cs =>
    if c == cp '-' || c == cp '*' || c == cp '+' then cs.head? == some (cp ' ')
    else
      rules.isDigit c &&
        match cs.dropWhile rules.isDigit with
        | d :: e :: _ => (d == cp '.' || d == cp ')') && e == cp ' '
        | _ => false

def isQuote (line : Str) : Bool := (line.dropWhile isSpace).head? == some (cp '>')

def startsBlock (rules : LineRules) (line : Str) : Bool :=
  (fenceMarker line).isSome || (heading line).isSome || isListItem rules line || isQuote line ||
    isTableRow (stripped line)

/-- The variables of the inner loop of `_detect_code_spans`. -/
structure CodeRun where
  strong : Nat := 0
  definitionSeen : Bool := false
  indentedBody : Nat := 0
  lastContent : Nat
  blankRun : Nat := 0

def CodeRun.step (rules : LineRules) (run : CodeRun) (role : Role) (line : Str) (cursor : Nat) :
    CodeRun :=
  let run := { run with blankRun := 0, lastContent := cursor }
  if role = .code then
    { run with
      strong := run.strong + 1
      definitionSeen := run.definitionSeen || rules.defines line }
  else if 4 ≤ leadingIndent line then { run with indentedBody := run.indentedBody + 1 }
  else run

def codeRun (rules : LineRules) : List (Role × Str) → Nat → CodeRun → CodeRun
  | [], _, run => run
  | (role, line) :: lines, cursor, run =>
    if role = .prose then run
    else if (stripped line).isEmpty then
      if 2 < run.blankRun + 1 then run
      else codeRun rules lines (cursor + 1) { run with blankRun := run.blankRun + 1 }
    else codeRun rules lines (cursor + 1) (run.step rules role line cursor)

def CodeRun.accepted (run : CodeRun) : Bool :=
  2 ≤ run.strong || (1 ≤ run.strong && run.definitionSeen && 1 ≤ run.indentedBody)

def codeLineRole (rules : LineRules) (line : Str) : Role :=
  if (stripped line).isEmpty then .neutral else rules.role line

def codeSpansFrom (rules : LineRules) : Nat → Nat → List (Role × Str) → List (Nat × Nat)
  | 0, _, _ => []
  | _ + 1, _, [] => []
  | n + 1, index, (role, line) :: lines =>
    if role = .code then
      let run := codeRun rules ((role, line) :: lines) index { lastContent := index }
      if run.accepted && index < run.lastContent then
        (index, run.lastContent + 1) :: codeSpansFrom rules n (run.lastContent + 1)
          (((role, line) :: lines).drop (run.lastContent + 1 - index))
      else codeSpansFrom rules n (index + 1) lines
    else codeSpansFrom rules n (index + 1) lines

/-- The spans of `_detect_code_spans`, up to the line after the last of each. -/
def detectCodeSpans (rules : LineRules) (lines : List Str) : List (Nat × Nat) :=
  codeSpansFrom rules lines.length 0
    (lines.zipIdx.map fun p =>
      (if (fencedLineIndices lines).contains p.2 then .prose else codeLineRole rules p.1, p.1))

theorem codeSpansFrom_lt (rules : LineRules) (n index : Nat) (lines : List (Role × Str))
    {span : Nat × Nat} (h : span ∈ codeSpansFrom rules n index lines) : span.1 < span.2 := by
  induction n generalizing index lines with
  | zero => cases h
  | succ n ih =>
    cases lines with
    | nil => cases h
    | cons line lines =>
      rw [codeSpansFrom] at h
      split at h
      · dsimp only at h
        split at h
        · next haccepted =>
          rw [Bool.and_eq_true, decide_eq_true_eq] at haccepted
          cases List.mem_cons.mp h with
          | inl h =>
            rw [h]
            exact Nat.lt_succ_of_lt haccepted.2
          | inr h => exact ih _ _ h
        · exact ih _ _ h
      · exact ih _ _ h

/-- A block with the place of its first line and the lines that it is read from. -/
structure Placed where
  start : Nat
  lines : List Str
  block : TextBlock

def runLines (continues : Nat → Str → Bool) : Nat → List Str → List Str
  | _, [] => []
  | index, line :: lines =>
    if continues index line then line :: runLines continues (index + 1) lines else []

def placedRun (kind : TextBlockKind) (continues : Nat → Str → Bool) (index : Nat) (line : Str)
    (lines : List Str) : Placed where
  start := index
  lines := line :: runLines continues (index + 1) lines
  block := { kind, text := join [newline] (line :: runLines continues (index + 1) lines) }

def proseBlock (rules : LineRules) (spans : List (Nat × Nat)) (index : Nat) (line : Str)
    (lines : List Str) : Placed :=
  match heading line with
  | some (level, content) =>
    ⟨index, [line], { kind := .heading, text := content, level := some level }⟩
  | none =>
    if isTableRow (stripped line) then
      placedRun .table (fun _ l => isTableRow (stripped l) || isTableSeparator (stripped l))
        index line lines
    else if isListItem rules line then
      placedRun .list (fun _ l => isListItem rules l) index line lines
    else if isQuote line then placedRun .quote (fun _ l => isQuote l) index line lines
    else
      placedRun .paragraph (fun i l => !(stripped l).isEmpty &&
        !((spans.lookup i).isSome || startsBlock rules l)) index line lines

/-- The loop of `parse_text_document`. -/
def parseFrom (rules : LineRules) (spans : List (Nat × Nat)) : Nat → Nat → List Str → List Placed
  | 0, _, _ => []
  | _ + 1, _, [] => []
  | n + 1, index, line :: lines =>
    if (stripped line).isEmpty then parseFrom rules spans n (index + 1) lines
    else
      match spans.lookup index with
      | some last =>
        let taken := (line :: lines).take (last - index)
        let body := rstripped (join [newline] taken)
        ⟨index, taken, {
          kind := .code, text := body, language := (rules.guess body).map Language.name,
          closed := true, fenced := false }⟩ ::
          parseFrom rules spans n last ((line :: lines).drop (last - index))
      | none =>
        match fenceMarker line with
        | some opening =>
          let body := lines.takeWhile (!closesFence · opening)
          let rest := lines.dropWhile (!closesFence · opening)
          ⟨index, line :: (body ++ rest.take 1), {
            kind := .code, text := join [newline] body, language := fenceLanguage line,
            closed := !rest.isEmpty }⟩ ::
            parseFrom rules spans n (index + 1 + body.length + 1) rest.tail
        | none =>
          let placed := proseBlock rules spans index line lines
          placed :: parseFrom rules spans n (index + placed.lines.length)
            ((line :: lines).drop placed.lines.length)

def placedBlocks (rules : LineRules) (text : Str) : List Placed :=
  parseFrom rules (detectCodeSpans rules (lineBodies text)) (lineBodies text).length 0
    (lineBodies text)

def parseTextDocument (rules : LineRules) (text : Str) : TextDocument where
  source := text
  blocks := (placedBlocks rules text).map Placed.block

variable {rules : LineRules} {spans : List (Nat × Nat)}

theorem runLines_prefix (continues : Nat → Str → Bool) (index : Nat) (lines : List Str) :
    runLines continues index lines <+: lines := by
  induction lines generalizing index with
  | nil => exact List.prefix_refl []
  | cons line lines ih =>
    rw [runLines]
    split
    · exact (List.prefix_cons_inj line).mpr (ih (index + 1))
    · exact List.nil_prefix

variable (rules spans) in
theorem proseBlock_spec (index : Nat) (line : Str) (lines : List Str) :
    (proseBlock rules spans index line lines).start = index ∧
      (proseBlock rules spans index line lines).lines <+: line :: lines ∧
      (proseBlock rules spans index line lines).lines ≠ [] ∧
      (proseBlock rules spans index line lines).block.kind ≠ .code ∧
      (proseBlock rules spans index line lines).block.closed = true := by
  have hrun : ∀ kind continues, kind ≠ .code →
      (placedRun kind continues index line lines).start = index ∧
      (placedRun kind continues index line lines).lines <+: line :: lines ∧
      (placedRun kind continues index line lines).lines ≠ [] ∧
      (placedRun kind continues index line lines).block.kind ≠ .code ∧
      (placedRun kind continues index line lines).block.closed = true := by
    intro kind continues hkind
    exact ⟨rfl, (List.prefix_cons_inj line).mpr ( runLines_prefix continues (index + 1) lines),
      List.cons_ne_nil _ _, hkind, rfl⟩
  unfold proseBlock
  split
  · exact ⟨rfl, (List.prefix_cons_inj line).mpr List.nil_prefix, List.cons_ne_nil _ _,
      TextBlockKind.noConfusion, rfl⟩
  · split
    · exact hrun .table _ TextBlockKind.noConfusion
    · split
      · exact hrun .list _ TextBlockKind.noConfusion
      · split
        · exact hrun .quote _ TextBlockKind.noConfusion
        · exact hrun .paragraph _ TextBlockKind.noConfusion

theorem parseFrom_closed (n index : Nat) (lines : List Str) :
    ∀ p ∈ (parseFrom rules spans n index lines).dropLast, p.block.closed = true := by
  have hcons : ∀ (p : Placed) (ps : List Placed), (p.block.closed = true ∨ ps = []) →
      (∀ q ∈ ps.dropLast, q.block.closed = true) →
      ∀ q ∈ (p :: ps).dropLast, q.block.closed = true := by
    intro p ps hp hps q hq
    cases ps with
    | nil => cases hq
    | cons r rs =>
      cases List.mem_cons.mp hq with
      | inl h => exact h ▸ hp.resolve_right (List.cons_ne_nil r rs)
      | inr h => exact hps q h
  induction n generalizing index lines with
  | zero => exact List.forall_mem_nil _
  | succ n ih =>
    cases lines with
    | nil => exact List.forall_mem_nil _
    | cons line lines =>
      rw [parseFrom]
      split
      · exact ih _ _
      split
      · exact hcons _ _ (.inl rfl) (ih _ _)
      split
      · refine hcons _ _ ?_ (ih _ _)
        cases hrest : lines.dropWhile (!closesFence · _) with
        | nil =>
          right
          cases n with
          | zero => rfl
          | succ n => rfl
        | cons closer rest => exact .inl rfl
      · exact hcons _ _ (.inl (proseBlock_spec rules spans index line lines).2.2.2.2) (ih _ _)

/-- No line break but newlines is in the text, none in the language, and no backtick. -/
def CodeBlock (block : TextBlock) : Prop :=
  (∀ lang, block.language = some lang → backtick ∉ lang ∧ ∀ c ∈ lang, isLineBreak c = false) ∧
    ∀ c ∈ block.text, isLineBreak c = true → c = newline

theorem mem_join_newline {ls : List Str} {c : CodePoint} (hc : c ∈ join [newline] ls) :
    c = newline ∨ ∃ l ∈ ls, c ∈ l := by
  induction ls with
  | nil => cases hc
  | cons l ls ih =>
    cases ls with
    | nil =>
      rw [join, List.intercalate_singleton] at hc
      exact .inr ⟨l, List.mem_cons_self, hc⟩
    | cons k ks =>
      rw [join, List.intercalate_cons_cons, List.mem_append, List.mem_append, List.mem_singleton] at hc
      cases hc with
      | inl hc =>
        cases hc with
        | inl hc => exact .inr ⟨l, List.mem_cons_self, hc⟩
        | inr hc => exact .inl hc
      | inr hc =>
        cases ih hc with
        | inl h => exact .inl h
        | inr h =>
          obtain ⟨m, hm, hcm⟩ := h
          exact .inr ⟨m, List.mem_cons_of_mem _ hm, hcm⟩

theorem fenceLanguage_chars {line lang : Str} (h : fenceLanguage line = some lang) :
    backtick ∉ lang ∧ ∀ c ∈ lang, c ∈ line := by
  rw [fenceLanguage, Option.bind_eq_some_iff] at h
  obtain ⟨start, hstart, hlang⟩ := h
  split at hlang
  · cases hlang
  rw [Option.some.injEq] at hlang
  unfold fenceStart at hstart
  split at hstart
  · cases hstart
  · next c cs hline =>
    split at hstart
    · dsimp only at hstart
      split at hstart
      · cases hstart
      · next hcond =>
        rw [Option.some.injEq] at hstart
        rw [Bool.or_eq_true, Bool.or_eq_true, not_or, not_or, List.contains_iff_mem] at hcond
        rw [← hstart] at hlang
        have hbody : ∀ d ∈ lang, d ∈ dropFinalNewline (cs.dropWhile (· == c)) := by
          intro d hd
          rw [← hlang] at hd
          exact (List.dropWhile_suffix _).subset ((List.rdropWhile_prefix _ _).subset hd)
        refine ⟨fun hb => hcond.1.2 (hbody _ hb), fun d hd => ?_⟩
        have hfinal : ∀ t : Str, ∀ e ∈ dropFinalNewline t, e ∈ t := by
          intro t e he
          unfold dropFinalNewline at he
          split at he
          · exact List.dropLast_subset t he
          · exact he
        have hcs := (List.dropWhile_suffix _).subset (hfinal _ d (hbody d hd))
        apply (List.dropWhile_suffix isSpace).subset
        rw [hline]
        exact List.mem_cons_of_mem _ hcs
    · cases hstart

theorem Language.chars (language : Language) :
    backtick ∉ language.name ∧ ∀ c ∈ language.name, isLineBreak c = false := by
  have hall : language.name.all (fun c => c != backtick && !isLineBreak c) = true := by
    cases language <;> decide
  have hchar : ∀ c ∈ language.name, c ≠ backtick ∧ isLineBreak c = false := by
    intro c hc
    have h := List.all_eq_true.mp hall c hc
    rwa [Bool.and_eq_true, bne_iff_ne, Bool.not_eq_true'] at h
  exact ⟨fun h => (hchar backtick h).1 rfl, fun c hc => (hchar c hc).2⟩

theorem join_breaks {ls : List Str} (hls : ∀ l ∈ ls, ∀ c ∈ l, isLineBreak c = false) :
    ∀ c ∈ join [newline] ls, isLineBreak c = true → c = newline := by
  intro c hc hbreak
  refine (mem_join_newline hc).resolve_right fun h => ?_
  obtain ⟨l, hl, hcl⟩ := h
  rw [hls l hl c hcl] at hbreak
  cases hbreak

theorem parseFrom_code (n index : Nat) {lines : List Str}
    (hlines : ∀ l ∈ lines, ∀ c ∈ l, isLineBreak c = false) :
    ∀ p ∈ parseFrom rules spans n index lines, p.block.kind = .code → CodeBlock p.block := by
  induction n generalizing index lines with
  | zero => exact List.forall_mem_nil _
  | succ n ih =>
    cases lines with
    | nil => exact List.forall_mem_nil _
    | cons line lines =>
      have hrest : ∀ ls : List Str, ls <:+ line :: lines →
          ∀ l ∈ ls, ∀ c ∈ l, isLineBreak c = false :=
        fun ls hls l hl => hlines l (hls.subset hl)
      have hline := (List.forall_mem_cons.mp hlines).1
      rw [parseFrom]
      split
      · exact ih _ (hrest _ (List.suffix_cons line lines))
      split
      · next last _ =>
        rw [List.forall_mem_cons]
        refine ⟨fun _ => ⟨?_, ?_⟩, ih _ (hrest _ (List.drop_suffix _ _))⟩
        · intro lang hlang
          obtain ⟨language, _, rfl⟩ := Option.map_eq_some_iff.mp hlang
          exact language.chars
        · intro c hc
          have htaken : ∀ l ∈ (line :: lines).take (last - index), ∀ c ∈ l, isLineBreak c = false :=
            fun l hl => hlines l (List.mem_of_mem_take hl)
          exact join_breaks htaken c ((List.rdropWhile_prefix isSpace _).subset hc)
      · split
        · rw [List.forall_mem_cons]
          refine ⟨fun _ => ⟨?_, ?_⟩, ih _ (hrest _ ?_)⟩
          · intro lang hlang
            obtain ⟨hback, hchars⟩ := fenceLanguage_chars hlang
            exact ⟨hback, fun c hc => hline c (hchars c hc)⟩
          · apply join_breaks
            intro l hl
            exact hlines l (List.mem_cons_of_mem _ ((List.takeWhile_prefix _).subset hl))
          · exact ((List.tail_suffix _).trans (List.dropWhile_suffix _)).trans
              (List.suffix_cons line lines)
        · rw [List.forall_mem_cons]
          exact ⟨fun hcode => absurd hcode (proseBlock_spec rules spans index line lines).2.2.2.1,
            ih _ (hrest _ (List.drop_suffix _ _))⟩

end Kirara.TextDocuments
