import Kirara.FenceScanners
import Kirara.Runs

namespace Kirara.LatexDegrading

open Kirara.CodePoints Kirara.Patterns Kirara.TextSplitting

def latexCommands : List (String × String) :=
  [("alpha", "α"), ("beta", "β"), ("gamma", "γ"), ("delta", "δ"), ("Delta", "Δ"),
    ("epsilon", "ε"), ("lambda", "λ"), ("mu", "μ"), ("pi", "π"), ("sigma", "σ"), ("omega", "ω"),
    ("Omega", "Ω"), ("theta", "θ"), ("Theta", "Θ"), ("phi", "φ"), ("Phi", "Φ"), ("psi", "ψ"),
    ("rho", "ρ"), ("tau", "τ"), ("nabla", "∇"), ("partial", "∂"), ("to", "→"),
    ("rightarrow", "→"), ("leftarrow", "←"), ("Rightarrow", "⇒"), ("Leftarrow", "⇐"),
    ("le", "≤"), ("leq", "≤"), ("ge", "≥"), ("geq", "≥"), ("neq", "≠"), ("approx", "≈"),
    ("equiv", "≡"), ("propto", "∝"), ("sim", "∼"), ("times", "×"), ("div", "÷"), ("cdot", "·"),
    ("pm", "±"), ("mp", "∓"), ("infty", "∞"), ("int", "∫"), ("iint", "∬"), ("oint", "∮"),
    ("in", "∈"), ("notin", "∉"), ("subset", "⊂"), ("subseteq", "⊆"), ("cup", "∪"), ("cap", "∩"),
    ("emptyset", "∅"), ("forall", "∀"), ("exists", "∃"), ("land", "∧"), ("lor", "∨"),
    ("neg", "¬"), ("angle", "∠"), ("perp", "⊥"), ("parallel", "∥"), ("degree", "°"),
    ("ldots", "…"), ("cdots", "⋯"), ("exp", "exp"), ("ln", "ln"), ("log", "log"), ("lim", "lim"),
    ("max", "max"), ("min", "min"), ("sin", "sin"), ("cos", "cos"), ("tan", "tan"), ("sum", "Σ"),
    ("prod", "Π")]

/-- `_ACCENT_MARKS`: each a combining character that follows the letter. -/
def accentMarks : List (String × CodePoint) :=
  [("overline", 0x304), ("bar", 0x304), ("hat", 0x302), ("tilde", 0x303), ("dot", 0x307),
    ("ddot", 0x308), ("vec", 0x20d7)]

def openBrace : CodePoint := 0x7b

def closeBrace : CodePoint := 0x7d

def isLetter (c : CodePoint) : Bool :=
  (0x41 ≤ c.val && c.val ≤ 0x5a) || (0x61 ≤ c.val && c.val ≤ 0x7a)

/-- `[A-Za-z]`. -/
def letter : Pattern CodePoint := .one isLetter

/-- `(?:a|b|c)`. -/
def anyOf (words : List String) : Pattern CodePoint :=
  words.foldr (fun w p => .alt (word w) p) (.one fun _ => false)

/-- `\{[^{}]*\}`. -/
def braces : Pattern CodePoint :=
  .seq (word "\x7b") (.seq (.many (noneOf "\x7b\x7d")) (word "\x7d"))

def commandPattern : Pattern CodePoint := .seq (word "\\") letter.some_

/-- `\\(?:a|b|c)\{[^{}]*\}`. -/
def bracedCommand (names : List String) : Pattern CodePoint :=
  .seq (word "\\") (.seq (anyOf names) braces)

def bracedPattern : Pattern CodePoint :=
  bracedCommand
    ["text", "mathrm", "mathbf", "mathit", "mathbb", "mathcal", "operatorname", "boxed"]

def environmentPattern : Pattern CodePoint := bracedCommand ["begin", "end"]

def spaceCommandPattern : Pattern CodePoint :=
  .seq (word "\\") (anyOf [",", ";", ":", "!", "quad", "qquad"])

def sizedDelimiterPattern : Pattern CodePoint :=
  .seq (word "\\") (.seq (anyOf ["left", "right", "big", "Big", "bigg", "Bigg"])
    (.seq (.next fun c => !c.any isLetter) (.many (.one isSpace))))

def lineBreakPattern : Pattern CodePoint := word "\\\\"

def fractionPattern : Pattern CodePoint :=
  .seq (word "\\") (.seq (oneOf "dt").optional (.seq (word "frac") (.seq braces braces)))

/-- `[ \t]*(?<!\\)&[ \t]*`. -/
def alignmentSeparatorPattern : Pattern CodePoint :=
  .seq (.many (oneOf " \t")) (.seq (.before (notBeside '\\')) (.seq (word "&") (.many (oneOf " \t"))))

/-- `\\[A-Za-z]|\\\\|[\^_]|\{|\}`. -/
def mathEvidencePattern : Pattern CodePoint :=
  .alt (.seq (word "\\") letter) (.alt (word "\\\\") (oneOf "^_\x7b\x7d"))

/-- `^\d+(?:,\d{3})*(?:\.\d+)?`. -/
def currencyLeadPattern : Pattern CodePoint :=
  let digit : Pattern CodePoint := .one isDigit
  .seq digit.some_ (.seq (.many (.seq (word ",") (.seq digit (.seq digit digit))))
    (Pattern.seq (word ".") digit.some_).optional)

/-- `[=<>+/^~]|\d[A-Za-z]`. -/
def numericMathPattern : Pattern CodePoint :=
  .alt (oneOf "=<>+/^~") (.seq (.one isDigit) letter)

def prosePunctuationPattern : Pattern CodePoint := oneOf "。，；！？、"

def escapedLiteralPattern : Pattern CodePoint := .seq (word "\\") (oneOf "$_\x7b\x7d%&#~")

def looksLikeCurrency (expression : Str) : Bool :=
  let stripped := expression.dropWhile isSpace
  currencyLeadPattern.matches stripped && !numericMathPattern.found stripped

def looksLikeMath (expression : Str) : Bool :=
  if mathEvidencePattern.found expression then true
  else if expression.all isSpace then false
  else if prosePunctuationPattern.found expression then false
  else !looksLikeCurrency expression

def inBraces (found : Str) : Str :=
  ((found.dropWhile (· != openBrace)).drop 1).takeWhile (· != closeBrace)

def afterBraces (found : Str) : Str := (found.dropWhile (· != closeBrace)).drop 1

/-- `(\1)/(\2)`. -/
def asDivision (found : Str) : Str :=
  lit "(" ++ inBraces found ++ lit ")/(" ++ inBraces (afterBraces found) ++ lit ")"

/-- The loop over fractions inside fractions, `rounds` times at most. -/
def resolveFractions : Nat → Str → Str
  | 0, text => text
  | rounds + 1, text =>
    let replaced := fractionPattern.sub asDivision text
    if replaced = text then text else resolveFractions rounds replaced

/-- `text.replace(old, new)`. -/
def replace (old new text : Str) : Str := (Pattern.word old).sub (fun _ => new) text

/-- A command that is not listed keeps its name and loses its backslash. -/
def commandText (found : Str) : Str :=
  match latexCommands.find? (fun p => lit p.1 = found.drop 1) with
  | some p => lit p.2
  | none => found.drop 1

def openBraceMark : Str := lit "\x00OPEN_BRACE\x00"

def closeBraceMark : Str := lit "\x00CLOSE_BRACE\x00"

def cleanMathExpression (text : Str) : Str :=
  let text := resolveFractions 4 text
  let text := (bracedCommand ["sqrt"]).sub (fun found => lit "√(" ++ inBraces found ++ lit ")") text
  let text := accentMarks.foldl
    (fun text accent => (bracedCommand [accent.1]).sub (fun found => inBraces found ++ [accent.2]) text)
    text
  let text := bracedPattern.sub inBraces text
  let text := environmentPattern.sub (fun _ => lit " ") text
  let text := lineBreakPattern.sub (fun _ => [newline]) text
  let text := alignmentSeparatorPattern.sub (fun _ => lit " ") text
  let text := sizedDelimiterPattern.sub (fun _ => []) text
  let text := spaceCommandPattern.sub (fun _ => lit " ") text
  let text := commandPattern.sub commandText text
  let text := replace (lit "\\_") (lit "_") text
  let text := replace (lit "\\\x7b") openBraceMark text
  let text := replace (lit "\\\x7d") closeBraceMark text
  let text := replace [closeBrace] [] (replace [openBrace] [] text)
  replace closeBraceMark [closeBrace] (replace openBraceMark [openBrace] text)

/-- The shortest non-empty text that `closing` follows, and the rest. -/
def lazyUntil (closes : CodePoint → Bool) (closing : Str) : Str → Option (Str × Str)
  | [] => none
  | c :: cs =>
    if closes c && startsWith cs closing then some ([c], cs.drop closing.length)
    else (lazyUntil closes closing cs).map fun r => (c :: r.1, r.2)

/-- A match of `_MATH_PATTERN` right here. Two dollars are tried before one. -/
def mathAt (last : Option CodePoint) (text : Str) : Option (Str × Str × Str) :=
  let closed (delimiter : Str) : Option (Str × Str × Str) :=
    if startsWith text delimiter then
      (lazyUntil (· != cp '\\') delimiter (text.drop delimiter.length)).map (delimiter, ·)
    else none
  if notBeside '\\' last then (closed (lit "$$")).or (closed (lit "$")) else none

/-- A pair that is no formula only loses its opening delimiter to the text that is done. -/
def substituteFrom : Nat → Option CodePoint → Str → Str
  | 0, _, text => text
  | _ + 1, _, [] => []
  | n + 1, last, c :: cs =>
    match mathAt last (c :: cs) with
    | none => c :: substituteFrom n (some c) cs
    | some (delimiter, expression, rest) =>
      if looksLikeMath expression then
        cleanMathExpression expression ++ substituteFrom n delimiter.getLast? rest
      else delimiter ++ substituteFrom n delimiter.getLast? ((c :: cs).drop delimiter.length)

def substituteDollarMath (text : Str) : Str := substituteFrom (text.length + 1) none text

/-- The substitution for `\(...\)` and `\[...\]`. -/
def substituteSpans (opening closing : Str) : Nat → Str → Str
  | 0, text => text
  | _ + 1, [] => []
  | n + 1, c :: cs =>
    if startsWith (c :: cs) opening then
      match lazyUntil (fun _ => true) closing ((c :: cs).drop opening.length) with
      | none => c :: substituteSpans opening closing n cs
      | some (expression, rest) =>
        (if looksLikeMath expression then cleanMathExpression expression
          else opening ++ expression ++ closing) ++ substituteSpans opening closing n rest
    else c :: substituteSpans opening closing n cs

def substituteDelimited (opening closing text : Str) : Str :=
  substituteSpans opening closing (text.length + 1) text

def cleanLatex (text : Str) : Str :=
  let text := substituteDollarMath text
  let text := substituteDelimited (lit "\\(") (lit "\\)") text
  let text := substituteDelimited (lit "\\[") (lit "\\]") text
  let text := environmentPattern.sub (fun _ => lit " ") text
  let text := sizedDelimiterPattern.sub (fun _ => []) text
  let text := commandPattern.sub commandText text
  escapedLiteralPattern.sub (List.drop 1) text

end Kirara.LatexDegrading

namespace Kirara.MathDegrading

open Kirara.CodePoints Kirara.Fences Kirara.FenceScanners Kirara.LatexDegrading Kirara.Runs

def singleRuns (text : Str) : List (Nat × Nat) :=
  (runs backtick 0 0 text).filter (fun run => run.2 - run.1 = 1)

def dropUnpairedBackticks (text : Str) : Str :=
  match (singleRuns text).getLast? with
  | none => text
  | some last =>
    if (singleRuns text).length % 2 = 0 then text else text.take last.1 ++ text.drop last.2

variable {text : Str}

theorem drop_even (h : (singleRuns text).length % 2 = 0) : dropUnpairedBackticks text = text := by
  unfold dropUnpairedBackticks
  split
  · rfl
  · rw [if_pos h]

theorem exists_last_run (h : (singleRuns text).length % 2 = 1) :
    ∃ last, (singleRuns text).getLast? = some last ∧
      dropUnpairedBackticks text = text.take last.1 ++ text.drop last.2 := by
  cases hlast : (singleRuns text).getLast? with
  | none =>
    rw [List.getLast?_eq_none_iff.mp hlast] at h
    cases h
  | some last =>
    refine ⟨last, rfl, ?_⟩
    unfold dropUnpairedBackticks
    simp only [hlast]
    rw [if_neg (by omega)]

theorem drop_odd (h : (singleRuns text).length % 2 = 1) :
    ∃ front back, text = front ++ backtick :: back ∧ dropUnpairedBackticks text = front ++ back ∧
      front.getLast? ≠ some backtick ∧ back.head? ≠ some backtick := by
  obtain ⟨last, hlast, hdrop⟩ := exists_last_run h
  obtain ⟨hmem, hone⟩ := List.mem_filter.mp (List.mem_of_getLast? hlast)
  have hsize : last.2 - last.1 = 1 := of_decide_eq_true hone
  have hempty : ([] : Str).getLast? ≠ some backtick := nofun
  obtain ⟨front, back, heq, hstart, hle, hfront, hback⟩ := mem_runs hmem rfl hempty
  have htext : text = front ++ backtick :: back := by simpa [hsize] using heq
  refine ⟨front, back, htext, ?_, hfront, hback⟩
  have hend : last.2 = front.length + 1 := by omega
  rw [hdrop, htext, hend, ← hstart]
  simp [List.drop_append]

theorem drop_concat (hend : text.getLast? ≠ some backtick)
    (h : (singleRuns (text ++ [backtick])).length % 2 = 1) :
    dropUnpairedBackticks (text ++ [backtick]) = text := by
  obtain ⟨last, hlast, hdrop⟩ := exists_last_run h
  have hruns : singleRuns (text ++ [backtick]) =
      singleRuns text ++ [(text.length, text.length + 1)] := by
    unfold singleRuns
    rw [runs_concat hend 0 0 (fun _ => rfl), List.filter_append]
    simp
  rw [hruns, List.getLast?_concat] at hlast
  cases hlast
  rw [hdrop]
  simp [List.drop_append]

section Sections

variable (clean : Str → Str)

/-- `rendered` before the backticks are looked at. -/
def cleanedSections (sections : List (Bool × Str)) : List Str :=
  sections.map fun s => if s.1 then s.2 else clean s.2

/-- The pieces at `non_fence_indexes`. -/
def proseOf (sections : List (Bool × Str)) : List Str :=
  (sections.filter (fun s => !s.1)).map fun s => clean s.2

/-- The loop that writes the prose back: all of it at the first of its places. -/
def writeBack (cleaned : Str) : List (Bool × Str) → List Str
  | [] => []
  | (true, s) :: sections => s :: writeBack cleaned sections
  | (false, _) :: sections => cleaned :: writeBack [] sections

/-- `rendered` at the end, piece by piece. -/
def renderSections (sections : List (Bool × Str)) : List Str :=
  let joined := (proseOf clean sections).flatten
  let cleaned := dropUnpairedBackticks joined
  if cleaned = joined then cleanedSections clean sections else writeBack cleaned sections

/-- Code unchanged and prose degraded; while `mayDrop` holds, a piece may lose a backtick. -/
inductive InOrder : Bool → List (Bool × Str) → List Str → Prop where
  | nil (mayDrop : Bool) : InOrder mayDrop [] []
  | code {mayDrop : Bool} {sections : List (Bool × Str)} {pieces : List Str} (s : Str)
      (rest : InOrder mayDrop sections pieces) :
      InOrder mayDrop ((true, s) :: sections) (s :: pieces)
  | prose {mayDrop : Bool} {sections : List (Bool × Str)} {pieces : List Str} (s : Str)
      (rest : InOrder mayDrop sections pieces) :
      InOrder mayDrop ((false, s) :: sections) (clean s :: pieces)
  | dropped {sections : List (Bool × Str)} {pieces : List Str} {s front back : Str}
      (cleaned : clean s = front ++ backtick :: back) (rest : InOrder false sections pieces) :
      InOrder true ((false, s) :: sections) ((front ++ back) :: pieces)

end Sections

variable {clean : Str → Str} {sections : List (Bool × Str)} {cleaned : Str} {mayDrop : Bool}
variable {pieces : List Str} {s : Str}

theorem cleanedSections_inOrder (mayDrop : Bool) (sections : List (Bool × Str)) :
    InOrder clean mayDrop sections (cleanedSections clean sections) := by
  induction sections with
  | nil => exact .nil mayDrop
  | cons s sections ih =>
    obtain ⟨isFence, s⟩ := s
    cases isFence with
    | true => exact .code s ih
    | false => exact .prose s ih

theorem proseOf_code (s : Str) : proseOf clean ((true, s) :: sections) = proseOf clean sections := rfl

theorem proseOf_prose (s : Str) :
    proseOf clean ((false, s) :: sections) = clean s :: proseOf clean sections := rfl

theorem inOrder_code_iff {piece : Str} : InOrder clean mayDrop ((true, s) :: sections) (piece :: pieces) ↔
      piece = s ∧ InOrder clean mayDrop sections pieces := by
  constructor
  · intro h
    cases h with
    | code _ rest => exact ⟨rfl, rest⟩
  · rintro ⟨rfl, rest⟩
    exact .code _ rest

theorem inOrder_prose_iff {piece : Str} : InOrder clean mayDrop ((false, s) :: sections) (piece :: pieces) ↔
      (piece = clean s ∧ InOrder clean mayDrop sections pieces) ∨
      (mayDrop = true ∧ ∃ front back, clean s = front ++ backtick :: back ∧
        piece = front ++ back ∧ InOrder clean false sections pieces) := by
  constructor
  · intro h
    cases h with
    | prose _ rest => exact .inl ⟨rfl, rest⟩
    | dropped cleaned rest => exact .inr ⟨rfl, _, _, cleaned, rfl, rest⟩
  · rintro (⟨rfl, rest⟩ | ⟨rfl, front, back, hclean, rfl, rest⟩)
    · exact .prose s rest
    · exact .dropped hclean rest

theorem inOrder_emptied_iff :
    InOrder clean false sections (writeBack [] sections) ↔ (proseOf clean sections).flatten = [] := by
  induction sections with
  | nil => exact ⟨fun _ => rfl, fun _ => .nil false⟩
  | cons s sections ih =>
    obtain ⟨isFence, s⟩ := s
    cases isFence with
    | true =>
      rw [writeBack, inOrder_code_iff, proseOf_code, ih]
      exact and_iff_right rfl
    | false =>
      rw [writeBack, inOrder_prose_iff, proseOf_prose, List.flatten_cons, List.append_eq_nil_iff, ih]
      constructor
      · rintro (⟨hs, hrest⟩ | ⟨hdrop, _⟩)
        · exact ⟨hs.symm, hrest⟩
        · cases hdrop
      · exact fun ⟨hs, hrest⟩ => .inl ⟨hs.symm, hrest⟩

theorem inOrder_emptied_drop_iff : InOrder clean true sections (writeBack [] sections) ↔
      (proseOf clean sections).flatten = [] ∨ (proseOf clean sections).flatten = [backtick] := by
  induction sections with
  | nil => exact ⟨fun _ => .inl rfl, fun _ => .nil true⟩
  | cons s sections ih =>
    obtain ⟨isFence, s⟩ := s
    cases isFence with
    | true =>
      rw [writeBack, inOrder_code_iff, proseOf_code, ih]
      exact and_iff_right rfl
    | false =>
      rw [writeBack, inOrder_prose_iff, proseOf_prose, List.flatten_cons, ih, inOrder_emptied_iff]
      constructor
      · rintro (⟨hs, hrest⟩ | ⟨_, front, back, hs, hempty, hrest⟩)
        · rw [← hs]
          exact hrest
        · obtain ⟨hfront, hback⟩ := List.append_eq_nil_iff.mp hempty.symm
          rw [hs, hfront, hback, hrest]
          exact .inr rfl
      · rintro (hnil | hone)
        · obtain ⟨hs, hrest⟩ := List.append_eq_nil_iff.mp hnil
          exact .inl ⟨hs.symm, .inl hrest⟩
        · cases hs : clean s with
          | nil =>
            rw [hs] at hone
            exact .inl ⟨rfl, .inr hone⟩
          | cons d ds =>
            rw [hs, List.cons_append, List.cons_eq_cons] at hone
            obtain ⟨hd, hds⟩ := hone
            obtain ⟨hds, hrest⟩ := List.append_eq_nil_iff.mp hds
            exact .inr ⟨rfl, [], [], by rw [hd, hds]; rfl, rfl, hrest⟩

theorem inOrder_writeBack_iff {first : Str} {later : List Str} (h : proseOf clean sections = first :: later) :
    InOrder clean true sections (writeBack cleaned sections) ↔
      (cleaned = first ∧ (later.flatten = [] ∨ later.flatten = [backtick])) ∨
      (later.flatten = [] ∧ ∃ front back, first = front ++ backtick :: back ∧
        cleaned = front ++ back) := by
  induction sections with
  | nil => cases h
  | cons s sections ih =>
    obtain ⟨isFence, s⟩ := s
    cases isFence with
    | true =>
      rw [writeBack, inOrder_code_iff, ih h]
      exact and_iff_right rfl
    | false =>
      obtain ⟨rfl, rfl⟩ := List.cons_eq_cons.mp h
      rw [writeBack, inOrder_prose_iff, inOrder_emptied_iff, inOrder_emptied_drop_iff]
      constructor
      · rintro (hkept | ⟨_, front, back, hs, hcleaned, hrest⟩)
        · exact .inl hkept
        · exact .inr ⟨hrest, front, back, hs, hcleaned⟩
      · rintro (hkept | ⟨hrest, front, back, hs, hcleaned⟩)
        · exact .inl hkept
        · exact .inr ⟨rfl, front, back, hs, hcleaned, hrest⟩

theorem renderSections_inOrder_iff (clean : Str → Str) (sections : List (Bool × Str)) :
    InOrder clean true sections (renderSections clean sections) ↔
      (singleRuns (proseOf clean sections).flatten).length % 2 = 0 ∨
      (proseOf clean sections).tail.flatten = [] ∨
      ((proseOf clean sections).tail.flatten = [backtick] ∧
        ((proseOf clean sections).headD []).getLast? ≠ some backtick) := by
  unfold renderSections
  cases Nat.mod_two_eq_zero_or_one (singleRuns (proseOf clean sections).flatten).length with
  | inl heven =>
    simp only
    rw [if_pos (drop_even heven)]
    exact iff_of_true (cleanedSections_inOrder true sections) (.inl heven)
  | inr hodd =>
    obtain ⟨front, back, hjoined, hdrop, hfront, hback⟩ := drop_odd hodd
    have hchanged : front ++ back ≠ front ++ backtick :: back := by
      intro heq
      have hlen := congrArg List.length heq
      rw [List.length_append, List.length_append, List.length_cons] at hlen
      omega
    simp only
    rw [hdrop, if_neg (hjoined ▸ hchanged)]
    cases hprose : proseOf clean sections with
    | nil =>
      rw [hprose] at hjoined
      exact absurd (congrArg List.length hjoined) (by simp)
    | cons first later =>
      rw [inOrder_writeBack_iff hprose, ← hprose, hodd, hprose, List.tail_cons, List.headD_cons]
      rw [hprose, List.flatten_cons] at hjoined hodd hdrop
      constructor
      · rintro (⟨hcleaned, hrest | hrest⟩ | ⟨hrest, _⟩)
        · exact .inr (.inl hrest)
        · refine .inr (.inr ⟨hrest, ?_⟩)
          rw [hrest, ← hcleaned, List.append_assoc, List.append_cancel_left_eq] at hjoined
          cases back with
          | nil => rwa [← hcleaned, List.append_nil]
          | cons d ds =>
            rw [List.cons_append, List.cons_eq_cons] at hjoined
            exact absurd (congrArg some hjoined.1) hback
        · exact .inr (.inl hrest)
      · rintro (heven | hrest | ⟨hrest, hend⟩)
        · cases heven
        · rw [hrest, List.append_nil] at hjoined
          exact .inr ⟨hrest, front, back, hjoined, rfl⟩
        · rw [hrest] at hodd hdrop
          rw [drop_concat hend hodd] at hdrop
          exact .inl ⟨hdrop.symm, .inr hrest⟩

def prose (text : Str) : List Str := proseOf cleanLatex (splitFencedSections text)

def renderedSections (text : Str) : List Str := renderSections cleanLatex (splitFencedSections text)

def degradeMath (text : Str) : Str := (renderedSections text).flatten

/-- The sections come out in order exactly when the single backticks pair up, or no prose is
left after the first but, perhaps, the backtick that goes. -/
theorem degradeMath_inOrder_iff (text : Str) :
    InOrder cleanLatex true (splitFencedSections text) (renderedSections text) ↔
      (singleRuns (prose text).flatten).length % 2 = 0 ∨ (prose text).tail.flatten = [] ∨
      ((prose text).tail.flatten = [backtick] ∧ ((prose text).headD []).getLast? ≠ some backtick) :=
  renderSections_inOrder_iff cleanLatex (splitFencedSections text)

/-- The prose after a code block comes out before it, whatever the pieces. -/
theorem degradeMath_out_of_order : ¬ ∃ pieces, InOrder cleanLatex true
        (splitFencedSections (lit "a\n```\ncode\n```\n`b")) pieces ∧
      degradeMath (lit "a\n```\ncode\n```\n`b") = pieces.flatten := by
  rintro ⟨pieces, horder, hout⟩
  have hsections : splitFencedSections (lit "a\n```\ncode\n```\n`b") =
      [(false, lit "a\n"), (true, lit "```\n"), (true, lit "code\n"), (true, lit "```\n"),
        (false, lit "`b")] := by decide
  have hrendered : degradeMath (lit "a\n```\ncode\n```\n`b") = lit "a\nb```\ncode\n```\n" := by
    decide +kernel
  have hclean : cleanLatex (lit "a\n") = lit "a\n" := by decide +kernel
  rw [hsections] at horder
  rw [hrendered] at hout
  cases pieces with
  | nil => cases horder
  | cons first pieces =>
    cases pieces with
    | nil =>
      obtain ⟨_, hrest⟩ | ⟨_, _, _, _, _, hrest⟩ := inOrder_prose_iff.mp horder
      · cases hrest
      · cases hrest
    | cons fence pieces =>
      obtain ⟨hfirst, hrest⟩ | ⟨_, front, back, hs, _⟩ := inOrder_prose_iff.mp horder
      · rw [hfirst, hclean, (inOrder_code_iff.mp hrest).1] at hout
        have hthird : some (cp 'b') = some backtick := congrArg (fun t => t[2]?) hout
        exact absurd hthird (by decide)
      · rw [hclean] at hs
        have hmem : backtick ∈ lit "a\n" := hs ▸ by simp
        exact absurd hmem (by decide)

end Kirara.MathDegrading
