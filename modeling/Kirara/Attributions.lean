import Kirara.BlankRuns
import Kirara.FencedPieces

namespace Kirara.Attributions

open Kirara.CodePoints Kirara.Fences Kirara.FenceScanners Kirara.FenceAgreement Kirara.FencedPieces
open Kirara.StructuredText Kirara.CopyableCode Kirara.Patterns Kirara.BlankRuns

section Expressions

/-- Letters as `re.IGNORECASE` compares them. -/
def foldCase (c : CodePoint) : CodePoint :=
  if c.val = 0x130 ∨ c.val = 0x131 then cp 'i'
  else if c.val = 0x17f then cp 's'
  else if c.val = 0x212a then cp 'k'
  else if h : 0x41 ≤ c.val ∧ c.val ≤ 0x5a then ⟨c.val + 32, by omega⟩
  else c

def word (s : String) : Pattern CodePoint :=
  s.toList.foldr (fun c p => .seq (.one fun d => foldCase d == foldCase (cp c)) p) (.next fun _ => true)

def anyOf : List String → Pattern CodePoint
  | [] => .next fun _ => false
  | s :: ss => .alt (word s) (anyOf ss)

def seqs (ps : List (Pattern CodePoint)) : Pattern CodePoint := ps.foldr .seq (.next fun _ => true)

/-- `\s*`. -/
def spaces : Pattern CodePoint := .many (.one isSpace)

/-- `\s+`. -/
def spaces1 : Pattern CodePoint := Pattern.some_ (.one isSpace)

def without (chars : String) : Pattern CodePoint := .one fun c => !(lit chars).contains c

/-- `[^\n]*`, and the lazy `[^\n]*?` where only counts whether there is a match. -/
def anything : Pattern CodePoint := .many (without "\n")

/-- `$`, on lines, which have no newline. -/
def lineEnd : Pattern CodePoint := .next Option.isNone

/-- `\b`. -/
def wordBoundary (isWord : CodePoint → Bool) : Pattern CodePoint :=
  .alt (.seq (.before fun c => c.any isWord) (.next fun c => !c.any isWord))
    (.seq (.before fun c => !c.any isWord) (.next fun c => c.any isWord))

variable (isWord : CodePoint → Bool)

def standalonePatterns : List (Pattern CodePoint) :=
  [seqs [(anyOf ["本", "该", "此", "以上"]).optional, spaces,
      (anyOf ["回复", "内容", "答复", "回答", "文本", "结果"]).optional, spaces, anyOf ["由", "系", "为"], spaces,
      anyOf ["AI", "Ai", "ai", "人工智能", "大模型", "语言模型", "机器人"], anything,
      anyOf ["生成", "撰写", "提供", "产生"], anything, lineEnd],
    seqs [word "我", (word "只").optional, anyOf ["是", "作为"], spaces, (anyOf ["一个", "一名", "一台"]).optional, spaces,
      anyOf ["AI", "Ai", "ai", "人工智能", "大语言模型", "语言模型", "大模型", "机器人"], anything, lineEnd],
    seqs [anyOf ["this", "the"], spaces1, anyOf ["response", "answer", "reply", "text", "content"],
      wordBoundary isWord, anything, wordBoundary isWord, word "generated", wordBoundary isWord, anything,
      wordBoundary isWord, anyOf ["ai", "artificial intelligence", "language model"], wordBoundary isWord,
      anything, lineEnd],
    seqs [word "i", .alt (word "'m") (.seq spaces1 (word "am")), spaces1, (.seq (word "just") spaces1 : Pattern _).optional,
      word "a", (word "n").optional, spaces1, anyOf ["ai", "artificial intelligence", "language model"],
      wordBoundary isWord, anything, lineEnd]]

def prefixPatterns : List (Pattern CodePoint) :=
  [seqs [word "作为", (anyOf ["一个", "一名", "一台"]).optional, spaces,
      anyOf ["AI", "Ai", "ai", "人工智能", "大语言模型", "语言模型", "大模型"], .many (without "，,。\n"),
      .one (fun c => (lit "，,、").contains c), spaces],
    seqs [word "as", spaces1, word "a", (word "n").optional, spaces1,
      anyOf ["ai", "artificial intelligence", "language model"], .many (without ",\n"), word ",", spaces]]

end Expressions

section Lines

variable (isWord : CodePoint → Bool)

/-- `pattern.sub("", text, count=1)`, for a match at the start only. -/
def removeStart (p : Pattern CodePoint) (t : Str) : Str :=
  match (p.ends ⟨none, t⟩).head? with
  | none => t
  | some place => place.rest

def isStandalone (text : Str) : Bool :=
  (standalonePatterns isWord).any (fun p => !(p.ends ⟨none, text⟩).isEmpty)

def behindOpening (text : Str) : Option Str :=
  prefixPatterns.findSome? (fun p =>
    let replaced := removeStart p text
    if replaced ≠ text ∧ stripped replaced ≠ [] then some replaced else none)

def stripSentence (line : Str) : Str :=
  let text := stripped line
  if text = [] then line
  else if isStandalone isWord text then []
  else
    match behindOpening text with
    | some replaced => stripped replaced
    | none => line

/-- `_FENCE_PATTERN`: `^\s*` and three backticks. -/
def isFence (line : Str) : Bool := (lit "```").isPrefixOf (line.dropWhile isSpace)

def stripLines : Bool → List Str → List Str
  | _, [] => []
  | inCode, line :: lines =>
    if isFence line then line :: stripLines (!inCode) lines
    else if inCode then line :: stripLines inCode lines
    else stripSentence isWord line :: stripLines inCode lines

def collapseBlankRuns (lines : List Str) : List Str := collapse isBlankText lines

def stripAiAttribution (enabled : Bool) (text : Str) : Str :=
  if !enabled || (stripped text).isEmpty then text
  else join (lit "\n") (collapseBlankRuns (stripLines isWord false (splitNewline text)))

end Lines

theorem stripped_eq_self {t : Str} (hfirst : ∀ c ∈ t.head?, isSpace c = false) (hlast : ∀ c ∈ t.getLast?, isSpace c = false) :
    stripped t = t := by
  have hdrop : t.dropWhile isSpace = t := by
    cases t with
    | nil => rfl
    | cons c cs => exact List.dropWhile_cons_of_neg (by simp [hfirst c rfl])
  rw [stripped, hdrop]
  apply List.rdropWhile_eq_self_iff.mpr
  intro hne
  simp [hlast _ (List.getLast?_eq_getLast_of_ne_nil hne)]

theorem getLast?_stripped (t : Str) : ∀ c ∈ (stripped t).getLast?, isSpace c = false := by
  intro c hc
  have hne : stripped t ≠ [] := by
    rintro hnil
    simp [hnil] at hc
  have hlast : ¬ isSpace ((stripped t).getLast hne) := List.rdropWhile_last_not isSpace (t.dropWhile isSpace) hne
  rw [List.getLast?_eq_getLast_of_ne_nil hne] at hc
  cases hc
  simpa using hlast

theorem stripped_split (t : Str) : t.takeWhile isSpace ++ stripped t ++ (t.dropWhile isSpace).rtakeWhile isSpace = t := by
  rw [List.append_assoc, stripped, List.rdropWhile_append_rtakeWhile, List.takeWhile_append_dropWhile]

theorem stripped_eq_nil_iff {t : Str} : stripped t = [] ↔ ∀ c ∈ t, isSpace c := by
  rw [stripped, List.rdropWhile_eq_nil_iff]
  constructor
  · intro h c hc
    rw [← @List.takeWhile_append_dropWhile _ isSpace t] at hc
    exact (List.mem_append.mp hc).elim List.mem_takeWhile_imp (h c)
  · exact fun h c hc => h c ((List.dropWhile_sublist isSpace).subset hc)

theorem stripped_subset (t : Str) : ∀ c ∈ stripped t, c ∈ t := by
  intro c hc
  rw [← stripped_split t]
  simp [hc]

/-- A match that is preferred leaves no space at its end. -/
def Trims (p : Pattern CodePoint) : Prop :=
  ∀ s t, (p.ends s).head? = some t → ∀ c ∈ t.rest.head?, isSpace c = false

theorem trims_spaces : Trims (seqs [spaces]) := by
  intro s t h c hc
  have hends : (seqs [spaces]).ends s = spaces.ends s := by
    have hskip : (fun u : Place CodePoint => (Pattern.next fun _ => true).ends u) = fun u => [u] := rfl
    change (spaces.ends s).flatMap (fun u => (Pattern.next fun _ => true).ends u) = spaces.ends s
    rw [hskip, List.flatMap_singleton']
  rw [hends] at h
  obtain ⟨last, rest⟩ := s
  have hstop : ∀ c, (rest.dropWhile isSpace).head? = some c → isSpace c = false := by
    intro d hd
    have hne : rest.dropWhile isSpace ≠ [] := by
      rintro hnil
      simp [hnil] at hd
    have hhead := List.head_dropWhile_not isSpace hne
    rw [List.head?_eq_some_head hne] at hd
    cases hd
    exact hhead
  obtain ⟨last', hlead⟩ := repeatEnds_one (fun d hd => List.mem_takeWhile_imp hd) hstop
    (List.takeWhile_sublist isSpace).length_le last
  rw [List.takeWhile_append_dropWhile] at hlead
  cases hlead.symm.trans h
  exact hstop c hc

theorem trims_seq (p : Pattern CodePoint) {q : Pattern CodePoint} (h : Trims q) : Trims (.seq p q) := by
  intro s t ht
  rw [Pattern.ends, List.head?_flatMap] at ht
  obtain ⟨u, _, hu⟩ := List.exists_of_findSome?_eq_some ht
  exact h u t hu

theorem trims_seqs {ps : List (Pattern CodePoint)} (h : ps.getLast? = some spaces) : Trims (seqs ps) := by
  induction ps with
  | nil => cases h
  | cons p ps ih =>
    cases ps with
    | nil =>
      cases h
      exact trims_spaces
    | cons q ps => exact trims_seq p (ih h)

theorem trims_prefixPatterns {p : Pattern CodePoint} (h : p ∈ prefixPatterns) : Trims p := by
  cases h with
  | head => exact trims_seqs rfl
  | tail _ h =>
    cases h with
    | head => exact trims_seqs rfl
    | tail _ h => cases h

theorem removeStart_suffix (p : Pattern CodePoint) (t : Str) : removeStart p t <:+ t := by
  unfold removeStart
  split
  · exact List.suffix_rfl
  · next place hplace => exact p.ends_suffix (List.mem_of_mem_head? hplace)

theorem behindOpening_spec {line rest : Str} (h : behindOpening (stripped line) = some rest) :
    rest <:+ stripped line ∧ rest ≠ stripped line ∧ rest ≠ [] ∧ stripped rest = rest := by
  obtain ⟨p, hp, hrest⟩ := List.exists_of_findSome?_eq_some h
  dsimp only at hrest
  split at hrest
  · next hcond =>
    cases hrest
    obtain ⟨hne, hstrip⟩ := hcond
    have hsuffix := removeStart_suffix p (stripped line)
    have hnil : removeStart p (stripped line) ≠ [] := by
      intro hnil
      exact hstrip (by rw [hnil]; rfl)
    refine ⟨hsuffix, hne, hnil, stripped_eq_self ?_ ?_⟩
    · unfold removeStart at hne ⊢
      split at hne
      · exact absurd rfl hne
      · next place hplace => exact trims_prefixPatterns hp _ _ hplace
    · intro c hc
      obtain ⟨before, hsplit⟩ := hsuffix
      apply getLast?_stripped line c
      rw [← hsplit, List.getLast?_append, hc]
      rfl
  · cases hrest

section Findings

variable (isWord : CodePoint → Bool)

def isSentence (line : Str) : Bool := !(stripped line).isEmpty && isStandalone isWord (stripped line)

def opening (line : Str) : Option Str :=
  if stripped line = [] ∨ isStandalone isWord (stripped line) then none else behindOpening (stripped line)

variable {isWord} {line : Str}

theorem stripSentence_eq (line : Str) : stripSentence isWord line = if isSentence isWord line then []
    else match opening isWord line with
      | some rest => rest
      | none => line := by
  unfold stripSentence isSentence opening
  by_cases hblank : stripped line = []
  · simp [hblank]
  by_cases hstandalone : isStandalone isWord (stripped line)
  · simp [hblank, hstandalone]
  simp only [hblank, hstandalone, Bool.false_eq_true, if_false, or_self, Bool.and_false]
  cases hbehind : behindOpening (stripped line) with
  | none => rfl
  | some rest => exact (behindOpening_spec hbehind).2.2.2

theorem opening_spec {rest : Str} (h : opening isWord line = some rest) :
    rest <:+ stripped line ∧ rest ≠ stripped line ∧ rest ≠ [] ∧ stripped rest = rest := by
  unfold opening at h
  split at h
  · cases h
  · exact behindOpening_spec h

theorem not_isBlankText_of_isSentence (h : isSentence isWord line) : ¬ isBlankText line := by
  simp only [isSentence, Bool.and_eq_true, Bool.not_eq_true'] at h
  simp [isBlankText, h.1]

theorem not_isBlankText_of_opening {rest : Str} (h : opening isWord line = some rest) :
    ¬ isBlankText line ∧ ¬ isBlankText rest := by
  obtain ⟨hsuffix, _, hnil, hstrip⟩ := opening_spec h
  constructor
  · intro hblank
    rw [isBlankText, List.isEmpty_iff] at hblank
    rw [hblank, List.suffix_nil] at hsuffix
    exact hnil hsuffix
  · rw [isBlankText, hstrip, List.isEmpty_iff]
    exact hnil

theorem stripSentence_eq_self_iff :
    stripSentence isWord line = line ↔ isSentence isWord line = false ∧ opening isWord line = none := by
  rw [stripSentence_eq]
  by_cases hsentence : isSentence isWord line
  · simp only [hsentence, if_true, Bool.true_eq_false, false_and, iff_false]
    rintro rfl
    exact not_isBlankText_of_isSentence hsentence rfl
  · simp only [hsentence, Bool.false_eq_true, if_false, true_and]
    cases hopening : opening isWord line with
    | none => simp
    | some rest =>
      simp only [reduceCtorEq, iff_false]
      rintro rfl
      obtain ⟨_, hne, _, hstrip⟩ := opening_spec hopening
      exact hne hstrip.symm

theorem stripSentence_of_blank (h : isBlankText line) : stripSentence isWord line = line := by
  rw [isBlankText, List.isEmpty_iff] at h
  unfold stripSentence
  simp [h]

theorem newline_not_mem_stripSentence (h : newline ∉ line) : newline ∉ stripSentence isWord line := by
  rw [stripSentence_eq]
  split
  · exact List.not_mem_nil
  split
  · next rest hopening => exact fun hmem => h (stripped_subset line _ ((opening_spec hopening).1.subset hmem))
  · exact h

end Findings

variable {isWord : CodePoint → Bool} {line : Str} {c : CodePoint}

theorem nothing_at_mark (isWord : CodePoint → Bool) (hc : c = backtick ∨ c = tilde) (cs : Str) :
    isStandalone isWord (c :: cs) = false ∧ behindOpening (c :: cs) = none := by
  have hends : ∀ p ∈ prefixPatterns, p.ends ⟨none, c :: cs⟩ = [] := by
    intro p hp
    cases hc with
    | inl hc =>
      subst hc
      cases hp with
      | head => rfl
      | tail _ hp =>
        cases hp with
        | head => rfl
        | tail _ hp => cases hp
    | inr hc =>
      subst hc
      cases hp with
      | head => rfl
      | tail _ hp =>
        cases hp with
        | head => rfl
        | tail _ hp => cases hp
  constructor
  · cases hc with
    | inl hc =>
      subst hc
      rfl
    | inr hc =>
      subst hc
      rfl
  · apply List.findSome?_eq_none_iff.mpr
    intro p hp
    simp [removeStart, hends p hp]

theorem stripSentence_of_mark {cs : Str} (hc : c = backtick ∨ c = tilde)
    (h : line.dropWhile isSpace = c :: cs) : stripSentence isWord line = line := by
  have hspace : ¬ isSpace c := by
    cases hc with
    | inl hc => exact hc ▸ by decide
    | inr hc => exact hc ▸ by decide
  have hstrip : stripped line = c :: cs.rdropWhile isSpace := by
    rw [stripped, h]
    exact rdropWhile_append_solid hspace [] cs
  rw [stripSentence_eq_self_iff, isSentence, opening, hstrip]
  obtain ⟨hstandalone, hbehind⟩ := nothing_at_mark isWord hc (cs.rdropWhile isSpace)
  simp [hstandalone, hbehind]

theorem stripSentence_of_isFence (h : isFence line) : stripSentence isWord line = line := by
  obtain ⟨cs, hcs⟩ := List.isPrefixOf_iff_prefix.mp h
  exact stripSentence_of_mark (.inl rfl) hcs.symm

theorem stripSentence_of_fenceStart (h : (fenceStart line).isSome) : stripSentence isWord line = line := by
  unfold fenceStart at h
  split at h
  · cases h
  · next c cs hdrop =>
    split at h
    · next hmark =>
      simp only [Bool.or_eq_true, beq_iff_eq] at hmark
      exact stripSentence_of_mark hmark hdrop
    · cases h

theorem not_isBlankText_of_mark {cs : Str} (h : line.dropWhile isSpace = c :: cs) : ¬ isBlankText line := by
  rw [isBlankText, List.isEmpty_iff, stripped_eq_nil_iff, ← List.dropWhile_eq_nil_iff, h]
  exact List.cons_ne_nil c cs

theorem not_isBlankText_of_isFence (h : isFence line) : ¬ isBlankText line := by
  obtain ⟨cs, hcs⟩ := List.isPrefixOf_iff_prefix.mp h
  exact not_isBlankText_of_mark hcs.symm

theorem not_isBlankText_of_fenceStart (h : (fenceStart line).isSome) : ¬ isBlankText line := by
  unfold fenceStart at h
  split at h
  · cases h
  · next hdrop => exact not_isBlankText_of_mark hdrop

theorem fenceStart_of_closesFence {start : Str} (h : closesFence line start) : (fenceStart line).isSome := by
  unfold closesFence at h
  split at h
  · cases h
  · next hsome => simp [hsome]

theorem fenceStart_of_fenceMarker (h : (fenceMarker line).isSome) : (fenceStart line).isSome := by
  simpa [fenceMarker] using h

end Kirara.Attributions
