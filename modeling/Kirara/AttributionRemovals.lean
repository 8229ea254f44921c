import Kirara.Attributions
import Kirara.Channels

namespace Kirara.AttributionRemovals

open Kirara.CodePoints Kirara.Fences Kirara.FenceScanners Kirara.FenceAgreement Kirara.FencedPieces
open Kirara.StructuredText Kirara.CopyableCode Kirara.BlankRuns Kirara.Attributions

/-- A line, whether it is in a fenced code block, and whether the loop thinks so. -/
structure Item where
  line : Str
  fenced : Bool
  code : Bool

def nextOpened (opened : Option Str) (line : Str) : Option Str :=
  match opened with
  | none => fenceMarker line
  | some start => if closesFence line start then none else some start

def itemsFrom : Option Str → Bool → List Str → List Item
  | _, _, [] => []
  | opened, inCode, line :: lines =>
    ⟨line, opened.isSome || (fenceMarker line).isSome, inCode || isFence line⟩ ::
      itemsFrom (nextOpened opened line) (inCode != isFence line) lines

def items (text : Str) : List Item := itemsFrom none false (splitNewline text)

section Specification

variable (isWord : CodePoint → Bool)

def Item.sentence (x : Item) : Bool := !x.fenced && isSentence isWord x.line

/-- The line as it stays, without its attribution prefix unless it is in a code block. -/
def Item.kept (x : Item) : Str :=
  if x.fenced then x.line
  else match opening isWord x.line with
    | some rest => x.line.takeWhile isSpace ++ rest ++ (x.line.dropWhile isSpace).rtakeWhile isSpace
    | none => x.line

def Item.matched (x : Item) : Bool := !x.fenced && (isSentence isWord x.line || (opening isWord x.line).isSome)

def Item.void (x : Item) : Bool := x.sentence isWord || isBlankText x.line

/-- What may be left of the blank lines and sentences between lines that stay, or at an end. -/
def Allowed (atEnd : Bool) (gap : List Item) (out : List Str) : Prop :=
  if (∃ x ∈ gap, x.sentence isWord) ∨ atEnd = true ∧ ∀ x ∈ gap, x.fenced = false then
    out.Sublist ((gap.filter (fun x => !x.sentence isWord)).map Item.line)
  else out = gap.map Item.line

def ClearedFrom : List (Item × List Item) → List Str → Prop
  | [], out => out = []
  | [p], out => ∃ gap, Allowed isWord true p.2 gap ∧ out = p.1.kept isWord :: gap
  | p :: q :: ps, out =>
    ∃ gap rest, Allowed isWord false p.2 gap ∧ ClearedFrom (q :: ps) rest ∧ out = p.1.kept isWord :: (gap ++ rest)

/-- Sentences go, prefixes are cut, other lines stay, and blank lines may go. -/
def Cleared (items : List Item) (out : List Str) : Prop :=
  ∃ gap rest, Allowed isWord true (parts (Item.void isWord) items).1 gap ∧
    ClearedFrom isWord (parts (Item.void isWord) items).2 rest ∧ out = gap ++ rest

structure RemovesAttribution (text : Str) : Prop where
  cleared : ∃ out, Cleared isWord (items text) out ∧ stripAiAttribution isWord true text = join (lit "\n") out
  untouched : (∀ x ∈ items text, x.matched isWord = false) → stripAiAttribution isWord true text = text
  settled : stripAiAttribution isWord true (stripAiAttribution isWord true text) = stripAiAttribution isWord true text

def staying (items : List Item) : List Str := (items.filter (fun x => !x.sentence isWord)).map (Item.kept isWord)

/-- One blank line at most, or where a sentence is dropped one that can stand for the gap. -/
def GapKept (gap : List Item) : Prop :=
  if ∃ x ∈ gap, x.sentence isWord then
    (∀ x ∈ gap.head?, x.sentence isWord = false) ∨ ∃ x ∈ gap, x.sentence isWord = false ∧ x.line = []
  else gap.length ≤ 1

structure Spared (text : Str) : Prop where
  /-- Fences and loop agree on what is code, but for lines without attribution. -/
  undisputed : ∀ x ∈ items text, x.fenced = x.code ∨ stripSentence isWord x.line = x.line
  /-- A line that loses a prefix has no spaces around it. -/
  trimmed : ∀ x ∈ items text, x.fenced = false → (opening isWord x.line).isSome → stripped x.line = x.line
  gaps : ∀ p ∈ (parts (Item.void isWord) (items text)).2.dropLast, GapKept isWord p.2
  /-- No blank line ends a code block that is not closed. -/
  closed : ∀ p ∈ (parts (Item.void isWord) (items text)).2.getLast?,
    (∃ x ∈ p.2, x.sentence isWord) ∨ ∀ x ∈ p.2, x.fenced = false
  /-- Where no line matches, the text neither begins nor ends with a blank line. -/
  ends : (∀ x ∈ items text, x.matched isWord = false) → (parts (Item.void isWord) (items text)).1 = [] ∧
    ∀ p ∈ (parts (Item.void isWord) (items text)).2.getLast?, p.2 = []
  /-- In the lines that stay there is no more attribution to be found. -/
  settled : ∀ x ∈ itemsFrom none false (staying isWord (items text)),
    x.code = true ∨ stripSentence isWord x.line = x.line

end Specification

section Scanning

variable {isWord : CodePoint → Bool}

def Item.actual (isWord : CodePoint → Bool) (x : Item) : Str := if x.code then x.line else stripSentence isWord x.line

/-- What is to be made of it, a blank line for a sentence. -/
def Item.expected (isWord : CodePoint → Bool) (x : Item) : Str := if x.sentence isWord then [] else x.kept isWord

theorem stripLines_eq (lines : List Str) (opened : Option Str) (inCode : Bool) :
    stripLines isWord inCode lines = (itemsFrom opened inCode lines).map (Item.actual isWord) := by
  induction lines generalizing opened inCode with
  | nil => rfl
  | cons line lines ih =>
    rw [itemsFrom, List.map_cons, ← ih, stripLines]
    by_cases hfence : isFence line
    · simp [hfence, Item.actual]
    · cases inCode <;> simp [hfence, Item.actual]

theorem map_line_itemsFrom (lines : List Str) (opened : Option Str) (inCode : Bool) :
    (itemsFrom opened inCode lines).map Item.line = lines := by
  induction lines generalizing opened inCode with
  | nil => rfl
  | cons line lines ih => rw [itemsFrom, List.map_cons, ih]

end Scanning

section Items

variable {isWord : CodePoint → Bool} {x : Item}

theorem kept_of_sentence_false (h : x.sentence isWord = false) : x.expected isWord = x.kept isWord := by
  simp [Item.expected, h]

theorem cut_length {line rest : Str} :
    line.takeWhile isSpace ++ rest ++ (line.dropWhile isSpace).rtakeWhile isSpace = rest ↔ stripped line = line := by
  have hsplit := stripped_split line
  constructor
  · intro h
    have hlen := congrArg List.length h
    simp only [List.length_append] at hlen
    have hfront : line.takeWhile isSpace = [] := List.eq_nil_of_length_eq_zero (by omega)
    have hback : (line.dropWhile isSpace).rtakeWhile isSpace = [] := List.eq_nil_of_length_eq_zero (by omega)
    rw [hfront, hback, List.append_nil, List.nil_append] at hsplit
    exact hsplit
  · intro h
    have hlen := congrArg List.length hsplit
    rw [h] at hlen
    simp only [List.length_append] at hlen
    have hfront : line.takeWhile isSpace = [] := List.eq_nil_of_length_eq_zero (by omega)
    have hback : (line.dropWhile isSpace).rtakeWhile isSpace = [] := List.eq_nil_of_length_eq_zero (by omega)
    rw [hfront, hback, List.append_nil, List.nil_append]

theorem length_cut_lt {line rest : Str} (h : opening isWord line = some rest) :
    (line.takeWhile isSpace ++ rest ++ (line.dropWhile isSpace).rtakeWhile isSpace).length < line.length := by
  obtain ⟨hsuffix, hne, _, _⟩ := opening_spec h
  have hshorter : rest.length < (stripped line).length :=
    lt_of_le_of_ne hsuffix.length_le (fun he => hne (hsuffix.eq_of_length he))
  have hlen := congrArg List.length (stripped_split line)
  simp only [List.length_append] at hlen ⊢
  omega

theorem actual_eq_expected_iff : x.actual isWord = x.expected isWord ↔
    (x.fenced = x.code ∨ stripSentence isWord x.line = x.line) ∧
      (x.fenced = false → (opening isWord x.line).isSome → stripped x.line = x.line) := by
  obtain ⟨line, fenced, code⟩ := x
  cases fenced with
  | true =>
    cases code with
    | true => simp [Item.actual, Item.expected, Item.sentence, Item.kept]
    | false => simp [Item.actual, Item.expected, Item.sentence, Item.kept]
  | false =>
    by_cases hsentence : isSentence isWord line
    · have hnone : opening isWord line = none := by
        simp only [isSentence, Bool.and_eq_true] at hsentence
        simp [opening, hsentence.2]
      have hchanged : stripSentence isWord line ≠ line := by
        intro h
        simp [stripSentence_eq_self_iff, hsentence] at h
      have hempty : stripSentence isWord line = [] := by rw [stripSentence_eq, if_pos hsentence]
      cases code with
      | true =>
        have hne : line ≠ [] := fun h => hchanged (hempty.trans h.symm)
        simp [Item.actual, Item.expected, Item.sentence, hsentence, hchanged, hne]
      | false => simp [Item.actual, Item.expected, Item.sentence, hsentence, hempty, hnone]
    · cases hopening : opening isWord line with
      | none =>
        have hplain : stripSentence isWord line = line := by rw [stripSentence_eq, if_neg hsentence, hopening]
        simp [Item.actual, Item.expected, Item.sentence, Item.kept, hsentence, hopening, hplain]
      | some rest =>
        have hcut : stripSentence isWord line = rest := by rw [stripSentence_eq, if_neg hsentence, hopening]
        have hchanged : stripSentence isWord line ≠ line := by
          intro h
          simp [stripSentence_eq_self_iff, hopening] at h
        cases code with
        | true =>
          have hne : line ≠ line.takeWhile isSpace ++ rest ++ (line.dropWhile isSpace).rtakeWhile isSpace :=
            fun h => absurd (congrArg List.length h) (length_cut_lt hopening).ne'
          simp only [List.append_assoc] at hne
          simp [Item.actual, Item.expected, Item.sentence, Item.kept, hsentence, hopening, hchanged, hne]
        | false =>
          simp only [Item.actual, Item.expected, Item.sentence, Item.kept, hsentence, hopening, hcut,
            Bool.false_eq_true, if_false, Bool.and_false, Option.isSome_some, true_or, true_and, forall_const]
          rw [← @cut_length line rest]
          exact eq_comm

theorem isBlankText_expected : isBlankText (x.expected isWord) = x.void isWord := by
  unfold Item.expected Item.void
  by_cases hsentence : x.sentence isWord
  · simp [hsentence]
    rfl
  · simp only [hsentence, Bool.false_eq_true, if_false, Bool.false_or]
    unfold Item.kept
    split
    · rfl
    split
    · next rest hopening =>
      obtain ⟨hline, hrest⟩ := not_isBlankText_of_opening hopening
      rw [Bool.eq_false_iff.mpr hline]
      apply Bool.eq_false_iff.mpr
      intro hall
      apply hrest
      rw [isBlankText, List.isEmpty_iff, stripped_eq_nil_iff] at hall ⊢
      exact fun c hc => hall c (by simp [hc])
    · rfl

end Items

section Agreement

variable {isWord : CodePoint → Bool}

theorem expected_of_unchanged {x : Item} (h : stripSentence isWord x.line = x.line) :
    x.actual isWord = x.line ∧ x.expected isWord = x.line := by
  obtain ⟨hsentence, hopening⟩ := stripSentence_eq_self_iff.mp h
  constructor
  · simp [Item.actual, h]
  · simp [Item.expected, Item.sentence, Item.kept, hsentence, hopening]

/-- Where one rendering copies the lines until a mark, another has none of them left over. -/
theorem not_ahead {opened : Option Str} {inCode : Bool} {f g : Item → Str} {M : Str → Prop}
    (hcopied : ∀ line, f ⟨line, opened.isSome || (fenceMarker line).isSome, inCode || isFence line⟩ = line)
    (hsame : ∀ x : Item, stripSentence isWord x.line = x.line → g x = x.line)
    (hmark : ∀ line, M line → stripSentence isWord line = line ∧ ¬ isBlankText line)
    (hstay : ∀ line, ¬ M line → nextOpened opened line = opened ∧ (inCode != isFence line) = inCode)
    (lines queue : List Str) (hne : queue ≠ []) (hqueue : ∀ s ∈ queue, ¬ M s)
    (h : queue ++ solids isBlankText ((itemsFrom opened inCode lines).map f) =
      solids isBlankText ((itemsFrom opened inCode lines).map g)) : False := by
  induction lines generalizing queue with
  | nil => exact hne (List.append_eq_nil_iff.mp h).1
  | cons line lines ih =>
    rw [itemsFrom, List.map_cons, List.map_cons, hcopied] at h
    by_cases hblank : isBlankText line
    · obtain ⟨hopened, hcode⟩ := hstay line (fun hm => (hmark line hm).2 hblank)
      rw [hsame _ (stripSentence_of_blank hblank), solids_cons_blank hblank, solids_cons_blank hblank, hopened, hcode] at h
      exact ih queue hne hqueue h
    · by_cases hm : M line
      · rw [hsame _ (hmark line hm).1] at h
        exact hqueue line (mem_queue hne hblank h) hm
      · obtain ⟨later, hlater, hmem, h⟩ := queue_step hne hblank h
        obtain ⟨hopened, hcode⟩ := hstay line hm
        rw [hopened, hcode] at h
        exact ih later hlater (fun s hs => (hmem s hs).elim (hqueue s) (fun he => he ▸ hm)) h

theorem mark_unchanged {line : Str} (h : isFence line = true ∨ (fenceStart line).isSome) :
    stripSentence isWord line = line ∧ ¬ isBlankText line :=
  h.elim (fun hf => ⟨stripSentence_of_isFence hf, not_isBlankText_of_isFence hf⟩)
    (fun hs => ⟨stripSentence_of_fenceStart hs, not_isBlankText_of_fenceStart hs⟩)

variable (lines : List Str)

theorem expected_not_ahead {start line : Str} (hfence : isFence line = false)
    (hcloses : closesFence line start = false)
    (h : line :: solids isBlankText ((itemsFrom (some start) false lines).map (Item.expected isWord)) =
      solids isBlankText ((itemsFrom (some start) false lines).map (Item.actual isWord))) : False := by
  refine not_ahead (M := fun s => isFence s = true ∨ closesFence s start = true) (fun _ => rfl)
    (fun _ hx => (expected_of_unchanged hx).1) (fun s hs => mark_unchanged (hs.imp id fenceStart_of_closesFence))
    (fun s hs => ?_) lines [line] (by simp) (by simp [hfence, hcloses]) h
  simp only [not_or, Bool.not_eq_true] at hs
  simp [nextOpened, hs]

theorem actual_not_ahead {line : Str} (hfence : isFence line = false) (hmarker : fenceMarker line = none)
    (h : line :: solids isBlankText ((itemsFrom none true lines).map (Item.actual isWord)) =
      solids isBlankText ((itemsFrom none true lines).map (Item.expected isWord))) : False := by
  refine not_ahead (M := fun s => isFence s = true ∨ (fenceMarker s).isSome = true) (fun _ => rfl)
    (fun _ hx => (expected_of_unchanged hx).2) (fun s hs => mark_unchanged (hs.imp id fenceStart_of_fenceMarker))
    (fun s hs => ?_) lines [line] (by simp) (by simp [hfence, hmarker]) h
  simp only [not_or, Bool.not_eq_true, Option.isSome_eq_false_iff, Option.isNone_iff_eq_none] at hs
  simp [nextOpened, hs]

theorem agree_of_solids_eq (opened : Option Str) (inCode : Bool)
    (h : solids isBlankText ((itemsFrom opened inCode lines).map (Item.expected isWord)) =
      solids isBlankText ((itemsFrom opened inCode lines).map (Item.actual isWord))) :
    ∀ x ∈ itemsFrom opened inCode lines, x.actual isWord = x.expected isWord := by
  induction lines generalizing opened inCode with
  | nil => exact fun x hx => (nomatch hx)
  | cons line lines ih =>
    rw [itemsFrom, List.map_cons, List.map_cons] at h
    rw [itemsFrom]
    generalize hx : (⟨line, opened.isSome || (fenceMarker line).isSome, inCode || isFence line⟩ : Item) = x at h ⊢
    have hagree : x.actual isWord = x.expected isWord := by
      by_contra hne
      have hline : x.line = line := hx ▸ rfl
      have hchanged : stripSentence isWord line ≠ line := by
        intro hsame
        obtain ⟨hactual, hexpected⟩ := expected_of_unchanged (hline ▸ hsame)
        exact hne (hactual.trans hexpected.symm)
      have hsolid : ¬ isBlankText line := fun hblank => hchanged (stripSentence_of_blank hblank)
      have hfence : isFence line = false := Bool.eq_false_iff.mpr (fun hf => hchanged (stripSentence_of_isFence hf))
      have hstart : fenceStart line = none := by
        by_contra hsome
        exact hchanged (stripSentence_of_fenceStart (Option.isSome_iff_ne_none.mpr hsome))
      have hmarker : fenceMarker line = none := by simp [fenceMarker, hstart]
      have hcloses : ∀ start, closesFence line start = false := by simp [closesFence, hstart]
      have heads : ¬ isBlankText (x.actual isWord) → ¬ isBlankText (x.expected isWord) → False := by
        intro ha he
        rw [solids_cons_solid ha, solids_cons_solid he] at h
        exact hne (List.cons.inj h).1.symm
      rw [hmarker, hfence, Option.isSome_none, Bool.or_false, Bool.or_false] at hx
      rw [hfence, Bool.bne_false] at h
      cases opened with
      | none =>
        cases inCode with
        | true =>
          have hactual : x.actual isWord = line := hx ▸ rfl
          by_cases he : isBlankText (x.expected isWord)
          · rw [hactual, solids_cons_blank he, solids_cons_solid hsolid, nextOpened, hmarker] at h
            exact actual_not_ahead lines hfence hmarker h.symm
          · exact heads (hactual ▸ hsolid) he
        | false =>
          have hactual : x.actual isWord = stripSentence isWord line := hx ▸ rfl
          by_cases hsentence : isSentence isWord line
          · have hexpected : x.expected isWord = [] := by
              subst hx
              simp [Item.expected, Item.sentence, hsentence]
            exact hne (by rw [hactual, hexpected, stripSentence_eq, if_pos hsentence])
          · cases hopening : opening isWord line with
            | none => exact hchanged (stripSentence_eq_self_iff.mpr ⟨by simpa using hsentence, hopening⟩)
            | some rest =>
              apply heads
              · rw [hactual, stripSentence_eq, if_neg hsentence, hopening]
                exact (not_isBlankText_of_opening hopening).2
              · rw [isBlankText_expected]
                subst hx
                simp [Item.void, Item.sentence, hsentence, hsolid]
      | some start =>
        cases inCode with
        | true => exact hne (by subst hx; rfl)
        | false =>
          have hexpected : x.expected isWord = line := hx ▸ rfl
          by_cases ha : isBlankText (x.actual isWord)
          · rw [hexpected, solids_cons_blank ha, solids_cons_solid hsolid, nextOpened, hcloses] at h
            exact expected_not_ahead lines hfence (hcloses start) h
          · exact heads ha (hexpected ▸ hsolid)
    intro y hy
    cases List.mem_cons.mp hy with
    | inl he => exact he ▸ hagree
    | inr hy =>
      refine ih _ _ ?_ y hy
      rw [hagree] at h
      by_cases hblank : isBlankText (x.expected isWord)
      · rwa [solids_cons_blank hblank, solids_cons_blank hblank] at h
      · rw [solids_cons_solid hblank, solids_cons_solid hblank] at h
        exact (List.cons.inj h).2

end Agreement

theorem solids_splitNewline_join {ls : List Str} (h : ∀ l ∈ ls, newline ∉ l) :
    solids isBlankText (splitNewline (join (lit "\n") ls)) = solids isBlankText ls := by
  by_cases hne : ls = []
  · subst hne
    rfl
  · exact congrArg (solids isBlankText) (splitNewline_join_self h hne)

section Clearing

variable {isWord : CodePoint → Bool}

theorem line_of_void {x : Item} (h : x.void isWord) (hsentence : x.sentence isWord = false) :
    isBlankText x.line ∧ x.expected isWord = x.line := by
  simp only [Item.void, hsentence, Bool.false_or] at h
  exact ⟨h, (expected_of_unchanged (stripSentence_of_blank h)).2⟩

theorem kept_of_solid {x : Item} (h : ¬ x.void isWord) :
    x.expected isWord = x.kept isWord ∧ ¬ isBlankText (x.kept isWord) := by
  have hsentence : x.sentence isWord = false := by
    simp only [Item.void, Bool.or_eq_true, not_or] at h
    simpa using h.1
  have hkept := kept_of_sentence_false hsentence
  rw [← isBlankText_expected, hkept] at h
  exact ⟨hkept, h⟩

variable {gap : List Item} {out : List Str}

theorem blank_of_allowed {atEnd : Bool} (hgap : ∀ x ∈ gap, x.void isWord)
    (h : Allowed isWord atEnd gap out) : ∀ s ∈ out, isBlankText s := by
  unfold Allowed at h
  split at h
  · intro s hs
    obtain ⟨x, hx, rfl⟩ := List.mem_map.mp (h.subset hs)
    obtain ⟨hmem, hsentence⟩ := List.mem_filter.mp hx
    exact (line_of_void (hgap x hmem) (by simpa using hsentence)).1
  · next hnone =>
    simp only [not_or, not_exists, not_and] at hnone
    intro s hs
    obtain ⟨x, hx, rfl⟩ := List.mem_map.mp (h ▸ hs)
    exact (line_of_void (hgap x hx) (Bool.eq_false_iff.mpr (hnone.1 x hx))).1

theorem allowed_nil_iff : Allowed isWord true gap [] ↔
    (∃ x ∈ gap, x.sentence isWord) ∨ ∀ x ∈ gap, x.fenced = false := by
  unfold Allowed
  split
  · next hcond => simpa using hcond
  · next hcond =>
    simp only [true_and] at hcond
    refine ⟨fun hnil => ?_, fun hor => absurd hor hcond⟩
    rw [eq_comm, List.map_eq_nil_iff] at hnil
    exact .inr (by simp [hnil])

theorem allowed_take_iff (hgap : ∀ x ∈ gap, x.void isWord) :
    Allowed isWord false gap ((gap.map (Item.expected isWord)).take 1) ↔ GapKept isWord gap := by
  unfold Allowed GapKept
  simp only [Bool.false_eq_true, false_and, or_false]
  by_cases hsome : ∃ x ∈ gap, x.sentence isWord
  · rw [if_pos hsome, if_pos hsome]
    cases gap with
    | nil => simp
    | cons x gap =>
      rw [List.map_cons, List.take_succ_cons, List.take_zero, List.singleton_sublist]
      by_cases hsentence : x.sentence isWord
      · have hempty : x.expected isWord = [] := by simp [Item.expected, hsentence]
        rw [hempty]
        simp [hsentence, and_assoc]
      · simp only [Bool.not_eq_true] at hsentence
        rw [(line_of_void (hgap x List.mem_cons_self) hsentence).2]
        simp [hsentence]
  · rw [if_neg hsome, if_neg hsome]
    have hlines : gap.map (Item.expected isWord) = gap.map Item.line := by
      apply List.map_congr_left
      intro x hx
      exact (line_of_void (hgap x hx) (Bool.eq_false_iff.mpr (fun h => hsome ⟨x, hx, h⟩))).2
    rw [hlines, List.take_eq_self_iff, List.length_map]

/-- What the loop makes of the lines that stay and of the gaps between them. -/
def shortened (isWord : CodePoint → Bool) (ps : List (Item × List Item)) : List Str :=
  (shorten (ps.map (fun p => (p.1.expected isWord, p.2.map (Item.expected isWord))))).flatMap (fun p => p.1 :: p.2)

variable {ps : List (Item × List Item)}

theorem clearedFrom_cons {p : Item × List Item}
    (h : ClearedFrom isWord (p :: ps) out) : ∃ rest, out = p.1.kept isWord :: rest := by
  cases ps with
  | nil =>
    obtain ⟨gap, _, hout⟩ := h
    exact ⟨gap, hout⟩
  | cons q ps =>
    obtain ⟨gap, rest, _, _, hout⟩ := h
    exact ⟨gap ++ rest, hout⟩

theorem clearedFrom_shortened_iff (hps : ∀ p ∈ ps, ¬ p.1.void isWord ∧ ∀ x ∈ p.2, x.void isWord) :
    ClearedFrom isWord ps (shortened isWord ps) ↔ (∀ p ∈ ps.dropLast, GapKept isWord p.2) ∧
      ∀ p ∈ ps.getLast?, (∃ x ∈ p.2, x.sentence isWord) ∨ ∀ x ∈ p.2, x.fenced = false := by
  induction ps using shorten.induct with
  | case1 => simp [ClearedFrom, shortened, shorten]
  | case2 p =>
    obtain ⟨hkept, _⟩ := kept_of_solid (hps p List.mem_cons_self).1
    simp [ClearedFrom, shortened, shorten, hkept, ← allowed_nil_iff]
  | case3 p q ps ih =>
    have hrest := ih (fun r hr => hps r (List.mem_cons_of_mem p hr))
    obtain ⟨hsolid, hgap⟩ := hps p List.mem_cons_self
    obtain ⟨hkept, _⟩ := kept_of_solid hsolid
    obtain ⟨hnext, hnextSolid⟩ := kept_of_solid (hps q (List.mem_cons_of_mem p List.mem_cons_self)).1
    have hhead : ∃ tail, shortened isWord (q :: ps) = q.1.kept isWord :: tail := by
      rw [← hnext]
      cases ps <;> exact ⟨_, rfl⟩
    have hshort : shortened isWord (p :: q :: ps) =
        p.1.kept isWord :: ((p.2.map (Item.expected isWord)).take 1 ++ shortened isWord (q :: ps)) := by
      rw [← hkept]
      rfl
    rw [hshort, ClearedFrom, List.dropLast_cons_cons, List.forall_mem_cons, List.getLast?_cons_cons, and_assoc, ← hrest,
      ← allowed_take_iff hgap]
    constructor
    · rintro ⟨gap, rest, hallowed, hcleared, heq⟩
      obtain ⟨tail, htail⟩ := hhead
      obtain ⟨tail', htail'⟩ := clearedFrom_cons hcleared
      have hsame := (List.cons.inj heq).2
      rw [htail, htail'] at hsame
      have hblank : ∀ s ∈ (p.2.map (Item.expected isWord)).take 1, isBlankText s := by
        intro s hs
        obtain ⟨x, hx, rfl⟩ := List.mem_map.mp (List.mem_of_mem_take hs)
        rw [isBlankText_expected]
        exact hgap x hx
      obtain ⟨hgaps, htails⟩ := gap_inj hblank (blank_of_allowed hgap hallowed) hnextSolid hnextSolid hsame
      rw [hgaps, htail, htails, ← htail']
      exact ⟨hallowed, hcleared⟩
    · rintro ⟨hallowed, hcleared⟩
      exact ⟨_, _, hallowed, hcleared, rfl⟩

variable (lines : List Str)

theorem fenced_of_mem_front (inCode : Bool) :
    ∀ x ∈ (parts (Item.void isWord) (itemsFrom none inCode lines)).1, x.fenced = false := by
  induction lines generalizing inCode with
  | nil => exact fun x hx => (nomatch hx)
  | cons line lines ih =>
    rw [itemsFrom]
    generalize hx : (⟨line, (none : Option Str).isSome || (fenceMarker line).isSome, inCode || isFence line⟩ : Item) = x
    by_cases hvoid : x.void isWord
    · have hmarker : fenceMarker line = none := by
        by_contra hne
        have hsome := fenceStart_of_fenceMarker (Option.isSome_iff_ne_none.mpr hne)
        have hunchanged : stripSentence isWord line = line := stripSentence_of_fenceStart hsome
        have hfenced : x.fenced = true := by
          subst hx
          simpa using Option.isSome_iff_ne_none.mpr hne
        have hsentence : x.sentence isWord = false := by simp [Item.sentence, hfenced]
        have hline : x.line = line := hx ▸ rfl
        exact not_isBlankText_of_fenceStart hsome (hline ▸ (line_of_void hvoid hsentence).1)
      rw [parts_cons_blank hvoid, nextOpened, hmarker]
      intro y hy
      cases List.mem_cons.mp hy with
      | inl he =>
        rw [he, ← hx, hmarker]
        rfl
      | inr hm => exact ih _ y hm
    · rw [parts_cons_solid hvoid]
      exact fun y hy => (nomatch hy)

theorem cleared_collapse_iff {l : List Item} (hfront : ∀ x ∈ (parts (Item.void isWord) l).1, x.fenced = false) :
    Cleared isWord l (collapse isBlankText (l.map (Item.expected isWord))) ↔
      (∀ p ∈ (parts (Item.void isWord) l).2.dropLast, GapKept isWord p.2) ∧
      ∀ p ∈ (parts (Item.void isWord) l).2.getLast?,
        (∃ x ∈ p.2, x.sentence isWord) ∨ ∀ x ∈ p.2, x.fenced = false := by
  have hout : collapse isBlankText (l.map (Item.expected isWord)) =
      shortened isWord (parts (Item.void isWord) l).2 := by
    rw [collapse_eq_assemble, parts_map l (fun x _ => isBlankText_expected)]
    rfl
  have hps : ∀ p ∈ (parts (Item.void isWord) l).2, ¬ p.1.void isWord ∧ ∀ x ∈ p.2, x.void isWord :=
    fun p hp => of_mem_parts_snd hp
  rw [hout, ← clearedFrom_shortened_iff hps]
  constructor
  · intro ⟨gap, rest, hallowed, hcleared, heq⟩
    have hgap := blank_of_allowed (fun x hx => blank_of_mem_parts_fst hx) hallowed
    cases hsolids : (parts (Item.void isWord) l).2 with
    | nil => rfl
    | cons p ps =>
      rw [hsolids] at hcleared heq hps
      obtain ⟨hkept, hsolid⟩ := kept_of_solid (hps p List.mem_cons_self).1
      obtain ⟨tail, htail⟩ := clearedFrom_cons hcleared
      have hhead : ∃ tail, shortened isWord (p :: ps) = [] ++ p.1.kept isWord :: tail := by
        rw [← hkept]
        cases ps <;> exact ⟨_, rfl⟩
      obtain ⟨tail', htail'⟩ := hhead
      rw [htail', htail] at heq
      obtain ⟨_, hsame⟩ := gap_inj (by simp) hgap hsolid hsolid heq
      rw [htail', List.nil_append, hsame, ← htail]
      exact hcleared
  · intro hcleared
    exact ⟨[], _, allowed_nil_iff.mpr (.inr hfront), hcleared, rfl⟩

theorem solids_of_cleared {l : List Item} (h : Cleared isWord l out) :
    solids isBlankText out = solids isBlankText (l.map (Item.expected isWord)) := by
  have hfrom : ∀ {ps : List (Item × List Item)} {out : List Str},
      (∀ p ∈ ps, ¬ p.1.void isWord ∧ ∀ x ∈ p.2, x.void isWord) → ClearedFrom isWord ps out →
      solids isBlankText out = ps.map (fun p => p.1.expected isWord) := by
    intro ps
    induction ps using shorten.induct with
    | case1 =>
      intro out _ hout
      subst hout
      rfl
    | case2 p =>
      rintro out hps ⟨gap, hallowed, hout⟩
      obtain ⟨hsolid, hgap⟩ := hps p List.mem_cons_self
      obtain ⟨hkept, hkeptSolid⟩ := kept_of_solid hsolid
      rw [hout, solids_cons_solid hkeptSolid, solids_of_blank (blank_of_allowed hgap hallowed), ← hkept]
      rfl
    | case3 p q ps ih =>
      rintro out hps ⟨gap, rest, hallowed, hcleared, hout⟩
      obtain ⟨hsolid, hgap⟩ := hps p List.mem_cons_self
      obtain ⟨hkept, hkeptSolid⟩ := kept_of_solid hsolid
      rw [hout, solids_cons_solid hkeptSolid, solids_append, solids_of_blank (blank_of_allowed hgap hallowed),
        ih (fun r hr => hps r (List.mem_cons_of_mem p hr)) hcleared, ← hkept]
      rfl
  obtain ⟨gap, rest, hallowed, hcleared, hout⟩ := h
  have hgap := blank_of_allowed (fun x hx => blank_of_mem_parts_fst hx) hallowed
  rw [hout, solids_append, solids_of_blank hgap, hfrom (fun p hp => of_mem_parts_snd hp) hcleared,
    solids_map l (fun x _ => isBlankText_expected), ← map_fst_parts, List.map_map, List.nil_append]
  rfl

def treat (isWord : CodePoint → Bool) (inCode : Bool) (line : Str) : Str :=
  if inCode || isFence line then line else stripSentence isWord line

def toggle (inCode : Bool) (line : Str) : Bool := inCode != isFence line

variable (inCode : Bool)

theorem stripLines_eq_transduce :
    stripLines isWord inCode lines = transduce (treat isWord) toggle inCode lines := by
  induction lines generalizing inCode with
  | nil => rfl
  | cons line lines ih =>
    rw [stripLines, transduce, ← ih]
    by_cases hfence : isFence line
    · simp [treat, toggle, hfence]
    · cases inCode <;> simp [treat, toggle, hfence]

theorem treat_of_blank (line : Str) (h : isBlankText line) : treat isWord inCode line = line := by
  unfold treat
  split
  · rfl
  · exact stripSentence_of_blank h

theorem toggle_of_blank (line : Str) (h : isBlankText line) : toggle inCode line = inCode := by
  have hfence : isFence line = false := Bool.eq_false_iff.mpr (fun hf => not_isBlankText_of_isFence hf h)
  simp [toggle, hfence]

theorem stripLines_eq_self_of_solids
    (h : solids isBlankText (stripLines isWord inCode lines) = solids isBlankText lines) :
    stripLines isWord inCode lines = lines := by
  have hlength : ∀ (inCode : Bool) (lines : List Str),
      (solids isBlankText (stripLines isWord inCode lines)).length ≤ (solids isBlankText lines).length := by
    intro inCode lines
    induction lines generalizing inCode with
    | nil => exact Nat.le_refl _
    | cons line lines ih =>
      rw [stripLines_eq_transduce, transduce, ← stripLines_eq_transduce]
      by_cases hline : isBlankText line
      · rw [treat_of_blank inCode line hline, solids_cons_blank hline, solids_cons_blank hline]
        exact ih _
      · rw [solids_cons_solid hline]
        by_cases hnew : isBlankText (treat isWord inCode line)
        · rw [solids_cons_blank hnew]
          exact Nat.le_succ_of_le (ih _)
        · rw [solids_cons_solid hnew]
          exact Nat.succ_le_succ (ih _)
  induction lines generalizing inCode with
  | nil => rfl
  | cons line lines ih =>
    rw [stripLines_eq_transduce, transduce, ← stripLines_eq_transduce] at h ⊢
    by_cases hline : isBlankText line
    · rw [treat_of_blank inCode line hline, solids_cons_blank hline, solids_cons_blank hline] at h
      rw [treat_of_blank inCode line hline, ih _ h]
    · rw [solids_cons_solid hline] at h
      by_cases hnew : isBlankText (treat isWord inCode line)
      · have hmore := hlength (toggle inCode line) lines
        rw [solids_cons_blank hnew] at h
        rw [h, List.length_cons] at hmore
        exact absurd hmore (Nat.not_succ_le_self _)
      · rw [solids_cons_solid hnew] at h
        obtain ⟨hfirst, hrest⟩ := List.cons.inj h
        rw [hfirst, ih _ hrest]

theorem stripLines_expected_iff (l : List Item) (opened : Option Str) (inCode : Bool) :
    stripLines isWord inCode (l.map (Item.expected isWord)) = l.map (Item.expected isWord) ↔
      ∀ x ∈ itemsFrom opened inCode (staying isWord l), x.code = true ∨ stripSentence isWord x.line = x.line := by
  induction l generalizing opened inCode with
  | nil => simp [staying, itemsFrom, stripLines]
  | cons y l ih =>
    rw [List.map_cons, stripLines_eq_transduce, transduce, ← stripLines_eq_transduce, List.cons.injEq]
    by_cases hsentence : y.sentence isWord
    · have hexpected : y.expected isWord = [] := by simp [Item.expected, hsentence]
      have hblank : isBlankText ([] : Str) := rfl
      rw [hexpected, treat_of_blank inCode [] hblank, toggle_of_blank inCode [] hblank, ih opened inCode]
      simp [staying, hsentence]
    · have hexpected := kept_of_sentence_false (Bool.eq_false_iff.mpr hsentence)
      have hstaying : staying isWord (y :: l) = y.kept isWord :: staying isWord l := by simp [staying, hsentence]
      rw [hexpected, hstaying, itemsFrom, List.forall_mem_cons,
        ih (nextOpened opened (y.kept isWord)) (toggle inCode (y.kept isWord))]
      refine and_congr_left (fun _ => ?_)
      unfold treat
      by_cases hcode : inCode || isFence (y.kept isWord)
      · simp [hcode]
      · simp [hcode]

end Clearing

variable {isWord : CodePoint → Bool} {text : Str}

theorem stripAiAttribution_of_blank (h : stripped text = []) : stripAiAttribution isWord true text = text := by
  simp [stripAiAttribution, h]

theorem stripAiAttribution_of_solid (h : stripped text ≠ []) : stripAiAttribution isWord true text =
    join (lit "\n") (collapse isBlankText (stripLines isWord false (splitNewline text))) := by
  simp [stripAiAttribution, h, collapseBlankRuns]

theorem isBlankText_iff {t : Str} : isBlankText t ↔ visible t = [] := by
  rw [isBlankText, List.isEmpty_iff, stripped_eq_nil_iff, visible, List.filter_eq_nil_iff]
  simp

variable {lines : List Str}

theorem isBlankText_join : isBlankText (join (lit "\n") lines) ↔ ∀ l ∈ lines, isBlankText l := by
  have hnewline : visible (lit "\n") = [] := by decide
  rw [isBlankText_iff, visible_join hnewline, List.flatten_eq_nil_iff]
  simp only [List.forall_mem_map, isBlankText_iff]

theorem join_splitNewline_text (t : Str) : join (lit "\n") (splitNewline t) = t := join_splitNewline t

theorem splitNewline_join_lines {ls : List Str} (h : ∀ l ∈ ls, newline ∉ l) (hne : ls ≠ []) :
    splitNewline (join (lit "\n") ls) = ls := splitNewline_join_self h hne

theorem stripAiAttribution_join (h : ∀ l ∈ lines, newline ∉ l) :
    stripAiAttribution isWord true (join (lit "\n") (collapse isBlankText lines)) =
      join (lit "\n") (collapse isBlankText (stripLines isWord false lines)) := by
  have htransduce : collapse isBlankText (stripLines isWord false (collapse isBlankText lines)) =
      collapse isBlankText (stripLines isWord false lines) := by
    rw [stripLines_eq_transduce, stripLines_eq_transduce]
    exact collapse_transduce_collapse treat_of_blank toggle_of_blank false lines
  by_cases hnil : collapse isBlankText lines = []
  · rw [← htransduce, hnil]
    exact stripAiAttribution_of_blank rfl
  · have hsolid : ¬ isBlankText (join (lit "\n") (collapse isBlankText lines)) := by
      rw [isBlankText_join]
      intro hall
      apply hnil
      rw [collapse_eq_nil_iff]
      intro l hl
      by_contra hl'
      have hmem : l ∈ solids isBlankText (collapse isBlankText lines) := by
        rw [solids_collapse]
        exact List.mem_filter.mpr ⟨hl, by simpa using hl'⟩
      exact hl' (hall l (List.mem_filter.mp hmem).1)
    rw [isBlankText, List.isEmpty_iff] at hsolid
    have hsplit : splitNewline (join (lit "\n") (collapse isBlankText lines)) = collapse isBlankText lines :=
      splitNewline_join_self (fun l hl => h l (collapse_subset lines l hl)) hnil
    rw [stripAiAttribution_of_solid hsolid, hsplit, htransduce]

theorem solids_eq_of_join {lines others : List Str} (h : ∀ l ∈ lines, newline ∉ l) (ho : ∀ l ∈ others, newline ∉ l)
    (heq : join (lit "\n") lines = join (lit "\n") others) : solids isBlankText lines = solids isBlankText others := by
  rw [← solids_splitNewline_join h, heq, solids_splitNewline_join ho]

theorem newline_not_mem_stripLines (h : ∀ l ∈ lines, newline ∉ l) (inCode : Bool) :
    ∀ l ∈ stripLines isWord inCode lines, newline ∉ l := by
  induction lines generalizing inCode with
  | nil => exact fun l hl => (nomatch hl)
  | cons line lines ih =>
    rw [stripLines_eq_transduce, transduce, ← stripLines_eq_transduce]
    intro l hl
    cases List.mem_cons.mp hl with
    | inl he =>
      subst he
      unfold treat
      split
      · exact h line List.mem_cons_self
      · exact newline_not_mem_stripSentence (h line List.mem_cons_self)
    | inr hm => exact ih (fun k hk => h k (List.mem_cons_of_mem line hk)) _ l hm

theorem settled_iff (h : stripped text ≠ []) :
    stripAiAttribution isWord true (stripAiAttribution isWord true text) = stripAiAttribution isWord true text ↔
      stripLines isWord false (stripLines isWord false (splitNewline text)) =
        stripLines isWord false (splitNewline text) := by
  have hlines : ∀ l ∈ stripLines isWord false (splitNewline text), newline ∉ l :=
    newline_not_mem_stripLines (fun l hl => newline_not_mem_splitNewline hl) false
  have hagain := @newline_not_mem_stripLines isWord _ hlines false
  rw [stripAiAttribution_of_solid h, stripAiAttribution_join hlines]
  constructor
  · intro heq
    apply stripLines_eq_self_of_solids
    have hsolids := solids_eq_of_join (fun l hl => hagain l (collapse_subset _ l hl))
      (fun l hl => hlines l (collapse_subset _ l hl)) heq
    rwa [solids_collapse, solids_collapse] at hsolids
  · intro heq
    rw [heq]

theorem of_mem_items {text : Str} {x : Item} (h : x ∈ items text) : newline ∉ x.line := by
  have hmem : x.line ∈ (items text).map Item.line := List.mem_map_of_mem h
  rw [items, map_line_itemsFrom] at hmem
  exact newline_not_mem_splitNewline hmem

theorem newline_not_mem_expected {x : Item} (h : newline ∉ x.line) : newline ∉ x.expected isWord := by
  unfold Item.expected Item.kept
  split
  · exact List.not_mem_nil
  split
  · exact h
  split
  · next rest hopening =>
    have hrest : newline ∉ rest :=
      fun hmem => h (stripped_subset x.line newline ((opening_spec hopening).1.subset hmem))
    have hfront : newline ∉ x.line.takeWhile isSpace := fun hmem => h ((List.takeWhile_sublist isSpace).subset hmem)
    have hback : newline ∉ (x.line.dropWhile isSpace).rtakeWhile isSpace := fun hmem =>
      h ((List.dropWhile_sublist isSpace).subset ((List.rtakeWhile_suffix isSpace _).subset hmem))
    simp [hrest, hfront, hback]
  · exact h

variable {out : List Str}

theorem newline_not_mem_allowed {atEnd : Bool} {gap : List Item} (hgap : ∀ x ∈ gap, newline ∉ x.line)
    (h : Allowed isWord atEnd gap out) : ∀ l ∈ out, newline ∉ l := by
  have hsubset : ∀ l ∈ out, l ∈ gap.map Item.line := by
    unfold Allowed at h
    split at h
    · exact fun l hl => ((List.filter_sublist (l := gap)).map Item.line).subset (h.subset hl)
    · exact fun l hl => h ▸ hl
  intro l hl
  obtain ⟨x, hx, rfl⟩ := List.mem_map.mp (hsubset l hl)
  exact hgap x hx

theorem newline_not_mem_clearedFrom {ps : List (Item × List Item)}
    (hps : ∀ p ∈ ps, ¬ p.1.void isWord ∧ newline ∉ p.1.line ∧ ∀ x ∈ p.2, newline ∉ x.line)
    (h : ClearedFrom isWord ps out) : ∀ l ∈ out, newline ∉ l := by
  induction ps using shorten.induct generalizing out with
  | case1 => exact fun l hl => absurd (h ▸ hl) List.not_mem_nil
  | case2 p =>
    obtain ⟨gap, hallowed, rfl⟩ := h
    obtain ⟨hsolid, hline, hgap⟩ := hps p List.mem_cons_self
    rw [List.forall_mem_cons, ← (kept_of_solid hsolid).1]
    exact ⟨newline_not_mem_expected hline, newline_not_mem_allowed hgap hallowed⟩
  | case3 p q ps ih =>
    obtain ⟨gap, rest, hallowed, hcleared, rfl⟩ := h
    obtain ⟨hsolid, hline, hgap⟩ := hps p List.mem_cons_self
    rw [List.forall_mem_cons, List.forall_mem_append, ← (kept_of_solid hsolid).1]
    exact ⟨newline_not_mem_expected hline, newline_not_mem_allowed hgap hallowed,
      ih (fun r hr => hps r (List.mem_cons_of_mem p hr)) hcleared⟩

theorem newline_not_mem_cleared (h : Cleared isWord (items text) out) : ∀ l ∈ out, newline ∉ l := by
  obtain ⟨gap, rest, hallowed, hcleared, rfl⟩ := h
  rw [List.forall_mem_append]
  constructor
  · exact newline_not_mem_allowed (fun x hx => of_mem_items (mem_of_mem_parts_fst hx)) hallowed
  · refine newline_not_mem_clearedFrom (fun p hp => ⟨(of_mem_parts_snd hp).1, ?_⟩) hcleared
    obtain ⟨hfirst, hgap⟩ := mem_of_mem_parts_snd hp
    exact ⟨of_mem_items hfirst, fun x hx => of_mem_items (hgap x hx)⟩

variable (h : stripped text ≠ [])

include h

theorem collapse_splitNewline_ne_nil : collapse isBlankText (splitNewline text) ≠ [] := by
  intro hnil
  have hblank := isBlankText_join.mpr (collapse_eq_nil_iff.mp hnil)
  rw [join_splitNewline_text, isBlankText, List.isEmpty_iff] at hblank
  exact h hblank

theorem stripAiAttribution_items : stripAiAttribution isWord true text =
    join (lit "\n") (collapse isBlankText ((items text).map (Item.actual isWord))) := by
  rw [stripAiAttribution_of_solid h, stripLines_eq (splitNewline text) none false, items]

theorem cleared_iff :
    (∃ out, Cleared isWord (items text) out ∧ stripAiAttribution isWord true text = join (lit "\n") out) ↔
      (∀ x ∈ items text, x.actual isWord = x.expected isWord) ∧
      (∀ p ∈ (parts (Item.void isWord) (items text)).2.dropLast, GapKept isWord p.2) ∧
      ∀ p ∈ (parts (Item.void isWord) (items text)).2.getLast?,
        (∃ x ∈ p.2, x.sentence isWord) ∨ ∀ x ∈ p.2, x.fenced = false := by
  have hfront : ∀ x ∈ (parts (Item.void isWord) (items text)).1, x.fenced = false :=
    fenced_of_mem_front (splitNewline text) false
  rw [stripAiAttribution_items h, ← cleared_collapse_iff hfront]
  constructor
  · intro ⟨out, hcleared, heq⟩
    have hout := newline_not_mem_cleared hcleared
    have hactual : ∀ l ∈ (items text).map (Item.actual isWord), newline ∉ l := by
      rw [items, ← stripLines_eq]
      exact newline_not_mem_stripLines (fun l hl => newline_not_mem_splitNewline hl) false
    have hsolids := solids_eq_of_join (fun l hl => hactual l (collapse_subset _ l hl)) hout heq
    rw [solids_collapse, solids_of_cleared hcleared] at hsolids
    have hagree : ∀ x ∈ items text, x.actual isWord = x.expected isWord :=
      agree_of_solids_eq (splitNewline text) none false hsolids.symm
    refine ⟨hagree, ?_⟩
    rw [List.map_congr_left hagree] at heq hactual
    by_cases hnil : (parts (Item.void isWord) (items text)).2 = []
    · rw [cleared_collapse_iff hfront, hnil]
      simp
    · have hsolid : solids isBlankText out ≠ [] := by
        rw [solids_of_cleared hcleared, solids_map (items text) (fun x _ => isBlankText_expected), ← map_fst_parts]
        simpa using hnil
      have hne : out ≠ [] := by
        rintro rfl
        exact hsolid rfl
      have hcollapsed : collapse isBlankText ((items text).map (Item.expected isWord)) ≠ [] := by
        intro hempty
        apply hsolid
        rw [solids_of_cleared hcleared, ← solids_collapse, hempty]
        rfl
      have hlines := congrArg splitNewline heq
      rw [splitNewline_join_lines (fun l hl => hactual l (collapse_subset _ l hl)) hcollapsed,
        splitNewline_join_lines hout hne] at hlines
      rw [hlines]
      exact hcleared
  · intro ⟨hagree, hcleared⟩
    refine ⟨_, hcleared, ?_⟩
    rw [List.map_congr_left hagree]

theorem untouched_iff (hagree : ∀ x ∈ items text, x.actual isWord = x.expected isWord)
    (hgaps : ∀ p ∈ (parts (Item.void isWord) (items text)).2.dropLast, GapKept isWord p.2) :
    ((∀ x ∈ items text, x.matched isWord = false) → stripAiAttribution isWord true text = text) ↔
      ((∀ x ∈ items text, x.matched isWord = false) → (parts (Item.void isWord) (items text)).1 = [] ∧
        ∀ p ∈ (parts (Item.void isWord) (items text)).2.getLast?, p.2 = []) := by
  refine forall_congr' (fun hmatched => ?_)
  have hsentence : ∀ x ∈ items text, x.sentence isWord = false := by
    intro x hx
    have hx := hmatched x hx
    simp only [Item.matched, Item.sentence] at hx ⊢
    by_cases hfenced : x.fenced
    · simp [hfenced]
    · simp_all
  have hline : ∀ x ∈ items text, x.expected isWord = x.line := by
    intro x hx
    have hx := hmatched x hx
    rw [kept_of_sentence_false (hsentence x ‹_›), Item.kept]
    by_cases hfenced : x.fenced
    · simp [hfenced]
    · simp_all [Item.matched]
  have hlines : (items text).map (Item.expected isWord) = splitNewline text := by
    rw [List.map_congr_left hline, items, map_line_itemsFrom]
  have hself : stripAiAttribution isWord true text = text ↔
      collapse isBlankText (splitNewline text) = splitNewline text := by
    rw [stripAiAttribution_items h, List.map_congr_left hagree, hlines]
    constructor
    · intro heq
      have hsplit := congrArg splitNewline heq
      rwa [splitNewline_join_lines (fun l hl => newline_not_mem_splitNewline (collapse_subset _ l hl))
        (collapse_splitNewline_ne_nil h)] at hsplit
    · intro heq
      rw [heq, join_splitNewline_text]
  have hparts := @parts_map _ (Item.void isWord) _ isBlankText (Item.expected isWord) (items text)
    (fun x _ => isBlankText_expected)
  rw [hlines] at hparts
  have hshort : ∀ p ∈ (parts (Item.void isWord) (items text)).2.dropLast, p.2.length ≤ 1 := by
    intro p hp
    have hgap := hgaps p hp
    have hnone : ¬ ∃ x ∈ p.2, x.sentence isWord := by
      intro ⟨x, hx, htrue⟩
      rw [hsentence x ((mem_of_mem_parts_snd ((List.dropLast_sublist _).subset hp)).2 x hx)] at htrue
      cases htrue
    rwa [GapKept, if_neg hnone] at hgap
  rw [hself, collapse_eq_self_iff, shorten_eq_self_iff, hparts, ← List.map_dropLast, List.getLast?_map]
  simp only [List.map_eq_nil_iff, List.forall_mem_map, List.length_map]
  refine and_congr_right (fun _ => (and_iff_right hshort).trans ?_)
  cases (parts (Item.void isWord) (items text)).2.getLast? <;> simp

omit h

theorem removesAttribution_of_blank (h : stripped text = []) : RemovesAttribution isWord text := by
  have hsame := @stripAiAttribution_of_blank isWord text h
  have hblank : ∀ x ∈ items text, isBlankText x.line := by
    have htext : isBlankText (join (lit "\n") (splitNewline text)) := by
      rw [join_splitNewline_text, isBlankText, h]
      rfl
    intro x hx
    apply isBlankText_join.mp htext
    rw [← map_line_itemsFrom (splitNewline text) none false]
    exact List.mem_map_of_mem hx
  have hsentence : ∀ x ∈ items text, x.sentence isWord = false := by
    intro x hx
    have hplain := (stripSentence_eq_self_iff.mp (@stripSentence_of_blank isWord _ (hblank x hx))).1
    simp [Item.sentence, hplain]
  have hvoid : ∀ x ∈ items text, x.void isWord := fun x hx => by simp [Item.void, hblank x hx]
  refine ⟨⟨(items text).map Item.line, ?_, ?_⟩, fun _ => hsame, by rw [hsame, hsame]⟩
  · have hparts := parts_append_blanks hvoid []
    rw [List.append_nil] at hparts
    refine ⟨(items text).map Item.line, [], ?_, ?_, (List.append_nil _).symm⟩
    · rw [hparts, parts, List.append_nil, Allowed]
      split
      · rw [List.filter_eq_self.mpr (fun x hx => by simp [hsentence x hx])]
      · rfl
    · rw [hparts]
      rfl
  · rw [hsame, items, map_line_itemsFrom, join_splitNewline_text]

/-- Nothing but attribution is removed exactly from the texts in which fences and loop agree, no run of
blank lines is too long and the loop finds no more. -/
theorem removesAttribution_iff (isWord : CodePoint → Bool) (text : Str) :
    RemovesAttribution isWord text ↔ stripped text = [] ∨ Spared isWord text := by
  by_cases h : stripped text = []
  · exact iff_of_true (removesAttribution_of_blank h) (.inl h)
  rw [or_iff_right h]
  have hsettled : (∀ x ∈ items text, x.actual isWord = x.expected isWord) →
      (stripAiAttribution isWord true (stripAiAttribution isWord true text) = stripAiAttribution isWord true text ↔
        ∀ x ∈ itemsFrom none false (staying isWord (items text)), x.code = true ∨ stripSentence isWord x.line = x.line) := by
    intro hagree
    rw [settled_iff h, stripLines_eq (splitNewline text) none false, ← items, List.map_congr_left hagree]
    exact stripLines_expected_iff (items text) none false
  constructor
  · intro ⟨hcleared, huntouched, htwice⟩
    obtain ⟨hagree, hgaps, hclosed⟩ := (cleared_iff h).mp hcleared
    exact {
      undisputed := fun x hx => (actual_eq_expected_iff.mp (hagree x hx)).1
      trimmed := fun x hx => (actual_eq_expected_iff.mp (hagree x hx)).2
      gaps := hgaps
      closed := hclosed
      ends := (untouched_iff h hagree hgaps).mp huntouched
      settled := (hsettled hagree).mp htwice }
  · intro hspared
    have hagree : ∀ x ∈ items text, x.actual isWord = x.expected isWord :=
      fun x hx => actual_eq_expected_iff.mpr ⟨hspared.undisputed x hx, hspared.trimmed x hx⟩
    exact {
      cleared := (cleared_iff h).mpr ⟨hagree, hspared.gaps, hspared.closed⟩
      untouched := (untouched_iff h hagree hspared.gaps).mpr hspared.ends
      settled := (hsettled hagree).mpr hspared.settled }

def latinOrChinese (c : CodePoint) : Bool :=
  c == cp '_' || (0x30 ≤ c.val && c.val ≤ 0x39) || (0x41 ≤ c.val && c.val ≤ 0x5a) || (0x61 ≤ c.val && c.val ≤ 0x7a) ||
    (0x4e00 ≤ c.val && c.val ≤ 0x9fff)

/-- Two blank lines in code become one, and of two openings one is cut at a time. -/
theorem code_collapsed :
    stripAiAttribution latinOrChinese true (lit "```\na\n\n\nb\n```") = lit "```\na\n\nb\n```" ∧
    (∀ x ∈ items (lit "```\na\n\n\nb\n```"), x.matched latinOrChinese = false) ∧
    ¬ RemovesAttribution latinOrChinese (lit "```\na\n\n\nb\n```") ∧
    stripAiAttribution latinOrChinese true (lit "作为AI，作为AI，你好") = lit "作为AI，你好" ∧
    ¬ RemovesAttribution latinOrChinese (lit "作为AI，作为AI，你好") := by
  have hcode : stripAiAttribution latinOrChinese true (lit "```\na\n\n\nb\n```") = lit "```\na\n\nb\n```" := by
    decide +kernel
  have hnone : ∀ x ∈ items (lit "```\na\n\n\nb\n```"), x.matched latinOrChinese = false := by decide +kernel
  have honce : stripAiAttribution latinOrChinese true (lit "作为AI，作为AI，你好") = lit "作为AI，你好" := by
    decide +kernel
  have htwice : stripAiAttribution latinOrChinese true (lit "作为AI，你好") = lit "你好" := by decide +kernel
  refine ⟨hcode, hnone, ?_, honce, ?_⟩
  · intro h
    have hsame := h.untouched hnone
    rw [hcode] at hsame
    exact absurd hsame (by decide)
  · intro h
    have hsame := h.settled
    rw [honce, htwice] at hsame
    exact absurd hsame (by decide)

end Kirara.AttributionRemovals
