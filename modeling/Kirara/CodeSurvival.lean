import Kirara.RenderedPieces

namespace Kirara.CodeSurvival

open Kirara.CodePoints Kirara.Fences Kirara.StructuredText Kirara.FenceScanners
open Kirara.FenceAgreement Kirara.LineBodies Kirara.TextDocuments Kirara.CopyableCode
open Kirara.FencedPieces Kirara.PieceReading Kirara.RenderedText Kirara.RenderedPieces

def copiedCode (rules : LineRules) (prose : TextBlock → Str) (text : Str) : List Str :=
  codesOf (splitForCopyableCode (renderOnebotText rules prose text))

/-- The texts of the closed code blocks of lines. -/
def sourceBlocks (spans : List (Nat × Nat)) : Nat → Nat → List Str → List Str
  | 0, _, _ => []
  | _ + 1, _, [] => []
  | n + 1, index, line :: lines =>
    if (stripped line).isEmpty then sourceBlocks spans n (index + 1) lines
    else
      match spans.lookup index with
      | some last =>
        rstripped (join [newline] ((line :: lines).take (last - index))) ::
          sourceBlocks spans n last ((line :: lines).drop (last - index))
      | none =>
        match fenceMarker line with
        | some opening =>
          let body := lines.takeWhile (!closesFence · opening)
          let rest := lines.dropWhile (!closesFence · opening)
          (if rest.isEmpty then [] else [join [newline] body]) ++
            sourceBlocks spans n (index + 1 + body.length + 1) rest.tail
        | none => sourceBlocks spans n (index + 1) lines

def spansOf (rules : LineRules) (text : Str) : List (Nat × Nat) :=
  detectCodeSpans rules (lineBodies text)

def sourceCode (rules : LineRules) (text : Str) : List Str :=
  sourceBlocks (spansOf rules text) (lineBodies text).length 0 (lineBodies text)

/-- The code to copy is that of the closed code blocks, but for white space at their ends. -/
def Survives (rules : LineRules) (prose : TextBlock → Str) (text : Str) : Prop :=
  (copiedCode rules prose text).map rstripped =
    ((sourceCode rules text).map rstripped).filter fun code => !isBlankText code

instance (rules : LineRules) (prose : TextBlock → Str) (text : Str) :
    Decidable (Survives rules prose text) :=
  inferInstanceAs (Decidable (_ = _))

def blockOpener (block : TextBlock) : Str := ticks ++ block.language.getD []

def blockLines (block : TextBlock) : List Str := splitNewline (rstripped block.text)

def blockPart (prose : TextBlock → Str) (block : TextBlock) : Part :=
  if block.kind = .code then
    if block.closed then .code (blockOpener block) (blockLines block)
    else .unclosed (blockOpener block) (blockLines block)
  else .prose (prose block)

theorem renderBlock_eq (prose : TextBlock → Str) (block : TextBlock) :
    renderBlock prose block = (blockPart prose block).text := by
  rw [renderBlock, blockPart]
  split
  · rw [renderCode]
    cases block.closed with
    | true => rw [if_pos rfl, if_pos rfl, Part.text, blockLines, join_splitNewline, blockOpener, ticks]
    | false =>
      rw [if_neg Bool.false_ne_true, if_neg Bool.false_ne_true, Part.text, blockLines,
        join_splitNewline, blockOpener, ticks]
  · rfl

def partsOf (prose : TextBlock → Str) (blocks : List TextBlock) : List Part :=
  (blocks.map (blockPart prose)).filter fun part => !isBlankText part.text

theorem renderRichText_eq (prose : TextBlock → Str) (document : TextDocument) :
    renderRichText (renderBlock prose) document =
      stripped (collapse (joined (partsOf prose document.blocks))) := by
  have hmap : document.blocks.map (renderBlock prose) =
      (document.blocks.map (blockPart prose)).map Part.text := by
    rw [List.map_map]
    exact List.map_congr_left fun block _ => renderBlock_eq prose block
  rw [renderRichText, hmap, List.filter_map]
  rfl

theorem opener_marker {lang : Str} (hback : backtick ∉ lang)
    (hbreak : ∀ c ∈ lang, isLineBreak c = false) : fenceMarker (ticks ++ lang) = some ticks := by
  have hnl : newline ∉ lang := fun h => not_isLineBreak (hbreak newline h) rfl
  have hcs : newline ∉ lit "``" ++ lang := by
    rw [List.mem_append, not_or]
    exact ⟨by decide, hnl⟩
  have hstop : ∀ d, lang.head? = some d → (d == backtick) = false := by
    intro d hd
    rw [beq_eq_false_iff_ne]
    intro heq
    exact hback (heq ▸ List.mem_of_head? hd)
  have hticks : ticks ++ lang = backtick :: (lit "``" ++ lang) := rfl
  have htake : (lit "``").takeWhile (· == backtick) = lit "``" := by decide
  have hdrop : (lit "``").dropWhile (· == backtick) = [] := by decide
  have hnone : lang.contains backtick = false := by simpa using hback
  have hlen : (backtick :: lit "``").length = 3 := by decide
  rw [fenceMarker, hticks, fenceStart_cons (by decide) hcs, takeWhile_append_stop _ _ hstop,
    dropWhile_append_stop _ _ hstop, htake, hdrop, List.nil_append, hnone, hlen]
  rfl

theorem codeText_of_block {block : TextBlock} (h : CodeBlock block) :
    CodeText (blockOpener block) (blockLines block) := by
  have hlang : backtick ∉ block.language.getD [] ∧
      ∀ c ∈ block.language.getD [], isLineBreak c = false := by
    cases hl : block.language with
    | none => exact ⟨List.not_mem_nil, List.forall_mem_nil _⟩
    | some lang => exact h.1 lang hl
  have hnewlines : ∀ l ∈ blockLines block, newline ∉ l := fun l => newline_not_mem_splitNewline
  refine ⟨opener_marker hlang.1 hlang.2, rfl, ?_, ?_, hnewlines, splitNewline_ne_nil _, ?_⟩
  · intro c hc
    cases List.mem_append.mp hc with
    | inl hc => exact ticks_breakFree c hc
    | inr hc => exact hlang.2 c hc
  · intro l hl c hc
    rw [Bool.eq_false_iff]
    intro hbreak
    have htext : c ∈ block.text :=
      (List.rdropWhile_prefix isSpace _).subset (mem_of_mem_splitNewline hl hc)
    rw [h.2 c htext hbreak] at hc
    exact hnewlines l hl hc
  · rw [blockLines, join_splitNewline, rstripped_rstripped]

section Sources

variable {spans : List (Nat × Nat)}

def closedCode (blocks : List TextBlock) : List Str :=
  (blocks.filter fun block => block.kind = .code && block.closed).map TextBlock.text

theorem closedCode_cons (block : TextBlock) (blocks : List TextBlock) : closedCode (block :: blocks) =
      (if (block.kind = .code && block.closed) = true then [block.text] else []) ++
        closedCode blocks := by
  rw [closedCode, List.filter_cons]
  split
  · rfl
  · rfl

theorem sourceBlocks_skip (n index : Nat) (lines rest : List Str)
    (h : ∀ q ∈ lines.zipIdx index, spans.lookup q.2 = none ∧ fenceMarker q.1 = none) :
    sourceBlocks spans (n + lines.length) index (lines ++ rest) =
      sourceBlocks spans n (index + lines.length) rest := by
  induction lines generalizing index with
  | nil => rfl
  | cons line lines ih =>
    rw [List.zipIdx_cons, List.forall_mem_cons] at h
    obtain ⟨⟨hspan, hfence⟩, hrest⟩ := h
    have hnext := ih (index + 1) hrest
    rw [Nat.add_right_comm index 1] at hnext
    rw [List.length_cons, ← Nat.add_assoc, List.cons_append, sourceBlocks]
    simp only at hspan hfence
    rw [hspan, hfence]
    simp only
    rw [ite_self, hnext, Nat.add_assoc]

variable {rules : LineRules}

/-- The lines of a prose block neither open a block nor start code without fences. -/
def ProseApart (spans : List (Nat × Nat)) (placed : List Placed) : Prop :=
  ∀ p ∈ placed, p.block.kind ≠ .code →
    ∀ q ∈ p.lines.zipIdx p.start, spans.lookup q.2 = none ∧ fenceMarker q.1 = none

theorem lookup_lt (hspans : ∀ span ∈ spans, span.1 < span.2) {index last : Nat}
    (h : spans.lookup index = some last) : index < last := by
  induction spans with
  | nil => cases h
  | cons span spans ih =>
    rw [List.forall_mem_cons] at hspans
    rw [List.lookup_cons] at h
    split at h
    · next heq =>
      rw [beq_iff_eq] at heq
      rw [Option.some.injEq] at h
      rw [heq, ← h]
      exact hspans.1
    · exact ih hspans.2 h

theorem sourceBlocks_eq (hspans : ∀ span ∈ spans, span.1 < span.2) (n m index : Nat)
    (lines : List Str) (hn : lines.length ≤ n) (hm : lines.length ≤ m)
    (hapart : ProseApart spans (parseFrom rules spans n index lines)) : sourceBlocks spans m index lines =
      closedCode ((parseFrom rules spans n index lines).map Placed.block) := by
  induction hlen : lines.length using Nat.strong_induction_on generalizing n m index lines with
  | h k ih =>
    cases lines with
    | nil =>
      cases n with
      | zero => cases m <;> rfl
      | succ n => cases m <;> rfl
    | cons line lines =>
      rw [List.length_cons] at hn hm hlen
      obtain ⟨n, rfl⟩ := Nat.exists_eq_add_of_le' (Nat.le_trans (Nat.succ_le_succ (Nat.zero_le _)) hn)
      obtain ⟨m, rfl⟩ := Nat.exists_eq_add_of_le' (Nat.le_trans (Nat.succ_le_succ (Nat.zero_le _)) hm)
      rw [parseFrom] at hapart ⊢
      by_cases hblank : (stripped line).isEmpty = true
      · rw [if_pos hblank] at hapart ⊢
        rw [sourceBlocks, if_pos hblank]
        exact ih lines.length (by omega) n m (index + 1) lines (by omega) (by omega) hapart rfl
      · rw [if_neg hblank] at hapart ⊢
        cases hspan : spans.lookup index with
        | some last =>
          have hless := lookup_lt hspans hspan
          have hshort : ((line :: lines).drop (last - index)).length < k := by
            rw [List.length_drop, List.length_cons]
            omega
          simp only [hspan] at hapart ⊢
          have hrest := ih _ hshort n m last _ (by omega) (by omega)
            (fun p hp => hapart p (List.mem_cons_of_mem _ hp)) rfl
          rw [sourceBlocks, if_neg hblank, hspan, List.map_cons, closedCode_cons, ← hrest]
          rfl
        | none =>
          cases hfence : fenceMarker line with
          | some opening =>
            have hshort : (lines.dropWhile (!closesFence · opening)).tail.length < k := by
              have hdrop := (List.dropWhile_suffix (!closesFence · opening) (l := lines)).length_le
              rw [List.length_tail]
              omega
            simp only [hspan, hfence] at hapart ⊢
            have hrest := ih _ hshort n m
              (index + 1 + (lines.takeWhile (!closesFence · opening)).length + 1) _ (by omega)
              (by omega) (fun p hp => hapart p (List.mem_cons_of_mem _ hp)) rfl
            rw [sourceBlocks, if_neg hblank, hspan]
            simp only [hfence]
            rw [List.map_cons, closedCode_cons, ← hrest]
            cases lines.dropWhile (!closesFence · opening) with
            | nil => rfl
            | cons closer rest => rfl
          | none =>
            obtain ⟨hstart, ⟨rest, hlines⟩, hne, hkind, _⟩ :=
              proseBlock_spec rules spans index line lines
            simp only [hspan, hfence] at hapart ⊢
            rw [ProseApart, List.forall_mem_cons] at hapart
            have hskip := hapart.1 hkind
            rw [hstart] at hskip
            have hlen' := congrArg List.length hlines
            rw [List.length_append, List.length_cons] at hlen'
            have hpos := List.length_pos_iff.mpr hne
            have hdrop : (line :: lines).drop (proseBlock rules spans index line lines).lines.length =
                rest := by
              rw [← hlines, List.drop_left]
            rw [hdrop] at hapart ⊢
            have hfuel : m + 1 = (m + 1 - (proseBlock rules spans index line lines).lines.length) +
                (proseBlock rules spans index line lines).lines.length := by
              omega
            have hrest := ih rest.length (by omega) n
              (m + 1 - (proseBlock rules spans index line lines).lines.length) _ rest (by omega)
              (by omega) hapart.2 rfl
            rw [hfuel, ← hlines, sourceBlocks_skip _ _ _ _ hskip, hrest, List.map_cons,
              closedCode_cons, if_neg (by simp [hkind]), List.nil_append]

end Sources

section Conditions

variable (rules : LineRules) (prose : TextBlock → Str) (text : Str)

def blocksOf : List TextBlock := (parseTextDocument rules text).blocks

/-- No fence is hidden in prose, comes out of its rendering, or closes an open block. -/
def Quiet : Prop :=
  ProseApart (spansOf rules text) (placedBlocks rules text) ∧
    (∀ block ∈ blocksOf rules text, block.kind ≠ .code →
      ∀ l ∈ lineBodies (prose block), fenceMarker l = none) ∧
    ∀ block ∈ blocksOf rules text, block.kind = .code → block.closed = false →
      ∀ l ∈ blockLines block, closesFence l ticks = false

/-- No two blank lines in a row, and no line that closes the fence of the rendering. -/
def SoundCode : Prop :=
  ∀ block ∈ blocksOf rules text, block.kind = .code → block.closed = true →
    Sound (blockLines block)

/-- White space alone keeps no line from closing a block, and no other fence is in an open one. -/
def Definite : Prop :=
  ∀ block ∈ blocksOf rules text, block.kind = .code →
    Unpadded (blockOpener block) ∧ (∀ l ∈ blockLines block, Unpadded l) ∧
      (block.closed = false → ∀ l ∈ blockLines block, ¬Foreign l)

instance : Decidable (Quiet rules prose text) :=
  inferInstanceAs (Decidable ((∀ _ ∈ _, _ → ∀ _ ∈ _, _ ∧ _) ∧ (∀ _ ∈ _, _ → ∀ _ ∈ _, _) ∧
    ∀ _ ∈ _, _ → _ → ∀ _ ∈ _, _))

instance : Decidable (SoundCode rules text) := inferInstanceAs (Decidable (∀ _ ∈ _, _ → _ → _))

end Conditions

section Expected

variable {prose : TextBlock → Str} {source : List Str} {opener : Str}

theorem mem_pieceBlocks {pieces : List Piece} :
    (opener, source) ∈ pieces.filterMap pieceBlock? ↔ .code opener source ∈ pieces := by
  rw [List.mem_filterMap]
  constructor
  · intro ⟨piece, hmem, hblock⟩
    cases piece with
    | prose lines => cases hblock
    | code o s =>
      cases hblock
      exact hmem
  · intro hmem
    exact ⟨_, hmem, rfl⟩

theorem mem_partBlocks {parts : List Part} :
    (opener, source) ∈ parts.filterMap Part.block? ↔ .code opener source ∈ parts := by
  rw [List.mem_filterMap]
  constructor
  · intro ⟨part, hmem, hblock⟩
    cases part with
    | prose text => cases hblock
    | code o s =>
      cases hblock
      exact hmem
    | unclosed o s => cases hblock
  · intro hmem
    exact ⟨_, hmem, rfl⟩

theorem code_nonblank {block : TextBlock} (h : block.kind = .code) :
    isBlankText (blockPart prose block).text = false := by
  have hback : backtick ∈ blockOpener block := List.mem_append_left _ (by decide)
  rw [not_isBlankText, blockPart, if_pos h]
  split
  · exact ⟨backtick, List.mem_append_left _ hback, by decide⟩
  · exact ⟨backtick, List.mem_append_left _ hback, by decide⟩

variable {blocks : List TextBlock}

theorem mem_partsOf {part : Part} (h : part ∈ partsOf prose blocks) :
    ∃ block ∈ blocks, part = blockPart prose block ∧ isBlankText part.text = false := by
  rw [partsOf, List.mem_filter, List.mem_map, Bool.not_eq_true'] at h
  obtain ⟨⟨block, hmem, rfl⟩, hblank⟩ := h
  exact ⟨block, hmem, rfl, hblank⟩

theorem code_mem_partsOf : .code opener source ∈ partsOf prose blocks ↔ ∃ block ∈ blocks, block.kind = .code ∧
      block.closed = true ∧ opener = blockOpener block ∧ source = blockLines block := by
  constructor
  · intro h
    obtain ⟨block, hmem, heq, _⟩ := mem_partsOf h
    rw [blockPart] at heq
    split at heq
    · next hkind =>
      split at heq
      · next hclosed =>
        obtain ⟨ho, hs⟩ := Part.code.inj heq
        exact ⟨block, hmem, hkind, hclosed, ho, hs⟩
      · cases heq
    · cases heq
  · intro ⟨block, hmem, hkind, hclosed, ho, hs⟩
    rw [partsOf, List.mem_filter, List.mem_map]
    have heq : blockPart prose block = .code opener source := by
      rw [blockPart, if_pos hkind, if_pos hclosed, ho, hs]
    exact ⟨⟨block, hmem, heq⟩, by rw [← heq, code_nonblank hkind]; rfl⟩

theorem unclosed_mem_partsOf
    (h : .unclosed opener source ∈ partsOf prose blocks) : ∃ block ∈ blocks, block.kind = .code ∧
      block.closed = false ∧ opener = blockOpener block ∧ source = blockLines block := by
  obtain ⟨block, hmem, heq, _⟩ := mem_partsOf h
  rw [blockPart] at heq
  split at heq
  · next hkind =>
    split at heq
    · cases heq
    · next hclosed =>
      obtain ⟨ho, hs⟩ := Part.unclosed.inj heq
      exact ⟨block, hmem, hkind, Bool.eq_false_iff.mpr hclosed, ho, hs⟩
  · cases heq

def shownText (q : Str × List Str) : Option Str :=
  if isBlankText (join [newline] q.2) then none else some (join [newline] q.2)

theorem expected_eq (pieces : List Piece) :
    expected pieces = (pieces.filterMap pieceBlock?).filterMap shownText := by
  rw [List.filterMap_filterMap, expected]
  congr 1
  funext piece
  cases piece with
  | prose lines => rfl
  | code opener source => rfl

theorem partsOf_blocks (blocks : List TextBlock) :
    ((partsOf prose blocks).filterMap Part.block?).filterMap shownText =
      ((closedCode blocks).map rstripped).filter fun code => !isBlankText code := by
  induction blocks with
  | nil => rfl
  | cons block blocks ih =>
    have hparts : partsOf prose (block :: blocks) =
        (if isBlankText (blockPart prose block).text then [] else [blockPart prose block]) ++
          partsOf prose blocks := by
      rw [partsOf, List.map_cons, List.filter_cons]
      cases isBlankText (blockPart prose block).text with
      | true => rfl
      | false => rfl
    rw [hparts, List.filterMap_append, List.filterMap_append, ih, closedCode_cons, List.map_append,
      List.filter_append]
    congr 1
    by_cases hkind : block.kind = .code
    · rw [code_nonblank hkind, if_neg Bool.false_ne_true, blockPart, if_pos hkind,
        decide_eq_true hkind, Bool.true_and]
      cases block.closed with
      | true =>
        have hjoin : join [newline] (blockLines block) = rstripped block.text := join_splitNewline _
        simp only [if_true, List.filterMap_cons, Part.block?, shownText, hjoin, List.filterMap_nil,
          List.map_singleton, List.filter_cons, List.filter_nil]
        cases isBlankText (rstripped block.text) with
        | true => rfl
        | false => rfl
      | false => rfl
    · rw [blockPart, if_neg hkind, decide_eq_false hkind, Bool.false_and]
      split
      · rfl
      · rfl

end Expected

variable {rules : LineRules} {prose : TextBlock → Str} {text : Str}

theorem blocksOf_code (block : TextBlock) (h : block ∈ blocksOf rules text)
    (hkind : block.kind = .code) : CodeBlock block := by
  obtain ⟨placed, hmem, rfl⟩ := List.mem_map.mp h
  exact parseFrom_code _ _ (fun l hl => lineBodies_breakFree hl) placed hmem hkind

theorem partsOf_valid (hquiet : Quiet rules prose text) :
    ∀ p ∈ partsOf prose (blocksOf rules text), p.Valid := by
  intro p hp
  obtain ⟨block, hmem, rfl, hblank⟩ := mem_partsOf hp
  rw [blockPart] at hblank ⊢
  split
  · next hkind =>
    have hcode := codeText_of_block (blocksOf_code block hmem hkind)
    split
    · exact hcode
    · exact hcode
  · next hkind =>
    rw [if_neg hkind] at hblank
    exact ⟨hblank, no_marks_iff.mpr (hquiet.2.1 block hmem hkind)⟩

theorem mem_dropLast_filter {α : Type} {keep : α → Bool} {xs : List α} {x : α}
    (h : x ∈ (xs.filter keep).dropLast) : x ∈ xs.dropLast := by
  cases xs using List.reverseRecOn with
  | nil => cases h
  | append_singleton xs y _ =>
    rw [List.filter_append, List.filter_cons, List.filter_nil] at h
    rw [List.dropLast_concat]
    split at h
    · rw [List.dropLast_concat] at h
      exact (List.mem_filter.mp h).1
    · rw [List.append_nil] at h
      exact (List.mem_filter.mp (List.dropLast_subset _ h)).1

theorem partsOf_openLast : OpenLast (partsOf prose (blocksOf rules text)) := by
  intro p hp
  have hmem := mem_dropLast_filter hp
  rw [blocksOf, parseTextDocument, List.map_map, ← List.map_dropLast, List.mem_map] at hmem
  obtain ⟨placed, hplaced, rfl⟩ := hmem
  have hclosed := parseFrom_closed _ _ _ placed hplaced
  rw [Function.comp_apply, blockPart, if_pos hclosed]
  split
  · rfl
  · rfl

theorem expected_of_blocks {pieces : List Piece} (hquiet : Quiet rules prose text)
    (hblocks : pieces.filterMap pieceBlock? = (partsOf prose (blocksOf rules text)).filterMap Part.block?) :
    expected pieces = ((sourceCode rules text).map rstripped).filter fun code => !isBlankText code := by
  have hsource : sourceCode rules text = closedCode (blocksOf rules text) :=
    sourceBlocks_eq (fun span hspan => codeSpansFrom_lt rules _ _ _ hspan) _ _ _ _ (Nat.le_refl _)
      (Nat.le_refl _) hquiet.1
  rw [expected_eq, hblocks, partsOf_blocks, hsource]

theorem tail_lines {tail : List Str} (htail : TailOf (partsOf prose (blocksOf rules text)) tail) :
    tail = [] ∨ ∃ block ∈ blocksOf rules text, block.kind = .code ∧ block.closed = false ∧
      ∃ line lines, tail = line :: lines ∧
        (line = blockOpener block ∨ line = rstripped (blockOpener block)) ∧
        fenceMarker line = some ticks ∧ ∀ l ∈ lines, l = [] ∨ l ∈ blockLines block := by
  cases htail with
  | inl h => exact .inl h
  | inr h =>
    obtain ⟨opener, source, line, lines, hmem, htail, hline, hlines⟩ := h
    obtain ⟨block, hblock, hkind, hclosed, rfl, rfl⟩ := unclosed_mem_partsOf hmem
    have hcode := codeText_of_block (blocksOf_code block hblock hkind)
    refine .inr ⟨block, hblock, hkind, hclosed, line, lines, htail, hline, ?_, hlines⟩
    cases hline with
    | inl h => rw [h, hcode.marker]
    | inr h =>
      obtain ⟨b, hb, hspace⟩ := rstripped_split (blockOpener block)
      have hnl := opener_newline hcode
      rw [hb] at hnl
      rw [h, ← fenceMarker_append_blank hnl hspace, ← hb, hcode.marker]

theorem unpadded_prose {line : Str} (hnl : newline ∉ line) (h : fenceMarker line = none) : Unpadded line := by
  intro hclose
  obtain ⟨b, hb, hspace⟩ := rstripped_split line
  obtain ⟨fence, hfence, _⟩ := marker_of_closes hclose
  rw [hb] at hnl
  rw [← fenceMarker_append_blank hnl hspace, ← hb, h] at hfence
  cases hfence

/-- Where prose and open blocks have no part in it, the code of a text can be copied as it is
when it is sound; and only then, where its fences are definite. -/
theorem survives_iff (rules : LineRules) (prose : TextBlock → Str) (text : Str)
    (hquiet : Quiet rules prose text) : (SoundCode rules text → Survives rules prose text) ∧
      (Definite rules text → Survives rules prose text → SoundCode rules text) := by
  obtain ⟨pieces, tail, hlines, hapart, hblocks, htail⟩ :=
    shows_stripped (partsOf_valid hquiet) partsOf_openLast
  have hreads := splitForCopyableCode_reads (renderOnebotText rules prose text)
  have hrender : renderOnebotText rules prose text =
      stripped (collapse (joined (partsOf prose (blocksOf rules text)))) := renderRichText_eq _ _
  rw [← hrender] at hlines
  rw [hlines] at hreads
  have hexpected := expected_of_blocks hquiet hblocks
  have hcode : ∀ opener source, .code opener source ∈ pieces ↔ ∃ block ∈ blocksOf rules text,
      block.kind = .code ∧ block.closed = true ∧ opener = blockOpener block ∧
        source = blockLines block := by
    intro opener source
    rw [← mem_pieceBlocks, hblocks, mem_partBlocks, code_mem_partsOf]
  constructor
  · intro hsound
    have hopen : Open tail := by
      cases tail_lines htail with
      | inl h => exact .inl h
      | inr h =>
        obtain ⟨block, hmem, hkind, hclosed, line, lines, htail, _, hmarker, hrest⟩ := h
        refine .inr ⟨line, lines, htail, hmarker, fun l hl => ?_⟩
        cases hrest l hl with
        | inl h =>
          rw [h]
          decide
        | inr h => exact hquiet.2.2 block hmem hkind hclosed l h
    have hpieces := reads_pieces hapart (fun opener source h => by
      obtain ⟨block, hmem, hkind, hclosed, _, rfl⟩ := (hcode opener source).mp h
      exact hsound block hmem hkind hclosed) hopen
    have htrimmed : ∀ code ∈ ((sourceCode rules text).map rstripped).filter
        (fun code => !isBlankText code), rstripped code = id code := by
      intro code hmem
      obtain ⟨source, _, rfl⟩ := List.mem_map.mp (List.mem_filter.mp hmem).1
      exact rstripped_rstripped source
    rw [Survives, copiedCode, hreads.unique hpieces, hexpected, List.map_congr_left htrimmed, List.map_id]
  · intro hdefinite hsurvives block hmem hkind hclosed
    rw [Survives, ← hexpected] at hsurvives
    have hforeign : ∀ l ∈ tail, ¬Foreign l := by
      cases tail_lines htail with
      | inl h =>
        rw [h]
        exact List.forall_mem_nil _
      | inr h =>
        obtain ⟨b, hb, hbkind, hbclosed, line, lines, rfl, _, hmarker, hrest⟩ := h
        rw [List.forall_mem_cons]
        refine ⟨not_foreign_ticks hmarker, fun l hl => ?_⟩
        cases hrest l hl with
        | inl h =>
          rw [h]
          decide
        | inr h => exact (hdefinite b hb hbkind).2.2 hbclosed l h
    have hplain : ∀ l ∈ piecesLines pieces ++ tail, Plain l := by
      intro l hl
      have hline : l ∈ lineBodies (renderOnebotText rules prose text) := hlines ▸ hl
      refine ⟨newline_not_mem_line hline, ?_⟩
      cases List.mem_append.mp hl with
      | inl hl =>
        obtain ⟨piece, hpiece, hl⟩ := List.mem_flatMap.mp hl
        cases piece with
        | prose lines => exact unpadded_prose (newline_not_mem_line hline) (hapart _ hpiece l hl)
        | code opener source =>
          obtain ⟨b, hb, hbkind, _, rfl, rfl⟩ := (hcode opener source).mp hpiece
          rw [Piece.lines, List.mem_cons, List.mem_append, List.mem_singleton] at hl
          cases hl with
          | inl h => exact h ▸ (hdefinite b hb hbkind).1
          | inr h =>
            cases h with
            | inl h => exact (hdefinite b hb hbkind).2.1 l ((squeeze_sublist 1 _).subset h)
            | inr h => exact h ▸ fun _ => ticks_closes
      | inr hl =>
        cases tail_lines htail with
        | inl h =>
          rw [h] at hl
          cases hl
        | inr h =>
          obtain ⟨b, hb, hbkind, _, line, lines, rfl, hfirst, _, hrest⟩ := h
          cases List.mem_cons.mp hl with
          | inl hl =>
            rw [hl]
            cases hfirst with
            | inl h => exact h ▸ (hdefinite b hb hbkind).1
            | inr h =>
              rw [h, Unpadded, rstripped_rstripped]
              exact id
          | inr hl =>
            cases hrest l hl with
            | inl h =>
              rw [h]
              decide
            | inr h => exact (hdefinite b hb hbkind).2.1 l h
    exact sound_of_reads hapart hforeign hplain hreads hsurvives (blockOpener block)
      (blockLines block) ((hcode _ _).mpr ⟨block, hmem, hkind, hclosed, rfl, rfl⟩)

def fencedRules : LineRules where
  role _ := .prose
  defines _ := false
  guess _ := none
  isDigit _ := false

/-- A block in tildes, with one blank line in it, comes after a line of prose. -/
theorem survives_tildes : Survives fencedRules TextBlock.text (lit "see\n~~~py\na\n\n  b\n~~~") :=
  (survives_iff fencedRules TextBlock.text _ (by decide +kernel)).1 (by decide +kernel)

/-- Two blank lines in a row come out as one. -/
theorem blank_lines_collapse : ¬Survives fencedRules TextBlock.text (lit "```\na\n\n\nb\n```") := by
  decide +kernel

end Kirara.CodeSurvival
