import Kirara.PieceReading
import Kirara.RenderedText

namespace Kirara.RenderedPieces

open Kirara.CodePoints Kirara.Fences Kirara.StructuredText
open Kirara.FenceAgreement Kirara.LineBodies Kirara.CopyableCode Kirara.FencedPieces
open Kirara.PieceReading Kirara.RenderedText

inductive Part where
  | prose (text : Str)
  | code (opener : Str) (source : List Str)
  | unclosed (opener : Str) (source : List Str)

def Part.text : Part → Str
  | .prose text => text
  | .code opener source => opener ++ newline :: (join [newline] source ++ newline :: ticks)
  | .unclosed opener source => opener ++ newline :: join [newline] source

/-- An opener and the lines of a source, as they come from a document. -/
structure CodeText (opener : Str) (source : List Str) : Prop where
  marker : fenceMarker opener = some ticks
  start : opener.head? = some backtick
  opener_line : ∀ c ∈ opener, isLineBreak c = false
  source_lines : ∀ l ∈ source, ∀ c ∈ l, isLineBreak c = false
  lines : CodeLines source

def Part.Valid : Part → Prop
  | .prose text => isBlankText text = false ∧ marks text = []
  | .code opener source => CodeText opener source
  | .unclosed opener source => CodeText opener source

def Part.block? : Part → Option (Str × List Str)
  | .code opener source => some (opener, source)
  | _ => none

def pieceBlock? : Piece → Option (Str × List Str)
  | .code opener source => some (opener, source)
  | .prose _ => none

/-- Lines of a block that is not closed, at the end. -/
def TailOf (parts : List Part) (tail : List Str) : Prop :=
  tail = [] ∨ ∃ opener source line lines, .unclosed opener source ∈ parts ∧ tail = line :: lines ∧
    (line = opener ∨ line = rstripped opener) ∧ ∀ l ∈ lines, l = [] ∨ l ∈ source

/-- The lines show the parts: prose without fences, and code between fences. -/
def Shows (parts : List Part) (lines : List Str) : Prop :=
  ∃ pieces tail, lines = piecesLines pieces ++ tail ∧ (∀ p ∈ pieces, p.Apart) ∧
    pieces.filterMap pieceBlock? = parts.filterMap Part.block? ∧ TailOf parts tail

section Shown

variable {parts : List Part} {lines : List Str}

theorem TailOf.cons {tail : List Str} (h : TailOf parts tail) (p : Part) : TailOf (p :: parts) tail := by
  cases h with
  | inl h => exact .inl h
  | inr h =>
    obtain ⟨opener, source, line, lines, hmem, hrest⟩ := h
    exact .inr ⟨opener, source, line, lines, List.mem_cons_of_mem _ hmem, hrest⟩

theorem shows_nil : Shows [] [] :=
  ⟨[], [], rfl, List.forall_mem_nil _, rfl, .inl rfl⟩

theorem Shows.skip (h : Shows parts lines) {more : List Str} (hmore : ∀ l ∈ more, fenceMarker l = none) :
    Shows parts (more ++ lines) := by
  obtain ⟨pieces, tail, rfl, hapart, hblocks, htail⟩ := h
  refine ⟨.prose more :: pieces, tail, ?_, ?_, hblocks, htail⟩
  · rw [piecesLines_cons, List.append_assoc]
    rfl
  · rw [List.forall_mem_cons]
    exact ⟨hmore, hapart⟩

theorem Shows.prose (h : Shows parts lines) {more : List Str} (text : Str)
    (hmore : ∀ l ∈ more, fenceMarker l = none) : Shows (.prose text :: parts) (more ++ lines) := by
  obtain ⟨pieces, tail, hlines, hapart, hblocks, htail⟩ := h.skip hmore
  exact ⟨pieces, tail, hlines, hapart, hblocks, htail.cons _⟩

theorem Shows.code (h : Shows parts lines) {opener : Str} {source : List Str} (hcode : CodeText opener source) :
    Shows (.code opener source :: parts) (opener :: (squeeze 1 source ++ ticks :: lines)) := by
  obtain ⟨pieces, tail, rfl, hapart, hblocks, htail⟩ := h
  refine ⟨.code opener source :: pieces, tail, ?_, ?_, ?_, htail.cons _⟩
  · rw [piecesLines_cons, List.append_assoc, code_lines]
  · rw [List.forall_mem_cons]
    exact ⟨⟨hcode.marker, hcode.lines⟩, hapart⟩
  · rw [List.filterMap_cons, List.filterMap_cons, hblocks]
    rfl

theorem shows_unclosed {opener : Str} {source more : List Str} {line : Str}
    (hline : line = opener ∨ line = rstripped opener) (hmore : ∀ l ∈ more, l = [] ∨ l ∈ source) :
    Shows [.unclosed opener source] (line :: more) :=
  ⟨[], line :: more, rfl, List.forall_mem_nil _, rfl,
    .inr ⟨opener, source, line, more, List.mem_cons_self, rfl, hline, hmore⟩⟩

end Shown

variable {opener : Str} {source : List Str} {ls : List Str}

theorem join_newline (hne : ls ≠ []) (t : Str) :
    join [newline] ls ++ newline :: t = ls.flatMap (· ++ [newline]) ++ t := by
  induction ls with
  | nil => exact absurd rfl hne
  | cons l ls ih =>
    cases ls with
    | nil => simp [join]
    | cons k ks =>
      rw [join_cons, List.append_assoc, List.cons_append, ih (List.cons_ne_nil k ks)]
      simp

theorem collapseFrom_lines (hls : ∀ l ∈ ls, newline ∉ l) {c : CodePoint}
    (hc : c ≠ newline) (k : Nat) (t : Str) : collapseFrom k (ls.flatMap (· ++ [newline]) ++ c :: t) =
      (squeeze k ls).flatMap (· ++ [newline]) ++ c :: collapseFrom 0 t := by
  induction ls generalizing k with
  | nil => exact collapseFrom_cons hc k t
  | cons l ls ih =>
    rw [List.forall_mem_cons] at hls
    rw [List.flatMap_cons, List.append_assoc, List.append_assoc, List.singleton_append, squeeze]
    by_cases hl : l = []
    · rw [if_pos hl, hl, List.nil_append, collapseFrom, if_pos rfl]
      split
      · exact ih hls.2 k
      · rw [ih hls.2 (k + 1), List.flatMap_cons, List.nil_append, List.append_assoc]
        rfl
    · rw [if_neg hl, collapseFrom_line hls.1 hl, collapseFrom, if_pos rfl, if_neg (by decide),
        ih hls.2 1, List.flatMap_cons, List.append_assoc, List.append_assoc, List.singleton_append]

theorem lineBodies_lines (hls : ∀ l ∈ ls, ∀ c ∈ l, isLineBreak c = false) (t : Str) :
    lineBodies (ls.flatMap (· ++ [newline]) ++ t) = ls ++ lineBodies t := by
  induction ls with
  | nil => rfl
  | cons l ls ih =>
    rw [List.forall_mem_cons] at hls
    rw [List.flatMap_cons, List.append_assoc, List.append_assoc, List.singleton_append,
      lineBodies_line hls.1, ih hls.2, List.cons_append]

theorem not_isBlankText {t : Str} : isBlankText t = false ↔ ∃ c ∈ t, isSpace c = false := by
  rw [Bool.eq_false_iff, ne_eq, isBlankText_iff]
  simp

theorem isBlankText_collapseFrom {t : Str} (h : isBlankText t = false) (k : Nat) :
    isBlankText (collapseFrom k t) = false := by
  rw [not_isBlankText] at h ⊢
  obtain ⟨c, hc, hspace⟩ := h
  have hne : c ≠ newline := by
    intro heq
    rw [heq] at hspace
    exact absurd hspace (by decide)
  exact ⟨c, mem_collapseFrom hc hne k, hspace⟩

theorem rstripped_append {v : Str} (h : isBlankText v = false) (u : Str) :
    rstripped (u ++ v) = u ++ rstripped v := by
  obtain ⟨b, hb, hspace⟩ := rstripped_split v
  have hne : rstripped v ≠ [] := by
    intro hnil
    rw [hnil, List.nil_append] at hb
    rw [hb, Bool.eq_false_iff, ne_eq, isBlankText_iff] at h
    exact h hspace
  have htrim : rstripped (u ++ rstripped v) = u ++ rstripped v := by
    have hself := rstripped_rstripped v
    rw [rstripped, List.rdropWhile_eq_self_iff] at hself ⊢
    intro hu
    rw [List.getLast_append_of_ne_nil _ hne]
    exact hself hne
  calc rstripped (u ++ v) = rstripped ((u ++ rstripped v) ++ b) := by rw [List.append_assoc, ← hb]
    _ = u ++ rstripped v := rstripped_append_blank htrim hspace

theorem ticks_breakFree : ∀ c ∈ ticks, isLineBreak c = false := by
  intro c hc
  have hticks : ticks = List.replicate 3 backtick := by decide
  rw [hticks] at hc
  rw [List.eq_of_mem_replicate hc]
  decide

variable (h : CodeText opener source)

include h

theorem opener_ne_nil : opener ≠ [] := by
  intro hnil
  have hstart := h.start
  rw [hnil] at hstart
  cases hstart

theorem opener_newline : newline ∉ opener :=
  fun hm => not_isLineBreak (h.opener_line newline hm) rfl

theorem collapseFrom_code (k : Nat) (t : Str) :
    collapseFrom k ((Part.code opener source).text ++ t) = opener ++ newline ::
      ((squeeze 1 source).flatMap (· ++ [newline]) ++ (ticks ++ collapseFrom 0 t)) := by
  have hticks : ticks = backtick :: (lit "``") := by decide
  have hback : backtick ≠ newline := by decide
  have hmore : newline ∉ lit "``" := by decide
  have htext : (Part.code opener source).text ++ t =
      opener ++ newline :: (source.flatMap (· ++ [newline]) ++ backtick :: (lit "``" ++ t)) := by
    rw [Part.text, join_newline h.lines.nonempty, hticks]
    simp
  rw [htext, collapseFrom_line (opener_newline h) (opener_ne_nil h), collapseFrom, if_pos rfl,
    if_neg (by decide), collapseFrom_lines h.lines.newlines hback,
    collapseFrom_line hmore (by decide), hticks, List.cons_append]

theorem lineBodies_code (t : Str) :
    lineBodies (opener ++ newline :: ((squeeze 1 source).flatMap (· ++ [newline]) ++ t)) =
      opener :: (squeeze 1 source ++ lineBodies t) := by
  have hlines : ∀ l ∈ squeeze 1 source, ∀ c ∈ l, isLineBreak c = false :=
    fun l hl => h.source_lines l ((squeeze_sublist 1 source).subset hl)
  rw [lineBodies_line h.opener_line, lineBodies_lines hlines]

omit h

variable {parts : List Part}

def isUnclosed : Part → Bool
  | .unclosed _ _ => true
  | _ => false

/-- The text of parts, with a blank line between them. -/
def joined (parts : List Part) : Str := join [newline, newline] (parts.map Part.text)

theorem joined_cons (p q : Part) (ps : List Part) :
    joined (p :: q :: ps) = p.text ++ newline :: newline :: joined (q :: ps) := by
  simp [joined, join]

theorem joined_nonblank (hne : parts ≠ []) (hvalid : ∀ p ∈ parts, p.Valid) :
    isBlankText (joined parts) = false := by
  obtain ⟨p, ps, rfl⟩ := List.exists_cons_of_ne_nil hne
  have htext : isBlankText p.text = false := by
    have hp := hvalid p List.mem_cons_self
    have hopener : ∀ {opener source}, CodeText opener source → ∀ t,
        isBlankText (opener ++ t) = false := by
      intro opener source h t
      obtain ⟨cs, hcs⟩ := List.head?_eq_some_iff.mp h.start
      rw [not_isBlankText, hcs]
      exact ⟨backtick, List.mem_cons_self, by decide⟩
    cases p with
    | prose text => exact hp.1
    | code opener source => exact hopener hp _
    | unclosed opener source => exact hopener hp _
  cases ps with
  | nil =>
    rw [joined, List.map_singleton, join, List.intercalate_singleton]
    exact htext
  | cons q qs =>
    rw [not_isBlankText] at htext ⊢
    obtain ⟨c, hc, hspace⟩ := htext
    exact ⟨c, by rw [joined_cons]; exact List.mem_append_left _ hc, hspace⟩

theorem shows_prose {x y : Str} {text : Str} (hx : marks (x ++ [newline]) = [])
    (hy : isBlankText y = false) (h : Shows parts (lineBodies (rstripped y))) :
    Shows (.prose text :: parts) (lineBodies (rstripped ((x ++ [newline]) ++ y))) := by
  rw [rstripped_append hy, List.append_assoc, List.singleton_append, lineBodies_newline]
  exact h.prose text (no_marks_iff.mp hx)

theorem prose_newline {text : Str} (h : isBlankText text = false) (k : Nat) (t : Str) :
    ∃ a j, collapseFrom k (text ++ newline :: newline :: t) = (a ++ [newline]) ++ collapseFrom j t ∧
      marks (a ++ [newline]) = marks text ∧ isBlankText a = false := by
  rw [not_isBlankText] at h
  obtain ⟨c, hc, hspace⟩ := h
  have hne : c ≠ newline := by
    intro heq
    rw [heq] at hspace
    exact absurd hspace (by decide)
  obtain ⟨a, ha⟩ := collapseFrom_newline (u := text ++ [newline])
    ⟨c, List.mem_append_left _ hc, hne⟩ k
  obtain ⟨j, hj⟩ := collapseFrom_append k (text ++ [newline] ++ [newline])
  refine ⟨a, j, ?_, ?_, ?_⟩
  · rw [← ha, ← hj]
    simp
  · have hspaces : isSpace newline = true := by decide
    have hblank : ∀ d ∈ [newline] ++ [newline], isSpace d = true := by
      intro d hd
      rw [List.mem_append, List.mem_singleton, or_self] at hd
      rw [hd, hspaces]
    rw [← ha, marks_collapseFrom, List.append_assoc]
    exact marks_append_blank text hblank
  · rw [not_isBlankText]
    have hmem := mem_collapseFrom (List.mem_append_left [newline] (List.mem_append_left [newline] hc))
      hne k
    rw [ha, List.mem_append, List.mem_singleton] at hmem
    exact ⟨c, hmem.resolve_right hne, hspace⟩

theorem lineBodies_join {opener : Str} {source : List Str} (h : CodeText opener source) :
    ∀ l ∈ lineBodies (join [newline] source), l ∈ source := by
  have hall : lineBodies (join [newline] source ++ [newline]) = source := by
    have hlong := lineBodies_lines h.source_lines []
    rw [← join_newline h.lines.nonempty, lineBodies_nil, List.append_nil] at hlong
    exact hlong
  intro l hl
  rw [← hall]
  cases lineBodies_snoc_break isLineBreak_newline (join [newline] source) with
  | inl hsame => rwa [hsame]
  | inr hmore =>
    rw [hmore]
    exact List.mem_append_left _ hl

theorem collapseFrom_trimmed {t : Str} (h : rstripped t = t) (k : Nat) :
    rstripped (collapseFrom k t) = collapseFrom k t := by
  cases t using List.reverseRecOn with
  | nil => rfl
  | append_singleton u c _ =>
    rw [rstripped, List.rdropWhile_eq_self_iff] at h
    have hc : ¬isSpace c = true := by simpa using h (by simp)
    have hne : c ≠ newline := by
      intro heq
      rw [heq] at hc
      exact hc (by decide)
    obtain ⟨j, hj⟩ := collapseFrom_append k u
    rw [hj, collapseFrom_cons hne, collapseFrom]
    exact List.rdropWhile_concat_neg isSpace _ c hc

theorem shows_last_unclosed {opener : Str} {source : List Str} (h : CodeText opener source) (k : Nat) :
    Shows [.unclosed opener source]
      (lineBodies (rstripped (collapseFrom k (Part.unclosed opener source).text))) := by
  rw [Part.text, collapseFrom_line (opener_newline h) (opener_ne_nil h), collapseFrom, if_pos rfl,
    if_neg (by decide)]
  cases hblank : isBlankText (join [newline] source) with
  | true =>
    have hone := codeLines_blank h.lines hblank
    have hbreak : ∀ c ∈ rstripped opener, isLineBreak c = false :=
      fun c hc => h.opener_line c ((List.rdropWhile_prefix isSpace opener).subset hc)
    have hne : rstripped opener ≠ [] := by
      intro hnil
      rw [rstripped, List.rdropWhile_eq_nil_iff] at hnil
      have hspace := hnil backtick (List.mem_of_head? h.start)
      exact absurd hspace (by decide)
    have hempty : opener ++ newline :: collapseFrom (0 + 1) (join [newline] source) =
        opener ++ [newline] := by
      rw [hone]
      rfl
    have hstrip : rstripped (opener ++ [newline]) = rstripped opener :=
      List.rdropWhile_concat_pos _ _ _ (by decide)
    rw [hempty, hstrip, lineBodies_single hbreak hne]
    exact shows_unclosed (.inr rfl) (List.forall_mem_nil _)
  | false =>
    have hbody := isBlankText_collapseFrom hblank (0 + 1)
    have hlines := lines_collapseFrom (0 + 1) (join [newline] source)
    have hsource := lineBodies_join h
    have htrim : rstripped (collapseFrom (0 + 1) (join [newline] source)) =
        collapseFrom (0 + 1) (join [newline] source) :=
      collapseFrom_trimmed h.lines.trimmed (0 + 1)
    have happend := rstripped_append hbody (opener ++ [newline])
    rw [List.append_assoc, List.append_assoc, List.singleton_append, List.singleton_append,
      htrim] at happend
    rw [happend, lineBodies_line h.opener_line]
    refine shows_unclosed (.inl rfl) fun l hl => ?_
    by_cases hnil : l = []
    · exact .inl hnil
    have hkept : l ∈ (lineBodies (join [newline] source)).filter (· ≠ []) := by
      rw [← hlines, List.mem_filter]
      exact ⟨hl, by simpa using hnil⟩
    exact .inr (hsource l (List.mem_filter.mp hkept).1)

theorem shows_last_code {opener : Str} {source : List Str} (h : CodeText opener source) (k : Nat) :
    Shows [.code opener source]
      (lineBodies (rstripped (collapseFrom k (Part.code opener source).text))) := by
  have htext := collapseFrom_code h k []
  have hticks : isBlankText ticks = false := by decide
  have hself : rstripped ticks = ticks := by decide
  have hline : lineBodies ticks = [ticks] := lineBodies_single ticks_breakFree (by decide)
  rw [List.append_nil, collapseFrom, List.append_nil] at htext
  have hstrip := rstripped_append hticks
    (opener ++ newline :: (squeeze 1 source).flatMap (· ++ [newline]))
  rw [hself, List.append_assoc, List.cons_append] at hstrip
  rw [htext, hstrip, lineBodies_code h, hline]
  exact shows_nil.code h

theorem shows_code {opener : Str} {source : List Str} (h : CodeText opener source) {rest : Str}
    (hrest : isBlankText rest = false)
    (hshows : ∀ k, Shows parts (lineBodies (rstripped (collapseFrom k rest)))) (k : Nat) :
    Shows (.code opener source :: parts) (lineBodies (rstripped
      (collapseFrom k ((Part.code opener source).text ++ newline :: newline :: rest)))) := by
  have htwo : collapseFrom 0 (newline :: newline :: rest) =
      newline :: newline :: collapseFrom 2 rest := by
    rw [collapseFrom, if_pos rfl, if_neg (by decide), collapseFrom, if_pos rfl, if_neg (by decide)]
  have hstrip := rstripped_append (isBlankText_collapseFrom hrest 2)
    (opener ++ newline :: ((squeeze 1 source).flatMap (· ++ [newline]) ++ (ticks ++ [newline, newline])))
  have hflat : opener ++ newline :: ((squeeze 1 source).flatMap (· ++ [newline]) ++
      (ticks ++ newline :: newline :: collapseFrom 2 rest)) =
      (opener ++ newline :: ((squeeze 1 source).flatMap (· ++ [newline]) ++
        (ticks ++ [newline, newline]))) ++ collapseFrom 2 rest := by
    simp
  have hback : (opener ++ newline :: ((squeeze 1 source).flatMap (· ++ [newline]) ++
      (ticks ++ [newline, newline]))) ++ rstripped (collapseFrom 2 rest) =
      opener ++ newline :: ((squeeze 1 source).flatMap (· ++ [newline]) ++
        (ticks ++ newline :: newline :: rstripped (collapseFrom 2 rest))) := by
    simp
  have hempty : ∀ l ∈ ([[]] : List Str), fenceMarker l = none := List.forall_mem_singleton.mpr rfl
  rw [collapseFrom_code h, htwo, hflat, hstrip, hback, lineBodies_code h,
    lineBodies_line ticks_breakFree, lineBodies_newline_cons]
  exact ((hshows 2).skip hempty).code h

/-- Only the last part may be a block that is not closed. -/
def OpenLast (parts : List Part) : Prop := ∀ p ∈ parts.dropLast, isUnclosed p = false

theorem OpenLast.tail {p q : Part} {ps : List Part} (h : OpenLast (p :: q :: ps)) :
    isUnclosed p = false ∧ OpenLast (q :: ps) :=
  List.forall_mem_cons.mp h

theorem shows_joined (hne : parts ≠ []) (hvalid : ∀ p ∈ parts, p.Valid) (hopen : OpenLast parts)
    (k : Nat) : Shows parts (lineBodies (rstripped (collapseFrom k (joined parts)))) := by
  induction parts generalizing k with
  | nil => exact absurd rfl hne
  | cons p ps ih =>
    rw [List.forall_mem_cons] at hvalid
    cases ps with
    | nil =>
      rw [joined, List.map_singleton, join, List.intercalate_singleton]
      cases p with
      | prose text =>
        have hmarks : marks (rstripped (collapseFrom k text)) = [] := by
          rw [marks_rstripped, marks_collapseFrom, hvalid.1.2]
        have hlast := shows_nil.prose text (no_marks_iff.mp hmarks)
        rwa [List.append_nil] at hlast
      | code opener source => exact shows_last_code hvalid.1 k
      | unclosed opener source => exact shows_last_unclosed hvalid.1 k
    | cons q qs =>
      obtain ⟨hclosed, hopen⟩ := hopen.tail
      have hrest := joined_nonblank (List.cons_ne_nil q qs) hvalid.2
      have hshows := ih (List.cons_ne_nil q qs) hvalid.2 hopen
      rw [joined_cons]
      cases p with
      | prose text =>
        obtain ⟨a, j, hsplit, hmarks, _⟩ := prose_newline hvalid.1.1 k (joined (q :: qs))
        rw [Part.text, hsplit]
        exact shows_prose (hmarks.trans hvalid.1.2) (isBlankText_collapseFrom hrest j) (hshows j)
      | code opener source => exact shows_code hvalid.1 hrest hshows k
      | unclosed opener source => cases hclosed

theorem shows_stripped (hvalid : ∀ p ∈ parts, p.Valid) (hopen : OpenLast parts) :
    Shows parts (lineBodies (stripped (collapse (joined parts)))) := by
  have hstart : ∀ {opener source}, CodeText opener source → ∀ t,
      (collapseFrom 0 (opener ++ t)).dropWhile isSpace = collapseFrom 0 (opener ++ t) := by
    intro opener source h t
    obtain ⟨cs, hcs⟩ := List.head?_eq_some_iff.mp h.start
    rw [hcs, List.cons_append, collapseFrom_cons (by decide),
      List.dropWhile_cons_of_neg (by decide)]
  cases parts with
  | nil => exact shows_nil
  | cons p ps =>
    have hshows := shows_joined (List.cons_ne_nil p ps) hvalid hopen 0
    rw [stripped, ← rstripped, collapse]
    cases ps with
    | nil =>
      rw [joined, List.map_singleton, join, List.intercalate_singleton] at hshows ⊢
      cases p with
      | prose text =>
        have hmarks : marks (rstripped ((collapseFrom 0 text).dropWhile isSpace)) = [] := by
          rw [marks_rstripped, marks_dropWhile, marks_collapseFrom, (hvalid _ List.mem_cons_self).2]
        have hlast := shows_nil.prose text (no_marks_iff.mp hmarks)
        rwa [List.append_nil] at hlast
      | code opener source =>
        rw [Part.text, hstart (hvalid _ List.mem_cons_self)]
        exact hshows
      | unclosed opener source =>
        rw [Part.text, hstart (hvalid _ List.mem_cons_self)]
        exact hshows
    | cons q qs =>
      rw [joined_cons] at hshows ⊢
      cases p with
      | prose text =>
        rw [List.forall_mem_cons] at hvalid
        obtain ⟨_, hopen⟩ := hopen.tail
        have hrest := joined_nonblank (List.cons_ne_nil q qs) hvalid.2
        have hlater := shows_joined (List.cons_ne_nil q qs) hvalid.2 hopen
        obtain ⟨a, j, hsplit, hmarks, ha⟩ := prose_newline hvalid.1.1 0 (joined (q :: qs))
        have hdrop : ((a ++ [newline]) ++ collapseFrom j (joined (q :: qs))).dropWhile isSpace =
            (a.dropWhile isSpace ++ [newline]) ++ collapseFrom j (joined (q :: qs)) := by
          have hne : (a.dropWhile isSpace).isEmpty = false := by
            rw [List.isEmpty_eq_false_iff, ne_eq, List.dropWhile_eq_nil_iff]
            intro hblank
            rw [Bool.eq_false_iff, ne_eq, isBlankText_iff] at ha
            exact ha hblank
          rw [List.append_assoc, List.dropWhile_append, hne, if_neg Bool.false_ne_true, List.append_assoc]
        have hmarks' : marks (a.dropWhile isSpace ++ [newline]) = [] := by
          have hspace : isSpace newline = true := by decide
          rw [marks_snoc hspace, marks_dropWhile, ← marks_snoc hspace, hmarks, hvalid.1.2]
        rw [Part.text, hsplit, hdrop]
        exact shows_prose hmarks' (isBlankText_collapseFrom hrest j) (hlater j)
      | code opener source =>
        rw [Part.text, List.append_assoc, hstart (hvalid _ List.mem_cons_self)]
        rw [Part.text, List.append_assoc] at hshows
        exact hshows
      | unclosed opener source =>
        rw [Part.text, List.append_assoc, hstart (hvalid _ List.mem_cons_self)]
        rw [Part.text, List.append_assoc] at hshows
        exact hshows

end Kirara.RenderedPieces
