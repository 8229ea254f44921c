import Kirara.FencedPieces

namespace Kirara.PieceReading

open Kirara.CodePoints Kirara.Fences
open Kirara.FenceAgreement Kirara.LineBodies Kirara.CopyableCode Kirara.FencedPieces

/-- A rendered text: prose, or code by its opening line and the lines of its source. -/
inductive Piece where
  | prose (lines : List Str)
  | code (opener : Str) (source : List Str)

def Piece.lines : Piece → List Str
  | .prose lines => lines
  | .code opener source => opener :: (squeeze 1 source ++ [ticks])

def piecesLines (pieces : List Piece) : List Str := pieces.flatMap Piece.lines

def Piece.code? : Piece → Option Str
  | .prose _ => none
  | .code _ source =>
    if isBlankText (join [newline] source) then none else some (join [newline] source)

def expected (pieces : List Piece) : List Str := pieces.filterMap Piece.code?

/-- Prose without fences, and code that is opened by the fence that ends it. -/
def Piece.Apart : Piece → Prop
  | .prose lines => ∀ l ∈ lines, fenceMarker l = none
  | .code opener source => fenceMarker opener = some ticks ∧ CodeLines source

def Sound (source : List Str) : Prop :=
  NoBlankRun source ∧ ∀ l ∈ source, closesFence l ticks = false

instance (source : List Str) : Decidable (Sound source) := inferInstanceAs (Decidable (_ ∧ _))

/-- What may come after the pieces: a block that is not closed. -/
def Open (tail : List Str) : Prop :=
  tail = [] ∨ ∃ opener lines, tail = opener :: lines ∧ fenceMarker opener = some ticks ∧
    ∀ l ∈ lines, closesFence l ticks = false

variable {pieces : List Piece} {tail codes : List Str}

@[simp] theorem piecesLines_nil : piecesLines [] = [] := rfl

@[simp] theorem piecesLines_cons (p : Piece) (ps : List Piece) :
    piecesLines (p :: ps) = p.lines ++ piecesLines ps := rfl

theorem expected_code (opener : Str) (source : List Str) (ps : List Piece) :
    expected (.code opener source :: ps) =
      (if isBlankText (join [newline] source) then [] else [join [newline] source]) ++ expected ps := by
  rw [expected, List.filterMap_cons, Piece.code?]
  cases isBlankText (join [newline] source) with
  | true => rfl
  | false => rfl

theorem code_lines (opener : Str) (source more : List Str) :
    (Piece.code opener source).lines ++ more = opener :: (squeeze 1 source ++ ticks :: more) := by
  simp [Piece.lines]

theorem reads_open (h : Open tail) : Reads tail [] := by
  cases h with
  | inl h =>
    rw [h]
    exact Reads.nil
  | inr h =>
    obtain ⟨opener, lines, rfl, hm, hlines⟩ := h
    exact Reads.unclosed hm hlines

theorem reads_pieces (hapart : ∀ p ∈ pieces, p.Apart)
    (hsound : ∀ opener source, .code opener source ∈ pieces → Sound source) (htail : Open tail) :
    Reads (piecesLines pieces ++ tail) (expected pieces) := by
  induction pieces with
  | nil => exact reads_open htail
  | cons p ps ih =>
    rw [List.forall_mem_cons] at hapart
    have hrest := ih hapart.2 fun opener source h => hsound opener source (List.mem_cons_of_mem _ h)
    rw [piecesLines_cons, List.append_assoc]
    cases p with
    | prose lines => exact (reads_prose_iff hapart.1).mpr hrest
    | code opener source =>
      obtain ⟨hrun, hclose⟩ := hsound opener source List.mem_cons_self
      rw [code_lines, (squeeze_eq_iff source).mpr hrun, expected_code]
      exact Reads.code hapart.1.1 hclose ticks_closes hrest

theorem not_foreign_ticks {line : Str} (h : fenceMarker line = some ticks) : ¬Foreign line := by
  intro hforeign
  obtain ⟨marker, hm, hne⟩ := hforeign
  rw [h, Option.some.injEq] at hm
  exact hne hm.symm

theorem foreign_inside (hapart : ∀ p ∈ pieces, p.Apart) (htail : ∀ l ∈ tail, ¬Foreign l)
    {before after : List Str} {line : Str} (hline : Foreign line)
    (h : piecesLines pieces ++ tail = before ++ line :: after) :
    ∃ earlier opener source later rest, pieces = earlier ++ .code opener source :: later ∧
      line ∈ source ∧ rest.length < source.length ∧
      after = rest ++ ticks :: (piecesLines later ++ tail) := by
  induction pieces generalizing before with
  | nil =>
    rw [piecesLines_nil, List.nil_append] at h
    exact absurd hline (htail line (h ▸ List.mem_append_right _ List.mem_cons_self))
  | cons p ps ih =>
    rw [List.forall_mem_cons] at hapart
    have hlater : ∀ before', piecesLines ps ++ tail = before' ++ line :: after →
        ∃ earlier opener source later rest, p :: ps = earlier ++ .code opener source :: later ∧
          line ∈ source ∧ rest.length < source.length ∧
          after = rest ++ ticks :: (piecesLines later ++ tail) := by
      intro before' h'
      obtain ⟨earlier, opener, source, later, rest, hps, hrest⟩ := ih hapart.2 h'
      exact ⟨p :: earlier, opener, source, later, rest, by rw [hps, List.cons_append], hrest⟩
    rw [piecesLines_cons, List.append_assoc] at h
    cases List.append_eq_append_iff.mp h with
    | inl hlong =>
      obtain ⟨more, hmore, hrest⟩ := hlong
      exact hlater more hrest
    | inr hshort =>
      obtain ⟨more, hmore, hrest⟩ := hshort
      cases more with
      | nil => exact hlater [] hrest.symm
      | cons l more =>
        obtain ⟨rfl, hafter⟩ := List.cons.inj hrest
        cases p with
        | prose lines =>
          rw [Piece.lines] at hmore
          obtain ⟨marker, hm, _⟩ := hline
          have hnone := hapart.1 line (hmore ▸ List.mem_append_right _ List.mem_cons_self)
          rw [hm] at hnone
          cases hnone
        | code opener source =>
          cases before with
          | nil =>
            rw [Piece.lines, List.nil_append] at hmore
            rw [← (List.cons.inj hmore).1] at hline
            exact absurd hline (not_foreign_ticks hapart.1.1)
          | cons b before =>
            rw [Piece.lines, List.cons_append] at hmore
            have hbody := (List.cons.inj hmore).2
            cases more using List.reverseRecOn with
            | nil =>
              have hlast := congrArg List.getLast? hbody
              rw [List.getLast?_concat, List.getLast?_concat, Option.some.injEq] at hlast
              rw [← hlast] at hline
              exact absurd hline (not_foreign_ticks ticks_marker)
            | append_singleton rest x _ =>
              rw [← List.cons_append, ← List.append_assoc] at hbody
              obtain ⟨hsqueeze, hx⟩ := List.append_inj' hbody rfl
              have hmem : line ∈ squeeze 1 source :=
                hsqueeze ▸ List.mem_append_right _ List.mem_cons_self
              have hlen := squeeze_length 1 source
              rw [hsqueeze, List.length_append, List.length_cons] at hlen
              refine ⟨[], opener, source, ps, rest, rfl, (squeeze_sublist 1 source).subset hmem,
                by omega, ?_⟩
              rw [hafter, ← List.singleton_inj.mp hx]
              simp

theorem foreign_found {rest after before body more : List Str} {line closer marker : Str}
    (h : rest ++ ticks :: after = before ++ line :: (body ++ closer :: more))
    (hm : fenceMarker line = some marker) (hbody : ∀ l ∈ body, closesFence l marker = false)
    (hclose : closesFence closer marker = true) (hlen : rest.length < body.length)
    (hstrong : ∃ l ∈ body, Strong l) :
    ∃ earlier l later, after = earlier ++ l :: later ∧ Foreign l ∧ more <:+ later := by
  obtain ⟨l, hl, hstrong⟩ := hstrong
  have hinside : Foreign l → ∃ c d, body = c ++ l :: d ∧ Foreign l := fun hforeign => by
    obtain ⟨c, d, hcd⟩ := List.append_of_mem hl
    exact ⟨c, d, hcd, hforeign⟩
  have hsame : line = ticks → after = body ++ closer :: more →
      ∃ earlier l later, after = earlier ++ l :: later ∧ Foreign l ∧ more <:+ later := by
    intro hticks hafter
    rw [hticks, ticks_marker, Option.some.injEq] at hm
    cases hstrong with
    | inl hforeign =>
      obtain ⟨c, d, hcd, hforeign⟩ := hinside hforeign
      exact ⟨c, l, d ++ closer :: more, by rw [hafter, hcd]; simp, hforeign, d ++ [closer], by simp⟩
    | inr hcl =>
      rw [← hm] at hbody
      rw [hbody l hl] at hcl
      cases hcl
  cases List.append_eq_append_iff.mp h with
  | inl hlong =>
    obtain ⟨b, _, hb⟩ := hlong
    cases b with
    | nil => exact hsame (List.cons.inj hb).1.symm (List.cons.inj hb).2
    | cons c b =>
      have hafter := (List.cons.inj hb).2
      cases hstrong with
      | inl hforeign =>
        obtain ⟨c, d, hcd, hforeign⟩ := hinside hforeign
        exact ⟨b ++ line :: c, l, d ++ closer :: more, by rw [hafter, hcd]; simp, hforeign,
          d ++ [closer], by simp⟩
      | inr hcl =>
        have hne : marker ≠ ticks := by
          intro heq
          rw [heq] at hbody
          rw [hbody l hl] at hcl
          cases hcl
        exact ⟨b, line, body ++ closer :: more, hafter, ⟨marker, hm, hne⟩, body ++ [closer], by simp⟩
  | inr hshort =>
    obtain ⟨b, hrest, hb⟩ := hshort
    cases b with
    | nil => exact hsame (List.cons.inj hb).1 (List.cons.inj hb).2.symm
    | cons c b =>
      have hb := (List.cons.inj hb).2
      rw [hrest, List.length_append, List.length_cons] at hlen
      cases List.append_eq_append_iff.mp hb with
      | inl hend =>
        obtain ⟨d, hd, _⟩ := hend
        rw [hd, List.length_append] at hlen
        omega
      | inr hend =>
        obtain ⟨d, hd, hafter⟩ := hend
        cases d with
        | nil =>
          rw [hd, List.append_nil] at hlen
          omega
        | cons t d =>
          obtain ⟨rfl, hlater⟩ := List.cons.inj hafter
          have hne : marker ≠ ticks := by
            intro heq
            have hopen := hbody ticks (hd ▸ List.mem_append_right _ List.mem_cons_self)
            rw [heq, ticks_closes] at hopen
            cases hopen
          exact ⟨d, closer, more, hlater, foreign_of_closes hm hne hclose, List.suffix_refl more⟩

theorem exists_first_closer {ls : List Str} {marker : Str} (h : ¬∀ l ∈ ls, closesFence l marker = false) :
    ∃ body closer rest, ls = body ++ closer :: rest ∧ (∀ l ∈ body, closesFence l marker = false) ∧
      closesFence closer marker = true := by
  induction ls with
  | nil => exact absurd (fun l hl => nomatch hl) h
  | cons l ls ih =>
    cases hl : closesFence l marker with
    | true => exact ⟨[], l, ls, rfl, fun l hl => (nomatch hl), hl⟩
    | false =>
      have hrest : ¬∀ k ∈ ls, closesFence k marker = false := by
        intro hall
        exact h (List.forall_mem_cons.mpr ⟨hl, hall⟩)
      obtain ⟨body, closer, rest, hls, hbody, hclose⟩ := ih hrest
      exact ⟨l :: body, closer, rest, by rw [hls, List.cons_append],
        List.forall_mem_cons.mpr ⟨hl, hbody⟩, hclose⟩

/-- A line as the argument for what is not read needs it. -/
def Plain (line : Str) : Prop := newline ∉ line ∧ Unpadded line

theorem late (hapart : ∀ p ∈ pieces, p.Apart) (htail : ∀ l ∈ tail, ¬Foreign l)
    {source rest lines before : List Str}
    (hplain : ∀ l ∈ rest ++ ticks :: (piecesLines pieces ++ tail), Plain l)
    (hsource : CodeLines source) (hstrong : ∃ l ∈ source, Strong l) (hrest : rest.length < source.length)
    (hlines : lines <:+ rest ++ ticks :: (piecesLines pieces ++ tail)) (hreads : Reads lines codes) :
    codes.map rstripped ≠ before ++ join [newline] source :: expected pieces := by
  induction hn : pieces.length using Nat.strong_induction_on
    generalizing pieces source rest lines before codes with
  | h n ih =>
    intro hcodes
    obtain ⟨pre, line, body, closer, more, marker, codes', hread, hm, hbody, hclose, hcode, hmore,
      hcodes'⟩ := hreads.at_code hcodes
    obtain ⟨w, hw⟩ := hlines
    rw [hread, ← List.append_assoc] at hw
    have hinside : ∀ l ∈ body, Plain l := by
      intro l hl
      apply hplain
      rw [← hw]
      simp [hl]
    have hnl : ∀ l ∈ body, newline ∉ l := fun l hl => (hinside l hl).1
    have hblank := strong_nonblank hstrong
    have hlen := (trailing_lines hnl hsource hblank hcode).1
    have hfound := strong_trailing hnl (fun l hl => (hinside l hl).2) hsource hblank hcode hstrong
    obtain ⟨earlier, l, later, hafter, hforeign, hsuffix⟩ :=
      foreign_found hw.symm hm hbody hclose (Nat.lt_of_lt_of_le hrest hlen) hfound
    obtain ⟨earlier', opener, source', later', rest', rfl, hmem, hless, rfl⟩ :=
      foreign_inside hapart htail hforeign hafter
    have hplain' : ∀ l ∈ rest' ++ ticks :: (piecesLines later' ++ tail), Plain l := by
      intro k hk
      apply hplain
      rw [hafter]
      simp only [List.mem_append, List.mem_cons] at hk ⊢
      exact .inr (.inr (.inr (.inr hk)))
    have hapart' : ∀ p ∈ Piece.code opener source' :: later', p.Apart :=
      fun p hp => hapart p (List.mem_append_right _ hp)
    rw [List.forall_mem_cons] at hapart'
    have hstrong' : ∃ l ∈ source', Strong l := ⟨l, hmem, .inl hforeign⟩
    have hshown : codes'.map rstripped =
        expected earlier' ++ join [newline] source' :: expected later' := by
      rw [hcodes', expected, List.filterMap_append, ← expected, ← expected, expected_code,
        strong_nonblank hstrong']
      rfl
    have hshorter : later'.length < n := by
      rw [← hn, List.length_append, List.length_cons]
      omega
    exact ih _ hshorter hapart'.2 hplain' hapart'.1.2 hstrong' hless hsuffix hmore rfl hshown

theorem codeLines_blank {source : List Str} (h : CodeLines source)
    (hblank : isBlankText (join [newline] source) = true) : source = [[]] := by
  rw [isBlankText_iff] at hblank
  have hnil : join [newline] source = [] := by
    rw [← h.trimmed, rstripped, List.rdropWhile_eq_nil_iff]
    exact hblank
  have hsplit := splitNewline_join_self h.newlines h.nonempty
  rw [hnil] at hsplit
  exact hsplit.symm

theorem blank_squeeze {source : List Str} {k : Nat}
    (h : isBlankText (join [newline] (squeeze k source)) = true) :
    isBlankText (join [newline] source) = true := by
  rw [isBlankText_iff] at h ⊢
  have hlines : ∀ l ∈ source, ∀ c ∈ l, isSpace c = true := by
    intro l hl c hc
    have hne : l ≠ [] := List.ne_nil_of_mem hc
    exact h c (mem_join (mem_squeeze hl hne) hc)
  clear h
  induction source with
  | nil => exact fun c hc => nomatch hc
  | cons l ls ih =>
    rw [List.forall_mem_cons] at hlines
    cases ls with
    | nil =>
      rw [join, List.intercalate_singleton]
      exact hlines.1
    | cons m ms =>
      rw [join_cons]
      intro c hc
      rw [List.mem_append, List.mem_cons] at hc
      cases hc with
      | inl hc => exact hlines.1 c hc
      | inr hc =>
        cases hc with
        | inl hc =>
          rw [hc]
          decide
        | inr hc => exact ih hlines.2 c hc

theorem sound_of_reads (hapart : ∀ p ∈ pieces, p.Apart) (htail : ∀ l ∈ tail, ¬Foreign l)
    (hplain : ∀ l ∈ piecesLines pieces ++ tail, Plain l) (hreads : Reads (piecesLines pieces ++ tail) codes)
    (hcodes : codes.map rstripped = expected pieces) (opener : Str) (source : List Str)
    (h : .code opener source ∈ pieces) : Sound source := by
  induction pieces generalizing codes with
  | nil => cases h
  | cons p ps ih =>
    rw [List.forall_mem_cons] at hapart
    rw [piecesLines_cons, List.append_assoc] at hplain hreads
    have hplain' : ∀ l ∈ piecesLines ps ++ tail, Plain l :=
      fun l hl => hplain l (List.mem_append_right _ hl)
    cases p with
    | prose lines =>
      rw [Piece.lines, reads_prose_iff hapart.1] at hreads
      cases List.mem_cons.mp h with
      | inl h => cases h
      | inr h => exact ih hapart.2 hplain' hreads hcodes h
    | code opener' source' =>
      obtain ⟨hopener, hsource⟩ := hapart.1
      rw [code_lines] at hreads hplain
      rw [expected_code] at hcodes
      have hnl : ∀ l ∈ squeeze 1 source', newline ∉ l :=
        fun l hl => hsource.newlines l ((squeeze_sublist 1 source').subset hl)
      by_cases hopen : ∀ l ∈ squeeze 1 source', closesFence l ticks = false
      · obtain ⟨codes', hsplit, hrest⟩ := hreads.of_code hopener hopen ticks_closes
        cases hblank : isBlankText (join [newline] source') with
        | true =>
          have hone := codeLines_blank hsource hblank
          have hkeep : isBlankText (join [newline] (squeeze 1 source')) = true := by
            rw [hone]
            decide
          rw [hkeep, if_pos rfl, List.nil_append] at hsplit
          rw [hblank, if_pos rfl, List.nil_append, hsplit] at hcodes
          cases List.mem_cons.mp h with
          | inl h =>
            obtain ⟨_, rfl⟩ := Piece.code.inj h
            rw [hone]
            decide
          | inr h => exact ih hapart.2 hplain' hrest hcodes h
        | false =>
          have hkeep : isBlankText (join [newline] (squeeze 1 source')) = false := by
            rw [Bool.eq_false_iff]
            intro hs
            rw [blank_squeeze hs] at hblank
            cases hblank
          rw [hkeep, if_neg Bool.false_ne_true, List.singleton_append] at hsplit
          rw [hblank, if_neg Bool.false_ne_true, List.singleton_append, hsplit, List.map_cons] at hcodes
          obtain ⟨hfirst, hcodes⟩ := List.cons.inj hcodes
          have hlen := (trailing_lines hnl hsource hblank hfirst).1
          have heq := (squeeze_sublist 1 source').eq_of_length_le hlen
          cases List.mem_cons.mp h with
          | inl h =>
            obtain ⟨_, rfl⟩ := Piece.code.inj h
            refine ⟨(squeeze_eq_iff source).mp heq, ?_⟩
            rwa [heq] at hopen
          | inr h => exact ih hapart.2 hplain' hrest hcodes h
      · obtain ⟨body, closer, rest, hsq, hbody, hclose⟩ := exists_first_closer hopen
        have hlen : (squeeze 1 source').length ≤ source'.length := squeeze_length 1 source'
        have hmem : closer ∈ source' := by
          apply (squeeze_sublist 1 source').subset
          rw [hsq]
          exact List.mem_append_right _ List.mem_cons_self
        have hstrong : ∃ l ∈ source', Strong l := ⟨closer, hmem, .inr hclose⟩
        have hblank := strong_nonblank hstrong
        rw [hblank, if_neg Bool.false_ne_true, List.singleton_append] at hcodes
        rw [hsq, List.length_append, List.length_cons] at hlen
        rw [hsq, List.append_assoc, List.cons_append] at hreads hplain
        obtain ⟨codes', hsplit, hrest⟩ := hreads.of_code hopener hbody hclose
        cases hb : isBlankText (join [newline] body) with
        | true =>
          rw [hb, if_pos rfl, List.nil_append] at hsplit
          have hplain'' : ∀ l ∈ rest ++ ticks :: (piecesLines ps ++ tail), Plain l := by
            intro l hl
            apply hplain
            simp only [List.mem_append, List.mem_cons] at hl ⊢
            exact .inr (.inr (.inr hl))
          have hlate : codes'.map rstripped ≠ [] ++ join [newline] source' :: expected ps :=
            late hapart.2 htail hplain'' hsource hstrong (by omega) (List.suffix_refl _) hrest
          rw [hsplit] at hcodes
          exact absurd hcodes hlate
        | false =>
          rw [hb, if_neg Bool.false_ne_true, List.singleton_append] at hsplit
          rw [hsplit, List.map_cons] at hcodes
          have hnl' : ∀ l ∈ body, newline ∉ l :=
            fun l hl => hnl l (hsq ▸ List.mem_append_left _ hl)
          have hlong := (trailing_lines hnl' hsource hblank (List.cons.inj hcodes).1).1
          omega

end Kirara.PieceReading
