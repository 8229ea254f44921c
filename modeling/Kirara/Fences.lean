import Kirara.CodePoints

namespace Kirara.Fences

open Kirara.CodePoints

def backtick : CodePoint := cp '`'

def tilde : CodePoint := cp '~'

def isBlank (c : CodePoint) : Bool := c == cp ' ' || c == cp '\t'

/-- A newline at the very end, where `$` also matches, is left out. -/
def dropFinalNewline (t : Str) : Str :=
  if t.getLast? = some newline then t.dropLast else t

/-- A match of `_FENCE_START_PATTERN`: three or more marks, no backtick after them. -/
def fenceStart (line : Str) : Option (Str × Str) :=
  match line.dropWhile isSpace with
  | [] => none
  | c :: cs =>
    if c == backtick || c == tilde then
      let fence := c :: cs.takeWhile (· == c)
      let body := dropFinalNewline (cs.dropWhile (· == c))
      if fence.length < 3 || body.contains backtick || body.contains newline then none
      else some (fence, (body.dropWhile isBlank).rdropWhile isBlank)
    else none

def fenceMarker (line : Str) : Option Str := (fenceStart line).map Prod.fst

/-- No language is `none`, even where the line is a fence. -/
def fenceLanguage (line : Str) : Option Str :=
  (fenceStart line).bind (fun s => if s.2.isEmpty then none else some s.2)

def closesFence (line opening : Str) : Bool :=
  match fenceStart line with
  | none => false
  | some (fence, language) =>
    fence.head? == opening.head? && opening.length ≤ fence.length && language.isEmpty

theorem fenceStart_skip {b : Str} (h : ∀ c ∈ b, isSpace c = true) (t : Str) :
    fenceStart (b ++ t) = fenceStart t := by
  have hdrop : (b ++ t).dropWhile isSpace = t.dropWhile isSpace := by
    induction b with
    | nil => rfl
    | cons c cs ih =>
      rw [List.cons_append, List.dropWhile_cons_of_pos (h c List.mem_cons_self)]
      exact ih fun d hd => h d (List.mem_cons_of_mem _ hd)
  unfold fenceStart
  rw [hdrop]

theorem fenceStart_blank {b : Str} (h : ∀ c ∈ b, isSpace c = true) : fenceStart b = none := by
  rw [← List.append_nil b, fenceStart_skip h]
  rfl

theorem trimmed_eq_nil_iff {l : Str} :
    (l.dropWhile isBlank).rdropWhile isBlank = [] ↔ ∀ c ∈ l, isBlank c = true := by
  rw [List.rdropWhile_eq_nil_iff]
  induction l with
  | nil => simp
  | cons c cs ih =>
    by_cases hc : isBlank c = true
    · rw [List.dropWhile_cons_of_pos hc, ih, List.forall_mem_cons]
      exact ⟨fun h => ⟨hc, h⟩, fun h => h.2⟩
    · rw [List.dropWhile_cons_of_neg hc]

theorem not_isBlank_of_isLineBreak {c : CodePoint} (h : isLineBreak c = true) : isBlank c = false := by
  have hspace : (cp ' ').val = 0x20 ∧ (cp '\t').val = 0x9 := by decide
  rw [Bool.eq_false_iff]
  intro hb
  simp only [isBlank, isLineBreak, Bool.or_eq_true, Bool.and_eq_true, decide_eq_true_eq, beq_iff_eq] at hb h
  cases hb with
  | inl hb =>
    rw [hb] at h
    omega
  | inr hb =>
    rw [hb] at h
    omega

theorem takeWhile_append_stop {p : CodePoint → Bool} (cs z : Str)
    (hz : ∀ d, z.head? = some d → p d = false) : (cs ++ z).takeWhile p = cs.takeWhile p := by
  induction cs with
  | nil =>
    cases z with
    | nil => rfl
    | cons d z => exact List.takeWhile_cons_of_neg (by simp [hz d rfl])
  | cons c cs ih =>
    rw [List.cons_append, List.takeWhile_cons, List.takeWhile_cons, ih]

theorem dropWhile_append_stop {p : CodePoint → Bool} (cs z : Str)
    (hz : ∀ d, z.head? = some d → p d = false) : (cs ++ z).dropWhile p = cs.dropWhile p ++ z := by
  induction cs with
  | nil =>
    cases z with
    | nil => rfl
    | cons d z => exact List.dropWhile_cons_of_neg (by simp [hz d rfl])
  | cons c cs ih =>
    rw [List.cons_append, List.dropWhile_cons, List.dropWhile_cons, ih]
    split
    · rfl
    · rfl

theorem dropFinalNewline_of_not_mem {t : Str} (h : newline ∉ t) : dropFinalNewline t = t := by
  unfold dropFinalNewline
  rw [if_neg]
  exact fun hlast => h (List.mem_of_getLast? hlast)

theorem fenceStart_cons {c : CodePoint} {cs : Str} (hspace : isSpace c = false) (hnl : newline ∉ cs) :
    fenceStart (c :: cs) =
      if c == backtick || c == tilde then
        if (c :: cs.takeWhile (· == c)).length < 3 || (cs.dropWhile (· == c)).contains backtick then
          none
        else some (c :: cs.takeWhile (· == c),
          ((cs.dropWhile (· == c)).dropWhile isBlank).rdropWhile isBlank)
      else none := by
  have hrest : newline ∉ cs.dropWhile (· == c) :=
    fun h => hnl ((List.dropWhile_suffix _).subset h)
  unfold fenceStart
  rw [List.dropWhile_cons_of_neg (by simp [hspace])]
  simp only
  have hno : (cs.dropWhile (· == c)).contains newline = false := by simpa using hrest
  rw [dropFinalNewline_of_not_mem hrest, hno, Bool.or_false]

/-- A text that can follow a line up to the next newline. -/
def Follows (z : Str) : Prop := newline ∉ z ∧ ∀ d, z.head? = some d → isLineBreak d = true

theorem nonblank_split {b : Str} (h : ¬∀ c ∈ b, isSpace c = true) :
    ∃ pre c cs, b = pre ++ c :: cs ∧ (∀ d ∈ pre, isSpace d = true) ∧ isSpace c = false := by
  have hne : b.dropWhile isSpace ≠ [] := fun hnil => h (List.dropWhile_eq_nil_iff.mp hnil)
  obtain ⟨c, cs, hdrop⟩ := List.exists_cons_of_ne_nil hne
  have hhead := List.head_dropWhile_not isSpace hne
  simp only [hdrop, List.head_cons] at hhead
  refine ⟨b.takeWhile isSpace, c, cs, ?_, fun d hd => List.mem_takeWhile_imp hd, hhead⟩
  rw [← hdrop, List.takeWhile_append_dropWhile]

variable {c : CodePoint} {cs z : Str}

variable (hspace : isSpace c = false)

include hspace

theorem stop_of_head
    (hz : ∀ d, z.head? = some d → isLineBreak d = true) (d : CodePoint) (hd : z.head? = some d) :
    (d == c) = false := by
  have hbreak := isSpace_of_isLineBreak (hz d hd)
  rw [beq_eq_false_iff_ne]
  intro heq
  rw [heq, hspace] at hbreak
  cases hbreak

theorem fenceStart_following (hnl : newline ∉ cs) (hz : Follows z) :
    fenceStart (c :: cs ++ z) =
      if c == backtick || c == tilde then
        if (c :: cs.takeWhile (· == c)).length < 3 ||
            (cs.dropWhile (· == c) ++ z).contains backtick then
          none
        else some (c :: cs.takeWhile (· == c),
          ((cs.dropWhile (· == c) ++ z).dropWhile isBlank).rdropWhile isBlank)
      else none := by
  have hstop := stop_of_head hspace hz.2
  have hnl' : newline ∉ cs ++ z := by
    rw [List.mem_append]
    exact fun h => h.elim hnl hz.1
  rw [List.cons_append, fenceStart_cons hspace hnl', takeWhile_append_stop cs z hstop,
    dropWhile_append_stop cs z hstop]

theorem fenceMarker_following (hnl : newline ∉ cs) (hz : Follows z) :
    fenceMarker (c :: cs ++ z) = if backtick ∈ z then none else fenceMarker (c :: cs) := by
  unfold fenceMarker
  rw [fenceStart_following hspace hnl hz, fenceStart_cons hspace hnl]
  by_cases hmem : backtick ∈ z
  · have hall : (cs.dropWhile (· == c) ++ z).contains backtick = true := by
      rw [List.contains_iff_mem, List.mem_append]
      exact .inr hmem
    rw [if_pos hmem, hall, Bool.or_true]
    split
    · rfl
    · rfl
  · have hsame : (cs.dropWhile (· == c) ++ z).contains backtick =
        (cs.dropWhile (· == c)).contains backtick := by
      rw [Bool.eq_iff_iff, List.contains_iff_mem, List.contains_iff_mem, List.mem_append, or_iff_left hmem]
    rw [if_neg hmem, hsame]
    split
    · split
      · rfl
      · rfl
    · rfl

theorem closesFence_following (hnl : newline ∉ cs) (hz : Follows z)
    (opening : Str) : closesFence (c :: cs ++ z) opening = (closesFence (c :: cs) opening && z.isEmpty) := by
  cases z with
  | nil => rw [List.append_nil, List.isEmpty_nil, Bool.and_true]
  | cons d z =>
    rw [List.isEmpty_cons, Bool.and_false]
    unfold closesFence
    rw [fenceStart_following hspace hnl hz]
    have hlanguage : ((((cs.dropWhile (· == c) ++ d :: z).dropWhile isBlank).rdropWhile
        isBlank).isEmpty) = false := by
      rw [Bool.eq_false_iff, ne_eq, List.isEmpty_iff, trimmed_eq_nil_iff]
      intro hall
      have hd := hall d (List.mem_append_right _ List.mem_cons_self)
      rw [not_isBlank_of_isLineBreak (hz.2 d rfl)] at hd
      cases hd
    split
    · rfl
    · next fence language heq =>
      split at heq
      · split at heq
        · cases heq
        · simp only [Option.some.injEq, Prod.mk.injEq] at heq
          rw [← heq.2, hlanguage, Bool.and_false]
      · cases heq

omit hspace

theorem fenceMarker_append {b z : Str} (h : ¬∀ c ∈ b, isSpace c = true) (hnl : newline ∉ b) (hz : Follows z) :
    fenceMarker (b ++ z) = if backtick ∈ z then none else fenceMarker b := by
  obtain ⟨pre, c, cs, rfl, hpre, hc⟩ := nonblank_split h
  have hcs : newline ∉ cs := fun hm => hnl (List.mem_append_right _ (List.mem_cons_of_mem _ hm))
  have hstart := fenceMarker_following hc hcs hz
  unfold fenceMarker at hstart ⊢
  rw [List.append_assoc, fenceStart_skip hpre, fenceStart_skip hpre, hstart]

theorem closesFence_append {b z : Str} (h : ¬∀ c ∈ b, isSpace c = true) (hnl : newline ∉ b)
    (hz : Follows z) (opening : Str) : closesFence (b ++ z) opening = (closesFence b opening && z.isEmpty) := by
  obtain ⟨pre, c, cs, rfl, hpre, hc⟩ := nonblank_split h
  have hcs : newline ∉ cs := fun hm => hnl (List.mem_append_right _ (List.mem_cons_of_mem _ hm))
  have hcloses := closesFence_following hc hcs hz opening
  unfold closesFence at hcloses ⊢
  rw [List.append_assoc, fenceStart_skip hpre, fenceStart_skip hpre, hcloses]

theorem fenceStart_newline {t : Str} (hnl : newline ∉ t) : fenceStart (t ++ [newline]) = fenceStart t := by
  by_cases hblank : ∀ c ∈ t, isSpace c = true
  · rw [fenceStart_skip hblank, fenceStart_blank hblank]
    exact fenceStart_blank fun c hc => by
      rw [List.mem_singleton.mp hc]
      decide
  · obtain ⟨pre, c, cs, rfl, hpre, hc⟩ := nonblank_split hblank
    have hcs : newline ∉ cs := fun hm => hnl (List.mem_append_right _ (List.mem_cons_of_mem _ hm))
    have hstop := stop_of_head (z := [newline]) hc (fun d hd => by cases hd; decide)
    have hfinal : dropFinalNewline (cs.dropWhile (· == c) ++ [newline]) =
        cs.dropWhile (· == c) := by
      simp [dropFinalNewline]
    have hrest : newline ∉ cs.dropWhile (· == c) :=
      fun h => hcs ((List.dropWhile_suffix _).subset h)
    rw [List.append_assoc, fenceStart_skip hpre, fenceStart_skip hpre]
    unfold fenceStart
    rw [List.cons_append, List.dropWhile_cons_of_neg (by simp [hc]),
      List.dropWhile_cons_of_neg (by simp [hc])]
    simp only
    rw [takeWhile_append_stop cs _ hstop, dropWhile_append_stop cs _ hstop, hfinal,
      dropFinalNewline_of_not_mem hrest]

theorem fenceMarker_snoc {t : Str} (hnl : newline ∉ t) {d : CodePoint} (hd : isSpace d = true) :
    fenceMarker (t ++ [d]) = fenceMarker t := by
  by_cases hblank : ∀ c ∈ t, isSpace c = true
  · have hlast : ∀ c ∈ [d], isSpace c = true := List.forall_mem_singleton.mpr hd
    rw [fenceMarker, fenceStart_skip hblank, fenceStart_blank hlast, fenceMarker, fenceStart_blank hblank]
  · by_cases hdn : d = newline
    · rw [fenceMarker, hdn, fenceStart_newline hnl, fenceMarker]
    · obtain ⟨pre, c, cs, rfl, hpre, hc⟩ := nonblank_split hblank
      have hcs : newline ∉ cs :=
        fun hm => hnl (List.mem_append_right _ (List.mem_cons_of_mem _ hm))
      have hcsd : newline ∉ cs ++ [d] := by
        rw [List.mem_append, List.mem_singleton, not_or]
        exact ⟨hcs, fun h => hdn h.symm⟩
      have hstop : ∀ e, [d].head? = some e → (e == c) = false := by
        intro e he
        rw [List.head?_cons, Option.some.injEq] at he
        rw [beq_eq_false_iff_ne, ← he]
        intro heq
        rw [← heq, hd] at hc
        cases hc
      have hbacktick : (cs.dropWhile (· == c) ++ [d]).contains backtick =
          (cs.dropWhile (· == c)).contains backtick := by
        rw [Bool.eq_iff_iff, List.contains_iff_mem, List.contains_iff_mem, List.mem_append,
          List.mem_singleton, or_iff_left]
        intro h
        rw [← h] at hd
        exact absurd hd (by decide)
      unfold fenceMarker
      rw [List.append_assoc, fenceStart_skip hpre, fenceStart_skip hpre, List.cons_append,
        fenceStart_cons hc hcsd, fenceStart_cons hc hcs, takeWhile_append_stop cs _ hstop,
        dropWhile_append_stop cs _ hstop, hbacktick]
      split
      · split
        · rfl
        · rfl
      · rfl

theorem fenceMarker_cons {c : CodePoint} (hc : isSpace c = true) (t : Str) :
    fenceMarker (c :: t) = fenceMarker t := by
  rw [fenceMarker, ← List.singleton_append, fenceStart_skip (List.forall_mem_singleton.mpr hc), fenceMarker]

end Kirara.Fences
