import Kirara.FenceAgreement

namespace Kirara.LineBodies

open Kirara.CodePoints Kirara.Fences Kirara.FenceScanners Kirara.FenceAgreement

/-- `text.splitlines()`. -/
def lineBodies (text : Str) : List Str := (splitLines text).map lineBody

/-- `text.rstrip()`. -/
def rstripped (text : Str) : Str := text.rdropWhile isSpace

def consLine (c : CodePoint) : List Str → List Str
  | [] => [[c]]
  | l :: ls => (c :: l) :: ls

def marks (text : Str) : List Str := (lineBodies text).filterMap fenceMarker

section Lines

variable {c : CodePoint} {cs : Str}

@[simp] theorem lineBodies_nil : lineBodies [] = [] := rfl

variable {l : Str}

theorem lineBody_cons (hc : isLineBreak c = false) (hl : l ∈ splitLines cs) :
    lineBody (c :: l) = c :: lineBody l := by
  obtain ⟨hended, htext⟩ := splitLines_wellEnded cs
  rw [← htext, List.mem_map] at hl
  obtain ⟨k, hk, rfl⟩ := hl
  have hparts : (∀ d ∈ k.body, isLineBreak d = false) ∧ Ending k.ending := by
    generalize linesOf cs = ks at hended hk
    induction ks with
    | nil => cases hk
    | cons j js ih =>
      cases List.mem_cons.mp hk with
      | inl h =>
        rw [h]
        exact ⟨hended.1, hended.2.1⟩
      | inr h => exact ih hended.2.2.2.2 h
  have hbody : ∀ d ∈ c :: k.body, isLineBreak d = false := by
    rw [List.forall_mem_cons]
    exact ⟨hc, hparts.1⟩
  have hlong := lineBody_append hbody hparts.2
  rw [List.cons_append] at hlong
  rw [Line.text, hlong, lineBody_append hparts.1 hparts.2]

theorem lineBodies_cons (c : CodePoint) (cs : Str) : lineBodies (c :: cs) =
      if c = carriageReturn ∧ cs.head? = some newline then lineBodies cs
      else if isLineBreak c = true then [] :: lineBodies cs
      else consLine c (lineBodies cs) := by
  have hone : ∀ d, isLineBreak d = true → lineBody [d] = [] := by
    intro d hd
    have hend : Ending [d] := by
      by_cases h : d = newline
      · rw [h]
        exact Ending.newline
      · exact Ending.other hd h
    exact lineBody_append (fun e he => absurd he List.not_mem_nil) hend
  unfold lineBodies
  rw [splitLines]
  by_cases hcrlf : c = carriageReturn ∧ cs.head? = some newline
  · obtain ⟨rfl, hhead⟩ := hcrlf
    obtain ⟨ds, rfl⟩ : ∃ ds, cs = newline :: ds := by
      cases cs with
      | nil => cases hhead
      | cons d ds =>
        rw [List.head?_cons, Option.some.injEq] at hhead
        exact ⟨ds, by rw [hhead]⟩
    have hs : splitLines (newline :: ds) = [newline] :: splitLines ds := by
      rw [splitLines, if_pos]
      rw [isLineBreak_newline, Bool.true_and, Bool.not_eq_true', Bool.and_eq_false_iff]
      exact .inl (by decide)
    rw [if_neg (by simp), if_pos ⟨rfl, rfl⟩, hs]
    have hboth : lineBody [carriageReturn, newline] = [] :=
      lineBody_append (fun e he => absurd he List.not_mem_nil) Ending.carriage
    simp only [List.map_cons, hboth, hone newline isLineBreak_newline]
  · rw [if_neg hcrlf]
    cases hc : isLineBreak c with
    | true =>
      have hcond : (c == carriageReturn && cs.head? == some newline) = false := by
        rw [Bool.eq_false_iff]
        intro h
        rw [Bool.and_eq_true, beq_iff_eq, beq_iff_eq] at h
        exact hcrlf h
      rw [hcond]
      simp [hone c hc]
    | false =>
      simp only [Bool.false_and, Bool.false_eq_true, if_false]
      cases hs : splitLines cs with
      | nil =>
        have hline : lineBody ([c] ++ []) = [c] :=
          lineBody_append (fun d hd => by rw [List.mem_singleton.mp hd, hc]) Ending.none
        rw [List.append_nil] at hline
        simp [consLine, hline]
      | cons l ls =>
        have hmem : l ∈ splitLines cs := by
          rw [hs]
          exact List.mem_cons_self
        simp [consLine, lineBody_cons hc hmem]

theorem lineBodies_newline_cons (t : Str) : lineBodies (newline :: t) = [] :: lineBodies t := by
  rw [lineBodies_cons, if_neg (fun h => absurd h.1 (by decide)), if_pos isLineBreak_newline]

theorem consLine_append {c : CodePoint} {ls : List Str} (h : ls ≠ []) (ks : List Str) :
    consLine c (ls ++ ks) = consLine c ls ++ ks := by
  obtain ⟨l, ls, rfl⟩ := List.exists_cons_of_ne_nil h
  rfl

theorem lineBodies_ne_nil (h : cs ≠ []) : lineBodies cs ≠ [] := by
  induction cs with
  | nil => exact absurd rfl h
  | cons c cs ih =>
    rw [lineBodies_cons]
    split
    · next hcr =>
      apply ih
      intro hnil
      rw [hnil] at hcr
      cases hcr.2
    · split
      · exact List.cons_ne_nil _ _
      · cases lineBodies cs with
        | nil => exact List.cons_ne_nil _ _
        | cons l ls => exact List.cons_ne_nil _ _

theorem lineBodies_newline (u t : Str) :
    lineBodies (u ++ newline :: t) = lineBodies (u ++ [newline]) ++ lineBodies t := by
  induction u with
  | nil => rw [List.nil_append, List.nil_append, lineBodies_newline_cons, lineBodies_newline_cons]; rfl
  | cons c u ih =>
    have hhead : (u ++ newline :: t).head? = (u ++ [newline]).head? := by
      cases u with
      | nil => rfl
      | cons d u => rfl
    have hne : lineBodies (u ++ [newline]) ≠ [] := lineBodies_ne_nil (by simp)
    rw [List.cons_append, List.cons_append, lineBodies_cons, lineBodies_cons, hhead, ih,
      consLine_append hne]
    split
    · rfl
    split
    · rfl
    · rfl

theorem lineBodies_line (hl : ∀ c ∈ l, isLineBreak c = false) (t : Str) :
    lineBodies (l ++ newline :: t) = l :: lineBodies t := by
  induction l with
  | nil => exact lineBodies_newline_cons t
  | cons c l ih =>
    rw [List.forall_mem_cons] at hl
    have hcr : c ≠ carriageReturn := by
      intro h
      rw [h, isLineBreak_carriageReturn] at hl
      cases hl.1
    rw [List.cons_append, lineBodies_cons, if_neg (fun h => hcr h.1), hl.1,
      if_neg Bool.false_ne_true, ih hl.2]
    rfl

theorem lineBodies_single (hl : ∀ c ∈ l, isLineBreak c = false) (hne : l ≠ []) : lineBodies l = [l] := by
  induction l with
  | nil => exact absurd rfl hne
  | cons c l ih =>
    rw [List.forall_mem_cons] at hl
    have hcr : c ≠ carriageReturn := by
      intro h
      rw [h, isLineBreak_carriageReturn] at hl
      cases hl.1
    rw [lineBodies_cons, if_neg (fun h => hcr h.1), hl.1, if_neg Bool.false_ne_true]
    cases l with
    | nil => rfl
    | cons d l =>
      rw [ih hl.2 (List.cons_ne_nil d l)]
      rfl

theorem lineBodies_breakFree (h : l ∈ lineBodies cs) : ∀ c ∈ l, isLineBreak c = false := by
  induction cs generalizing l with
  | nil => cases h
  | cons c cs ih =>
    rw [lineBodies_cons] at h
    split at h
    · exact ih h
    split at h
    · cases List.mem_cons.mp h with
      | inl h =>
        rw [h]
        exact fun c hc => absurd hc List.not_mem_nil
      | inr h => exact ih h
    · next hc =>
      have hc := Bool.eq_false_iff.mpr hc
      cases hs : lineBodies cs with
      | nil =>
        rw [hs, consLine, List.mem_singleton] at h
        rw [h, List.forall_mem_singleton]
        exact hc
      | cons k ks =>
        rw [hs, consLine, List.mem_cons] at h
        cases h with
        | inl h =>
          rw [h, List.forall_mem_cons]
          exact ⟨hc, ih (hs ▸ List.mem_cons_self)⟩
        | inr h => exact ih (hs ▸ List.mem_cons_of_mem _ h)

end Lines

variable {c : CodePoint} {t : Str}

theorem not_isLineBreak {c : CodePoint} (h : isLineBreak c = false) : c ≠ newline := by
  intro hc
  rw [hc, isLineBreak_newline] at h
  cases h

theorem fenceMarker_nil : fenceMarker [] = none := rfl

theorem lineBodies_snoc_break (hc : isLineBreak c = true) (t : Str) :
    lineBodies (t ++ [c]) = lineBodies t ∨ lineBodies (t ++ [c]) = lineBodies t ++ [[]] := by
  have hone : lineBodies [c] = [[]] := by
    rw [lineBodies_cons, if_neg (fun h => (nomatch h.2)), if_pos hc, lineBodies_nil]
  induction t with
  | nil => exact .inr hone
  | cons d t ih =>
    rw [List.cons_append, lineBodies_cons, lineBodies_cons]
    cases t with
    | nil =>
      have hshort : ¬(d = carriageReturn ∧ ([] : Str).head? = some newline) :=
        fun h => (nomatch h.2)
      rw [List.nil_append, hone, lineBodies_nil, if_neg hshort]
      by_cases hd : isLineBreak d = true
      · rw [if_pos hd, if_pos hd]
        split
        · exact .inl rfl
        · exact .inr rfl
      · rw [if_neg hd, if_neg hd, if_neg]
        · exact .inl rfl
        · intro h
          rw [h.1, isLineBreak_carriageReturn] at hd
          exact hd rfl
    | cons e t =>
      have hne : lineBodies (e :: t) ≠ [] := lineBodies_ne_nil (List.cons_ne_nil e t)
      rw [List.cons_append] at ih ⊢
      rw [List.head?_cons, List.head?_cons]
      split
      · exact ih
      split
      · cases ih with
        | inl ih => exact .inl (by rw [ih])
        | inr ih => exact .inr (by rw [ih, List.cons_append])
      · cases ih with
        | inl ih => exact .inl (by rw [ih])
        | inr ih => exact .inr (by rw [ih, consLine_append hne])

theorem lineBodies_snoc_char (hc : isLineBreak c = false) (t : Str) :
    ∃ ls l, lineBodies (t ++ [c]) = ls ++ [l ++ [c]] ∧
      (lineBodies t = ls ++ [l] ∨ lineBodies t = ls ∧ l = []) := by
  have hone : lineBodies [c] = [[c]] :=
    lineBodies_single (List.forall_mem_singleton.mpr hc) (List.cons_ne_nil c [])
  induction t with
  | nil => exact ⟨[], [], hone, .inr ⟨rfl, rfl⟩⟩
  | cons d t ih =>
    obtain ⟨ls, l, hlong, hshort⟩ := ih
    have hhead : d = carriageReturn ∧ (t ++ [c]).head? = some newline ↔
        d = carriageReturn ∧ t.head? = some newline := by
      cases t with
      | nil => simp [not_isLineBreak hc]
      | cons e t => simp
    rw [List.cons_append, lineBodies_cons, lineBodies_cons, hlong]
    by_cases hcr : d = carriageReturn ∧ t.head? = some newline
    · rw [if_pos (hhead.mpr hcr), if_pos hcr]
      exact ⟨ls, l, rfl, hshort⟩
    · rw [if_neg (fun h => hcr (hhead.mp h)), if_neg hcr]
      split
      · refine ⟨[] :: ls, l, rfl, ?_⟩
        cases hshort with
        | inl h => exact .inl (by rw [h, List.cons_append])
        | inr h => exact .inr ⟨by rw [h.1], h.2⟩
      · cases ls with
        | nil =>
          refine ⟨[], d :: l, rfl, .inl ?_⟩
          cases hshort with
          | inl h =>
            rw [h]
            rfl
          | inr h =>
            rw [h.1, h.2]
            rfl
        | cons k ks =>
          refine ⟨(d :: k) :: ks, l, rfl, ?_⟩
          cases hshort with
          | inl h =>
            rw [h]
            exact .inl rfl
          | inr h =>
            rw [h.1]
            exact .inr ⟨rfl, h.2⟩

theorem newline_not_mem_line {l : Str} (h : l ∈ lineBodies t) : newline ∉ l :=
  fun hm => not_isLineBreak (lineBodies_breakFree h newline hm) rfl

theorem marks_cons (hc : isSpace c = true) (t : Str) : marks (c :: t) = marks t := by
  unfold marks
  rw [lineBodies_cons]
  split
  · rfl
  split
  · rw [List.filterMap_cons, fenceMarker_nil]
  cases lineBodies t with
  | nil => rw [consLine, List.filterMap_cons, fenceMarker_cons hc, fenceMarker_nil]
  | cons l ls => rw [consLine, List.filterMap_cons, List.filterMap_cons, fenceMarker_cons hc]

theorem marks_snoc (hc : isSpace c = true) (t : Str) : marks (t ++ [c]) = marks t := by
  unfold marks
  cases hbreak : isLineBreak c with
  | true =>
    cases lineBodies_snoc_break hbreak t with
    | inl h => rw [h]
    | inr h => rw [h, List.filterMap_append, List.filterMap_cons, fenceMarker_nil]; simp
  | false =>
    obtain ⟨ls, l, hlong, hshort⟩ := lineBodies_snoc_char hbreak t
    have hnl : newline ∉ l := by
      intro hm
      have hmem : newline ∉ l ++ [c] := newline_not_mem_line (hlong ▸ List.mem_append_right _
        List.mem_cons_self)
      exact hmem (List.mem_append_left _ hm)
    rw [hlong, List.filterMap_append, List.filterMap_cons, fenceMarker_snoc hnl hc]
    cases hshort with
    | inl h => rw [h, List.filterMap_append, List.filterMap_cons]
    | inr h =>
      rw [h.1, h.2, fenceMarker_nil]
      simp

theorem marks_dropWhile (t : Str) : marks (t.dropWhile isSpace) = marks t := by
  induction t with
  | nil => rfl
  | cons c t ih =>
    by_cases hc : isSpace c = true
    · rw [List.dropWhile_cons_of_pos hc, ih, marks_cons hc]
    · rw [List.dropWhile_cons_of_neg hc]

theorem marks_append_blank (t : Str) {b : Str} (hb : ∀ c ∈ b, isSpace c = true) : marks (t ++ b) = marks t := by
  induction b using List.reverseRecOn with
  | nil => rw [List.append_nil]
  | append_singleton b c ih =>
    rw [← List.append_assoc, marks_snoc (hb c (List.mem_append_right _ List.mem_cons_self)),
      ih fun d hd => hb d (List.mem_append_left _ hd)]

theorem marks_rstripped (t : Str) : marks (rstripped t) = marks t := by
  have hsplit : rstripped t ++ t.rtakeWhile isSpace = t := List.rdropWhile_append_rtakeWhile
  have hblank : ∀ c ∈ t.rtakeWhile isSpace, isSpace c = true := fun c hc => List.mem_rtakeWhile_imp hc
  rw [← marks_append_blank (rstripped t) hblank, hsplit]

theorem no_marks_iff : marks t = [] ↔ ∀ l ∈ lineBodies t, fenceMarker l = none := by
  rw [marks, List.filterMap_eq_nil_iff]

end Kirara.LineBodies
