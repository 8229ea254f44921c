import Kirara.LineBodies

namespace Kirara.CopyableCode

open Kirara.CodePoints Kirara.Fences Kirara.StructuredText Kirara.LineBodies

/-- A message to be sent; only the text of code is also kept for copying. -/
structure CopyablePart where
  text : Str
  isCode : Bool := false
  code : Option Str := none
  language : Option Str := none

def flushProse (prose : List Str) : List CopyablePart :=
  if (stripped (join [newline] prose)).isEmpty then []
  else [{ text := stripped (join [newline] prose) }]

def codePart (line opening : Str) (body : List Str) : List CopyablePart :=
  let code := join [newline] body
  if (stripped code).isEmpty then []
  else
    [{ text := opening ++ (fenceLanguage line).getD [] ++ newline :: (code ++ newline :: opening)
       isCode := true
       code := some code
       language := fenceLanguage line }]

/-- The loop of `split_for_copyable_code`. -/
def copyableFrom : Nat → List Str → List Str → List CopyablePart
  | 0, lines, prose => flushProse (prose ++ lines)
  | _ + 1, [], prose => flushProse prose
  | n + 1, line :: lines, prose =>
    match fenceMarker line with
    | none => copyableFrom n lines (prose ++ [line])
    | some opening =>
      match lines.dropWhile (!closesFence · opening) with
      | [] => flushProse (prose ++ line :: lines)
      | _ :: rest =>
        flushProse prose ++ codePart line opening (lines.takeWhile (!closesFence · opening)) ++
          copyableFrom n rest []

def splitForCopyableCode (text : Str) : List CopyablePart :=
  copyableFrom ((lineBodies text).length + 1) (lineBodies text) []

def codesOf (parts : List CopyablePart) : List Str := parts.filterMap CopyablePart.code

def isBlankText (text : Str) : Bool := (stripped text).isEmpty

/-- The code read off lines: from each opener to the next line that closes it. -/
inductive Reads : List Str → List Str → Prop where
  | nil : Reads [] []
  | prose {line lines codes} : fenceMarker line = none → Reads lines codes →
      Reads (line :: lines) codes
  | unclosed {line lines marker} : fenceMarker line = some marker →
      (∀ l ∈ lines, closesFence l marker = false) → Reads (line :: lines) []
  | code {line body closer rest marker codes} : fenceMarker line = some marker →
      (∀ l ∈ body, closesFence l marker = false) → closesFence closer marker = true →
      Reads rest codes →
      Reads (line :: (body ++ closer :: rest))
        ((if isBlankText (join [newline] body) then [] else [join [newline] body]) ++ codes)

@[simp] theorem codesOf_append (ps qs : List CopyablePart) :
    codesOf (ps ++ qs) = codesOf ps ++ codesOf qs := List.filterMap_append

@[simp] theorem codesOf_flushProse (prose : List Str) : codesOf (flushProse prose) = [] := by
  unfold flushProse
  split
  · rfl
  · rfl

theorem codesOf_codePart (line opening : Str) (body : List Str) : codesOf (codePart line opening body) =
      if isBlankText (join [newline] body) then [] else [join [newline] body] := by
  unfold codePart isBlankText
  dsimp only
  split
  · rfl
  · rfl

theorem copyableFrom_reads (n : Nat) (lines prose : List Str) (h : lines.length < n) :
    Reads lines (codesOf (copyableFrom n lines prose)) := by
  induction n generalizing lines prose with
  | zero => exact absurd h (Nat.not_lt_zero _)
  | succ n ih =>
    cases lines with
    | nil =>
      rw [copyableFrom, codesOf_flushProse]
      exact Reads.nil
    | cons line lines =>
      rw [List.length_cons, Nat.add_lt_add_iff_right] at h
      rw [copyableFrom]
      cases hm : fenceMarker line with
      | none => exact Reads.prose hm (ih _ _ h)
      | some opening =>
        have hbody : ∀ l ∈ lines.takeWhile (!closesFence · opening), closesFence l opening = false := by
          intro l hl
          have hkeep := List.mem_takeWhile_imp hl
          rwa [Bool.not_eq_true'] at hkeep
        have hsplit := List.takeWhile_append_dropWhile (p := (!closesFence · opening)) (l := lines)
        cases hd : lines.dropWhile (!closesFence · opening) with
        | nil =>
          rw [hd, List.append_nil] at hsplit
          rw [hsplit] at hbody
          simp only [hd, codesOf_flushProse]
          exact Reads.unclosed hm hbody
        | cons closer rest =>
          have hclose : closesFence closer opening = true := by
            have hhead := List.head?_dropWhile_not (!closesFence · opening) lines
            rw [hd] at hhead
            simpa using hhead
          have hless : rest.length < n := by
            have hlen := congrArg List.length hsplit
            rw [hd, List.length_append, List.length_cons] at hlen
            omega
          rw [hd] at hsplit
          have hreads := Reads.code hm hbody hclose (ih rest [] hless)
          rw [hsplit] at hreads
          simp only [hd, codesOf_append, codesOf_flushProse, codesOf_codePart, List.nil_append]
          exact hreads

theorem splitForCopyableCode_reads (text : Str) :
    Reads (lineBodies text) (codesOf (splitForCopyableCode text)) :=
  copyableFrom_reads _ _ _ (Nat.lt_succ_self _)

variable {line closer : Str} {lines body rest codes : List Str} {marker : Str}

theorem Reads.of_prose (h : Reads (line :: lines) codes) (hline : fenceMarker line = none) :
    Reads lines codes := by
  cases h with
  | prose _ h => exact h
  | unclosed hm _ => rw [hline] at hm; cases hm
  | code hm _ _ _ => rw [hline] at hm; cases hm

theorem reads_prose_iff {prose : List Str} (hprose : ∀ l ∈ prose, fenceMarker l = none) :
    Reads (prose ++ lines) codes ↔ Reads lines codes := by
  induction prose with
  | nil => exact Iff.rfl
  | cons l prose ih =>
    rw [List.forall_mem_cons] at hprose
    rw [List.cons_append, ← ih hprose.2]
    exact ⟨fun h => h.of_prose hprose.1, fun h => Reads.prose hprose.1 h⟩

theorem first_closer {body' rest' : List Str} {closer' : Str}
    (hbody : ∀ l ∈ body, closesFence l marker = false) (hclose : closesFence closer marker = true)
    (hbody' : ∀ l ∈ body', closesFence l marker = false) (hclose' : closesFence closer' marker = true)
    (h : body ++ closer :: rest = body' ++ closer' :: rest') :
    body = body' ∧ closer = closer' ∧ rest = rest' := by
  induction body generalizing body' with
  | nil =>
    cases body' with
    | nil =>
      obtain ⟨hc, hr⟩ := List.cons.inj h
      exact ⟨rfl, hc, hr⟩
    | cons b body' =>
      rw [(List.cons.inj h).1, hbody' b List.mem_cons_self] at hclose
      cases hclose
  | cons b body ih =>
    cases body' with
    | nil =>
      rw [← (List.cons.inj h).1, hbody b List.mem_cons_self] at hclose'
      cases hclose'
    | cons b' body' =>
      rw [List.forall_mem_cons] at hbody hbody'
      obtain ⟨hb, hrest⟩ := List.cons.inj h
      obtain ⟨hbodies, hcloser, hrests⟩ := ih hbody.2 hbody'.2 hrest
      exact ⟨by rw [hb, hbodies], hcloser, hrests⟩

theorem Reads.of_code (h : Reads (line :: (body ++ closer :: rest)) codes)
    (hm : fenceMarker line = some marker) (hbody : ∀ l ∈ body, closesFence l marker = false)
    (hclose : closesFence closer marker = true) :
    ∃ codes', codes = (if isBlankText (join [newline] body) then [] else [join [newline] body]) ++
      codes' ∧ Reads rest codes' := by
  generalize hlines : body ++ closer :: rest = lines at h
  cases h with
  | prose hn _ => rw [hm] at hn; cases hn
  | unclosed hm' hnone =>
    rw [hm, Option.some.injEq] at hm'
    have hcloser := hnone closer (hlines ▸ List.mem_append_right _ List.mem_cons_self)
    rw [← hm', hclose] at hcloser
    cases hcloser
  | code hm' hbody' hclose' hrest =>
    rw [hm, Option.some.injEq] at hm'
    rw [← hm'] at hbody' hclose'
    obtain ⟨rfl, rfl, rfl⟩ := first_closer hbody hclose hbody' hclose' hlines
    exact ⟨_, rfl, hrest⟩

theorem Reads.unique {codes' : List Str} (h : Reads lines codes) (h' : Reads lines codes') :
    codes = codes' := by
  induction h generalizing codes' with
  | nil =>
    cases h'
    rfl
  | prose hn _ ih => exact ih (h'.of_prose hn)
  | unclosed hm hnone =>
    cases h' with
    | prose hn _ => rw [hm] at hn; cases hn
    | unclosed _ _ => rfl
    | code hm' _ hclose' _ =>
      rw [hm, Option.some.injEq] at hm'
      have hcloser := hnone _ (List.mem_append_right _ List.mem_cons_self)
      rw [hm', hclose'] at hcloser
      cases hcloser
  | code hm hbody hclose _ ih =>
    obtain ⟨codes'', rfl, hrest⟩ := h'.of_code hm hbody hclose
    rw [ih hrest]

theorem Reads.at_code {f : Str → Str} {before after : List Str} {code : Str}
    (h : Reads lines codes) (hcodes : codes.map f = before ++ code :: after) :
    ∃ pre line body closer rest marker codes',
      lines = pre ++ line :: (body ++ closer :: rest) ∧ fenceMarker line = some marker ∧
      (∀ l ∈ body, closesFence l marker = false) ∧ closesFence closer marker = true ∧
      f (join [newline] body) = code ∧ Reads rest codes' ∧ codes'.map f = after := by
  induction h generalizing before with
  | nil => simp at hcodes
  | @prose line lines codes _ _ ih =>
    obtain ⟨pre, k, body, closer, rest, marker, codes', hlines, hrest⟩ := ih hcodes
    exact ⟨line :: pre, k, body, closer, rest, marker, codes', by rw [hlines, List.cons_append], hrest⟩
  | unclosed _ _ => simp at hcodes
  | @code line body closer rest marker codes hm hbody hclose hreads ih =>
    have hlater : ∀ before', codes.map f = before' ++ code :: after → ∃ pre k body' closer' rest'
        marker' codes', line :: (body ++ closer :: rest) =
          pre ++ k :: (body' ++ closer' :: rest') ∧ fenceMarker k = some marker' ∧
        (∀ l ∈ body', closesFence l marker' = false) ∧ closesFence closer' marker' = true ∧
        f (join [newline] body') = code ∧ Reads rest' codes' ∧ codes'.map f = after := by
      intro before' hb
      obtain ⟨pre, k, body', closer', rest', marker', codes', hlines, hrest⟩ := ih hb
      exact ⟨line :: (body ++ closer :: pre), k, body', closer', rest', marker', codes',
        by rw [hlines]; simp, hrest⟩
    split at hcodes
    · exact hlater before (by simpa using hcodes)
    cases before with
    | nil =>
      rw [List.map_append, List.map_singleton, List.singleton_append, List.nil_append] at hcodes
      obtain ⟨hfirst, hafter⟩ := List.cons.inj hcodes
      exact ⟨[], line, body, closer, rest, marker, codes, rfl, hm, hbody, hclose, hfirst, hreads, hafter⟩
    | cons b before =>
      rw [List.map_append, List.map_singleton, List.singleton_append, List.cons_append] at hcodes
      exact hlater before (List.cons.inj hcodes).2

end Kirara.CopyableCode
