import Kirara.TextDocuments

namespace Kirara.RenderedText

open Kirara.CodePoints Kirara.Fences Kirara.StructuredText
open Kirara.FenceAgreement Kirara.LineBodies Kirara.TextDocuments

/-- Runs of newlines cut down to two, after `k` newlines. -/
def collapseFrom : Nat → Str → Str
  | _, [] => []
  | k, c :: cs =>
    if c = newline then if 2 ≤ k then collapseFrom k cs else c :: collapseFrom (k + 1) cs
    else c :: collapseFrom 0 cs

/-- `re.sub(r"\n{3,}", "\n\n", text)`. -/
def collapse (text : Str) : Str := collapseFrom 0 text

def renderCode (block : TextBlock) : Str :=
  let fence := lit "```" ++ block.language.getD []
  let body := rstripped block.text
  if block.closed then fence ++ newline :: (body ++ newline :: lit "```")
  else fence ++ newline :: body

/-- The renderer of each kind of block, where `prose` is that of non-code. -/
def renderBlock (prose : TextBlock → Str) (block : TextBlock) : Str :=
  if block.kind = .code then renderCode block else prose block

def renderRichText (render : TextBlock → Str) (document : TextDocument) : Str :=
  stripped (collapse (join [newline, newline]
    ((document.blocks.map render).filter fun part => !(stripped part).isEmpty)))

def renderOnebotText (rules : LineRules) (prose : TextBlock → Str) (text : Str) : Str :=
  renderRichText (renderBlock prose) (parseTextDocument rules text)

theorem mem_collapseFrom {t : Str} {c : CodePoint} (hc : c ∈ t) (hne : c ≠ newline) (k : Nat) :
    c ∈ collapseFrom k t := by
  induction t generalizing k with
  | nil => cases hc
  | cons d t ih =>
    rw [collapseFrom]
    cases List.mem_cons.mp hc with
    | inl h =>
      rw [← h, if_neg hne]
      exact List.mem_cons_self
    | inr h =>
      split
      · split
        · exact ih h k
        · exact List.mem_cons_of_mem _ (ih h (k + 1))
      · exact List.mem_cons_of_mem _ (ih h 0)

theorem head_collapseFrom {k : Nat} (hk : k < 2) (t : Str) : (collapseFrom k t).head? = t.head? := by
  cases t with
  | nil => rfl
  | cons c t =>
    rw [collapseFrom]
    split
    · rw [if_neg (Nat.not_le.mpr hk)]
      rfl
    · rfl

theorem firstLine_collapseFrom {k : Nat} (hk : k < 2) (t : Str) :
    (lineBodies (collapseFrom k t)).head? = (lineBodies t).head? := by
  induction t generalizing k with
  | nil => rfl
  | cons c t ih =>
    rw [collapseFrom]
    by_cases hc : c = newline
    · rw [if_pos hc, if_neg (Nat.not_le.mpr hk), hc, lineBodies_newline_cons, lineBodies_newline_cons]
      rfl
    · rw [if_neg hc, lineBodies_cons, lineBodies_cons, head_collapseFrom Nat.two_pos]
      have hrest := ih Nat.two_pos
      split
      · exact hrest
      split
      · rfl
      cases hs : lineBodies (collapseFrom 0 t) with
      | nil =>
        rw [hs, List.head?_nil, eq_comm, List.head?_eq_none_iff] at hrest
        rw [hrest]
      | cons l ls =>
        rw [hs, List.head?_cons, eq_comm, List.head?_eq_some_iff] at hrest
        obtain ⟨ms, hms⟩ := hrest
        rw [hms]
        rfl

theorem lines_collapseFrom (k : Nat) (t : Str) :
    (lineBodies (collapseFrom k t)).filter (· ≠ []) = (lineBodies t).filter (· ≠ []) := by
  induction t generalizing k with
  | nil => rfl
  | cons c t ih =>
    rw [collapseFrom]
    by_cases hc : c = newline
    · rw [if_pos hc, hc, lineBodies_newline_cons]
      split
      · rw [ih k]
        rfl
      · rw [lineBodies_newline_cons]
        exact ih (k + 1)
    · have hfirst := firstLine_collapseFrom Nat.two_pos t
      have hlines := ih 0
      rw [if_neg hc, lineBodies_cons, lineBodies_cons, head_collapseFrom Nat.two_pos]
      split
      · exact hlines
      split
      · exact hlines
      cases hs : lineBodies (collapseFrom 0 t) with
      | nil =>
        rw [hs, List.head?_nil, eq_comm, List.head?_eq_none_iff] at hfirst
        rw [hfirst]
      | cons l ls =>
        rw [hs] at hlines
        rw [hs, List.head?_cons, eq_comm, List.head?_eq_some_iff] at hfirst
        obtain ⟨ms, hms⟩ := hfirst
        rw [hms] at hlines ⊢
        have hsame : ls.filter (· ≠ []) = ms.filter (· ≠ []) := by
          rw [List.filter_cons, List.filter_cons] at hlines
          split at hlines
          · exact (List.cons.inj hlines).2
          · exact hlines
        rw [consLine, consLine, List.filter_cons, List.filter_cons, hsame]

theorem marks_collapseFrom (k : Nat) (t : Str) : marks (collapseFrom k t) = marks t := by
  have hmarks : ∀ ls : List Str, ls.filterMap fenceMarker =
      (ls.filter (· ≠ [])).filterMap fenceMarker := by
    intro ls
    induction ls with
    | nil => rfl
    | cons l ls ih =>
      by_cases hl : l = []
      · rw [hl, List.filterMap_cons, fenceMarker_nil]
        exact ih
      · rw [List.filter_cons_of_pos (by simpa using hl), List.filterMap_cons, List.filterMap_cons, ih]
  rw [marks, hmarks, lines_collapseFrom, ← hmarks, ← marks]

theorem collapseFrom_append (k : Nat) (u : Str) :
    ∃ j, ∀ v, collapseFrom k (u ++ v) = collapseFrom k u ++ collapseFrom j v := by
  induction u generalizing k with
  | nil => exact ⟨k, fun v => rfl⟩
  | cons c u ih =>
    by_cases hc : c = newline
    · by_cases hk : 2 ≤ k
      · obtain ⟨j, hj⟩ := ih k
        refine ⟨j, fun v => ?_⟩
        rw [List.cons_append, collapseFrom, if_pos hc, if_pos hk, hj, collapseFrom, if_pos hc, if_pos hk]
      · obtain ⟨j, hj⟩ := ih (k + 1)
        refine ⟨j, fun v => ?_⟩
        rw [List.cons_append, collapseFrom, if_pos hc, if_neg hk, hj, collapseFrom, if_pos hc,
          if_neg hk, List.cons_append]
    · obtain ⟨j, hj⟩ := ih 0
      refine ⟨j, fun v => ?_⟩
      rw [List.cons_append, collapseFrom, if_neg hc, hj, collapseFrom, if_neg hc, List.cons_append]

theorem collapseFrom_cons {c : CodePoint} (hc : c ≠ newline) (k : Nat) (t : Str) :
    collapseFrom k (c :: t) = c :: collapseFrom 0 t := by
  rw [collapseFrom, if_neg hc]

theorem collapseFrom_line {u : Str} (hu : newline ∉ u) (hne : u ≠ []) (k : Nat) (t : Str) :
    collapseFrom k (u ++ t) = u ++ collapseFrom 0 t := by
  induction u generalizing k with
  | nil => exact absurd rfl hne
  | cons c u ih =>
    have hc : c ≠ newline := fun h => hu (h ▸ List.mem_cons_self)
    rw [List.cons_append, collapseFrom_cons hc, List.cons_append]
    cases u with
    | nil => rfl
    | cons d u => rw [ih (fun h => hu (List.mem_cons_of_mem _ h)) (List.cons_ne_nil d u)]

theorem collapseFrom_newline {u : Str} (hu : ∃ c ∈ u, c ≠ newline) (k : Nat) :
    ∃ a, collapseFrom k (u ++ [newline]) = a ++ [newline] := by
  have hends : ∃ j, (∀ v, collapseFrom k (u ++ v) = collapseFrom k u ++ collapseFrom j v) ∧
      (j = 0 ∨ ∃ a, collapseFrom k u = a ++ [newline]) := by
    induction u using List.reverseRecOn with
    | nil =>
      obtain ⟨c, hc, _⟩ := hu
      cases hc
    | append_singleton u d ih =>
      by_cases hd : d = newline
      · have hrest : ∃ c ∈ u, c ≠ newline := by
          obtain ⟨c, hc, hne⟩ := hu
          rw [List.mem_append, List.mem_singleton, hd] at hc
          exact ⟨c, hc.resolve_right hne, hne⟩
        obtain ⟨j, hj, hend⟩ := ih hrest
        by_cases hj2 : 2 ≤ j
        · refine ⟨j, fun v => ?_, .inr ?_⟩
          · rw [List.append_assoc, hj, hj, List.singleton_append, collapseFrom, if_pos hd, if_pos hj2,
              collapseFrom, if_pos hd, if_pos hj2, collapseFrom, List.append_nil]
          · obtain ⟨a, ha⟩ := hend.resolve_left (by omega)
            exact ⟨a, by rw [hj, ha, collapseFrom, if_pos hd, if_pos hj2, collapseFrom,
              List.append_nil]⟩
        · refine ⟨j + 1, fun v => ?_, .inr ⟨collapseFrom k u, ?_⟩⟩
          · rw [List.append_assoc, hj, hj, List.singleton_append, collapseFrom, if_pos hd,
              if_neg hj2, collapseFrom, if_pos hd, if_neg hj2, collapseFrom, List.append_assoc,
              List.singleton_append]
          · rw [hj, collapseFrom, if_pos hd, if_neg hj2, collapseFrom, hd]
      · obtain ⟨j, hj⟩ := collapseFrom_append k u
        refine ⟨0, fun v => ?_, .inl rfl⟩
        rw [List.append_assoc, hj, hj, List.singleton_append, collapseFrom_cons hd,
          collapseFrom_cons hd, collapseFrom, List.append_assoc, List.singleton_append]
  obtain ⟨j, hj, hend⟩ := hends
  rw [hj, collapseFrom, if_pos rfl, collapseFrom, collapseFrom]
  split
  · obtain ⟨a, ha⟩ := hend.resolve_left (by omega)
    exact ⟨a, by rw [ha, List.append_nil]⟩
  · exact ⟨collapseFrom k u, rfl⟩

end Kirara.RenderedText
