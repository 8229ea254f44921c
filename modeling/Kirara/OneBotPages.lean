import Kirara.CopyableCode
import Kirara.PageContent

namespace Kirara.OneBotPages

open Kirara.CodePoints Kirara.Patterns Kirara.TextSplitting Kirara.StructuredText
open Kirara.CopyableCode

def defaultMaxBytes : Nat := 3800

def onebotLimits (maxBytes : Nat) : Limits :=
  { maxBytes := some maxBytes, maxLength := none, maxPages := 100, maxTotalBytes := some 1000000 }

def paginateOnebotTextOrTruncate (text : Str) (maxBytes : Nat) : Except Str (List Str × Bool) :=
  paginateWithTruncationNotice (onebotLimits maxBytes) .markdown text

def maxPageLabelBytes : Nat := Measure.utf8.of (pageLabel 100 100)

/-- `PAGE_LABEL_PATTERN`: `^第 \d+ 页 / 共 \d+ 页\n?`, each line. -/
def pageLabelPattern : Pattern CodePoint :=
  let number : Pattern CodePoint := Pattern.some_ (.one isDigit)
  .seq (.lineStart newline) (.seq (word "第 ") (.seq number
    (.seq (word " 页 / 共 ") (.seq number (.seq (word " 页") (word "\n").optional)))))

/-- `PAGE_LABEL_PATTERN.sub("", page, count=1)`. -/
def removeLabel (page : Str) : Str :=
  match (pageLabelPattern.findIter page).head? with
  | none => page
  | some span => page.take span.1 ++ page.drop span.2

def partBytes : Nat := defaultMaxBytes - maxPageLabelBytes

def partPages (part : CopyablePart) : Except Str (List Str × Bool) :=
  paginateOnebotTextOrTruncate part.text partBytes

def bodiesOf (part : CopyablePart) (pages : List Str) : List (Str × Bool) :=
  pages.map fun page => (removeLabel page, part.isCode)

/-- The pages before they are numbered, and whether a part has been cut. -/
def replyBodies (text : Str) : Except Str (List (Str × Bool) × Bool) :=
  let parts := splitForCopyableCode text
  (parts.mapM partPages).map fun results =>
    ((List.zipWith (fun part result => bodiesOf part result.1) parts results).flatten,
      results.any fun result => 1 < result.1.length)

def numberPages (pages : List (Str × Bool)) (paginated : Bool) : List (Str × Bool) :=
  if !paginated || pages.length ≤ 1 then pages
  else pages.zipIdx.map fun p =>
    if p.1.2 then p.1 else (pageLabel (p.2 + 1) pages.length ++ p.1.1, false)

def wholePages (text : Str) : Except Str (List (Str × Bool)) :=
  (paginateOnebotTextOrTruncate text defaultMaxBytes).map fun result =>
    result.1.map fun page => (page, false)

/-- `_text_pages`, by what `isolate_code_messages` is set to. -/
def textPages (isolateCodeMessages : Bool) (text : Str) : Except Str (List (Str × Bool)) :=
  if isolateCodeMessages then
    match replyBodies text with
    | .error e => .error e
    | .ok (bodies, paginated) =>
      if bodies.isEmpty then wholePages text else .ok (numberPages bodies paginated)
  else wholePages text

theorem digits_isDigit {n : Nat} : ∀ d ∈ digits n, isDigit d = true := by
  intro d hd
  obtain ⟨c, hc, rfl⟩ := List.mem_map.mp hd
  have hdigit := Nat.isDigit_of_mem_toDigits (by decide) (by decide) hc
  rw [Char.isDigit, Bool.and_eq_true, decide_eq_true_eq, decide_eq_true_eq] at hdigit
  obtain ⟨hlow, hhigh⟩ := hdigit
  have hlow : 48 ≤ (cp c).val := hlow
  have hhigh : (cp c).val ≤ 57 := hhigh
  rw [isDigit, List.any_eq_true]
  refine ⟨0x30, by decide, ?_⟩
  rw [Bool.and_eq_true, decide_eq_true_eq, decide_eq_true_eq]
  omega

theorem digits_ne_nil {n : Nat} : digits n ≠ [] := by
  rw [digits, Ne, List.map_eq_nil_iff]
  exact Nat.toDigits_ne_nil

theorem pageLabel_leads (i total : Nat) (body : Str) :
    ∃ last, pageLabelPattern.Leads ⟨none, pageLabel i total ++ body⟩ ⟨last, body⟩ := by
  have hstop : ∀ (w : String) (rest : Str), (lit w).head? = some (cp ' ') →
      ∀ c, (lit w ++ rest).head? = some c → isDigit c = false := by
    intro w rest hw c hc
    obtain ⟨t, ht⟩ := List.head?_eq_some_iff.mp hw
    rw [ht] at hc
    cases hc
    decide
  obtain ⟨l1, h1⟩ := leads_word (lit "第 ") none
    (digits i ++ (lit " 页 / 共 " ++ (digits total ++ (lit " 页" ++ (lit "\n" ++ body)))))
  obtain ⟨l2, h2⟩ := leads_some digits_ne_nil digits_isDigit
    (hstop " 页 / 共 " (digits total ++ (lit " 页" ++ (lit "\n" ++ body))) rfl) l1
  obtain ⟨l3, h3⟩ := leads_word (lit " 页 / 共 ") l2
    (digits total ++ (lit " 页" ++ (lit "\n" ++ body)))
  obtain ⟨l4, h4⟩ := leads_some digits_ne_nil digits_isDigit
    (hstop " 页" (lit "\n" ++ body) rfl) l3
  obtain ⟨l5, h5⟩ := leads_word (lit " 页") l4 (lit "\n" ++ body)
  obtain ⟨l6, h6⟩ := leads_word (lit "\n") l5 body
  have hlabel : pageLabel i total ++ body = lit "第 " ++
      (digits i ++ (lit " 页 / 共 " ++ (digits total ++ (lit " 页" ++ (lit "\n" ++ body))))) := by
    have hend : lit " 页\n" = lit " 页" ++ lit "\n" := rfl
    simp only [pageLabel, hend, List.append_assoc]
  rw [hlabel]
  exact ⟨l6, (leads_before rfl).seq (h1.seq (h2.seq (h3.seq (h4.seq (h5.seq h6.optional)))))⟩

theorem removeLabel_pageLabel (i total : Nat) (body : Str) :
    removeLabel (pageLabel i total ++ body) = body := by
  obtain ⟨last, hleads⟩ := pageLabel_leads i total body
  have hpos : 0 < (pageLabel i total).length := by
    simp only [pageLabel, List.length_append]
    have hfirst : 0 < (lit "第 ").length := by decide
    omega
  have hfound := hleads.findIter (by rw [List.length_append]; simp only; omega)
  unfold removeLabel
  rw [hfound, List.length_append]
  simp only [Nat.add_sub_cancel, List.take_zero, List.nil_append, List.drop_left]

theorem removeLabel_of_not_found {page : Str} (h : pageLabelPattern.found page = false) :
    removeLabel page = page := by
  rw [Pattern.found, Bool.not_eq_false', List.isEmpty_iff] at h
  unfold removeLabel
  rw [h]
  rfl

theorem visible_label (t : Str) : visible (cp '第' :: t) = cp '第' :: visible t :=
  List.filter_cons_of_pos (by decide)

theorem mem_pageLabelPattern {page : Str} {span : Nat × Nat} (h : span ∈ pageLabelPattern.findIter page) :
    ∃ mid, page = page.take span.1 ++ (cp '第' :: mid ++ page.drop span.2) := by
  obtain ⟨hle, last, t, hleads, hend⟩ := Pattern.mem_findIter h
  obtain ⟨u, hu, hmatch⟩ := Pattern.mem_ends_seq.mp (List.mem_of_head? hleads)
  obtain ⟨_, rfl⟩ := Pattern.mem_ends_before.mp hu
  obtain ⟨v, hv, hmatch⟩ := Pattern.mem_ends_seq.mp hmatch
  obtain ⟨w, hw, hv⟩ := Pattern.mem_ends_seq.mp hv
  obtain ⟨c, cs, hrest, hc, rfl⟩ := Pattern.mem_ends_one.mp hw
  have hrest : page.drop span.1 = c :: cs := hrest
  have hcs : t.rest <:+ cs := (Pattern.ends_suffix _ hmatch).trans (Pattern.ends_suffix _ hv)
  obtain ⟨mid, hmid⟩ := hcs
  have htail : t.rest = page.drop span.2 := by
    have hsuffix : t.rest <:+ page.drop span.1 := by
      rw [hrest, ← hmid]
      exact (List.suffix_append mid t.rest).trans (List.suffix_cons c _)
    have hlen : t.rest.length = page.length - span.2 := by omega
    have hwhole := List.suffix_iff_eq_drop.mp (hsuffix.trans (List.drop_suffix span.1 page))
    rw [hwhole, hlen]
    congr 1
    omega
  refine ⟨mid, ?_⟩
  have hdrop : page.drop span.1 = cp '第' :: mid ++ page.drop span.2 := by
    rw [hrest, ← hmid, htail, beq_iff_eq.mp hc]
    rfl
  rw [← hdrop, List.take_append_drop]

theorem removeLabel_visible {page : Str} : (visible (removeLabel page)).length ≤ (visible page).length ∧
      (visible (removeLabel page) = visible page ↔ pageLabelPattern.found page = false) := by
  cases hfound : pageLabelPattern.found page with
  | false =>
    rw [removeLabel_of_not_found hfound]
    exact ⟨Nat.le_refl _, fun _ => rfl, fun _ => rfl⟩
  | true =>
    rw [Pattern.found, Bool.not_eq_true', Bool.eq_false_iff, Ne, List.isEmpty_iff] at hfound
    obtain ⟨span, spans, hspans⟩ := List.exists_cons_of_ne_nil hfound
    obtain ⟨mid, hmid⟩ := mem_pageLabelPattern (hspans ▸ List.mem_cons_self : span ∈ _)
    have hremoved : removeLabel page = page.take span.1 ++ page.drop span.2 := by
      unfold removeLabel
      rw [hspans]
      rfl
    have hseen : (visible page).length = (visible (page.take span.1)).length + 1 +
        (visible mid).length + (visible (page.drop span.2)).length := by
      conv_lhs => rw [hmid]
      rw [visible_append, visible_append, visible_label, List.length_append, List.length_append,
        List.length_cons]
      omega
    have hshort : (visible (removeLabel page)).length < (visible page).length := by
      rw [hremoved, visible_append, List.length_append]
      omega
    refine ⟨Nat.le_of_lt hshort, fun heq => ?_, nofun⟩
    rw [heq] at hshort
    exact absurd hshort (Nat.lt_irrefl _)

theorem removeLabel_le (m : Measure) (page : Str) : m.of (removeLabel page) ≤ m.of page := by
  unfold removeLabel
  cases hfound : (pageLabelPattern.findIter page).head? with
  | none => exact Nat.le_refl _
  | some span =>
    obtain ⟨mid, hmid⟩ := mem_pageLabelPattern (List.mem_of_head? hfound)
    conv_rhs => rw [hmid]
    simp only [Measure.of_append]
    omega

end Kirara.OneBotPages
