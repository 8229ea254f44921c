import Kirara.OneBotPages

namespace Kirara.OneBotContent

open Kirara.CodePoints Kirara.StructuredText Kirara.CopyableCode
open Kirara.PageBounds Kirara.PageMarks Kirara.PageContent Kirara.OneBotPages Kirara.Fallible

def unlabelled : List Piece → List Piece
  | (.label, _) :: body => body
  | page => [(.source, removeLabel (plain page))]

def withoutLabel : List Piece → List Piece
  | (.label, _) :: body => body
  | page => page

def markPart (part : CopyablePart) : Except Str (List (List Piece)) :=
  (partPages part).bind fun result =>
    (markPages .utf8 partBytes .markdown part.text result.1.length).map (List.map unlabelled)

def markWhole (text : Str) : Except Str (List (List Piece)) :=
  (paginateOnebotTextOrTruncate text defaultMaxBytes).bind fun result =>
    (markPages .utf8 defaultMaxBytes .markdown text result.1.length).map (List.map withoutLabel)

def apart (isolateCodeMessages : Bool) (text : Str) : Bool :=
  isolateCodeMessages && !(splitForCopyableCode text).isEmpty

/-- What the pages of a reply are, label apart, with the origin of each piece. -/
def markBodies (isolateCodeMessages : Bool) (text : Str) : Except Str (List (List Piece)) :=
  if apart isolateCodeMessages text then
    ((splitForCopyableCode text).mapM markPart).map List.flatten
  else markWhole text

def sources (isolateCodeMessages : Bool) (text : Str) : List Str :=
  if apart isolateCodeMessages text then (splitForCopyableCode text).map CopyablePart.text
  else [text]

structure Intact (isolateCodeMessages : Bool) (text : Str) (pages : List (Str × Bool))
    (bodies : List (List Piece)) : Prop where
  marked : markBodies isolateCodeMessages text = .ok bodies
  count : bodies.length = pages.length
  each : ∀ page ∈ pages, Measure.utf8.of page.1 ≤ defaultMaxBytes
  numbered : ∀ (i : Nat) (page : Str × Bool) (body : List Piece),
    pages[i]? = some page → bodies[i]? = some body →
      page.1 = plain body ∨
      (page.2 = false ∧ page.1 = pageLabel (i + 1) pages.length ++ plain body)
  whole : visible (kept bodies.flatten) = visible (sources isolateCodeMessages text).flatten

def LosesNothing (isolateCodeMessages : Bool) (text : Str) (pages : List (Str × Bool)) : Prop :=
  ∃ bodies, Intact isolateCodeMessages text pages bodies

/-- No text that is paginated for the reply has been cut short. -/
def Untruncated (isolateCodeMessages : Bool) (text : Str) : Prop :=
  if apart isolateCodeMessages text then
    ∀ part ∈ splitForCopyableCode text, ∀ result, partPages part = .ok result → result.2 = false
  else ∀ result, paginateOnebotTextOrTruncate text defaultMaxBytes = .ok result → result.2 = false

/-- A part that stays on one page holds nothing like a label, and another has its tables in
order. -/
structure PartSafe (part : CopyablePart) : Prop where
  unlabelled : Measure.utf8.of part.text ≤ partBytes → pageLabelPattern.found part.text = false
  tables : TablesInOrder (onebotLimits partBytes) .markdown part.text .utf8 partBytes

def LeavesRoom (text : Str) : Prop :=
  ∀ bodies, replyBodies text = .ok (bodies, true) → 1 < bodies.length →
    ∀ (i : Nat) (body : Str), bodies[i]? = some (body, false) →
      Measure.utf8.of (pageLabel (i + 1) bodies.length) + Measure.utf8.of body ≤ defaultMaxBytes

def Safe (isolateCodeMessages : Bool) (text : Str) : Prop :=
  if apart isolateCodeMessages text then
    (∀ part ∈ splitForCopyableCode text, PartSafe part) ∧ LeavesRoom text
  else TablesInOrder (onebotLimits defaultMaxBytes) .markdown text .utf8 defaultMaxBytes

section Pagination

variable {b : Nat} {text : Str} {pages : List Str}

theorem onebotLimits_accepted (h : 0 < b) : Accepted (onebotLimits b) .utf8 b :=
  ⟨rfl, h, (by decide : 0 < 100), (by decide : some 1000000 ≠ some 0)⟩

theorem partBytes_pos : 0 < partBytes := by decide

theorem untruncated_ok {result : List Str × Bool}
    (h : paginateOnebotTextOrTruncate text b = .ok result) (hu : result.2 = false) :
    splitStructuredText (onebotLimits b) .markdown text = .ok result.1 := by
  unfold paginateOnebotTextOrTruncate paginateWithTruncationNotice at h
  cases hs : splitStructuredText (onebotLimits b) .markdown text with
  | ok pages =>
    rw [hs] at h
    cases h
    rfl
  | error e =>
    simp only [hs] at h
    split at h
    · split at h
      · cases h
      · cases h
        cases hu
    · cases h

theorem mergeMarked_ne_nil {m : Measure} {merged : List (List Piece)} {chunk : List Piece} :
    mergeMarked m b merged chunk ≠ [] := by
  unfold mergeMarked
  split
  · exact List.cons_ne_nil _ _
  simp only
  split
  · exact List.cons_ne_nil _ _
  · exact List.cons_ne_nil _ _

theorem markBody_ne_nil {chunks : List (List Piece)}
    (h : markBody .utf8 b .markdown text = .ok chunks) : chunks ≠ [] := by
  unfold markBody at h
  split at h
  · cases h
    exact List.cons_ne_nil _ _
  · obtain ⟨parts, _, rfl⟩ := map_ok h
    split
    · exact List.cons_ne_nil _ _
    · next hne =>
      cases List.eq_nil_or_concat parts with
      | inl hnil => exact absurd (List.isEmpty_iff.mpr hnil) hne
      | inr hlast =>
        obtain ⟨front, last, rfl⟩ := hlast
        rw [markBackfill, List.concat_eq_append, List.foldl_append, Ne, List.reverse_eq_nil_iff]
        exact mergeMarked_ne_nil

theorem markPages_cases (hb : 0 < b) (h : splitStructuredText (onebotLimits b) .markdown text = .ok pages) :
    (Measure.utf8.of text ≤ b ∧ pages = [text] ∧
      markPages .utf8 b .markdown text pages.length = .ok [[(.source, text)]]) ∨
    (b < Measure.utf8.of text ∧ ∃ chunks, chunks ≠ [] ∧
      pages = StructuredText.numberPages (chunks.map plain) ∧
      markPages .utf8 b .markdown text pages.length = .ok (markLabels chunks) ∧
      (visible (kept chunks.flatten)).length ≤ (visible text).length ∧
      (visible (kept chunks.flatten) = visible text ↔
        TablesInOrder (onebotLimits b) .markdown text .utf8 b)) := by
  have hl := onebotLimits_accepted hb
  have hplain := markPages_plain hl h
  unfold markPages at hplain ⊢
  cases splitWithin_ok (splitStructuredText_ok hl h).1 with
  | inl hone =>
    obtain ⟨hfits, rfl⟩ := hone
    exact .inl ⟨hfits, rfl, if_pos hfits⟩
  | inr hmany =>
    have hlong := hmany.1
    rw [if_neg (Nat.not_le_of_lt hlong)] at hplain ⊢
    obtain ⟨marked, hmarked, hpages⟩ := map_ok hplain
    obtain ⟨chunks, hbody, rfl⟩ := map_ok hmarked
    obtain ⟨hle, hiff⟩ := markBody_kept_le hbody
    refine .inr ⟨hlong, chunks, markBody_ne_nil hbody, ?_, by rw [hbody]; rfl, hle, ?_⟩
    · rw [hpages, markLabels_plain]
    · rw [hiff]
      constructor
      · intro hall pages' hpages' _ table hmem
        rw [h] at hpages'
        cases hpages'
        exact hall (.table table) hmem
      · intro htables s hmem
        cases s with
        | prose text => exact trivial
        | code block => exact trivial
        | table lines => exact htables pages h hlong lines hmem

end Pagination

section Parts

variable {b : Nat} {text : Str} {part : CopyablePart} {result : List Str × Bool}

theorem kept_unmarked (text : Str) : kept [(.source, text)] = text := by
  rw [kept_source, kept_nil, List.append_nil]

theorem markLabels_bodies {f : List Piece → List Piece}
    (hf : ∀ label body, f ((.label, label) :: body) = body) (chunks : List (List Piece)) :
    (markLabels chunks).map f = chunks := by
  unfold markLabels
  rw [List.map_map]
  have hcomp : f ∘ (fun p : List Piece × Nat =>
      (.label, pageLabel (p.2 + 1) chunks.length) :: p.1) = Prod.fst := by
    funext p
    exact hf _ p.1
  rw [hcomp, List.zipIdx_map_fst]

theorem numberPages_map {α : Type} {f : Str → α} {g : List Piece → α}
    (hf : ∀ i total chunk, f (pageLabel i total ++ plain chunk) = g chunk) (chunks : List (List Piece)) :
    (StructuredText.numberPages (chunks.map plain)).map f = chunks.map g := by
  rw [StructuredText.numberPages, List.map_map, List.zipIdx_map, List.map_map]
  have hcomp : (f ∘ fun p : Str × Nat => pageLabel (p.2 + 1) (chunks.map plain).length ++ p.1) ∘
      Prod.map plain id = g ∘ Prod.fst := by
    funext p
    exact hf _ _ p.1
  rw [hcomp, ← List.map_map, List.zipIdx_map_fst]

theorem markPart_spec (h : partPages part = .ok result) (hu : result.2 = false) :
    ∃ marked, markPart part = .ok marked ∧ marked ≠ [] ∧
      (bodiesOf part result.1).map Prod.fst = marked.map plain ∧
      (∀ body ∈ bodiesOf part result.1, Measure.utf8.of body.1 ≤ partBytes) ∧
      (visible (kept marked.flatten)).length ≤ (visible part.text).length ∧
      (visible (kept marked.flatten) = visible part.text ↔ PartSafe part) := by
  have hpages := untruncated_ok h hu
  have hwithin := splitStructuredText_within (onebotLimits_accepted partBytes_pos) hpages
  have hfit : ∀ body ∈ bodiesOf part result.1, Measure.utf8.of body.1 ≤ partBytes := by
    intro body hbody
    obtain ⟨page, hpage, rfl⟩ := List.mem_map.mp hbody
    exact Nat.le_trans (removeLabel_le .utf8 page) (hwithin.each page hpage)
  have hmark : markPart part =
      (markPages .utf8 partBytes .markdown part.text result.1.length).map (List.map unlabelled) := by
    rw [markPart, h]
    rfl
  have hbodies : (bodiesOf part result.1).map Prod.fst = result.1.map removeLabel := by
    rw [bodiesOf, List.map_map]
    rfl
  rw [hmark, hbodies]
  cases markPages_cases partBytes_pos hpages with
  | inl hone =>
    obtain ⟨hfits, hpages', hmarked⟩ := hone
    obtain ⟨hle, hiff⟩ := @removeLabel_visible part.text
    rw [hmarked]
    refine ⟨[[(.source, removeLabel part.text)]], ?_, List.cons_ne_nil _ _, ?_, hfit, ?_, ?_⟩
    · simp [Except.map, unlabelled]
    · simp [hpages']
    · simpa [kept_unmarked] using hle
    · rw [List.flatten_singleton, kept_unmarked, hiff]
      refine ⟨fun hlabel => ⟨fun _ => hlabel, ?_⟩, fun hsafe => hsafe.unlabelled hfits⟩
      exact fun _ _ hlong => absurd hfits (Nat.not_le_of_lt hlong)
  | inr hmany =>
    obtain ⟨hlong, chunks, hne, hpages', hmarked, hle, hiff⟩ := hmany
    rw [hmarked]
    refine ⟨chunks, ?_, hne, ?_, hfit, hle, ?_⟩
    · exact congrArg Except.ok (markLabels_bodies (fun _ _ => rfl) chunks)
    · rw [hpages']
      exact numberPages_map (fun i total chunk => removeLabel_pageLabel i total (plain chunk)) chunks
    · rw [hiff]
      exact ⟨fun htables => ⟨fun hfits => absurd hfits (Nat.not_le_of_lt hlong), htables⟩,
        fun hsafe => hsafe.tables⟩

theorem markParts_spec {parts : List CopyablePart} {results : List (List Str × Bool)}
    (h : parts.mapM partPages = .ok results)
    (hu : ∀ part ∈ parts, ∀ result, partPages part = .ok result → result.2 = false) :
    ∃ marked, parts.mapM markPart = .ok marked ∧ (marked.flatten = [] ↔ parts = []) ∧
      (List.zipWith (fun part result => bodiesOf part result.1) parts results).flatten.map Prod.fst =
        marked.flatten.map plain ∧
      (∀ body ∈ (List.zipWith (fun part result => bodiesOf part result.1) parts results).flatten,
        Measure.utf8.of body.1 ≤ partBytes) ∧
      (visible (kept marked.flatten.flatten)).length ≤
        (visible (parts.map CopyablePart.text).flatten).length ∧
      (visible (kept marked.flatten.flatten) = visible (parts.map CopyablePart.text).flatten ↔
        ∀ part ∈ parts, PartSafe part) := by
  induction parts generalizing results with
  | nil =>
    rw [List.mapM_nil] at h
    cases h
    exact ⟨[], rfl, by simp, rfl, nofun, Nat.le_refl _, fun _ _ hm => absurd hm List.not_mem_nil,
      fun _ => rfl⟩
  | cons part parts ih =>
    rw [List.mapM_cons] at h
    obtain ⟨result, hresult, h⟩ := bind_eq_ok.mp h
    obtain ⟨results, hresults, h⟩ := bind_eq_ok.mp h
    cases pure_eq_ok.mp h
    obtain ⟨hfirst, hrest⟩ := List.forall_mem_cons.mp hu
    obtain ⟨body, hbody, hne, hplain, hfit, hle, hiff⟩ := markPart_spec hresult (hfirst _ hresult)
    obtain ⟨bodies, hbodies, _, hplains, hfits, hles, hiffs⟩ := ih hresults hrest
    refine ⟨body :: bodies, ?_, ?_, ?_, ?_, ?_, ?_⟩
    · rw [List.mapM_cons, hbody, hbodies]
      rfl
    · simp [hne]
    · rw [List.zipWith_cons_cons, List.flatten_cons, List.map_append, hplain, hplains,
        List.flatten_cons, List.map_append]
    · rw [List.zipWith_cons_cons, List.flatten_cons]
      exact List.forall_mem_append.mpr ⟨hfit, hfits⟩
    · simp only [List.flatten_cons, List.flatten_append, List.map_cons, kept_append, visible_append,
        List.length_append]
      omega
    · simp only [List.flatten_cons, List.flatten_append, List.map_cons, kept_append, visible_append,
        List.forall_mem_cons]
      rw [← hiff, ← hiffs]
      refine ⟨fun heq => ?_, fun heq => by rw [heq.1, heq.2]⟩
      have hlen := congrArg List.length heq
      rw [List.length_append, List.length_append] at hlen
      exact List.append_inj heq (by omega)

theorem markWhole_spec (h : paginateOnebotTextOrTruncate text defaultMaxBytes = .ok result)
    (hu : result.2 = false) : ∃ marked, markWhole text = .ok marked ∧ marked.length = result.1.length ∧
      (∀ page ∈ result.1, Measure.utf8.of page ≤ defaultMaxBytes) ∧
      (∀ (i : Nat) (page : Str) (body : List Piece), result.1[i]? = some page → marked[i]? = some body →
        page = plain body ∨ page = pageLabel (i + 1) result.1.length ++ plain body) ∧
      (visible (kept marked.flatten) = visible text ↔
        TablesInOrder (onebotLimits defaultMaxBytes) .markdown text .utf8 defaultMaxBytes) := by
  have hpos : 0 < defaultMaxBytes := by decide
  have hpages := untruncated_ok h hu
  have hwithin := splitStructuredText_within (onebotLimits_accepted hpos) hpages
  have hmark : markWhole text = (markPages .utf8 defaultMaxBytes .markdown text
      result.1.length).map (List.map withoutLabel) := by
    rw [markWhole, h]
    rfl
  rw [hmark]
  cases markPages_cases hpos hpages with
  | inl hone =>
    obtain ⟨hfits, hpages', hmarked⟩ := hone
    rw [hmarked]
    refine ⟨[[(.source, text)]], rfl, by rw [hpages']; rfl, hwithin.each, ?_, ?_⟩
    · intro i page body hpage hbody
      rw [hpages'] at hpage
      cases i with
      | zero =>
        cases hpage
        cases hbody
        exact .inl (by simp)
      | succ i => cases hpage
    · rw [List.flatten_singleton, kept_unmarked]
      exact iff_of_true rfl fun _ _ hlong => absurd hfits (Nat.not_le_of_lt hlong)
  | inr hmany =>
    obtain ⟨hlong, chunks, hne, hpages', hmarked, hle, hiff⟩ := hmany
    rw [hmarked]
    refine ⟨chunks, congrArg Except.ok (markLabels_bodies (fun _ _ => rfl) chunks), ?_,
      hwithin.each, ?_, hiff⟩
    · rw [hpages', numberPages_length, List.length_map]
    · intro i page body hpage hbody
      rw [hpages', numberPages_getElem?, List.getElem?_map, hbody] at hpage
      cases hpage
      rw [hpages', numberPages_length]
      exact .inr rfl

end Parts

variable {bodies : List (Str × Bool)} {paginated : Bool}

theorem numberPages_length (bodies : List (Str × Bool)) (paginated : Bool) :
    (OneBotPages.numberPages bodies paginated).length = bodies.length := by
  unfold OneBotPages.numberPages
  split
  · rfl
  · rw [List.length_map, List.length_zipIdx]

theorem numberPages_getElem? {i : Nat} {page : Str × Bool}
    (h : (OneBotPages.numberPages bodies paginated)[i]? = some page) :
    ∃ body, bodies[i]? = some body ∧ page.2 = body.2 ∧
      ((page.1 = body.1 ∧ (body.2 = true ∨ ¬ (paginated = true ∧ 1 < bodies.length))) ∨
      (body.2 = false ∧ paginated = true ∧ 1 < bodies.length ∧
        page.1 = pageLabel (i + 1) bodies.length ++ body.1)) := by
  unfold OneBotPages.numberPages at h
  split at h
  · next hplain =>
    refine ⟨page, h, rfl, .inl ⟨rfl, .inr ?_⟩⟩
    rintro ⟨hp, hlen⟩
    rw [hp, Bool.not_true, Bool.false_or, decide_eq_true_eq] at hplain
    omega
  · next hplain =>
    rw [Bool.or_eq_true, Bool.not_eq_true', decide_eq_true_eq, not_or, Bool.not_eq_false] at hplain
    rw [List.getElem?_map, List.getElem?_zipIdx] at h
    cases hbody : bodies[i]? with
    | none =>
      rw [hbody] at h
      cases h
    | some body =>
      rw [hbody] at h
      refine ⟨body, rfl, ?_⟩
      simp only [Option.map_some, Option.some.injEq, Nat.zero_add] at h
      cases hcode : body.2 with
      | true =>
        rw [hcode, if_pos rfl] at h
        rw [← h]
        exact ⟨hcode, .inl ⟨rfl, .inl rfl⟩⟩
      | false =>
        rw [hcode, if_neg Bool.false_ne_true] at h
        rw [← h]
        exact ⟨rfl, .inr ⟨rfl, hplain.1, by omega, rfl⟩⟩

theorem numberPages_each_iff (hfit : ∀ body ∈ bodies, Measure.utf8.of body.1 ≤ partBytes) :
    (∀ page ∈ OneBotPages.numberPages bodies paginated, Measure.utf8.of page.1 ≤ defaultMaxBytes) ↔
      (paginated = true → 1 < bodies.length → ∀ (i : Nat) (body : Str), bodies[i]? = some (body, false) →
        Measure.utf8.of (pageLabel (i + 1) bodies.length) + Measure.utf8.of body ≤
          defaultMaxBytes) := by
  have hroom : partBytes ≤ defaultMaxBytes := by decide
  constructor
  · intro heach hp hlen i body hbody
    have hi : i < (OneBotPages.numberPages bodies paginated).length := by
      rw [numberPages_length]
      exact (List.getElem?_eq_some_iff.mp hbody).1
    obtain ⟨page, hpage⟩ : ∃ page, (OneBotPages.numberPages bodies paginated)[i]? = some page :=
      ⟨_, List.getElem?_eq_getElem hi⟩
    obtain ⟨found, hfound, _, hcases⟩ := numberPages_getElem? hpage
    rw [hbody] at hfound
    cases hfound
    have hle := heach page (List.mem_of_getElem? hpage)
    cases hcases with
    | inl h =>
      cases h.2 with
      | inl hcode => cases hcode
      | inr hno => exact absurd ⟨hp, hlen⟩ hno
    | inr h =>
      rw [h.2.2.2, Measure.of_append] at hle
      exact hle
  · intro hlabels page hpage
    obtain ⟨i, hi⟩ := List.mem_iff_getElem?.mp hpage
    obtain ⟨body, hbody, _, hcases⟩ := numberPages_getElem? hi
    cases hcases with
    | inl h =>
      rw [h.1]
      exact Nat.le_trans (hfit body (List.mem_of_getElem? hbody)) hroom
    | inr h =>
      obtain ⟨hcode, hp, hlen, hlabel⟩ := h
      rw [hlabel, Measure.of_append]
      exact hlabels hp hlen i body.1 (hcode ▸ hbody)

variable {isolateCodeMessages : Bool} {text : Str} {pages : List (Str × Bool)}

theorem wholePages_losesNothing_iff (hapart : apart isolateCodeMessages text = false)
    (h : wholePages text = .ok pages) (hu : Untruncated isolateCodeMessages text) :
    LosesNothing isolateCodeMessages text pages ↔ Safe isolateCodeMessages text := by
  obtain ⟨result, hresult, rfl⟩ := map_ok h
  rw [Untruncated, hapart] at hu
  obtain ⟨marked, hmarked, hlength, heach, hnumbered, hwhole⟩ :=
    markWhole_spec hresult (hu result hresult)
  have hbodies : markBodies isolateCodeMessages text = markWhole text := by
    rw [markBodies, hapart]
    rfl
  have hsources : (sources isolateCodeMessages text).flatten = text := by
    rw [sources, hapart]
    exact List.append_nil text
  have hsafe : Safe isolateCodeMessages text ↔
      TablesInOrder (onebotLimits defaultMaxBytes) .markdown text .utf8 defaultMaxBytes := by
    rw [Safe, hapart]
    exact Iff.rfl
  rw [hsafe, ← hwhole]
  constructor
  · rintro ⟨bodies, hintact⟩
    have heq := hintact.marked
    rw [hbodies, hmarked] at heq
    cases heq
    rw [← hsources]
    exact hsources ▸ hintact.whole
  · intro hkept
    refine ⟨marked, hbodies.trans hmarked, ?_, ?_, ?_, by rw [hsources]; exact hkept⟩
    · rw [hlength, List.length_map]
    · intro page hpage
      obtain ⟨text, htext, rfl⟩ := List.mem_map.mp hpage
      exact heach text htext
    · intro i page body hpage hbody
      rw [List.getElem?_map, Option.map_eq_some_iff] at hpage
      obtain ⟨text, htext, rfl⟩ := hpage
      rw [List.length_map]
      exact (hnumbered i text body htext hbody).imp id fun hlabel => ⟨rfl, hlabel⟩

theorem numberPages_losesNothing_iff (hapart : apart isolateCodeMessages text = true)
    {bodies : List (Str × Bool)} {paginated : Bool}
    (h : replyBodies text = .ok (bodies, paginated)) (hu : Untruncated isolateCodeMessages text) : bodies ≠ [] ∧
    (LosesNothing isolateCodeMessages text (OneBotPages.numberPages bodies paginated) ↔
      Safe isolateCodeMessages text) := by
  rw [Untruncated, if_pos hapart] at hu
  have hreply := h
  obtain ⟨results, hresults, hpair⟩ := map_ok h
  obtain ⟨hbodies, _⟩ := Prod.mk.inj hpair
  obtain ⟨marked, hmarked, hempty, hplain, hfit, _, hiff⟩ := markParts_spec hresults hu
  rw [← hbodies] at hplain hfit
  have hmark : markBodies isolateCodeMessages text = .ok marked.flatten := by
    rw [markBodies, if_pos hapart, hmarked]
    rfl
  have hparts : splitForCopyableCode text ≠ [] := by
    rw [apart, Bool.and_eq_true, Bool.not_eq_true', Bool.eq_false_iff, Ne, List.isEmpty_iff] at hapart
    exact hapart.2
  have hsources : sources isolateCodeMessages text =
      (splitForCopyableCode text).map CopyablePart.text := if_pos hapart
  have hroom : (∀ page ∈ OneBotPages.numberPages bodies paginated,
      Measure.utf8.of page.1 ≤ defaultMaxBytes) ↔ LeavesRoom text := by
    rw [numberPages_each_iff hfit, LeavesRoom]
    constructor
    · intro hlabels others hothers
      rw [hreply] at hothers
      cases hothers
      exact hlabels rfl
    · intro hlabels hp
      exact hlabels bodies (hp ▸ hreply)
  have hcount : marked.flatten.length = bodies.length := by
    have hlen := congrArg List.length hplain
    rw [List.length_map, List.length_map] at hlen
    exact hlen.symm
  refine ⟨fun hnil => ?_, ?_⟩
  · rw [hnil] at hcount
    exact hparts (hempty.mp (List.length_eq_zero_iff.mp hcount))
  · rw [Safe, if_pos hapart, ← hroom, ← hiff]
    constructor
    · rintro ⟨found, hintact⟩
      have heq := hintact.marked
      rw [hmark] at heq
      cases heq
      have hwhole := hintact.whole
      rw [hsources] at hwhole
      exact ⟨hwhole, hintact.each⟩
    · rintro ⟨hwhole, heach⟩
      refine ⟨marked.flatten, hmark, ?_, heach, ?_, by rw [hsources]; exact hwhole⟩
      · rw [numberPages_length, hcount]
      · intro i page body hpage hbody
        obtain ⟨found, hfound, hcode, hcases⟩ := numberPages_getElem? hpage
        have hsame : found.1 = plain body := by
          have hith := congrArg (fun l : List Str => l[i]?) hplain
          simp only [List.getElem?_map, hfound, hbody, Option.map_some, Option.some.injEq] at hith
          exact hith
        rw [numberPages_length, ← hsame, hcode]
        exact hcases.imp (fun hkept => hkept.1) fun hlabel => ⟨hlabel.1, hlabel.2.2.2⟩

theorem kept_sublist_plain (ps : List Piece) : (kept ps).Sublist (plain ps) := by
  induction ps with
  | nil => exact List.nil_sublist _
  | cons p ps ih =>
    obtain ⟨origin, t⟩ := p
    rw [plain_cons]
    by_cases horigin : origin = .source
    · rw [horigin, kept_source]
      exact List.Sublist.append_left ih t
    · rw [kept_other horigin]
      exact ih.trans (List.sublist_append_right _ _)

theorem plain_sublist_pages {bodies : List (List Piece)} (hcount : bodies.length = pages.length)
    (h : ∀ (i : Nat) (page : Str × Bool) (body : List Piece), pages[i]? = some page →
      bodies[i]? = some body → (plain body).Sublist page.1) :
    (plain bodies.flatten).Sublist (pages.map Prod.fst).flatten := by
  induction bodies generalizing pages with
  | nil => exact List.nil_sublist _
  | cons body bodies ih =>
    cases pages with
    | nil => cases hcount
    | cons page pages =>
      have hrest := ih (Nat.succ.inj hcount) fun i page body hpage hbody =>
        h (i + 1) page body hpage hbody
      rw [List.flatten_cons, plain_append, List.map_cons, List.flatten_cons]
      exact (h 0 page body rfl rfl).append hrest

theorem LosesNothing.contains (h : LosesNothing isolateCodeMessages text pages) :
    (visible (sources isolateCodeMessages text).flatten).Sublist
      (visible (pages.map Prod.fst).flatten) := by
  obtain ⟨bodies, hintact⟩ := h
  have hpages := plain_sublist_pages hintact.count fun i page body hpage hbody => by
    cases hintact.numbered i page body hpage hbody with
    | inl hsame => exact hsame ▸ List.Sublist.refl _
    | inr hlabel => exact hlabel.2 ▸ List.sublist_append_right _ _
  rw [← hintact.whole]
  exact ((kept_sublist_plain _).trans hpages).filter _

end Kirara.OneBotContent
