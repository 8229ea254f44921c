import Kirara.TraceRedaction

namespace Kirara.RedactionPasses

open Kirara.Channels Kirara.TextRewriting Kirara.TraceRedaction

variable {word : Char → Bool} {c : Char} {t u v x y rest : Text}

section Characters

theorem of_foldCase_isLower (h : (foldCase c).isLower = true) : valueChar c = true ∧ isSep c = false := by
  have hspecial : ∀ n ∈ [0x130, 0x131, 0x17f, 0x212a],
      valueChar (Char.ofNat n) = true ∧ isSep (Char.ofNat n) = false := by decide
  have hascii : ∀ n < 128, (Char.ofNat n).isAlphanum = true →
      valueChar (Char.ofNat n) = true ∧ isSep (Char.ofNat n) = false := by decide +kernel
  by_cases hc : c.toNat ∈ [0x130, 0x131, 0x17f, 0x212a]
  · have hn := hspecial c.toNat hc
    rwa [Char.ofNat_toNat] at hn
  · have hfold : foldCase c = c.toLower := by
      simp only [List.mem_cons, List.not_mem_nil, or_false, not_or] at hc
      simp [foldCase, hc]
    have ha : c.isAlphanum = true := by
      rw [hfold] at h
      rw [isAlphanum_iff]
      by_cases hu : c.isUpper = true
      · exact .inl (.inl hu)
      refine .inl (.inr ?_)
      have hsame : c.toLower = c := by
        unfold Char.toLower
        rw [dif_neg]
        exact fun hr => hu (decide_eq_true hr)
      rwa [hsame] at h
    exact ascii_induction (P := fun c => c.isAlphanum = true → valueChar c = true ∧ isSep c = false)
      hascii (isAlphanum_ascii ha) ha

theorem heads_lower {leads : List Text} (h : leads.all (fun lead => lead.head?.all Char.isLower) = true) :
    ∀ lead ∈ leads, ∀ d ∈ lead.head?, d.isLower = true := by
  intro lead hl d hd
  have hlead := List.all_eq_true.mp h lead hl
  rwa [Option.mem_def.mp hd] at hlead

theorem inline_heads : ∀ lead ∈ inlineRule.leads, ∀ d ∈ lead.head?, d.isLower = true := heads_lower (by decide)

theorem auth_heads : ∀ lead ∈ authRule.leads, ∀ d ∈ lead.head?, d.isLower = true := heads_lower (by decide)

variable {r : Rule} (hr : ∀ lead ∈ r.leads, ∀ d ∈ lead.head?, d.isLower = true)

include hr

theorem not_starter_of_not_valueChar (hc : valueChar c = false) : ¬ r.Starter foldCase c := by
  rintro ⟨lead, hlead, hhead⟩
  rw [(of_foldCase_isLower (hr lead hlead _ hhead)).1] at hc
  cases hc

theorem not_starter_of_isSpace (hc : isSpace c = true) : ¬ r.Starter foldCase c :=
  not_starter_of_not_valueChar hr (by simp [valueChar, hc])

theorem not_starter_of_isSep (hc : isSep c = true) : ¬ r.Starter foldCase c := by
  rintro ⟨lead, hlead, hhead⟩
  rw [(of_foldCase_isLower (hr lead hlead _ hhead)).2] at hc
  cases hc

end Characters

section Tails

theorem isSome_run {f : Char → Bool} : (run f t).isSome = t.head?.any f := by
  cases t with
  | nil => rfl
  | cons c t =>
    cases hc : f c with
    | true => simp [run, hc]
    | false => simp [run, hc]

theorem run_eq {f : Char → Bool} (h : t.head?.any f = true) : run f t = some (t.dropWhile f) := by
  cases t with
  | nil => cases h
  | cons c t => exact if_pos h

theorem isSome_run_bind {f g : Char → Bool} :
    ((run f t).bind (run g)).isSome = (t.head?.any f && (t.dropWhile f).head?.any g) := by
  cases hf : t.head?.any f with
  | true => rw [run_eq hf, Option.bind_some, isSome_run, Bool.true_and]
  | false =>
    have hnone : run f t = none := by
      rw [← Option.isSome_eq_false_iff.trans Option.isNone_iff_eq_none, isSome_run, hf]
    rw [hnone]
    rfl

theorem head_of_scheme {scheme : Text} (hs : scheme ∈ schemes) (h : Begins foldCase scheme t) :
    t.head?.any valueChar = true := by
  obtain ⟨x, y, rfl, hx, -⟩ := h.exists_append
  cases x with
  | nil => exact absurd hx.symm (authRule.leads_ne_nil scheme hs)
  | cons c x =>
    have hc : (foldCase c).isLower = true := auth_heads scheme hs _ (hx ▸ rfl)
    exact (of_foldCase_isLower hc).1

theorem isSome_valueTail : (valueTail t).isSome = t.head?.any valueChar := by
  rw [valueTail, Option.isSome_or, isSome_run, Bool.or_eq_right_iff_imp]
  intro h
  obtain ⟨scheme, hs, hsome⟩ := List.findSome?_isSome_iff.mp h
  split at hsome
  · next hb => exact head_of_scheme hs hb
  · cases hsome

theorem isSome_inlineTail :
    (inlineTail t).isSome = true ↔ ∃ c u, t.dropWhile isSpace = c :: u ∧ isSep c = true ∧
      (u.dropWhile isSpace).head?.any valueChar = true := by
  unfold inlineTail
  split
  · next h => simp [h]
  · next c u h =>
    cases hc : isSep c with
    | true => simp [h, hc, isSome_valueTail]
    | false => simp [h, hc]

theorem valueTail_closed (h : valueTail t = some rest) : ∀ c ∈ rest.head?, valueChar c = false := by
  have hrun {u : Text} (hu : run valueChar u = some rest) :
      ∀ c ∈ rest.head?, valueChar c = false := by
    intro c hc
    cases u with
    | nil => cases hu
    | cons d u =>
      rw [run, Option.ite_none_right_eq_some] at hu
      cases hu.2
      have hd := List.head?_dropWhile_not valueChar (d :: u)
      rw [Option.mem_def.mp hc] at hd
      exact hd
  obtain h | ⟨-, h⟩ := Option.or_eq_some_iff.mp h
  · obtain ⟨scheme, -, hs⟩ := List.exists_of_findSome?_eq_some h
    rw [Option.ite_none_right_eq_some] at hs
    obtain ⟨u, -, hu⟩ := Option.bind_eq_some_iff.mp hs.2
    exact hrun hu
  · exact hrun h

theorem inlineTail_closed (h : inlineTail t = some rest) : ∀ c ∈ rest.head?, valueChar c = false := by
  unfold inlineTail at h
  split at h
  · cases h
  · rw [Option.ite_none_right_eq_some] at h
    exact valueTail_closed h.2

theorem authTail_closed (h : authTail t = some rest) : ∀ c ∈ rest.head?, authChar c = false := by
  obtain ⟨u, -, hu⟩ := Option.bind_eq_some_iff.mp h
  intro c hc
  cases u with
  | nil => cases hu
  | cons d u =>
    rw [run, Option.ite_none_right_eq_some] at hu
    cases hu.2
    have hd := List.head?_dropWhile_not authChar (d :: u)
    rw [Option.mem_def.mp hc] at hd
    exact hd

variable {s : Rule} (hs : ∀ lead ∈ s.leads, ∀ d ∈ lead.head?, d.isLower = true)

include hs

theorem inline_reflects : Reflects foldCase word inlineRule s := by
  intro p t h
  obtain ⟨c, u, hu, hc, hv⟩ := isSome_inlineTail.mp h
  obtain ⟨q, hq⟩ := dropWhile_rewrite word (fun d => not_starter_of_isSpace hs) p t
  rw [hu] at hq
  have hhead := rewrite_head? foldCase word s q (t.dropWhile isSpace)
  rw [← hq] at hhead
  obtain ⟨w, hw⟩ := List.head?_eq_some_iff.mp hhead.symm
  rw [hw, rewrite_of_none (matchAt_of_not_starter (not_starter_of_isSep hs hc))] at hq
  obtain rfl := (List.cons.inj hq).2
  obtain ⟨q', hq'⟩ := dropWhile_rewrite word (fun d => not_starter_of_isSpace hs) (some c) w
  rw [hq', rewrite_head?] at hv
  exact isSome_inlineTail.mpr ⟨c, w, hw, hc, hv⟩

theorem auth_reflects : Reflects foldCase word authRule s := by
  intro p t h
  obtain ⟨q, hq⟩ := dropWhile_rewrite word (fun d => not_starter_of_isSpace hs) p t
  have htail (t : Text) : (authRule.tail t).isSome =
      (t.head?.any isSpace && (t.dropWhile isSpace).head?.any authChar) := isSome_run_bind
  rw [htail] at h ⊢
  rwa [rewrite_head?, hq, rewrite_head?] at h

end Tails

/-- A lead where another text and the mark stand is that text, or goes on with a letter. -/
def apart (lead x : Text) : Bool :=
  !compatible lead (x ++ inlineRule.mark) || lead = x ||
    (x.drop lead.length).head?.any Char.isLower

theorem map_foldCase_mark : inlineRule.mark.map foldCase = inlineRule.mark := by decide

theorem inlineTail_of_letter (h : (t.head?.any fun c => (foldCase c).isLower) = true) :
    inlineTail t = none := by
  cases t with
  | nil => cases h
  | cons c t =>
    obtain ⟨hv, hs⟩ := of_foldCase_isLower (c := c) h
    have hspace : ¬ isSpace c = true := by
      intro hc
      simp [valueChar, hc] at hv
    rw [inlineTail, List.dropWhile_cons_of_neg hspace]
    simp [hs]

theorem eq_of_apart {z : Text} (ha : apart (u.map foldCase) (x.map foldCase) = true)
    (he : u ++ v = x ++ inlineRule.mark ++ z) (hv : (inlineTail v).isSome = true) : u = x := by
  have hcomp : compatible (u.map foldCase) (x.map foldCase ++ inlineRule.mark) = true := by
    have hmap := congrArg (List.map foldCase) he
    rw [List.map_append, List.map_append, List.map_append, map_foldCase_mark] at hmap
    exact compatible_of_append hmap
  rw [apart, hcomp, Bool.not_true, Bool.false_or, Bool.or_eq_true, decide_eq_true_eq, List.length_map] at ha
  rw [List.append_assoc] at he
  cases ha with
  | inl h =>
    have hlen : u.length = x.length := by
      rw [← List.length_map (f := foldCase), h, List.length_map]
    exact (List.append_inj he hlen).1
  | inr h =>
    have hle : u.length ≤ x.length := by
      by_contra hlt
      rw [List.drop_eq_nil_of_le (by rw [List.length_map]; omega)] at h
      cases h
    have hdrop := congrArg (List.drop u.length) he
    rw [List.drop_left' rfl, List.drop_append_of_le_length hle] at hdrop
    have hnone : inlineTail v = none := by
      apply inlineTail_of_letter
      rw [← List.map_drop, List.head?_map, Option.any_map] at h
      rw [hdrop]
      cases hx : x.drop u.length with
      | nil =>
        rw [hx] at h
        cases h
      | cons d w =>
        rw [hx] at h
        exact h
    rw [hnone] at hv
    cases hv

/-- The end of a keyword, from any letter behind its first on. -/
def KeywordEnd (x : Text) : Prop := ∃ lead ∈ inlineRule.leads, x ∈ lead.tail.tails

theorem leads_apart : ∀ k ∈ inlineRule.leads, ∀ l ∈ inlineRule.leads, apart k l = true := by
  decide +kernel

theorem ends_apart : ∀ k ∈ inlineRule.leads, ∀ e ∈ k.tail.tails, e ≠ [] →
    ∀ l ∈ inlineRule.leads, apart e l = true ∧ apart l e = true := by
  decide +kernel

theorem keywordEnd_tail (h : KeywordEnd (c :: x)) : KeywordEnd x := by
  obtain ⟨lead, hlead, hx⟩ := h
  refine ⟨lead, hlead, ?_⟩
  rw [List.mem_tails] at hx ⊢
  exact (List.suffix_cons c x).trans hx

theorem keywordEnd_of_lead {lead : Text} (h : lead ∈ inlineRule.leads) : KeywordEnd lead.tail :=
  ⟨lead, h, (List.mem_tails _ _).mpr List.suffix_rfl⟩

theorem inline_leadsReflect : LeadsReflect foldCase inlineRule inlineRule KeywordEnd := by
  intro c x y z w rest hS hy hw hb hsome
  obtain ⟨u, v, he, hu, hlen⟩ := hb.exists_append
  rw [he, ← List.length_cons (a := c), ← hlen, List.drop_left' rfl] at hsome
  obtain ⟨k, hk, hx⟩ := hS
  have hapart := (ends_apart k hk (c :: x) hx (List.cons_ne_nil c x) _ hy).1
  obtain rfl := eq_of_apart (hu ▸ hapart) he.symm hsome
  refine ⟨begins_append hu, ?_⟩
  rw [← List.length_cons (a := c), ← hlen, List.drop_left' rfl, hw]
  rfl

theorem auth_leadsReflect (r : Rule) : LeadsReflect foldCase r authRule (fun x => 'b' ∉ x) := by
  intro c x y z w rest hS hy _ hb _
  exfalso
  cases y with
  | nil => exact authRule.leads_ne_nil _ hy rfl
  | cons d y =>
    rw [List.cons_append, List.cons_append] at hb
    have hd := (begins_cons.mp hb).1
    have hheads : ∀ lead ∈ authRule.leads, lead.head? = some 'b' := by decide
    have hdb := Option.some.inj (hheads _ hy)
    exact hS (List.mem_cons.mpr (.inl (hdb.symm.trans hd)))

theorem no_b_tail {c : Char} {x : Text} (h : 'b' ∉ c :: x) : 'b' ∉ x :=
  fun hx => h (List.mem_cons_of_mem c hx)

theorem inline_tails_no_b : ∀ lead ∈ inlineRule.leads, 'b' ∉ lead.tail := by decide

theorem auth_tails_no_b : ∀ lead ∈ authRule.leads, 'b' ∉ lead.tail := by decide

section Inline

/-- Nothing at the front of the text goes on with a value. -/
def Closed (t : Text) : Prop := ∀ c ∈ t.head?, valueChar c = false

theorem inlineTail_mark (t : Text) : inlineTail (inlineRule.mark ++ t) = some (t.dropWhile valueChar) := by
  have hvalue : ∀ c ∈ "[redacted]".toList, valueChar c = true := List.all_eq_true.mp (by decide)
  have hscheme : schemes.findSome? (fun scheme =>
      if Begins foldCase scheme ("[redacted]".toList ++ t) then
        (run isSpace (("[redacted]".toList ++ t).drop scheme.length)).bind (run valueChar)
      else none) = none := by
    apply List.findSome?_eq_none_iff.mpr
    intro scheme hs
    apply if_neg
    intro hb
    obtain ⟨x, y, he, hx, -⟩ := hb.exists_append
    have hheads : ∀ lead ∈ schemes, compatible lead "[redacted]".toList = false := by decide
    have hmap := congrArg (List.map foldCase) he
    rw [List.map_append, List.map_append,
      show "[redacted]".toList.map foldCase = "[redacted]".toList by decide] at hmap
    have hc := compatible_of_append hmap.symm
    rw [hx, hheads scheme hs] at hc
    cases hc
  have hspace : ("[redacted]".toList ++ t).dropWhile isSpace = "[redacted]".toList ++ t :=
    List.dropWhile_cons_of_neg (by decide)
  have hrun : run valueChar ("[redacted]".toList ++ t) = some (t.dropWhile valueChar) := by
    rw [run_eq rfl, List.dropWhile_append_of_pos hvalue]
  have hmark : inlineRule.mark ++ t = '=' :: ("[redacted]".toList ++ t) := rfl
  rw [inlineTail, hmark, List.dropWhile_cons_of_neg (by decide)]
  dsimp only
  rw [if_pos (by decide), hspace, valueTail, hscheme, hrun]
  rfl

theorem dropWhile_closed (h : Closed t) : t.dropWhile valueChar = t := by
  cases t with
  | nil => rfl
  | cons c t => exact List.dropWhile_cons_of_neg (by simp [h c rfl])

theorem not_starter_of_closed {r : Rule} (hr : ∀ lead ∈ r.leads, ∀ d ∈ lead.head?, d.isLower = true)
    (h : Closed t) : ∀ c ∈ t.head?, ¬ r.Starter foldCase c :=
  fun c hc => not_starter_of_not_valueChar hr (h c hc)

variable (word) in
theorem closed_rewrite {r : Rule} {p : Option Char} (h : Closed t) :
    Closed (r.rewrite foldCase word p 0 t) := by
  intro c hc
  rw [rewrite_head?] at hc
  exact h c hc

theorem find_marked (hx : x.map foldCase ∈ inlineRule.leads) (ht : Closed t) :
    inlineRule.find foldCase (x ++ (inlineRule.mark ++ t)) = some (x, t) := by
  refine find_of_lead hx ?_ (fun u v he hu hv => ?_)
  · rw [show inlineRule.tail = inlineTail from rfl, inlineTail_mark, dropWhile_closed ht]
  · rw [← List.append_assoc] at he
    exact eq_of_apart (leads_apart _ hu _ hx) he.symm hv

theorem rewrite_marked_end (hx : KeywordEnd (x.map foldCase)) (ht : Closed t)
    (hfix : ∀ q, inlineRule.rewrite foldCase word q 0 t = t) (p : Option Char) :
    inlineRule.rewrite foldCase word p 0 (x ++ (inlineRule.mark ++ t)) =
      x ++ (inlineRule.mark ++ t) := by
  induction x generalizing p with
  | nil =>
    obtain ⟨q, hq⟩ := rewrite_passable foldCase word (r := inlineRule)
      (x := inlineRule.mark) (by decide) p t
    rw [List.nil_append, hq, hfix]
  | cons c x ih =>
    cases hm : inlineRule.matchAt foldCase word p (c :: (x ++ (inlineRule.mark ++ t))) with
    | none =>
      rw [List.cons_append, rewrite_of_none hm, ih (keywordEnd_tail hx)]
    | some m =>
      obtain ⟨y, q, he, hlead, hy, hr⟩ := rewrite_of_some hm
      obtain ⟨k, hk, hend⟩ := hx
      have hapart := (ends_apart k hk _ hend (List.cons_ne_nil _ _) _ hlead).2
      have hsplit : m.1 ++ y = (c :: x) ++ inlineRule.mark ++ t := by
        rw [← he, List.append_assoc, List.cons_append]
      have hm1 : m.1 = c :: x := eq_of_apart hapart hsplit (by
        rw [show inlineTail y = some m.2 from hy]
        rfl)
      rw [hm1, List.append_assoc] at hsplit
      rw [List.append_cancel_left hsplit, show inlineRule.tail = inlineTail from rfl,
        inlineTail_mark, dropWhile_closed ht] at hy
      rw [List.cons_append, hr, ← Option.some.inj hy, hfix, hm1, List.append_assoc, List.cons_append]

theorem inline_fixed_cases {p : Option Char} (h : inlineRule.rewrite foldCase word p 0 (c :: t) = c :: t) :
    inlineRule.matchAt foldCase word p (c :: t) = none ∧
        inlineRule.rewrite foldCase word (some c) 0 t = t ∨
      ∃ x u, c :: t = x ++ (inlineRule.mark ++ u) ∧ x.map foldCase ∈ inlineRule.leads ∧
        Closed u ∧ (∀ q, inlineRule.rewrite foldCase word q 0 u = u) ∧
        boundary word p c = true := by
  cases hm : inlineRule.matchAt foldCase word p (c :: t) with
  | none =>
    rw [rewrite_of_none hm] at h
    exact .inl ⟨rfl, (List.cons.inj h).2⟩
  | some m =>
    obtain ⟨y, q, he, hx, hy, hr⟩ := rewrite_of_some hm
    have hclosed : Closed m.2 := inlineTail_closed hy
    have hb : boundary word p c = true := by
      rw [Rule.matchAt, Option.ite_none_right_eq_some] at hm
      exact hm.1
    rw [h, he, List.append_assoc] at hr
    have hyq := List.append_cancel_left hr
    have hsame := hy
    rw [hyq, show inlineRule.tail = inlineTail from rfl, inlineTail_mark,
      dropWhile_closed (closed_rewrite word hclosed)] at hsame
    have hfix := Option.some.inj hsame
    refine .inr ⟨m.1, m.2, ?_, hx, hclosed, fun q' => ?_, hb⟩
    · rw [he, hyq, hfix]
    · rw [rewrite_prev (not_starter_of_closed inline_heads hclosed) q' q, hfix]

end Inline

theorem inline_pass_twice (p : Option Char) (t : Text) :
    inlineRule.rewrite foldCase word p 0 (inlineRule.rewrite foldCase word p 0 t) =
      inlineRule.rewrite foldCase word p 0 t := by
  induction hn : t.length using Nat.strong_induction_on generalizing p t with
  | _ n ih =>
  cases t with
  | nil => rfl
  | cons c t =>
    cases hm : inlineRule.matchAt foldCase word p (c :: t) with
    | none =>
      have hnone := matchAt_rewrite_none (fun _ _ => keywordEnd_tail)
        (fun _ => keywordEnd_of_lead) (inline_reflects inline_heads) inline_leadsReflect hm
      rw [rewrite_of_none hm, rewrite_of_none hnone, ih t.length (by simp [← hn]) (some c) t rfl]
    | some m =>
      obtain ⟨y, q, he, hx, hy, hr⟩ := rewrite_of_some hm
      have hclosed : Closed m.2 := inlineTail_closed hy
      have hlen : m.2.length < n := by
        have hsuffix := (inlineTail_suffix y m.2 hy).length_le
        have hpos := lead_length_pos hx
        rw [← hn, he, List.length_append]
        omega
      have hfix := ih _ hlen q m.2 rfl
      have hout := closed_rewrite word (r := inlineRule) (p := q) hclosed
      have hstart := not_starter_of_closed inline_heads hout
      cases hx1 : m.1 with
      | nil => exact absurd (by rw [hx1]; rfl) (inlineRule.leads_ne_nil _ hx)
      | cons d x =>
        obtain ⟨rfl, -⟩ := List.cons.inj (hx1 ▸ he)
        have hb : boundary word p c = true := by
          rw [Rule.matchAt, Option.ite_none_right_eq_some] at hm
          exact hm.1
        have hagain : inlineRule.matchAt foldCase word p
            ((c :: x) ++ (inlineRule.mark ++ inlineRule.rewrite foldCase word q 0 m.2)) =
              some (c :: x, inlineRule.rewrite foldCase word q 0 m.2) := by
          rw [List.cons_append, Rule.matchAt, if_pos hb, ← List.cons_append]
          exact find_marked (hx1 ▸ hx) hout
        obtain ⟨_, q', -, -, -, hr'⟩ := rewrite_of_some hagain
        rw [hr, hx1, List.append_assoc, hr', rewrite_prev hstart q' q, hfix, List.append_assoc]

theorem inline_fixed_suffix {v : Text} (hv : v <:+ t) {p : Option Char}
    (h : inlineRule.rewrite foldCase word p 0 t = t) : ∃ q, inlineRule.rewrite foldCase word q 0 v = v := by
  induction t generalizing p with
  | nil =>
    rw [List.suffix_nil.mp hv]
    exact ⟨p, rfl⟩
  | cons c t ih =>
    cases List.suffix_cons_iff.mp hv with
    | inl hv => exact ⟨p, hv ▸ h⟩
    | inr hv =>
      cases inline_fixed_cases h with
      | inl h => exact ih hv h.2
      | inr h =>
        obtain ⟨x, u, he, hx, hu, hfix, -⟩ := h
        cases x with
        | nil => exact absurd rfl (inlineRule.leads_ne_nil _ hx)
        | cons d x =>
          obtain ⟨-, rfl⟩ := List.cons.inj he
          exact ih hv (rewrite_marked_end (keywordEnd_of_lead hx) hu hfix (some c))

theorem not_starter_of_not_authChar {r : Rule} (hr : ∀ lead ∈ r.leads, ∀ d ∈ lead.head?, d.isLower = true)
    (h : ∀ c ∈ t.head?, authChar c = false) : ∀ c ∈ t.head?, ¬ r.Starter foldCase c := by
  rintro c hc ⟨lead, hlead, hhead⟩
  have ha := h c hc
  have hl := hr lead hlead _ hhead
  simp [authChar, isAlphanum_iff.mpr (.inl (.inr hl))] at ha

theorem map_foldCase_authMark : authRule.mark.map foldCase = authRule.mark := by decide

theorem inline_pass_auth {p : Option Char} (h : inlineRule.rewrite foldCase word p 0 t = t) :
    inlineRule.rewrite foldCase word p 0 (authRule.rewrite foldCase word p 0 t) =
      authRule.rewrite foldCase word p 0 t := by
  induction hn : t.length using Nat.strong_induction_on generalizing p t with
  | _ n ih =>
  cases t with
  | nil => rfl
  | cons c t =>
    cases hm : authRule.matchAt foldCase word p (c :: t) with
    | some m =>
      obtain ⟨y, q, he, hx, hy, hr⟩ := rewrite_of_some hm
      have hpass : ∀ k ∈ authRule.leads, inlineRule.passable (k ++ authRule.mark) = true := by
        decide +kernel
      have hsuffix : m.2 <:+ c :: t := by
        rw [he]
        exact (run_bind_suffix hy).trans (List.suffix_append _ _)
      have hlen : m.2.length < n := by
        have hle := (run_bind_suffix hy).length_le
        have hpos := lead_length_pos hx
        rw [← hn, he, List.length_append]
        omega
      obtain ⟨q₁, hq₁⟩ := inline_fixed_suffix hsuffix h
      have hi := ih _ hlen hq₁ rfl
      have hstarter {r : Rule} (hr : ∀ lead ∈ r.leads, ∀ d ∈ lead.head?, d.isLower = true) :=
        not_starter_of_not_authChar hr (authTail_closed hy)
      rw [hr, rewrite_prev (hstarter auth_heads) q q₁]
      obtain ⟨q₂, hq₂⟩ := rewrite_passable foldCase word (r := inlineRule)
        (x := m.1 ++ authRule.mark)
        (by rw [List.map_append, map_foldCase_authMark]; exact hpass _ hx) p
        (authRule.rewrite foldCase word q₁ 0 m.2)
      rw [hq₂, rewrite_prev (by rw [rewrite_head?]; exact hstarter inline_heads) q₂ q₁, hi]
    | none =>
      cases inline_fixed_cases h with
      | inl h =>
        have hi := ih t.length (by simp [← hn]) h.2 rfl
        have hnone := matchAt_rewrite_none (fun _ _ => no_b_tail) inline_tails_no_b
          (inline_reflects auth_heads) (auth_leadsReflect inlineRule) h.1
        rw [rewrite_of_none hm, rewrite_of_none hnone, hi]
      | inr h =>
        obtain ⟨x, u, he, hx, hu, hfix, hb⟩ := h
        have hpass : ∀ k ∈ inlineRule.leads, authRule.passable (k ++ inlineRule.mark) = true := by
          decide +kernel
        obtain ⟨q, hq⟩ := rewrite_passable foldCase word (r := authRule)
          (x := x ++ inlineRule.mark)
          (by rw [List.map_append, map_foldCase_mark]; exact hpass _ hx) p u
        have hlen : u.length < n := by
          have hpos := lead_length_pos hx
          rw [← hn, he, List.length_append, List.length_append]
          omega
        have hi := ih _ hlen (hfix q) rfl
        have hout := closed_rewrite word (r := authRule) (p := q) hu
        rw [he, ← List.append_assoc, hq, List.append_assoc]
        cases x with
        | nil => exact absurd rfl (inlineRule.leads_ne_nil _ hx)
        | cons d x =>
          obtain ⟨rfl, -⟩ := List.cons.inj he
          have hagain : inlineRule.matchAt foldCase word p
              ((c :: x) ++ (inlineRule.mark ++ authRule.rewrite foldCase word q 0 u)) =
                some (c :: x, authRule.rewrite foldCase word q 0 u) := by
            rw [List.cons_append, Rule.matchAt, if_pos hb, ← List.cons_append]
            exact find_marked hx hout
          obtain ⟨_, q', -, -, -, hr'⟩ := rewrite_of_some hagain
          rw [hr', rewrite_prev (not_starter_of_closed inline_heads hout) q' q, hi, List.append_assoc]

theorem authTail_mark (t : Text) : authTail (authRule.mark ++ t) = none := by
  rw [← Option.isSome_eq_false_iff.trans Option.isNone_iff_eq_none, authTail, isSome_run_bind]
  rfl

theorem matchAt_auth_marked (hx : (c :: x).map foldCase ∈ authRule.leads) (p : Option Char)
    (t : Text) : authRule.matchAt foldCase word p (c :: (x ++ (authRule.mark ++ t))) = none := by
  have hfind : authRule.find foldCase (c :: (x ++ (authRule.mark ++ t))) = none := by
    refine find_eq_none_iff.mpr (fun u v he hu => ?_)
    have heq : ∀ k ∈ authRule.leads, ∀ l ∈ authRule.leads,
        compatible k (l ++ authRule.mark) = true → k = l := by decide +kernel
    have hmap := congrArg (List.map foldCase) he
    rw [← List.append_assoc, ← List.cons_append, ← List.cons_append, List.map_append,
      List.map_append, List.map_append, map_foldCase_authMark] at hmap
    have hsame := heq _ hu _ hx (compatible_of_append hmap.symm)
    have hlen : u.length = (c :: x).length := by
      rw [← List.length_map (f := foldCase), hsame, List.length_map]
    obtain ⟨-, rfl⟩ := List.append_inj (he.symm.trans (List.cons_append).symm) hlen
    exact authTail_mark t
  simp [Rule.matchAt, hfind]

theorem auth_pass_twice (p : Option Char) (t : Text) :
    authRule.rewrite foldCase word p 0 (authRule.rewrite foldCase word p 0 t) =
      authRule.rewrite foldCase word p 0 t := by
  induction hn : t.length using Nat.strong_induction_on generalizing p t with
  | _ n ih =>
  cases t with
  | nil => rfl
  | cons c t =>
    cases hm : authRule.matchAt foldCase word p (c :: t) with
    | none =>
      have hnone := matchAt_rewrite_none (fun _ _ => no_b_tail) auth_tails_no_b
        (auth_reflects auth_heads) (auth_leadsReflect authRule) hm
      rw [rewrite_of_none hm, rewrite_of_none hnone, ih t.length (by simp [← hn]) (some c) t rfl]
    | some m =>
      obtain ⟨y, q, he, hx, hy, hr⟩ := rewrite_of_some hm
      have hlen : m.2.length < n := by
        have hle := (run_bind_suffix hy).length_le
        have hpos := lead_length_pos hx
        rw [← hn, he, List.length_append]
        omega
      have hi := ih _ hlen q m.2 rfl
      have hstarter : ∀ d ∈ (authRule.rewrite foldCase word q 0 m.2).head?,
          ¬ authRule.Starter foldCase d := by
        rw [rewrite_head?]
        exact not_starter_of_not_authChar auth_heads (authTail_closed hy)
      cases hx1 : m.1 with
      | nil => exact absurd (by rw [hx1]; rfl) (authRule.leads_ne_nil _ hx)
      | cons d x =>
        have hnone : authRule.matchAt foldCase word p
            (d :: (x ++ (authRule.mark ++ authRule.rewrite foldCase word q 0 m.2))) = none :=
          matchAt_auth_marked (hx1 ▸ hx) p _
        have hpass : ∀ k ∈ authRule.leads, authRule.passable (k.tail ++ authRule.mark) = true := by
          decide +kernel
        have hx' : (x ++ authRule.mark).map foldCase =
            ((d :: x).map foldCase).tail ++ authRule.mark := by
          rw [List.map_append, map_foldCase_authMark, List.map_cons, List.tail_cons]
        obtain ⟨q', hq'⟩ := rewrite_passable foldCase word (r := authRule)
          (x := x ++ authRule.mark) (hx' ▸ hpass _ (hx1 ▸ hx)) (some d)
          (authRule.rewrite foldCase word q 0 m.2)
        rw [hr, hx1, List.append_assoc, List.cons_append, rewrite_of_none hnone,
          ← List.append_assoc, hq', rewrite_prev hstarter q' q, hi]

theorem redactText_twice (t : Text) : redactText word (redactText word t) = redactText word t := by
  have hfix : inlineRule.rewrite foldCase word none 0 (redactText word t) = redactText word t :=
    inline_pass_auth (inline_pass_twice none t)
  rw [redactText, hfix]
  exact auth_pass_twice none _

end Kirara.RedactionPasses
