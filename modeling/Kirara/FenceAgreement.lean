import Kirara.FenceScanners

namespace Kirara.FenceAgreement

open Kirara.CodePoints Kirara.Fences Kirara.StructuredText Kirara.FenceScanners

structure Line where
  body : Str
  ending : Str

def Line.text (l : Line) : Str := l.body ++ l.ending

def cutLine (line : Str) : Line := ⟨lineBody line, line.drop (lineBody line).length⟩

/-- The lines of `text.splitlines()`, with their ends. -/
def linesOf (text : Str) : List Line := (splitLines text).map cutLine

/-- The ends that `str.splitlines` knows. -/
inductive Ending : Str → Prop where
  | none : Ending []
  | newline : Ending [newline]
  | carriage : Ending [carriageReturn, newline]
  | other {c : CodePoint} : isLineBreak c = true → c ≠ newline → Ending [c]

/-- Lines as a text is cut into: only the last may be without an end. -/
def WellEnded : List Line → Prop
  | [] => True
  | l :: ls => (∀ c ∈ l.body, isLineBreak c = false) ∧ Ending l.ending ∧
    (l.ending = [] → ls = []) ∧ l.text ≠ [] ∧ WellEnded ls

theorem isLineBreak_newline : isLineBreak newline = true := by decide

theorem isLineBreak_carriageReturn : isLineBreak carriageReturn = true := by decide

theorem lineBody_append {body ending : Str} (hb : ∀ c ∈ body, isLineBreak c = false)
    (he : Ending ending) : lineBody (body ++ ending) = body := by
  have hlast : ∀ c, body.getLast? = some c → isLineBreak c = false :=
    fun c hc => hb c (List.mem_of_getLast? hc)
  unfold lineBody
  cases he with
  | none =>
    rw [List.append_nil]
    cases hl : body.getLast? with
    | none => simp
    | some c =>
      have hc := hlast c hl
      have hne : c ≠ newline := fun h => by rw [h, isLineBreak_newline] at hc; cases hc
      simp [hne, hc]
  | newline =>
    have hne : body.getLast? ≠ some carriageReturn := by
      intro h
      have hc := hlast _ h
      rw [isLineBreak_carriageReturn] at hc
      cases hc
    simp [hne]
  | carriage =>
    have hsplit : body ++ [carriageReturn, newline] = (body ++ [carriageReturn]) ++ [newline] := by
      simp
    rw [hsplit]
    simp
  | other hbreak hne => simp [hbreak, hne]

theorem cutLine_append (body ending : Str) (hb : ∀ c ∈ body, isLineBreak c = false)
    (he : Ending ending) : cutLine (body ++ ending) = ⟨body, ending⟩ := by
  rw [cutLine, lineBody_append hb he, List.drop_left]

theorem splitLines_wellEnded (t : Str) : WellEnded (linesOf t) ∧ (linesOf t).map Line.text = splitLines t := by
  unfold linesOf
  induction t with
  | nil => exact ⟨trivial, rfl⟩
  | cons c cs ih =>
    obtain ⟨hended, htext⟩ := ih
    rw [splitLines]
    split
    · next hbreak =>
      rw [Bool.and_eq_true] at hbreak
      have hend : Ending [c] := by
        by_cases hc : c = newline
        · rw [hc]
          exact Ending.newline
        · exact Ending.other hbreak.1 hc
      have hcut : cutLine [c] = ⟨[], [c]⟩ :=
        cutLine_append [] _ (fun d hd => absurd hd List.not_mem_nil) hend
      rw [List.map_cons, hcut]
      exact ⟨⟨fun d hd => absurd hd List.not_mem_nil, hend, by rintro ⟨⟩,
        by rintro ⟨⟩, hended⟩, congrArg (List.cons [c]) htext⟩
    · next hkeep =>
      cases hc : isLineBreak c with
      | false =>
        split
        · next hs =>
          have hcut : cutLine [c] = ⟨[c], []⟩ :=
            cutLine_append [c] _ (fun d hd => by rw [List.mem_singleton.mp hd, hc])
              Ending.none
          rw [List.map_singleton, hcut]
          exact ⟨⟨fun d hd => by rw [List.mem_singleton.mp hd, hc], Ending.none, fun _ => rfl,
            by rintro ⟨⟩, trivial⟩, rfl⟩
        · next l ls hs =>
          rw [hs, List.map_cons] at hended htext
          obtain ⟨hbody, hending, hlast, hne, hrest⟩ := hended
          obtain ⟨hl, hls⟩ := List.cons.inj htext
          have hbody' : ∀ d ∈ c :: (cutLine l).body, isLineBreak d = false := by
            intro d hd
            cases List.mem_cons.mp hd with
            | inl h => rw [h, hc]
            | inr h => exact hbody d h
          have hcut : cutLine (c :: l) = ⟨c :: (cutLine l).body, (cutLine l).ending⟩ := by
            have happ := cutLine_append _ _ hbody' hending
            rwa [List.cons_append, ← Line.text, hl] at happ
          rw [List.map_cons, hcut]
          refine ⟨⟨hbody', hending, hlast, by rintro ⟨⟩, hrest⟩, ?_⟩
          rw [List.map_cons, hls]
          exact congrArg (fun u => u :: ls) (congrArg (List.cons c) hl)
      | true =>
        rw [hc, Bool.true_and, Bool.not_eq_true', Bool.not_eq_false, Bool.and_eq_true, beq_iff_eq,
          beq_iff_eq] at hkeep
        obtain ⟨rfl, hhead⟩ := hkeep
        obtain ⟨cs', rfl⟩ : ∃ cs', cs = newline :: cs' := by
          cases cs with
          | nil => cases hhead
          | cons d ds =>
            rw [List.head?_cons, Option.some.injEq] at hhead
            exact ⟨ds, by rw [hhead]⟩
        have hs : splitLines (newline :: cs') = [newline] :: splitLines cs' := by
          rw [splitLines, if_pos]
          rw [isLineBreak_newline, Bool.true_and, Bool.not_eq_true', Bool.and_eq_false_iff]
          exact .inl (by decide)
        rw [hs]
        rw [hs, List.map_cons] at hended htext
        obtain ⟨_, _, _, _, hrest⟩ := hended
        have hcut : cutLine [carriageReturn, newline] = ⟨[], [carriageReturn, newline]⟩ :=
          cutLine_append [] _ (fun d hd => absurd hd List.not_mem_nil) Ending.carriage
        rw [List.map_cons, hcut]
        exact ⟨⟨fun d hd => absurd hd List.not_mem_nil, Ending.carriage, by rintro ⟨⟩,
          by rintro ⟨⟩, hrest⟩,
          congrArg (List.cons [carriageReturn, newline]) (List.cons.inj htext).2⟩

def spread (lines : List Str) (blocks : List Nat) : List Nat :=
  (List.zipWith (fun line k => List.replicate line.length k) lines blocks).flatten

@[simp] theorem spread_cons {line : Str} {lines : List Str} {k : Nat} {blocks : List Nat} :
    spread (line :: lines) (k :: blocks) = List.replicate line.length k ++ spread lines blocks := rfl

theorem spread_inj {lines : List Str} (hne : ∀ line ∈ lines, line ≠ []) {ks js : List Nat}
    (hk : ks.length = lines.length) (hj : js.length = lines.length)
    (h : spread lines ks = spread lines js) : ks = js := by
  induction lines generalizing ks js with
  | nil => rw [List.length_eq_zero_iff.mp hk, List.length_eq_zero_iff.mp hj]
  | cons line lines ih =>
    obtain ⟨k, ks, rfl⟩ := List.exists_cons_of_length_eq_add_one hk
    obtain ⟨j, js, rfl⟩ := List.exists_cons_of_length_eq_add_one hj
    rw [spread_cons, spread_cons] at h
    obtain ⟨hfirst, hrest⟩ := List.append_inj h (by simp)
    have hpos : line.length ≠ 0 := fun hz =>
      hne line List.mem_cons_self (List.length_eq_zero_iff.mp hz)
    rw [List.replicate_right_inj hpos] at hfirst
    rw [hfirst, ih (fun l hl => hne l (List.mem_cons_of_mem _ hl)) (by simpa using hk)
      (by simpa using hj) hrest]

variable (lines : List Str) (opened : Option Str)

theorem fenceScan_length (n : Nat) : (fenceScan lines opened n).length = lines.length := by
  induction lines generalizing opened n with
  | nil => rfl
  | cons line lines ih =>
    cases opened with
    | none =>
      rw [fenceScan]
      split
      · rw [List.length_cons, ih, List.length_cons]
      · rw [List.length_cons, ih, List.length_cons]
    | some opening => rw [fenceScan, List.length_cons, ih, List.length_cons]

theorem bodyScan_length (inTable : Bool) (n : Nat) :
    (bodyScan lines opened inTable n).length = lines.length := by
  induction lines generalizing opened inTable n with
  | nil => rfl
  | cons line lines ih =>
    cases opened with
    | some opening => rw [bodyScan, List.length_cons, ih, List.length_cons]
    | none =>
      cases inTable with
      | true => rw [bodyScan, List.length_cons, ih, List.length_cons]
      | false =>
        rw [bodyScan]
        split
        · rw [List.length_cons, ih, List.length_cons]
        · rw [List.length_cons, ih, List.length_cons]

def following : Line → List Line → Str
  | l, [] => if newline ∈ l.ending then l.ending.dropLast else l.ending
  | l, k :: ls =>
    if newline ∈ l.ending then l.ending.dropLast else l.ending ++ (k.body ++ following k ls)

def physical : List Line → Str
  | [] => []
  | l :: ls => l.body ++ following l ls

theorem following_eq (l : Line) (ls : List Line) : following l ls =
      if newline ∈ l.ending then l.ending.dropLast else l.ending ++ physical ls := by
  cases ls with
  | nil => simp [following, physical]
  | cons k ls => rfl

/-- What a scanner of whole lines makes of a line, and what it goes on with. -/
def decision (line : Str) (opened : Option Str) (n : Nat) : Nat × Option Str × Nat :=
  match opened with
  | none =>
    match fenceMarker line with
    | some marker => (n + 1, some marker, n + 1)
    | none => (0, none, n)
  | some opening => (n, if closesFence line opening then none else some opening, n)

theorem fenceScan_cons (line : Str) (lines : List Str) (opened : Option Str) (n : Nat) :
    fenceScan (line :: lines) opened n = (decision line opened n).1 ::
      fenceScan lines (decision line opened n).2.1 (decision line opened n).2.2 := by
  cases opened with
  | none =>
    rw [fenceScan, decision]
    cases fenceMarker line with
    | none => rfl
    | some marker => rfl
  | some opening => rw [fenceScan, decision]

/-- The scan of whole lines, told for each shorter line; `block` is that of this line. -/
def lookScan : List Line → Option Nat → Option Str → Nat → List Nat
  | [], _, _, _ => []
  | l :: ls, some k, opened, n =>
    k :: lookScan ls (if newline ∈ l.ending then none else some k) opened n
  | l :: ls, none, opened, n =>
    let d := decision (physical (l :: ls)) opened n
    d.1 :: lookScan ls (if newline ∈ l.ending then none else some d.1) d.2.1 d.2.2

theorem lookScan_start (ls : List Line) (opened : Option Str) (n : Nat) :
    lookScan ls none opened n = lookScan ls (some (decision (physical ls) opened n).1)
      (decision (physical ls) opened n).2.1 (decision (physical ls) opened n).2.2 := by
  cases ls with
  | nil => rfl
  | cons l ls => rfl

theorem lookScan_length (ls : List Line) (block : Option Nat) (opened : Option Str) (n : Nat) :
    (lookScan ls block opened n).length = ls.length := by
  induction ls generalizing block opened n with
  | nil => rfl
  | cons l ls ih =>
    cases block with
    | none => rw [lookScan, List.length_cons, ih, List.length_cons]
    | some k => rw [lookScan, List.length_cons, ih, List.length_cons]

theorem splitNewline_ne_nil (t : Str) : splitNewline t ≠ [] := by
  cases t with
  | nil => exact List.cons_ne_nil _ _
  | cons c cs =>
    rw [splitNewline]
    split
    · exact List.cons_ne_nil _ _
    split
    · exact List.cons_ne_nil _ _
    · exact List.cons_ne_nil _ _

theorem splitNewline_append {u : Str} (hu : newline ∉ u) {t p : Str} {ps : List Str}
    (ht : splitNewline t = p :: ps) : splitNewline (u ++ t) = (u ++ p) :: ps := by
  induction u with
  | nil => exact ht
  | cons c cs ih =>
    have hc : c ≠ newline := fun h => hu (h ▸ List.mem_cons_self)
    rw [List.cons_append, splitNewline, if_neg hc, ih fun h => hu (List.mem_cons_of_mem _ h)]
    rfl

theorem splitNewline_line {u : Str} (hu : newline ∉ u) (t : Str) :
    splitNewline (u ++ newline :: t) = u :: splitNewline t := by
  have hnl : splitNewline (newline :: t) = [] :: splitNewline t := by
    rw [splitNewline, if_pos rfl]
  rw [splitNewline_append hu hnl, List.append_nil]

theorem ending_newline_last {e : Str} (h : Ending e) (hmem : newline ∈ e) :
    ∃ x, e = x ++ [newline] ∧ newline ∉ x := by
  cases h with
  | none => cases hmem
  | newline => exact ⟨[], rfl, List.not_mem_nil⟩
  | carriage =>
    refine ⟨[carriageReturn], rfl, fun h => ?_⟩
    exact absurd (List.mem_singleton.mp h) (by decide)
  | other _ hne => exact absurd (List.mem_singleton.mp hmem).symm hne

theorem newline_not_mem_body {l : Line} (h : ∀ c ∈ l.body, isLineBreak c = false) : newline ∉ l.body := by
  intro hmem
  have hbreak := h newline hmem
  rw [isLineBreak_newline] at hbreak
  cases hbreak

theorem spread_grow (u p : Str) (ps : List Str) (k : Nat) (ks : List Nat) :
    spread (withNewlines ((u ++ p) :: ps)) (k :: ks) =
      List.replicate u.length k ++ spread (withNewlines (p :: ps)) (k :: ks) := by
  cases ps with
  | nil =>
    rw [withNewlines, withNewlines, spread_cons, spread_cons, List.length_append,
      ← List.replicate_append_replicate, List.append_assoc]
  | cons q qs =>
    rw [withNewlines, withNewlines, spread_cons, spread_cons, List.append_assoc, List.length_append,
      ← List.replicate_append_replicate, List.append_assoc]

theorem spread_turn {p : Str} {ps : List Str} (hps : ps ≠ []) (k : Nat) (ks : List Nat) :
    spread (withNewlines (p :: ps)) (k :: ks) =
      List.replicate (p.length + 1) k ++ spread (withNewlines ps) ks := by
  obtain ⟨q, qs, rfl⟩ := List.exists_cons_of_ne_nil hps
  rw [withNewlines, spread_cons, List.length_append, List.length_singleton]

theorem splitNewline_lines (ls : List Line) (h : WellEnded ls) :
    ∃ ps, splitNewline (ls.map Line.text).flatten = physical ls :: ps ∧
      ∀ k opened n, spread (withNewlines (physical ls :: ps)) (k :: fenceScan ps opened n) =
        spread (ls.map Line.text) (lookScan ls (some k) opened n) := by
  induction ls with
  | nil => exact ⟨[], rfl, fun _ _ _ => rfl⟩
  | cons l ls ih =>
    obtain ⟨hbody, hending, _, _, hrest⟩ := h
    obtain ⟨ps, hps, hspread⟩ := ih hrest
    have hnl := newline_not_mem_body hbody
    rw [List.map_cons, List.flatten_cons]
    by_cases hmem : newline ∈ l.ending
    · obtain ⟨x, hx, hxnl⟩ := ending_newline_last hending hmem
      have hu : newline ∉ l.body ++ x := by
        rw [List.mem_append]
        exact fun hm => hm.elim hnl hxnl
      have hfollow : physical (l :: ls) = l.body ++ x := by
        rw [physical, following_eq, if_pos hmem, hx, List.dropLast_concat]
      have htext : l.text ++ (ls.map Line.text).flatten =
          (l.body ++ x) ++ newline :: (ls.map Line.text).flatten := by
        rw [Line.text, hx]
        simp
      have hlen : (l.body ++ x).length + 1 = l.text.length := by
        rw [Line.text, hx]
        simp [Nat.add_assoc]
      rw [htext, splitNewline_line hu, hfollow]
      refine ⟨_, rfl, fun k opened n => ?_⟩
      rw [spread_turn (splitNewline_ne_nil _), lookScan, if_pos hmem, spread_cons, hlen, hps,
        fenceScan_cons, hspread, ← lookScan_start]
    · have hu : newline ∉ l.text := by
        rw [Line.text, List.mem_append]
        exact fun hm => hm.elim hnl hmem
      have hfollow : physical (l :: ls) = l.text ++ physical ls := by
        rw [physical, following_eq, if_neg hmem, Line.text, List.append_assoc]
      rw [splitNewline_append hu hps, hfollow]
      refine ⟨ps, rfl, fun k opened n => ?_⟩
      rw [spread_grow, hspread, lookScan, if_neg hmem, spread_cons]

/-- What comes before a line since the last newline. -/
inductive Lead where
  | nothing
  | blank
  | text
  deriving DecidableEq

def Lead.after (lead : Lead) (l : Line) : Lead :=
  if newline ∈ l.ending then .nothing
  else if lead ≠ .text ∧ l.body.all isSpace then .blank
  else .text

/-- Fences are on lines of their own, as both scanners see lines. -/
def FencesAlone : List Line → Option Str → Lead → Prop
  | [], _, _ => True
  | l :: ls, none, lead =>
    match fenceMarker l.body with
    | none => FencesAlone ls none (lead.after l)
    | some marker =>
      (lead = .nothing ∧ backtick ∉ following l ls) ∧ FencesAlone ls (some marker) (lead.after l)
  | l :: ls, some opening, lead =>
    if closesFence l.body opening then
      (ls = [] ∨ lead ≠ .text ∧ l.ending = [newline]) ∧ FencesAlone ls none (lead.after l)
    else FencesAlone ls (some opening) (lead.after l)

variable {l : Line} {ls : List Line}

theorem physical_newline (h : WellEnded ls) : newline ∉ physical ls := by
  induction ls with
  | nil => exact List.not_mem_nil
  | cons l ls ih =>
    obtain ⟨hbody, hending, _, _, hrest⟩ := h
    rw [physical, following_eq, List.mem_append]
    refine fun hmem => hmem.elim (newline_not_mem_body hbody) fun hmem => ?_
    split at hmem
    · next hnl =>
      obtain ⟨x, hx, hxnl⟩ := ending_newline_last hending hnl
      rw [hx, List.dropLast_concat] at hmem
      exact hxnl hmem
    · next hnl => exact (List.mem_append.mp hmem).elim hnl (ih hrest)

theorem following_follows (h : WellEnded (l :: ls)) : Follows (following l ls) := by
  have hnl := physical_newline h
  rw [physical, List.mem_append, not_or] at hnl
  refine ⟨hnl.2, fun d hd => ?_⟩
  obtain ⟨_, hending, hlast, _, _⟩ := h
  rw [following_eq] at hd
  generalize hend : l.ending = ending at hending hlast hd
  cases hending with
  | none =>
    rw [hlast rfl] at hd
    simp [physical] at hd
  | newline => simp at hd
  | carriage =>
    simp at hd
    rw [← hd]
    exact isLineBreak_carriageReturn
  | other hbreak hne =>
    rw [if_neg (fun hmem => hne (List.mem_singleton.mp hmem).symm)] at hd
    cases hd
    exact hbreak

theorem following_eq_nil_iff (h : WellEnded (l :: ls)) :
    following l ls = [] ↔ l.ending = [newline] ∨ l.ending = [] ∧ ls = [] := by
  obtain ⟨_, hending, hlast, _, _⟩ := h
  rw [following_eq]
  generalize l.ending = ending at hending hlast
  cases hending with
  | none => simp [hlast rfl, physical]
  | newline => simp
  | carriage => simp [carriageReturn, newline, cp]
  | other hbreak hne =>
    rw [if_neg (fun hmem => hne (List.mem_singleton.mp hmem).symm)]
    simp [hne]

theorem ending_blank {ending : Str} (h : Ending ending) : ∀ c ∈ ending, isSpace c = true := by
  intro c hc
  apply isSpace_of_isLineBreak
  cases h with
  | none => cases hc
  | newline => rw [List.mem_singleton.mp hc, isLineBreak_newline]
  | carriage =>
    cases List.mem_cons.mp hc with
    | inl hc => rw [hc, isLineBreak_carriageReturn]
    | inr hc => rw [List.mem_singleton.mp hc, isLineBreak_newline]
  | other hbreak _ => rw [List.mem_singleton.mp hc, hbreak]

theorem physical_blank (h : WellEnded (l :: ls)) (hblank : ∀ c ∈ l.body, isSpace c = true) :
    fenceStart (physical (l :: ls)) =
      if newline ∈ l.ending then none else fenceStart (physical ls) := by
  have hend := ending_blank h.2.1
  rw [physical, fenceStart_skip hblank, following_eq]
  split
  · exact fenceStart_blank fun c hc => hend c (List.dropLast_subset _ hc)
  · exact fenceStart_skip hend _

theorem fenceMarker_physical (h : WellEnded (l :: ls)) (hline : ¬∀ c ∈ l.body, isSpace c = true) :
    fenceMarker (physical (l :: ls)) =
      if backtick ∈ following l ls then none else fenceMarker l.body :=
  fenceMarker_append hline (newline_not_mem_body h.1) (following_follows h)

theorem closesFence_physical (h : WellEnded (l :: ls)) (hline : ¬∀ c ∈ l.body, isSpace c = true)
    (opening : Str) : closesFence (physical (l :: ls)) opening =
      (closesFence l.body opening && (following l ls).isEmpty) :=
  closesFence_append hline (newline_not_mem_body h.1) (following_follows h) opening

theorem not_blank_of_marker {b marker : Str} (h : fenceMarker b = some marker) :
    ¬∀ c ∈ b, isSpace c = true := by
  intro hblank
  rw [fenceMarker, fenceStart_blank hblank] at h
  cases h

theorem not_blank_of_closes {b opening : Str} (h : closesFence b opening = true) :
    ¬∀ c ∈ b, isSpace c = true := by
  intro hblank
  rw [closesFence, fenceStart_blank hblank] at h
  cases h

variable {lead : Lead}

theorem after_of_newline (h : newline ∈ l.ending) : lead.after l = .nothing := by
  rw [Lead.after, if_pos h]

variable (h : newline ∉ l.ending)

include h

theorem after_ne_nothing : lead.after l ≠ .nothing := by
  rw [Lead.after, if_neg h]
  split
  · exact Lead.noConfusion
  · exact Lead.noConfusion

theorem after_text : Lead.text.after l = .text := by
  rw [Lead.after, if_neg h, if_neg fun hb => hb.1 rfl]

theorem after_line (hline : ¬∀ c ∈ l.body, isSpace c = true) : lead.after l = .text := by
  rw [Lead.after, if_neg h, if_neg]
  exact fun hb => hline (List.all_eq_true.mp hb.2)

theorem after_blank (hlead : lead ≠ .text)
    (hblank : ∀ c ∈ l.body, isSpace c = true) : lead.after l = .blank := by
  rw [Lead.after, if_neg h, if_pos ⟨hlead, List.all_eq_true.mpr hblank⟩]

omit h

/-- How far the two scanners are with a line, when they have agreed so far. -/
inductive InLine (ls : List Line) : Lead → Option Nat → Option Str → Option Str → Nat → Prop where
  | start {opened n} : InLine ls .nothing none opened opened n
  | prose {lead n} : (lead = .nothing → fenceMarker (physical ls) = none) →
      InLine ls lead (some 0) none none n
  | code {opening n} : InLine ls .text (some n) (some opening) (some opening) n
  | inside {lead opening n} : lead ≠ .text → closesFence (physical ls) opening = false →
      InLine ls lead (some n) (some opening) (some opening) n
  | closing {lead opening n} : lead ≠ .text → closesFence (physical ls) opening = true →
      InLine ls lead (some n) (some opening) none n

def Same (ls : List Line) (lead : Lead) (block : Option Nat) (opened looked : Option Str) (n : Nat) :
    Prop :=
  fenceScan (ls.map Line.body) opened n = lookScan ls block looked n ↔ FencesAlone ls opened lead

variable {n : Nat} {opening : Str}

theorem scans_differ (hn : 0 < n) (hls : ls ≠ []) {block : Option Nat} (hb : block = none ∨ block = some n) :
    fenceScan (ls.map Line.body) none n ≠ lookScan ls block (some opening) n := by
  obtain ⟨l, ls, rfl⟩ := List.exists_cons_of_ne_nil hls
  have hlook : (lookScan (l :: ls) block (some opening) n).head? = some n := by
    cases hb with
    | inl hb =>
      rw [hb, lookScan]
      rfl
    | inr hb =>
      rw [hb, lookScan]
      rfl
  have hscan : (fenceScan ((l :: ls).map Line.body) none n).head? ≠ some n := by
    rw [List.map_cons, fenceScan_cons, decision]
    cases fenceMarker l.body with
    | none => simpa using Nat.ne_of_lt hn
    | some marker => simp
  intro heq
  rw [heq] at hscan
  exact hscan hlook

theorem not_alone_of_marker {marker : Str} (h : WellEnded ls)
    (hm : fenceMarker (physical ls) = some marker) : ¬FencesAlone ls none .blank := by
  induction ls with
  | nil => cases hm
  | cons l ls ih =>
    by_cases hblank : ∀ c ∈ l.body, isSpace c = true
    · have hbody : fenceMarker l.body = none := by rw [fenceMarker, fenceStart_blank hblank]; rfl
      rw [fenceMarker, physical_blank h hblank] at hm
      rw [FencesAlone, hbody]
      split at hm
      · cases hm
      · next hnl =>
        change ¬FencesAlone ls none (Lead.blank.after l)
        rw [after_blank hnl Lead.noConfusion hblank]
        exact ih h.2.2.2.2 hm
    · rw [fenceMarker_physical h hblank] at hm
      split at hm
      · cases hm
      · rw [FencesAlone, hm]
        exact fun hfalse => absurd hfalse.1.1 (by decide)

/-- The lines after this one, wherever the scanners are in theirs. -/
def SameAfter (ls : List Line) : Prop :=
  ∀ lead block opened looked n, InLine ls lead block opened looked n →
    (opened = none ∨ 0 < n) → Same ls lead block opened looked n

theorem same_prose (h : WellEnded (l :: ls)) (ih : SameAfter ls)
    (hlead : lead = .nothing → fenceMarker (physical (l :: ls)) = none) :
    Same (l :: ls) lead (some 0) none none n := by
  unfold Same
  rw [List.map_cons, fenceScan, lookScan, FencesAlone]
  cases hm : fenceMarker l.body with
  | some marker =>
    have hfalse : ¬(lead = .nothing ∧ backtick ∉ following l ls) := by
      rintro ⟨hnothing, hbacktick⟩
      have hnone := hlead hnothing
      rw [fenceMarker_physical h (not_blank_of_marker hm), if_neg hbacktick, hm] at hnone
      cases hnone
    simp [hfalse]
  | none =>
    simp only [List.cons.injEq, true_and]
    by_cases hnl : newline ∈ l.ending
    · rw [if_pos hnl, after_of_newline hnl]
      exact ih _ _ _ _ _ InLine.start (.inl rfl)
    · rw [if_neg hnl]
      exact ih _ _ _ _ _ (InLine.prose fun hnothing => absurd hnothing (after_ne_nothing hnl))
        (.inl rfl)

theorem same_opener (h : WellEnded (l :: ls)) (ih : SameAfter ls) {marker : Str}
    (hm : fenceMarker (physical (l :: ls)) = some marker) : fenceScan ((l :: ls).map Line.body) none n =
      lookScan (l :: ls) (some (n + 1)) (some marker) (n + 1) ↔
        FencesAlone (l :: ls) none .nothing := by
  by_cases hblank : ∀ c ∈ l.body, isSpace c = true
  · have hbody : fenceMarker l.body = none := by
      rw [fenceMarker, fenceStart_blank hblank]
      rfl
    rw [fenceMarker, physical_blank h hblank] at hm
    split at hm
    · cases hm
    · next hnl =>
      have halone : ¬FencesAlone (l :: ls) none .nothing := by
        rw [FencesAlone, hbody]
        change ¬FencesAlone ls none (Lead.nothing.after l)
        rw [after_blank hnl Lead.noConfusion hblank]
        exact not_alone_of_marker h.2.2.2.2 hm
      refine iff_of_false (fun heq => ?_) halone
      rw [List.map_cons, fenceScan, hbody, lookScan] at heq
      cases (List.cons.inj heq).1
  · rw [fenceMarker_physical h hblank] at hm
    split at hm
    · cases hm
    · next hbacktick =>
      rw [List.map_cons, fenceScan, lookScan, FencesAlone, hm]
      simp only [List.cons.injEq, true_and, hbacktick, not_false_eq_true]
      by_cases hnl : newline ∈ l.ending
      · rw [if_pos hnl, after_of_newline hnl]
        exact ih _ _ _ _ _ InLine.start (.inr (Nat.succ_pos n))
      · rw [if_neg hnl, after_line hnl hblank]
        exact ih _ _ _ _ _ InLine.code (.inr (Nat.succ_pos n))

theorem same_code (ih : SameAfter ls) (hn : 0 < n) :
    Same (l :: ls) .text (some n) (some opening) (some opening) n := by
  unfold Same
  rw [List.map_cons, fenceScan, lookScan, FencesAlone]
  simp only [List.cons.injEq, true_and]
  cases closesFence l.body opening with
  | true =>
    rw [if_pos rfl, if_pos rfl]
    by_cases hls : ls = []
    · rw [hls]
      exact ⟨fun _ => ⟨.inl rfl, trivial⟩, fun _ => rfl⟩
    · refine iff_of_false (scans_differ hn hls ?_) fun hfalse => ?_
      · split
        · exact .inl rfl
        · exact .inr rfl
      · exact hfalse.1.elim hls fun htext => htext.1 rfl
  | false =>
    rw [if_neg Bool.false_ne_true, if_neg Bool.false_ne_true]
    by_cases hnl : newline ∈ l.ending
    · rw [if_pos hnl, after_of_newline hnl]
      exact ih _ _ _ _ _ InLine.start (.inr hn)
    · rw [if_neg hnl, after_text hnl]
      exact ih _ _ _ _ _ InLine.code (.inr hn)

theorem same_inside (h : WellEnded (l :: ls)) (ih : SameAfter ls) (hn : 0 < n)
    (hlead : lead ≠ .text) (hopen : closesFence (physical (l :: ls)) opening = false) :
    Same (l :: ls) lead (some n) (some opening) (some opening) n := by
  unfold Same
  rw [List.map_cons, fenceScan, lookScan, FencesAlone]
  simp only [List.cons.injEq, true_and]
  cases hc : closesFence l.body opening with
  | true =>
    rw [if_pos rfl, if_pos rfl]
    by_cases hls : ls = []
    · rw [hls]
      exact ⟨fun _ => ⟨.inl rfl, trivial⟩, fun _ => rfl⟩
    · refine iff_of_false (scans_differ hn hls ?_) fun hfalse => ?_
      · split
        · exact .inl rfl
        · exact .inr rfl
      · rw [closesFence_physical h (not_blank_of_closes hc), hc, Bool.true_and,
          List.isEmpty_eq_false_iff] at hopen
        exact hfalse.1.elim hls fun hend => hopen ((following_eq_nil_iff h).mpr (.inl hend.2))
  | false =>
    rw [if_neg Bool.false_ne_true, if_neg Bool.false_ne_true]
    by_cases hnl : newline ∈ l.ending
    · rw [if_pos hnl, after_of_newline hnl]
      exact ih _ _ _ _ _ InLine.start (.inr hn)
    · rw [if_neg hnl]
      by_cases hblank : ∀ c ∈ l.body, isSpace c = true
      · rw [after_blank hnl hlead hblank]
        refine ih _ _ _ _ _ (InLine.inside Lead.noConfusion ?_) (.inr hn)
        rw [closesFence, physical_blank h hblank, if_neg hnl] at hopen
        exact hopen
      · rw [after_line hnl hblank]
        exact ih _ _ _ _ _ InLine.code (.inr hn)

theorem same_closing (h : WellEnded (l :: ls)) (ih : SameAfter ls) (hn : 0 < n)
    (hlead : lead ≠ .text) (hclose : closesFence (physical (l :: ls)) opening = true) :
    Same (l :: ls) lead (some n) (some opening) none n := by
  unfold Same
  rw [List.map_cons, fenceScan, lookScan, FencesAlone]
  simp only [List.cons.injEq, true_and]
  by_cases hblank : ∀ c ∈ l.body, isSpace c = true
  · have hbody : closesFence l.body opening = false := by
      rw [closesFence, fenceStart_blank hblank]
    rw [closesFence, physical_blank h hblank] at hclose
    rw [hbody, if_neg Bool.false_ne_true, if_neg Bool.false_ne_true]
    by_cases hnl : newline ∈ l.ending
    · rw [if_pos hnl] at hclose
      cases hclose
    · rw [if_neg hnl] at hclose ⊢
      rw [after_blank hnl hlead hblank]
      exact ih _ _ _ _ _ (InLine.closing Lead.noConfusion hclose) (.inr hn)
  · rw [closesFence_physical h hblank, Bool.and_eq_true, List.isEmpty_iff, following_eq_nil_iff h] at hclose
    rw [hclose.1, if_pos rfl, if_pos rfl]
    cases hclose.2 with
    | inl hend =>
      have hnl : newline ∈ l.ending := by
        rw [hend]
        exact List.mem_cons_self
      rw [if_pos hnl, after_of_newline hnl, and_iff_right (.inr ⟨hlead, hend⟩)]
      exact ih _ _ _ _ _ InLine.start (.inl rfl)
    | inr hend =>
      rw [hend.2]
      exact ⟨fun _ => ⟨.inl rfl, trivial⟩, fun _ => rfl⟩

theorem sameAfter (ls : List Line) (h : WellEnded ls) : SameAfter ls := by
  induction ls with
  | nil =>
    intro lead block opened looked n _ _
    exact ⟨fun _ => trivial, fun _ => rfl⟩
  | cons l ls ih =>
    have ih := ih h.2.2.2.2
    intro lead block opened looked n hin hn
    cases hin with
    | prose hlead => exact same_prose h ih hlead
    | code => exact same_code ih (hn.resolve_left (Option.some_ne_none _))
    | inside hlead hopen => exact same_inside h ih (hn.resolve_left (Option.some_ne_none _)) hlead hopen
    | closing hlead hclose =>
      exact same_closing h ih (hn.resolve_left (Option.some_ne_none _)) hlead hclose
    | start =>
      cases opened with
      | none =>
        unfold Same
        rw [lookScan_start, decision]
        cases hm : fenceMarker (physical (l :: ls)) with
        | none => exact same_prose h ih fun _ => hm
        | some marker => exact same_opener h ih hm
      | some opening =>
        have hpos := hn.resolve_left (Option.some_ne_none _)
        unfold Same
        rw [lookScan_start, decision]
        cases hc : closesFence (physical (l :: ls)) opening with
        | false => exact same_inside h ih hpos Lead.noConfusion hc
        | true => exact same_closing h ih hpos Lead.noConfusion hc

theorem follows_single {c : CodePoint} (hbreak : isLineBreak c = true) (hne : c ≠ newline) : Follows [c] :=
  ⟨fun hm => hne (List.mem_singleton.mp hm).symm, fun d hd => by cases hd; exact hbreak⟩

theorem not_backtick {c : CodePoint} (hbreak : isLineBreak c = true) : backtick ∉ [c] := by
  intro hm
  rw [← List.mem_singleton.mp hm] at hbreak
  exact absurd hbreak (by decide)

theorem fenceMarker_text (h : WellEnded (l :: ls)) : fenceMarker l.text = fenceMarker l.body := by
  obtain ⟨hbody, hending, _, _, _⟩ := h
  have hnl := newline_not_mem_body hbody
  rw [Line.text]
  by_cases hblank : ∀ c ∈ l.body, isSpace c = true
  · have hend : fenceStart l.ending = none := fenceStart_blank (ending_blank hending)
    rw [fenceMarker, fenceStart_skip hblank, hend, fenceMarker, fenceStart_blank hblank]
  · generalize l.ending = ending at hending
    cases hending with
    | none => rw [List.append_nil]
    | newline => rw [fenceMarker, fenceStart_newline hnl, fenceMarker]
    | carriage =>
      have hsplit : l.body ++ [carriageReturn, newline] = (l.body ++ [carriageReturn]) ++ [newline] := by
        simp
      have hcr : newline ∉ l.body ++ [carriageReturn] := by
        rw [List.mem_append, not_or]
        exact ⟨hnl, by decide⟩
      rw [hsplit, fenceMarker, fenceStart_newline hcr, ← fenceMarker,
        fenceMarker_append hblank hnl (follows_single isLineBreak_carriageReturn (by decide)),
        if_neg (not_backtick isLineBreak_carriageReturn)]
    | other hbreak hne =>
      rw [fenceMarker_append hblank hnl (follows_single hbreak hne), if_neg (not_backtick hbreak)]

theorem closesFence_text (h : WellEnded (l :: ls)) (opening : Str) : closesFence l.text opening =
      (closesFence l.body opening && decide (l.ending = [] ∨ l.ending = [newline])) := by
  obtain ⟨hbody, hending, _, _, _⟩ := h
  have hnl := newline_not_mem_body hbody
  rw [Line.text]
  by_cases hblank : ∀ c ∈ l.body, isSpace c = true
  · have hend : fenceStart l.ending = none := fenceStart_blank (ending_blank hending)
    rw [closesFence, fenceStart_skip hblank, hend, closesFence, fenceStart_blank hblank]
    rfl
  · generalize l.ending = ending at hending
    cases hending with
    | none => rw [List.append_nil, decide_eq_true (.inl rfl), Bool.and_true]
    | newline =>
      rw [closesFence, fenceStart_newline hnl, decide_eq_true (.inr rfl), Bool.and_true, closesFence]
    | carriage =>
      have hsplit : l.body ++ [carriageReturn, newline] = (l.body ++ [carriageReturn]) ++ [newline] := by
        simp
      have hcr : newline ∉ l.body ++ [carriageReturn] := by
        rw [List.mem_append, not_or]
        exact ⟨hnl, by decide⟩
      rw [hsplit, closesFence, fenceStart_newline hcr, ← closesFence,
        closesFence_append hblank hnl (follows_single isLineBreak_carriageReturn (by decide))]
      rfl
    | other hbreak hne =>
      rw [closesFence_append hblank hnl (follows_single hbreak hne)]
      simp [hne]

theorem sections_same (h : WellEnded ls) (opened : Option Str) (lead : Lead) (n : Nat)
    (halone : FencesAlone ls opened lead) :
    fenceScan (ls.map Line.text) opened n = fenceScan (ls.map Line.body) opened n := by
  induction ls generalizing opened lead n with
  | nil => rfl
  | cons l ls ih =>
    have ih := ih h.2.2.2.2
    rw [List.map_cons, List.map_cons]
    cases opened with
    | none =>
      rw [fenceScan, fenceScan, fenceMarker_text h]
      rw [FencesAlone] at halone
      cases hm : fenceMarker l.body with
      | none =>
        rw [hm] at halone
        exact congrArg (List.cons 0) (ih none _ n halone)
      | some marker =>
        rw [hm] at halone
        exact congrArg (List.cons (n + 1)) (ih (some marker) _ (n + 1) halone.2)
    | some opening =>
      rw [fenceScan, fenceScan, closesFence_text h]
      rw [FencesAlone] at halone
      cases hc : closesFence l.body opening with
      | false =>
        rw [hc, if_neg Bool.false_ne_true] at halone
        rw [Bool.false_and, if_neg Bool.false_ne_true]
        exact congrArg (List.cons n) (ih (some opening) _ n halone)
      | true =>
        rw [hc, if_pos rfl] at halone
        cases halone.1 with
        | inl hls =>
          rw [hls]
          rfl
        | inr hend =>
          rw [Bool.true_and, decide_eq_true (.inr hend.2), if_pos rfl]
          exact congrArg (List.cons n) (ih none _ n halone.2)

/-- No line that would open a block is between the corners of a table. -/
def TablesApart : List Str → Option Str → Bool → Prop
  | [], _, _ => True
  | line :: lines, some opening, _ =>
    TablesApart lines (if closesFence line opening then none else some opening) false
  | line :: lines, none, true =>
    fenceMarker line = none ∧ TablesApart lines none (!startsWith (stripLineEnd line) bottomCorner)
  | line :: lines, none, false =>
    match fenceMarker line with
    | some marker => TablesApart lines (some marker) false
    | none => TablesApart lines none (startsWith (stripLineEnd line) topCorner)

theorem body_same (inTable : Bool) (n : Nat) : bodyScan lines opened inTable n = fenceScan lines opened n ↔
      TablesApart lines opened inTable := by
  induction lines generalizing opened inTable n with
  | nil => exact ⟨fun _ => trivial, fun _ => rfl⟩
  | cons line lines ih =>
    cases opened with
    | some opening =>
      rw [bodyScan, fenceScan, TablesApart, ← ih _ false n, List.cons.injEq, and_iff_right rfl]
    | none =>
      cases inTable with
      | true =>
        rw [bodyScan, fenceScan, TablesApart]
        cases fenceMarker line with
        | none => simp [ih]
        | some marker => simp
      | false =>
        rw [bodyScan, fenceScan, TablesApart]
        cases fenceMarker line with
        | none => simp [ih]
        | some marker => simp [ih]

/-- The block that `_fenced_line_indices` finds each character in. -/
def indexBlocks (text : Str) : List Nat :=
  spread (splitLines text) (fenceScan ((splitLines text).map lineBody) none 0)

/-- That of `convert_markdown_tables`. -/
def conversionBlocks (text : Str) : List Nat :=
  spread (withNewlines (splitNewline text)) (fenceScan (splitNewline text) none 0)

/-- That of `_split_fenced_sections`. -/
def sectionBlocks (text : Str) : List Nat :=
  spread (splitLines text) (fenceScan (splitLines text) none 0)

/-- That of `_split_structured_body`. -/
def bodyBlocks (text : Str) : List Nat :=
  spread (splitLines text) (bodyScan (splitLines text) none false 0)

/-- The scanners agree on the code block that each character is in. -/
def Agree (text : Str) : Prop :=
  conversionBlocks text = indexBlocks text ∧ sectionBlocks text = indexBlocks text ∧
    bodyBlocks text = indexBlocks text

instance (text : Str) : Decidable (Agree text) := inferInstanceAs (Decidable (_ ∧ _))

theorem bodies_eq (text : Str) : (linesOf text).map Line.body = (splitLines text).map lineBody := by
  rw [linesOf, List.map_map]
  rfl

theorem conversionBlocks_eq (text : Str) :
    conversionBlocks text = spread (splitLines text) (lookScan (linesOf text) none none 0) := by
  obtain ⟨hended, htext⟩ := splitLines_wellEnded text
  obtain ⟨ps, hps, hspread⟩ := splitNewline_lines (linesOf text) hended
  rw [htext, splitLines_flatten] at hps
  rw [conversionBlocks, hps, fenceScan_cons, hspread, htext, ← lookScan_start]

/-- The scanners agree on a text exactly when its fences are alone on lines that
end at newlines, and apart from its tables. -/
theorem agree_iff (text : Str) : Agree text ↔ FencesAlone (linesOf text) none .nothing ∧
      TablesApart (splitLines text) none false := by
  obtain ⟨hended, htext⟩ := splitLines_wellEnded text
  have hne : ∀ line ∈ splitLines text, line ≠ [] := fun line => splitLines_ne_nil
  have hlook : lookScan (linesOf text) none none 0 =
      fenceScan ((splitLines text).map lineBody) none 0 ↔
        FencesAlone (linesOf text) none .nothing := by
    have hstart : InLine (linesOf text) .nothing none none none 0 := InLine.start
    have hsame := sameAfter (linesOf text) hended _ _ _ _ 0 hstart (.inl rfl)
    rw [Same, bodies_eq] at hsame
    exact eq_comm.trans hsame
  have hlength : (lookScan (linesOf text) none none 0).length = (splitLines text).length := by
    rw [lookScan_length, linesOf, List.length_map]
  have hbodies : (fenceScan ((splitLines text).map lineBody) none 0).length =
      (splitLines text).length := by
    rw [fenceScan_length, List.length_map]
  unfold Agree
  rw [conversionBlocks_eq]
  constructor
  · intro ⟨hconversion, hsections, hbody⟩
    refine ⟨hlook.mp (spread_inj hne hlength hbodies hconversion), ?_⟩
    apply (body_same _ none false 0).mp
    exact spread_inj hne (bodyScan_length _ _ _ _) (fenceScan_length _ _ _)
      (hbody.trans hsections.symm)
  · intro ⟨halone, hapart⟩
    have hsections := sections_same hended none .nothing 0 halone
    rw [htext, bodies_eq] at hsections
    refine ⟨?_, ?_, ?_⟩
    · rw [hlook.mpr halone, indexBlocks]
    · rw [sectionBlocks, hsections, indexBlocks]
    · rw [bodyBlocks, (body_same _ none false 0).mpr hapart, hsections, indexBlocks]

/-- With carriage returns the second fence closes the block for one scanner only. -/
theorem carriage_returns_disagree : ¬Agree (lit "```\r\na\r\n```\r\nb\r\n") := by
  decide +kernel

end Kirara.FenceAgreement
