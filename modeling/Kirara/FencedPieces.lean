import Mathlib.Data.List.Chain
import Kirara.CopyableCode

namespace Kirara.FencedPieces

open Kirara.CodePoints Kirara.Fences Kirara.StructuredText Kirara.FenceScanners
open Kirara.FenceAgreement Kirara.LineBodies Kirara.CopyableCode

def ticks : Str := lit "```"

/-- The lines left where runs of newlines are cut to two, after `k` newlines. -/
def squeeze : Nat → List Str → List Str
  | _, [] => []
  | k, l :: ls =>
    if l = [] then if 2 ≤ k then squeeze k ls else [] :: squeeze (k + 1) ls
    else l :: squeeze 1 ls

/-- A fence that is not the one of `ticks`. -/
def Foreign (line : Str) : Prop := ∃ marker, fenceMarker line = some marker ∧ marker ≠ ticks

instance (line : Str) : Decidable (Foreign line) :=
  match h : fenceMarker line with
  | none => .isFalse fun ⟨_, hm, _⟩ => Option.some_ne_none _ (hm.symm.trans h)
  | some marker =>
    if hne : marker = ticks then
      .isFalse fun ⟨_, hm, hn⟩ => hn ((Option.some.inj (hm.symm.trans h)).trans hne)
    else .isTrue ⟨marker, h, hne⟩

theorem squeeze_sublist (k : Nat) (ls : List Str) : (squeeze k ls).Sublist ls := by
  induction ls generalizing k with
  | nil => exact List.Sublist.refl []
  | cons l ls ih =>
    rw [squeeze]
    split
    · next hl =>
      split
      · exact (ih k).cons l
      · rw [hl]
        exact (ih (k + 1)).cons_cons []
    · exact (ih 1).cons_cons l

theorem mem_squeeze {k : Nat} {ls : List Str} {l : Str} (h : l ∈ ls) (hne : l ≠ []) : l ∈ squeeze k ls := by
  induction ls generalizing k with
  | nil => cases h
  | cons a ls ih =>
    rw [squeeze]
    cases List.mem_cons.mp h with
    | inl ha =>
      rw [← ha, if_neg hne]
      exact List.mem_cons_self
    | inr h =>
      split
      · split
        · exact ih h
        · exact List.mem_cons_of_mem _ (ih h)
      · exact List.mem_cons_of_mem _ (ih h)

theorem squeeze_length (k : Nat) (ls : List Str) : (squeeze k ls).length ≤ ls.length :=
  (squeeze_sublist k ls).length_le

def NoBlankRun (ls : List Str) : Prop := List.IsChain (fun a b => a ≠ [] ∨ b ≠ []) ls

instance (ls : List Str) : Decidable (NoBlankRun ls) := inferInstanceAs (Decidable (List.IsChain _ _))

theorem squeeze_of_noBlankRun {k : Nat} {ls : List Str} (hk : k = 1 ∨ k = 2 ∧ ls.head? ≠ some [])
    (h : NoBlankRun ls) : squeeze k ls = ls := by
  induction ls generalizing k with
  | nil => rfl
  | cons l ls ih =>
    have hrest : NoBlankRun ls := List.IsChain.tail h
    rw [squeeze]
    split
    · next hl =>
      have hone : k = 1 := hk.resolve_right fun hk => hk.2 (by rw [hl, List.head?_cons])
      have hhead : ls.head? ≠ some [] := by
        intro hnil
        have hchain := List.IsChain.rel_head? h hnil
        rw [hl] at hchain
        exact hchain.elim (fun h => h rfl) fun h => h rfl
      rw [hone, if_neg (by decide), ih (.inr ⟨rfl, hhead⟩) hrest, hl]
    · rw [ih (.inl rfl) hrest]

theorem noBlankRun_of_squeeze {k : Nat} {ls : List Str} (hk : 1 ≤ k) (h : squeeze k ls = ls) :
    NoBlankRun ls ∧ (2 ≤ k → ls.head? ≠ some []) := by
  induction ls generalizing k with
  | nil => exact ⟨List.IsChain.nil, fun _ h => nomatch h⟩
  | cons l ls ih =>
    rw [squeeze] at h
    split at h
    · next hl =>
      split at h
      · have hlen := squeeze_length k ls
        rw [h, List.length_cons] at hlen
        exact absurd hlen (Nat.not_succ_le_self _)
      · next hk2 =>
        obtain ⟨hchain, hhead⟩ := ih (Nat.le_succ_of_le hk) (List.cons.inj h).2
        refine ⟨List.IsChain.cons hchain fun y hy => .inr ?_, fun h2 => absurd h2 hk2⟩
        intro hnil
        rw [hnil] at hy
        exact hhead (by omega) hy
    · next hl =>
      obtain ⟨hchain, _⟩ := ih (Nat.le_refl 1) (List.cons.inj h).2
      refine ⟨List.IsChain.cons hchain fun y _ => .inl hl, fun _ hhead => ?_⟩
      rw [List.head?_cons, Option.some.injEq] at hhead
      exact hl hhead

theorem squeeze_eq_iff (ls : List Str) : squeeze 1 ls = ls ↔ NoBlankRun ls :=
  ⟨fun h => (noBlankRun_of_squeeze (Nat.le_refl 1) h).1, squeeze_of_noBlankRun (.inl rfl)⟩

variable {line : Str} {marker : Str}

theorem ticks_marker : fenceMarker ticks = some ticks := by decide

theorem ticks_closes : closesFence ticks ticks = true := by decide

theorem marker_replicate (h : fenceMarker line = some marker) : ∃ n c, marker = List.replicate n c ∧ 3 ≤ n := by
  rw [fenceMarker, Option.map_eq_some_iff] at h
  obtain ⟨start, hstart, rfl⟩ := h
  unfold fenceStart at hstart
  split at hstart
  · cases hstart
  · next c cs _ =>
    split at hstart
    · dsimp only at hstart
      split at hstart
      · cases hstart
      · next hcond =>
        rw [Option.some.injEq] at hstart
        have hsame : cs.takeWhile (· == c) = List.replicate (cs.takeWhile (· == c)).length c := by
          rw [List.eq_replicate_iff]
          refine ⟨rfl, fun d hd => ?_⟩
          have heq := List.mem_takeWhile_imp hd
          exact beq_iff_eq.mp heq
        refine ⟨(cs.takeWhile (· == c)).length + 1, c, ?_, ?_⟩
        · rw [← hstart, List.replicate_succ, ← hsame]
        · rw [Bool.or_eq_true, Bool.or_eq_true, decide_eq_true_eq, List.length_cons, not_or,
            not_or] at hcond
          omega
    · cases hstart

theorem marker_of_closes {opening : Str} (h : closesFence line opening = true) :
    ∃ fence, fenceMarker line = some fence ∧ fence.head? = opening.head? ∧
      opening.length ≤ fence.length := by
  unfold closesFence at h
  cases hs : fenceStart line with
  | none =>
    rw [hs] at h
    cases h
  | some start =>
    obtain ⟨fence, language⟩ := start
    rw [hs] at h
    simp only [Bool.and_eq_true, beq_iff_eq, decide_eq_true_eq] at h
    exact ⟨fence, by rw [fenceMarker, hs]; rfl, h.1.1, h.1.2⟩

theorem foreign_of_closes {closer : Str} (hm : fenceMarker line = some marker)
    (hne : marker ≠ ticks) (hclose : closesFence closer marker = true) : Foreign closer := by
  obtain ⟨fence, hfence, hhead, hlen⟩ := marker_of_closes hclose
  refine ⟨fence, hfence, fun heq => hne ?_⟩
  obtain ⟨n, c, rfl, hn⟩ := marker_replicate hm
  have hthree : (ticks : Str).length = 3 := by decide
  rw [heq, List.length_replicate, hthree] at hlen
  have hn3 : n = 3 := Nat.le_antisymm hlen hn
  rw [heq, hn3] at hhead
  have hc : backtick = c := by
    simpa [ticks, lit, backtick] using hhead
  rw [hn3, ← hc]
  decide

theorem isBlankText_iff {t : Str} : isBlankText t = true ↔ ∀ c ∈ t, isSpace c = true := by
  rw [isBlankText, stripped, List.isEmpty_iff, List.rdropWhile_eq_nil_iff]
  constructor
  · intro h c hc
    rw [← List.takeWhile_append_dropWhile (p := isSpace) (l := t), List.mem_append] at hc
    exact hc.elim (fun hc => List.mem_takeWhile_imp hc) (h c)
  · intro h c hc
    exact h c ((List.dropWhile_suffix _).subset hc)

theorem join_cons (l k : Str) (ks : List Str) :
    join [newline] (l :: k :: ks) = l ++ newline :: join [newline] (k :: ks) := by
  simp [join]

theorem splitNewline_join {ls : List Str} (hls : ∀ l ∈ ls, newline ∉ l) (hne : ls ≠ []) (w : Str) :
    ∃ p ps, splitNewline w = p :: ps ∧
      splitNewline (join [newline] ls ++ w) = ls.dropLast ++ (ls.getLast hne ++ p) :: ps := by
  obtain ⟨p, ps, hw⟩ := List.exists_cons_of_ne_nil (splitNewline_ne_nil w)
  refine ⟨p, ps, hw, ?_⟩
  induction ls with
  | nil => exact absurd rfl hne
  | cons l ls ih =>
    rw [List.forall_mem_cons] at hls
    cases ls with
    | nil =>
      rw [join, List.intercalate_singleton, splitNewline_append hls.1 hw]
      rfl
    | cons k ks =>
      rw [join_cons, List.append_assoc, List.cons_append, splitNewline_line hls.1,
        ih hls.2 (List.cons_ne_nil k ks)]
      rfl

theorem splitNewline_join_self {ls : List Str} (hls : ∀ l ∈ ls, newline ∉ l) (hne : ls ≠ []) :
    splitNewline (join [newline] ls) = ls := by
  obtain ⟨p, ps, hw, hsplit⟩ := splitNewline_join hls hne []
  obtain ⟨rfl, rfl⟩ := List.cons.inj hw
  rw [List.append_nil, List.append_nil] at hsplit
  rw [hsplit, List.dropLast_append_getLast]

theorem join_splitNewline (t : Str) : join [newline] (splitNewline t) = t := by
  induction t with
  | nil => rfl
  | cons c t ih =>
    rw [splitNewline]
    obtain ⟨p, ps, hs⟩ := List.exists_cons_of_ne_nil (splitNewline_ne_nil t)
    split
    · next hc => rw [hs, join_cons, ← hs, ih, hc, List.nil_append]
    rw [hs] at ih ⊢
    rw [join, List.intercalate_cons_cons_left]
    exact congrArg (List.cons c) ih

theorem newline_not_mem_splitNewline {t l : Str} (h : l ∈ splitNewline t) : newline ∉ l := by
  induction t generalizing l with
  | nil =>
    rw [List.mem_singleton.mp h]
    exact List.not_mem_nil
  | cons c t ih =>
    rw [splitNewline] at h
    split at h
    · cases List.mem_cons.mp h with
      | inl h =>
        rw [h]
        exact List.not_mem_nil
      | inr h => exact ih h
    · next hc =>
      cases hs : splitNewline t with
      | nil => exact absurd hs (splitNewline_ne_nil t)
      | cons k ks =>
        simp only [hs] at h
        cases List.mem_cons.mp h with
        | inl h =>
          rw [h, List.mem_cons, not_or]
          exact ⟨fun heq => hc heq.symm, ih (hs ▸ List.mem_cons_self)⟩
        | inr h => exact ih (hs ▸ List.mem_cons_of_mem _ h)

theorem rstripped_append_blank {t : Str} (ht : rstripped t = t) {b : Str}
    (hb : ∀ c ∈ b, isSpace c = true) : rstripped (t ++ b) = t := by
  induction b using List.reverseRecOn with
  | nil => rw [List.append_nil, ht]
  | append_singleton b c ih =>
    rw [rstripped, ← List.append_assoc, List.rdropWhile_concat_pos _ _ _
      (hb c (List.mem_append_right _ List.mem_cons_self)), ← rstripped,
      ih fun d hd => hb d (List.mem_append_left _ hd)]

theorem rstripped_rstripped (t : Str) : rstripped (rstripped t) = rstripped t :=
  List.rdropWhile_idempotent isSpace t

theorem rstripped_split (t : Str) : ∃ b, t = rstripped t ++ b ∧ ∀ c ∈ b, isSpace c = true :=
  ⟨t.rtakeWhile isSpace, List.rdropWhile_append_rtakeWhile.symm, fun _ hc => List.mem_rtakeWhile_imp hc⟩

theorem mem_of_mem_splitNewline {t l : Str} (hl : l ∈ splitNewline t) {c : CodePoint} (hc : c ∈ l) : c ∈ t := by
  induction t generalizing l with
  | nil =>
    rw [List.mem_singleton.mp hl] at hc
    cases hc
  | cons d t ih =>
    rw [splitNewline] at hl
    split at hl
    · cases List.mem_cons.mp hl with
      | inl h =>
        rw [h] at hc
        cases hc
      | inr h => exact List.mem_cons_of_mem _ (ih h hc)
    · cases hs : splitNewline t with
      | nil => exact absurd hs (splitNewline_ne_nil t)
      | cons k ks =>
        simp only [hs] at hl
        cases List.mem_cons.mp hl with
        | inl h =>
          rw [h] at hc
          cases List.mem_cons.mp hc with
          | inl hc => exact hc ▸ List.mem_cons_self
          | inr hc => exact List.mem_cons_of_mem _ (ih (hs ▸ List.mem_cons_self) hc)
        | inr h => exact List.mem_cons_of_mem _ (ih (hs ▸ List.mem_cons_of_mem _ h) hc)

theorem mem_join {ls : List Str} {l : Str} (hl : l ∈ ls) {c : CodePoint} (hc : c ∈ l) :
    c ∈ join [newline] ls := by
  induction ls with
  | nil => cases hl
  | cons k ls ih =>
    cases ls with
    | nil =>
      rw [List.mem_singleton.mp hl] at hc
      simpa [join] using hc
    | cons j js =>
      rw [join_cons, List.mem_append]
      cases List.mem_cons.mp hl with
      | inl h => exact .inl (h ▸ hc)
      | inr h => exact .inr (List.mem_cons_of_mem _ (ih h))

theorem join_getLast {ls : List Str} (hne : ls ≠ []) : ∃ u, join [newline] ls = u ++ ls.getLast hne := by
  induction ls with
  | nil => exact absurd rfl hne
  | cons l ls ih =>
    cases ls with
    | nil => exact ⟨[], by simp [join]⟩
    | cons k ks =>
      obtain ⟨u, hu⟩ := ih (List.cons_ne_nil k ks)
      refine ⟨l ++ newline :: u, ?_⟩
      rw [join_cons, hu, List.getLast_cons (List.cons_ne_nil k ks)]
      simp

theorem rstripped_of_append {u g : Str} (h : rstripped (u ++ g) = u ++ g) : rstripped g = g := by
  unfold rstripped at h ⊢
  rw [List.rdropWhile_eq_self_iff] at h ⊢
  intro hne
  have hlast := h (by simp [hne])
  rwa [List.getLast_append_of_ne_nil _ hne] at hlast

theorem fenceMarker_append_blank {t b : Str} (hnl : newline ∉ t ++ b)
    (hb : ∀ c ∈ b, isSpace c = true) : fenceMarker (t ++ b) = fenceMarker t := by
  induction b using List.reverseRecOn with
  | nil => rw [List.append_nil]
  | append_singleton b c ih =>
    rw [← List.append_assoc] at hnl ⊢
    have hnl' : newline ∉ t ++ b := fun h => hnl (List.mem_append_left _ h)
    rw [fenceMarker_snoc hnl' (hb c (List.mem_append_right _ List.mem_cons_self)),
      ih hnl' fun d hd => hb d (List.mem_append_left _ hd)]

/-- The lines of a text without white space at its end. -/
structure CodeLines (source : List Str) : Prop where
  newlines : ∀ l ∈ source, newline ∉ l
  nonempty : source ≠ []
  trimmed : rstripped (join [newline] source) = join [newline] source

def Strong (line : Str) : Prop := Foreign line ∨ closesFence line ticks = true

/-- White space at the end is not all that keeps a line from closing a block. -/
def Unpadded (line : Str) : Prop :=
  closesFence (rstripped line) ticks = true → closesFence line ticks = true

instance (line : Str) : Decidable (Unpadded line) := inferInstanceAs (Decidable (_ → _))

variable {ls source : List Str}

theorem trailing_lines (hls : ∀ l ∈ ls, newline ∉ l) (hsource : CodeLines source)
    (hblank : isBlankText (join [newline] source) = false)
    (h : rstripped (join [newline] ls) = join [newline] source) : source.length ≤ ls.length ∧ ∀ l ∈ source,
      l ∈ ls ∨ ∃ b, (∀ c ∈ b, isSpace c = true) ∧ l ++ b ∈ ls ∧ rstripped (l ++ b) = l := by
  have hne : ls ≠ [] := by
    intro hnil
    rw [← h, hnil] at hblank
    exact absurd hblank (by decide)
  obtain ⟨b, hb, hspace⟩ := rstripped_split (join [newline] ls)
  obtain ⟨p, ps, hp, hsplit⟩ := splitNewline_join hsource.newlines hsource.nonempty b
  rw [h] at hb
  rw [← hb, splitNewline_join_self hls hne] at hsplit
  have hlast := List.dropLast_append_getLast hsource.nonempty
  constructor
  · have hlen := congrArg List.length hlast
    rw [List.length_append, List.length_singleton] at hlen
    rw [hsplit, List.length_append, List.length_cons]
    omega
  · intro l hl
    rw [← hlast, List.mem_append, List.mem_singleton] at hl
    rw [hsplit]
    cases hl with
    | inl hl => exact .inl (List.mem_append_left _ hl)
    | inr hl =>
      have hpspace : ∀ c ∈ p, isSpace c = true :=
        fun c hc => hspace c (mem_of_mem_splitNewline (hp ▸ List.mem_cons_self) hc)
      obtain ⟨u, hu⟩ := join_getLast hsource.nonempty
      have htrim := hsource.trimmed
      rw [hu] at htrim
      rw [hl]
      exact .inr ⟨p, hpspace, List.mem_append_right _ List.mem_cons_self,
        rstripped_append_blank (rstripped_of_append htrim) hpspace⟩

theorem strong_trailing (hls : ∀ l ∈ ls, newline ∉ l) (hpad : ∀ l ∈ ls, Unpadded l)
    (hsource : CodeLines source) (hblank : isBlankText (join [newline] source) = false)
    (h : rstripped (join [newline] ls) = join [newline] source) (hstrong : ∃ l ∈ source, Strong l) :
    ∃ l ∈ ls, Strong l := by
  obtain ⟨l, hl, hstrong⟩ := hstrong
  cases (trailing_lines hls hsource hblank h).2 l hl with
  | inl hmem => exact ⟨l, hmem, hstrong⟩
  | inr hlong =>
    obtain ⟨b, hb, hmem, htrim⟩ := hlong
    refine ⟨l ++ b, hmem, ?_⟩
    cases hstrong with
    | inl hforeign =>
      obtain ⟨marker, hm, hne⟩ := hforeign
      exact .inl ⟨marker, by rw [fenceMarker_append_blank (hls _ hmem) hb, hm], hne⟩
    | inr hclose =>
      rw [← htrim] at hclose
      exact .inr (hpad _ hmem hclose)

theorem strong_nonblank (h : ∃ l ∈ source, Strong l) : isBlankText (join [newline] source) = false := by
  obtain ⟨l, hl, hstrong⟩ := h
  rw [Bool.eq_false_iff]
  intro hblank
  rw [isBlankText_iff] at hblank
  have hline : ∀ c ∈ l, isSpace c = true := by
    intro c hc
    exact hblank c (mem_join hl hc)
  cases hstrong with
  | inl hforeign =>
    obtain ⟨marker, hm, _⟩ := hforeign
    exact not_blank_of_marker hm hline
  | inr hclose => exact not_blank_of_closes hclose hline

end Kirara.FencedPieces
