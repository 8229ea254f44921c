import Kirara.CodePoints
import Kirara.Patterns

namespace Kirara.TextSplitting

open Kirara.CodePoints Kirara.Patterns

def decimalZeros : List Nat :=
  [0x30, 0x660, 0x6f0, 0x7c0, 0x966, 0x9e6, 0xa66, 0xae6, 0xb66, 0xbe6, 0xc66, 0xce6, 0xd66,
    0xde6, 0xe50, 0xed0, 0xf20, 0x1040, 0x1090, 0x17e0, 0x1810, 0x1946, 0x19d0, 0x1a80, 0x1a90,
    0x1b50, 0x1bb0, 0x1c40, 0x1c50, 0xa620, 0xa8d0, 0xa900, 0xa9d0, 0xa9f0, 0xaa50, 0xabf0,
    0xff10, 0x104a0, 0x10d30, 0x11066, 0x110f0, 0x11136, 0x111d0, 0x112f0, 0x11450, 0x114d0,
    0x11650, 0x116c0, 0x11730, 0x118e0, 0x11950, 0x11c50, 0x11d50, 0x11da0, 0x16a60, 0x16ac0,
    0x16b50, 0x1d7ce, 0x1d7d8, 0x1d7e2, 0x1d7ec, 0x1d7f6, 0x1e140, 0x1e2f0, 0x1e950, 0x1fbf0]

def isDigit (c : CodePoint) : Bool := decimalZeros.any (fun z => z ≤ c.val && c.val < z + 10)

/-- `[^chars]`. -/
def noneOf (chars : String) : Pattern CodePoint := .one fun c => !(lit chars).contains c

def oneOf (chars : String) : Pattern CodePoint := .one fun c => (lit chars).contains c

def word (s : String) : Pattern CodePoint := .word (lit s)

def notBeside (c : Char) : Option CodePoint → Bool
  | none => true
  | some d => d != cp c

/-- `marks[^chars]+marks`. -/
def enclosed (marks chars : String) : Pattern CodePoint :=
  .seq (word marks) (.seq (noneOf chars).some_ (word marks))

/-- `(?<!c)c[^c\n]+c(?!c)`. -/
def enclosedAlone (mark : Char) (marks chars : String) : Pattern CodePoint :=
  .seq (.before (notBeside mark)) (.seq (enclosed marks chars) (.next (notBeside mark)))

/-- `_LINK_PATTERN`: `!?\[([^\]\n]+)\]\(([^)\n]+)\)`. -/
def linkPattern : Pattern CodePoint :=
  .seq (word "!").optional (.seq (.seq (word "[") (.seq (noneOf "]\n").some_ (word "]")))
    (.seq (word "(") (.seq (noneOf ")\n").some_ (word ")"))))

def atomicSpanPatterns : List (Pattern CodePoint) :=
  [linkPattern, enclosed "***" "*\n", enclosed "**" "*\n", enclosedAlone '*' "*" "*\n",
    enclosed "___" "_\n", enclosed "__" "_\n", enclosed "~~" "~\n", enclosed "``" "`\n",
    enclosedAlone '`' "`" "`\n"]

/-- `_STRUCTURAL_LINE_PATTERN`: `^(?:#{1,6} |[-*+] |\d+[.)] |> |\|)`, each line. -/
def structuralLinePattern : Pattern CodePoint :=
  let hashes := (List.range 5).foldr (fun _ p => .seq (word "#") p.optional) (word "#")
  .seq (.lineStart newline) (.alt (.seq hashes (word " ")) (.alt (.seq (oneOf "-*+") (word " "))
    (.alt (.seq (Pattern.some_ (.one isDigit)) (.seq (oneOf ".)") (word " ")))
      (.alt (word "> ") (word "|")))))

section Cutting

variable (m : Measure) (limit : Nat)

def moveOut (text : Str) (cut : Nat) (span : Nat × Nat) : Option Nat :=
  if span.1 < cut && cut < span.2 && m.of ((text.drop span.1).take (span.2 - span.1)) ≤ limit then
    some (if span.1 = 0 then span.2 else span.1)
  else none

def cutInsideAtomicSpan (text : Str) (cut : Nat) : Nat :=
  ((atomicSpanPatterns.flatMap (fun p => p.findIter text)).findSome? (moveOut m limit text cut)).getD
    cut

def hardCut : Nat → Str → Nat
  | _, [] => 0
  | used, c :: cs => if used + m.char c > limit then 0 else hardCut (used + m.char c) cs + 1

/-- The last place where a marker starts, all of it inside the text. -/
def rfind (marker : Str) : Str → Option Nat
  | [] => if marker = [] then some 0 else none
  | c :: cs =>
    match rfind marker cs with
    | some i => some (i + 1)
    | none => if marker.isPrefixOf (c :: cs) then some 0 else none

def boundaryMarkers : List Str := ["\n\n", "\n", "。", "！", "？", ". ", " "].map lit

def keepBoundary (text : Str) (candidate : Nat) : Option Nat :=
  if cutInsideAtomicSpan m limit text candidate = candidate then some candidate else none

def structuralBoundaries (text : Str) (hard : Nat) : List Nat :=
  ((structuralLinePattern.findIter (text.take hard)).map Prod.fst).filterMap
    (fun candidate => if candidate = 0 then none else keepBoundary m limit text candidate)

def markerBoundaries (text : Str) (hard : Nat) : List Nat :=
  boundaryMarkers.filterMap (fun marker =>
    (rfind marker (text.take hard)).bind (fun position =>
      keepBoundary m limit text (position + marker.length)))

def preferredCut (text : Str) (hard : Nat) : Nat :=
  let cut := cutInsideAtomicSpan m limit text hard
  if cut = hard then
    let structural := structuralBoundaries m limit text hard
    (if structural.isEmpty then markerBoundaries m limit text hard else structural).max?.getD cut
  else cut

def chooseCut (text : Str) (hard : Nat) : Nat :=
  let cut := preferredCut m limit text hard
  if cut = 0 then hard else cut

def tooSmallForCharacter : Str := lit "消息上限太小，无法容纳一个完整字符"

/-- The loop of `_split_text_preserving`, with fuel for each of its chunks. -/
def splitRemaining : Nat → Str → Except Str (List Str)
  | 0, _ => .ok []
  | _ + 1, [] => .ok []
  | n + 1, remaining@(_ :: _) =>
    if m.of remaining ≤ limit then .ok [remaining]
    else
      let hard := hardCut m limit 0 remaining
      if hard = 0 then .error tooSmallForCharacter
      else
        let cut := chooseCut m limit remaining hard
        (splitRemaining n (remaining.drop cut)).map (remaining.take cut :: ·)

def splitTextPreserving (text : Str) : Except Str (List Str) :=
  if text.isEmpty then .ok [[]] else splitRemaining m limit text.length text

end Cutting

variable {m : Measure} {limit : Nat}

theorem hardCut_fits (used : Nat) (t : Str) (hu : used ≤ limit) :
    used + m.of (t.take (hardCut m limit used t)) ≤ limit := by
  induction t generalizing used with
  | nil => simpa [hardCut] using hu
  | cons c cs ih =>
    rw [hardCut]
    split
    · simpa using hu
    have hrest := ih (used + m.char c) (by omega)
    rw [List.take_succ_cons, Measure.of_cons]
    omega

theorem hardCut_maximal (used : Nat) (t : Str) (hu : used ≤ limit) (h : limit < used + m.of t) :
    hardCut m limit used t < t.length ∧
      limit < used + m.of (t.take (hardCut m limit used t + 1)) := by
  induction t generalizing used with
  | nil =>
    rw [Measure.of_nil] at h
    omega
  | cons c cs ih =>
    rw [hardCut]
    rw [Measure.of_cons] at h
    split
    · next hc =>
      rw [List.length_cons, List.take_succ_cons, Measure.of_cons]
      omega
    · next hc =>
      obtain ⟨hlen, hmax⟩ := ih (used + m.char c) (by omega) (by omega)
      rw [List.length_cons, List.take_succ_cons, Measure.of_cons]
      omega

theorem rfind_le {marker t : Str} {i : Nat} (h : rfind marker t = some i) : i + marker.length ≤ t.length := by
  induction t generalizing i with
  | nil =>
    rw [rfind] at h
    split at h
    · next hm =>
      cases h
      simp [hm]
    · cases h
  | cons c cs ih =>
    rw [rfind] at h
    cases hr : rfind marker cs with
    | some j =>
      rw [hr] at h
      cases h
      have hj := ih hr
      rw [List.length_cons]
      omega
    | none =>
      simp only [hr] at h
      split at h
      · next hp =>
        cases h
        have hlen := (List.isPrefixOf_iff_prefix.mp hp).length_le
        omega
      · cases h

variable {t : Str}

theorem take_fits_le (h : limit < m.of t) {i : Nat} (hi : m.of (t.take i) ≤ limit) :
    i ≤ hardCut m limit 0 t := by
  by_contra hlt
  have hmax := (hardCut_maximal (m := m) 0 t (Nat.zero_le limit) (by omega)).2
  have hmono : m.of (t.take (hardCut m limit 0 t + 1)) ≤ m.of (t.take i) :=
    Measure.of_take_le (by omega)
  omega

theorem cutInsideAtomicSpan_bounds (h : limit < m.of t) (hpos : 0 < hardCut m limit 0 t) :
    0 < cutInsideAtomicSpan m limit t (hardCut m limit 0 t) ∧
      cutInsideAtomicSpan m limit t (hardCut m limit 0 t) ≤ hardCut m limit 0 t := by
  unfold cutInsideAtomicSpan
  cases hs : (atomicSpanPatterns.flatMap (fun p => p.findIter t)).findSome?
      (moveOut m limit t (hardCut m limit 0 t)) with
  | none => exact ⟨hpos, Nat.le_refl _⟩
  | some cut =>
    obtain ⟨span, _, hmove⟩ := List.exists_of_findSome?_eq_some hs
    unfold moveOut at hmove
    split at hmove
    · next hin =>
      simp only [Bool.and_eq_true, decide_eq_true_eq] at hin
      obtain ⟨⟨hstart, hend⟩, hfits⟩ := hin
      cases hmove
      rw [Option.getD_some]
      split
      · next hzero =>
        rw [hzero, List.drop_zero, Nat.sub_zero] at hfits
        have hle := take_fits_le h hfits
        omega
      · next hne => omega
    · cases hmove

theorem keepBoundary_eq {candidate b : Nat}
    (h : keepBoundary m limit t candidate = some b) : b = candidate := by
  unfold keepBoundary at h
  split at h
  · cases h
    rfl
  · cases h

theorem structuralBoundaries_bounds {hard b : Nat}
    (h : b ∈ structuralBoundaries m limit t hard) : 0 < b ∧ b ≤ hard := by
  unfold structuralBoundaries at h
  rw [List.mem_filterMap] at h
  obtain ⟨candidate, hc, hb⟩ := h
  split at hb
  · cases hb
  · next hne =>
    rw [keepBoundary_eq hb]
    obtain ⟨span, hspan, rfl⟩ := List.mem_map.mp hc
    have hbounds := Pattern.findIter_bounds hspan
    have hlen := List.length_take_le hard t
    omega

theorem markerBoundaries_bounds {hard b : Nat}
    (h : b ∈ markerBoundaries m limit t hard) : 0 < b ∧ b ≤ hard := by
  unfold markerBoundaries at h
  rw [List.mem_filterMap] at h
  obtain ⟨marker, hm, hb⟩ := h
  obtain ⟨position, hp, hb⟩ := Option.bind_eq_some_iff.mp hb
  have hle := rfind_le hp
  have hlen := List.length_take_le hard t
  have hmarkers : ∀ marker ∈ boundaryMarkers, 0 < marker.length := by decide
  have hpos := hmarkers marker hm
  have heq := keepBoundary_eq hb
  omega

theorem preferredCut_bounds (h : limit < m.of t) (hpos : 0 < hardCut m limit 0 t) :
    0 < preferredCut m limit t (hardCut m limit 0 t) ∧
      preferredCut m limit t (hardCut m limit 0 t) ≤ hardCut m limit 0 t := by
  have hspan := cutInsideAtomicSpan_bounds h hpos
  unfold preferredCut
  simp only
  split
  · cases hmax : (if (structuralBoundaries m limit t (hardCut m limit 0 t)).isEmpty then
        markerBoundaries m limit t (hardCut m limit 0 t)
      else structuralBoundaries m limit t (hardCut m limit 0 t)).max? with
    | none => exact hspan
    | some b =>
      have hmem := List.max?_mem hmax
      rw [Option.getD_some]
      split at hmem
      · exact markerBoundaries_bounds hmem
      · exact structuralBoundaries_bounds hmem
  · exact hspan

theorem chooseCut_bounds (h : limit < m.of t) (hpos : 0 < hardCut m limit 0 t) :
    0 < chooseCut m limit t (hardCut m limit 0 t) ∧
      chooseCut m limit t (hardCut m limit 0 t) ≤ hardCut m limit 0 t := by
  have hcut := preferredCut_bounds h hpos
  unfold chooseCut
  simp only
  rw [if_neg (by omega)]
  exact hcut

theorem hardCut_eq_zero_iff {c : CodePoint} : hardCut m limit 0 (c :: t) = 0 ↔ limit < m.char c := by
  rw [hardCut, Nat.zero_add]
  split
  · next hc => simpa using hc
  · next hc => simpa using hc

/-- What the splitting of a text into chunks comes to. -/
structure Splits (m : Measure) (limit : Nat) (t : Str) (parts : List Str) : Prop where
  whole : parts.flatten = t
  fit : ∀ part ∈ parts, m.of part ≤ limit

theorem splitRemaining_cases (m : Measure) (limit n : Nat) (t : Str) (hn : t.length ≤ n) :
    (∃ parts, splitRemaining m limit n t = .ok parts ∧ Splits m limit t parts ∧
      (t ≠ [] → parts ≠ []) ∧ ∀ c ∈ t, m.char c ≤ limit) ∨
    (splitRemaining m limit n t = .error tooSmallForCharacter ∧ ∃ c ∈ t, limit < m.char c) := by
  induction n generalizing t with
  | zero =>
    have ht := List.length_eq_zero_iff.mp (Nat.le_zero.mp hn)
    rw [ht]
    exact .inl ⟨[], rfl, ⟨rfl, fun p hp => absurd hp List.not_mem_nil⟩, fun h => absurd rfl h,
      fun c hc => absurd hc List.not_mem_nil⟩
  | succ n ih =>
    cases t with
    | nil =>
      exact .inl ⟨[], rfl, ⟨rfl, fun p hp => absurd hp List.not_mem_nil⟩, fun h => absurd rfl h,
        fun c hc => absurd hc List.not_mem_nil⟩
    | cons c cs =>
      rw [splitRemaining]
      by_cases hfits : m.of (c :: cs) ≤ limit
      · rw [if_pos hfits]
        refine .inl ⟨_, rfl, ⟨by simp, fun p hp => ?_⟩, fun _ => List.cons_ne_nil _ _, ?_⟩
        · rw [List.mem_singleton.mp hp]
          exact hfits
        · intro d hd
          exact Nat.le_trans (Measure.char_le_of hd) hfits
      · rw [if_neg hfits]
        simp only
        by_cases hzero : hardCut m limit 0 (c :: cs) = 0
        · rw [if_pos hzero]
          exact .inr ⟨rfl, c, List.mem_cons_self, hardCut_eq_zero_iff.mp hzero⟩
        · rw [if_neg hzero]
          obtain ⟨hcut, hle⟩ := chooseCut_bounds (by omega) (Nat.pos_of_ne_zero hzero)
          obtain ⟨cut, hdef⟩ : ∃ cut, cut =
            chooseCut m limit (c :: cs) (hardCut m limit 0 (c :: cs)) := ⟨_, rfl⟩
          rw [← hdef] at hcut hle ⊢
          have htake : m.of ((c :: cs).take cut) ≤ limit := by
            have hhard := hardCut_fits (m := m) 0 (c :: cs) (Nat.zero_le limit)
            have hmono : m.of ((c :: cs).take cut) ≤ _ := Measure.of_take_le hle
            omega
          have hjoin := List.take_append_drop cut (c :: cs)
          have hlen : ((c :: cs).drop cut).length ≤ n := by
            rw [List.length_drop]
            omega
          cases ih _ hlen with
          | inl hok =>
            obtain ⟨parts, hparts, hsplit, _, hchars⟩ := hok
            rw [hparts]
            refine .inl ⟨_, rfl, ⟨?_, fun p hp => ?_⟩, fun _ => List.cons_ne_nil _ _, ?_⟩
            · rw [List.flatten_cons, hsplit.whole, hjoin]
            · cases List.mem_cons.mp hp with
              | inl hp => exact hp ▸ htake
              | inr hp => exact hsplit.fit p hp
            · intro d hd
              rw [← hjoin, List.mem_append] at hd
              cases hd with
              | inr hd => exact hchars d hd
              | inl hd =>
                exact Nat.le_trans (Measure.char_le_of hd) htake
          | inr herr =>
            obtain ⟨herr, d, hd, hbig⟩ := herr
            rw [herr]
            exact .inr ⟨rfl, d, List.mem_of_mem_drop hd, hbig⟩

theorem splitTextPreserving_cases (m : Measure) (limit : Nat) (t : Str) :
    (∃ parts, splitTextPreserving m limit t = .ok parts ∧ Splits m limit t parts ∧ parts ≠ [] ∧
      ∀ c ∈ t, m.char c ≤ limit) ∨
    (splitTextPreserving m limit t = .error tooSmallForCharacter ∧ ∃ c ∈ t, limit < m.char c) := by
  unfold splitTextPreserving
  cases t with
  | nil =>
    refine .inl ⟨[[]], rfl, ⟨rfl, fun p hp => ?_⟩, List.cons_ne_nil _ _,
      fun c hc => absurd hc List.not_mem_nil⟩
    rw [List.mem_singleton.mp hp]
    exact Nat.zero_le _
  | cons c cs =>
    rw [List.isEmpty_cons, if_neg Bool.false_ne_true]
    cases splitRemaining_cases m limit _ (c :: cs) (Nat.le_refl _) with
    | inr herr => exact .inr herr
    | inl hok =>
      obtain ⟨parts, hp, hs, hne, hchars⟩ := hok
      exact .inl ⟨parts, hp, hs, hne (List.cons_ne_nil _ _), hchars⟩

theorem splitTextPreserving_splits {parts : List Str}
    (h : splitTextPreserving m limit t = .ok parts) : Splits m limit t parts ∧ parts ≠ [] := by
  cases splitTextPreserving_cases m limit t with
  | inl hok =>
    obtain ⟨other, ho, hs, hne, _⟩ := hok
    rw [h] at ho
    cases ho
    exact ⟨hs, hne⟩
  | inr herr =>
    rw [h] at herr
    cases herr.1

end Kirara.TextSplitting
