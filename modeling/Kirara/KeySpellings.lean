import Kirara.CredentialKeys
import Mathlib.Data.List.Chain

namespace Kirara.KeySpellings

open Kirara.Channels Kirara.CredentialKeys

/-- A word of a field name, as it stands in snake case. -/
structure Word where
  text : Text
  nonempty : text ≠ []
  plain : ∀ c ∈ text, (c.isLower || c.isDigit) = true

inductive Casing where
  | lower
  | capital
  | upper
  deriving DecidableEq

inductive Style where
  | snake
  | kebab
  | spaced
  | camel
  | pascal
  deriving DecidableEq

def Casing.apply : Casing → Text → Text
  | .lower, t => t
  | .capital, [] => []
  | .capital, c :: t => c.toUpper :: t
  | .upper, t => t.map Char.toUpper

def Style.separator : Style → Text
  | .snake => ['_']
  | .kebab => ['-']
  | .spaced => [' ']
  | .camel => []
  | .pascal => []

/-- How camel case, run-together words and acronyms are written. -/
def WellCased : Style → List (Word × Casing) → Prop
  | .camel, (_, casing) :: ws => casing = .lower ∧ ∀ w ∈ ws, w.2 ≠ .lower
  | .pascal, ws => ∀ w ∈ ws, w.2 ≠ .lower
  | _, _ => True

structure Spelling where
  style : Style
  words : List (Word × Casing)
  nonempty : words ≠ []
  wellCased : WellCased style words

def render (w : Word × Casing) : Text := w.2.apply w.1.text

def spell (separator : Text) : List (Word × Casing) → Text
  | [] => []
  | [w] => render w
  | w :: v :: ws => render w ++ (separator ++ spell separator (v :: ws))

def Spelling.key (s : Spelling) : Text := spell s.style.separator s.words

def Spelling.name (s : Spelling) : List Text := s.words.map (fun w => w.1.text)

/-- What the splitter makes of a single word. A capital after a digit cuts it. -/
def pieces (w : Word × Casing) : List Text :=
  (alnumRuns (splitCamel (render w))).map (List.map Char.toLower)

/-- A boundary between two words that the splitter does not see. -/
def hidden (separator : Text) (w v : Word × Casing) : Bool :=
  separator = [] && !((render w).getLast?.any (fun c => (render v).head?.any (camelBoundary c)))

def glue : List Text → List Text → List Text
  | [], vs => vs
  | [w], [] => [w]
  | [w], v :: vs => (w ++ v) :: vs
  | w :: u :: ws, vs => w :: glue (u :: ws) vs

/-- The words of a spelling, joined at hidden boundaries and cut at false ones. -/
def seenWords (separator : Text) : List (Word × Casing) → List Text
  | [] => []
  | [w] => pieces w
  | w :: v :: ws =>
    if hidden separator w v then glue (pieces w) (seenWords separator (v :: ws))
    else pieces w ++ seenWords separator (v :: ws)

def Spelling.seen (s : Spelling) : List Text := seenWords s.style.separator s.words

variable {c d : Char} {x y : Text}

theorem splitCamel_cons_append (hy : y.head? = some d) :
    splitCamel (c :: y) = if camelBoundary c d then c :: '_' :: splitCamel y else c :: splitCamel y := by
  obtain ⟨t, rfl⟩ := List.head?_eq_some_iff.mp hy
  rfl

theorem splitCamel_append (hx : x.getLast? = some c) (hy : y.head? = some d) : splitCamel (x ++ y) =
      splitCamel x ++ if camelBoundary c d then '_' :: splitCamel y else splitCamel y := by
  induction x with
  | nil => cases hx
  | cons a x ih =>
    cases x with
    | nil =>
      obtain rfl : a = c := by simpa using hx
      rw [List.singleton_append, splitCamel_cons_append hy]
      split
      · rfl
      · rfl
    | cons b x =>
      have hi := ih (by simpa using hx)
      rw [List.cons_append, splitCamel_cons_append (d := b) rfl,
        splitCamel_cons_append (c := a) (y := b :: x) (d := b) rfl, hi]
      split
      · rfl
      · rfl

theorem splitCamel_head? : (splitCamel x).head? = x.head? := by
  cases x with
  | nil => rfl
  | cons c x =>
    cases x with
    | nil => rfl
    | cons d x =>
      rw [splitCamel_cons_append (d := d) rfl]
      split
      · rfl
      · rfl

theorem splitCamel_getLast? : (splitCamel x).getLast? = x.getLast? := by
  induction x with
  | nil => rfl
  | cons c x ih =>
    cases x with
    | nil => rfl
    | cons d x =>
      have hne : splitCamel (d :: x) ≠ [] := by
        intro h
        have hh := splitCamel_head? (x := d :: x)
        rw [h] at hh
        cases hh
      rw [splitCamel_cons_append (d := d) rfl, List.getLast?_cons_of_ne_nil (List.cons_ne_nil d x), ← ih]
      split
      · rw [List.getLast?_cons_of_ne_nil (List.cons_ne_nil _ _), List.getLast?_cons_of_ne_nil hne]
      · rw [List.getLast?_cons_of_ne_nil hne]

theorem glue_cons {w : Text} {us vs : List Text} (h : us ≠ []) : glue (w :: us) vs = w :: glue us vs := by
  obtain ⟨u, us, rfl⟩ := List.exists_cons_of_ne_nil h
  rfl

theorem map_glue (f : Char → Char) (us vs : List Text) :
    (glue us vs).map (List.map f) = glue (us.map (List.map f)) (vs.map (List.map f)) := by
  induction us with
  | nil => rfl
  | cons w us ih =>
    by_cases h : us = []
    · subst h
      cases vs with
      | nil => rfl
      | cons v vs => simp [glue]
    · rw [glue_cons h, List.map_cons, ih, List.map_cons, glue_cons (by simpa using h)]

theorem alnumRuns_ne_nil (hc : c.isAlphanum = true) (hx : x.getLast? = some c) : alnumRuns x ≠ [] := by
  induction x using run_induction with
  | nil => cases hx
  | skip d t hd ih =>
    rw [alnumRuns_cons_of_not hd]
    by_cases ht : t = []
    · subst ht
      obtain rfl : d = c := by simpa using hx
      rw [hc] at hd
      cases hd
    · exact ih (by rwa [List.getLast?_cons_of_ne_nil ht] at hx)
  | run w t hw hall hhead ih =>
    rw [alnumRuns_run hall hw hhead]
    exact List.cons_ne_nil _ _

theorem alnumRuns_append_alnum (hc : c.isAlphanum = true) (hx : x.getLast? = some c)
    (hd : d.isAlphanum = true) (hy : y.head? = some d) :
    alnumRuns (x ++ y) = glue (alnumRuns x) (alnumRuns y) := by
  induction x using run_induction with
  | nil => cases hx
  | skip e t he ih =>
    rw [List.cons_append, alnumRuns_cons_of_not he, alnumRuns_cons_of_not he]
    by_cases ht : t = []
    · subst ht
      obtain rfl : e = c := by simpa using hx
      rw [hc] at he
      cases he
    · exact ih (by rwa [List.getLast?_cons_of_ne_nil ht] at hx)
  | run w t hw hall hhead ih =>
    by_cases ht : t = []
    · subst ht
      obtain ⟨t, rfl⟩ := List.head?_eq_some_iff.mp hy
      obtain ⟨v, u, hv, hne, hallv, hu⟩ := exists_run hd t
      have hwv : ∀ c ∈ w ++ v, c.isAlphanum = true := by
        intro c hc
        exact (List.mem_append.mp hc).elim (hall c) (hallv c)
      rw [List.append_nil, hv, alnumRuns_of_alnum hall hw, alnumRuns_run hallv hne hu,
        ← List.append_assoc, alnumRuns_run hwv (List.append_ne_nil_of_left_ne_nil hw v) hu]
      rfl
    · have hlast : t.getLast? = some c := by rwa [List.getLast?_append_of_ne_nil _ ht] at hx
      have hrest : ∀ c ∈ (t ++ y).head?, c.isAlphanum = false := by
        rwa [List.head?_append_of_ne_nil _ ht]
      rw [List.append_assoc, alnumRuns_run hall hw hrest, alnumRuns_run hall hw hhead,
        glue_cons (alnumRuns_ne_nil hc hlast), ih hlast]

variable {separator : Text} {w v : Word × Casing} {ws : List (Word × Casing)}

theorem render_ne_nil (w : Word × Casing) : render w ≠ [] := by
  obtain ⟨c, t, ht⟩ := List.exists_cons_of_ne_nil w.1.nonempty
  unfold render
  rw [ht]
  cases w.2 with
  | lower => exact List.cons_ne_nil c t
  | capital => exact List.cons_ne_nil _ t
  | upper => simp [Casing.apply]

theorem isAlphanum_toUpper {c : Char} (h : c.isAlphanum = true) : c.toUpper.isAlphanum = true := by
  have hall : ∀ n < 128, (Char.ofNat n).isAlphanum = true →
      (Char.ofNat n).toUpper.isAlphanum = true := by
    decide +kernel
  exact ascii_induction (P := fun c => c.isAlphanum = true → c.toUpper.isAlphanum = true) hall
    (isAlphanum_ascii h) h

theorem Word.isAlphanum (w : Word) {c : Char} (h : c ∈ w.text) : c.isAlphanum = true := by
  have hp := w.plain c h
  simp only [Bool.or_eq_true] at hp
  exact isAlphanum_iff.mpr (hp.imp_left .inr)

theorem render_isAlphanum (w : Word × Casing) : ∀ c ∈ render w, c.isAlphanum = true := by
  intro c hc
  have hall := fun c h => w.1.isAlphanum (c := c) h
  unfold render at hc
  cases hw : w.2 with
  | lower =>
    rw [hw] at hc
    exact hall c hc
  | capital =>
    rw [hw] at hc
    cases ht : w.1.text with
    | nil => exact absurd ht w.1.nonempty
    | cons d t =>
      rw [ht] at hc hall
      cases List.mem_cons.mp hc with
      | inl h => exact h ▸ isAlphanum_toUpper (hall d List.mem_cons_self)
      | inr h => exact hall c (List.mem_cons_of_mem d h)
  | upper =>
    rw [hw] at hc
    obtain ⟨d, hd, rfl⟩ := List.mem_map.mp hc
    exact isAlphanum_toUpper (hall d hd)

theorem spell_head? : (spell separator (v :: ws)).head? = (render v).head? := by
  cases ws with
  | nil => rfl
  | cons u ws => exact List.head?_append_of_ne_nil _ (render_ne_nil v)

theorem separator_cases (s : Style) : s.separator = [] ∨ ∃ c, s.separator = [c] ∧ c.isAlphanum = false ∧
      ∀ d, camelBoundary d c = false ∧ camelBoundary c d = false := by
  have hsep {c : Char} (hu : c.isUpper = false) (hl : (c.isLower || c.isDigit) = false) (d : Char) :
      camelBoundary d c = false ∧ camelBoundary c d = false := by
    simp only [camelBoundary, hu, hl, Bool.and_false, Bool.false_and, and_self]
  cases s with
  | snake => exact .inr ⟨'_', rfl, rfl, hsep rfl rfl⟩
  | kebab => exact .inr ⟨'-', rfl, rfl, hsep rfl rfl⟩
  | spaced => exact .inr ⟨' ', rfl, rfl, hsep rfl rfl⟩
  | camel => exact .inl rfl
  | pascal => exact .inl rfl

theorem credentialKeyParts_spell (s : Style) (ws : List (Word × Casing)) :
    credentialKeyParts (spell s.separator ws) = seenWords s.separator ws := by
  rw [credentialKeyParts_eq]
  induction ws with
  | nil => rfl
  | cons w ws ih =>
    cases ws with
    | nil => rfl
    | cons v ws =>
      obtain ⟨c, hc⟩ := Option.ne_none_iff_exists'.mp (mt List.getLast?_eq_none_iff.mp (render_ne_nil w))
      obtain ⟨d, hd⟩ := Option.ne_none_iff_exists'.mp (mt List.head?_eq_none_iff.mp (render_ne_nil v))
      have hhead : (spell s.separator (v :: ws)).head? = some d := by rw [spell_head?, hd]
      have hca := render_isAlphanum w c (List.mem_of_getLast? hc)
      have hda := render_isAlphanum v d (List.mem_of_mem_head? hd)
      unfold seenWords
      rw [← ih]
      obtain hsep | ⟨e, hsep, he, hb⟩ := separator_cases s
      · have hsplit : spell s.separator (w :: v :: ws) = render w ++ spell s.separator (v :: ws) := by
          rw [spell, hsep, List.nil_append]
        have hhid : hidden s.separator w v = !camelBoundary c d := by
          simp [hidden, hsep, hc, hd]
        rw [hsplit, splitCamel_append hc hhead, hhid]
        cases camelBoundary c d with
        | true =>
          rw [if_pos rfl, alnumRuns_append_cons rfl, List.map_append]
          rfl
        | false =>
          rw [if_neg Bool.false_ne_true, alnumRuns_append_alnum hca
            (by rw [splitCamel_getLast?, hc]) hda (by rw [splitCamel_head?, hhead]), map_glue]
          rfl
      · have hsplit : spell s.separator (w :: v :: ws) =
            render w ++ e :: spell s.separator (v :: ws) := by
          rw [spell, hsep, List.singleton_append]
        have hhid : hidden s.separator w v = false := by simp [hidden, hsep]
        rw [hsplit, splitCamel_append hc (d := e) rfl, splitCamel_cons_append hhead, (hb c).1,
          (hb d).2, hhid]
        rw [if_neg Bool.false_ne_true, if_neg Bool.false_ne_true, if_neg Bool.false_ne_true,
          alnumRuns_append_cons he, List.map_append]
        rfl

theorem splitCamel_of_not_upper {x : Text} (h : ∀ c ∈ x.tail, c.isUpper = false) : splitCamel x = x := by
  induction x with
  | nil => rfl
  | cons c x ih =>
    cases x with
    | nil => rfl
    | cons d x =>
      have hd : camelBoundary c d = false := by
        rw [camelBoundary, h d List.mem_cons_self, Bool.and_false]
      rw [splitCamel_cons_append (d := d) rfl, hd, if_neg Bool.false_ne_true,
        ih (fun e he => h e (List.mem_of_mem_tail he))]

theorem plain_cases {c : Char} (h : (c.isLower || c.isDigit) = true) :
    c.isUpper = false ∧ c.toLower = c ∧ c.toUpper.toLower = c := by
  have hall : ∀ n < 128, ((Char.ofNat n).isLower || (Char.ofNat n).isDigit) = true →
      (Char.ofNat n).isUpper = false ∧ (Char.ofNat n).toLower = Char.ofNat n ∧
        (Char.ofNat n).toUpper.toLower = Char.ofNat n := by
    decide +kernel
  have ha : c.isAlphanum = true := by
    simp only [Bool.or_eq_true] at h
    exact isAlphanum_iff.mpr (h.imp_left .inr)
  exact ascii_induction (P := fun c => (c.isLower || c.isDigit) = true →
    c.isUpper = false ∧ c.toLower = c ∧ c.toUpper.toLower = c) hall (isAlphanum_ascii ha) h

theorem map_toLower_plain {t : Text} (h : ∀ c ∈ t, (c.isLower || c.isDigit) = true) :
    t.map Char.toLower = t := by
  conv_rhs => rw [← List.map_id t]
  exact List.map_congr_left (fun c hc => (plain_cases (h c hc)).2.1)

theorem pieces_of_ne_upper (w : Word) {casing : Casing} (h : casing ≠ .upper) :
    pieces (w, casing) = [w.text] := by
  obtain ⟨c, t, ht⟩ := List.exists_cons_of_ne_nil w.nonempty
  have hplain := w.plain
  rw [ht] at hplain
  have htail : ∀ d ∈ t, d.isUpper = false :=
    fun d hd => (plain_cases (hplain d (List.mem_cons_of_mem c hd))).1
  have hlower := map_toLower_plain (fun d hd => hplain d (List.mem_cons_of_mem c hd))
  have hall := render_isAlphanum (w, casing)
  have hrender : ∃ d, render (w, casing) = d :: t ∧ d.toLower = c := by
    cases casing with
    | lower => exact ⟨c, ht, (plain_cases (hplain c List.mem_cons_self)).2.1⟩
    | capital =>
      refine ⟨c.toUpper, ?_, (plain_cases (hplain c List.mem_cons_self)).2.2⟩
      rw [render, ht]
      rfl
    | upper => exact absurd rfl h
  obtain ⟨d, hr, hd⟩ := hrender
  rw [hr] at hall
  rw [pieces, hr, splitCamel_of_not_upper (x := d :: t) htail, alnumRuns_of_alnum hall (List.cons_ne_nil d t),
    List.map_singleton, List.map_cons, hd, hlower, ht]

theorem seenWords_of_visible (hp : ∀ w ∈ ws, pieces w = [w.1.text])
    (hv : ws.IsChain (fun w v => hidden separator w v = false)) :
    seenWords separator ws = ws.map (fun w => w.1.text) := by
  induction ws with
  | nil => rfl
  | cons w ws ih =>
    have hw := hp w List.mem_cons_self
    cases ws with
    | nil => rw [seenWords, hw]; rfl
    | cons v ws =>
      obtain ⟨hwv, hrest⟩ := List.isChain_cons_cons.mp hv
      rw [seenWords, hwv, if_neg Bool.false_ne_true, hw,
        ih (fun u hu => hp u (List.mem_cons_of_mem w hu)) hrest]
      rfl

def Spelling.snake (s : Spelling) : Spelling where
  style := .snake
  words := s.words.map (fun w => (w.1, .lower))
  nonempty := by simpa using s.nonempty
  wellCased := trivial

variable (s : Spelling)

theorem snake_seen : s.snake.seen = s.name := by
  have hp : ∀ w ∈ s.snake.words, pieces w = [w.1.text] := by
    intro w hw
    obtain ⟨v, -, rfl⟩ := List.mem_map.mp hw
    exact pieces_of_ne_upper v.1 (by decide)
  have hv : s.snake.words.IsChain (fun w v => hidden Style.snake.separator w v = false) :=
    List.isChain_iff_forall_rel_of_append_cons_cons.mpr
      (fun w v _ _ _ => by simp [hidden, Style.separator])
  rw [Spelling.seen, show s.snake.style = .snake from rfl, seenWords_of_visible hp hv]
  simp [Spelling.snake, Spelling.name]

theorem isCredentialKey_key : isCredentialKey s.key = formsCredential s.seen := by
  rw [isCredentialKey_eq, Spelling.key, credentialKeyParts_spell]
  rfl

theorem isCredentialKey_snake : isCredentialKey s.snake.key = formsCredential s.name := by
  rw [isCredentialKey_key, snake_seen]

end Kirara.KeySpellings
