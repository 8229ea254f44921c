import Kirara.DottedNumbers

namespace Kirara.Pep440

open Kirara.Channels Kirara.DottedNumbers

inductive Phase where
  | alpha
  | beta
  | candidate
  deriving DecidableEq

inductive Segment where
  | number (n : Nat)
  | text (t : Text)
  deriving DecidableEq

structure Version where
  epoch : Nat
  release : List Nat
  pre : Option (Phase × Nat)
  post : Option Nat
  dev : Option Nat
  localLabel : List Segment
  deriving DecidableEq

def Phase.rank : Phase → Nat
  | .alpha => 1
  | .beta => 2
  | .candidate => 3

/-- A development release of the release itself stands below its pre-releases. -/
def Version.preKey (v : Version) : List Nat :=
  match v.pre with
  | some (phase, n) => [phase.rank, n]
  | none => if v.post = none ∧ v.dev ≠ none then [0] else [4]

def Version.postKey (v : Version) : List Nat := v.post.toList

def Version.devKey (v : Version) : List Nat :=
  match v.dev with
  | some n => [0, n]
  | none => [1]

def Segment.key : Segment → List Nat
  | .number n => [1, n]
  | .text t => 0 :: t.map Char.toNat

def Version.key (v : Version) : List (List Nat) :=
  [v.epoch] :: trimZeros v.release :: v.preKey :: v.postKey :: v.devKey :: v.localLabel.map Segment.key

/-- A pre-release or a development release of the release itself. -/
def Version.Early (v : Version) : Prop := v.pre ≠ none ∨ v.post = none ∧ v.dev ≠ none

section Grammar

def isSeparator (c : Char) : Bool := c = '-' || c = '_' || c = '.'

def dropSeparator : Text → Text
  | [] => []
  | c :: cs => if isSeparator c then cs else c :: cs

def preLabels : List (Text × Phase) :=
  [("alpha".toList, .alpha), ("a".toList, .alpha), ("beta".toList, .beta), ("b".toList, .beta),
    ("preview".toList, .candidate), ("pre".toList, .candidate), ("c".toList, .candidate), ("rc".toList, .candidate)]

def postLabels : List (Text × Unit) := [("post".toList, ()), ("rev".toList, ()), ("r".toList, ())]

def devLabels : List (Text × Unit) := [("dev".toList, ())]

variable {β : Type}

def readLabel (labels : List (Text × β)) (t : Text) : Option (β × Text) :=
  labels.findSome? (fun l => if l.1.isPrefixOf t then some (l.2, t.drop l.1.length) else none)

def readPart (labels : List (Text × β)) (t : Text) : Option (β × Nat) × Text :=
  match readLabel labels (dropSeparator t) with
  | none => (none, t)
  | some (b, rest) =>
    let rest := dropSeparator rest
    (some (b, decimal (rest.takeWhile Char.isDigit)), rest.dropWhile Char.isDigit)

/-- A number after a dash alone is a post-release as well. -/
def readPost (t : Text) : Option Nat × Text :=
  let number := (t.drop 1).takeWhile Char.isDigit
  if t.head? = some '-' ∧ number ≠ [] then (some (decimal number), (t.drop 1).dropWhile Char.isDigit)
  else ((readPart postLabels t).1.map Prod.snd, (readPart postLabels t).2)

structure Suffix where
  pre : Option (Phase × Nat)
  post : Option Nat
  dev : Option Nat
  deriving DecidableEq

def readSuffix (t : Text) : Option Suffix :=
  let (pre, t) := readPart preLabels t
  let (post, t) := readPost t
  let (dev, t) := readPart devLabels t
  if t = [] then some ⟨pre, post, dev.map Prod.snd⟩ else none

def segment (t : Text) : Segment := if t.all Char.isDigit then .number (decimal t) else .text t

def readLocal : Option Text → Option (List Segment)
  | none => some []
  | some t =>
    let parts := t.splitOnP isSeparator
    if parts.all (fun p => p ≠ [] && p.all Char.isAlphanum) then some (parts.map segment) else none

def readEpoch (t : Text) : Option (Nat × Text) :=
  match cut '!' t with
  | (_, none) => some (0, t)
  | (e, some rest) => if e ≠ [] && e.all Char.isDigit then some (decimal e, rest) else none

def isReleaseChar (c : Char) : Bool := c.isDigit || c = '.'

/-- The digits and dots at the start. A last dot belongs to what follows. -/
def releaseText (t : Text) : Text :=
  let digits := t.takeWhile isReleaseChar
  if digits.getLast? = some '.' then digits.dropLast else digits

def readRelease (t : Text) : Option (List Nat × Text) :=
  if [] ∈ (releaseText t).splitOn '.' then none
  else some (dotted (releaseText t), t.drop (releaseText t).length)

/-- The text without white space and without the letter that may come first, in lower case. -/
def normalized (t : Text) : Text :=
  let t := (strip t).map Char.toLower
  if t.head? = some 'v' then t.drop 1 else t

def parse (t : Text) : Option Version := do
  let parts := cut '+' (normalized t)
  let (epoch, rest) ← readEpoch parts.1
  let (release, suffix) ← readRelease rest
  let s ← readSuffix suffix
  let localLabel ← readLocal parts.2
  return ⟨epoch, release, s.pre, s.post, s.dev, localLabel⟩

/-- Both are versions, and the first one is the newer. -/
def Newer (t u : Text) : Prop := ∃ v w, parse t = some v ∧ parse u = some w ∧ w.key < v.key

/-- Whether `t <= u` holds, and nothing where one of them is no version. -/
def notNewer (t u : Text) : Option Bool := do
  let v ← parse t
  let w ← parse u
  return !decide (w.key < v.key)

end Grammar

example : (parse " V1!2.0.RC-3.post4.dev+Ubuntu_1 ".toList) =
    some ⟨1, [2, 0], some (.candidate, 3), some 4, some 0, [.text "ubuntu".toList, .number 1]⟩ := by decide

example : (parse "1.0.0--1".toList) = none ∧ (parse "1.0.0-".toList) = none ∧ (parse "1..0".toList) = none ∧
  (parse "1.0.0-x".toList) = none := by decide

example : Newer "1.0.0-1".toList "1.0.0+2".toList := ⟨_, _, rfl, rfl, by decide⟩

section Order

variable {t u x : Text} {v w : Version}

theorem Newer.trans (h : Newer t u) (k : Newer u x) : Newer t x := by
  obtain ⟨v, w, hv, hw, hwv⟩ := h
  obtain ⟨w', y, hw', hy, hyw⟩ := k
  cases hw.symm.trans hw'
  exact ⟨v, y, hv, hy, hyw.trans hwv⟩

theorem notNewer_eq_false_iff : notNewer t u = some false ↔ Newer t u := by
  unfold notNewer
  constructor
  · intro h
    obtain ⟨v, hv, h⟩ := Option.bind_eq_some_iff.mp h
    obtain ⟨w, hw, h⟩ := Option.bind_eq_some_iff.mp h
    have hlt : decide (w.key < v.key) = true := by simpa using h
    exact ⟨v, w, hv, hw, of_decide_eq_true hlt⟩
  · intro ⟨v, w, hv, hw, hlt⟩
    rw [hv, hw]
    simp [hlt]

theorem key_lt_of_pre (he : v.epoch = w.epoch) (hr : trimZeros v.release = trimZeros w.release)
    (h : v.preKey < w.preKey) : v.key < w.key := by
  rw [Version.key, Version.key, he, hr]
  exact .cons (.cons (.rel h))

theorem preKey_of_early (h : v.Early) : v.preKey < [4] := by
  unfold Version.preKey
  cases hp : v.pre with
  | none =>
    obtain ⟨hpost, hdev⟩ := h.resolve_left (fun hne => hne hp)
    rw [if_pos ⟨hpost, hdev⟩]
    decide
  | some p =>
    obtain ⟨phase, n⟩ := p
    exact .rel (by cases phase <;> decide)

theorem not_newer_of_early (ht : parse t = some v) (hu : parse u = some w) (he : v.epoch = w.epoch)
    (hr : trimZeros v.release = trimZeros w.release) (hearly : v.Early)
    (hfinal : w.pre = none ∧ w.post = none ∧ w.dev = none) : ¬ Newer t u := by
  intro ⟨v', w', hv', hw', hlt⟩
  cases ht.symm.trans hv'
  cases hu.symm.trans hw'
  have hpre : w.preKey = [4] := by simp [Version.preKey, hfinal]
  exact lt_asymm hlt (key_lt_of_pre he hr (hpre ▸ preKey_of_early hearly))

theorem newer_of_release_ne (ht : parse t = some v) (hu : parse u = some w) (he : v.epoch = w.epoch)
    (hlen : v.release.length = w.release.length) (hne : w.release ≠ v.release) :
    Newer t u ↔ w.release < v.release := by
  have hkey : w.key < v.key ↔ trimZeros w.release < trimZeros v.release := by
    have htrim : trimZeros w.release ≠ trimZeros v.release := fun h => hne ((trimZeros_eq_iff hlen.symm).mp h)
    rw [Version.key, Version.key, he, List.cons_lt_cons_self, List.cons_lt_cons_iff]
    exact or_iff_left (fun h => htrim h.1)
  rw [← trimZeros_lt_iff hlen.symm, ← hkey]
  refine ⟨fun ⟨v', w', hv', hw', hlt⟩ => ?_, fun hlt => ⟨v, w, ht, hu, hlt⟩⟩
  cases ht.symm.trans hv'
  cases hu.symm.trans hw'
  exact hlt

end Order

variable {β : Type} {t core tail : Text} {c : Char}

def Foreign (c : Char) : Prop := 128 ≤ c.toNat

theorem not_digit_of_foreign (h : Foreign c) : c.isDigit = false := by
  rw [← Bool.not_eq_true]
  intro hd
  rw [Char.isDigit, Bool.and_eq_true, decide_eq_true_eq, decide_eq_true_eq] at hd
  have hle : c.toNat ≤ 57 := UInt32.le_iff_toNat_le.mp hd.2
  exact absurd (Nat.le_trans h hle) (by decide)

theorem not_separator_of_foreign (h : Foreign c) : isSeparator c = false := by
  rw [← Bool.not_eq_true]
  intro hs
  simp only [isSeparator, Bool.or_eq_true, decide_eq_true_eq] at hs
  unfold Foreign at h
  obtain (rfl | rfl) | rfl := hs
  all_goals exact absurd h (by decide)

variable {labels : List (Text × β)}

theorem readLabel_foreign (hl : ∀ l ∈ labels, ∃ d ds, l.1 = d :: ds ∧ d.toNat < 128)
    (h : Foreign c) (t : Text) : readLabel labels (c :: t) = none := by
  refine List.findSome?_eq_none_iff.mpr (fun l hmem => if_neg (fun hp => ?_))
  obtain ⟨d, ds, hd, hascii⟩ := hl l hmem
  rw [hd, List.isPrefixOf_cons_cons, Bool.and_eq_true, beq_iff_eq] at hp
  rw [hp.1] at hascii
  exact Nat.lt_irrefl _ (Nat.lt_of_lt_of_le hascii h)

theorem readPart_stuck (h : readLabel labels (dropSeparator t) = none) : readPart labels t = (none, t) := by
  rw [readPart, h]

theorem readPost_stuck (hdash : t.head? ≠ some '-') (h : readLabel postLabels (dropSeparator t) = none) :
    readPost t = (none, t) := by
  rw [readPost, if_neg (fun hp => hdash hp.1), readPart_stuck h]
  rfl

theorem readSuffix_stuck (ht : t ≠ []) (hdash : t.head? ≠ some '-')
    (hpre : readLabel preLabels (dropSeparator t) = none) (hpost : readLabel postLabels (dropSeparator t) = none)
    (hdev : readLabel devLabels (dropSeparator t) = none) : readSuffix t = none := by
  rw [readSuffix, readPart_stuck hpre]
  dsimp only
  rw [readPost_stuck hdash hpost]
  dsimp only
  rw [readPart_stuck hdev]
  exact if_neg ht

theorem preLabels_ascii : ∀ l ∈ preLabels, ∃ d ds, l.1 = d :: ds ∧ d.toNat < 128 := by
  simp [preLabels]

theorem postLabels_ascii : ∀ l ∈ postLabels, ∃ d ds, l.1 = d :: ds ∧ d.toNat < 128 := by
  simp [postLabels]

theorem devLabels_ascii : ∀ l ∈ devLabels, ∃ d ds, l.1 = d :: ds ∧ d.toNat < 128 := by
  simp [devLabels]

theorem readSuffix_foreign (h : Foreign c) (hdrop : dropSeparator t = c :: tail) (hdash : t.head? ≠ some '-') :
    readSuffix t = none := by
  have hne : t ≠ [] := fun he => by
    rw [he] at hdrop
    cases hdrop
  refine readSuffix_stuck hne hdash ?_ ?_ ?_
  all_goals rw [hdrop]
  · exact readLabel_foreign preLabels_ascii h tail
  · exact readLabel_foreign postLabels_ascii h tail
  · exact readLabel_foreign devLabels_ascii h tail

/-- What a release before a dash, or at the end of the text, can be read from. -/
structure Core (core : Text) : Prop where
  digits : ∀ c ∈ core, c.isDigit = true ∨ c = '.' ∨ Foreign c
  first : ∃ d ds, core = d :: ds ∧ d.isDigit = true
  last : core.getLast? ≠ some '.'

theorem releaseText_of_digits (hcore : Core core) (hall : ∀ c ∈ core, isReleaseChar c = true)
    (htail : tail = [] ∨ tail.head? = some '-') : releaseText (core ++ tail) = core := by
  have htake : (core ++ tail).takeWhile isReleaseChar = core := by
    rw [List.takeWhile_append_of_pos hall]
    cases tail with
    | nil => exact List.append_nil core
    | cons c tail =>
      have hc : c = '-' := Option.some.inj (htail.resolve_left (List.cons_ne_nil c tail))
      rw [List.takeWhile_cons_of_neg (by rw [hc]; decide), List.append_nil]
  rw [releaseText, htake]
  exact if_neg hcore.last

theorem readSuffix_of_foreign (front back : Text) (hfront : ∀ c ∈ front, isReleaseChar c = true) (h : Foreign c) :
    readSuffix ((front ++ c :: back).drop (releaseText (front ++ c :: back)).length) = none := by
  have hstop : ¬ isReleaseChar c = true := by
    have hsep := not_separator_of_foreign h
    simp only [isSeparator, Bool.or_eq_false_iff] at hsep
    simp [isReleaseChar, not_digit_of_foreign h, hsep.2]
  have htake : (front ++ c :: back).takeWhile isReleaseChar = front := by
    rw [List.takeWhile_append_of_pos hfront, List.takeWhile_cons_of_neg hstop, List.append_nil]
  have hdash : c ≠ '-' := fun he => by
    rw [he] at h
    exact absurd h (by unfold Foreign; decide)
  rw [releaseText, htake]
  split
  · next hdot =>
    obtain ⟨init, rfl⟩ := List.getLast?_eq_some_iff.mp hdot
    have hdot : dropSeparator (['.'] ++ c :: back) = c :: back := rfl
    rw [List.dropLast_concat, List.append_assoc, List.drop_left]
    exact readSuffix_foreign h hdot (by simp)
  · have hsame : dropSeparator (c :: back) = c :: back := if_neg (by simp [not_separator_of_foreign h])
    rw [List.drop_left]
    exact readSuffix_foreign h hsame (by simpa using hdash)

variable {suffix : Text} {r : List Nat}

theorem readRelease_eq (h : readRelease t = some (r, suffix)) :
    r = dotted (releaseText t) ∧ suffix = t.drop (releaseText t).length := by
  unfold readRelease at h
  split at h
  · cases h
  · cases h
    exact ⟨rfl, rfl⟩

theorem digits_of_readRelease (hcore : Core core) {s : Suffix}
    (hr : readRelease (core ++ tail) = some (r, suffix)) (hs : readSuffix suffix = some s) :
    ∀ c ∈ core, isReleaseChar c = true := by
  by_contra hall
  -- the first character that is no digit and no dot stops the release, and no suffix starts with it
  have hdrop : core.dropWhile isReleaseChar ≠ [] := fun he => hall (List.dropWhile_eq_nil_iff.mp he)
  obtain ⟨c, back, hback⟩ := List.exists_cons_of_ne_nil hdrop
  have hcut : core.takeWhile isReleaseChar ++ c :: back = core := by
    rw [← hback]
    exact List.takeWhile_append_dropWhile
  have hc : isReleaseChar c = false := by
    have hhead := List.head?_dropWhile_not isReleaseChar core
    rw [hback] at hhead
    exact hhead
  have hmem : c ∈ core := hcut ▸ List.mem_append_right _ List.mem_cons_self
  have hforeign : Foreign c := by
    simp only [isReleaseChar, Bool.or_eq_false_iff, decide_eq_false_iff_not] at hc
    exact ((hcore.digits c hmem).resolve_left (by simp [hc.1])).resolve_left hc.2
  have hnone := readSuffix_of_foreign (core.takeWhile isReleaseChar) (back ++ tail)
    (fun d hd => List.mem_takeWhile_imp hd) hforeign
  have htext : core.takeWhile isReleaseChar ++ c :: (back ++ tail) = core ++ tail := by
    rw [← List.cons_append, ← List.append_assoc, hcut]
  rw [htext, ← (readRelease_eq hr).2, hs] at hnone
  cases hnone

theorem readRelease_of_core (hcore : Core core) (htail : tail = [] ∨ tail.head? = some '-')
    {s : Suffix} (hr : readRelease (core ++ tail) = some (r, suffix)) (hs : readSuffix suffix = some s) :
    r = dotted core ∧ suffix = tail := by
  have hsplit := readRelease_eq hr
  rw [releaseText_of_digits hcore (digits_of_readRelease hcore hr hs) htail, List.drop_left] at hsplit
  exact hsplit

theorem toLower_cases (c : Char) : c.toLower = c ∨ c.isAlpha = true ∧ c.toLower.isAlpha = true := by
  by_cases h : c.toNat < 128
  · have hall : ∀ n < 128, (Char.ofNat n).toLower = Char.ofNat n ∨
        (Char.ofNat n).isAlpha = true ∧ (Char.ofNat n).toLower.isAlpha = true := by
      decide +kernel
    exact ascii_induction (P := fun c => c.toLower = c ∨ c.isAlpha = true ∧ c.toLower.isAlpha = true) hall h
  · refine .inl (dif_neg (fun hc => h ?_))
    have hle : c.toNat ≤ 90 := UInt32.le_iff_toNat_le.mp hc.2
    exact Nat.lt_of_le_of_lt hle (by decide)

theorem toLower_eq_iff {d : Char} (hd : d.isAlpha = false) (c : Char) : c.toLower = d ↔ c = d := by
  cases toLower_cases c with
  | inl h => rw [h]
  | inr h =>
    constructor
    · intro he
      rw [he, hd] at h
      exact absurd h.2 Bool.false_ne_true
    · intro he
      rw [he, hd] at h
      exact absurd h.1 Bool.false_ne_true

theorem not_alpha_of_digit (h : c.isDigit = true) : c.isAlpha = false := by
  have hall : ∀ n < 128, (Char.ofNat n).isDigit = true → (Char.ofNat n).isAlpha = false := by decide +kernel
  exact ascii_induction (P := fun c => c.isDigit = true → c.isAlpha = false) hall
    (isAlphanum_ascii (by simp [Char.isAlphanum, h])) h

theorem Core.not_alpha (hcore : Core core) (hc : c ∈ core) : c.isAlpha = false := by
  cases hcore.digits c hc with
  | inl hd => exact not_alpha_of_digit hd
  | inr h =>
    rw [← Bool.not_eq_true]
    intro ha
    cases h with
    | inl he => exact absurd (he ▸ ha) (by decide)
    | inr hf =>
      have hascii : c.toNat < 128 := isAlphanum_ascii (by simp [Char.isAlphanum, ha])
      exact Nat.lt_irrefl _ (Nat.lt_of_lt_of_le hascii hf)

theorem toLower_of_core (hcore : Core core) : core.map Char.toLower = core := by
  have hsame : core.map Char.toLower = core.map id :=
    List.map_congr_left (fun c hc => (toLower_eq_iff (hcore.not_alpha hc) c).mpr rfl)
  rw [hsame, List.map_id]

theorem normalized_of_core (hstrip : strip t = t) (hcore : Core core) {rest : Text} (ht : t = core ++ rest) :
    normalized t = t.map Char.toLower := by
  obtain ⟨d, ds, hfirst, hd⟩ := hcore.first
  have hmem : d ∈ core := hfirst ▸ List.mem_cons_self
  have hhead : (t.map Char.toLower).head? = some d := by
    rw [ht, List.map_append, toLower_of_core hcore, hfirst]
    rfl
  rw [normalized, hstrip, hhead]
  exact if_neg (fun he => by
    rw [Option.some.inj he] at hd
    exact absurd hd (by decide))

variable {v : Version}

theorem parts_of_core (hstrip : strip t = t) (hcut : (cut '+' t).1 = core ++ tail)
    (hcore : Core core) (hbang : '!' ∉ core ++ tail) (h : parse t = some v) :
    v.epoch = 0 ∧ (∃ suffix, readRelease (core ++ tail.map Char.toLower) = some (v.release, suffix) ∧
      readSuffix suffix = some ⟨v.pre, v.post, v.dev⟩) ∧
      readLocal ((cut '+' t).2.map (List.map Char.toLower)) = some v.localLabel := by
  have ht : ∃ rest, t = core ++ rest := by
    cases cut_eq '+' t with
    | inl hnone => exact ⟨tail, by rw [← hcut, hnone.1]⟩
    | inr hsome =>
      obtain ⟨s, r, hs, _, hpair⟩ := hsome
      exact ⟨tail ++ '+' :: r, by rw [← List.append_assoc, ← hcut, hpair, hs]⟩
  obtain ⟨rest, ht⟩ := ht
  have hparts : cut '+' (normalized t) =
      (core ++ tail.map Char.toLower, (cut '+' t).2.map (List.map Char.toLower)) := by
    rw [normalized_of_core hstrip hcore ht, cut_map (toLower_eq_iff (by decide)), hcut, List.map_append,
      toLower_of_core hcore]
  have hepoch : readEpoch (core ++ tail.map Char.toLower) = some (0, core ++ tail.map Char.toLower) := by
    have hnone : '!' ∉ core ++ tail.map Char.toLower := by
      intro hm
      rw [← toLower_of_core hcore, ← List.map_append] at hm
      obtain ⟨c, hc, he⟩ := List.mem_map.mp hm
      exact hbang ((toLower_eq_iff (by decide) c).mp he ▸ hc)
    rw [readEpoch, cut_of_not_mem hnone]
  unfold parse at h
  dsimp only at h
  rw [hparts, hepoch] at h
  obtain ⟨epoch, hread, h⟩ := Option.bind_eq_some_iff.mp h
  cases hread
  obtain ⟨⟨release, suffix⟩, hrelease, h⟩ := Option.bind_eq_some_iff.mp h
  obtain ⟨s, hsuffix, h⟩ := Option.bind_eq_some_iff.mp h
  obtain ⟨localLabel, hlocal, h⟩ := Option.bind_eq_some_iff.mp h
  cases h
  exact ⟨rfl, ⟨suffix, hrelease, hsuffix⟩, hlocal⟩

theorem parse_of_core (hstrip : strip t = t) (hcut : (cut '+' t).1 = core ++ tail)
    (hcore : Core core) (htail : tail = [] ∨ tail.head? = some '-') (hbang : '!' ∉ core ++ tail)
    (h : parse t = some v) :
    v.epoch = 0 ∧ v.release = dotted core ∧ readSuffix (tail.map Char.toLower) = some ⟨v.pre, v.post, v.dev⟩ ∧
      readLocal ((cut '+' t).2.map (List.map Char.toLower)) = some v.localLabel := by
  obtain ⟨hepoch, ⟨suffix, hrelease, hsuffix⟩, hlocal⟩ := parts_of_core hstrip hcut hcore hbang h
  have htail' : tail.map Char.toLower = [] ∨ (tail.map Char.toLower).head? = some '-' := by
    cases htail with
    | inl hnil => exact .inl (by rw [hnil]; rfl)
    | inr hdash => exact .inr (by rw [List.head?_map, hdash]; rfl)
  obtain ⟨hr, he⟩ := readRelease_of_core hcore htail' hrelease hsuffix
  exact ⟨hepoch, hr, he ▸ hsuffix, hlocal⟩

theorem digits_of_core (hstrip : strip t = t) (hcut : (cut '+' t).1 = core ++ tail)
    (hcore : Core core) (hbang : '!' ∉ core ++ tail) (h : parse t = some v) : ∀ c ∈ core, isReleaseChar c = true := by
  obtain ⟨_, ⟨suffix, hrelease, hsuffix⟩, _⟩ := parts_of_core hstrip hcut hcore hbang h
  exact digits_of_readRelease hcore hrelease hsuffix

theorem readPart_eq_none (h : (readPart labels t).1 = none) : (readPart labels t).2 = t := by
  unfold readPart at h ⊢
  cases hl : readLabel labels (dropSeparator t) with
  | none => rfl
  | some p =>
    rw [hl] at h
    cases h

theorem readPost_eq_none (h : (readPost t).1 = none) : (readPost t).2 = t := by
  unfold readPost at h ⊢
  dsimp only at h ⊢
  split at h
  · cases h
  · next hdash =>
    rw [if_neg hdash]
    exact readPart_eq_none (Option.map_eq_none_iff.mp h)

theorem readSuffix_eq_none (h : readSuffix t = some ⟨none, none, none⟩) : t = [] := by
  unfold readSuffix at h
  dsimp only at h
  split at h
  · next hnil =>
    obtain ⟨hpre, hpost, hdev⟩ := Suffix.mk.inj (Option.some.inj h)
    have hdev := readPart_eq_none (Option.map_eq_none_iff.mp hdev)
    rw [hdev, readPost_eq_none hpost, readPart_eq_none hpre] at hnil
    exact hnil
  · cases h

theorem readLocal_eq_nil {o : Option Text} (h : readLocal o = some []) : o = none := by
  cases o with
  | none => rfl
  | some t =>
    rw [readLocal] at h
    split at h
    · exact absurd (List.map_eq_nil_iff.mp (Option.some.inj h)) (List.splitOnP_ne_nil isSeparator t)
    · cases h

def Phase.label : Phase → Text
  | .alpha => "alpha".toList
  | .beta => "beta".toList
  | .candidate => "rc".toList

theorem readSuffix_nil : readSuffix [] = some ⟨none, none, none⟩ := rfl

theorem readSuffix_label (phase : Phase) {digits : Text} (hd : ∀ c ∈ digits, c.isDigit = true) :
    readSuffix ('-' :: (phase.label ++ '.' :: digits)) = some ⟨some (phase, decimal digits), none, none⟩ := by
  have hlabel : readLabel preLabels (phase.label ++ '.' :: digits) = some (phase, '.' :: digits) := by
    cases phase <;> rfl
  have hpart : readPart preLabels ('-' :: (phase.label ++ '.' :: digits)) = (some (phase, decimal digits), []) := by
    have hdash : dropSeparator ('-' :: (phase.label ++ '.' :: digits)) = phase.label ++ '.' :: digits := rfl
    have hdot : dropSeparator ('.' :: digits) = digits := rfl
    rw [readPart, hdash, hlabel]
    dsimp only
    rw [hdot, List.takeWhile_eq_self_iff.mpr hd, List.dropWhile_eq_nil_iff.mpr hd]
  rw [readSuffix, hpart]
  rfl

end Kirara.Pep440
