import Kirara.Pep440

namespace Kirara.PrintedVersions

open Kirara.Channels Kirara.DottedNumbers Kirara.Pep440

def number (n : Nat) : Text := Nat.toDigits 10 n

def letter : Phase → Text
  | .alpha => ['a']
  | .beta => ['b']
  | .candidate => ['r', 'c']

def segmentText : Segment → Text
  | .number n => number n
  | .text t => t

def epochText (epoch : Nat) : Text := if epoch = 0 then [] else number epoch ++ ['!']

def preText : Option (Phase × Nat) → Text
  | none => []
  | some (phase, n) => letter phase ++ number n

def postText : Option Nat → Text
  | none => []
  | some n => ".post".toList ++ number n

def devText : Option Nat → Text
  | none => []
  | some n => ".dev".toList ++ number n

def localText (segments : List Segment) : Text :=
  if segments = [] then [] else '+' :: ['.'].intercalate (segments.map segmentText)

def releaseText (release : List Nat) : Text := ['.'].intercalate (release.map number)

def publicText (v : Version) : Text :=
  epochText v.epoch ++ releaseText v.release ++ preText v.pre ++ postText v.post ++ devText v.dev

/-- `str` of a version, its normal form. -/
def text (v : Version) : Text := publicText v ++ localText v.localLabel

example : (parse "v1!2.00-RC_3.post4+Ubuntu-01".toList).map text = some "1!2.0rc3.post4+ubuntu.1".toList := by decide

def Lower : Segment → Prop
  | .number _ => True
  | .text t => t ≠ [] ∧ (∀ c ∈ t, c.isAlphanum = true ∧ c.toLower = c) ∧ t.all Char.isDigit = false

structure WellFormed (v : Version) : Prop where
  release : v.release ≠ []
  segments : ∀ s ∈ v.localLabel, Lower s

/-- Three numbers and, at most, a local label. -/
structure Plain (v : Version) : Prop where
  epoch : v.epoch = 0
  three : v.release.length = 3
  pre : v.pre = none
  post : v.post = none
  dev : v.dev = none

theorem decimal_number (n : Nat) : decimal (number n) = n := Nat.ofDigitChars_ten_toDigits

theorem number_ne_nil (n : Nat) : number n ≠ [] := Nat.toDigits_ne_nil

theorem isDigit_of_mem_number {n : Nat} {c : Char} (h : c ∈ number n) : c.isDigit = true :=
  Nat.isDigit_of_mem_toDigits (by decide) (by decide) h

theorem digit_legible {c : Char} (h : c.isDigit = true) : isSpace c = false ∧ c.toLower = c ∧ isSeparator c = false ∧
    c ≠ '.' ∧ c ≠ '+' ∧ c ≠ '-' ∧ c ≠ '!' ∧ c ≠ 'v' := by
  have hall : ∀ n < 128, (Char.ofNat n).isDigit = true → isSpace (Char.ofNat n) = false ∧
      (Char.ofNat n).toLower = Char.ofNat n ∧ isSeparator (Char.ofNat n) = false ∧ Char.ofNat n ≠ '.' ∧
      Char.ofNat n ≠ '+' ∧ Char.ofNat n ≠ '-' ∧ Char.ofNat n ≠ '!' ∧ Char.ofNat n ≠ 'v' := by
    decide +kernel
  exact ascii_induction (P := fun c => c.isDigit = true → isSpace c = false ∧ c.toLower = c ∧ isSeparator c = false ∧
    c ≠ '.' ∧ c ≠ '+' ∧ c ≠ '-' ∧ c ≠ '!' ∧ c ≠ 'v') hall (isAlphanum_ascii (by simp [Char.isAlphanum, h])) h

theorem alphanum_legible {c : Char} (h : c.isAlphanum = true) : isSpace c = false ∧ isSeparator c = false ∧
    c ≠ '.' ∧ c ≠ '+' := by
  have hall : ∀ n < 128, (Char.ofNat n).isAlphanum = true → isSpace (Char.ofNat n) = false ∧
      isSeparator (Char.ofNat n) = false ∧ Char.ofNat n ≠ '.' ∧ Char.ofNat n ≠ '+' := by
    decide +kernel
  exact ascii_induction (P := fun c => c.isAlphanum = true → isSpace c = false ∧ isSeparator c = false ∧
    c ≠ '.' ∧ c ≠ '+') hall (isAlphanum_ascii h) h

theorem number_head {n : Nat} (h : 0 < n) : ∃ c cs, number n = c :: cs ∧ '1' ≤ c ∧ c ≤ '9' := by
  induction n using Nat.strongRecOn with
  | ind n ih =>
    by_cases hlt : n < 10
    · have hdigits : ∀ m < 10, 0 < m → '1' ≤ m.digitChar ∧ m.digitChar ≤ '9' := by decide
      exact ⟨n.digitChar, [], Nat.toDigits_of_lt_base hlt, hdigits n hlt h⟩
    · obtain ⟨c, cs, hc, hle, hge⟩ := ih (n / 10) (by omega) (by omega)
      refine ⟨c, cs ++ [(n % 10).digitChar], ?_, hle, hge⟩
      rw [number, Nat.toDigits_of_base_le (by decide) (by omega)]
      change number (n / 10) ++ _ = _
      rw [hc]
      rfl

theorem digitChar_of_isDigit {c : Char} (h : c.isDigit = true) : c.toNat - 48 < 10 ∧ (c.toNat - 48).digitChar = c := by
  have hall : ∀ n < 128, (Char.ofNat n).isDigit = true → (Char.ofNat n).toNat - 48 < 10 ∧
      ((Char.ofNat n).toNat - 48).digitChar = Char.ofNat n := by
    decide +kernel
  exact ascii_induction (P := fun c => c.isDigit = true → c.toNat - 48 < 10 ∧ (c.toNat - 48).digitChar = c) hall
    (isAlphanum_ascii (by simp [Char.isAlphanum, h])) h

theorem number_decimal {t : Text} (ht : ∀ c ∈ t, c.isDigit = true) (hhead : ∃ c cs, t = c :: cs ∧ '1' ≤ c) :
    number (decimal t) = t := by
  induction t using List.reverseRecOn with
  | nil =>
    obtain ⟨c, cs, h, _⟩ := hhead
    cases h
  | append_singleton init c ih =>
    obtain ⟨hlt, hc⟩ := digitChar_of_isDigit (ht c (by simp))
    have hsum : decimal (init ++ [c]) = 10 * decimal init + (c.toNat - 48) := by
      rw [decimal, List.foldl_append]
      rfl
    cases init with
    | nil =>
      rw [hsum]
      change number (10 * 0 + (c.toNat - 48)) = [c]
      rw [Nat.mul_zero, Nat.zero_add, number, Nat.toDigits_of_lt_base hlt, hc]
    | cons b init =>
      obtain ⟨b', cs, h, hle⟩ := hhead
      cases h
      have hinit := ih (fun c hc => ht c (List.mem_append_left _ hc)) ⟨b, init, rfl, hle⟩
      have hpos : decimal (b :: init) ≠ 0 := by
        intro hzero
        rw [hzero] at hinit
        have hb : '0' = b := (List.cons.inj hinit).1
        exact absurd (hb ▸ hle) (by decide)
      have hdiv : (10 * decimal (b :: init) + (c.toNat - 48)) / 10 = decimal (b :: init) := by omega
      have hmod : (10 * decimal (b :: init) + (c.toNat - 48)) % 10 = c.toNat - 48 := by omega
      rw [hsum, number, Nat.toDigits_of_base_le (by decide) (by omega), hdiv, hmod, hc]
      change number (decimal (b :: init)) ++ _ = _
      rw [hinit]

section Joined

variable {sep c : Char} {parts : List Text}

theorem mem_intercalate (h : c ∈ [sep].intercalate parts) : c = sep ∨ ∃ p ∈ parts, c ∈ p := by
  induction parts with
  | nil => cases h
  | cons p parts ih =>
    cases parts with
    | nil =>
      rw [List.intercalate_singleton] at h
      exact .inr ⟨p, List.mem_cons_self, h⟩
    | cons q parts =>
      rw [List.intercalate_cons_cons, List.append_assoc, List.mem_append, List.singleton_append, List.mem_cons] at h
      obtain h | h | h := h
      · exact .inr ⟨p, List.mem_cons_self, h⟩
      · exact .inl h
      · exact (ih h).imp_right (fun ⟨r, hr, hc⟩ => ⟨r, List.mem_cons_of_mem p hr, hc⟩)

theorem splitOnP_intercalate {p : Char → Bool} (hsep : p sep = true) (hne : parts ≠ [])
    (h : ∀ t ∈ parts, ∀ c ∈ t, p c = false) : ([sep].intercalate parts).splitOnP p = parts := by
  induction parts with
  | nil => exact absurd rfl hne
  | cons t parts ih =>
    have ht : ∀ c ∈ t, p c = false := h t List.mem_cons_self
    cases parts with
    | nil => rw [List.intercalate_singleton, List.splitOnP_eq_singleton ht]
    | cons u parts =>
      have hrest : ∀ t ∈ u :: parts, ∀ c ∈ t, p c = false := fun t ht => h t (List.mem_cons_of_mem _ ht)
      rw [List.intercalate_cons_cons, List.append_assoc, List.singleton_append,
        List.splitOnP_append_cons_of_forall_mem ht sep hsep, ih (List.cons_ne_nil u parts) hrest]

theorem mem_of_mem_splitOnP {p : Char → Bool} {t part : Text} (hpart : part ∈ t.splitOnP p) (hc : c ∈ part) : c ∈ t := by
  induction t generalizing part with
  | nil =>
    rw [List.splitOnP_nil, List.mem_singleton] at hpart
    exact hpart ▸ hc
  | cons a t ih =>
    rw [List.splitOnP_cons_eq_if_modifyHead] at hpart
    split at hpart
    · cases List.mem_cons.mp hpart with
      | inl he =>
        rw [he] at hc
        cases hc
      | inr hm => exact List.mem_cons_of_mem a (ih hm hc)
    · cases hsplit : t.splitOnP p with
      | nil => exact absurd hsplit (List.splitOnP_ne_nil p t)
      | cons u us =>
        rw [hsplit, List.modifyHead_cons] at hpart
        rw [hsplit] at ih
        cases List.mem_cons.mp hpart with
        | inl he =>
          rw [he] at hc
          exact (List.mem_cons.mp hc).elim (fun h => h ▸ List.mem_cons_self)
            (fun h => List.mem_cons_of_mem a (ih List.mem_cons_self h))
        | inr hm => exact List.mem_cons_of_mem a (ih (List.mem_cons_of_mem u hm) hc)

theorem getLast?_intercalate (h : ∀ t ∈ parts, t ≠ [] ∧ sep ∉ t) : ([sep].intercalate parts).getLast? ≠ some sep := by
  induction parts with
  | nil => exact nofun
  | cons t parts ih =>
    obtain ⟨hne, hsep⟩ := h t List.mem_cons_self
    cases parts with
    | nil =>
      rw [List.intercalate_singleton]
      exact fun hlast => hsep (List.mem_of_getLast? hlast)
    | cons u parts =>
      have hrest : ∀ t ∈ u :: parts, t ≠ [] ∧ sep ∉ t := fun t ht => h t (List.mem_cons_of_mem _ ht)
      have hlong : [sep].intercalate (u :: parts) ≠ [] := by
        cases parts with
        | nil =>
          rw [List.intercalate_singleton]
          exact (hrest u List.mem_cons_self).1
        | cons v parts =>
          rw [List.intercalate_cons_cons]
          simp
      rw [List.intercalate_cons_cons, List.getLast?_append_of_ne_nil _ hlong]
      exact ih hrest

end Joined

section Releases

variable {ns : List Nat} {c : Char}

theorem mem_releaseText (h : c ∈ releaseText ns) : c.isDigit = true ∨ c = '.' := by
  cases mem_intercalate h with
  | inl he => exact .inr he
  | inr hp =>
    obtain ⟨p, hp, hc⟩ := hp
    obtain ⟨n, _, rfl⟩ := List.mem_map.mp hp
    exact .inl (isDigit_of_mem_number hc)

theorem splitOn_releaseText (h : ns ≠ []) : (releaseText ns).splitOn '.' = ns.map number := by
  refine List.splitOn_intercalate '.' (fun t ht hdot => ?_) (by simpa using h)
  obtain ⟨n, _, rfl⟩ := List.mem_map.mp ht
  exact absurd (isDigit_of_mem_number hdot) (by decide)

theorem dotted_releaseText (h : ns ≠ []) : dotted (releaseText ns) = ns := by
  have hid : decimal ∘ number = id := funext decimal_number
  rw [dotted, splitOn_releaseText h, List.map_map, hid, List.map_id]

theorem core_releaseText (h : ns ≠ []) : Core (releaseText ns) where
  digits c hc := (mem_releaseText hc).imp_right .inl
  first := by
    obtain ⟨n, ns, rfl⟩ := List.exists_cons_of_ne_nil h
    obtain ⟨c, cs, hc⟩ := List.exists_cons_of_ne_nil (number_ne_nil n)
    have hdigit : c.isDigit = true := isDigit_of_mem_number (hc ▸ List.mem_cons_self)
    cases ns with
    | nil => exact ⟨c, cs, by rw [releaseText, List.map_singleton, List.intercalate_singleton, hc], hdigit⟩
    | cons m ns =>
      refine ⟨c, cs ++ '.' :: releaseText (m :: ns), ?_, hdigit⟩
      rw [releaseText, List.map_cons, List.map_cons, List.intercalate_cons_cons, hc, List.append_assoc]
      rfl
  last := by
    refine getLast?_intercalate (fun t ht => ?_)
    obtain ⟨n, _, rfl⟩ := List.mem_map.mp ht
    exact ⟨number_ne_nil n, fun hdot => absurd (isDigit_of_mem_number hdot) (by decide)⟩

theorem readRelease_releaseText (h : ns ≠ []) : readRelease (releaseText ns) = some (ns, []) := by
  have hread : Pep440.releaseText (releaseText ns) = releaseText ns := by
    have hall : ∀ c ∈ releaseText ns, isReleaseChar c = true := by
      intro c hc
      cases mem_releaseText hc with
      | inl hd => simp [isReleaseChar, hd]
      | inr he => simp [isReleaseChar, he]
    have hwhole := Pep440.releaseText_of_digits (core_releaseText h) hall (.inl rfl)
    rwa [List.append_nil] at hwhole
  have hnil : [] ∉ ns.map number := by
    intro hm
    obtain ⟨n, _, hn⟩ := List.mem_map.mp hm
    exact number_ne_nil n hn
  rw [readRelease, hread, splitOn_releaseText h, if_neg hnil, dotted_releaseText h, List.drop_length]

end Releases

variable {s : Segment} {segments : List Segment} {c : Char}

theorem Lower.mem (h : Lower s) (hc : c ∈ segmentText s) : c.isAlphanum = true ∧ c.toLower = c := by
  cases s with
  | number n =>
    have hdigit := isDigit_of_mem_number hc
    exact ⟨by simp [Char.isAlphanum, hdigit], (digit_legible hdigit).2.1⟩
  | text t => exact h.2.1 c hc

theorem Lower.ne_nil (h : Lower s) : segmentText s ≠ [] := by
  cases s with
  | number n => exact number_ne_nil n
  | text t => exact h.1

theorem segment_segmentText (h : Lower s) : segment (segmentText s) = s := by
  cases s with
  | number n =>
    have hall : (number n).all Char.isDigit = true := List.all_eq_true.mpr (fun c hc => isDigit_of_mem_number hc)
    rw [segmentText, Pep440.segment, if_pos hall, decimal_number]
  | text t => exact if_neg (by rw [segmentText, h.2.2]; decide)

theorem splitOnP_segments (hne : segments ≠ []) (h : ∀ s ∈ segments, Lower s) :
    (['.'].intercalate (segments.map segmentText)).splitOnP isSeparator = segments.map segmentText := by
  refine splitOnP_intercalate (by decide) (by simpa using hne) (fun t ht c hc => ?_)
  obtain ⟨s, hs, rfl⟩ := List.mem_map.mp ht
  exact (alphanum_legible ((h s hs).mem hc).1).2.1

theorem readLocal_segments (hne : segments ≠ []) (h : ∀ s ∈ segments, Lower s) :
    readLocal (some (['.'].intercalate (segments.map segmentText))) = some segments := by
  have hall : (segments.map segmentText).all (fun p => p ≠ [] && p.all Char.isAlphanum) = true := by
    refine List.all_eq_true.mpr (fun t ht => ?_)
    obtain ⟨s, hs, rfl⟩ := List.mem_map.mp ht
    rw [Bool.and_eq_true, decide_eq_true_eq, List.all_eq_true]
    exact ⟨(h s hs).ne_nil, fun c hc => ((h s hs).mem hc).1⟩
  have hsame : segments.map (segment ∘ segmentText) = segments.map id :=
    List.map_congr_left (fun s hs => segment_segmentText (h s hs))
  rw [readLocal, splitOnP_segments hne h, if_pos hall, List.map_map, hsame, List.map_id]

theorem mem_localText (h : ∀ s ∈ segments, Lower s) (hc : c ∈ localText segments) :
    c = '+' ∨ c = '.' ∨ c.isAlphanum = true ∧ c.toLower = c := by
  unfold localText at hc
  split at hc
  · cases hc
  cases List.mem_cons.mp hc with
  | inl he => exact .inl he
  | inr hc =>
    cases mem_intercalate hc with
    | inl he => exact .inr (.inl he)
    | inr hp =>
      obtain ⟨t, ht, hc⟩ := hp
      obtain ⟨s, hs, rfl⟩ := List.mem_map.mp ht
      exact .inr (.inr ((h s hs).mem hc))

section Plain

variable {v : Version}

theorem publicText_of_plain (hp : Plain v) : publicText v = releaseText v.release := by
  rw [publicText, hp.epoch, hp.pre, hp.post, hp.dev]
  simp [epochText, preText, postText, devText]

theorem mem_text_of_plain (hw : WellFormed v) (hp : Plain v) {c : Char} (hc : c ∈ text v) :
    isSpace c = false ∧ c.toLower = c ∧ c ≠ '!' := by
  rw [text, publicText_of_plain hp] at hc
  cases List.mem_append.mp hc with
  | inl hr =>
    cases mem_releaseText hr with
    | inl hd => exact ⟨(digit_legible hd).1, (digit_legible hd).2.1, (digit_legible hd).2.2.2.2.2.2.1⟩
    | inr he => exact he ▸ by decide
  | inr hl =>
    obtain rfl | rfl | ⟨ha, hlow⟩ := mem_localText hw.segments hl
    · decide
    · decide
    · exact ⟨(alphanum_legible ha).1, hlow, fun he => absurd (he ▸ ha) (by decide)⟩

theorem normalized_text (hw : WellFormed v) (hp : Plain v) : normalized (text v) = text v := by
  have hcore := core_releaseText hw.release
  have hstrip : strip (text v) = text v := strip_eq_self (fun c hc => (mem_text_of_plain hw hp hc).1)
  have hlower : (text v).map Char.toLower = (text v).map id :=
    List.map_congr_left (fun c hc => (mem_text_of_plain hw hp hc).2.1)
  have htext : text v = releaseText v.release ++ localText v.localLabel := by rw [text, publicText_of_plain hp]
  rw [normalized_of_core hstrip hcore htext, hlower, List.map_id]

theorem cut_plus (hp : Plain v) : cut '+' (text v) = (releaseText v.release,
    if v.localLabel = [] then none else some (['.'].intercalate (v.localLabel.map segmentText))) := by
  have hplus : '+' ∉ releaseText v.release := fun hm => (mem_releaseText hm).elim (fun h => absurd h (by decide)) nofun
  rw [text, publicText_of_plain hp, localText]
  by_cases h : v.localLabel = []
  · rw [if_pos h, if_pos h, List.append_nil, cut_of_not_mem hplus]
  · rw [if_neg h, if_neg h, cut_append hplus]

theorem parse_text (hw : WellFormed v) (hp : Plain v) : parse (text v) = some v := by
  have hepoch : readEpoch (releaseText v.release) = some (0, releaseText v.release) := by
    have hbang : '!' ∉ releaseText v.release :=
      fun hm => (mem_releaseText hm).elim (fun h => absurd h (by decide)) nofun
    rw [readEpoch, cut_of_not_mem hbang]
  have hlocal : readLocal (if v.localLabel = [] then none
      else some (['.'].intercalate (v.localLabel.map segmentText))) = some v.localLabel := by
    by_cases h : v.localLabel = []
    · rw [if_pos h, h]
      rfl
    · rw [if_neg h, readLocal_segments h hw.segments]
  unfold parse
  dsimp only
  rw [normalized_text hw hp, cut_plus hp, hepoch]
  dsimp only [Option.bind_eq_bind, Option.bind_some]
  rw [readRelease_releaseText hw.release]
  dsimp only [Option.bind_some]
  rw [readSuffix_nil]
  dsimp only [Option.bind_some]
  rw [hlocal]
  obtain ⟨epoch, release, pre, post, dev, localLabel⟩ := v
  obtain ⟨rfl, _, rfl, rfl, rfl⟩ := hp
  rfl

end Plain

variable {t : Text} {v : Version}

theorem lower_of_mem_normalized {c : Char} (h : c ∈ normalized t) : c.toLower = c := by
  have hall : ∀ c ∈ (strip t).map Char.toLower, c.toLower = c := by
    intro c hc
    obtain ⟨d, _, rfl⟩ := List.mem_map.mp hc
    exact toLower_toLower d
  unfold normalized at h
  dsimp only at h
  split at h
  · exact hall c (List.mem_of_mem_drop h)
  · exact hall c h

theorem mem_of_cut {b c : Char} {rest : Text} (h : (cut b t).2 = some rest) (hc : c ∈ rest) : c ∈ t := by
  cases cut_eq b t with
  | inl hnone =>
    rw [hnone.1] at h
    cases h
  | inr hsome =>
    obtain ⟨s, r, rfl, _, hcut⟩ := hsome
    rw [hcut] at h
    cases h
    exact List.mem_append_right s (List.mem_cons_of_mem b hc)

theorem wellFormed_of_parse (h : parse t = some v) : WellFormed v := by
  unfold parse at h
  obtain ⟨⟨epoch, rest⟩, _, h⟩ := Option.bind_eq_some_iff.mp h
  obtain ⟨⟨release, suffix⟩, hrelease, h⟩ := Option.bind_eq_some_iff.mp h
  obtain ⟨s, _, h⟩ := Option.bind_eq_some_iff.mp h
  obtain ⟨localLabel, hlocal, h⟩ := Option.bind_eq_some_iff.mp h
  cases h
  constructor
  · unfold readRelease at hrelease
    split at hrelease
    · cases hrelease
    · cases hrelease
      simp [dotted]
  · intro s hs
    dsimp only at hlocal hs
    cases hcut : (cut '+' (normalized t)).2 with
    | none =>
      rw [hcut] at hlocal
      cases hlocal
      cases hs
    | some rest =>
      rw [hcut, readLocal] at hlocal
      split at hlocal
      · next hall =>
        cases hlocal
        obtain ⟨part, hpart, rfl⟩ := List.mem_map.mp hs
        have hgood := List.all_eq_true.mp hall part hpart
        rw [Bool.and_eq_true, decide_eq_true_eq, List.all_eq_true] at hgood
        unfold Pep440.segment
        split
        · exact trivial
        · next hletters =>
          refine ⟨hgood.1, fun c hc => ⟨hgood.2 c hc, lower_of_mem_normalized (mem_of_cut hcut ?_)⟩, Bool.not_eq_true _ ▸ hletters⟩
          exact mem_of_mem_splitOnP hpart hc
      · cases hlocal

end Kirara.PrintedVersions
