import Kirara.Pep440

namespace Kirara.SemanticVersions

open Kirara.Channels Kirara.DottedNumbers

/-- The numbers of a version, before a dash or a plus sign. -/
def release (t : Text) : Text := (cut '-' (cut '+' t).1).1

def prerelease (t : Text) : Option Text := (cut '-' (cut '+' t).1).2

def buildMetadata (t : Text) : Option Text := (cut '+' t).2

/-- Identifiers of digits compare as numbers and stand below the others. -/
def identifierKey (t : Text) : List Nat :=
  if t.all Char.isDigit then [0, decimal t] else 1 :: t.map Char.toNat

/-- A version without a pre-release stands above those with one. -/
def prereleaseKey : Option Text → List (List Nat)
  | none => [[2]]
  | some t => (t.splitOn '.').map identifierKey

def precedence (t : Text) : List (List Nat) := dotted (release t) :: prereleaseKey (prerelease t)

def Higher (t u : Text) : Prop := precedence u < precedence t

instance (t u : Text) : Decidable (Higher t u) := inferInstanceAs (Decidable (precedence u < precedence t))

variable {t u : Text}

theorem higher_iff : Higher t u ↔ dotted (release u) < dotted (release t) ∨
    dotted (release u) = dotted (release t) ∧ prereleaseKey (prerelease u) < prereleaseKey (prerelease t) :=
  List.cons_lt_cons_iff

theorem higher_of_release_ne (h : dotted (release u) ≠ dotted (release t)) :
    Higher t u ↔ dotted (release u) < dotted (release t) :=
  higher_iff.trans (or_iff_left (fun hr => h hr.1))

example : Higher "1.0.0-alpha.beta".toList "1.0.0-alpha.10".toList ∧ Higher "1.0.0".toList "1.0.0-rc.1".toList ∧
    ¬ Higher "1.0.0+2".toList "1.0.0+1".toList := by decide

end Kirara.SemanticVersions

namespace Kirara.VersionOrders

open Kirara.Channels Kirara.DottedNumbers Kirara.SemanticVersions Kirara.Pep440

/-- What the grammars share: three numbers, before a dash or a plus sign or alone. -/
structure Semantic (t : Text) : Prop where
  trimmed : strip t = t
  core : Core (release t)
  three : (dotted (release t)).length = 3
  plain : '!' ∉ t

def dashed : Option Text → Text
  | none => []
  | some t => '-' :: t

/-- A pre-release in the usual form, and what it stands for. -/
inductive Usual : Option Text → Option (Phase × Nat) → Prop where
  | final : Usual none none
  | numbered (phase : Phase) (digits : Text) (hne : digits ≠ []) (hd : ∀ c ∈ digits, c.isDigit = true) :
    Usual (some (phase.label ++ '.' :: digits)) (some (phase, decimal digits))

/-- A version without build metadata and with a usual pre-release, if any. -/
def Conventional (t : Text) : Prop := buildMetadata t = none ∧ ∃ x, Usual (prerelease t) x

variable {t u : Text} {v w : Version} {p q : Option Text} {x y : Option (Phase × Nat)}

theorem cut_dash (t : Text) : (cut '+' t).1 = release t ++ dashed (prerelease t) := by
  cases cut_eq '-' (cut '+' t).1 with
  | inl hnone =>
    rw [release, prerelease, hnone.1]
    exact (List.append_nil _).symm
  | inr hsome =>
    obtain ⟨s, r, hs, _, hcut⟩ := hsome
    rw [release, prerelease, hcut]
    exact hs

theorem head?_dashed (p : Option Text) : dashed p = [] ∨ (dashed p).head? = some '-' := by
  cases p with
  | none => exact .inl rfl
  | some t => exact .inr rfl

theorem parse_semantic (h : Semantic t) (hv : parse t = some v) : v.epoch = 0 ∧ v.release = dotted (release t) ∧
      readSuffix ((dashed (prerelease t)).map Char.toLower) = some ⟨v.pre, v.post, v.dev⟩ ∧
      readLocal ((buildMetadata t).map (List.map Char.toLower)) = some v.localLabel := by
  refine parse_of_core h.trimmed (cut_dash t) h.core (head?_dashed _) (fun hm => h.plain ?_) hv
  rw [← cut_dash] at hm
  exact (List.takeWhile_sublist _).subset hm

theorem newer_iff_higher_of_release_ne (ht : Semantic t) (hu : Semantic u) (hv : parse t = some v)
    (hw : parse u = some w) (hne : dotted (release u) ≠ dotted (release t)) : Newer t u ↔ Higher t u := by
  obtain ⟨hve, hvr, _, _⟩ := parse_semantic ht hv
  obtain ⟨hwe, hwr, _, _⟩ := parse_semantic hu hw
  rw [higher_of_release_ne hne, newer_of_release_ne hv hw (hve.trans hwe.symm), hvr, hwr]
  · rw [hvr, hwr, ht.three, hu.three]
  · rw [hvr, hwr]
    exact hne

theorem not_newer_of_semantic (ht : Semantic t) (hu : Semantic u) (hv : parse t = some v) (hw : parse u = some w)
    (hsame : dotted (release t) = dotted (release u)) (hfinal : prerelease u = none) (hearly : v.Early) :
    ¬ Newer t u := by
  obtain ⟨hve, hvr, _, _⟩ := parse_semantic ht hv
  obtain ⟨hwe, hwr, hsuffix, _⟩ := parse_semantic hu hw
  rw [hfinal] at hsuffix
  have hparts := Suffix.mk.inj (Option.some.inj hsuffix)
  refine not_newer_of_early hv hw (hve.trans hwe.symm) ?_ hearly ⟨hparts.1.symm, hparts.2.1.symm, hparts.2.2.symm⟩
  rw [hvr, hwr, hsame]

/-- The place of a phase and its number among the versions with one release. -/
def ranked : Option (Phase × Nat) → List Nat
  | none => [4]
  | some (phase, n) => [phase.rank, n]

theorem readSuffix_usual (h : Usual p x) : readSuffix ((dashed p).map Char.toLower) = some ⟨x, none, none⟩ := by
  cases h with
  | final => rfl
  | numbered phase digits hne hd =>
    have hdigits : digits.map Char.toLower = digits := by
      have hcongr : digits.map Char.toLower = digits.map id := List.map_congr_left (fun c hc =>
        (toLower_eq_iff (not_alpha_of_digit (hd c hc)) c).mpr rfl)
      rw [hcongr, List.map_id]
    have hlabel : phase.label.map Char.toLower = phase.label := by cases phase <;> rfl
    have hlower : (dashed (some (phase.label ++ '.' :: digits))).map Char.toLower =
        '-' :: (phase.label ++ '.' :: digits) := by
      rw [dashed, List.map_cons, List.map_append, List.map_cons, hdigits, hlabel]
      rfl
    rw [hlower, readSuffix_label phase hd]

theorem prereleaseKey_numbered (phase : Phase) {digits : Text} (hd : ∀ c ∈ digits, c.isDigit = true) :
    prereleaseKey (some (phase.label ++ '.' :: digits)) =
      [1 :: phase.label.map Char.toNat, [0, decimal digits]] := by
  have hlabel : '.' ∉ phase.label := by cases phase <;> decide
  have hdigits : '.' ∉ digits := fun hm => absurd (hd '.' hm) (by decide)
  have hword : identifierKey phase.label = 1 :: phase.label.map Char.toNat := by cases phase <;> decide
  have hnumber : identifierKey digits = [0, decimal digits] := if_pos (List.all_eq_true.mpr hd)
  rw [prereleaseKey, List.splitOn_append_cons_self_of_not_mem hlabel, List.splitOn_eq_singleton hdigits,
    List.map_cons, List.map_singleton, hword, hnumber]

theorem label_lt_iff (a b : Phase) :
    1 :: a.label.map Char.toNat < 1 :: b.label.map Char.toNat ↔ a.rank < b.rank := by
  cases a <;> cases b <;> decide

theorem label_eq_iff (a b : Phase) :
    1 :: a.label.map Char.toNat = 1 :: b.label.map Char.toNat ↔ a.rank = b.rank := by
  cases a <;> cases b <;> decide

theorem prereleaseKey_lt_iff (hp : Usual p x) (hq : Usual q y) :
    prereleaseKey q < prereleaseKey p ↔ ranked y < ranked x := by
  cases hp with
  | final =>
    cases hq with
    | final => exact iff_of_false (lt_irrefl _) (lt_irrefl _)
    | numbered b n hne hn =>
      rw [prereleaseKey_numbered b hn]
      exact iff_of_true (.rel (.rel (by decide))) (.rel (by cases b <;> decide))
  | numbered a m hne hm =>
    rw [prereleaseKey_numbered a hm]
    cases hq with
    | final =>
      refine iff_of_false (fun h => ?_) (fun h => ?_)
      · exact lt_asymm h (.rel (.rel (by decide)))
      · exact lt_asymm h (.rel (by cases a <;> decide))
    | numbered b n hne' hn =>
      have hnumber : [[0, decimal n]] < [[0, decimal m]] ↔ [decimal n] < [decimal m] := by
        simp [List.cons_lt_cons_iff]
      rw [prereleaseKey_numbered b hn, List.cons_lt_cons_iff, label_lt_iff, label_eq_iff, hnumber]
      exact List.cons_lt_cons_iff.symm

theorem key_of_plain (he : v.epoch = 0) (hpost : v.post = none) (hdev : v.dev = none) (hl : v.localLabel = []) :
    v.key = [0] :: trimZeros v.release :: [ranked v.pre, [], [1]] := by
  have hpre : v.preKey = ranked v.pre := by
    unfold Version.preKey ranked
    cases v.pre with
    | none => exact if_neg (fun h => h.2 hdev)
    | some p => rfl
  rw [Version.key, he, hpre, Version.postKey, hpost, Version.devKey, hdev, hl]
  rfl

theorem key_of_conventional (ht : Semantic t) (hv : parse t = some v) (hb : buildMetadata t = none)
    (hp : Usual (prerelease t) x) : v.key = [0] :: trimZeros (dotted (release t)) :: [ranked x, [], [1]] := by
  obtain ⟨he, hr, hsuffix, hlocal⟩ := parse_semantic ht hv
  rw [readSuffix_usual hp] at hsuffix
  rw [hb] at hlocal
  obtain ⟨hpre, hpost, hdev⟩ := Suffix.mk.inj (Option.some.inj hsuffix)
  rw [key_of_plain he hpost.symm hdev.symm (Option.some.inj hlocal).symm, hr, ← hpre]

theorem newer_iff_higher_of_conventional (ht : Semantic t) (hu : Semantic u) (hv : parse t = some v)
    (hw : parse u = some w) (hct : Conventional t) (hcu : Conventional u) : Newer t u ↔ Higher t u := by
  by_cases hne : dotted (release u) = dotted (release t)
  · obtain ⟨hbt, x, hx⟩ := hct
    obtain ⟨hbu, y, hy⟩ := hcu
    have hkey : w.key < v.key ↔ ranked y < ranked x := by
      rw [key_of_conventional ht hv hbt hx, key_of_conventional hu hw hbu hy, hne, List.cons_lt_cons_self,
        List.cons_lt_cons_self, List.cons_lt_cons_iff]
      exact or_iff_left (fun h => lt_irrefl _ h.2)
    rw [higher_iff, hne, prereleaseKey_lt_iff hx hy, ← hkey]
    refine ⟨fun ⟨v', w', hv', hw', hlt⟩ => ?_, fun h => ⟨v, w, hv, hw, ?_⟩⟩
    · cases hv.symm.trans hv'
      cases hw.symm.trans hw'
      exact .inr ⟨rfl, hlt⟩
    · exact (h.resolve_left (lt_irrefl _)).2
  · exact newer_iff_higher_of_release_ne ht hu hv hw hne

end Kirara.VersionOrders
