import Kirara.PrintedVersions
import Kirara.VersionedUpdates

namespace Kirara.SkillVersions

open Kirara.Channels Kirara.DottedNumbers Kirara.SemanticVersions Kirara.PrintedVersions
open Kirara.ResourceLifecycle Kirara.ConfirmedPermissions Kirara.VersionedUpdates
open Kirara.Pep440 (Version parse Newer Core)
open Kirara.ResourceArchives (isSemver isNumber isIdentifiers)

/-- The characters at which `str.splitlines` ends a line. -/
def isLineBreak (c : Char) : Bool :=
  c.toNat ∈ [0x0a, 0x0b, 0x0c, 0x0d, 0x1c, 0x1d, 0x1e, 0x85, 0x2028, 0x2029]

def splitlines : Text → List Text
  | [] => []
  | '\r' :: '\n' :: cs => [] :: splitlines cs
  | c :: cs =>
    if isLineBreak c then [] :: splitlines cs
    else match splitlines cs with
      | [] => [[c]]
      | line :: lines => (c :: line) :: lines

structure FrontMatter where
  name : Text
  description : Text
  version : Text
  deriving DecidableEq

def defaultVersion : Text := "1.0.0".toList

def empty : FrontMatter := ⟨[], [], defaultVersion⟩

def FrontMatter.set (values : FrontMatter) (key value : Text) : FrontMatter :=
  if key = "name".toList then { values with name := value }
  else if key = "description".toList then { values with description := value }
  else if key = "version".toList then { values with version := value }
  else values

def isQuote (c : Char) : Bool := c = '\'' || c = '"'

def unquoted (value : Text) : Text := (((strip value).dropWhile isQuote).rdropWhile isQuote).take 1000

def readLine (values : FrontMatter) (line : Text) : FrontMatter :=
  match cut ':' line with
  | (_, none) => values
  | (key, some value) => values.set (strip key) (unquoted value)

def isFence (line : Text) : Bool := strip line = "---".toList

/-- The lines up to the closing fence, and nothing where a fence is missing. -/
def written (text : Text) : FrontMatter :=
  let lines := (splitlines text).drop 1
  if "---".toList.isPrefixOf text && lines.any isFence then
    (lines.takeWhile (fun line => !isFence line)).foldl readLine empty
  else empty

/-- `_parse_skill_front_matter`, on the text that the bytes decode to. -/
def parseSkillFrontMatter : Option Text → Except Text FrontMatter
  | none => .error "SKILL.md must be UTF-8 text".toList
  | some text =>
    let values := written text
    if values.version = [] then .ok { values with version := defaultVersion }
    else match parse values.version with
      | some _ => .ok values
      | none => .ok { values with version := defaultVersion }

/-- `major.minor.patch` with the patch raised, where missing numbers are zero. -/
def patched (release : List Nat) : List Nat :=
  let release := release ++ [0, 0, 0]
  [release.getD 0 0, release.getD 1 0, release.getD 2 0 + 1]

def nextVersion (currentVersion : Text) (remoteVersion : Option Text) : Except Text Text :=
  let parsed := parse currentVersion
  let raised : Except Text Text :=
    match parsed with
    | none => .error "installed resource version is invalid".toList
    | some v => .ok (releaseText (patched v.release))
  match remoteVersion with
  | none => raised
  | some t =>
    if t = [] then raised
    else match parse t with
      | none => raised
      | some remote => if parsed.all (fun v => v.key < remote.key) then .ok (text remote) else raised

example : written "---\nname: 'A: b'\r\nversion : \"2.0\"\nother: x\n --- \nversion: 3".toList =
    ⟨"A: b".toList, [], "2.0".toList⟩ := by decide +kernel

example : nextVersion "1.2.0".toList (some "1.10".toList) = .ok "1.10".toList ∧
    nextVersion "1.2.0".toList (some "v1.1".toList) = .ok "1.2.1".toList := by decide +kernel

section Printed

variable {d : Char → Bool} {v : Version} {ns : List Nat}

theorem isNumber_number (hd : ∀ c, c.isDigit = true → d c = true) (n : Nat) : isNumber d (number n) = true := by
  by_cases h : n = 0
  · rw [h]
    rfl
  · obtain ⟨c, cs, hc, hle, hge⟩ := number_head (Nat.pos_of_ne_zero h)
    have hall : cs.all d = true := List.all_eq_true.mpr
      (fun b hb => hd b (isDigit_of_mem_number (hc ▸ List.mem_cons_of_mem c hb)))
    rw [hc]
    simp [isNumber, hle, hge, hall]

theorem not_mem_publicText {b : Char} (hb : b = '+' ∨ b = '-') : b ∉ publicText v := by
  have hnumber : ∀ n, b ∉ number n := by
    intro n hm
    have hdigit := isDigit_of_mem_number hm
    obtain rfl | rfl := hb
    all_goals exact absurd hdigit (by decide)
  have hrelease : b ∉ releaseText v.release := by
    intro hm
    obtain rfl | rfl := hb
    all_goals exact (mem_releaseText hm).elim (fun h => absurd h (by decide)) nofun
  have hepoch : b ∉ epochText v.epoch := by
    unfold epochText
    split
    · exact nofun
    rw [List.mem_append, List.mem_singleton]
    obtain rfl | rfl := hb
    all_goals exact fun h => h.elim (hnumber _) (by decide)
  have hpre : b ∉ preText v.pre := by
    unfold preText
    split
    · exact nofun
    · next phase n hphase =>
      have hletter : b ∉ letter phase := by
        obtain rfl | rfl := hb
        all_goals cases phase <;> decide
      exact fun h => (List.mem_append.mp h).elim hletter (hnumber n)
  have hpost : b ∉ postText v.post := by
    unfold postText
    split
    · exact nofun
    · next n hpost =>
      obtain rfl | rfl := hb
      all_goals exact fun h => (List.mem_append.mp h).elim (by decide) (hnumber n)
  have hdev : b ∉ devText v.dev := by
    unfold devText
    split
    · exact nofun
    · next n hdev =>
      obtain rfl | rfl := hb
      all_goals exact fun h => (List.mem_append.mp h).elim (by decide) (hnumber n)
  simp [publicText, hepoch, hrelease, hpre, hpost, hdev]

theorem release_text : release (text v) = publicText v ∧ prerelease (text v) = none ∧ buildMetadata (text v) =
      if v.localLabel = [] then none else some (['.'].intercalate (v.localLabel.map segmentText)) := by
  have hcut : cut '+' (text v) = (publicText v,
      if v.localLabel = [] then none else some (['.'].intercalate (v.localLabel.map segmentText))) := by
    rw [text, localText]
    by_cases h : v.localLabel = []
    · rw [if_pos h, if_pos h, List.append_nil, cut_of_not_mem (not_mem_publicText (.inl rfl))]
    · rw [if_neg h, if_neg h, cut_append (not_mem_publicText (.inl rfl))]
  rw [release, prerelease, buildMetadata, hcut, cut_of_not_mem (not_mem_publicText (.inr rfl))]
  exact ⟨rfl, rfl, rfl⟩

theorem isIdentifiers_segments {segments : List Pep440.Segment} (hne : segments ≠ []) (h : ∀ s ∈ segments, Lower s) :
    isIdentifiers (['.'].intercalate (segments.map segmentText)) = true := by
  have hparts : (['.'].intercalate (segments.map segmentText)).splitOn '.' = segments.map segmentText := by
    refine List.splitOn_intercalate '.' (fun t ht hdot => ?_) (by simpa using hne)
    obtain ⟨s, hs, rfl⟩ := List.mem_map.mp ht
    exact absurd ((h s hs).mem hdot).1 (by decide)
  rw [isIdentifiers, hparts]
  refine List.all_eq_true.mpr (fun t ht => ?_)
  obtain ⟨s, hs, rfl⟩ := List.mem_map.mp ht
  rw [Bool.and_eq_true, decide_eq_true_eq, List.all_eq_true]
  exact ⟨(h s hs).ne_nil, fun c hc => by simp [((h s hs).mem hc).1]⟩

theorem plain_of_core (hcore : Core (publicText v)) (hbang : '!' ∉ publicText v) (hne : v.release ≠ [])
    (hthree : (dotted (publicText v)).length = 3) : Plain v := by
  have hletter : ∀ c : Char, c.isAlpha = true → c ∉ publicText v :=
    fun c hc hm => absurd hc (by rw [hcore.not_alpha hm]; exact Bool.false_ne_true)
  have hepoch : v.epoch = 0 := by
    by_contra h
    exact hbang (by simp [publicText, epochText, h])
  have hpre : v.pre = none := by
    by_contra h
    obtain ⟨⟨phase, n⟩, hp⟩ := Option.ne_none_iff_exists'.mp h
    cases phase with
    | alpha => exact hletter 'a' (by decide) (by simp [publicText, hp, preText, letter])
    | beta => exact hletter 'b' (by decide) (by simp [publicText, hp, preText, letter])
    | candidate => exact hletter 'c' (by decide) (by simp [publicText, hp, preText, letter])
  have hpost : v.post = none := by
    by_contra h
    obtain ⟨n, hp⟩ := Option.ne_none_iff_exists'.mp h
    exact hletter 'p' (by decide) (by simp [publicText, hp, postText])
  have hdev : v.dev = none := by
    by_contra h
    obtain ⟨n, hp⟩ := Option.ne_none_iff_exists'.mp h
    exact hletter 'd' (by decide) (by simp [publicText, hp, devText])
  have htext : publicText v = releaseText v.release := by
    simp [publicText, hepoch, hpre, hpost, hdev, epochText, preText, postText, devText]
  rw [htext, dotted_releaseText hne] at hthree
  exact ⟨hepoch, hthree, hpre, hpost, hdev⟩

theorem isSemver_text_iff (hdec : ∀ c, d c = true → c.isDigit = true ∨ Pep440.Foreign c ∧ isSpace c = false)
    (hd : ∀ c, c.isDigit = true → d c = true) (hw : WellFormed v) : isSemver d (text v) = true ↔ Plain v := by
  obtain ⟨hrelease, hpre, hbuild⟩ := release_text (v := v)
  constructor
  · intro h
    have hs := semantic_of_isSemver hdec h
    have hcore : Core (publicText v) := hrelease ▸ hs.core
    have hbang : '!' ∉ publicText v := fun hm => hs.plain (List.mem_append_left _ hm)
    exact plain_of_core hcore hbang hw.release (hrelease ▸ hs.three)
  · intro hp
    have hnumbers : (release (text v)).splitOn '.' = v.release.map number := by
      rw [hrelease, publicText_of_plain hp, splitOn_releaseText hw.release]
    refine isSemver_iff.mpr ⟨?_, fun t ht => ?_, fun p h => ?_, fun b h => ?_⟩
    · rw [hnumbers, List.length_map, hp.three]
    · rw [hnumbers] at ht
      obtain ⟨n, _, rfl⟩ := List.mem_map.mp ht
      exact isNumber_number hd n
    · rw [hpre] at h
      cases h
    · rw [hbuild] at h
      by_cases hnil : v.localLabel = []
      · rw [if_pos hnil] at h
        cases h
      · rw [if_neg hnil] at h
        cases h
        exact isIdentifiers_segments hnil hw.segments

theorem number_of_isNumber {t : Text} (h : isNumber d t = true) (ht : ∀ c ∈ t, c.isDigit = true) :
    number (decimal t) = t := by
  cases t with
  | nil => cases h
  | cons c cs =>
    simp only [isNumber, Bool.or_eq_true, Bool.and_eq_true, decide_eq_true_eq, List.isEmpty_iff, List.all_eq_true] at h
    obtain ⟨rfl, rfl⟩ | ⟨⟨hle, _⟩, _⟩ := h
    · rfl
    · exact number_decimal ht ⟨c, cs, rfl, hle⟩

theorem text_of_isSemver {t : Text} (hdec : ∀ c, d c = true → c.isDigit = true ∨ Pep440.Foreign c ∧ isSpace c = false)
    (h : isSemver d t = true) (hv : parse t = some ⟨0, ns, none, none, none, []⟩) : releaseText ns = t := by
  have hs := semantic_of_isSemver hdec h
  obtain ⟨_, hrelease, hsuffix, hlocal⟩ := VersionOrders.parse_semantic hs hv
  have hpre : VersionOrders.dashed (prerelease t) = [] := List.map_eq_nil_iff.mp (Pep440.readSuffix_eq_none hsuffix)
  have hbuild : buildMetadata t = none := Option.map_eq_none_iff.mp (Pep440.readLocal_eq_nil hlocal)
  have hdash := VersionOrders.cut_dash t
  rw [hpre, List.append_nil] at hdash
  have hwhole : t = release t := by
    cases cut_eq '+' t with
    | inl hnone => rw [← hdash, hnone.1]
    | inr hsome =>
      obtain ⟨_, r, _, _, hcut⟩ := hsome
      rw [buildMetadata, hcut] at hbuild
      cases hbuild
  have hdigits : ∀ c ∈ release t, Pep440.isReleaseChar c = true := by
    have hcut : (cut '+' t).1 = release t ++ [] := by rw [List.append_nil, hdash]
    have hbang : '!' ∉ release t ++ [] := by rw [List.append_nil, ← hwhole]; exact hs.plain
    exact Pep440.digits_of_core hs.trimmed hcut hs.core hbang hv
  have hparts : ((release t).splitOn '.').map (number ∘ decimal) = ((release t).splitOn '.').map id := by
    have hnumbers := (isSemver_iff.mp h).2.1
    refine List.map_congr_left (fun p hp => number_of_isNumber (hnumbers p hp) (fun c hc => ?_))
    have hmem : c ∈ release t := mem_of_mem_splitOnP (List.splitOn_eq_splitOnP (x := '.') ▸ hp) hc
    cases mem_number (hnumbers p hp) hc with
    | inl hdigit => exact hdigit
    | inr hd =>
      refine (hdec c hd).resolve_right (fun hf => ?_)
      have hchar := hdigits c hmem
      rw [Pep440.isReleaseChar, Pep440.not_digit_of_foreign hf.1, Bool.false_or, decide_eq_true_eq] at hchar
      exact absurd (hchar ▸ hf.1) (by unfold Pep440.Foreign; decide)
  dsimp only at hrelease
  rw [releaseText, hrelease, dotted, List.map_map, hparts, List.map_id, List.intercalate_splitOn, ← hwhole]

end Printed

variable {κ : Type}

section Conditions

variable (A : ResourceArchives.Platform) (P : Platform)

/-- `Version` reads every text by PEP 440, and the digits of ASCII are decimals. -/
structure ByPep440 : Prop extends OrdersByPep440 A P where
  total : ∀ t, A.version t = .ok (parse t).isSome
  digits : ∀ c, c.isDigit = true → A.isDecimal c = true

/-- What the lifecycle asks of the version of an update. -/
structure Passes (r : Resource) (next : Text) : Prop where
  read : Read A next
  newer : P.notNewer next r.currentVersion = false
  unregistered : next ∉ r.versions.map VersionRecord.version

/-- A version that is written and can be read has the form of the pattern. -/
def Installable (t : Text) : Prop := parse (written t).version ≠ none → isSemver A.isDecimal (written t).version = true

/-- The version that is written, or 1.0.0 where it cannot be read. -/
def Declares (t : Text) (v : Version) : Prop :=
  parse (written t).version = some v ∨ parse (written t).version = none ∧ v = ⟨0, [1, 0, 0], none, none, none, []⟩

structure Updatable (t : Text) (r : Resource) : Prop where
  newer : ∀ v w, Declares t v → parse r.currentVersion = some w → w.key < v.key →
    Plain v ∧ text v ∉ r.versions.map VersionRecord.version
  older : ∀ v w, Declares t v → parse r.currentVersion = some w → ¬ w.key < v.key →
    ∀ record ∈ r.versions, parse record.version ≠ some ⟨0, patched w.release, none, none, none, []⟩

end Conditions

section Settled

variable {A : ResourceArchives.Platform} {P : Platform} {t : Text}

theorem parse_default : parse defaultVersion = some ⟨0, [1, 0, 0], none, none, none, []⟩ := by decide +kernel

theorem parse_skill (t : Text) : ∃ fm, parseSkillFrontMatter (some t) = .ok fm ∧ (∃ v, Declares t v ∧ parse fm.version = some v) ∧
    fm.version = if parse (written t).version = none then defaultVersion else (written t).version := by
  unfold parseSkillFrontMatter Declares
  dsimp only
  by_cases hnil : (written t).version = []
  · rw [if_pos hnil, hnil]
    exact ⟨_, rfl, ⟨_, .inr ⟨rfl, rfl⟩, parse_default⟩, rfl⟩
  · rw [if_neg hnil]
    cases h : parse (written t).version with
    | none => exact ⟨_, rfl, ⟨_, .inr ⟨rfl, rfl⟩, parse_default⟩, rfl⟩
    | some v => exact ⟨_, rfl, ⟨v, .inl rfl, h⟩, rfl⟩

theorem declares_unique {v w : Version} (hv : Declares t v) (hw : Declares t w) : v = w := by
  unfold Declares at hv hw
  cases h : parse (written t).version with
  | none =>
    rw [h] at hv hw
    rw [(hv.resolve_left nofun).2, (hw.resolve_left nofun).2]
  | some x =>
    rw [h] at hv hw
    have hvx := Option.some.inj (hv.resolve_right (fun h => nomatch h.1))
    have hwx := Option.some.inj (hw.resolve_right (fun h => nomatch h.1))
    exact hvx.symm.trans hwx

theorem read_iff (hp : ByPep440 A P) : Read A t ↔ isSemver A.isDecimal t = true ∧ parse t ≠ none := by
  rw [Read, hp.total, Except.ok.injEq, Option.isSome_iff_ne_none]

theorem read_declared_iff (hp : ByPep440 A P) {fm : FrontMatter} (h : parseSkillFrontMatter (some t) = .ok fm) :
    Read A fm.version ↔ Installable A t := by
  obtain ⟨fm', hfm, ⟨v, _, hv⟩, hversion⟩ := parse_skill t
  cases hfm.symm.trans h
  rw [read_iff hp, hv, hversion, Installable]
  by_cases hnone : parse (written t).version = none
  · have hsemver : isSemver A.isDecimal defaultVersion = true := by
      have hplain : Plain ⟨0, [1, 0, 0], none, none, none, []⟩ := ⟨rfl, rfl, rfl, rfl, rfl⟩
      have htext : text ⟨0, [1, 0, 0], none, none, none, []⟩ = defaultVersion := by decide +kernel
      rw [← htext]
      exact (isSemver_text_iff hp.decimals hp.digits (wellFormed_of_parse parse_default)).mpr hplain
    rw [if_pos hnone]
    exact iff_of_true ⟨hsemver, nofun⟩ (fun h => absurd hnone h)
  · rw [if_neg hnone]
    exact ⟨fun h _ => h.1, fun h => ⟨h hnone, nofun⟩⟩

end Settled

variable {A : ResourceArchives.Platform} {P : Platform} {s : State κ} {t current : Text} {r : Resource} {v w : Version}

theorem nextVersion_eq (hc : parse current = some w) (hv : parse t = some v) : nextVersion current (some t) =
      .ok (if w.key < v.key then text v else releaseText (patched w.release)) := by
  have hne : t ≠ [] := fun he => by
    rw [he] at hv
    cases hv
  unfold nextVersion
  dsimp only
  rw [if_neg hne, hv, hc]
  dsimp only
  by_cases h : w.key < v.key
  · rw [if_pos h, if_pos (by simpa using h)]
  · rw [if_neg h, if_neg (by simpa using h)]

def patch (w : Version) : Version := ⟨0, patched w.release, none, none, none, []⟩

theorem plain_patch (w : Version) : Plain (patch w) := ⟨rfl, rfl, rfl, rfl, rfl⟩

theorem wellFormed_patch (w : Version) : WellFormed (patch w) := ⟨List.cons_ne_nil _ _, fun _ h => (nomatch h)⟩

theorem text_patch (w : Version) : text (patch w) = releaseText (patched w.release) := by
  rw [text, publicText_of_plain (plain_patch w)]
  exact List.append_nil _

theorem lt_patched {ns : List Nat} (h : ns.length = 3) : ns < patched ns := by
  obtain ⟨a, b, c, rfl⟩ := List.length_eq_three.mp h
  simp [patched, List.cons_lt_cons_iff]

theorem passes_text_iff (hp : ByPep440 A P) (hs : Kept A s) {id : Text} (hr : s.registry.get id = some r)
    (hw : WellFormed v) (hnewer : Plain v → Newer (text v) r.currentVersion) :
    Passes A P r (text v) ↔ Plain v ∧ text v ∉ r.versions.map VersionRecord.version := by
  have hread : Read A (text v) ↔ Plain v := by
    rw [read_iff hp, isSemver_text_iff hp.decimals hp.digits hw]
    exact ⟨fun h => h.1, fun h => ⟨h, by rw [parse_text hw h]; nofun⟩⟩
  constructor
  · exact fun h => ⟨hread.mp h.read, h.unregistered⟩
  · intro ⟨hplain, hfree⟩
    have hr' := (hs.records id r hr).current
    exact ⟨hread.mpr hplain, (notNewer_iff hp.toOrdersByPep440 (hread.mpr hplain) hr').mpr (hnewer hplain), hfree⟩

theorem unregistered_patch_iff (hp : ByPep440 A P) (hs : Kept A s) {id : Text} (hr : s.registry.get id = some r) :
    text (patch w) ∉ r.versions.map VersionRecord.version ↔
      ∀ record ∈ r.versions, parse record.version ≠ some (patch w) := by
  have hsame : ∀ record ∈ r.versions, record.version = text (patch w) ↔ parse record.version = some (patch w) := by
    intro record hrecord
    refine ⟨fun he => he ▸ parse_text (wellFormed_patch w) (plain_patch w), fun he => ?_⟩
    have hlisted := (hs.records id r hr).listed record hrecord
    rw [text_patch, text_of_isSemver hp.decimals hlisted.1 he]
  rw [List.mem_map]
  constructor
  · exact fun h record hrecord he => h ⟨record, hrecord, (hsame record hrecord).mpr he⟩
  · intro h ⟨record, hrecord, he⟩
    exact h record hrecord ((hsame record hrecord).mp he)

theorem next_passes_iff (hp : ByPep440 A P) (hs : Kept A s) {id : Text} (hr : s.registry.get id = some r)
    {fm : FrontMatter} (hfm : parseSkillFrontMatter (some t) = .ok fm) :
    (∃ next, nextVersion r.currentVersion (some fm.version) = .ok next ∧ Passes A P r next) ↔ Updatable t r := by
  obtain ⟨fm', hfm', ⟨v, hdeclares, hv⟩, _⟩ := parse_skill t
  cases hfm'.symm.trans hfm
  have hcurrent := (hs.records id r hr).current
  obtain ⟨w, hw⟩ := parse_read hp.toOrdersByPep440 hcurrent
  have hsem := semantic_read hp.toOrdersByPep440 hcurrent
  obtain ⟨hepoch, hrelease, _, _⟩ := VersionOrders.parse_semantic hsem hw
  have hlen : w.release.length = 3 := by rw [hrelease, hsem.three]
  rw [nextVersion_eq hw hv]
  by_cases hlt : w.key < v.key
  · have hnewer : Plain v → Newer (text v) r.currentVersion :=
      fun hplain => ⟨v, w, parse_text (wellFormed_of_parse hv) hplain, hw, hlt⟩
    have hpasses := passes_text_iff hp hs hr (wellFormed_of_parse hv) hnewer
    rw [if_pos hlt]
    constructor
    · intro ⟨next, he, h⟩
      cases he
      refine ⟨fun v' w' hv' hw' _ => ?_, fun v' w' hv' hw' hnot => ?_⟩
      all_goals cases declares_unique hdeclares hv'
      all_goals cases hw.symm.trans hw'
      · exact hpasses.mp h
      · exact absurd hlt hnot
    · exact fun h => ⟨_, rfl, hpasses.mpr (h.newer v w hdeclares hw hlt)⟩
  · have hnewer : Plain (patch w) → Newer (text (patch w)) r.currentVersion := by
      intro hplain
      have hread := parse_text (wellFormed_patch w) hplain
      have hless := lt_patched hlen
      exact (Pep440.newer_of_release_ne hread hw hepoch.symm hlen.symm (ne_of_lt hless)).mpr hless
    have hpasses := passes_text_iff hp hs hr (wellFormed_patch w) hnewer
    rw [unregistered_patch_iff hp hs hr, text_patch] at hpasses
    rw [if_neg hlt]
    constructor
    · intro ⟨next, he, h⟩
      cases he
      refine ⟨fun v' w' hv' hw' hlt' => ?_, fun v' w' hv' hw' _ => ?_⟩
      all_goals cases declares_unique hdeclares hv'
      all_goals cases hw.symm.trans hw'
      · exact absurd hlt' hlt
      · exact (hpasses.mp h).2
    · exact fun h => ⟨_, rfl, hpasses.mpr ⟨plain_patch w, h.older v w hdeclares hw hlt⟩⟩

/-- Which front matters can be installed, and which can be updated to, in every state that calls lead to. -/
theorem skill_versions_iff (hp : ByPep440 A P) (calls : List (Call κ)) (t : Text) :
    ∃ fm, parseSkillFrontMatter (some t) = .ok fm ∧ (Read A fm.version ↔ Installable A t) ∧
      ∀ id r, (reached A P calls).registry.get id = some r →
        ((∃ next, nextVersion r.currentVersion (some fm.version) = .ok next ∧ Passes A P r next) ↔
          Updatable t r) := by
  obtain ⟨fm, hfm, _, _⟩ := parse_skill t
  exact ⟨fm, hfm, read_declared_iff hp hfm, fun id r hr => next_passes_iff hp (kept_reached A P calls) hr hfm⟩

theorem sample_pep440 : ByPep440 sampleArchives samplePlatform where
  toOrdersByPep440 := sample_orders
  total _ := rfl
  digits _ h := h

def skill (version : String) (digit : Char) : Package Unit where
  manifest := { (note version digit).manifest with resourceId := "skill.0".toList, type := .skill }
  payload := ()

def restoredSkill : List (Call Unit) :=
  [smoothly "backup-0" (.install (.ok (skill "1.0.0" '1'))), smoothly "backup-1" (.update (.ok (skill "1.0.1" '2')) none),
    smoothly "backup-2" (.restoreVersion "skill.0".toList "1.0.0".toList true)]

def outcome (calls : List (Call Unit)) (declared : String) : Option (Text × List Text × Except Text Text) :=
  ((reached sampleArchives samplePlatform calls).registry.get "skill.0".toList).map (fun r =>
    (r.currentVersion, r.versions.map VersionRecord.version, nextVersion r.currentVersion (some declared.toList)))

theorem skill_versions_restored : ∃ fm, parseSkillFrontMatter (some "---\nversion: 2.0.0\n---\n".toList) = .ok fm ∧
    (Read sampleArchives fm.version ↔ Installable sampleArchives "---\nversion: 2.0.0\n---\n".toList) ∧
    ∀ id r, (reached sampleArchives samplePlatform restoredSkill).registry.get id = some r →
      ((∃ next, nextVersion r.currentVersion (some fm.version) = .ok next ∧
        Passes sampleArchives samplePlatform r next) ↔ Updatable "---\nversion: 2.0.0\n---\n".toList r) :=
  skill_versions_iff sample_pep440 restoredSkill "---\nversion: 2.0.0\n---\n".toList

/-- Two numbers are read and cannot be installed, a pre-release fails the pattern in normal
form, and after a restoration the raised patch is registered. -/
theorem declared_versions_refused :
    (parseSkillFrontMatter (some "---\nversion: 1.0\n---\n".toList) = .ok ⟨[], [], "1.0".toList⟩ ∧
      isSemver Char.isDigit "1.0".toList = false) ∧
    (nextVersion "1.0.0".toList (some "1.2.0-rc.1".toList) = .ok "1.2.0rc1".toList ∧
      isSemver Char.isDigit "1.2.0rc1".toList = false) ∧
    outcome restoredSkill "1.0.0" =
      some ("1.0.0".toList, ["1.0.0".toList, "1.0.1".toList], .ok "1.0.1".toList) := by
  decide +kernel

end Kirara.SkillVersions
