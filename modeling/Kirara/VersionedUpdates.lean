import Kirara.ResourceAgreement
import Kirara.ResourceArchives
import Kirara.VersionOrders

namespace Kirara.VersionedUpdates

open Kirara.Channels Kirara.Dicts Kirara.Schedules Kirara.DottedNumbers Kirara.SemanticVersions Kirara.VersionOrders
open Kirara.ResourceLifecycle Kirara.ConfirmedPermissions Kirara.ResourceAgreement
open Kirara.Pep440 (Newer Foreign Core)
open Kirara.ResourceArchives (isSemver isNumber isIdentifiers parseVersion)

section Grammars

variable {d : Char → Bool} {t : Text}

theorem isSemver_iff : isSemver d t = true ↔
    ((release t).splitOn '.').length = 3 ∧ (∀ n ∈ (release t).splitOn '.', isNumber d n = true) ∧
      (∀ p, prerelease t = some p → isIdentifiers p = true) ∧ ∀ b, buildMetadata t = some b → isIdentifiers b = true := by
  change (decide (((release t).splitOn '.').length = 3) && ((release t).splitOn '.').all (isNumber d) &&
    (prerelease t).all isIdentifiers && (buildMetadata t).all isIdentifiers) = true ↔ _
  rw [Bool.and_eq_true, Bool.and_eq_true, Bool.and_eq_true, decide_eq_true_eq, List.all_eq_true,
    Option.all_eq_true, Option.all_eq_true, and_assoc, and_assoc]

theorem isNumber_cons {c : Char} {cs : Text} (h : isNumber d (c :: cs) = true) :
    c.isDigit = true ∧ ∀ b ∈ cs, d b = true := by
  simp only [isNumber, Bool.or_eq_true, Bool.and_eq_true, decide_eq_true_eq, List.isEmpty_iff, List.all_eq_true] at h
  obtain ⟨rfl, rfl⟩ | ⟨⟨hlow, hhigh⟩, hall⟩ := h
  · exact ⟨by decide, fun b hb => (nomatch hb)⟩
  · refine ⟨?_, hall⟩
    rw [Char.isDigit, Bool.and_eq_true, decide_eq_true_eq, decide_eq_true_eq]
    refine ⟨?_, hhigh⟩
    exact UInt32.le_iff_toNat_le.mpr (Nat.le_trans (by decide) (UInt32.le_iff_toNat_le.mp hlow))

theorem mem_number {c : Char} {n : Text} (h : isNumber d n = true) (hc : c ∈ n) : c.isDigit = true ∨ d c = true := by
  cases n with
  | nil => cases hc
  | cons a n =>
    obtain ⟨ha, hn⟩ := isNumber_cons h
    cases List.mem_cons.mp hc with
    | inl he => exact .inl (he ▸ ha)
    | inr hm => exact .inr (hn c hm)

theorem mem_identifiers {c : Char} (h : isIdentifiers t = true) (hc : c ∈ t) :
    c.isAlphanum = true ∨ c = '-' ∨ c = '.' := by
  cases mem_splitOn (d := '.') hc with
  | inl he => exact .inr (.inr he)
  | inr hp =>
    obtain ⟨p, hp, hc⟩ := hp
    have hall := List.all_eq_true.mp h p hp
    rw [Bool.and_eq_true, List.all_eq_true] at hall
    have hchar := hall.2 c hc
    rw [Bool.or_eq_true, decide_eq_true_eq] at hchar
    exact hchar.imp_right .inl

variable (hd : ∀ c, d c = true → c.isDigit = true ∨ Foreign c ∧ isSpace c = false)

include hd

theorem core_of_isSemver (h : isSemver d t = true) : Core (release t) := by
  obtain ⟨hlength, hnumbers, _, _⟩ := isSemver_iff.mp h
  generalize release t = core at hlength hnumbers
  refine ⟨fun c hc => ?_, ?_, fun hlast => ?_⟩
  · cases mem_splitOn (d := '.') hc with
    | inl he => exact .inr (.inl he)
    | inr hp =>
      obtain ⟨p, hp, hc⟩ := hp
      cases mem_number (hnumbers p hp) hc with
      | inl hdigit => exact .inl hdigit
      | inr hdec => exact (hd c hdec).imp_right (fun hf => .inr hf.1)
  · cases core with
    | nil => cases hlength
    | cons c cs =>
      rw [List.splitOn_cons_eq_if_modifyHead] at hnumbers
      split at hnumbers
      · exact absurd (hnumbers [] List.mem_cons_self) Bool.false_ne_true
      cases hsplit : cs.splitOn '.' with
      | nil => exact absurd hsplit (List.splitOn_ne_nil '.' cs)
      | cons p ps =>
        rw [hsplit, List.modifyHead_cons] at hnumbers
        exact ⟨c, cs, rfl, (isNumber_cons (hnumbers _ List.mem_cons_self)).1⟩
  · -- after a last dot comes an empty number
    obtain ⟨init, rfl⟩ := List.getLast?_eq_some_iff.mp hlast
    rw [List.splitOn_append_cons_self] at hnumbers
    exact absurd (hnumbers [] (List.mem_append_right _ (by simp))) Bool.false_ne_true

theorem semantic_of_isSemver (h : isSemver d t = true) : Semantic t := by
  have hcore := core_of_isSemver hd h
  obtain ⟨hlength, hnumbers, hpre, hbuild⟩ := isSemver_iff.mp h
  have hident : ∀ c : Char, c.isAlphanum = true ∨ c = '-' ∨ c = '.' → isSpace c = false ∧ c ≠ '!' := by
    intro c hc
    have hi : identifierChar c = true := by
      simp only [identifierChar, Bool.or_eq_true, decide_eq_true_eq]
      exact hc.imp_right (fun hs => by rcases hs with rfl | rfl <;> simp)
    exact ⟨not_isSpace_of_identifierChar hi, fun he => absurd (he ▸ hi) (by decide)⟩
  have hrelease : ∀ c ∈ release t, isSpace c = false ∧ c ≠ '!' := by
    intro c hc
    have hnumber : c.isDigit = true ∨ d c = true → isSpace c = false ∧ c ≠ '!' := by
      intro h
      cases h.elim .inl (hd c) with
      | inl hdigit => exact hident c (.inl (by simp [Char.isAlphanum, hdigit]))
      | inr hf => exact ⟨hf.2, fun he => absurd (he ▸ hf.1) (by unfold Foreign; decide)⟩
    cases mem_splitOn (d := '.') hc with
    | inl he => exact hident c (.inr (.inr he))
    | inr hp =>
      obtain ⟨p, hp, hc⟩ := hp
      exact hnumber (mem_number (hnumbers p hp) hc)
  have hclean : ∀ c ∈ t, isSpace c = false ∧ c ≠ '!' := by
    intro c hc
    cases mem_cut (c := '+') hc with
    | inl he => exact ⟨by rw [he]; decide, by rw [he]; decide⟩
    | inr hc =>
      cases hc with
      | inl hc =>
        cases mem_cut (c := '-') hc with
        | inl he => exact hident c (.inr (.inl he))
        | inr hc =>
          cases hc with
          | inl hc => exact hrelease c hc
          | inr hc =>
            obtain ⟨p, hp, hc⟩ := hc
            exact hident c (mem_identifiers (hpre p hp) hc)
      | inr hc =>
        obtain ⟨b, hb, hc⟩ := hc
        exact hident c (mem_identifiers (hbuild b hb) hc)
  refine ⟨strip_eq_self (fun c hc => (hclean c hc).1), hcore, ?_, fun hm => (hclean _ hm).2 rfl⟩
  rw [dotted, List.length_map, hlength]

end Grammars

variable {κ : Type}

section Archives

variable (A : ResourceArchives.Platform) (P : Platform)

/-- What `_validate_archive` makes of an archive whose version may be wrong. -/
def validated (package : Package κ) : Except Failure (Package κ) :=
  match parseVersion A (.text package.manifest.version) with
  | .ok _ => .ok package
  | .error (.validation message) => .error (.validation message)
  | .error _ => .error .value

def validatedOperation : Operation κ → Operation κ
  | .install archive => .install (archive.bind (validated A))
  | .update archive expected => .update (archive.bind (validated A)) expected
  | operation => operation

def reached (calls : List (Call κ)) : State κ :=
  calls.foldl (fun s c => (perform P ⟨validatedOperation A c.operation, c.world⟩ s).2) emptyState

/-- `Version` reads and orders texts by PEP 440, raising `InvalidVersion` only. -/
structure OrdersByPep440 : Prop where
  decimals : ∀ c, A.isDecimal c = true → c.isDigit = true ∨ Foreign c ∧ isSpace c = false
  reads : ∀ t b, A.version t = .ok b → b = (Pep440.parse t).isSome
  order : ∀ t u b, A.version t = .ok true → A.version u = .ok true → Pep440.notNewer t u = some b → P.notNewer t u = b

/-- The version passes the pattern, and `Version` reads it. -/
def Read (t : Text) : Prop := isSemver A.isDecimal t = true ∧ A.version t = .ok true

/-- Nothing but the version stands in the way of the update. -/
structure ElseValid (w : World) (s : State κ) (package : Package κ) (expected : Option Text) (current : Resource) :
    Prop where
  requested : expected = none ∨ expected = some package.manifest.resourceId
  installed : s.registry.get package.manifest.resourceId = some current
  type : current.type = package.manifest.type
  unregistered : package.manifest.version ∉ current.versions.map VersionRecord.version
  free : s.installed.get package.key = none
  source : (sanitizeSource P package.manifest.source).isSome
  backup : ∃ t, backupVersion w current s = .ok t
  steps : ∀ step, w.fails step = false

/-- An update with an archive in which all but the version is right. -/
structure Update (κ : Type) where
  package : Package κ
  expected : Option Text
  world : World

def Update.call (u : Update κ) : Call κ := ⟨.update (validated A u.package) u.expected, u.world⟩

def versionsOf (id : Text) (updates : List (Update κ)) : List Text :=
  (updates.filter (fun u => u.package.manifest.resourceId = id)).map (fun u => u.package.manifest.version)

/-- An update is accepted just in case its version comes later by PEP 440. -/
structure FollowsPep440 (s : State κ) : Prop where
  accepts : ∀ w package expected current, ElseValid P w s package expected current →
    isSemver A.isDecimal package.manifest.version = true →
    ((updateArchive P w (validated A package) expected s).1 = .ok () ↔
      A.version package.manifest.version = .ok true ∧ Newer package.manifest.version current.currentVersion)
  agrees : ∀ id current version, s.registry.get id = some current → Read A version →
    dotted (release current.currentVersion) ≠ dotted (release version) ∨
      Conventional version ∧ Conventional current.currentVersion →
    (Newer version current.currentVersion ↔ Higher version current.currentVersion)
  early : ∀ id current version v, s.registry.get id = some current → Read A version →
    Pep440.parse version = some v → v.Early → prerelease current.currentVersion = none →
    dotted (release version) = dotted (release current.currentVersion) →
    ¬ Newer version current.currentVersion
  increasing : ∀ id current updates t, s.registry.get id = some current →
    exec (next P) s (updates.map (Update.call A)) = some t →
    (current.currentVersion :: versionsOf id updates).Pairwise (fun t u => Newer u t)
  conventional : ∀ id current updates t, s.registry.get id = some current →
    exec (next P) s (updates.map (Update.call A)) = some t →
    (∀ version ∈ current.currentVersion :: versionsOf id updates, Conventional version) →
    (current.currentVersion :: versionsOf id updates).Pairwise (fun t u => Higher u t)

end Archives

section Records

variable {A : ResourceArchives.Platform} {P : Platform} {w : World} {s t : State κ}

theorem validated_eq_ok_iff {package u : Package κ} :
    validated A package = .ok u ↔ u = package ∧ Read A package.manifest.version := by
  unfold validated Read parseVersion
  by_cases hs : isSemver A.isDecimal package.manifest.version = true
  · cases hv : A.version package.manifest.version with
    | error e => cases e <;> simp [hs, hv]
    | ok b => cases b <;> simp [ResourceArchives.invalid, hs, hv, eq_comm]
  · simp [ResourceArchives.invalid, hs]

structure Versioned (A : ResourceArchives.Platform) (r : Resource) : Prop where
  current : Read A r.currentVersion
  listed : ∀ v ∈ r.versions, Read A v.version

structure Kept (A : ResourceArchives.Platform) (s : State κ) : Prop where
  wellKept : WellKept s
  records : ∀ id r, s.registry.get id = some r → Versioned A r
  backups : ∀ id b, s.backups.get id = some b → Versioned A b.resource

theorem kept_of_follows {written : Resource → Prop} (hs : Kept A s) (hk : WellKept t) (hf : Follows s t written)
    (hw : ∀ r, written r → Versioned A r) : Kept A t where
  wellKept := hk
  records id r hr := (hf.registry id r hr).elim (hs.records id r) (fun h => hw r h.2)
  backups id b hb := (hf.backups id b hb).elim (hs.backups id b) (fun ⟨id, hr⟩ => hs.records id _ hr)

theorem versioned_new {m : Manifest} {r : Resource} (hm : Read A m.version) (h : newResource P w m = .ok r) :
    Versioned A r := by
  obtain ⟨source, _, _, hcurrent, hversions⟩ := newResource_record h
  refine ⟨hcurrent ▸ hm, fun v hv => ?_⟩
  rw [hversions, List.mem_singleton] at hv
  exact hv ▸ hm

theorem versioned_updated {m : Manifest} {current r : Resource} (hc : Versioned A current) (hm : Read A m.version)
    (h : updatedResource P w current m = .ok r) : Versioned A r := by
  obtain ⟨source, _, _, hcurrent, hversions⟩ := updatedResource_record h
  refine ⟨hcurrent ▸ hm, fun v hv => ?_⟩
  rw [hversions, List.mem_append, List.mem_singleton] at hv
  cases hv with
  | inl hold => exact hc.listed v hold
  | inr hnew => exact hnew ▸ hm

theorem follows_installed (package : Package κ) (s : State κ) :
    Follows s (installArchive P w (.ok package) s).2 (fun r => newResource P w package.manifest = .ok r) := by
  rw [installArchive, audited_snd]
  unfold installPackage
  split
  · exact follows_refl s
  split
  · exact follows_refl s
  split
  · exact follows_refl s
  · next h => exact follows_publish h

theorem follows_updated (package : Package κ) (expected : Option Text) (s : State κ) :
    Follows s (updateArchive P w (.ok package) expected s).2 (fun r => ∃ id current,
      s.registry.get id = some current ∧ updatedResource P w current package.manifest = .ok r) := by
  rw [updateArchive, audited_snd]
  unfold updatePackage
  split
  · exact follows_refl s
  · next current hcheck =>
    have hc := (checkUpdate_spec hcheck).1
    split
    · exact follows_refl s
    · next hbackup =>
      refine follows_trans (follows_backupVersion hc hbackup) ?_
      split
      · exact follows_refl _
      split
      · exact follows_refl _
      · next h => exact follows_publish ⟨_, current, hc, h⟩

theorem bind_validated (archive : Except Failure (Package κ)) : (∃ e, archive.bind (validated A) = .error e) ∨
    ∃ package, archive.bind (validated A) = .ok package ∧ Read A package.manifest.version := by
  cases archive with
  | error e => exact .inl ⟨e, rfl⟩
  | ok package =>
    change (∃ e, validated A package = .error e) ∨ ∃ u, validated A package = .ok u ∧ Read A u.manifest.version
    cases h : validated A package with
    | error e => exact .inl ⟨e, rfl⟩
    | ok u =>
      obtain ⟨rfl, hread⟩ := validated_eq_ok_iff.mp h
      exact .inr ⟨u, rfl, hread⟩

theorem versioned_written (hs : Kept A s) {operation : Operation κ} {r : Resource} (h : Written P w s operation r)
    (hi : ∀ archive, operation ≠ .install archive) (hu : ∀ archive expected, operation ≠ .update archive expected) :
    Versioned A r := by
  cases h with
  | installed _ => exact absurd rfl (hi _)
  | updated _ _ _ => exact absurd rfl (hu _ _)
  | enabled hc =>
    have hold := hs.records _ _ hc
    exact ⟨hold.current, hold.listed⟩
  | disabled hc =>
    have hold := hs.records _ _ hc
    exact ⟨hold.current, hold.listed⟩
  | restored hc hv =>
    have hold := hs.records _ _ hc
    exact ⟨hold.listed _ hv, hold.listed⟩
  | @restoredBackup _ _ b hb hv =>
    have hold := hs.backups _ _ hb
    obtain ⟨_, _, _, hversion, _⟩ := validateBackup_spec hv
    have hcurrent : Read A b.version := hversion ▸ hold.current
    exact ⟨hcurrent, hold.listed⟩

theorem kept_perform (hs : Kept A s) (c : Call κ) :
    Kept A (perform P ⟨validatedOperation A c.operation, c.world⟩ s).2 := by
  have hk := wellKept_perform (P := P) hs.wellKept ⟨validatedOperation A c.operation, c.world⟩
  have hf := follows_perform P ⟨validatedOperation A c.operation, c.world⟩ s
  obtain ⟨operation, w⟩ := c
  cases operation with
  | install archive =>
    cases bind_validated (A := A) archive with
    | inl h =>
      obtain ⟨e, he⟩ := h
      simp only [validatedOperation, he, perform, installArchive]
      exact hs
    | inr h =>
      obtain ⟨package, he, hread⟩ := h
      simp only [validatedOperation, he, perform] at hk ⊢
      exact kept_of_follows hs hk (follows_installed package s) (fun r hr => versioned_new hread hr)
  | update archive expected =>
    cases bind_validated (A := A) archive with
    | inl h =>
      obtain ⟨e, he⟩ := h
      simp only [validatedOperation, he, perform, updateArchive]
      exact hs
    | inr h =>
      obtain ⟨package, he, hread⟩ := h
      simp only [validatedOperation, he, perform] at hk ⊢
      refine kept_of_follows hs hk (follows_updated package expected s) (fun r hr => ?_)
      obtain ⟨id, current, hc, hr⟩ := hr
      exact versioned_updated (hs.records id current hc) hread hr
  | _ => exact kept_of_follows hs hk hf (fun r hr => versioned_written hs hr (by rintro _ ⟨⟩) (by rintro _ _ ⟨⟩))

theorem kept_reached (A : ResourceArchives.Platform) (P : Platform) (calls : List (Call κ)) :
    Kept A (reached A P calls) := by
  have hrun : ∀ (calls : List (Call κ)) (s : State κ), Kept A s →
      Kept A (calls.foldl (fun s c => (perform P ⟨validatedOperation A c.operation, c.world⟩ s).2) s) := by
    intro calls
    induction calls with
    | nil => exact fun s hs => hs
    | cons c calls ih => exact fun s hs => ih _ (kept_perform hs c)
  exact hrun calls emptyState ⟨wellKept_empty, fun _ _ h => (nomatch h), fun _ _ h => (nomatch h)⟩

end Records

section Updates

variable {A : ResourceArchives.Platform} {P : Platform} {w : World} {s t : State κ} (hp : OrdersByPep440 A P)

include hp

theorem parse_read {version : Text} (h : Read A version) : ∃ v, Pep440.parse version = some v :=
  Option.isSome_iff_exists.mp (hp.reads version true h.2).symm

theorem semantic_read {version : Text} (h : Read A version) : Semantic version :=
  semantic_of_isSemver hp.decimals h.1

theorem notNewer_iff {version current : Text} (hv : Read A version) (hc : Read A current) :
    P.notNewer version current = false ↔ Newer version current := by
  obtain ⟨v, hpv⟩ := parse_read hp hv
  obtain ⟨w, hpw⟩ := parse_read hp hc
  have hsome : Pep440.notNewer version current = some (!decide (w.key < v.key)) := by
    rw [Pep440.notNewer, hpv, hpw]
    rfl
  rw [← Pep440.notNewer_eq_false_iff, hp.order version current _ hv.2 hc.2 hsome, hsome, Option.some.injEq]

variable {current : Resource}

omit hp in
theorem checkUpdate_iff {m : Manifest} {expected : Option Text} :
    checkUpdate P m expected s = .ok current ↔ (expected = none ∨ expected = some m.resourceId) ∧
      s.registry.get m.resourceId = some current ∧ current.type = m.type ∧
      P.notNewer m.version current.currentVersion = false ∧
      m.version ∉ current.versions.map VersionRecord.version := by
  constructor
  · intro h
    obtain ⟨hc, htype, hversion⟩ := checkUpdate_spec h
    unfold checkUpdate at h
    rw [hc] at h
    split at h
    · cases h
    · next hrequested =>
      simp only at h
      split at h
      · cases h
      split at h
      · cases h
      · next hnewer =>
        refine ⟨?_, hc, htype, Bool.not_eq_true _ ▸ hnewer, hversion⟩
        by_cases hnone : expected = none
        · exact .inl hnone
        · exact .inr (not_not.mp (fun hne => hrequested ⟨hnone, hne⟩))
  · intro ⟨hrequested, hc, htype, hnewer, hversion⟩
    have hid : ¬ (expected ≠ none ∧ expected ≠ some m.resourceId) :=
      fun h => hrequested.elim h.1 h.2
    rw [checkUpdate, if_neg hid, hc]
    simp [htype, hnewer, hversion]

theorem accepts_iff {package : Package κ} {expected : Option Text} (hs : Kept A s)
    (h : ElseValid P w s package expected current) (hsemver : isSemver A.isDecimal package.manifest.version = true) :
    (updateArchive P w (validated A package) expected s).1 = .ok () ↔
      A.version package.manifest.version = .ok true ∧ Newer package.manifest.version current.currentVersion := by
  have hcurrent := (hs.records _ _ h.installed).current
  constructor
  · intro hok
    cases hval : validated A package with
    | error e =>
      rw [hval] at hok
      cases hok
    | ok u =>
      obtain ⟨rfl, hread⟩ := validated_eq_ok_iff.mp hval
      rw [hval] at hok
      have hdone := done_update hok
      generalize (updateArchive P w (.ok u) expected s).2 = t at hdone
      cases hdone with
      | updated hc _ _ =>
        obtain ⟨_, hget, _, hnewer, _⟩ := checkUpdate_iff.mp hc
        cases h.installed.symm.trans hget
        exact ⟨hread.2, (notNewer_iff hp hread hcurrent).mp hnewer⟩
  · intro ⟨hversion, hnewer⟩
    have hread : Read A package.manifest.version := ⟨hsemver, hversion⟩
    have hc : checkUpdate P package.manifest expected s = .ok current := checkUpdate_iff.mpr
      ⟨h.requested, h.installed, h.type, (notNewer_iff hp hread hcurrent).mpr hnewer, h.unregistered⟩
    obtain ⟨t, ht⟩ := h.backup
    have hfree : t.installed.get package.key = none := by
      rw [(backupVersion_spec ht).2.2.1]
      exact h.free
    obtain ⟨source, hsource⟩ := Option.isSome_iff_exists.mp h.source
    rw [validated_eq_ok_iff.mpr ⟨rfl, hread⟩]
    simp [updateArchive, updatePackage, hc, ht, stage, h.steps, hfree, updatedResource, hsource, publish]

theorem next_update {u : Update κ} (hs : Kept A s) (h : next P s (u.call A) = some t) :
    Kept A t ∧ ∃ current r, s.registry.get u.package.manifest.resourceId = some current ∧
      t.registry.get u.package.manifest.resourceId = some r ∧ r.currentVersion = u.package.manifest.version ∧
      Read A u.package.manifest.version ∧ Newer u.package.manifest.version current.currentVersion ∧
      ∀ id, id ≠ u.package.manifest.resourceId → t.registry.get id = s.registry.get id := by
  obtain ⟨hok, rfl⟩ := next_eq_some.mp h
  refine ⟨kept_perform hs ⟨.update (.ok u.package) u.expected, u.world⟩, ?_⟩
  cases hval : validated A u.package with
  | error e =>
    rw [Update.call, hval] at hok
    cases hok
  | ok package =>
    obtain ⟨rfl, hread⟩ := validated_eq_ok_iff.mp hval
    rw [Update.call, hval] at hok ⊢
    have hdone := done_perform hok
    generalize (perform P _ s).2 = t at hdone
    cases hdone with
    | @updated _ _ current r v hc hb hr =>
      obtain ⟨_, hget, _, hnewer, _⟩ := checkUpdate_iff.mp hc
      obtain ⟨_, _, hid, hversion, _⟩ := updatedResource_record hr
      have hid : r.resourceId = u.package.manifest.resourceId := hid.trans (hs.wellKept.records _ _ hget).2
      have hregistry : ∀ id, (({ v with installed := v.installed.set u.package.key u.package }.commit r).registry).get id =
          if id = u.package.manifest.resourceId then some r else s.registry.get id := by
        intro id
        rw [State.commit, Dict.get_set, hid, (backupVersion_spec hb).1]
      refine ⟨current, r, hget, (hregistry _).trans (if_pos rfl), hversion, hread, ?_, fun id hne => ?_⟩
      · exact (notNewer_iff hp hread (hs.records _ _ hget).current).mp hnewer
      · exact (hregistry id).trans (if_neg hne)

theorem increasing_updates {id : Text} {updates : List (Update κ)} (hs : Kept A s)
    (hc : s.registry.get id = some current) (h : exec (next P) s (updates.map (Update.call A)) = some t) :
    (current.currentVersion :: versionsOf id updates).Pairwise (fun t u => Newer u t ∧ Read A t ∧ Read A u) := by
  induction updates generalizing s current with
  | nil => exact List.pairwise_singleton _ _
  | cons u updates ih =>
    obtain ⟨s', hs', h⟩ := (exec_cons _).mp h
    obtain ⟨hkept, old, r, hold, hr, hversion, hread, hnewer, hother⟩ := next_update hp hs hs'
    by_cases hid : u.package.manifest.resourceId = id
    · subst hid
      cases hc.symm.trans hold
      have hrest := ih hkept hr h
      rw [hversion] at hrest
      have hversions : versionsOf u.package.manifest.resourceId (u :: updates) =
          u.package.manifest.version :: versionsOf u.package.manifest.resourceId updates := by
        rw [versionsOf, List.filter_cons_of_pos (by simp)]
        rfl
      rw [hversions]
      have hcurrent := (hs.records _ _ hc).current
      refine List.Pairwise.cons (fun v hv => ?_) hrest
      cases List.mem_cons.mp hv with
      | inl he => exact he ▸ ⟨hnewer, hcurrent, hread⟩
      | inr hm =>
        obtain ⟨hlater, _, hv⟩ := List.rel_of_pairwise_cons hrest hm
        exact ⟨hlater.trans hnewer, hcurrent, hv⟩
    · have hversions : versionsOf id (u :: updates) = versionsOf id updates := by
        rw [versionsOf, List.filter_cons_of_neg (by simpa using hid)]
        rfl
      rw [hversions]
      exact ih hkept ((hother id (Ne.symm hid)).trans hc) h

theorem newer_iff_higher {version current : Text} (hv : Read A version) (hc : Read A current)
    (h : dotted (release current) ≠ dotted (release version) ∨ Conventional version ∧ Conventional current) :
    Newer version current ↔ Higher version current := by
  obtain ⟨v, hpv⟩ := parse_read hp hv
  obtain ⟨w, hpw⟩ := parse_read hp hc
  cases h with
  | inl hne => exact newer_iff_higher_of_release_ne (semantic_read hp hv) (semantic_read hp hc) hpv hpw hne
  | inr hcon => exact newer_iff_higher_of_conventional (semantic_read hp hv) (semantic_read hp hc) hpv hpw hcon.1 hcon.2

omit hp in
/-- In every state that calls lead to, updates follow the order of PEP 440. -/
theorem updates_follow_pep440 (hp : OrdersByPep440 A P) (calls : List (Call κ)) :
    FollowsPep440 A P (reached A P calls) := by
  have hs := kept_reached A P calls
  refine ⟨fun w package expected current h hsemver => accepts_iff hp hs h hsemver,
    fun id current version hr hv h => newer_iff_higher hp hv (hs.records id current hr).current h,
    fun id current version v hr hv hparse hearly hfinal hsame => ?_, fun id current updates t hr h => ?_,
    fun id current updates t hr h hall => ?_⟩
  · obtain ⟨w, hw⟩ := parse_read hp (hs.records id current hr).current
    exact not_newer_of_semantic (semantic_read hp hv) (semantic_read hp (hs.records id current hr).current) hparse hw
      hsame hfinal hearly
  · exact (increasing_updates hp hs hr h).imp (fun hlt => hlt.1)
  · refine (increasing_updates hp hs hr h).imp_of_mem (fun ht hu hlt => ?_)
    exact (newer_iff_higher hp hlt.2.2 hlt.2.1 (.inr ⟨hall _ hu, hall _ ht⟩)).mp hlt.1

end Updates

/-- The libraries, where `Version` follows PEP 440. -/
def sampleArchives : ResourceArchives.Platform where
  sha256 _ := List.replicate 64 '0'
  sha256_digits _ := by decide
  casefold t := t.map Char.toLower
  isDecimal := Char.isDigit
  version t := .ok (Pep440.parse t).isSome
  dumps _ := []
  printed _ := []
  loads _ := .malformed
  accepts _ := true

def samplePlatform : Platform :=
  { plainPlatform with notNewer := fun t u => (Pep440.notNewer t u).getD true }

theorem sample_orders : OrdersByPep440 sampleArchives samplePlatform where
  decimals _ h := .inl h
  reads _ _ h := (Except.ok.inj h).symm
  order t u b _ _ h := by
    change (Pep440.notNewer t u).getD true = b
    rw [h]
    rfl

/-- A note of version 1.0.0 has been installed. -/
def noted : State Unit := reached sampleArchives samplePlatform [installNote]

theorem noted_follows_pep440 : FollowsPep440 sampleArchives samplePlatform noted ∧
    (noted.registry.get "note".toList).isSome = true :=
  ⟨updates_follow_pep440 sample_orders [installNote], by decide +kernel⟩

def updateTo (version : String) : Except Failure Unit :=
  (updateArchive samplePlatform (smoothly "backup-1" (.disable [])).world
    (validated sampleArchives (note version '2')) none noted).1

/-- A numeric pre-release replaces its own release, as does a build of it, and one that PEP 440
does not know is refused. -/
theorem accepted_against_semver : (isSemver Char.isDigit "1.0.0-1".toList = true ∧ updateTo "1.0.0-1" = .ok () ∧
      Higher "1.0.0".toList "1.0.0-1".toList) ∧
    (isSemver Char.isDigit "1.0.0+1".toList = true ∧ updateTo "1.0.0+1" = .ok () ∧
      ¬ Higher "1.0.0+1".toList "1.0.0".toList) ∧
    isSemver Char.isDigit "2.0.0-nightly".toList = true ∧
      updateTo "2.0.0-nightly" = invalid "resource version is invalid" ∧
      Higher "2.0.0-nightly".toList "1.0.0".toList := by
  decide +kernel

end Kirara.VersionedUpdates
