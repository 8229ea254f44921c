import Kirara.ConfirmedPermissions
import Kirara.Schedules
import Mathlib.Data.Fintype.EquivFin

namespace Kirara.ResourceAgreement

open Kirara.Channels Kirara.Dicts Kirara.ResourceLifecycle Kirara.ConfirmedPermissions Kirara.Schedules

variable {κ : Type} {P : Platform} {w : World} {s t : State κ}

def ListedIn (r : Resource) (version digest : Text) : Prop :=
  ∃ v ∈ r.versions, v.version = version ∧ v.contentSha256 = digest

def Listed (s : State κ) (id version digest : Text) : Prop :=
  ∃ r, s.registry.get id = some r ∧ ListedIn r version digest

def Held (s : State κ) (id version digest : Text) : Prop :=
  ∃ package, s.installed.get (id, version) = some package ∧ package.manifest.contentSha256 = digest

structure Agrees (s : State κ) : Prop where
  listed : ∀ id r, s.registry.get id = some r → ∀ v ∈ r.versions, Held s id v.version v.contentSha256
  current : ∀ id r, s.registry.get id = some r → r.currentVersion ∈ r.versions.map VersionRecord.version
  nothingElse : ∀ id version package, s.installed.get (id, version) = some package →
    ∃ r, s.registry.get id = some r ∧ version ∈ r.versions.map VersionRecord.version

/-- No step fails, and the identity of the backup is a new one. -/
structure Smooth (w : World) (s : State κ) : Prop where
  fresh : s.backups.get w.backupId = none
  steps : ∀ step, w.fails step = false

/-- What is there stands in the way of no restored version and of no update. -/
structure Serves (P : Platform) (s : State κ) : Prop where
  restores : ∀ w, Smooth w s → ∀ id r, s.registry.get id = some r → ∀ v ∈ r.versions,
    (restoreVersion P w id v.version true s).1 = .ok ()
  updates : ∀ w, Smooth w s → ∀ package expected current,
    checkUpdate P package.manifest expected s = .ok current →
    (sanitizeSource P package.manifest.source).isSome →
    (updateArchive P w (.ok package) expected s).1 = .ok ()

/-- The same pairs of a version and a digest are listed and on the disk. -/
def Matches (s : State κ) : Prop := ∀ id version digest, Listed s id version digest ↔ Held s id version digest

theorem agrees_iff_matches (hs : WellKept s) : Agrees s ↔ Matches s := by
  constructor
  · intro h id version digest
    constructor
    · intro ⟨r, hr, v, hv, hversion, hdigest⟩
      exact hversion ▸ hdigest ▸ h.listed id r hr v hv
    · intro ⟨package, hp, hdigest⟩
      obtain ⟨r, hr, hversion⟩ := h.nothingElse id version package hp
      obtain ⟨v, hv, rfl⟩ := List.mem_map.mp hversion
      obtain ⟨package', hp', hdigest'⟩ := h.listed id r hr v hv
      cases hp.symm.trans hp'
      exact ⟨r, hr, v, hv, rfl, hdigest'.symm.trans hdigest⟩
  · intro h
    refine ⟨fun id r hr v hv => (h id _ _).mp ⟨r, hr, v, hv, rfl, rfl⟩, fun id r hr => ?_, fun id version package hp => ?_⟩
    · obtain ⟨v, hv, hversion, _⟩ := (hs.records id r hr).1.current
      exact List.mem_map.mpr ⟨v, hv, hversion⟩
    · obtain ⟨r, hr, v, hv, hversion, _⟩ := (h id version _).mpr ⟨package, hp, rfl⟩
      exact ⟨r, hr, List.mem_map.mpr ⟨v, hv, hversion⟩⟩

variable {r : Resource} {id version digest : Text}

theorem listed_commit : Listed (s.commit r) id version digest ↔
      if id = r.resourceId then ListedIn r version digest else Listed s id version digest := by
  unfold Listed State.commit
  by_cases h : id = r.resourceId
  · simp [h]
  · simp [h]

variable {package : Package κ} {key : Text × Text}

theorem listed_set : Listed { s with installed := s.installed.set key package } id version digest ↔
      Listed s id version digest := Iff.rfl

theorem held_commit : Held (s.commit r) id version digest ↔ Held s id version digest := Iff.rfl

theorem held_set : Held { s with installed := s.installed.set key package } id version digest ↔
      if (id, version) = key then package.manifest.contentSha256 = digest else Held s id version digest := by
  unfold Held
  by_cases h : (id, version) = key
  · simp [h]
  · simp [h]

theorem matches_placed (hs : Matches s) (package : Package κ) (version : Text) (r : Resource) :
    Matches ({ s with installed := s.installed.set (r.resourceId, version) package }.commit r) ↔
      ∀ v d, ListedIn r v d ↔
        if v = version then package.manifest.contentSha256 = d else Listed s r.resourceId v d := by
  constructor
  · intro h v d
    have hv := h r.resourceId v d
    rw [listed_commit, if_pos rfl, held_commit, held_set] at hv
    simpa [hs r.resourceId v d] using hv
  · intro h id v d
    rw [listed_commit, held_commit, held_set]
    by_cases hid : id = r.resourceId
    · subst hid
      simpa [← hs r.resourceId v d] using h v d
    · simpa [hid, listed_set] using hs id v d

theorem matches_commit (hs : Matches s) {r current : Resource} (hc : s.registry.get r.resourceId = some current)
    (hv : r.versions = current.versions) : Matches (s.commit r) := by
  intro id version digest
  rw [listed_commit, held_commit, ← hs]
  split
  · next hid => simp [Listed, hid, hc, ListedIn, hv]
  · exact Iff.rfl

theorem matches_deleted (hs : Matches s) (id : Text) :
    Matches { s.deleteVersions id with registry := s.registry.pop id, file := s.registry.pop id } := by
  intro id' version digest
  have hid := hs id' version digest
  unfold Listed Held State.deleteVersions at *
  by_cases h : id' = id
  · subst h
    simp [Dict.get_filter_eq_some_iff]
  · simp only [Dict.get_pop_of_ne h, Dict.get_filter_eq_some_iff]
    simpa [h] using hid

inductive Done (P : Platform) (w : World) (s : State κ) : Operation κ → State κ → Prop where
  | installed {package : Package κ} {r : Resource}
    (hnew : s.registry.get package.manifest.resourceId = none) (hfree : s.installed.get package.key = none)
    (hr : newResource P w package.manifest = .ok r) :
    Done P w s (.install (.ok package)) ({ s with installed := s.installed.set package.key package }.commit r)
  | updated {package : Package κ} {expected : Option Text} {current r : Resource} {t : State κ}
    (hc : checkUpdate P package.manifest expected s = .ok current) (hb : backupVersion w current s = .ok t)
    (hr : updatedResource P w current package.manifest = .ok r) :
    Done P w s (.update (.ok package) expected)
      ({ t with installed := t.installed.set package.key package }.commit r)
  | alreadyEnabled {id : Text} {confirmed : Bool} : Done P w s (.enable id confirmed) s
  | enabled {id : Text} {current : Resource} (hc : s.registry.get id = some current) :
    Done P w s (.enable id true)
      (s.commit { current with enabled := true, confirmationRequired := false, updatedAt := w.now })
  | alreadyDisabled {id : Text} : Done P w s (.disable id) s
  | disabled {id : Text} {current : Resource} (hc : s.registry.get id = some current) :
    Done P w s (.disable id) (s.commit { current with enabled := false, updatedAt := w.now })
  | restored {id version : Text} {current : Resource} {record : VersionRecord} {t : State κ}
    (hc : checkRestore id version true s = .ok (current, record)) (hb : backupVersion w current s = .ok t)
    (ha : (sanitizeSource P record.source).isSome) :
    Done P w s (.restoreVersion id version true)
      (t.commit { restoredResource current record with updatedAt := w.now })
  | removed {id : Text} {current : Resource} {t : State κ} (hc : s.registry.get id = some current)
    (hb : backupVersion w current s = .ok t) :
    Done P w s (.remove id true)
      { t.deleteVersions id with registry := t.registry.pop id, file := t.registry.pop id }
  | deletedBackup {id : Text} : Done P w s (.deleteBackup id true) { s with backups := s.backups.pop id }
  | restoredBackup {id : Text} {b : Backup κ} (hb : s.backups.get id = some b) (hv : validateBackup b = .ok ()) :
    Done P w s (.restoreBackup id true)
      ({ s with installed := s.installed.set (b.resourceId, b.version) b.package }.commit (b.restored w))

theorem publish_ok (h : (publish w package r s).1 = .ok ()) :
    (publish w package r s).2 = { s with installed := s.installed.set package.key package }.commit r := by
  unfold publish at h ⊢
  dsimp only at h ⊢
  split at h
  · cases h
  split at h
  · cases h
  · next hreplace hwrite => rw [if_neg hreplace, if_neg hwrite]

theorem updateState_ok (h : (updateState P w r s).1 = .ok ()) :
    (updateState P w r s).2 = s.commit { r with updatedAt := w.now } ∧ (sanitizeSource P r.source).isSome := by
  unfold updateState at h ⊢
  split at h
  · cases h
  · next hwrite =>
    rw [if_neg hwrite]
    unfold auditRecord at h
    dsimp only at h
    split at h
    · next hsource => exact ⟨rfl, hsource⟩
    · cases h

theorem stage_ok (h : stage w package s = .ok ()) : s.installed.get package.key = none := by
  unfold stage at h
  split at h
  · cases h
  split at h
  · cases h
  · next hfree => simpa using hfree

variable {archive : Except Failure (Package κ)}

theorem done_install (h : (installArchive P w archive s).1 = .ok ()) :
    Done P w s (.install archive) (installArchive P w archive s).2 := by
  cases archive with
  | error e => cases h
  | ok package =>
    rw [installArchive, audited_ok_iff] at h
    rw [installArchive, audited_snd]
    unfold installPackage at h ⊢
    split at h
    · cases h
    · next hnew =>
      cases hstage : stage w package s with
      | error e => simp [hstage] at h
      | ok u =>
        cases hr : newResource P w package.manifest with
        | error e => simp [hstage, hr] at h
        | ok r =>
          simp only [hstage, hr] at h
          rw [if_neg hnew]
          rw [publish_ok h]
          exact .installed (by simpa using hnew) (stage_ok hstage) hr

theorem done_update {expected : Option Text} (h : (updateArchive P w archive expected s).1 = .ok ()) :
    Done P w s (.update archive expected) (updateArchive P w archive expected s).2 := by
  cases archive with
  | error e => cases h
  | ok package =>
    rw [updateArchive, audited_ok_iff] at h
    rw [updateArchive, audited_snd]
    unfold updatePackage at h ⊢
    cases hc : checkUpdate P package.manifest expected s with
    | error e => simp [hc] at h
    | ok current =>
      cases hb : backupVersion w current s with
      | error e => simp [hc, hb] at h
      | ok t =>
        cases hstage : stage w package t with
        | error e => simp [hc, hb, hstage] at h
        | ok u =>
          cases hr : updatedResource P w current package.manifest with
          | error e => simp [hc, hb, hstage, hr] at h
          | ok r =>
            simp only [hc, hb, hstage, hr] at h ⊢
            rw [publish_ok h]
            exact .updated hc hb hr

variable {id : Text} {confirmed : Bool}

theorem done_enable (h : (enable P w id confirmed s).1 = .ok ()) :
    Done P w s (.enable id confirmed) (enable P w id confirmed s).2 := by
  unfold enable at h ⊢
  cases hc : requireResource id s with
  | error e => simp [hc] at h
  | ok current =>
    simp only [hc] at h ⊢
    split
    · exact .alreadyEnabled
    · next hactive =>
      cases confirmed with
      | false => simp [hactive, refuse] at h
      | true =>
        simp only [hactive, Bool.not_true, Bool.false_eq_true, if_false] at h ⊢
        rw [(updateState_ok h).1]
        have hdone := Done.enabled (P := P) (w := w) (requireResource_spec hc)
        exact hdone

theorem done_disable (h : (disable P w id s).1 = .ok ()) : Done P w s (.disable id) (disable P w id s).2 := by
  unfold disable at h ⊢
  cases hc : requireResource id s with
  | error e => simp [hc] at h
  | ok current =>
    simp only [hc] at h ⊢
    split
    · exact .alreadyDisabled
    · next hactive =>
      rw [if_neg hactive] at h
      rw [(updateState_ok h).1]
      have hdone := Done.disabled (P := P) (w := w) (requireResource_spec hc)
      exact hdone

theorem done_restoreVersion {id version : Text} (h : (restoreVersion P w id version confirmed s).1 = .ok ()) :
    Done P w s (.restoreVersion id version confirmed) (restoreVersion P w id version confirmed s).2 := by
  unfold restoreVersion at h ⊢
  cases hc : checkRestore id version confirmed s with
  | error e => simp [hc] at h
  | ok found =>
    obtain ⟨current, record⟩ := found
    cases confirmed with
    | false =>
      unfold checkRestore at hc
      split at hc <;> cases hc
    | true =>
      cases hb : backupVersion w current s with
      | error e => simp [hc, hb] at h
      | ok t =>
        simp only [hc, hb] at h ⊢
        rw [(updateState_ok h).1]
        exact .restored hc hb (updateState_ok h).2

theorem done_remove (h : (remove P w id confirmed s).1 = .ok ()) :
    Done P w s (.remove id confirmed) (remove P w id confirmed s).2 := by
  unfold remove at h ⊢
  cases hc : requireResource id s with
  | error e => simp [hc] at h
  | ok current =>
    cases confirmed with
    | false => simp [hc, refuse] at h
    | true =>
      cases hb : backupVersion w current s with
      | error e => simp [hc, hb] at h
      | ok t =>
        simp only [hc, hb, Bool.not_true, Bool.false_eq_true, if_false] at h ⊢
        split at h
        · cases h
        · next hwrite =>
          rw [if_neg hwrite]
          exact .removed (requireResource_spec hc) hb

theorem done_deleteBackup (h : (deleteBackup P id confirmed s).1 = .ok ()) :
    Done P w s (.deleteBackup id confirmed) (deleteBackup P id confirmed s).2 := by
  unfold deleteBackup at h ⊢
  cases confirmed with
  | false => cases h
  | true =>
    cases hb : s.backups.get id with
    | none => simp [hb, refuse] at h
    | some b => exact .deletedBackup

theorem done_restoreBackup (h : (restoreBackup P w id confirmed s).1 = .ok ()) :
    Done P w s (.restoreBackup id confirmed) (restoreBackup P w id confirmed s).2 := by
  unfold restoreBackup at h ⊢
  cases hc : checkBackup w id confirmed s with
  | error e => simp [hc] at h
  | ok b =>
    obtain ⟨hb, hv⟩ := checkBackup_spec hc
    cases confirmed with
    | false => cases hc
    | true =>
      simp only [hc] at h ⊢
      split at h
      · cases h
      · next hreplace =>
        split at h
        · cases h
        · next hwrite =>
          rw [if_neg hreplace, if_neg hwrite]
          exact .restoredBackup hb hv

variable {c : Call κ}

theorem done_perform (h : (perform P c s).1 = .ok ()) : Done P c.world s c.operation (perform P c s).2 := by
  obtain ⟨operation, w⟩ := c
  cases operation with
  | install archive => exact done_install h
  | update archive expected => exact done_update h
  | enable id confirmed => exact done_enable h
  | disable id => exact done_disable h
  | restoreVersion id version confirmed => exact done_restoreVersion h
  | remove id confirmed => exact done_remove h
  | deleteBackup id confirmed => exact done_deleteBackup h
  | restoreBackup id confirmed => exact done_restoreBackup h

section Steps

def next (P : Platform) (s : State κ) (c : Call κ) : Option (State κ) :=
  match perform P c s with
  | (.ok (), t) => some t
  | (.error _, _) => none

/-- The version can be copied to a backup, its source recorded again. -/
def Plain (P : Platform) (package : Package κ) : Prop :=
  package.hidesMetadata = false ∧
    ∀ source, sanitizeSource P package.manifest.source = some source → (sanitizeSource P source).isSome

/-- An archive is plain, and a backup has the listed versions but for its own. -/
def Careful (P : Platform) (s : State κ) (c : Call κ) : Prop :=
  match c.operation with
  | .install (.ok package) => Plain P package
  | .update (.ok package) _ => Plain P package
  | .restoreBackup backupId _ => ∀ b, s.backups.get backupId = some b → ∀ version digest, version ≠ b.version →
    (ListedIn b.resource version digest ↔ Listed s b.resourceId version digest)
  | _ => True

/-- The step leads to a state in which the registry and the disk agree. -/
def Keeps (P : Platform) (s : State κ) (c : Call κ) : Prop :=
  ∀ t, next P s c = some t → Agrees t ∧ Serves P t

def Sourced (P : Platform) (r : Resource) : Prop := ∀ v ∈ r.versions, (sanitizeSource P v.source).isSome

structure Sound (P : Platform) (s : State κ) : Prop where
  kept : WellKept s
  matching : Matches s
  placed : ∀ key package, s.installed.get key = some package → package.key = key
  plain : ∀ key package, s.installed.get key = some package → package.hidesMetadata = false
  sourced : ∀ id r, s.registry.get id = some r → Sourced P r
  backed : ∀ id b, s.backups.get id = some b → b.package.hidesMetadata = false ∧ Sourced P b.resource

theorem next_eq_some : next P s c = some t ↔ (perform P c s).1 = .ok () ∧ (perform P c s).2 = t := by
  unfold next
  generalize perform P c s = out
  obtain ⟨result, u⟩ := out
  cases result with
  | ok v => simp
  | error e => simp

variable {current : Resource}

theorem backupVersion_spec (h : backupVersion w current s = .ok t) :
    t.registry = s.registry ∧ t.file = s.file ∧ t.installed = s.installed ∧
      (t.backups = s.backups ∨ ∃ package, s.installed.get (current.resourceId, current.currentVersion) = some package ∧
        package.hidesMetadata = false ∧ t.backups = s.backups.set w.backupId
          ⟨current.resourceId, current.currentVersion, current.contentSha256, current, package⟩) := by
  unfold backupVersion State.installedVersion at h
  split at h
  · cases h
    exact ⟨rfl, rfl, rfl, .inl rfl⟩
  · next package hp =>
    split at h
    · cases h
    · next hok =>
      cases h
      simp only [Bool.or_eq_true, not_or, Bool.not_eq_true] at hok
      exact ⟨rfl, rfl, rfl, .inr ⟨package, hp, hok.1.2, rfl⟩⟩

theorem backupVersion_plain (h : backupVersion w current s = .ok t)
    (hp : s.installed.get (current.resourceId, current.currentVersion) = some package) :
    package.hidesMetadata = false := by
  unfold backupVersion State.installedVersion at h
  simp only [hp] at h
  split at h
  · cases h
  · next hok =>
    simp only [Bool.or_eq_true, not_or, Bool.not_eq_true] at hok
    exact hok.1.2

variable {m : Manifest}

theorem newResource_record (h : newResource P w m = .ok r) :
    ∃ source, sanitizeSource P m.source = some source ∧ r.resourceId = m.resourceId ∧ r.currentVersion = m.version ∧
      r.versions = [versionRecord w m source] := by
  unfold newResource at h
  cases hs : sanitizeSource P m.source with
  | none => simp [hs] at h
  | some source =>
    simp only [hs, Except.ok.injEq] at h
    subst h
    exact ⟨source, rfl, rfl, rfl, rfl⟩

theorem updatedResource_record {current r : Resource} (h : updatedResource P w current m = .ok r) :
    ∃ source, sanitizeSource P m.source = some source ∧ r.resourceId = current.resourceId ∧
      r.currentVersion = m.version ∧ r.versions = current.versions ++ [versionRecord w m source] := by
  unfold updatedResource at h
  cases hs : sanitizeSource P m.source with
  | none => simp [hs] at h
  | some source =>
    simp only [hs, Except.ok.injEq] at h
    subst h
    exact ⟨source, rfl, rfl, rfl, rfl⟩

theorem listedIn_updated {source : Text}
    {expected : Option Text} (hc : checkUpdate P m expected s = .ok current) {version digest : Text} :
    (∃ v ∈ current.versions ++ [versionRecord w m source], v.version = version ∧ v.contentSha256 = digest) ↔
      if version = m.version then m.contentSha256 = digest else Listed s m.resourceId version digest := by
  obtain ⟨hr, _, hnew⟩ := checkUpdate_spec hc
  by_cases h : version = m.version
  · subst h
    have hold : ∀ v ∈ current.versions, v.version ≠ m.version :=
      fun v hv he => hnew (List.mem_map.mpr ⟨v, hv, he⟩)
    simp [versionRecord, or_and_right, exists_or]
    grind
  · simp [Listed, hr, ListedIn, h, versionRecord, or_and_right, exists_or, Ne.symm h]

section Serving

variable (hs : Sound P s)

include hs

theorem backupVersion_smooth (hw : Smooth w s) (current : Resource) : ∃ t, backupVersion w current s = .ok t := by
  unfold backupVersion State.installedVersion
  split
  · exact ⟨s, rfl⟩
  · next package hp =>
    rw [if_neg (by simp [hw.fresh, hw.steps, hs.plain _ _ hp])]
    exact ⟨_, rfl⟩

theorem checkRestore_listed (hr : s.registry.get id = some r) {v : VersionRecord}
    (hv : v ∈ r.versions) : checkRestore id v.version true s = .ok (r, v) := by
  obtain ⟨package, hp, hdigest⟩ := (hs.matching id _ _).mp ⟨r, hr, v, hv, rfl, rfl⟩
  have hkey := hs.placed _ _ hp
  rw [Package.key, Prod.mk.injEq] at hkey
  have hfind := find?_version (hs.kept.records id r hr).1.distinct hv
  simp [checkRestore, requireResource, State.installedVersion, hr, hfind, hp, hkey, hdigest]

theorem serves : Serves P s where
  restores w hw id r hr v hv := by
    obtain ⟨t, ht⟩ := backupVersion_smooth hs hw r
    have hsource : (sanitizeSource P (restoredResource r v).source).isSome := hs.sourced id r hr v hv
    simp [restoreVersion, checkRestore_listed hs hr hv, ht, updateState, hw.steps, auditRecord, hsource]
  updates w hw package expected current hc hsource := by
    obtain ⟨t, ht⟩ := backupVersion_smooth hs hw current
    obtain ⟨hr, _, hnew⟩ := checkUpdate_spec hc
    have hfree : t.installed.get package.key = none := by
      rw [(backupVersion_spec ht).2.2.1]
      apply Option.eq_none_iff_forall_ne_some.mpr
      intro p hp
      obtain ⟨r, hr', v, hv, hversion, _⟩ := (hs.matching package.manifest.resourceId package.manifest.version _).mpr ⟨p, hp, rfl⟩
      cases hr.symm.trans hr'
      exact hnew (List.mem_map.mpr ⟨v, hv, hversion⟩)
    obtain ⟨source, hsource⟩ := Option.isSome_iff_exists.mp hsource
    simp [updateArchive, updatePackage, hc, ht, stage, hw.steps, hfree, updatedResource, hsource, publish]

theorem matches_of_backup (hb : backupVersion w current s = .ok t) : Matches t := by
  obtain ⟨hregistry, _, hinstalled, _⟩ := backupVersion_spec hb
  intro id version digest
  have h := hs.matching id version digest
  unfold Listed Held at h ⊢
  rwa [hregistry, hinstalled]

variable {b : Backup κ}

theorem matches_restored_iff (hb : s.backups.get id = some b) (hv : validateBackup b = .ok ()) :
    Matches ({ s with installed := s.installed.set (b.resourceId, b.version) b.package }.commit (b.restored w)) ↔
      ∀ version digest, version ≠ b.version →
        (ListedIn b.resource version digest ↔ Listed s b.resourceId version digest) := by
  obtain ⟨_, _, _, hversion, hdigest⟩ := validateBackup_spec hv
  have hw := hs.kept.backups id b hb
  have hplaced := matches_placed hs.matching b.package b.version (b.restored w)
  refine hplaced.trans ⟨fun h version digest hne => ?_, fun h version digest => ?_⟩
  · have hlist := h version digest
    rwa [if_neg hne] at hlist
  · split
    · next he =>
      subst he
      obtain ⟨v, hmem, hcurrent, _, hsha⟩ := hw.current
      constructor
      · intro ⟨u, hu, huv, hud⟩
        have huv : u = v := eq_of_version_eq hw.distinct hu hmem (huv.trans (hversion.symm.trans hcurrent.symm))
        rw [← hdigest, ← hsha, ← huv, hud]
      · intro hd
        exact ⟨v, hmem, hcurrent.trans hversion, hsha.trans (hdigest.trans hd)⟩
    · next hne => exact h version digest hne

theorem get_own (hr : s.registry.get id = some r) : s.registry.get r.resourceId = some r := by
  rwa [(hs.kept.records id r hr).2]

variable {operation : Operation κ}

theorem matches_done (hd : Done P w s operation t) (hc : Careful P s ⟨operation, w⟩) : Matches t := by
  cases hd with
  | @installed package r hnew hfree hr =>
    obtain ⟨source, _, hid, _, hversions⟩ := newResource_record hr
    have hplaced := matches_placed hs.matching package package.manifest.version r
    rw [hid] at hplaced
    refine hplaced.mpr (fun version digest => ?_)
    simp [ListedIn, hversions, versionRecord, Listed, hnew]
    grind
  | @updated package expected current r u hcheck hb hr =>
    obtain ⟨hcurrent, _, _⟩ := checkUpdate_spec hcheck
    obtain ⟨source, _, hid, _, hversions⟩ := updatedResource_record hr
    have hid : r.resourceId = package.manifest.resourceId := hid.trans (hs.kept.records _ _ hcurrent).2
    have hplaced := matches_placed (matches_of_backup hs hb) package package.manifest.version r
    rw [hid] at hplaced
    refine hplaced.mpr (fun version digest => ?_)
    rw [ListedIn, hversions, listedIn_updated hcheck, Listed, Listed, (backupVersion_spec hb).1]
  | alreadyEnabled | alreadyDisabled => exact hs.matching
  | enabled hr | disabled hr =>
    have hown := get_own hs hr
    exact matches_commit hs.matching hown rfl
  | restored hcheck hb _ =>
    obtain ⟨hr, _, _⟩ := checkRestore_spec hcheck
    have hown := get_own hs hr
    rw [← (backupVersion_spec hb).1] at hown
    exact matches_commit (matches_of_backup hs hb) hown rfl
  | removed hr hb => exact matches_deleted (matches_of_backup hs hb) _
  | deletedBackup => exact hs.matching
  | restoredBackup hb hv => exact (matches_restored_iff hs hb hv).mpr (hc _ hb)

theorem package_done (hd : Done P w s operation t) (hc : Careful P s ⟨operation, w⟩)
    (hp : t.installed.get key = some package) : package.key = key ∧ package.hidesMetadata = false := by
  have hold : ∀ {package}, s.installed.get key = some package → package.key = key ∧ package.hidesMetadata = false :=
    fun h => ⟨hs.placed _ _ h, hs.plain _ _ h⟩
  have hset : ∀ {u : State κ} {package new : Package κ} {place : Text × Text}, u.installed = s.installed →
      new.key = place → new.hidesMetadata = false → (u.installed.set place new).get key = some package →
      package.key = key ∧ package.hidesMetadata = false := by
    intro u package new place hu hplace hplain h
    rw [Dict.get_set, hu] at h
    split at h
    · next he =>
      cases h
      exact ⟨hplace.trans he.symm, hplain⟩
    · exact hold h
  cases hd with
  | installed _ _ _ => exact hset rfl rfl hc.1 hp
  | updated _ hb _ => exact hset (backupVersion_spec hb).2.2.1 rfl hc.1 hp
  | alreadyEnabled | alreadyDisabled | enabled _ | disabled _ | deletedBackup => exact hold hp
  | restored _ hb _ =>
    rw [← (backupVersion_spec hb).2.2.1] at hold
    exact hold hp
  | removed _ hb =>
    have hp := (Dict.get_filter_eq_some_iff.mp hp).1
    rw [(backupVersion_spec hb).2.2.1] at hp
    exact hold hp
  | restoredBackup hb hv =>
    obtain ⟨hid, hversion, _⟩ := validateBackup_spec hv
    exact hset rfl (congrArg₂ Prod.mk hid hversion) (hs.backed _ _ hb).1 hp

theorem sourced_done (hd : Done P w s operation t) (hc : Careful P s ⟨operation, w⟩)
    (hr : t.registry.get id = some r) : Sourced P r := by
  have hset : ∀ {u : State κ} {new : Resource}, u.registry = s.registry → Sourced P new →
      (u.commit new).registry.get id = some r → Sourced P r := by
    intro u new hu hnew h
    rw [State.commit, Dict.get_set, hu] at h
    split at h
    · cases h
      exact hnew
    · exact hs.sourced id r h
  cases hd with
  | installed _ _ hnew =>
    obtain ⟨source, hsource, _, _, hversions⟩ := newResource_record hnew
    refine hset rfl (fun v hv => ?_) hr
    rw [hversions, List.mem_singleton] at hv
    rw [hv]
    exact hc.2 source hsource
  | updated hcheck hb hnew =>
    obtain ⟨hcurrent, _, _⟩ := checkUpdate_spec hcheck
    obtain ⟨source, hsource, _, _, hversions⟩ := updatedResource_record hnew
    refine hset (backupVersion_spec hb).1 (fun v hv => ?_) hr
    rw [hversions, List.mem_append, List.mem_singleton] at hv
    cases hv with
    | inl hold => exact hs.sourced _ _ hcurrent v hold
    | inr hlast =>
      rw [hlast]
      exact hc.2 source hsource
  | alreadyEnabled | alreadyDisabled | deletedBackup => exact hs.sourced id r hr
  | enabled hcurrent | disabled hcurrent =>
    have hold := hs.sourced _ _ hcurrent
    refine hset rfl ?_ hr
    exact hold
  | restored hcheck hb _ =>
    have hold := hs.sourced _ _ (checkRestore_spec hcheck).1
    refine hset (backupVersion_spec hb).1 ?_ hr
    exact hold
  | removed _ hb =>
    dsimp only at hr
    rw [(backupVersion_spec hb).1, Dict.get_pop] at hr
    split at hr
    · cases hr
    · exact hs.sourced id r hr
  | restoredBackup hb _ =>
    refine hset rfl ?_ hr
    exact (hs.backed _ _ hb).2

theorem backed_of_backup (hr : s.registry.get id = some current)
    (hb : backupVersion w current s = .ok t) {backupId : Text}
    (h : t.backups.get backupId = some b) : b.package.hidesMetadata = false ∧ Sourced P b.resource := by
  cases (backupVersion_spec hb).2.2.2 with
  | inl heq =>
    rw [heq] at h
    exact hs.backed _ _ h
  | inr hnew =>
    obtain ⟨package, _, hplain, heq⟩ := hnew
    rw [heq, Dict.get_set] at h
    split at h
    · cases h
      exact ⟨hplain, hs.sourced _ _ hr⟩
    · exact hs.backed _ _ h

theorem backed_done (hd : Done P w s operation t) {backupId : Text}
    (h : t.backups.get backupId = some b) : b.package.hidesMetadata = false ∧ Sourced P b.resource := by
  cases hd with
  | installed _ _ _ | alreadyEnabled | enabled _ | alreadyDisabled | disabled _ | restoredBackup _ _ =>
    exact hs.backed _ _ h
  | updated hcheck hb _ => exact backed_of_backup hs (checkUpdate_spec hcheck).1 hb h
  | restored hcheck hb _ => exact backed_of_backup hs (checkRestore_spec hcheck).1 hb h
  | removed hr hb => exact backed_of_backup hs hr hb h
  | deletedBackup =>
    dsimp only at h
    rw [Dict.get_pop] at h
    split at h
    · cases h
    · exact hs.backed _ _ h

theorem sound_done (hd : Done P c.world s c.operation t) (hk : WellKept t) (hc : Careful P s c) :
    Sound P t where
  kept := hk
  matching := matches_done hs hd hc
  placed _ _ hp := (package_done hs hd hc hp).1
  plain _ _ hp := (package_done hs hd hc hp).2
  sourced _ _ hr := sourced_done hs hd hc hr
  backed _ _ hb := backed_done hs hd hb

end Serving

theorem exists_fresh (backups : Dict Text (Backup κ)) : ∃ id, backups.get id = none := by
  obtain ⟨id, hid⟩ := Infinite.exists_notMem_finset backups.keys.toFinset
  refine ⟨id, Option.not_isSome_iff_eq_none.mp (fun h => hid ?_)⟩
  rw [List.mem_toFinset]
  exact Dict.isSome_get_iff.mp h

theorem plain_of_serves (hk : WellKept s) (h : Serves P s)
    (hr : s.registry.get id = some r) {v : VersionRecord} (hv : v ∈ r.versions) :
    (sanitizeSource P v.source).isSome ∧
      ∀ package, s.installed.get (r.resourceId, r.currentVersion) = some package → package.hidesMetadata = false := by
  obtain ⟨backupId, hfresh⟩ := exists_fresh s.backups
  have hd := done_restoreVersion (h.restores ⟨backupId, [], fun _ => false⟩ ⟨hfresh, fun _ => rfl⟩ id r hr v hv)
  generalize (restoreVersion P _ id v.version true s).2 = t at hd
  cases hd with
  | restored hcheck hb hsource =>
    obtain ⟨hr', hmem, hversion⟩ := checkRestore_spec hcheck
    cases hr.symm.trans hr'
    have hv := eq_of_version_eq (hk.records id r hr).1.distinct hmem hv hversion
    exact ⟨hv ▸ hsource, fun package hp => backupVersion_plain hb hp⟩

theorem careful_of_keeps (hs : Sound P s) (hd : Done P c.world s c.operation t) (hk : WellKept t)
    (ha : Agrees t) (hserves : Serves P t) : Careful P s c := by
  obtain ⟨operation, w⟩ := c
  cases hd with
  | @installed package r _ _ hnew =>
    obtain ⟨source, hsource, hid, hcurrent, hversions⟩ := newResource_record hnew
    have hr : (({ s with installed := s.installed.set package.key package } : State κ).commit r).registry.get
        r.resourceId = some r := Dict.get_set_self
    have hv : versionRecord w package.manifest source ∈ r.versions := by
      rw [hversions]
      exact List.mem_singleton_self _
    obtain ⟨hplain, hhides⟩ := plain_of_serves hk hserves hr hv
    refine ⟨hhides package ?_, fun _ h => ?_⟩
    · rw [hid, hcurrent]
      exact Dict.get_set_self
    · cases hsource.symm.trans h
      exact hplain
  | @updated package _ current r u hcheck hb hnew =>
    obtain ⟨source, hsource, hid, hcurrent, hversions⟩ := updatedResource_record hnew
    have hid : r.resourceId = package.manifest.resourceId :=
      hid.trans (hs.kept.records _ _ (checkUpdate_spec hcheck).1).2
    have hr : (({ u with installed := u.installed.set package.key package } : State κ).commit r).registry.get
        r.resourceId = some r := Dict.get_set_self
    have hv : versionRecord w package.manifest source ∈ r.versions := by
      rw [hversions]
      exact List.mem_append_right _ (List.mem_singleton_self _)
    obtain ⟨hplain, hhides⟩ := plain_of_serves hk hserves hr hv
    refine ⟨hhides package ?_, fun _ h => ?_⟩
    · rw [hid, hcurrent]
      exact Dict.get_set_self
    · cases hsource.symm.trans h
      exact hplain
  | restoredBackup hb hv =>
    intro b hb'
    cases hb.symm.trans hb'
    exact (matches_restored_iff hs hb hv).mp ((agrees_iff_matches hk).mp ha)
  | _ => trivial

theorem keeps_iff_careful (hs : Sound P s) (ht : next P s c = some t) :
    (Keeps P s c ↔ Careful P s c) ∧ (Careful P s c → Sound P t) := by
  obtain ⟨hok, rfl⟩ := next_eq_some.mp ht
  have hd := done_perform hok
  have hk := wellKept_perform (P := P) hs.kept c
  refine ⟨⟨fun h => ?_, fun hc v hv => ?_⟩, fun hc => sound_done hs hd hk hc⟩
  · obtain ⟨ha, hserves⟩ := h _ ht
    exact careful_of_keeps hs hd hk ha hserves
  · cases hv.symm.trans ht
    have hsound := sound_done hs hd hk hc
    exact ⟨(agrees_iff_matches hk).mpr hsound.matching, serves hsound⟩

theorem sound_empty : Sound P (emptyState : State κ) where
  kept := wellKept_empty
  matching _ _ _ := ⟨fun ⟨_, h, _⟩ => (nomatch h), fun ⟨_, h, _⟩ => (nomatch h)⟩
  placed _ _ h := (nomatch h)
  plain _ _ h := (nomatch h)
  sourced _ _ h := (nomatch h)
  backed _ _ h := (nomatch h)

/-- In a run of calls that return, each leaves a registry and a disk that agree and serve just
in case the archives are plain and every restored backup lists, but for its own version, what is
listed by then. -/
theorem agreement_iff (P : Platform) (calls : List (Call κ)) (h : (exec (next P) emptyState calls).isSome) :
    Along (next P) (Keeps P) emptyState calls ↔ Along (next P) (Careful P) emptyState calls := by
  obtain ⟨u, hu⟩ := Option.isSome_iff_exists.mp h
  exact along_iff_of_exec (next P) (I := Sound P) (fun _ _ _ hs ht => keeps_iff_careful hs ht) sound_empty hu

def updateNote : Call Unit := smoothly "backup-1" (.update (.ok (note "2.0.0" '2')) none)

def removeNote : Call Unit := smoothly "backup-2" (.remove "note".toList true)

def removedAndRestored : List (Call Unit) :=
  [installNote, updateNote, removeNote, smoothly "backup-3" (.restoreBackup "backup-2".toList true)]

theorem agreement_removedAndRestored :
    Along (next plainPlatform) (Keeps plainPlatform) emptyState removedAndRestored ↔
      Along (next plainPlatform) (Careful plainPlatform) emptyState removedAndRestored :=
  agreement_iff plainPlatform removedAndRestored (by decide +kernel)

/-- The removal backs up one version and deletes both. The backup brings back the record that
lists both, and the one without a directory cannot be restored. -/
theorem removed_version_listed : ∃ s r v, exec (next plainPlatform) emptyState removedAndRestored = some s ∧
      s.registry.get "note".toList = some r ∧ v ∈ r.versions ∧ v.version = "1.0.0".toList ∧
      s.installed.get ("note".toList, v.version) = none ∧
      (perform plainPlatform (smoothly "backup-4" (.restoreVersion "note".toList v.version true)) s).1 =
        invalid "registered resource version is unavailable" ∧
      ¬ Agrees s := by
  have hnone : ∃ s r v, exec (next plainPlatform) emptyState removedAndRestored = some s ∧
      s.registry.get "note".toList = some r ∧ v ∈ r.versions ∧ v.version = "1.0.0".toList ∧
      s.installed.get ("note".toList, v.version) = none ∧
      (perform plainPlatform (smoothly "backup-4" (.restoreVersion "note".toList v.version true)) s).1 =
        invalid "registered resource version is unavailable" :=
    ⟨_, _, _, rfl, rfl, List.mem_cons_self, rfl, by decide +kernel, by decide +kernel⟩
  obtain ⟨s, r, v, hs, hr, hv, hversion, hgone, hrestore⟩ := hnone
  refine ⟨s, r, v, hs, hr, hv, hversion, hgone, hrestore, fun h => ?_⟩
  obtain ⟨package, hp, _⟩ := h.listed _ _ hr _ hv
  cases hgone.symm.trans hp

end Steps

end Kirara.ResourceAgreement
