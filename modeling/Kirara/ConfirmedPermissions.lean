import Kirara.ResourceLifecycle

namespace Kirara.ConfirmedPermissions

open Kirara.Channels Kirara.Dicts Kirara.ResourceLifecycle

/-- The record lists each version once, the current one with the resource's permissions and
digest. -/
structure WellFormed (r : Resource) : Prop where
  distinct : (r.versions.map VersionRecord.version).Nodup
  current : ∃ v ∈ r.versions, v.version = r.currentVersion ∧ v.permissions = r.permissions ∧
    v.contentSha256 = r.contentSha256

def currentPermissions (r : Resource) : Option (List Text) :=
  (r.versions.find? (fun v => v.version = r.currentVersion)).map VersionRecord.permissions

theorem eq_of_version_eq {vs : List VersionRecord} (h : (vs.map VersionRecord.version).Nodup)
    {v u : VersionRecord} (hv : v ∈ vs) (hu : u ∈ vs) (he : v.version = u.version) : v = u :=
  List.inj_on_of_nodup_map h hv hu he

theorem find?_version {vs : List VersionRecord} (h : (vs.map VersionRecord.version).Nodup)
    {v : VersionRecord} (hv : v ∈ vs) : vs.find? (fun u => u.version = v.version) = some v := by
  have hsome : (vs.find? (fun u => u.version = v.version)).isSome :=
    List.find?_isSome.mpr ⟨v, hv, by simp⟩
  obtain ⟨u, hu⟩ := Option.isSome_iff_exists.mp hsome
  have hversion : u.version = v.version := by simpa using List.find?_some hu
  rw [hu, eq_of_version_eq h (List.mem_of_find?_eq_some hu) hv hversion]

theorem currentPermissions_eq {r : Resource} (h : WellFormed r) : currentPermissions r = some r.permissions := by
  obtain ⟨v, hv, hversion, hpermissions, _⟩ := h.current
  rw [currentPermissions, ← hversion, find?_version h.distinct hv, Option.map_some, hpermissions]

section Records

variable {P : Platform} {w : World} {current r : Resource} {m : Manifest}

theorem newResource_spec (h : newResource P w m = .ok r) :
    WellFormed r ∧ r.resourceId = m.resourceId ∧ r.enabled = false := by
  unfold newResource at h
  cases hs : sanitizeSource P m.source with
  | none => simp [hs] at h
  | some source =>
    simp only [hs, Except.ok.injEq] at h
    subst h
    exact ⟨⟨List.nodup_singleton _, _, List.mem_singleton_self _, rfl, rfl, rfl⟩, rfl, rfl⟩

theorem updatedResource_spec (hw : WellFormed current)
    (hnew : m.version ∉ current.versions.map VersionRecord.version)
    (h : updatedResource P w current m = .ok r) :
    WellFormed r ∧ r.resourceId = current.resourceId ∧ (r.enabled = true →
      current.enabled = true ∧ r.confirmationRequired = current.confirmationRequired ∧
        SamePermissions current.permissions r.permissions) := by
  unfold updatedResource at h
  cases hs : sanitizeSource P m.source with
  | none => simp [hs] at h
  | some source =>
    simp only [hs, Except.ok.injEq] at h
    subst h
    refine ⟨⟨?_, versionRecord w m source, ?_, rfl, rfl, rfl⟩, rfl, fun he => ?_⟩
    · rw [List.map_append, List.map_singleton]
      refine List.nodup_append.mpr ⟨hw.distinct, List.nodup_singleton _, fun a ha b hb hab => hnew ?_⟩
      rw [hab, List.mem_singleton.mp hb] at ha
      exact ha
    · exact List.mem_append_right _ (List.mem_singleton_self _)
    · by_cases hsame : SamePermissions current.permissions m.permissions
      · simpa [hsame] using he
      · simp [hsame] at he

variable {κ : Type} {s : State κ}

theorem checkUpdate_spec {expected : Option Text} (h : checkUpdate P m expected s = .ok current) :
    s.registry.get m.resourceId = some current ∧ current.type = m.type ∧
      m.version ∉ current.versions.map VersionRecord.version := by
  unfold checkUpdate at h
  split at h
  · cases h
  cases hc : s.registry.get m.resourceId with
  | none => simp [hc, refuse] at h
  | some c =>
    simp only [hc] at h
    split at h
    · cases h
    · next htype =>
      split at h
      · cases h
      split at h
      · cases h
      · next hversion =>
        cases h
        exact ⟨rfl, not_not.mp htype, hversion⟩

theorem requireResource_spec {id : Text} (h : requireResource id s = .ok current) :
    s.registry.get id = some current := by
  unfold requireResource at h
  cases hc : s.registry.get id with
  | none => simp [hc, refuse] at h
  | some c =>
    simp only [hc, Except.ok.injEq] at h
    exact congrArg some h

theorem checkRestore_spec {id version : Text} {confirmed : Bool} {record : VersionRecord}
    (h : checkRestore id version confirmed s = .ok (current, record)) :
    s.registry.get id = some current ∧ record ∈ current.versions ∧ record.version = version := by
  unfold checkRestore at h
  cases hc : requireResource id s with
  | error e => simp [hc] at h
  | ok c =>
    simp only [hc] at h
    split at h
    · cases h
    cases hr : c.versions.find? (fun item => item.version = version) with
    | none => simp [hr, invalid] at h
    | some v =>
      simp only [hr] at h
      cases hp : s.installedVersion id version with
      | none => simp [hp, invalid] at h
      | some package =>
        simp only [hp] at h
        split at h
        · cases h
        · cases h
          exact ⟨requireResource_spec hc, List.mem_of_find?_eq_some hr, by simpa using List.find?_some hr⟩

theorem wellFormed_restored {v : VersionRecord} (h : WellFormed current) (hv : v ∈ current.versions) :
    WellFormed (restoredResource current v) :=
  ⟨h.distinct, v, hv, rfl, rfl, rfl⟩

variable {b : Backup κ}

theorem validateBackup_spec (h : validateBackup b = .ok ()) :
    b.package.manifest.resourceId = b.resourceId ∧ b.package.manifest.version = b.version ∧
      b.resource.resourceId = b.resourceId ∧ b.resource.currentVersion = b.version ∧
      b.resource.contentSha256 = b.package.manifest.contentSha256 := by
  unfold validateBackup at h
  dsimp only at h
  split at h
  · cases h
  · next hid =>
    split at h
    · cases h
    split at h
    · cases h
    · next hsnap =>
      simp only [not_or, not_not] at hid hsnap
      exact ⟨hid.1, hid.2, hsnap.1.trans hid.1, hsnap.2.1.trans hid.2, hsnap.2.2⟩

theorem checkBackup_spec {id : Text} {confirmed : Bool}
    (h : checkBackup w id confirmed s = .ok b) : s.backups.get id = some b ∧ validateBackup b = .ok () := by
  unfold checkBackup at h
  split at h
  · cases h
  cases hb : s.backups.get id with
  | none => simp [hb, refuse] at h
  | some c =>
    simp only [hb] at h
    cases hv : validateBackup c with
    | error e => simp [hv] at h
    | ok u =>
      simp only [hv] at h
      split at h
      · cases h
      · cases h
        exact ⟨rfl, hv⟩

theorem wellFormed_backup (h : WellFormed b.resource) (hv : validateBackup b = .ok ()) :
    WellFormed (b.restored w) := by
  obtain ⟨_, _, _, hversion, _⟩ := validateBackup_spec hv
  refine ⟨h.distinct, ?_⟩
  have hcurrent := h.current
  rwa [hversion] at hcurrent

end Records

/-- A call writes records of one kind, and backs up records that are there. -/
structure Follows {κ : Type} (s t : State κ) (written : Resource → Prop) : Prop where
  registry : ∀ id r, t.registry.get id = some r →
    s.registry.get id = some r ∨ r.resourceId = id ∧ written r
  backups : ∀ id b, t.backups.get id = some b →
    s.backups.get id = some b ∨ ∃ id, s.registry.get id = some b.resource

variable {κ : Type} {P : Platform} {w : World} {s t u : State κ} {written : Resource → Prop}

theorem follows_of_eq (hr : t.registry = s.registry) (hb : t.backups = s.backups) : Follows s t written :=
  ⟨fun _ _ h => .inl (hr ▸ h), fun _ _ h => .inl (hb ▸ h)⟩

theorem follows_refl (s : State κ) : Follows s s written := follows_of_eq rfl rfl

theorem follows_trans (h : Follows s t (fun _ => False)) (k : Follows t u written) : Follows s u written where
  registry id r hr := by
    cases k.registry id r hr with
    | inl hr => exact (h.registry id r hr).imp_right (fun hw => hw.2.elim)
    | inr hw => exact .inr hw
  backups id b hb := by
    cases k.backups id b hb with
    | inl hb => exact h.backups id b hb
    | inr hb =>
      obtain ⟨id', hid⟩ := hb
      exact .inr ⟨id', (h.registry id' _ hid).resolve_right (fun hw => hw.2)⟩

theorem follows_commit {r : Resource} (h : written r) : Follows s (s.commit r) written where
  registry id r' hr := by
    rw [State.commit, Dict.get_set] at hr
    split at hr
    · next he =>
      cases hr
      exact .inr ⟨he.symm, h⟩
    · exact .inl hr
  backups _ _ hb := .inl hb

theorem follows_updateState {r : Resource} (h : written { r with updatedAt := w.now }) :
    Follows s (updateState P w r s).2 written := by
  unfold updateState
  split
  · exact follows_refl s
  · exact follows_commit h

theorem follows_publish {package : Package κ} {r : Resource} (h : written r) :
    Follows s (publish w package r s).2 written := by
  unfold publish
  dsimp only
  split
  · exact follows_refl s
  split
  · exact follows_of_eq rfl rfl
  have hplaced : Follows s { s with installed := s.installed.set package.key package } (fun _ => False) :=
    follows_of_eq rfl rfl
  exact follows_trans hplaced (follows_commit h)

theorem follows_backupVersion {current : Resource} {id : Text} (hc : s.registry.get id = some current)
    (h : backupVersion w current s = .ok t) : Follows s t (fun _ => False) := by
  unfold backupVersion at h
  split at h
  · cases h
    exact follows_refl s
  · split at h
    · cases h
    · cases h
      refine ⟨fun _ _ hr => .inl hr, fun k b hb => ?_⟩
      rw [Dict.get_set] at hb
      split at hb
      · cases hb
        exact .inr ⟨id, hc⟩
      · exact .inl hb

/-- The records a call may write. -/
inductive Written (P : Platform) (w : World) (s : State κ) : Operation κ → Resource → Prop where
  | installed {archive : Except Failure (Package κ)} {m : Manifest} {r : Resource}
    (h : newResource P w m = .ok r) : Written P w s (.install archive) r
  | updated {archive : Except Failure (Package κ)} {expected : Option Text} {id : Text} {m : Manifest}
    {current r : Resource} (hc : s.registry.get id = some current)
    (hnew : m.version ∉ current.versions.map VersionRecord.version)
    (h : updatedResource P w current m = .ok r) : Written P w s (.update archive expected) r
  | enabled {id : Text} {current : Resource} (hc : s.registry.get id = some current) :
    Written P w s (.enable id true)
      { current with enabled := true, confirmationRequired := false, updatedAt := w.now }
  | disabled {id : Text} {current : Resource} (hc : s.registry.get id = some current) :
    Written P w s (.disable id) { current with enabled := false, updatedAt := w.now }
  | restored {id version : Text} {confirmed : Bool} {current : Resource} {record : VersionRecord}
    (hc : s.registry.get id = some current) (hv : record ∈ current.versions) :
    Written P w s (.restoreVersion id version confirmed)
      { restoredResource current record with updatedAt := w.now }
  | restoredBackup {id : Text} {confirmed : Bool} {b : Backup κ} (hb : s.backups.get id = some b)
    (hv : validateBackup b = .ok ()) : Written P w s (.restoreBackup id confirmed) (b.restored w)

variable (archive : Except Failure (Package κ))

theorem follows_install (s : State κ) :
    Follows s (installArchive P w archive s).2 (Written P w s (.install archive)) := by
  cases archive with
  | error e => exact follows_refl s
  | ok package =>
    rw [installArchive, audited_snd]
    unfold installPackage
    split
    · exact follows_refl s
    split
    · exact follows_refl s
    split
    · exact follows_refl s
    · next h => exact follows_publish (.installed h)

theorem follows_update (expected : Option Text) (s : State κ) :
    Follows s (updateArchive P w archive expected s).2 (Written P w s (.update archive expected)) := by
  cases archive with
  | error e => exact follows_refl s
  | ok package =>
    rw [updateArchive, audited_snd]
    unfold updatePackage
    split
    · exact follows_refl s
    · next current hcheck =>
      obtain ⟨hc, _, hnew⟩ := checkUpdate_spec hcheck
      split
      · exact follows_refl s
      · next hbackup =>
        refine follows_trans (follows_backupVersion hc hbackup) ?_
        split
        · exact follows_refl _
        split
        · exact follows_refl _
        · next h => exact follows_publish (.updated hc hnew h)

variable (id : Text) (confirmed : Bool)

theorem follows_enable (s : State κ) :
    Follows s (enable P w id confirmed s).2 (Written P w s (.enable id confirmed)) := by
  unfold enable
  split
  · exact follows_refl s
  · next current hc =>
    split
    · exact follows_refl s
    cases confirmed with
    | false => exact follows_refl s
    | true =>
      have hwritten := Written.enabled (P := P) (w := w) (requireResource_spec hc)
      exact follows_updateState hwritten

theorem follows_disable (s : State κ) : Follows s (disable P w id s).2 (Written P w s (.disable id)) := by
  unfold disable
  split
  · exact follows_refl s
  · next current hc =>
    split
    · exact follows_refl s
    · have hwritten := Written.disabled (P := P) (w := w) (requireResource_spec hc)
      exact follows_updateState hwritten

theorem follows_restoreVersion (id version : Text) (confirmed : Bool) (s : State κ) :
    Follows s (restoreVersion P w id version confirmed s).2
      (Written P w s (.restoreVersion id version confirmed)) := by
  unfold restoreVersion
  split
  · exact follows_refl s
  · next current record hcheck =>
    obtain ⟨hc, hv, _⟩ := checkRestore_spec hcheck
    split
    · exact follows_refl s
    · next hbackup =>
      exact follows_trans (follows_backupVersion hc hbackup) (follows_updateState (.restored hc hv))

theorem follows_remove (s : State κ) {written : Resource → Prop} :
    Follows s (remove P w id confirmed s).2 written := by
  unfold remove
  split
  · exact follows_refl s
  · next current hc =>
    split
    · exact follows_refl s
    split
    · exact follows_refl s
    · next t hbackup =>
      refine follows_trans (follows_backupVersion (requireResource_spec hc) hbackup) ?_
      dsimp only
      split
      · exact follows_of_eq rfl rfl
      refine ⟨fun id' r hr => .inl ?_, fun _ _ hb => .inl hb⟩
      rw [Dict.get_pop] at hr
      split at hr
      · cases hr
      · exact hr

theorem follows_deleteBackup (s : State κ) {written : Resource → Prop} :
    Follows s (deleteBackup P id confirmed s).2 written := by
  unfold deleteBackup
  split
  · exact follows_refl s
  split
  · exact follows_refl s
  refine ⟨fun _ _ hr => .inl hr, fun k b hb => .inl ?_⟩
  rw [Dict.get_pop] at hb
  split at hb
  · cases hb
  · exact hb

theorem follows_restoreBackup (s : State κ) :
    Follows s (restoreBackup P w id confirmed s).2 (Written P w s (.restoreBackup id confirmed)) := by
  unfold restoreBackup
  split
  · exact follows_refl s
  · next b hcheck =>
    obtain ⟨hb, hv⟩ := checkBackup_spec hcheck
    dsimp only
    split
    · exact follows_of_eq rfl rfl
    split
    · exact follows_of_eq rfl rfl
    have hplaced : Follows s { s with installed := s.installed.set (b.resourceId, b.version) b.package }
        (fun _ => False) := follows_of_eq rfl rfl
    exact follows_trans hplaced (follows_commit (.restoredBackup hb hv))

theorem follows_perform (P : Platform) (c : Call κ) (s : State κ) :
    Follows s (perform P c s).2 (Written P c.world s c.operation) := by
  obtain ⟨operation, w⟩ := c
  cases operation with
  | install archive => exact follows_install archive s
  | update archive expected => exact follows_update archive expected s
  | enable id confirmed => exact follows_enable id confirmed s
  | disable id => exact follows_disable id s
  | restoreVersion id version confirmed => exact follows_restoreVersion id version confirmed s
  | remove id confirmed => exact follows_remove id confirmed s
  | deleteBackup id confirmed => exact follows_deleteBackup id confirmed s
  | restoreBackup id confirmed => exact follows_restoreBackup id confirmed s

structure WellKept (s : State κ) : Prop where
  records : ∀ id r, s.registry.get id = some r → WellFormed r ∧ r.resourceId = id
  backups : ∀ id b, s.backups.get id = some b → WellFormed b.resource

theorem wellFormed_written {P : Platform} {w : World} {s : State κ} {operation : Operation κ} {r : Resource}
    (hs : WellKept s) (h : Written P w s operation r) : WellFormed r := by
  cases h with
  | installed hn => exact (newResource_spec hn).1
  | updated hc hnew hu => exact (updatedResource_spec (hs.records _ _ hc).1 hnew hu).1
  | enabled hc =>
    have hw := (hs.records _ _ hc).1
    exact ⟨hw.distinct, hw.current⟩
  | disabled hc =>
    have hw := (hs.records _ _ hc).1
    exact ⟨hw.distinct, hw.current⟩
  | restored hc hv =>
    have hw := wellFormed_restored (hs.records _ _ hc).1 hv
    exact ⟨hw.distinct, hw.current⟩
  | restoredBackup hb hv => exact wellFormed_backup (hs.backups _ _ hb) hv

theorem wellKept_perform {P : Platform} {s : State κ} (hs : WellKept s) (c : Call κ) :
    WellKept (perform P c s).2 := by
  have hf := follows_perform P c s
  refine ⟨fun id r hr => ?_, fun id b hb => ?_⟩
  · cases hf.registry id r hr with
    | inl hold => exact hs.records id r hold
    | inr hnew => exact ⟨wellFormed_written hs hnew.2, hnew.1⟩
  · cases hf.backups id b hb with
    | inl hold => exact hs.backups id b hold
    | inr hnew =>
      obtain ⟨id', hr⟩ := hnew
      exact (hs.records id' _ hr).1

theorem wellKept_empty : WellKept (emptyState : State κ) := ⟨fun _ _ h => (nomatch h), fun _ _ h => (nomatch h)⟩

variable (P : Platform)

/-- The state, with each resource's permissions when it was last enabled with a confirmation. -/
structure Watched (κ : Type) where
  state : State κ
  confirmed : Text → Option (List Text)

def confirms (s : State κ) (confirmed : Text → Option (List Text)) : Operation κ → Text → Option (List Text)
  | .enable id true => fun id' =>
    if id' = id then ((s.registry.get id').map Resource.permissions).or (confirmed id') else confirmed id'
  | _ => confirmed

def watch (σ : Watched κ) (c : Call κ) : Watched κ :=
  ⟨(perform P c σ.state).2, confirms σ.state σ.confirmed c.operation⟩

def run (σ : Watched κ) (calls : List (Call κ)) : Watched κ := calls.foldl (watch P) σ

def start : Watched κ := ⟨emptyState, fun _ => none⟩

def Granted (confirmed : Text → Option (List Text)) (id : Text) (r : Resource) : Prop :=
  r.enabled = true → r.confirmationRequired = false ∧
    ∃ granted, confirmed id = some granted ∧ SamePermissions r.permissions granted

structure Sound (σ : Watched κ) : Prop where
  kept : WellKept σ.state
  granted : ∀ id r, σ.state.registry.get id = some r → Granted σ.confirmed id r

variable {P} {σ : Watched κ} {c : Call κ}

theorem confirms_cases (s : State κ) (confirmed : Text → Option (List Text)) (operation : Operation κ)
    {id : Text} {r : Resource} (hr : s.registry.get id = some r) :
    confirms s confirmed operation id = some r.permissions ∨ confirms s confirmed operation id = confirmed id := by
  cases operation with
  | enable id' confirmed' =>
    cases confirmed' with
    | false => exact .inr rfl
    | true =>
      by_cases he : id = id'
      · exact .inl (by simp [confirms, ← he, hr])
      · exact .inr (by simp [confirms, he])
  | _ => exact .inr rfl

theorem granted_kept {id : Text} {r : Resource} (hs : Sound σ) (hr : σ.state.registry.get id = some r)
    (operation : Operation κ) : Granted (confirms σ.state σ.confirmed operation) id r := by
  intro he
  obtain ⟨hc, granted, hg, hsame⟩ := hs.granted id r hr he
  refine ⟨hc, ?_⟩
  cases confirms_cases σ.state σ.confirmed operation hr with
  | inl h => exact ⟨r.permissions, h, fun _ => Iff.rfl⟩
  | inr h => exact ⟨granted, h.trans hg, hsame⟩

theorem granted_written (hs : Sound σ) {r : Resource} (h : Written P c.world σ.state c.operation r) :
    Granted (confirms σ.state σ.confirmed c.operation) r.resourceId r := by
  generalize c.operation = operation at h ⊢
  cases h with
  | installed hn => exact fun he => absurd ((newResource_spec hn).2.2.symm.trans he) Bool.false_ne_true
  | updated hc hnew hu =>
    obtain ⟨hw, hid⟩ := hs.kept.records _ _ hc
    obtain ⟨_, hidr, hsame⟩ := updatedResource_spec hw hnew hu
    intro he
    obtain ⟨hec, hreq, hperm⟩ := hsame he
    obtain ⟨hrc, granted, hg, hp⟩ := hs.granted _ _ hc hec
    exact ⟨hreq.trans hrc, granted, (congrArg σ.confirmed (hidr.trans hid)).trans hg,
      fun p => (hperm p).symm.trans (hp p)⟩
  | @enabled id current hc =>
    have hid := (hs.kept.records _ _ hc).2
    refine fun _ => ⟨rfl, current.permissions, ?_, fun _ => Iff.rfl⟩
    simp [confirms, hid, hc]
  | disabled hc => exact fun he => absurd he Bool.false_ne_true
  | restored hc hv => exact fun he => absurd he Bool.false_ne_true
  | restoredBackup hb hv => exact fun he => absurd he Bool.false_ne_true

theorem sound_watch (hs : Sound σ) : Sound (watch P σ c) := by
  refine ⟨wellKept_perform hs.kept c, fun id r hr => ?_⟩
  cases (follows_perform P c σ.state).registry id r hr with
  | inl hold => exact granted_kept hs hold c.operation
  | inr hnew => exact hnew.1 ▸ granted_written hs hnew.2

theorem sound_start : Sound (start : Watched κ) := ⟨wellKept_empty, fun _ _ h => (nomatch h)⟩

theorem sound_run (hs : Sound σ) (calls : List (Call κ)) : Sound (run P σ calls) := by
  induction calls generalizing σ with
  | nil => exact hs
  | cons c calls ih => exact ih (sound_watch hs)

/-- After any calls, whether they return or raise, an enabled resource has in its current
version the permissions it had when it was last enabled with a confirmation. -/
theorem enabled_as_confirmed (P : Platform) (calls : List (Call κ)) (id : Text) (r : Resource)
    (hr : (run P start calls).state.registry.get id = some r) (he : r.enabled = true) :
    ∃ permissions granted, currentPermissions r = some permissions ∧
      (run P start calls).confirmed id = some granted ∧ SamePermissions permissions granted := by
  have hs := sound_run (P := P) sound_start calls
  obtain ⟨_, granted, hconfirmed, hsame⟩ := hs.granted id r hr he
  exact ⟨r.permissions, granted, currentPermissions_eq (hs.kept.records id r hr).1, hconfirmed, hsame⟩

def enabledNote : List (Call Unit) := [installNote, smoothly "backup-1" (.enable "note".toList true)]

theorem enabledNote_as_confirmed : ∃ r permissions granted,
    (run plainPlatform start enabledNote).state.registry.get "note".toList = some r ∧
      currentPermissions r = some permissions ∧
      (run plainPlatform start enabledNote).confirmed "note".toList = some granted ∧
      SamePermissions permissions granted :=
  have hr := Option.eq_some_of_isSome (by decide : ((run plainPlatform start enabledNote).state.registry.get
    "note".toList).isSome)
  let ⟨permissions, granted, h⟩ := enabled_as_confirmed plainPlatform enabledNote "note".toList _ hr (by decide)
  ⟨_, permissions, granted, hr, h⟩

end Kirara.ConfirmedPermissions
