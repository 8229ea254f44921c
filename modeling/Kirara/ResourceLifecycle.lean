import Kirara.Channels
import Kirara.Dicts

namespace Kirara.ResourceLifecycle

open Kirara.Channels Kirara.Dicts

inductive Failure where
  | validation (message : Text)
  | state (message : Text)
  | os
  | value
  deriving DecidableEq

inductive ResourceType where
  | skill
  | prompt
  | session
  | memory
  | mcp
  | hook
  deriving DecidableEq

/-- What the lifecycle reads of a manifest, with the paths of its files. -/
structure Manifest where
  resourceId : Text
  type : ResourceType
  version : Text
  source : Text
  entry : Text
  permissions : List Text
  files : List Text
  contentSha256 : Text
  deriving DecidableEq

/-- A version directory: the manifest and what its files hold. -/
structure Package (κ : Type) where
  manifest : Manifest
  payload : κ
  deriving DecidableEq

structure VersionRecord where
  version : Text
  source : Text
  entry : Text
  permissions : List Text
  contentSha256 : Text
  installedAt : Text
  deriving DecidableEq

structure Resource where
  resourceId : Text
  type : ResourceType
  currentVersion : Text
  source : Text
  entry : Text
  permissions : List Text
  contentSha256 : Text
  enabled : Bool
  confirmationRequired : Bool
  installedAt : Text
  updatedAt : Text
  versions : List VersionRecord
  deriving DecidableEq

/-- A copy of one version, with the record of its resource at that time. -/
structure Backup (κ : Type) where
  resourceId : Text
  version : Text
  contentSha256 : Text
  resource : Resource
  package : Package κ

abbrev Registry := Dict Text Resource

/-- The registry in memory, its file, the version directories and the backups. -/
structure State (κ : Type) where
  registry : Registry
  file : Registry
  installed : Dict (Text × Text) (Package κ)
  backups : Dict Text (Backup κ)

/-- A URL that has been split. Reading its port may fail. -/
structure SplitUrl where
  scheme : Text
  netloc : Text
  path : Text
  hostname : Option Text
  port : Option (Option Nat)

/-- What the service uses of its libraries: parts of URLs and the order of versions. -/
structure Platform where
  urlsplit : Text → Option SplitUrl
  urlunsplit : Text → Text → Text → Text
  notNewer : Text → Text → Bool

inductive Step where
  | backup
  | extract
  | mkdir
  | copy
  | replace
  | write
  deriving DecidableEq

/-- The surroundings of one call. The identity of a backup is a fresh one. -/
structure World where
  backupId : Text
  now : Text
  fails : Step → Bool

variable {κ α : Type}

def invalid (message : String) : Except Failure α := .error (.validation message.toList)

def refuse (message : String) : Except Failure α := .error (.state message.toList)

section Sources

variable (P : Platform)

def netlocOf (hostname : Option Text) (port : Option Nat) : Text :=
  hostname.getD [] ++
    match port with
    | none => []
    | some n => ':' :: Nat.toDigits 10 n

def sanitizeSource (source : Text) : Option Text :=
  (P.urlsplit (strip source)).bind (fun parsed =>
    if parsed.scheme ≠ [] ∧ parsed.netloc ≠ [] then
      parsed.port.map (fun port =>
        (P.urlunsplit parsed.scheme (netlocOf parsed.hostname port) parsed.path).take 512)
    else some ((strip source).take 512))

/-- `_audit_record`. Only an audit file that cannot be written is passed over. -/
def auditRecord (resource : Resource) : Except Failure Unit :=
  if (sanitizeSource P resource.source).isSome then .ok () else .error .value

end Sources

def Package.key (package : Package κ) : Text × Text :=
  (package.manifest.resourceId, package.manifest.version)

/-- `_version_path(...).is_dir()`. -/
def State.installedVersion (s : State κ) (resourceId version : Text) : Option (Package κ) :=
  s.installed.get (resourceId, version)

/-- The backup's metadata cannot be written where a file of the resource lies below its name. -/
def Package.hidesMetadata (package : Package κ) : Bool :=
  package.manifest.files.any (fun file => "backup.json/".toList <+: file)

/-- `_backup_version`. A version that is not on the disk is passed over. -/
def backupVersion (w : World) (resource : Resource) (s : State κ) : Except Failure (State κ) :=
  match s.installedVersion resource.resourceId resource.currentVersion with
  | none => .ok s
  | some package =>
    if w.fails .backup || package.hidesMetadata || (s.backups.get w.backupId).isSome then .error .os
    else
      let backup : Backup κ :=
        ⟨resource.resourceId, resource.currentVersion, resource.contentSha256, resource, package⟩
      .ok { s with backups := s.backups.set w.backupId backup }

/-- A file that has the name of the metadata has been overwritten by it. -/
def validateBackup (b : Backup κ) : Except Failure Unit :=
  let manifest := b.package.manifest
  if manifest.resourceId ≠ b.resourceId ∨ manifest.version ≠ b.version then
    invalid "backup manifest identity does not match"
  else if b.contentSha256 ≠ manifest.contentSha256 then
    invalid "backup metadata digest does not match manifest"
  else if b.resource.resourceId ≠ manifest.resourceId ∨ b.resource.currentVersion ≠ manifest.version ∨
      b.resource.contentSha256 ≠ manifest.contentSha256 then
    invalid "backup resource snapshot does not match manifest"
  else if "backup.json".toList ∈ manifest.files then
    invalid "resource file size does not match manifest"
  else .ok ()

section Operations

variable (P : Platform) (w : World)

def requireResource (resourceId : Text) (s : State κ) : Except Failure Resource :=
  match s.registry.get resourceId with
  | none => refuse "resource is not installed"
  | some resource => .ok resource

def versionRecord (m : Manifest) (source : Text) : VersionRecord where
  version := m.version
  source := source
  entry := m.entry
  permissions := m.permissions
  contentSha256 := m.contentSha256
  installedAt := w.now

/-- `_extract_to_staging`, and the check that nothing is in the way. -/
def stage (package : Package κ) (s : State κ) : Except Failure Unit :=
  if w.fails .extract then .error .os
  else if (s.installed.get package.key).isSome then invalid "resource version already exists"
  else if w.fails .mkdir then .error .os
  else .ok ()

def State.commit (resource : Resource) (s : State κ) : State κ :=
  let next := s.registry.set resource.resourceId resource
  { s with registry := next, file := next }

/-- Move the staged version to its place and write the registry, or move it back. -/
def publish (package : Package κ) (resource : Resource) (s : State κ) : Except Failure Unit × State κ :=
  let placed := s.installed.set package.key package
  if w.fails .replace then (.error .os, s)
  else if w.fails .write then (.error .os, { s with installed := placed.pop package.key })
  else (.ok (), { s with installed := placed }.commit resource)

def newResource (m : Manifest) : Except Failure Resource :=
  match sanitizeSource P m.source with
  | none => .error .value
  | some source => .ok {
      resourceId := m.resourceId
      type := m.type
      currentVersion := m.version
      source := source
      entry := m.entry
      permissions := m.permissions
      contentSha256 := m.contentSha256
      enabled := false
      confirmationRequired := true
      installedAt := w.now
      updatedAt := w.now
      versions := [versionRecord w m source] }

/-- `_audit` of a call that raises, in the place of which a source may raise. -/
def audited (m : Manifest) (out : Except Failure Unit × State κ) : Except Failure Unit × State κ :=
  match out.1 with
  | .ok () => out
  | .error e => (.error (if (sanitizeSource P m.source).isSome then e else .value), out.2)

def installPackage (package : Package κ) (s : State κ) : Except Failure Unit × State κ :=
  if (s.registry.get package.manifest.resourceId).isSome then
    (invalid "resource ID is already installed", s)
  else
    match stage w package s with
    | .error e => (.error e, s)
    | .ok () =>
      match newResource P w package.manifest with
      | .error e => (.error e, s)
      | .ok resource => publish w package resource s

/-- The archive is what `_validate_archive` makes of it. -/
def installArchive (archive : Except Failure (Package κ)) (s : State κ) : Except Failure Unit × State κ :=
  match archive with
  | .error e => (.error e, s)
  | .ok package => audited P package.manifest (installPackage P w package s)

variable {P} in
@[simp] theorem audited_snd (m : Manifest) (out : Except Failure Unit × State κ) :
    (audited P m out).2 = out.2 := by
  obtain ⟨result, t⟩ := out
  cases result with
  | ok u => rfl
  | error e => rfl

variable {P} in
@[simp] theorem audited_ok_iff (m : Manifest) (out : Except Failure Unit × State κ) :
    (audited P m out).1 = .ok () ↔ out.1 = .ok () := by
  obtain ⟨result, t⟩ := out
  cases result with
  | ok u => exact Iff.rfl
  | error e => simp [audited]

def SamePermissions (a b : List Text) : Prop := ∀ p, p ∈ a ↔ p ∈ b

instance (a b : List Text) : Decidable (SamePermissions a b) :=
  decidable_of_iff ((∀ p ∈ a, p ∈ b) ∧ ∀ p ∈ b, p ∈ a)
    ⟨fun h p => ⟨h.1 p, h.2 p⟩, fun h => ⟨fun p => (h p).mp, fun p => (h p).mpr⟩⟩

def checkUpdate (m : Manifest) (expected : Option Text) (s : State κ) : Except Failure Resource :=
  if expected ≠ none ∧ expected ≠ some m.resourceId then
    invalid "resource archive ID does not match the requested resource"
  else
    match s.registry.get m.resourceId with
    | none => refuse "resource is not installed"
    | some current =>
      if current.type ≠ m.type then invalid "resource type cannot change"
      else if P.notNewer m.version current.currentVersion then invalid "resource version must increase"
      else if m.version ∈ current.versions.map VersionRecord.version then
        invalid "resource version is already registered"
      else .ok current

def updatedResource (current : Resource) (m : Manifest) : Except Failure Resource :=
  match sanitizeSource P m.source with
  | none => .error .value
  | some source =>
    let same := SamePermissions current.permissions m.permissions
    .ok { current with
      currentVersion := m.version
      source := source
      entry := m.entry
      permissions := m.permissions
      contentSha256 := m.contentSha256
      updatedAt := w.now
      versions := current.versions ++ [versionRecord w m source]
      enabled := if same then current.enabled else false
      confirmationRequired := if same then current.confirmationRequired else true }

def updatePackage (package : Package κ) (expected : Option Text) (s : State κ) :
    Except Failure Unit × State κ :=
  match checkUpdate P package.manifest expected s with
  | .error e => (.error e, s)
  | .ok current =>
    match backupVersion w current s with
    | .error e => (.error e, s)
    | .ok s =>
      match stage w package s with
      | .error e => (.error e, s)
      | .ok () =>
        match updatedResource P w current package.manifest with
        | .error e => (.error e, s)
        | .ok resource => publish w package resource s

def updateArchive (archive : Except Failure (Package κ)) (expected : Option Text) (s : State κ) :
    Except Failure Unit × State κ :=
  match archive with
  | .error e => (.error e, s)
  | .ok package => audited P package.manifest (updatePackage P w package expected s)

/-- `_update_state`. The audit comes after the commit. -/
def updateState (resource : Resource) (s : State κ) : Except Failure Unit × State κ :=
  if w.fails .write then (.error .os, s)
  else (auditRecord P { resource with updatedAt := w.now }, s.commit { resource with updatedAt := w.now })

def enable (resourceId : Text) (confirmed : Bool) (s : State κ) : Except Failure Unit × State κ :=
  match requireResource resourceId s with
  | .error e => (.error e, s)
  | .ok current =>
    if current.enabled && !current.confirmationRequired then (.ok (), s)
    else if !confirmed then (refuse "explicit confirmation is required", s)
    else updateState P w { current with enabled := true, confirmationRequired := false } s

def disable (resourceId : Text) (s : State κ) : Except Failure Unit × State κ :=
  match requireResource resourceId s with
  | .error e => (.error e, s)
  | .ok current =>
    if !current.enabled then (.ok (), s) else updateState P w { current with enabled := false } s

/-- What `restore_version` checks beforehand, `_load_registered_manifest` included. -/
def checkRestore (resourceId version : Text) (confirmed : Bool) (s : State κ) :
    Except Failure (Resource × VersionRecord) :=
  match requireResource resourceId s with
  | .error e => .error e
  | .ok current =>
    if !confirmed then refuse "explicit confirmation is required"
    else
      match current.versions.find? (fun item => item.version = version) with
      | none => invalid "resource version is not registered"
      | some record =>
        match s.installedVersion resourceId version with
        | none => invalid "registered resource version is unavailable"
        | some package =>
          if package.manifest.resourceId ≠ resourceId ∨ package.manifest.version ≠ version ∨
              package.manifest.contentSha256 ≠ record.contentSha256 then
            invalid "registered resource manifest does not match its registry"
          else .ok (current, record)

def restoredResource (current : Resource) (record : VersionRecord) : Resource :=
  { current with
    currentVersion := record.version
    source := record.source
    entry := record.entry
    permissions := record.permissions
    contentSha256 := record.contentSha256
    enabled := false
    confirmationRequired := true }

def restoreVersion (resourceId version : Text) (confirmed : Bool) (s : State κ) :
    Except Failure Unit × State κ :=
  match checkRestore resourceId version confirmed s with
  | .error e => (.error e, s)
  | .ok (current, record) =>
    match backupVersion w current s with
    | .error e => (.error e, s)
    | .ok s => updateState P w (restoredResource current record) s

def State.deleteVersions (resourceId : Text) (s : State κ) : State κ :=
  { s with installed := s.installed.filter (fun e => e.1.1 ≠ resourceId) }

/-- The directories go before the registry is written. -/
def remove (resourceId : Text) (confirmed : Bool) (s : State κ) : Except Failure Unit × State κ :=
  match requireResource resourceId s with
  | .error e => (.error e, s)
  | .ok current =>
    if !confirmed then (refuse "explicit confirmation is required", s)
    else
      match backupVersion w current s with
      | .error e => (.error e, s)
      | .ok s =>
        let deleted := s.deleteVersions resourceId
        if w.fails .write then (.error .os, deleted)
        else
          let next := s.registry.pop resourceId
          (auditRecord P current, { deleted with registry := next, file := next })

def deleteBackup (backupId : Text) (confirmed : Bool) (s : State κ) : Except Failure Unit × State κ :=
  if !confirmed then (refuse "explicit confirmation is required", s)
  else
    match s.backups.get backupId with
    | none => (refuse "backup is not found", s)
    | some b => (auditRecord P b.resource, { s with backups := s.backups.pop backupId })

/-- What `restore_backup` checks, up to the copy of the backup. -/
def checkBackup (backupId : Text) (confirmed : Bool) (s : State κ) : Except Failure (Backup κ) :=
  if !confirmed then refuse "explicit confirmation is required"
  else
    match s.backups.get backupId with
    | none => refuse "backup is not found"
    | some b =>
      match validateBackup b with
      | .error e => .error e
      | .ok () => if w.fails .copy || w.fails .mkdir then .error .os else .ok b

def Backup.restored (b : Backup κ) : Resource :=
  { b.resource with
    resourceId := b.resourceId
    currentVersion := b.version
    enabled := false
    confirmationRequired := true
    updatedAt := w.now }

/-- What is in the place of the version is removed before the copy moves there. -/
def restoreBackup (backupId : Text) (confirmed : Bool) (s : State κ) : Except Failure Unit × State κ :=
  match checkBackup w backupId confirmed s with
  | .error e => (.error e, s)
  | .ok b =>
    let place := (b.resourceId, b.version)
    let cleared := { s with installed := s.installed.pop place }
    if w.fails .replace then (.error .os, cleared)
    else
      let placed := { s with installed := s.installed.set place b.package }
      if w.fails .write then (.error .os, { placed with installed := placed.installed.pop place })
      else (auditRecord P (b.restored w), placed.commit (b.restored w))

end Operations

inductive Operation (κ : Type) where
  | install (archive : Except Failure (Package κ))
  | update (archive : Except Failure (Package κ)) (expected : Option Text)
  | enable (resourceId : Text) (confirmed : Bool)
  | disable (resourceId : Text)
  | restoreVersion (resourceId version : Text) (confirmed : Bool)
  | remove (resourceId : Text) (confirmed : Bool)
  | deleteBackup (backupId : Text) (confirmed : Bool)
  | restoreBackup (backupId : Text) (confirmed : Bool)

structure Call (κ : Type) where
  operation : Operation κ
  world : World

def perform (P : Platform) (c : Call κ) (s : State κ) : Except Failure Unit × State κ :=
  match c.operation with
  | .install archive => installArchive P c.world archive s
  | .update archive expected => updateArchive P c.world archive expected s
  | .enable resourceId confirmed => enable P c.world resourceId confirmed s
  | .disable resourceId => disable P c.world resourceId s
  | .restoreVersion resourceId version confirmed => restoreVersion P c.world resourceId version confirmed s
  | .remove resourceId confirmed => remove P c.world resourceId confirmed s
  | .deleteBackup backupId confirmed => deleteBackup P backupId confirmed s
  | .restoreBackup backupId confirmed => restoreBackup P c.world backupId confirmed s

def emptyState : State κ := ⟨.empty, .empty, .empty, .empty⟩

/-- The libraries, on sources that are no URLs and versions of one-digit parts. -/
def plainPlatform : Platform where
  urlsplit source := some ⟨[], [], source, none, some none⟩
  urlunsplit _ _ path := path
  notNewer a b := !(List.lex b a)

def note (version : String) (digit : Char) : Package Unit where
  manifest := {
    resourceId := "note".toList
    type := .prompt
    version := version.toList
    source := "local".toList
    entry := "PROMPT.md".toList
    permissions := ["workflow.read".toList]
    files := ["PROMPT.md".toList]
    contentSha256 := List.replicate 64 digit }
  payload := ()

def smoothly (backupId : String) (operation : Operation Unit) : Call Unit :=
  ⟨operation, ⟨backupId.toList, "now".toList, fun _ => false⟩⟩

def installNote : Call Unit := smoothly "backup-0" (.install (.ok (note "1.0.0" '1')))

end Kirara.ResourceLifecycle
