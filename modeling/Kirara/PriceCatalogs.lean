import Kirara.Dicts
import Kirara.Pricing
import Kirara.Schedules
import Kirara.TransactionOutcomes

namespace Kirara.PriceCatalogs

open Kirara.Channels Kirara.Dicts Kirara.Pricing Kirara.TransactionOutcomes

inductive CatalogError where
  | keyError
  | valueError
  | integrity
  | conflict
  | lock
  | osError
  deriving DecidableEq

/-- A member of an unexpected type is `none` where that is not a missing one. No digest is empty. -/
structure PriceDocument (δ : Type) where
  schema : Option Text
  schemaVersion : Option Int
  formatVersion : Option Int
  revision : Option (Option Int)
  versions : Option (List (Option PriceVersion))
  integrity : Option (Option δ)
  computed : δ

/-- The text of a file, or `none` where it is no JSON object. -/
abbrev Content (δ : Type) := Option (PriceDocument δ)

inductive PriceFile where
  | catalog
  | backup1
  | backup2
  | backup3
  | legacyBackup
  deriving DecidableEq

abbrev Files (δ : Type) := PriceFile → Option (Content δ)

structure PriceCatalog (δ π : Type) where
  versions : Dict Text PriceVersion
  path : Option π
  revision : Int
  integrity : Option δ

section Documents

variable {δ : Type}

def addToMapping (versions : Dict Text PriceVersion) (v : PriceVersion) :
    Except CatalogError (Dict Text PriceVersion) :=
  if v.versionId ∈ versions.keys then .error .valueError
  else if versions.values.any (fun e => e.provider = v.provider && e.model = v.model &&
      e.effectiveFrom = v.effectiveFrom) then .error .valueError
  else .ok (versions.set v.versionId v)

def addAll (versions : Dict Text PriceVersion) (vs : List PriceVersion) : Except CatalogError (Dict Text PriceVersion) :=
  vs.foldlM addToMapping versions

/-- The versions of a document, each checked against those before it. -/
def parseVersions : List (Option PriceVersion) → Dict Text PriceVersion → Except CatalogError (List PriceVersion)
  | [], _ => .ok []
  | none :: _, _ => .error .valueError
  | some v :: raw, seen => do
    let seen ← addToMapping seen v
    return v :: (← parseVersions raw seen)

def priceCatalogSchema : Text := "kirara-ai.price-catalog".toList

def documentRevision (d : PriceDocument δ) : Except CatalogError Int :=
  match d.revision with
  | none => .ok 0
  | some none => .error .valueError
  | some (some n) => if n < 0 then .error .valueError else .ok n

def checkIntegrity [DecidableEq δ] (d : PriceDocument δ) : Except CatalogError Unit :=
  match d.integrity with
  | none => .ok ()
  | some none => .error .integrity
  | some (some h) => if h = d.computed then .ok () else .error .integrity

/-- `_parse_document`, on an object. -/
def parseDocument [DecidableEq δ] (d : PriceDocument δ) : Except CatalogError (List PriceVersion × Int) :=
  if d.schema ≠ some priceCatalogSchema ∨ d.schemaVersion ≠ some 1 ∨ d.formatVersion ≠ some 1 then
    .error .valueError
  else
    match d.versions with
    | none => .error .valueError
    | some raw => do
      let revision ← documentRevision d
      checkIntegrity d
      let versions ← parseVersions raw .empty
      return (versions, revision)

def readDocument (content : Option (Content δ)) : Except CatalogError (PriceDocument δ) :=
  match content with
  | some (some d) => .ok d
  | _ => .error .valueError

/-- `int(current.get("revision", default))`. -/
def revisionOf (d : PriceDocument δ) (default' : Int) : Except CatalogError Int :=
  match d.revision with
  | none => .ok default'
  | some (some n) => .ok n
  | some none => .error .valueError

/-- The digest of a document with this revision and these versions. -/
abbrev Hash (δ : Type) := Int → List PriceVersion → δ

def document (hash : Hash δ) (versions : List PriceVersion) (revision : Int) : PriceDocument δ where
  schema := some priceCatalogSchema
  schemaVersion := some 1
  formatVersion := some 1
  revision := some (some revision)
  versions := some (versions.map some)
  integrity := some (some (hash revision versions))
  computed := hash revision versions

/-- The files that `_persist_document` asks for, backups moved up by one. -/
def persisted (files : Files δ) (d : PriceDocument δ) (backup : Bool) : Files δ
  | .catalog => some (some d)
  | .backup1 => if backup && (files .catalog).isSome then files .catalog else files .backup1
  | .legacyBackup => if backup && (files .catalog).isSome then files .catalog else files .legacyBackup
  | .backup2 => if backup && (files .catalog).isSome then files .backup1 else files .backup2
  | .backup3 => if backup && (files .catalog).isSome then files .backup2 else files .backup3

end Documents

variable {δ π : Type} [DecidableEq δ] (hash : Hash δ)

inductive Operation (δ π : Type) where
  | add (version : PriceVersion) (expectedRevision : Option Int)
  | update (version : PriceVersion) (expectedRevision : Option Int)
  | remove (versionId : Text) (expectedRevision : Option Int)
  | importDocument (payload : Content δ) (expectedRevision : Option Int)
  | restoreBackup (path : Option π) (generation : Option Int) (expectedRevision : Option Int)
  | refresh

/-- The catalog an operation leaves, its files, and whether the legacy backup goes. -/
structure Plan (δ π : Type) where
  memory : PriceCatalog δ π
  write : Option (Files δ)
  dropsLegacy : Bool

/-- An operation is over in memory, or goes on under the lock of a file. -/
inductive Request (δ π : Type) where
  | finished (memory : PriceCatalog δ π)
  | locked (target : π) (inside : Files δ → Except CatalogError (Plan δ π))

def checkCurrent (c : PriceCatalog δ π) (current : Option (PriceDocument δ)) (expectedRevision : Option Int) :
    Except CatalogError Unit :=
  match current with
  | none => if expectedRevision.all (· = 0) then .ok () else .error .conflict
  | some d => do
    let currentRevision ← revisionOf d 0
    if !expectedRevision.all (· = currentRevision) then throw .conflict
    if c.path.isSome && c.integrity.any (fun h => d.integrity ≠ some (some h)) then throw .conflict

/-- `_commit_versions` under the lock. -/
def commitInside (c : PriceCatalog δ π) (versions : Dict Text PriceVersion) (expectedRevision : Option Int)
    (files : Files δ) : Except CatalogError (Plan δ π) := do
  let current ← readDocument (files .catalog)
  checkCurrent c (some current) expectedRevision
  let revision := (← revisionOf current 0) + 1
  let d := document hash versions.values revision
  return ⟨{ c with versions := versions, revision := revision, integrity := some (hash revision versions.values) },
    some (persisted files d true), false⟩

def commitVersions (c : PriceCatalog δ π) (versions : Dict Text PriceVersion) (expectedRevision : Option Int) :
    Except CatalogError (Request δ π) :=
  match c.path with
  | none =>
    if expectedRevision.all (· = c.revision) then .ok (.finished { c with versions := versions })
    else .error .conflict
  | some target => .ok (.locked target (commitInside hash c versions expectedRevision))

def byId (versions : List PriceVersion) : Dict Text PriceVersion :=
  versions.foldl (fun d v => d.set v.versionId v) .empty

/-- `integrity` of a document that was parsed, if it has one. -/
def rememberedIntegrity (d : PriceDocument δ) : Option δ := d.integrity.join

def refreshInside (c : PriceCatalog δ π) (files : Files δ) : Except CatalogError (Plan δ π) := do
  let d ← readDocument (files .catalog)
  let (versions, revision) ← parseDocument d
  return ⟨{ c with versions := byId versions, revision := revision, integrity := rememberedIntegrity d }, none, false⟩

/-- `_select_backup`, which looks for the newest backup before the lock is taken. -/
def selectBackup (files : Files δ) : Option Int → Except CatalogError PriceFile
  | none => .ok (if (files .backup1).isSome then .backup1 else .legacyBackup)
  | some generation =>
    if generation = 1 then .ok .backup1
    else if generation = 2 then .ok .backup2
    else if generation = 3 then .ok .backup3
    else .error .valueError

def currentDocument (files : Files δ) : Except CatalogError (Option (PriceDocument δ)) :=
  match files .catalog with
  | none => .ok none
  | some content => (readDocument (some content)).map some

def currentRevision (c : PriceCatalog δ π) (current : Option (PriceDocument δ)) : Except CatalogError Int :=
  match current with
  | none => .ok c.revision
  | some d => revisionOf d c.revision

def restoreInside (c : PriceCatalog δ π) (target : π) (selected : PriceFile) (expectedRevision : Option Int)
    (files : Files δ) : Except CatalogError (Plan δ π) := do
  let source ← readDocument (files selected)
  let current ← currentDocument files
  let revision := (← currentRevision c current) + 1
  checkCurrent c current expectedRevision
  let (versions, _) ← parseDocument source
  return ⟨⟨byId versions, some target, revision, some (hash revision versions)⟩,
    some (persisted files (document hash versions revision) current.isSome),
    current.isNone && selected = .legacyBackup⟩

def construct (versions : List PriceVersion) : Except CatalogError (PriceCatalog δ π) := do
  return ⟨← addAll .empty versions, none, 0, none⟩

def loadLocked (target : π) (files : Files δ) : Except CatalogError (PriceCatalog δ π) := do
  let d ← readDocument (files .catalog)
  let (versions, revision) ← parseDocument d
  return ⟨← addAll .empty versions, some target, revision, rememberedIntegrity d⟩

/-- What an operation does before it locks; `seen` are the files on disk by then. -/
def request (seen : π → Files δ) (c : PriceCatalog δ π) : Operation δ π → Except CatalogError (Request δ π)
  | .add v expectedRevision => do
    let versions ← addToMapping c.versions v
    commitVersions hash c versions expectedRevision
  | .update v expectedRevision =>
    if v.versionId ∈ c.versions.keys then do
      let versions ← addToMapping (c.versions.pop v.versionId) v
      commitVersions hash c versions expectedRevision
    else .error .keyError
  | .remove versionId expectedRevision =>
    if versionId ∈ c.versions.keys then commitVersions hash c (c.versions.pop versionId) expectedRevision
    else .error .keyError
  | .importDocument payload expectedRevision => do
    let (imported, _) ← parseDocument (← readDocument (some payload))
    let versions ← addAll c.versions imported
    commitVersions hash c versions expectedRevision
  | .restoreBackup path generation expectedRevision =>
    match path.or c.path with
    | none => .error .valueError
    | some target => do
      let selected ← selectBackup (seen target) generation
      return .locked target (restoreInside hash c target selected expectedRevision)
  | .refresh =>
    match c.path with
    | none => .error .valueError
    | some target => .ok (.locked target (refreshInside c))

/-- What befalls the steps of one operation on disk. -/
structure Steps where
  locks : Bool
  recoveryRaises : Option (PriceFile → Bool)
  publish : Publish PriceFile
  unlinks : Bool

structure Store (δ π : Type) where
  catalog : PriceCatalog δ π
  disk : π → Disk PriceFile (Content δ)

variable [DecidableEq π]

def Store.setDisk (s : Store δ π) (target : π) (d : Disk PriceFile (Content δ)) : Store δ π :=
  { s with disk := Function.update s.disk target d }

def withoutLegacy (d : Disk PriceFile (Content δ)) : Disk PriceFile (Content δ) :=
  { d with files := fun n => if n = .legacyBackup then none else d.files n }

def carryOut (env : Steps) (s : Store δ π) (target : π) (files : Files δ) (plan : Plan δ π) : Option CatalogError × Store δ π :=
  match plan.write with
  | none => (none, { s.setDisk target ⟨files, none⟩ with catalog := plan.memory })
  | some new =>
    let d := TransactionOutcomes.publish files new env.publish
    match env.publish with
    | .done =>
      if plan.dropsLegacy then
        if env.unlinks then (none, { s.setDisk target (withoutLegacy d) with catalog := plan.memory })
        else (some .osError, s.setDisk target d)
      else (none, { s.setDisk target d with catalog := plan.memory })
    | _ => (some .osError, s.setDisk target d)

def perform (env : Steps) (op : Operation δ π) (s : Store δ π) : Option CatalogError × Store δ π :=
  match request hash (fun p => (s.disk p).files) s.catalog op with
  | .error e => (some e, s)
  | .ok (.finished c) => (none, { s with catalog := c })
  | .ok (.locked target inside) =>
    let d := s.disk target
    if !env.locks then (some .lock, s)
    else
      match d.pending, env.recoveryRaises with
      | some later, some moved =>
        (some .osError, s.setDisk target { d with files := fun n => if moved n then later n else d.files n })
      | _, _ =>
        match inside d.settled with
        | .error e => (some e, s.setDisk target d.recover)
        | .ok plan => carryOut env s target d.settled plan

end Kirara.PriceCatalogs
