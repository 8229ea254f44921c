import Kirara.ResourceArchives

namespace Kirara.DataBackups

open Kirara.Channels Kirara.Dicts Kirara.PosixPaths Kirara.ResourceArchives Kirara.Rosters
open Kirara.StableSorts

def directoryComponents : List Text :=
  ["agents".toList, "db".toList, "dispatch_rules".toList, "fonts".toList, "media".toList, "memory".toList, "plugins".toList,
    "resources".toList, "sessions".toList, "web".toList, "workflows".toList]

def configName : Text := "config.yaml".toList
def fileComponents : List Text := ["auto_detect_state.json".toList, configName]

/-- `ALLOWED_COMPONENTS`, in the order of the names. -/
def allowedComponents : List Text :=
  ["agents".toList, "auto_detect_state.json".toList, configName, "db".toList, "dispatch_rules".toList, "fonts".toList,
    "media".toList, "memory".toList, "plugins".toList, "resources".toList, "sessions".toList, "web".toList,
    "workflows".toList]

/-- `sorted` of a set of components. -/
def sortedComponents (components : List Text) : List Text := allowedComponents.filter (· ∈ components)

def excludedDirectoryNames : List Text :=
  [".git".toList, ".staging".toList, ".venv".toList, "__pycache__".toList, "backups".toList, "logs".toList, "venv".toList]

def excludedFileSuffixes : List Text := [".pyc".toList, ".pyo".toList]

def manifestName : Text := "manifest.json".toList
def backupSuffix : Text := ".kirara-backup.zip".toList
def backupFormatVersion : Int := 1

def maxArchiveSizeBytes : Nat := 1024 * 1024 * 1024
def maxUncompressedSizeBytes : Nat := 4 * 1024 * 1024 * 1024
def maxArchiveFileCount : Nat := 20000
def maxCompressionRatio : Nat := 200

/-- What is found at a path below a directory. -/
inductive Leaf where
  | file (content : Bytes)
  | directory
  | link
  | other
  deriving DecidableEq

def IsName (c : Text) : Prop := IsPart c ∧ c ≠ ['.', '.']

instance (c : Text) : Decidable (IsName c) := inferInstanceAs (Decidable ((_ ∧ _ ∧ _) ∧ _))

/-- The paths below a directory; what holds another path need not be listed. -/
structure Listing where
  entries : Dict (List Text) Leaf
  named : ∀ p ∈ entries.keys, p ≠ [] ∧ ∀ c ∈ p, IsName c
  closed : ∀ p ∈ entries.keys, ∀ q ∈ entries.keys, above p q → entries.get p = some .directory

inductive Node where
  | file (content : Bytes)
  | directory (listing : Listing)
  | link (dangling : Bool)
  | other

/-- `exists`, which follows a link. -/
def Node.exists : Node → Bool
  | .link dangling => !dangling
  | _ => true

def Node.isLink : Node → Bool
  | .link _ => true
  | _ => false

def Node.files : Node → List Text → Option Bytes
  | .file content, [] => some content
  | .directory listing, p =>
    match listing.entries.get p with
    | some (.file content) => some content
    | _ => none
  | _, _ => none

/-- A member of a ZIP file, and what reading it gives. -/
structure Member where
  filename : Text
  fileSize : Nat
  compressSize : Nat
  symlink : Bool
  content : Option Bytes

def Member.isDir (m : Member) : Bool := m.filename.getLast? = some '/'

structure Archive where
  size : Nat
  members : Option (List Member)

/-- A data directory: its entries but `backups`, and the files in that one. -/
structure DataDirectory where
  entries : Text → Option Node
  backups : Dict Text Archive

inductive BackupError where
  /-- A `BackupValidationError`. -/
  | validation (message : Text)
  | raised
  deriving DecidableEq

def invalid {β : Type} (message : String) : Except BackupError β := .error (.validation message.toList)

/-- What a parser gives: a value, an error that is caught, or another one. -/
inductive Read (β : Type) where
  | value (b : β)
  | malformed
  | raises

def Read.required {β : Type} (message : String) : Read β → Except BackupError β
  | .value b => .ok b
  | .malformed => invalid message
  | .raises => .error .raised

/-- What the service uses of its libraries, and of code elsewhere. -/
structure Platform where
  sha256 : Bytes → Text
  sha256_length : ∀ b, (sha256 b).length = 64
  /-- `json.dumps`, in UTF-8. -/
  dumps : Json → Bytes
  /-- `json.loads` of a text in UTF-8. -/
  loads : Bytes → Read Json
  /-- `str` of what JSON can hold. -/
  str : Json → Text
  str_text : ∀ t, str (.text t) = t
  int : Json → Read Int
  int_int : ∀ n, int (.atom (.int n)) = .value n
  /-- The size of some bytes that were deflated. -/
  deflated : Bytes → Nat
  deflated_pos : ∀ b, b ≠ [] → 0 < deflated b
  /-- The size of a ZIP file with some members. -/
  zipSize : List Member → Nat
  /-- Whether the configuration can be loaded from a text. -/
  config : Bytes → Bool
  yaml : Bytes → Option Json
  applicationVersion : Text

section Creation

variable (P : Platform) (dataPath : List Text)

structure BackupFile where
  path : Text
  sha256 : Text
  size : Int
  deriving DecidableEq

/-- `_existing_components`, in the order of their names. -/
def existingComponents (d : DataDirectory) : List Text := allowedComponents.filter (fun c => (d.entries c).isSome)

/-- `_is_excluded_path`, for a path below the data directory, by all parts of the path. -/
def isExcludedPath (path : List Text) : Bool :=
  suffix (joined path) ∈ excludedFileSuffixes || (dataPath ++ path).any (· ∈ excludedDirectoryNames)

def refuseLink {β : Type} : Except BackupError β := invalid "symbolic links cannot be included in a backup"

def iterListing (c : Text) : List (List Text × Leaf) → Except BackupError (List (List Text × Bytes))
  | [] => .ok []
  | (p, leaf) :: rest =>
    if isExcludedPath dataPath (c :: p) then iterListing c rest
    else
      match leaf with
      | .link => refuseLink
      | .file content => (iterListing c rest).map ((c :: p, content) :: ·)
      | _ => iterListing c rest

def iterComponent (c : Text) (node : Node) : Except BackupError (List (List Text × Bytes)) :=
  match node with
  | .link _ => refuseLink
  | .file content => .ok (if c ∈ fileComponents then [([c], content)] else [])
  | .directory listing =>
    if c ∈ fileComponents then .ok [] else iterListing dataPath c (sortBy Prod.fst listing.entries.entries)
  | .other => .ok []

def iterBackupFiles (d : DataDirectory) : List Text → Except BackupError (List (List Text × Bytes))
  | [] => .ok []
  | c :: components =>
    match d.entries c with
    | none => iterBackupFiles d components
    | some node => do
      let files ← iterComponent dataPath c node
      return files ++ (← iterBackupFiles d components)

def buildFileRecord (f : List Text × Bytes) : BackupFile := ⟨joined f.1, P.sha256 f.2, f.2.length⟩

def BackupFile.toJson (f : BackupFile) : Json :=
  .dict [("path".toList, .text f.path), ("sha256".toList, .text f.sha256), ("size".toList, .atom (.int f.size))]

def manifestJson (createdAt : Text) (components : List Text) (files : List BackupFile) : Json :=
  .dict [("format_version".toList, .atom (.int backupFormatVersion)), ("created_at".toList, .text createdAt),
    ("application_version".toList, .text P.applicationVersion), ("components".toList, .list (components.map .text)),
    ("files".toList, .list (files.map BackupFile.toJson)),
    ("uncompressed_size".toList, .atom (.int (files.map BackupFile.size).sum))]

def member (filename : Text) (content : Bytes) : Member :=
  ⟨filename, content.length, P.deflated content, false, some content⟩

def writtenMembers (createdAt : Text) (components : List Text) (files : List (List Text × Bytes)) : List Member :=
  member P manifestName (P.dumps (manifestJson P createdAt components (files.map (buildFileRecord P)))) ::
    files.map (fun f => member P (joined f.1) f.2)

structure Creation where
  timestamp : Text
  createdAt : Text
  reads : Bool
  writes : Bool

def backupKinds : List Text := ["backup".toList, "export".toList, "rollback".toList]

def buildBackupFilename (kind timestamp : Text) : Text := "kirara-".toList ++ kind ++ ['-'] ++ timestamp ++ backupSuffix

/-- `create_backup`. An archive that cannot be written is removed, even if its name was taken. -/
def createBackup (env : Creation) (kind : Text) (d : DataDirectory) : Except BackupError (Text × Archive) × DataDirectory :=
  if kind ∉ backupKinds then (.error .raised, d)
  else
    let name := buildBackupFilename kind env.timestamp
    match iterBackupFiles dataPath d (existingComponents d) with
    | .error e => (.error e, d)
    | .ok files =>
      if !env.reads then (.error .raised, d)
      else if name ∈ d.backups.keys ∨ !env.writes then (.error .raised, { d with backups := d.backups.pop name })
      else
        let members := writtenMembers P env.createdAt (existingComponents d) files
        let archive := ⟨P.zipSize members, some members⟩
        (.ok (name, archive), { d with backups := d.backups.set name archive })

end Creation

variable (P : Platform)

structure BackupManifest where
  formatVersion : Int
  createdAt : Text
  applicationVersion : Text
  components : List Text
  files : List BackupFile
  uncompressedSize : Int

def unsafePath {β : Type} : Except BackupError β := invalid "unsafe archive path"

def componentFromArchivePath (name : Text) : Except BackupError Text :=
  match components name with
  | [] => .error .raised
  | c :: parts => if c ∈ fileComponents ∧ parts ≠ [] ∨ c ∉ allowedComponents then unsafePath else .ok c

def validateArchivePath (name : Text) : Except BackupError Unit :=
  if '\\' ∈ name ∨ isAbsolute name ∨ components name = [] ∨ ['.', '.'] ∈ components name then unsafePath
  else if name = manifestName then .ok ()
  else (componentFromArchivePath name).map (fun _ => ())

def checkMember (members : Dict Text Member) (total : Nat) (m : Member) : Except BackupError Unit :=
  if m.filename ∈ members.keys then invalid "backup archive contains duplicate members"
  else do
    validateArchivePath m.filename
    if m.symlink then invalid "backup archive contains symbolic links"
    else if m.fileSize ≠ 0 ∧ m.compressSize = 0 then invalid "backup archive contains an invalid compressed member"
    else if m.compressSize ≠ 0 ∧ m.compressSize * maxCompressionRatio < m.fileSize then
      invalid "backup archive contains an unsafe compression ratio"
    else if maxUncompressedSizeBytes < total + m.fileSize then
      invalid "backup archive exceeds the maximum uncompressed size"
    else .ok ()

/-- The loop of `_validate_archive_members`. -/
def collectMembers : Dict Text Member → Nat → List Member → Except BackupError (Dict Text Member)
  | members, _, [] => .ok members
  | members, total, m :: ms => do
    checkMember members total m
    collectMembers (members.set m.filename m) (total + m.fileSize) ms

def validateArchiveMembers (ms : List Member) : Except BackupError (Dict Text Member) := do
  let members ← collectMembers .empty 0 ms
  if maxArchiveFileCount < members.keys.length then invalid "backup archive contains too many files"
  else if manifestName ∉ members.keys then invalid "backup manifest is missing"
  else .ok members

def notAManifest : String := "backup manifest is invalid"

/-- `payload[key]`. -/
def subscript (v : Json) (key : String) : Except BackupError Json :=
  match v with
  | .dict entries =>
    match lookup key.toList entries with
    | some value => .ok value
    | none => invalid notAManifest
  | _ => invalid notAManifest

def iterate : Json → Except BackupError (List Json)
  | .list items => .ok items
  | .dict entries => .ok (entries.map (fun e => .text e.1))
  | .text t => .ok (t.map (fun c => .text [c]))
  | _ => invalid notAManifest

def readFile (v : Json) : Except BackupError BackupFile := do
  let path ← subscript v "path"
  let sha256 ← subscript v "sha256"
  let size ← subscript v "size"
  let n ← (P.int size).required notAManifest
  return ⟨P.str path, P.str sha256, n⟩

def hashable : Json → Bool
  | .list _ | .dict _ => false
  | _ => true

/-- `set(payload["components"])`. -/
def readComponents (v : Json) : Except BackupError (List Json) := do
  let items ← iterate v
  if items.all hashable then .ok items else invalid notAManifest

def allowedOf : List Json → Option (List Text)
  | [] => some []
  | .text t :: items => if t ∈ allowedComponents then (allowedOf items).map (t :: ·) else none
  | _ :: _ => none

def checkFields (formatVersion uncompressedSize : Int) (items : List Json) : Except BackupError (List Text) :=
  if formatVersion ≠ backupFormatVersion then invalid "backup format version is not supported"
  else
    match allowedOf items with
    | none => invalid "backup manifest contains unsupported components"
    | some components =>
      if uncompressedSize < 0 ∨ maxUncompressedSizeBytes < uncompressedSize then
        invalid "backup manifest has an invalid size"
      else .ok components

def parseManifest (payload : Json) : Except BackupError BackupManifest := do
  let items ← iterate (← subscript payload "files")
  let files ← items.mapM (readFile P)
  let formatVersion ← (P.int (← subscript payload "format_version")).required notAManifest
  let createdAt ← subscript payload "created_at"
  let applicationVersion ← subscript payload "application_version"
  let names ← readComponents (← subscript payload "components")
  let uncompressedSize ← (P.int (← subscript payload "uncompressed_size")).required notAManifest
  let components ← checkFields formatVersion uncompressedSize names
  return ⟨formatVersion, P.str createdAt, P.str applicationVersion, components, files, uncompressedSize⟩

def Member.read (m : Member) : Except BackupError Bytes :=
  match m.content with
  | none => invalid "invalid backup archive"
  | some content => .ok content

def readManifest (members : Dict Text Member) : Except BackupError BackupManifest :=
  match members.get manifestName with
  | none => .error .raised
  | some m => do
    let content ← m.read
    let payload ← (P.loads content).required notAManifest
    parseManifest P payload

def checkFile (manifest : BackupManifest) (members : Dict Text Member) (paths : List Text) (file : BackupFile) :
    Except BackupError Unit := do
  validateArchivePath file.path
  if file.path = manifestName ∨ file.path ∈ paths then invalid "backup manifest contains duplicate file records"
  else if file.size < 0 ∨ file.sha256.length ≠ 64 then invalid "backup manifest contains an invalid file record"
  else
    match members.get file.path with
    | none => invalid "backup manifest references a missing file"
    | some m =>
      if m.isDir ∨ (m.fileSize : Int) ≠ file.size then invalid "backup manifest file size mismatch"
      else do
        let content ← m.read
        if P.sha256 content ≠ file.sha256 then invalid "backup checksum mismatch"
        else do
          let c ← componentFromArchivePath file.path
          if c ∉ manifest.components then invalid "backup manifest file is outside the declared components" else .ok ()

def checkFiles (manifest : BackupManifest) (members : Dict Text Member) :
    List Text → List BackupFile → Except BackupError Unit
  | _, [] => .ok ()
  | paths, file :: files => do
    checkFile P manifest members paths file
    checkFiles manifest members (file.path :: paths) files

def archiveFilePaths (members : Dict Text Member) : List Text :=
  (members.filter (fun m => m.1 ≠ manifestName && !m.2.isDir)).keys

def validateManifest (manifest : BackupManifest) (members : Dict Text Member) : Except BackupError Unit := do
  checkFiles P manifest members [] manifest.files
  if !((archiveFilePaths members).all (· ∈ manifest.files.map BackupFile.path) &&
      (manifest.files.map BackupFile.path).all (· ∈ archiveFilePaths members)) then
    invalid "backup manifest file list does not match the archive"
  else if (manifest.files.map BackupFile.size).sum ≠ manifest.uncompressedSize then
    invalid "backup manifest total size mismatch"
  else .ok ()

def inspectMembers (ms : List Member) : Except BackupError BackupManifest := do
  let members ← validateArchiveMembers ms
  let manifest ← readManifest P members
  validateManifest P manifest members
  return manifest

def inspectBackup (archive : Option Archive) : Except BackupError BackupManifest :=
  match archive with
  | none => invalid "backup archive does not exist"
  | some a =>
    if maxArchiveSizeBytes < a.size then invalid "backup archive exceeds the maximum size"
    else
      match a.members with
      | none => invalid "invalid backup archive"
      | some ms => inspectMembers P ms

end Kirara.DataBackups

namespace Kirara.BackupListings

open Kirara.Channels Kirara.Dicts Kirara.Dicts.Dict Kirara.Fallible Kirara.PosixPaths Kirara.Rosters Kirara.StableSorts
open Kirara.DataBackups
open Kirara.ResourceArchives (Bytes above)

variable {dataPath : List Text} {d : DataDirectory} {c : Text} {cs : List Text} {node : Node} {p q : List Text}
  {content : Bytes} {files : List (List Text × Bytes)} {entries : List (List Text × Leaf)} {listing : Listing}

theorem directory_files : (Node.directory listing).files p = some content ↔ listing.entries.get p = some (.file content) := by
  cases h : listing.entries.get p with
  | none => simp [Node.files, h]
  | some leaf => cases leaf <;> simp [Node.files, h]

theorem mem_components : ∀ c ∈ allowedComponents, c ∈ directoryComponents ∨ c ∈ fileComponents := by decide

theorem not_both : ∀ c ∈ directoryComponents, c ∉ fileComponents := by decide

/-- A file of a component that goes into a backup. -/
structure Included (dataPath : List Text) (c : Text) (node : Node) (p : List Text) (content : Bytes) : Prop where
  file : node.files p = some content
  own : c ∈ fileComponents → p = []
  below : c ∉ fileComponents → p ≠ [] ∧ isExcludedPath dataPath (c :: p) = false

theorem mem_iterListing (h : iterListing dataPath c entries = .ok files) :
    (q, content) ∈ files ↔ ∃ p, q = c :: p ∧ (p, .file content) ∈ entries ∧ isExcludedPath dataPath (c :: p) = false := by
  induction entries generalizing files with
  | nil =>
    cases h
    exact ⟨nofun, fun ⟨_, _, hm, _⟩ => (nomatch hm)⟩
  | cons e entries ih =>
    obtain ⟨r, leaf⟩ := e
    have hskip (hleaf : ∀ b, leaf ≠ .file b ∨ isExcludedPath dataPath (c :: r) = true)
        (hrest : iterListing dataPath c entries = .ok files) : (q, content) ∈ files ↔
          ∃ p, q = c :: p ∧ (p, .file content) ∈ (r, leaf) :: entries ∧ isExcludedPath dataPath (c :: p) = false := by
      rw [ih hrest]
      refine exists_congr (fun p => and_congr_right (fun _ => and_congr_left (fun hin => ?_)))
      refine ⟨List.mem_cons_of_mem _, fun hm => (List.mem_cons.mp hm).resolve_left (fun he => ?_)⟩
      cases he
      obtain hne | hex := hleaf content
      · exact hne rfl
      · exact Bool.false_ne_true (hin.symm.trans hex)
    unfold iterListing at h
    split at h
    · next hex => exact hskip (fun _ => .inr hex) h
    · next hex =>
      cases leaf with
      | link => cases h
      | directory => exact hskip (fun _ => .inl nofun) h
      | other => exact hskip (fun _ => .inl nofun) h
      | file b =>
        obtain ⟨rest, hrest, rfl⟩ := map_ok h
        rw [List.mem_cons, ih hrest]
        constructor
        · rintro (he | ⟨p, hq, hp, hin⟩)
          · cases he
            exact ⟨r, rfl, List.mem_cons_self, by simpa using hex⟩
          · exact ⟨p, hq, List.mem_cons_of_mem _ hp, hin⟩
        · intro ⟨p, hq, hp, hin⟩
          obtain he | hp := List.mem_cons.mp hp
          · cases he
            exact .inl (by rw [hq])
          · exact .inr ⟨p, hq, hp, hin⟩

theorem sublist_iterListing (h : iterListing dataPath c entries = .ok files) :
    (files.map Prod.fst).Sublist (entries.map (fun e => c :: e.1)) := by
  induction entries generalizing files with
  | nil =>
    cases h
    exact .slnil
  | cons e entries ih =>
    obtain ⟨r, leaf⟩ := e
    unfold iterListing at h
    split at h
    · exact (ih h).cons _
    cases leaf with
    | link => cases h
    | directory => exact (ih h).cons _
    | other => exact (ih h).cons _
    | file b =>
      obtain ⟨rest, hrest, rfl⟩ := map_ok h
      exact (ih hrest).cons_cons _

theorem mem_iterComponent (h : iterComponent dataPath c node = .ok files) :
    (q, content) ∈ files ↔ ∃ p, q = c :: p ∧ Included dataPath c node p content := by
  cases node with
  | link dangling => cases h
  | other =>
    cases h
    exact ⟨nofun, fun ⟨_, _, hi⟩ => (nomatch hi.file)⟩
  | file b =>
    have hfile {p : List Text} : (Node.file b).files p = some content ↔ p = [] ∧ b = content := by
      cases p with
      | nil => exact ⟨fun h => ⟨rfl, Option.some.inj h⟩, fun ⟨_, h⟩ => congrArg some h⟩
      | cons _ _ => exact ⟨nofun, fun ⟨h, _⟩ => (nomatch h)⟩
    cases h
    split
    · next hown =>
      rw [List.mem_singleton]
      constructor
      · intro he
        cases he
        exact ⟨[], rfl, hfile.mpr ⟨rfl, rfl⟩, fun _ => rfl, fun hn => absurd hown hn⟩
      · intro ⟨p, hq, hi⟩
        obtain ⟨rfl, rfl⟩ := hfile.mp hi.file
        rw [hq]
    · next hown =>
      refine ⟨nofun, fun ⟨p, _, hi⟩ => ?_⟩
      exact absurd (hfile.mp hi.file).1 (hi.below hown).1
  | directory listing =>
    have hkey {p : List Text} (hp : listing.entries.get p = some (.file content)) : p ≠ [] :=
      (listing.named p (isSome_get_iff.mp (by rw [hp]; rfl))).1
    unfold iterComponent at h
    dsimp only at h
    split at h
    · next hown =>
      cases h
      refine ⟨nofun, fun ⟨p, _, hi⟩ => ?_⟩
      exact absurd (hi.own hown) (hkey (directory_files.mp hi.file))
    · next hown =>
      rw [mem_iterListing h]
      refine exists_congr (fun p => and_congr_right (fun _ => ?_))
      rw [(sortBy_perm).mem_iff, ← get_eq_some_iff]
      constructor
      · intro ⟨hp, hin⟩
        exact ⟨directory_files.mpr hp, fun h => absurd h hown, fun _ => ⟨hkey hp, hin⟩⟩
      · intro hi
        exact ⟨directory_files.mp hi.file, (hi.below hown).2⟩

theorem nodup_iterComponent (h : iterComponent dataPath c node = .ok files) : (files.map Prod.fst).Nodup := by
  cases node with
  | link dangling => cases h
  | other =>
    cases h
    exact List.nodup_nil
  | file b =>
    cases h
    split
    · exact List.nodup_singleton _
    · exact List.nodup_nil
  | directory listing =>
    unfold iterComponent at h
    dsimp only at h
    split at h
    · cases h
      exact List.nodup_nil
    · refine (sublist_iterListing h).nodup ?_
      have hperm : ((sortBy Prod.fst listing.entries.entries).map Prod.fst).Nodup :=
        (sortBy_perm.map Prod.fst).nodup_iff.mpr listing.entries.distinct
      have hmap : (sortBy Prod.fst listing.entries.entries).map (fun e => c :: e.1) =
          ((sortBy Prod.fst listing.entries.entries).map Prod.fst).map (c :: ·) := by
        rw [List.map_map]
        rfl
      rw [hmap]
      exact hperm.map (List.cons_injective)

theorem mem_iterBackupFiles (h : iterBackupFiles dataPath d cs = .ok files) : (q, content) ∈ files ↔
      ∃ c ∈ cs, ∃ node p, q = c :: p ∧ d.entries c = some node ∧ Included dataPath c node p content := by
  induction cs generalizing files with
  | nil =>
    cases h
    exact ⟨nofun, fun ⟨_, hc, _⟩ => (nomatch hc)⟩
  | cons c cs ih =>
    unfold iterBackupFiles at h
    split at h
    · next hnone =>
      rw [ih h]
      constructor
      · intro ⟨e, he, hx⟩
        exact ⟨e, List.mem_cons_of_mem _ he, hx⟩
      · intro ⟨e, he, node, p, hq, hnode, hi⟩
        obtain rfl | he := List.mem_cons.mp he
        · cases hnone.symm.trans hnode
        · exact ⟨e, he, node, p, hq, hnode, hi⟩
    · next node hnode =>
      obtain ⟨first, hfirst, h⟩ := bind_eq_ok.mp h
      obtain ⟨rest, hrest, h⟩ := bind_eq_ok.mp h
      cases h
      rw [List.mem_append, mem_iterComponent hfirst, ih hrest]
      constructor
      · rintro (⟨p, hq, hi⟩ | ⟨e, he, hx⟩)
        · exact ⟨c, List.mem_cons_self, node, p, hq, hnode, hi⟩
        · exact ⟨e, List.mem_cons_of_mem _ he, hx⟩
      · intro ⟨e, he, n, p, hq, hn, hi⟩
        obtain rfl | he := List.mem_cons.mp he
        · cases hnode.symm.trans hn
          exact .inl ⟨p, hq, hi⟩
        · exact .inr ⟨e, he, n, p, hq, hn, hi⟩

theorem nodup_iterBackupFiles (hnodup : cs.Nodup) (h : iterBackupFiles dataPath d cs = .ok files) : (files.map Prod.fst).Nodup := by
  induction cs generalizing files with
  | nil =>
    cases h
    exact List.nodup_nil
  | cons c cs ih =>
    obtain ⟨hnew, hnodup⟩ := List.nodup_cons.mp hnodup
    unfold iterBackupFiles at h
    split at h
    · exact ih hnodup h
    obtain ⟨first, hfirst, h⟩ := bind_eq_ok.mp h
    obtain ⟨rest, hrest, h⟩ := bind_eq_ok.mp h
    cases h
    rw [List.map_append, List.nodup_append]
    refine ⟨nodup_iterComponent hfirst, ih hnodup hrest, fun a ha b hb hab => ?_⟩
    obtain ⟨⟨_, x⟩, hx, rfl⟩ := List.mem_map.mp ha
    obtain ⟨⟨_, y⟩, hy, rfl⟩ := List.mem_map.mp hb
    obtain ⟨p, hp, -⟩ := (mem_iterComponent hfirst).mp hx
    obtain ⟨e, he, _, r, hr, -⟩ := (mem_iterBackupFiles hrest).mp hy
    dsimp only at hab
    rw [hp, hr] at hab
    cases hab
    exact hnew he

end Kirara.BackupListings
