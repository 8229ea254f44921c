import Kirara.ConfigValues
import Kirara.Fallible
import Kirara.PosixPaths
import Kirara.ResourceLifecycle
import Kirara.StableSorts
import Mathlib.Data.List.Lex

namespace Kirara.ResourceArchives

open Kirara.Channels Kirara.ConfigValues Kirara.Dicts Kirara.PosixPaths Kirara.Rosters Kirara.StableSorts
open Kirara.ResourceLifecycle (ResourceType)

abbrev Bytes := List UInt8

/-- The values of JSON that are no strings, arrays or objects. -/
inductive Scalar where
  | null
  | bool (b : Bool)
  | int (n : Int)
  | float
  deriving DecidableEq

abbrev Json := Value Scalar

/-- What is raised: a `ResourceValidationError`, or another exception. -/
inductive Raised where
  | validation (message : Text)
  | unicodeError
  | osError
  | keyError
  | typeError
  | valueError
  deriving DecidableEq

def invalid {β : Type} (message : String) : Except Raised β := .error (.validation message.toList)

/-- `_SHA256_PATTERN`. -/
def isSha256 (t : Text) : Bool := t.length = 64 && t.all (fun c => c ∈ "0123456789abcdef".toList)

/-- What `json.loads` makes of some bytes. -/
inductive Loaded where
  | value (v : Json)
  /-- A `UnicodeDecodeError` or a `JSONDecodeError`. -/
  | malformed
  | raises (e : Raised)

/-- What the services use of their libraries. -/
structure Platform where
  sha256 : Bytes → Text
  sha256_digits : ∀ b, isSha256 (sha256 b) = true
  casefold : Text → Text
  /-- The decimal digits of `\d`. -/
  isDecimal : Char → Bool
  /-- Whether `Version` accepts a text. -/
  version : Text → Except Raised Bool
  /-- `json.dumps`, in UTF-8. -/
  dumps : Json → Bytes
  /-- `json.dumps` with an indentation and a line end, in UTF-8. -/
  printed : Json → Bytes
  loads : Bytes → Loaded
  /-- What the file system takes as a path below a version. -/
  accepts : List Text → Bool

/-- A member of a ZIP file. A name ends before its first null character. -/
structure ZipInfo where
  filename : Text
  fileSize : Nat
  symlink : Bool
  content : Bytes
  noNull : Char.ofNat 0 ∉ filename

def ZipInfo.isDir (info : ZipInfo) : Bool := info.filename.getLast? = some '/'

structure ZipArchive where
  size : Nat
  infos : Option (List ZipInfo)

def maxArchiveSizeBytes : Nat := 64 * 1024 * 1024
def maxUncompressedSizeBytes : Nat := 128 * 1024 * 1024
def maxMemberSizeBytes : Nat := 32 * 1024 * 1024
def maxMemberCount : Nat := 4096
def maxManifestSizeBytes : Nat := 1024 * 1024

def idChar (c : Char) : Bool := c.isAlphanum || c ∈ ['.', '_', '-']

/-- `_ID_PATTERN`. -/
def isId (t : Text) : Bool :=
  t.length ≤ 128 && t.all idChar && t.head?.any Char.isAlphanum && t.getLast?.any Char.isAlphanum

/-- `0|[1-9]\d*`. -/
def isNumber (isDecimal : Char → Bool) : Text → Bool
  | [] => false
  | c :: cs => c = '0' && cs.isEmpty || '1' ≤ c && c ≤ '9' && cs.all isDecimal

/-- `[0-9A-Za-z-]+(?:\.[0-9A-Za-z-]+)*`. -/
def isIdentifiers (t : Text) : Bool := (t.splitOn '.').all (fun p => p ≠ [] && p.all (fun c => c.isAlphanum || c = '-'))

def cut (c : Char) (t : Text) : Text × Option Text :=
  (t.takeWhile (· ≠ c), (t.dropWhile (· ≠ c)).tail?)

/-- `_SEMVER_PATTERN`. -/
def isSemver (isDecimal : Char → Bool) (t : Text) : Bool :=
  let (rest, build) := cut '+' t
  let (core, pre) := cut '-' rest
  let numbers := core.splitOn '.'
  numbers.length = 3 && numbers.all (isNumber isDecimal) && pre.all isIdentifiers && build.all isIdentifiers

/-- `^[A-Za-z]:`. -/
def driveQualified : Text → Bool
  | c :: ':' :: _ => c.isAlpha
  | _ => false

def validateRelativePath : Json → Except Raised Text
  | .text t =>
    if t = [] ∨ Char.ofNat 0 ∈ t ∨ '\\' ∈ t then invalid "resource path is invalid"
    else if isAbsolute t ∨ ['.', '.'] ∈ components t then invalid "resource path must remain inside the archive"
    else if driveQualified t then invalid "resource path cannot be drive-qualified"
    else .ok (asPosix t)
  | _ => invalid "resource path is invalid"

variable (P : Platform)

structure ResourceFile where
  path : Text
  size : Nat
  sha256 : Text
  deriving DecidableEq

structure ResourceManifest where
  resourceId : Text
  type : ResourceType
  version : Text
  source : Text
  entry : Text
  permissions : List Text
  files : List ResourceFile
  contentSha256 : Text
  sourceKey : Option Text
  sourceMetadata : Option Json

/-- `payload.get(key)`. -/
def field (entries : List (Text × Json)) (key : String) : Json := (lookup key.toList entries).getD (.atom .null)

def isNone : Json → Bool
  | .atom .null => true
  | _ => false

def required : List String :=
  ["resource_id", "type", "version", "source", "entry", "permissions", "files", "content_sha256"]

def resourceTypes : List (Text × ResourceType) :=
  [("skill".toList, .skill), ("prompt".toList, .prompt), ("session".toList, .session), ("memory".toList, .memory),
    ("mcp".toList, .mcp), ("hook".toList, .hook)]

def resourcePermissions : List Text :=
  ["workflow.read".toList, "workflow.write".toList, "process.execute".toList]

def parseResourceId : Json → Except Raised Text
  | .text t => if isId t then .ok t else invalid "resource ID is invalid"
  | _ => invalid "resource ID is invalid"

/-- A list and a dict cannot be looked up in a set. -/
def parseType : Json → Except Raised ResourceType
  | .text t =>
    match lookup t resourceTypes with
    | some type => .ok type
    | none => invalid "resource type is not supported"
  | .atom _ => invalid "resource type is not supported"
  | _ => .error .typeError

def parseVersion : Json → Except Raised Text
  | .text t =>
    if isSemver P.isDecimal t then
      match P.version t with
      | .error e => .error e
      | .ok false => invalid "resource version is invalid"
      | .ok true => .ok t
    else invalid "resource version is not semantic versioning"
  | _ => invalid "resource version is not semantic versioning"

def parseSource : Json → Except Raised Text
  | .text t => if strip t = [] ∨ 2048 < t.length then invalid "resource source is invalid" else .ok (strip t)
  | _ => invalid "resource source is invalid"

def texts : List Json → Option (List Text)
  | [] => some []
  | .text t :: vs => (texts vs).map (t :: ·)
  | _ => none

def parsePermissions : Json → Except Raised (List Text)
  | .list items =>
    match texts items with
    | some permissions =>
      if permissions.Nodup ∧ ∀ p ∈ permissions, p ∈ resourcePermissions then .ok permissions
      else invalid "resource permissions are invalid"
    | none => invalid "resource permissions are invalid"
  | _ => invalid "resource permissions are invalid"

def parseFile (path : Text) (size digest : Json) : Except Raised ResourceFile :=
  match size with
  | .atom (.int (.ofNat n)) =>
    match digest with
    | .text t => if isSha256 t then .ok ⟨path, n, t⟩ else invalid "resource file digest is invalid"
    | _ => invalid "resource file digest is invalid"
  | _ => invalid "resource file size is invalid"

/-- `set(item) == keys`. -/
def hasKeys (keys : List String) (entries : List (Text × Json)) : Bool :=
  entries.all (fun e => e.1 ∈ keys.map String.toList) && keys.all (fun k => k.toList ∈ entries.map Prod.fst)

def parseItems : List Text → List Json → Except Raised (List ResourceFile)
  | _, [] => .ok []
  | seen, .dict entries :: items =>
    if !hasKeys ["path", "size", "sha256"] entries then invalid "resource file metadata is invalid"
    else
      match validateRelativePath (field entries "path") with
      | .error e => .error e
      | .ok path =>
        if path = "manifest.json".toList ∨ P.casefold path ∈ seen then invalid "resource file path is duplicated or reserved"
        else
          match parseFile path (field entries "size") (field entries "sha256") with
          | .error e => .error e
          | .ok file =>
            match parseItems (P.casefold path :: seen) items with
            | .error e => .error e
            | .ok files => .ok (file :: files)
  | _, _ => invalid "resource file metadata is invalid"

def parseFiles : Json → Except Raised (List ResourceFile)
  | .list (item :: items) => parseItems P [] (item :: items)
  | _ => invalid "resource files are required"

def scriptSuffixes : List Text :=
  [".bat".toList, ".cmd".toList, ".com".toList, ".exe".toList, ".js".toList, ".msi".toList, ".ps1".toList, ".py".toList,
    ".sh".toList, ".vbs".toList]

/-- `PurePosixPath(t).suffix`. -/
def suffix (t : Text) : Text :=
  let name := baseName t
  let extension := name.reverse.takeWhile (· ≠ '.')
  if extension.length + 1 < name.length ∧ extension ≠ [] then '.' :: extension.reverse else []

def parseDigest : Json → Except Raised Text
  | .text t => if isSha256 t then .ok t else invalid "resource content digest is invalid"
  | _ => invalid "resource content digest is invalid"

def parseSourceKey : Json → Except Raised (Option Text)
  | .atom .null => .ok none
  | .text t => if strip t = [] ∨ 512 < t.length then invalid "resource source key is invalid" else .ok (some (strip t))
  | _ => invalid "resource source key is invalid"

def parseSourceMetadata : Json → Except Raised (Option Json)
  | .atom .null => .ok none
  | .dict entries => .ok (some (.dict entries))
  | _ => invalid "resource source metadata is invalid"

def checkEntry (type : ResourceType) (entry : Text) (files : List ResourceFile) : Except Raised Unit :=
  if P.casefold entry ∉ files.map (fun f => P.casefold f.path) then invalid "resource entry is not declared"
  else if (type = .prompt ∨ type = .session) ∧ ∃ f ∈ files, (suffix f.path).map Char.toLower ∈ scriptSuffixes then
    invalid "prompt and session resources cannot contain scripts"
  else .ok ()

def parseManifest : Json → Except Raised ResourceManifest
  | .dict entries =>
    if required.any (fun key => isNone (field entries key)) then invalid "resource manifest is missing required fields"
    else do
      let resourceId ← parseResourceId (field entries "resource_id")
      let type ← parseType (field entries "type")
      let version ← parseVersion P (field entries "version")
      let source ← parseSource (field entries "source")
      let entry ← validateRelativePath (field entries "entry")
      let permissions ← parsePermissions (field entries "permissions")
      let files ← parseFiles P (field entries "files")
      checkEntry P type entry files
      let contentSha256 ← parseDigest (field entries "content_sha256")
      let sourceKey ← parseSourceKey (field entries "source_key")
      let sourceMetadata ← parseSourceMetadata (field entries "source_metadata")
      .ok ⟨resourceId, type, version, source, entry, permissions, files, contentSha256, sourceKey, sourceMetadata⟩
  | _ => invalid "resource manifest is missing required fields"

/-- The loop of `_validate_members`, with the members, their names in one case, and their size
so far. -/
def validateInfos : Dict Text ZipInfo → List Text → Nat → List ZipInfo → Except Raised (Dict Text ZipInfo)
  | members, _, _, [] => .ok members
  | members, folded, total, info :: infos =>
    match validateRelativePath (.text info.filename) with
    | .error e => .error e
    | .ok name =>
      if name ∈ members.keys ∨ P.casefold name ∈ folded then invalid "resource archive contains duplicate paths"
      else if info.symlink then invalid "resource archive contains a symbolic link"
      else if maxMemberSizeBytes < info.fileSize then invalid "resource archive member exceeds the size limit"
      else if maxUncompressedSizeBytes < total + info.fileSize then invalid "resource archive expands beyond the size limit"
      else validateInfos (members.set name info) (P.casefold name :: folded) (total + info.fileSize) infos

def validateMembers (infos : List ZipInfo) : Except Raised (Dict Text ZipInfo) :=
  if maxMemberCount < infos.length then invalid "resource archive contains too many files"
  else validateInfos P .empty [] 0 infos

/-- `encode("ascii")`. -/
def encodeAscii (t : Text) : Except Raised Bytes :=
  if t.all (fun c => c.toNat < 128) then .ok (t.map (fun c => UInt8.ofNat c.toNat)) else .error .unicodeError

def record (path : Text) (size : Nat) (sha256 : Text) : Text :=
  path ++ ':' :: (Nat.toDigits 10 size ++ ':' :: (sha256 ++ ['\n']))

def contentHash (files : List ResourceFile) : Except Raised Text :=
  ((sortBy ResourceFile.path files).mapM (fun f => encodeAscii (record f.path f.size f.sha256))).map
    (fun parts => P.sha256 parts.flatten)

def verifyFile (members : Dict Text ZipInfo) (file : ResourceFile) : Except Raised Unit :=
  match members.get file.path with
  | none => invalid "resource file size does not match manifest"
  | some info =>
    if info.isDir ∨ info.fileSize ≠ file.size then invalid "resource file size does not match manifest"
    else if P.sha256 info.content ≠ file.sha256 then invalid "resource file digest does not match manifest"
    else .ok ()

def verifyFiles (members : Dict Text ZipInfo) (manifest : ResourceManifest) : Except Raised Unit := do
  let _ ← manifest.files.mapM (verifyFile P members)
  let hash ← contentHash P manifest.files
  if hash ≠ manifest.contentSha256 then invalid "resource content digest does not match manifest" else .ok ()

def declares (manifest : ResourceManifest) (members : Dict Text ZipInfo) : Bool :=
  let expected := "manifest.json".toList :: manifest.files.map ResourceFile.path
  let actual := (members.filter (fun m => !m.2.isDir)).keys
  expected.all (fun n => n ∈ actual) && actual.all (fun n => n ∈ expected)

/-- `json.loads`, where a malformed text is a validation error. -/
def loadManifest (content : Bytes) : Except Raised Json :=
  match P.loads content with
  | .value v => .ok v
  | .malformed => invalid "resource manifest is invalid JSON"
  | .raises e => .error e

/-- The part of `_validate_archive` after the members. -/
def validateContent (members : Dict Text ZipInfo) : Except Raised ResourceManifest :=
  match members.get "manifest.json".toList with
  | none => invalid "manifest.json is required"
  | some info =>
    if info.isDir then invalid "manifest.json is required"
    else if maxManifestSizeBytes < info.fileSize then invalid "resource manifest is too large"
    else do
      let payload ← loadManifest P info.content
      let manifest ← parseManifest P payload
      if !declares manifest members then invalid "archive contains undeclared or missing files"
      else do
        verifyFiles P members manifest
        .ok manifest

def validateArchive (archive : ZipArchive) : Except Raised ResourceManifest :=
  if maxArchiveSizeBytes < archive.size then invalid "resource archive exceeds the maximum size"
  else
    match archive.infos with
    | none => invalid "resource archive is not a valid ZIP file"
    | some infos => do
      let members ← validateMembers P infos
      validateContent P members

/-- The files below a version directory, by the parts of their paths. -/
abbrev Tree := Dict (List Text) Bytes

/-- One of two paths is the directory of the other. -/
def above (p q : List Text) : Bool := p.isPrefixOf q && p ≠ q

/-- A new file, with its directories. It may be in the way of others, and they in its. -/
def create (path : List Text) (content : Bytes) (tree : Tree) : Except Raised Tree :=
  if !P.accepts path ∨ path = [] then .error .osError
  else if tree.keys.any (fun p => p = path || above p path || above path p) then .error .osError
  else .ok (tree.set path content)

/-- `write_text`, which replaces a file. -/
def writeText (path : List Text) (content : Bytes) (tree : Tree) : Except Raised Tree :=
  if !P.accepts path ∨ path = [] then .error .osError
  else if tree.keys.any (fun p => above p path || above path p) then .error .osError
  else .ok (tree.set path content)

def ResourceFile.toDict (f : ResourceFile) : Json :=
  .dict [("path".toList, .text f.path), ("size".toList, .atom (.int f.size)), ("sha256".toList, .text f.sha256)]

def typeName (type : ResourceType) : Text := ((resourceTypes.find? (fun p => p.2 = type)).map Prod.fst).getD []

def ResourceManifest.toDict (m : ResourceManifest) : Json :=
  .dict ([("resource_id".toList, .text m.resourceId), ("type".toList, .text (typeName m.type)),
    ("version".toList, .text m.version), ("source".toList, .text m.source), ("entry".toList, .text m.entry),
    ("permissions".toList, .list (m.permissions.map .text)), ("files".toList, .list (m.files.map ResourceFile.toDict)),
    ("content_sha256".toList, .text m.contentSha256)] ++
    (m.sourceKey.toList.map (fun k => ("source_key".toList, .text k)) ++
      m.sourceMetadata.toList.map (fun d => ("source_metadata".toList, d))))

/-- `archive.open(path)`, by the archive's name: of members of one name the last. -/
def openMember (infos : List ZipInfo) (path : Text) : Except Raised Bytes :=
  match infos.reverse.find? (fun i => i.filename = path) with
  | none => .error .keyError
  | some info => .ok info.content

def extractFiles (infos : List ZipInfo) : List ResourceFile → Tree → Except Raised Tree
  | [], tree => .ok tree
  | f :: fs, tree =>
    match openMember infos f.path with
    | .error e => .error e
    | .ok content =>
      match create P (components f.path) content tree with
      | .error e => .error e
      | .ok next => extractFiles infos fs next

/-- `_extract_to_staging`, with what the version directory holds then. -/
def extractToStaging (infos : List ZipInfo) (manifest : ResourceManifest) : Except Raised Tree :=
  match extractFiles P infos manifest.files .empty with
  | .error e => .error e
  | .ok tree => writeText P ["manifest.json".toList] (P.printed manifest.toDict) tree

end Kirara.ResourceArchives
