import Kirara.ResourceArchives

namespace Kirara.RepositorySkills

open Kirara.Channels Kirara.Dicts Kirara.PosixPaths Kirara.ResourceArchives Kirara.StableSorts

def partChar (c : Char) : Bool := c.isAlphanum || c ∈ ['.', '_', '-']

/-- `_GITHUB_PART`. -/
def isGithubPart (t : Text) : Bool := t.length ≤ 100 && t.head?.any Char.isAlphanum && t.all partChar

def pathChar (c : Char) : Bool := partChar c || c = '/'

/-- `_BRANCH_PART`. -/
def isBranchPart (t : Text) : Bool := t.length ≤ 200 && t.head?.any Char.isAlphanum && t.all pathChar

/-- `_DIRECTORY_PART`. -/
def isDirectoryPart (t : Text) : Bool := t.length ≤ 256 && t.head?.any Char.isAlphanum && t.all pathChar

def validateRepositoryIdentity (owner name : Text) : Except Raised (Text × Text) :=
  if isGithubPart (strip owner) && isGithubPart (strip name) then .ok (strip owner, strip name)
  else invalid "GitHub repository coordinates are invalid"

def validateRepository (owner name branch : Text) : Except Raised (Text × Text × Text) :=
  match validateRepositoryIdentity (strip owner) (strip name) with
  | .error e => .error e
  | .ok _ =>
    let b := strip branch
    if !isBranchPart b ∨ "..".toList <:+: b ∨ b.getLast? = some '/' ∨ "//".toList <:+: b ∨
        ∃ c ∈ ['?', '#', '\\'], c ∈ b then
      invalid "GitHub branch is invalid"
    else .ok (strip owner, strip name, b)

def stripSlashes (t : Text) : Text := (t.dropWhile (· = '/')).rdropWhile (· = '/')

def validateDirectory (directory : Text) : Except Raised Text :=
  let d := stripSlashes (strip directory)
  if !isDirectoryPart d ∨ "..".toList <:+: d ∨ "//".toList <:+: d ∨ '\\' ∈ d then invalid "Skill directory is invalid"
  else if isAbsolute d ∨ ['.', '.'] ∈ components d then invalid "Skill directory must remain inside the repository"
  else .ok (asPosix d)

def repositoryRootMarker : Text := ['.']

def resolvedSourceKey (owner name resolvedDirectory : Text) : Except Raised Text :=
  match validateRepository owner name "main".toList with
  | .error e => .error e
  | .ok (owner, name, _) =>
    if resolvedDirectory = repositoryRootMarker then .ok (owner ++ '/' :: (name ++ ':' :: repositoryRootMarker))
    else (validateDirectory resolvedDirectory).map (fun d => owner ++ '/' :: (name ++ ':' :: d))

def encodeUtf8 (t : Text) : Bytes := t.flatMap String.utf8EncodeChar

def hexDigit (n : Nat) : Char := "0123456789ABCDEF".toList.getD n '0'

/-- `urllib.parse.quote(branch, safe='/')`. -/
def quote (t : Text) : Text :=
  t.flatMap (fun c =>
    if c.isAlphanum || c ∈ ['_', '.', '-', '~', '/'] then [c]
    else (String.utf8EncodeChar c).flatMap (fun b => ['%', hexDigit (b.toNat / 16), hexDigit (b.toNat % 16)]))

/-- `_skill_source_url`, for a branch that is known. -/
def skillSourceUrl (owner name branch directory : Text) : Text :=
  let base := "https://github.com/".toList ++ (owner ++ '/' :: (name ++ ("/tree/".toList ++ quote branch)))
  if directory = repositoryRootMarker then base else base ++ '/' :: directory

variable (P : Platform)

/-- The loop of `_read_repository_zip`. -/
def readInfos : Dict Text Bytes → Nat → List ZipInfo → Except Raised (Dict Text Bytes)
  | members, _, [] => .ok members
  | members, total, info :: infos =>
    if info.isDir then readInfos members total infos
    else if isAbsolute info.filename ∨ ['.', '.'] ∈ components info.filename then
      invalid "repository archive contains an unsafe path"
    else if maxMemberSizeBytes < info.fileSize then invalid "repository archive member is too large"
    else if maxUncompressedSizeBytes < total + info.fileSize then
      invalid "repository archive expands beyond the size limit"
    else readInfos (members.set (asPosix info.filename) info.content) (total + info.fileSize) infos

def readRepositoryZip (payload : ZipArchive) : Except Raised (Dict Text Bytes) :=
  if maxArchiveSizeBytes < payload.size then invalid "repository archive is too large"
  else
    match payload.infos with
    | none => invalid "repository archive is invalid"
    | some infos =>
      if maxMemberCount < infos.length then invalid "repository archive contains too many files"
      else readInfos .empty 0 infos

/-- `name.split("/", 1)[0]`. -/
def firstPart (t : Text) : Text := t.takeWhile (· ≠ '/')

def repositoryRoot (members : Dict Text Bytes) : Except Raised Text :=
  match (members.keys.map firstPart).dedup with
  | [root] => .ok root
  | _ => invalid "repository archive has an ambiguous root"

def skillMd : Text := "skill.md".toList

/-- `PurePosixPath(t).name.casefold() == "skill.md"`. -/
def isSkill (t : Text) : Bool := P.casefold (baseName t) = skillMd

/-- The directories that hold a SKILL.md and have the name that is looked for. -/
def candidates (members : Dict Text Bytes) (root target : Text) : List Text :=
  (members.keys.filterMap (fun n =>
    if isSkill P n && 2 ≤ (components n).length && (components root).isPrefixOf (components n) then
      let parent := ((components n).drop (components root).length).dropLast
      if parent ≠ [] ∧ P.casefold (parent.getLastD []) = target then some (ofParts parent) else none
    else none)).dedup

def ambiguous (requested : Text) (choices : List Text) : Text :=
  "Skill directory is ambiguous; multiple SKILL.md directories match '".toList ++ (requested ++ ("': ".toList ++
    ", ".toList.intercalate ((sortBy id choices).take 4)))

def resolveSkillDirectory (members : Dict Text Bytes) (root directory : Text) : Except Raised (Option Text) :=
  if strip directory = repositoryRootMarker then .ok none
  else
    match validateDirectory directory with
    | .error e => .error e
    | .ok requested =>
      if members.keys.any (fun n =>
          isSkill P n && (components n).dropLast = components root ++ components requested) then .ok (some requested)
      else
        match candidates P members root (P.casefold (baseName requested)) with
        | first :: second :: more => .error (.validation (ambiguous requested (first :: second :: more)))
        | [directory] => .ok (some directory)
        | [] =>
          if members.keys.any (fun n => isSkill P n && (components n).dropLast = components root) then .ok none
          else .ok (some requested)

def fromPairs (ps : List (Text × Bytes)) : Dict Text Bytes := ps.foldl (fun d p => d.set p.1 p.2) .empty

def filesBelow (members : Dict Text Bytes) (start : Text) : Dict Text Bytes :=
  fromPairs (members.entries.filterMap (fun m =>
    if start.isPrefixOf m.1 && m.1 ≠ start && m.1.getLast? ≠ some '/' then some (m.1.drop start.length, m.2) else none))

def filesOfRepository (members : Dict Text Bytes) (root : Text) : Dict Text Bytes :=
  fromPairs (members.entries.filterMap (fun m =>
    if (root ++ ['/']).isPrefixOf m.1 && m.1.getLast? ≠ some '/' then
      some (ofParts ((components m.1).drop (components root).length), m.2)
    else none))

def entryName : Text := "SKILL.md".toList

/-- `selected["SKILL.md"] = selected.pop(entry)`. -/
def moveEntry (selected : Dict Text Bytes) (entry : Text) (content : Bytes) : Dict Text Bytes :=
  (selected.pop entry).set entryName content

/-- The part of `_fetch_skill_files` from the selected files on. -/
def takeEntry (selected : Dict Text Bytes) : Except Raised (Dict Text Bytes) :=
  match selected.entries.filter (fun m => isSkill P m.1) with
  | [(entry, content)] => .ok (moveEntry selected entry content)
  | _ => invalid "the requested directory does not contain SKILL.md"

/-- `_fetch_skill_files`, from the archive to the front matter of the entry. -/
def fetchSkillFiles (payload : ZipArchive) (directory : Text) : Except Raised (Dict Text Bytes × Text) := do
  let members ← readRepositoryZip payload
  let root ← repositoryRoot members
  let resolved ← resolveSkillDirectory P members root directory
  match resolved with
  | none => do
    let files ← takeEntry P (filesOfRepository members root)
    .ok (files, repositoryRootMarker)
  | some directory => do
    let files ← takeEntry P (filesBelow members (root ++ '/' :: (directory ++ ['/'])))
    .ok (files, directory)

def sortedFiles (files : Dict Text Bytes) : List (Text × Bytes) := sortBy Prod.fst files.entries

/-- `_files_content_hash`. The records are told apart by their paths. -/
def filesContentHash (files : Dict Text Bytes) : Except Raised Text :=
  let records := sortBy Prod.fst (files.entries.map (fun f => (f.1, f.2.length, P.sha256 f.2)))
  (records.mapM (fun r => encodeAscii (record r.1 r.2.1 r.2.2))).map (fun parts => P.sha256 parts.flatten)

/-- `_resource_id`. -/
def resourceIdOf (sourceKey : Text) : Text := "skill.".toList ++ (P.sha256 (encodeUtf8 sourceKey)).take 16

/-- What a skill is built from, apart from its files. -/
structure Origin where
  resourceId : Text
  sourceKey : Text
  sourceUrl : Text
  version : Text
  metadata : List (Text × Json)

def fileFields (f : Text × Bytes) : List (Text × Json) :=
  [("path".toList, .text f.1), ("size".toList, .atom (.int f.2.length)), ("sha256".toList, .text (P.sha256 f.2))]

def fileRecord (f : Text × Bytes) : Json := .dict (fileFields P f)

def manifestFields (o : Origin) (files : Dict Text Bytes) (contentSha256 : Text) : List (Text × Json) :=
  [("resource_id".toList, .text o.resourceId), ("type".toList, .text "skill".toList),
    ("version".toList, .text o.version), ("source".toList, .text o.sourceUrl), ("source_key".toList, .text o.sourceKey),
    ("source_metadata".toList, .dict o.metadata), ("entry".toList, .text entryName),
    ("permissions".toList, .list [.text "workflow.read".toList]),
    ("files".toList, .list ((sortedFiles files).map (fileRecord P))), ("content_sha256".toList, .text contentSha256)]

def builtManifest (o : Origin) (files : Dict Text Bytes) (contentSha256 : Text) : Json :=
  .dict (manifestFields P o files contentSha256)

/-- `writestr`: the name ends before its first null character. -/
def writestr (path : Text) (content : Bytes) : ZipInfo where
  filename := path.takeWhile (· ≠ Char.ofNat 0)
  fileSize := content.length
  symlink := false
  content := content
  noNull h := absurd (List.mem_takeWhile_imp h) (by simp)

/-- `_build_skill_archive`, with the members as they are written. -/
def buildSkillArchive (o : Origin) (files : Dict Text Bytes) : Except Raised (List ZipInfo) :=
  match filesContentHash P files with
  | .error e => .error e
  | .ok hash =>
    .ok (writestr "manifest.json".toList (P.dumps (builtManifest P o files hash)) ::
      files.entries.map (fun f => writestr f.1 f.2))

/-- What `install_skill` gives the builder, with what the front matter says. -/
def originOf (owner name branch directory sourceKey : Text) (title description version : Text) : Origin where
  resourceId := resourceIdOf P sourceKey
  sourceKey := sourceKey
  sourceUrl := skillSourceUrl owner name branch directory
  version := version
  metadata := [("provider".toList, .text "github".toList), ("owner".toList, .text owner), ("repository".toList, .text name),
    ("branch".toList, .text branch), ("directory".toList, .text directory), ("name".toList, .text title),
    ("description".toList, .text description)]

end Kirara.RepositorySkills

namespace Kirara.SkillFiles

open Kirara.Channels Kirara.Dicts Kirara.Fallible Kirara.PosixPaths Kirara.ResourceArchives Kirara.RepositorySkills
open Kirara.StableSorts

section Names

/-- A name that an archive may have below its root. -/
structure Clean (t : Text) : Prop where
  normal : Normal t
  inside : ['.', '.'] ∉ components t
  noNull : Char.ofNat 0 ∉ t

variable {t : Text}

theorem clean_asPosix (hne : components t ≠ []) (hinside : ['.', '.'] ∉ components t)
    (hnull : Char.ofNat 0 ∉ t) : Clean (asPosix t) where
  normal := normal_asPosix hne
  inside := by rwa [components_asPosix]
  noNull h := by
    obtain h | h | h := mem_asPosix h
    · exact hnull h
    · exact absurd h (by decide)
    · exact absurd h (by decide)

theorem Clean.below {t u : Text} (h : Clean (t ++ '/' :: u)) : Clean u where
  normal := h.normal.of_append.2
  inside hm := h.inside (components_append t u ▸ List.mem_append_right _ hm)
  noNull hm := h.noNull (List.mem_append_right _ (List.mem_cons_of_mem _ hm))

theorem clean_entryName : Clean entryName where
  normal c hc := by
    rw [List.mem_singleton.mp (show c ∈ [entryName] from hc)]
    exact ⟨by decide, by decide, by decide⟩
  inside := by decide
  noNull := by decide

theorem Clean.getLast?_ne (h : Clean t) : t.getLast? ≠ some '/' := by
  intro hlast
  obtain ⟨u, rfl⟩ := List.getLast?_eq_some_iff.mp hlast
  exact h.normal.of_append.2.ne_nil rfl

theorem Clean.takeWhile_eq (h : Clean t) : t.takeWhile (· ≠ Char.ofNat 0) = t :=
  List.takeWhile_eq_self_iff.mpr (fun _ hc => decide_eq_true (fun he => h.noNull (he ▸ hc)))

variable {P : Platform}

/-- What is read of an archive is the archive itself or has a clean name. -/
def Named (members : Dict Text Bytes) : Prop := ∀ k ∈ members.keys, k = ['.'] ∨ Clean k

variable {members : Dict Text Bytes}

theorem Named.set {info : ZipInfo} (h : Named members)
    (hinside : ['.', '.'] ∉ components info.filename) (content : Bytes) :
    Named (members.set (asPosix info.filename) content) := by
  intro k hk
  cases Dict.mem_keys_set.mp hk with
  | inr hk => exact h k hk
  | inl hk =>
    by_cases hne : components info.filename = []
    · exact .inl (by rw [hk, asPosix, hne, ofParts])
    · exact .inr (hk ▸ clean_asPosix hne hinside info.noNull)

theorem readInfos_named {infos : List ZipInfo} {members result : Dict Text Bytes} {total : Nat}
    (h : readInfos members total infos = .ok result) (hm : Named members) : Named result := by
  induction infos generalizing members total with
  | nil =>
    cases h
    exact hm
  | cons info infos ih =>
    rw [readInfos] at h
    split at h
    · exact ih h hm
    rw [invalid, ite_error_eq_ok] at h
    obtain ⟨hinside, h⟩ := h
    rw [invalid, ite_error_eq_ok] at h
    obtain ⟨-, h⟩ := h
    rw [invalid, ite_error_eq_ok] at h
    exact ih h.2 (hm.set (not_or.mp hinside).2 info.content)

theorem readRepositoryZip_named {payload : ZipArchive}
    (h : readRepositoryZip payload = .ok members) : Named members := by
  rw [readRepositoryZip, invalid, ite_error_eq_ok] at h
  obtain ⟨-, h⟩ := h
  cases hinfos : payload.infos with
  | none =>
    rw [hinfos] at h
    cases h
  | some infos =>
    rw [hinfos] at h
    dsimp only at h
    rw [invalid, ite_error_eq_ok] at h
    exact readInfos_named h.2 (fun k hk => nomatch hk)

theorem mem_keys_fromPairs {ps : List (Text × Bytes)} {k : Text} (h : k ∈ (fromPairs ps).keys) :
    k ∈ ps.map Prod.fst := by
  have hfold (ps : List (Text × Bytes)) (d : Dict Text Bytes) (h : k ∈ (ps.foldl (fun d p => d.set p.1 p.2) d).keys) :
      k ∈ d.keys ∨ k ∈ ps.map Prod.fst := by
    induction ps generalizing d with
    | nil => exact .inl h
    | cons p ps ih =>
      rw [List.map_cons, List.mem_cons]
      cases ih (d.set p.1 p.2) h with
      | inr h => exact .inr (.inr h)
      | inl h => exact (Dict.mem_keys_set.mp h).elim (fun h => .inr (.inl h)) .inl
  exact (hfold ps .empty h).resolve_left (fun h => nomatch h)

theorem Named.clean_of_append {t u : Text} (h : Named members)
    (hk : t ++ '/' :: u ∈ members.keys) : Clean (t ++ '/' :: u) := by
  refine (h _ hk).resolve_left (fun hdot => ?_)
  have hmem : '/' ∈ ['.'] := hdot ▸ List.mem_append_right t List.mem_cons_self
  exact absurd hmem (by decide)

theorem filesBelow_clean (h : Named members) : ∀ k ∈ (filesBelow members (t ++ ['/'])).keys, Clean k := by
  intro k hk
  obtain ⟨p, hp, rfl⟩ := List.mem_map.mp (mem_keys_fromPairs hk)
  obtain ⟨m, hm, hsome⟩ := List.mem_filterMap.mp hp
  rw [Option.ite_none_right_eq_some] at hsome
  obtain ⟨hcond, hsome⟩ := hsome
  cases Option.some.inj hsome
  rw [Bool.and_eq_true, Bool.and_eq_true] at hcond
  obtain ⟨u, hu⟩ := List.isPrefixOf_iff_prefix.mp hcond.1.1
  have hname : m.1 = t ++ '/' :: u := by rw [← hu, List.append_assoc]; rfl
  have hkeys : t ++ '/' :: u ∈ members.keys := hname ▸ List.mem_map.mpr ⟨m, hm, rfl⟩
  dsimp only
  rw [← hu, List.drop_left]
  exact (h.clean_of_append hkeys).below

theorem filesOfRepository_clean {root : Text} (h : Named members) :
    ∀ k ∈ (filesOfRepository members root).keys, Clean k := by
  intro k hk
  obtain ⟨p, hp, rfl⟩ := List.mem_map.mp (mem_keys_fromPairs hk)
  obtain ⟨m, hm, hsome⟩ := List.mem_filterMap.mp hp
  rw [Option.ite_none_right_eq_some] at hsome
  obtain ⟨hcond, hsome⟩ := hsome
  cases Option.some.inj hsome
  rw [Bool.and_eq_true] at hcond
  obtain ⟨u, hu⟩ := List.isPrefixOf_iff_prefix.mp hcond.1
  have hname : m.1 = root ++ '/' :: u := by rw [← hu, List.append_assoc]; rfl
  have hkeys : root ++ '/' :: u ∈ members.keys := hname ▸ List.mem_map.mpr ⟨m, hm, rfl⟩
  have hu : Clean u := (h.clean_of_append hkeys).below
  dsimp only
  rw [hname, components_append, List.drop_left, ← asPosix, hu.normal.asPosix_eq]
  exact hu

theorem takeEntry_clean {selected files : Dict Text Bytes} (h : takeEntry P selected = .ok files)
    (hs : ∀ k ∈ selected.keys, Clean k) : (∀ k ∈ files.keys, Clean k) ∧ entryName ∈ files.keys := by
  rw [takeEntry] at h
  split at h
  · next entry content _ =>
    cases h
    refine ⟨fun k hk => ?_, Dict.mem_keys_set.mpr (.inl rfl)⟩
    cases Dict.mem_keys_set.mp hk with
    | inl hk => exact hk ▸ clean_entryName
    | inr hk =>
      obtain ⟨v, hv⟩ := Dict.mem_keys_iff.mp hk
      exact hs k (Dict.mem_keys_iff.mpr ⟨v, List.mem_of_mem_filter hv⟩)
  · cases h

theorem fetchSkillFiles_clean {payload : ZipArchive} {directory resolved : Text} {files : Dict Text Bytes}
    (h : fetchSkillFiles P payload directory = .ok (files, resolved)) :
    (∀ k ∈ files.keys, Clean k) ∧ entryName ∈ files.keys := by
  obtain ⟨members, hmembers, h⟩ := bind_eq_ok.mp h
  obtain ⟨root, -, h⟩ := bind_eq_ok.mp h
  obtain ⟨place, -, h⟩ := bind_eq_ok.mp h
  have hnamed := readRepositoryZip_named hmembers
  cases place with
  | none =>
    obtain ⟨taken, htaken, h⟩ := bind_eq_ok.mp h
    cases h
    exact takeEntry_clean htaken (filesOfRepository_clean hnamed)
  | some directory =>
    obtain ⟨taken, htaken, h⟩ := bind_eq_ok.mp h
    cases h
    refine takeEntry_clean htaken ?_
    have hstart : root ++ '/' :: (resolved ++ ['/']) = (root ++ '/' :: resolved) ++ ['/'] := by simp
    rw [hstart]
    exact filesBelow_clean hnamed

end Names

variable (P : Platform)

def manifestFile (f : Text × Bytes) : ResourceFile := ⟨f.1, f.2.length, P.sha256 f.2⟩

def Ascii (t : Text) : Prop := ∀ c ∈ t, c.toNat < 128

variable {P} {files : Dict Text Bytes}

theorem encodeAscii_ok_iff {t : Text} : (∃ b, encodeAscii t = .ok b) ↔ Ascii t := by
  rw [encodeAscii]
  split
  · next h =>
    rw [List.all_eq_true] at h
    exact ⟨fun _ c hc => of_decide_eq_true (h c hc), fun _ => ⟨_, rfl⟩⟩
  · next h =>
    refine ⟨fun ⟨_, hb⟩ => (nomatch hb), fun ha => absurd ?_ h⟩
    exact List.all_eq_true.mpr (fun c hc => decide_eq_true (ha c hc))

theorem ascii_digits (n : Nat) : Ascii (Nat.toDigits 10 n) := by
  intro c hc
  have hdigit := Nat.isDigit_of_mem_toDigits (by decide) (by decide) hc
  rw [Char.isDigit, Bool.and_eq_true, decide_eq_true_eq, decide_eq_true_eq] at hdigit
  have h : c.toNat ≤ 57 := hdigit.2
  omega

theorem ascii_of_isSha256 {t : Text} (h : isSha256 t = true) : Ascii t := by
  intro c hc
  rw [isSha256, Bool.and_eq_true] at h
  have hmem := of_decide_eq_true (List.all_eq_true.mp h.2 c hc)
  have hall : ("0123456789abcdef".toList : Text).all (fun c => c.toNat < 128) = true := by decide
  exact of_decide_eq_true (List.all_eq_true.mp hall c hmem)

theorem ascii_record_iff {path digest : Text} {size : Nat} (h : isSha256 digest = true) :
    Ascii (record path size digest) ↔ Ascii path := by
  refine ⟨fun hr c hc => hr c (List.mem_append_left _ hc), fun hp c hc => ?_⟩
  rw [record, List.mem_append, List.mem_cons, List.mem_append, List.mem_cons, List.mem_append, List.mem_singleton] at hc
  obtain hc | rfl | hc | rfl | hc | rfl := hc
  · exact hp c hc
  · decide
  · exact ascii_digits size c hc
  · decide
  · exact ascii_of_isSha256 h c hc
  · decide

theorem map_path_manifestFile (fs : List (Text × Bytes)) :
    (fs.map (manifestFile P)).map ResourceFile.path = fs.map Prod.fst := by
  rw [List.map_map]
  rfl

theorem contentHash_manifestFile :
    contentHash P ((sortedFiles files).map (manifestFile P)) = filesContentHash P files := by
  have hvalidator : sortBy ResourceFile.path ((sortedFiles files).map (manifestFile P)) =
      (sortBy Prod.fst (sortedFiles files)).map (manifestFile P) := sortBy_map (fun _ _ => Iff.rfl)
  have hbuilder : sortBy Prod.fst (files.entries.map (fun f => (f.1, f.2.length, P.sha256 f.2))) =
      (sortedFiles files).map (fun f => (f.1, f.2.length, P.sha256 f.2)) := sortBy_map (fun _ _ => Iff.rfl)
  rw [contentHash, hvalidator, sortedFiles, sortBy_sortBy, filesContentHash, hbuilder, List.mapM_map, List.mapM_map]
  rfl

theorem mem_sortedFiles {f : Text × Bytes} : f ∈ sortedFiles files ↔ f ∈ files.entries := sortBy_perm.mem_iff

theorem filesContentHash_ok_iff :
    (∃ hash, filesContentHash P files = .ok hash) ↔ ∀ name ∈ files.keys, Ascii name := by
  have hrecord (f : Text × Bytes) :
      (∃ b, encodeAscii (record f.1 f.2.length (P.sha256 f.2)) = .ok b ∧ True) ↔ Ascii f.1 := by
    simp only [and_true]
    rw [encodeAscii_ok_iff, ascii_record_iff (P.sha256_digits f.2)]
  have hmem (r : ResourceFile) : r ∈ sortBy ResourceFile.path ((sortedFiles files).map (manifestFile P)) ↔
      ∃ f ∈ files.entries, manifestFile P f = r := by
    rw [sortBy_perm.mem_iff, List.mem_map]
    simp only [mem_sortedFiles]
  rw [← contentHash_manifestFile, contentHash, map_ok_iff]
  constructor
  · intro ⟨parts, hparts⟩ name hname
    obtain ⟨content, hf⟩ := Dict.mem_keys_iff.mp hname
    obtain ⟨b, -, hb⟩ := exists_of_forall₂ (forall₂_of_mapM hparts) ((hmem _).mpr ⟨_, hf, rfl⟩)
    exact (hrecord (name, content)).mp ⟨b, hb, trivial⟩
  · intro h
    have hall : ∀ r ∈ sortBy ResourceFile.path ((sortedFiles files).map (manifestFile P)),
        ∃ b, encodeAscii (record r.path r.size r.sha256) = .ok b ∧ True := by
      intro r hr
      obtain ⟨f, hf, rfl⟩ := (hmem r).mp hr
      exact (hrecord f).mpr (h f.1 (Dict.mem_keys_iff.mpr ⟨f.2, hf⟩))
    obtain ⟨parts, hparts, -⟩ := mapM_forall₂_iff.mpr hall
    exact ⟨parts, hparts⟩

end Kirara.SkillFiles
