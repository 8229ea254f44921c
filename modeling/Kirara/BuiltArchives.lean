import Kirara.SkillFiles

namespace Kirara.BuiltArchives

open Kirara.Channels Kirara.Dicts Kirara.Fallible Kirara.ResourceArchives
open Kirara.RepositorySkills Kirara.Rosters Kirara.SkillFiles Kirara.StableSorts

def manifestName : Text := "manifest.json".toList

structure Portable (P : Platform) (files : Dict Text Bytes) : Prop where
  noBackslash : ∀ name ∈ files.keys, '\\' ∉ name
  noDrive : ∀ name ∈ files.keys, driveQualified name = false
  distinct : (files.keys.map P.casefold).Nodup

/-- There is room for the members of an archive, the manifest being the first. -/
structure Room (infos : List ZipInfo) : Prop where
  count : infos.length ≤ maxMemberCount
  each : ∀ info ∈ infos, info.fileSize ≤ maxMemberSizeBytes
  total : (infos.map ZipInfo.fileSize).sum ≤ maxUncompressedSizeBytes
  manifest : ∀ info ∈ infos.head?, info.fileSize ≤ maxManifestSizeBytes

variable {P : Platform}

theorem validateRelativePath_clean {t : Text} (h : Clean t) (hback : '\\' ∉ t) (hdrive : driveQualified t = false) :
    validateRelativePath (.text t) = .ok t := by
  rw [validateRelativePath, if_neg (not_or.mpr ⟨h.normal.ne_nil, not_or.mpr ⟨h.noNull, hback⟩⟩),
    if_neg (not_or.mpr ⟨by rw [h.normal.not_isAbsolute]; exact Bool.false_ne_true, h.inside⟩),
    if_neg (by rw [hdrive]; exact Bool.false_ne_true), h.normal.asPosix_eq]

theorem clean_manifestName : Clean manifestName where
  normal c hc := by
    rw [List.mem_singleton.mp (show c ∈ [manifestName] from hc)]
    exact ⟨by decide, by decide, by decide⟩
  inside := by decide
  noNull := by decide

def Unreserved (P : Platform) (files : Dict Text Bytes) : Prop :=
  ∀ name ∈ files.keys, P.casefold name ≠ P.casefold manifestName

theorem validateInfos_iff {infos : List ZipInfo} {members result : Dict Text ZipInfo} {folded : List Text} {total : Nat}
    (hfolded : ∀ k ∈ members.keys, P.casefold k ∈ folded)
    (hname : ∀ info ∈ infos, validateRelativePath (.text info.filename) = .ok info.filename)
    (hlink : ∀ info ∈ infos, info.symlink = false) (hsize : ∀ info ∈ infos, info.fileSize ≤ maxMemberSizeBytes)
    (htotal : total + (infos.map ZipInfo.fileSize).sum ≤ maxUncompressedSizeBytes) :
    validateInfos P members folded total infos = .ok result ↔
      ((infos.map (fun i => P.casefold i.filename)).Nodup ∧ ∀ info ∈ infos, P.casefold info.filename ∉ folded) ∧
      infos.foldl (fun d i => d.set i.filename i) members = result := by
  induction infos generalizing members folded total with
  | nil =>
    rw [validateInfos]
    simp
  | cons info infos ih =>
    rw [List.map_cons, List.sum_cons] at htotal
    have hmem : info ∈ info :: infos := List.mem_cons_self
    have hseen : info.filename ∈ members.keys ∨ P.casefold info.filename ∈ folded ↔ P.casefold info.filename ∈ folded :=
      ⟨fun h => h.elim (hfolded _) id, .inr⟩
    have hnext : ∀ k ∈ (members.set info.filename info).keys, P.casefold k ∈ P.casefold info.filename :: folded := by
      intro k hk
      cases Dict.mem_keys_set.mp hk with
      | inl h => exact h ▸ List.mem_cons_self
      | inr h => exact List.mem_cons_of_mem _ (hfolded k h)
    rw [validateInfos, hname info hmem]
    dsimp only
    rw [invalid, ite_error_eq_ok, hseen, hlink info hmem, if_neg Bool.false_ne_true, invalid,
      if_neg (not_lt.mpr (hsize info hmem)), invalid, if_neg (by omega),
      ih hnext (fun i hi => hname i (List.mem_cons_of_mem _ hi)) (fun i hi => hlink i (List.mem_cons_of_mem _ hi))
        (fun i hi => hsize i (List.mem_cons_of_mem _ hi)) (by omega),
      List.map_cons, List.nodup_cons, List.foldl_cons, ← and_assoc]
    refine and_congr_left (fun _ => ?_)
    constructor
    · rintro ⟨hnew, hnodup, hrest⟩
      refine ⟨⟨fun h => ?_, hnodup⟩, fun i hi => ?_⟩
      · obtain ⟨i, hi, he⟩ := List.mem_map.mp h
        exact hrest i hi (he ▸ List.mem_cons_self)
      · cases List.mem_cons.mp hi with
        | inl h => exact h ▸ hnew
        | inr h => exact fun hf => hrest i h (List.mem_cons_of_mem _ hf)
    · rintro ⟨⟨hhead, hnodup⟩, hrest⟩
      refine ⟨hrest info hmem, hnodup, fun i hi hf => ?_⟩
      cases List.mem_cons.mp hf with
      | inl h => exact hhead (List.mem_map.mpr ⟨i, hi, h⟩)
      | inr h => exact hrest i (List.mem_cons_of_mem _ hi) h

/-- The members of an archive, under their names. -/
def named (infos : List ZipInfo) : List (Text × ZipInfo) := infos.map (fun i => (i.filename, i))

theorem validateMembers_iff {infos : List ZipInfo} {members : Dict Text ZipInfo} (hroom : Room infos)
    (hname : ∀ info ∈ infos, validateRelativePath (.text info.filename) = .ok info.filename)
    (hlink : ∀ info ∈ infos, info.symlink = false) : validateMembers P infos = .ok members ↔
      (infos.map (fun i => P.casefold i.filename)).Nodup ∧ members.entries = named infos := by
  have hfold (h : (infos.map (fun i => P.casefold i.filename)).Nodup) :
      (infos.foldl (fun d i => d.set i.filename i) Dict.empty).entries = named infos := by
    have hdistinct : Distinct (Dict.empty.entries ++ named infos) := by
      refine List.Nodup.of_map P.casefold ?_
      rwa [Dict.empty, List.nil_append, named, List.map_map, List.map_map]
    have hset := Dict.foldl_set_entries hdistinct
    rwa [named, List.foldl_map] at hset
  have hempty : ∀ k ∈ (Dict.empty : Dict Text ZipInfo).keys, P.casefold k ∈ ([] : List Text) := fun _ hk => absurd hk List.not_mem_nil
  rw [validateMembers, invalid, if_neg (not_lt.mpr hroom.count),
    validateInfos_iff hempty hname hlink hroom.each (by simpa using hroom.total)]
  constructor
  · rintro ⟨⟨hnodup, _⟩, hresult⟩
    exact ⟨hnodup, hresult ▸ hfold hnodup⟩
  · rintro ⟨hnodup, hentries⟩
    exact ⟨⟨hnodup, fun _ _ h => absurd h List.not_mem_nil⟩, Dict.ext ((hfold hnodup).trans hentries.symm)⟩

variable (P) (o : Origin) (files : Dict Text Bytes) (hash : Text)

/-- The members that are written, for a digest of the files. -/
def builtInfos : List ZipInfo :=
  writestr manifestName (P.dumps (builtManifest P o files hash)) :: files.entries.map (fun f => writestr f.1 f.2)

def manifestOf : ResourceManifest where
  resourceId := o.resourceId
  type := .skill
  version := o.version
  source := strip o.sourceUrl
  entry := entryName
  permissions := ["workflow.read".toList]
  files := (sortedFiles files).map (manifestFile P)
  contentSha256 := hash
  sourceKey := some (strip o.sourceKey)
  sourceMetadata := some (.dict o.metadata)

variable {P o files hash} {infos : List ZipInfo} {members : Dict Text ZipInfo}

theorem buildSkillArchive_eq_ok :
    buildSkillArchive P o files = .ok infos ↔ ∃ hash, filesContentHash P files = .ok hash ∧ builtInfos P o files hash = infos := by
  rw [buildSkillArchive]
  cases filesContentHash P files with
  | error e => exact ⟨nofun, fun ⟨_, h, _⟩ => (nomatch h)⟩
  | ok digest =>
    refine ⟨fun h => ⟨digest, rfl, Except.ok.inj h⟩, fun ⟨hash, h, hinfos⟩ => ?_⟩
    cases h
    exact congrArg Except.ok hinfos

theorem filename_writestr {name : Text} {content : Bytes} (h : Clean name) : (writestr name content).filename = name :=
  h.takeWhile_eq

theorem map_filename_builtInfos (hclean : ∀ k ∈ files.keys, Clean k) :
    (builtInfos P o files hash).map ZipInfo.filename = manifestName :: files.keys := by
  have hfiles : files.entries.map (fun f => (writestr f.1 f.2).filename) = files.keys :=
    List.map_congr_left (fun f hf => filename_writestr (hclean f.1 (Dict.mem_keys_iff.mpr ⟨f.2, hf⟩)))
  rw [builtInfos, List.map_cons, List.map_map, filename_writestr clean_manifestName, ← hfiles]
  rfl

theorem nodup_names (hfree : Unreserved P files) : (manifestName :: files.keys).Nodup :=
  List.nodup_cons.mpr ⟨fun h => hfree manifestName h rfl, files.distinct⟩

theorem symlink_builtInfos : ∀ info ∈ builtInfos P o files hash, info.symlink = false := by
  intro info hinfo
  cases List.mem_cons.mp hinfo with
  | inl h => rw [h, writestr]
  | inr h =>
    obtain ⟨f, -, rfl⟩ := List.mem_map.mp h
    rfl

variable (hclean : ∀ k ∈ files.keys, Clean k)

include hclean

theorem validateRelativePath_builtInfos (hport : Portable P files) :
    ∀ info ∈ builtInfos P o files hash, validateRelativePath (.text info.filename) = .ok info.filename := by
  intro info hinfo
  have hname : info.filename ∈ manifestName :: files.keys :=
    map_filename_builtInfos hclean ▸ List.mem_map_of_mem hinfo
  cases List.mem_cons.mp hname with
  | inl h => rw [h, validateRelativePath_clean clean_manifestName (by decide) rfl]
  | inr h => exact validateRelativePath_clean (hclean _ h) (hport.noBackslash _ h) (hport.noDrive _ h)

theorem validateMembers_built_iff (hport : Portable P files)
    (hroom : Room (builtInfos P o files hash)) : validateMembers P (builtInfos P o files hash) = .ok members ↔
      Unreserved P files ∧ members.entries = named (builtInfos P o files hash) := by
  rw [validateMembers_iff hroom (validateRelativePath_builtInfos hclean hport) symlink_builtInfos]
  have hmap : (builtInfos P o files hash).map (fun i => P.casefold i.filename) =
      (manifestName :: files.keys).map P.casefold := by
    rw [← map_filename_builtInfos hclean, List.map_map]
    rfl
  rw [hmap, List.map_cons, List.nodup_cons]
  refine and_congr_left (fun _ => ?_)
  constructor
  · intro ⟨hnew, _⟩ name hname he
    exact hnew (List.mem_map.mpr ⟨name, hname, he⟩)
  · intro h
    refine ⟨fun hm => ?_, hport.distinct⟩
    obtain ⟨name, hname, he⟩ := List.mem_map.mp hm
    exact h name hname he

theorem get_members (h : members.entries = named (builtInfos P o files hash)) :
    members.get manifestName = some (writestr manifestName (P.dumps (builtManifest P o files hash))) ∧
      ∀ f ∈ files.entries, members.get f.1 = some (writestr f.1 f.2) := by
  have hget {name : Text} {content : Bytes} (hname : Clean name)
      (hinfo : writestr name content ∈ builtInfos P o files hash) : members.get name = some (writestr name content) := by
    rw [Dict.get_eq_some_iff, h, named, List.mem_map]
    exact ⟨_, hinfo, by rw [filename_writestr hname]⟩
  refine ⟨hget clean_manifestName List.mem_cons_self, fun f hf => ?_⟩
  exact hget (hclean f.1 (Dict.mem_keys_iff.mpr ⟨f.2, hf⟩)) (List.mem_cons_of_mem _ (List.mem_map_of_mem hf))

omit hclean

theorem isDir_writestr {name : Text} {content : Bytes} (h : Clean name) : (writestr name content).isDir = false := by
  rw [ZipInfo.isDir, filename_writestr h]
  exact decide_eq_false h.getLast?_ne

theorem declares_built (hclean : ∀ k ∈ files.keys, Clean k) (h : members.entries = named (builtInfos P o files hash)) :
    declares (manifestOf P o files hash) members = true := by
  have hfiles : ∀ m ∈ members.entries, (!m.2.isDir) = true := by
    intro m hm
    rw [h] at hm
    obtain ⟨info, hinfo, rfl⟩ := List.mem_map.mp hm
    cases List.mem_cons.mp hinfo with
    | inl hi => rw [hi, isDir_writestr clean_manifestName]; rfl
    | inr hi =>
      obtain ⟨f, hf, rfl⟩ := List.mem_map.mp hi
      rw [isDir_writestr (hclean f.1 (Dict.mem_keys_iff.mpr ⟨f.2, hf⟩))]
      rfl
  have hactual : (members.filter (fun m => !m.2.isDir)).keys = manifestName :: files.keys := by
    have hfilter : (members.filter (fun m => !m.2.isDir)).entries = members.entries := List.filter_eq_self.mpr hfiles
    have hnames : (builtInfos P o files hash).map ZipInfo.filename = manifestName :: files.keys :=
      map_filename_builtInfos hclean
    rw [Dict.keys, hfilter, h, named, List.map_map, ← hnames]
    rfl
  have hexpected : (manifestOf P o files hash).files.map ResourceFile.path = (sortedFiles files).map Prod.fst :=
    map_path_manifestFile _
  have hperm : ((sortedFiles files).map Prod.fst).Perm files.keys := sortBy_perm.map _
  rw [declares, hexpected, hactual, Bool.and_eq_true, List.all_eq_true, List.all_eq_true]
  exact ⟨fun n hn => decide_eq_true ((hperm.cons _).mem_iff.mp hn),
    fun n hn => decide_eq_true ((hperm.cons _).mem_iff.mpr hn)⟩

theorem verifyFiles_built (hclean : ∀ k ∈ files.keys, Clean k) (h : members.entries = named (builtInfos P o files hash))
    (hhash : filesContentHash P files = .ok hash) : verifyFiles P members (manifestOf P o files hash) = .ok () := by
  have hverify : ∀ r ∈ (sortedFiles files).map (manifestFile P), verifyFile P members r = .ok () := by
    intro r hr
    obtain ⟨f, hf, rfl⟩ := List.mem_map.mp hr
    have hentry := mem_sortedFiles.mp hf
    rw [verifyFile, manifestFile, (get_members hclean h).2 f hentry]
    dsimp only
    rw [if_neg, if_neg (fun hne => hne rfl)]
    rw [isDir_writestr (hclean f.1 (Dict.mem_keys_iff.mpr ⟨f.2, hentry⟩))]
    exact not_or.mpr ⟨Bool.false_ne_true, fun hne => hne rfl⟩
  rw [verifyFiles, manifestOf, mapM_eq_ok hverify, contentHash_manifestFile, hhash]
  exact if_neg (fun hne => hne rfl)

theorem parseItems_fileRecord {fs : List (Text × Bytes)} {seen : List Text}
    (hname : ∀ f ∈ fs, validateRelativePath (.text f.1) = .ok f.1) (hreserved : ∀ f ∈ fs, f.1 ≠ "manifest.json".toList)
    (hnodup : (fs.map (fun f => P.casefold f.1)).Nodup) (hseen : ∀ f ∈ fs, P.casefold f.1 ∉ seen) :
    parseItems P seen (fs.map (fileRecord P)) = .ok (fs.map (manifestFile P)) := by
  induction fs generalizing seen with
  | nil => rfl
  | cons f fs ih =>
    have hmem : f ∈ f :: fs := List.mem_cons_self
    obtain ⟨hfirst, hrest⟩ := List.nodup_cons.mp hnodup
    have hnext : ∀ g ∈ fs, P.casefold g.1 ∉ P.casefold f.1 :: seen := by
      intro g hg hm
      cases List.mem_cons.mp hm with
      | inl h => exact hfirst (List.mem_map.mpr ⟨g, hg, h⟩)
      | inr h => exact hseen g (List.mem_cons_of_mem _ hg) h
    have hkeys : (!hasKeys ["path", "size", "sha256"] (fileFields P f)) = false := rfl
    have hpath : field (fileFields P f) "path" = .text f.1 := rfl
    have hfile : parseFile f.1 (field (fileFields P f) "size") (field (fileFields P f) "sha256") = .ok (manifestFile P f) :=
      if_pos (P.sha256_digits f.2)
    rw [List.map_cons, fileRecord, parseItems, hkeys, if_neg Bool.false_ne_true, hpath, hname f hmem]
    dsimp only
    rw [if_neg (not_or.mpr ⟨hreserved f hmem, hseen f hmem⟩), hfile,
      ih (fun g hg => hname g (List.mem_cons_of_mem _ hg)) (fun g hg => hreserved g (List.mem_cons_of_mem _ hg))
        hrest hnext]
    rfl

/-- What the validator asks of the texts around the files. -/
structure Described (P : Platform) (o : Origin) : Prop where
  identified : isId o.resourceId = true
  semantic : isSemver P.isDecimal o.version = true
  versioned : P.version o.version = .ok true
  located : strip o.sourceUrl ≠ []
  keyed : strip o.sourceKey ≠ [] ∧ o.sourceKey.length ≤ 512

theorem parseFiles_built (hclean : ∀ k ∈ files.keys, Clean k) (hport : Portable P files) (hfree : Unreserved P files)
    (hentry : entryName ∈ files.keys) :
    parseFiles P (.list ((sortedFiles files).map (fileRecord P))) = .ok ((sortedFiles files).map (manifestFile P)) := by
  have hkey {f : Text × Bytes} (hf : f ∈ sortedFiles files) : f.1 ∈ files.keys :=
    Dict.mem_keys_iff.mpr ⟨f.2, mem_sortedFiles.mp hf⟩
  have hnodup : ((sortedFiles files).map (fun f => P.casefold f.1)).Nodup := by
    have hperm : ((sortedFiles files).map (fun f => P.casefold f.1)).Perm (files.entries.map (fun f => P.casefold f.1)) :=
      sortBy_perm.map _
    have hdistinct := hport.distinct
    rw [Dict.keys, List.map_map] at hdistinct
    exact hperm.nodup_iff.mpr hdistinct
  have hitems : parseItems P [] ((sortedFiles files).map (fileRecord P)) = .ok ((sortedFiles files).map (manifestFile P)) :=
    parseItems_fileRecord
      (fun f hf => validateRelativePath_clean (hclean _ (hkey hf)) (hport.noBackslash _ (hkey hf)) (hport.noDrive _ (hkey hf)))
      (fun f hf he => hfree f.1 (hkey hf) (congrArg P.casefold he)) hnodup (fun _ _ => List.not_mem_nil)
  cases hsorted : sortedFiles files with
  | nil =>
    obtain ⟨content, hmem⟩ := Dict.mem_keys_iff.mp hentry
    have hnone := mem_sortedFiles.mpr hmem
    rw [hsorted] at hnone
    cases hnone
  | cons f fs =>
    rw [hsorted] at hitems
    exact hitems

theorem checkEntry_built (hentry : entryName ∈ files.keys) :
    checkEntry P .skill entryName ((sortedFiles files).map (manifestFile P)) = .ok () := by
  have hdeclared : P.casefold entryName ∈ ((sortedFiles files).map (manifestFile P)).map (fun f => P.casefold f.path) := by
    obtain ⟨content, hmem⟩ := Dict.mem_keys_iff.mp hentry
    rw [List.map_map]
    exact List.mem_map.mpr ⟨(entryName, content), mem_sortedFiles.mpr hmem, rfl⟩
  rw [checkEntry, if_neg (not_not.mpr hdeclared), if_neg (fun h => absurd h.1 (by decide))]

variable {m : ResourceManifest}

theorem parseManifest_built_iff (hdescribed : Described P o) (hhash : isSha256 hash = true)
    (hclean : ∀ k ∈ files.keys, Clean k) (hport : Portable P files) (hfree : Unreserved P files)
    (hentry : entryName ∈ files.keys) : parseManifest P (builtManifest P o files hash) = .ok m ↔
      o.sourceUrl.length ≤ 2048 ∧ manifestOf P o files hash = m := by
  have hpresent : required.any (fun key => isNone (field (manifestFields P o files hash) key)) = false := rfl
  have hid : parseResourceId (field (manifestFields P o files hash) "resource_id") = .ok o.resourceId :=
    if_pos hdescribed.identified
  have htype : parseType (field (manifestFields P o files hash) "type") = .ok .skill := rfl
  have hversion : parseVersion P (field (manifestFields P o files hash) "version") = .ok o.version := by
    have hfield : field (manifestFields P o files hash) "version" = .text o.version := rfl
    rw [hfield, parseVersion, if_pos hdescribed.semantic, hdescribed.versioned]
  have hplace : validateRelativePath (field (manifestFields P o files hash) "entry") = .ok entryName :=
    validateRelativePath_clean clean_entryName (by decide) rfl
  have hpermissions : parsePermissions (field (manifestFields P o files hash) "permissions") =
      .ok ["workflow.read".toList] := rfl
  have hfiles : parseFiles P (field (manifestFields P o files hash) "files") =
      .ok ((sortedFiles files).map (manifestFile P)) := parseFiles_built hclean hport hfree hentry
  have hdigest : parseDigest (field (manifestFields P o files hash) "content_sha256") = .ok hash := if_pos hhash
  have hkey : parseSourceKey (field (manifestFields P o files hash) "source_key") = .ok (some (strip o.sourceKey)) :=
    if_neg (not_or.mpr ⟨hdescribed.keyed.1, not_lt.mpr hdescribed.keyed.2⟩)
  have hmetadata : parseSourceMetadata (field (manifestFields P o files hash) "source_metadata") =
      .ok (some (.dict o.metadata)) := rfl
  have hsource : field (manifestFields P o files hash) "source" = .text o.sourceUrl := rfl
  rw [builtManifest, parseManifest, hpresent, if_neg Bool.false_ne_true, hid, htype, hversion, hsource, hplace, hpermissions,
    hfiles, hdigest, hkey, hmetadata, parseSource]
  by_cases hlong : 2048 < o.sourceUrl.length
  · rw [if_pos (.inr hlong)]
    exact ⟨nofun, fun h => absurd hlong (not_lt.mpr h.1)⟩
  · rw [if_neg (not_or.mpr ⟨hdescribed.located, hlong⟩)]
    dsimp only [bind, Except.bind]
    rw [checkEntry_built hentry]
    exact ⟨fun h => ⟨not_lt.mp hlong, Except.ok.inj h⟩, fun h => congrArg Except.ok h.2⟩

theorem isSha256_of_filesContentHash (h : filesContentHash P files = .ok hash) : isSha256 hash = true := by
  obtain ⟨parts, -, rfl⟩ := map_ok h
  exact P.sha256_digits _

theorem validateContent_built_iff (hmembers : members.entries = named (builtInfos P o files hash))
    (hroom : Room (builtInfos P o files hash)) (hdescribed : Described P o)
    (hjson : P.loads (P.dumps (builtManifest P o files hash)) = .value (builtManifest P o files hash))
    (hhash : filesContentHash P files = .ok hash) (hclean : ∀ k ∈ files.keys, Clean k) (hport : Portable P files)
    (hfree : Unreserved P files) (hentry : entryName ∈ files.keys) :
    validateContent P members = .ok m ↔ o.sourceUrl.length ≤ 2048 ∧ manifestOf P o files hash = m := by
  have hfirst : members.get "manifest.json".toList = _ := (get_members hclean hmembers).1
  have hsmall := hroom.manifest _ rfl
  have hload : loadManifest P (P.dumps (builtManifest P o files hash)) = .ok (builtManifest P o files hash) := by
    rw [loadManifest, hjson]
  have hparse (m : ResourceManifest) : parseManifest P (builtManifest P o files hash) = .ok m ↔
      o.sourceUrl.length ≤ 2048 ∧ manifestOf P o files hash = m :=
    parseManifest_built_iff hdescribed (isSha256_of_filesContentHash hhash) hclean hport hfree hentry
  rw [validateContent, hfirst]
  dsimp only
  rw [isDir_writestr clean_manifestName, if_neg Bool.false_ne_true, if_neg (not_lt.mpr hsmall), bind_eq_ok]
  constructor
  · rintro ⟨payload, hpayload, h⟩
    cases hload.symm.trans hpayload
    obtain ⟨manifest, hmanifest, h⟩ := bind_eq_ok.mp h
    rw [invalid, ite_error_eq_ok] at h
    obtain ⟨_, -, h⟩ := bind_eq_ok.mp h.2
    cases h
    exact (hparse _).mp hmanifest
  · rintro ⟨hlength, hm⟩
    subst hm
    refine ⟨_, hload, bind_eq_ok.mpr ⟨_, (hparse _).mpr ⟨hlength, rfl⟩, ?_⟩⟩
    rw [declares_built hclean hmembers, if_neg (by decide), verifyFiles_built hclean hmembers hhash]
    rfl

theorem validateArchive_built_iff {size : Nat} (hsize : size ≤ maxArchiveSizeBytes)
    (hroom : Room (builtInfos P o files hash)) (hdescribed : Described P o)
    (hjson : P.loads (P.dumps (builtManifest P o files hash)) = .value (builtManifest P o files hash))
    (hhash : filesContentHash P files = .ok hash) (hclean : ∀ k ∈ files.keys, Clean k) (hport : Portable P files)
    (hentry : entryName ∈ files.keys) : validateArchive P ⟨size, some (builtInfos P o files hash)⟩ = .ok m ↔
      Unreserved P files ∧ o.sourceUrl.length ≤ 2048 ∧ manifestOf P o files hash = m := by
  rw [validateArchive, invalid, if_neg (not_lt.mpr hsize)]
  dsimp only
  rw [bind_eq_ok]
  constructor
  · rintro ⟨members, hvalid, h⟩
    obtain ⟨hfree, hmembers⟩ := (validateMembers_built_iff hclean hport hroom).mp hvalid
    exact ⟨hfree, (validateContent_built_iff hmembers hroom hdescribed hjson hhash hclean hport hfree hentry).mp h⟩
  · rintro ⟨hfree, h⟩
    have hdistinct : Distinct (named (builtInfos P o files hash)) := by
      rw [Distinct, named, List.map_map]
      exact map_filename_builtInfos hclean ▸ nodup_names hfree
    have hmembers : (⟨named (builtInfos P o files hash), hdistinct⟩ : Dict Text ZipInfo).entries = named _ := rfl
    exact ⟨_, (validateMembers_built_iff hclean hport hroom).mpr ⟨hfree, hmembers⟩,
      (validateContent_built_iff hmembers hroom hdescribed hjson hhash hclean hport hfree hentry).mpr h⟩

end Kirara.BuiltArchives
