import Kirara.DataBackups

namespace Kirara.BackupInspections

open Kirara.Channels Kirara.Dicts Kirara.Dicts.Dict Kirara.Fallible Kirara.PosixPaths Kirara.Rosters
open Kirara.DataBackups
open Kirara.ResourceArchives (Bytes Json)

variable {P : Platform} {name : Text} {c : Text} {ms : List Member} {m : Member} {members result : Dict Text Member}
  {total : Nat} {manifest : BackupManifest} {file : BackupFile} {paths : List Text}

/-- A path leads to a component, or below one that is a directory. -/
def InComponent (name c : Text) : Prop :=
  ∃ parts, components name = c :: parts ∧ c ∈ allowedComponents ∧ (c ∈ fileComponents → parts = [])

structure SafePath (name : Text) : Prop where
  noBackslash : '\\' ∉ name
  relative : isAbsolute name = false
  inside : ['.', '.'] ∉ components name
  component : name = manifestName ∨ ∃ c, InComponent name c

theorem componentFromArchivePath_iff : componentFromArchivePath name = .ok c ↔ InComponent name c := by
  unfold componentFromArchivePath InComponent
  cases components name with
  | nil => exact iff_of_false (by rintro ⟨⟩) (by rintro ⟨_, ⟨⟩, _⟩)
  | cons d parts =>
    dsimp only
    rw [unsafePath, invalid, ite_error_eq_ok]
    constructor
    · rintro ⟨h, hd⟩
      cases hd
      exact ⟨parts, rfl, not_not.mp (fun hc => h (.inr hc)), fun hc => not_not.mp (fun hp => h (.inl ⟨hc, hp⟩))⟩
    · rintro ⟨rest, hparts, hallowed, hfile⟩
      cases hparts
      exact ⟨fun h => h.elim (fun h => h.2 (hfile h.1)) (fun h => h hallowed), rfl⟩

theorem components_manifestName : components manifestName = [manifestName] := by decide

theorem validateArchivePath_iff : validateArchivePath name = .ok () ↔ SafePath name := by
  unfold validateArchivePath
  rw [unsafePath, invalid, ite_error_eq_ok]
  constructor
  · intro ⟨hsafe, h⟩
    obtain ⟨hback, habsolute, -, hinside⟩ : '\\' ∉ name ∧ isAbsolute name = false ∧ components name ≠ [] ∧
        ['.', '.'] ∉ components name := by simpa [not_or] using hsafe
    refine ⟨hback, habsolute, hinside, ?_⟩
    by_cases hname : name = manifestName
    · exact .inl hname
    rw [if_neg hname] at h
    obtain ⟨c, hc, -⟩ := map_ok h
    exact .inr ⟨c, componentFromArchivePath_iff.mp hc⟩
  · intro h
    have hne : components name ≠ [] := by
      obtain rfl | ⟨c, parts, hparts, -⟩ := h.component
      · rw [components_manifestName]
        exact List.cons_ne_nil _ _
      · rw [hparts]
        exact List.cons_ne_nil _ _
    refine ⟨by simp [h.noBackslash, h.relative, hne, h.inside], ?_⟩
    by_cases hname : name = manifestName
    · rw [if_pos hname]
    rw [if_neg hname]
    obtain ⟨c, hc⟩ := h.component.resolve_left hname
    rw [componentFromArchivePath_iff.mpr hc]
    rfl

structure Sized (m : Member) : Prop where
  safe : SafePath m.filename
  noLink : m.symlink = false
  compressed : m.fileSize ≠ 0 → m.compressSize ≠ 0
  ratio : m.compressSize ≠ 0 → m.fileSize ≤ m.compressSize * maxCompressionRatio

theorem checkMember_iff : checkMember members total m = .ok () ↔
    m.filename ∉ members.keys ∧ Sized m ∧ total + m.fileSize ≤ maxUncompressedSizeBytes := by
  unfold checkMember
  rw [invalid, ite_error_eq_ok]
  refine and_congr_right (fun _ => ?_)
  rw [bind_eq_ok]
  constructor
  · intro ⟨_, hsafe, h⟩
    simp only [invalid, ite_error_eq_ok] at h
    obtain ⟨hlink, hcompressed, hratio, htotal, -⟩ := h
    exact ⟨⟨validateArchivePath_iff.mp hsafe, by simpa using hlink, fun hs hc => hcompressed ⟨hs, hc⟩,
      fun hc => not_lt.mp (fun hlt => hratio ⟨hc, hlt⟩)⟩, not_lt.mp htotal⟩
  · intro ⟨h, htotal⟩
    refine ⟨(), validateArchivePath_iff.mpr h.safe, ?_⟩
    simp only [invalid, ite_error_eq_ok]
    exact ⟨by simp [h.noLink], fun hc => h.compressed hc.1 hc.2, fun hr => not_lt.mpr (h.ratio hr.1) hr.2,
      not_lt.mpr htotal, trivial⟩

def named (ms : List Member) : List (Text × Member) := ms.map (fun m => (m.filename, m))

theorem collectMembers_iff (htotal : total ≤ maxUncompressedSizeBytes) :
    collectMembers members total ms = .ok result ↔
      (∀ m ∈ ms, Sized m) ∧ total + (ms.map Member.fileSize).sum ≤ maxUncompressedSizeBytes ∧
      Distinct (members.entries ++ named ms) ∧ result.entries = members.entries ++ named ms := by
  induction ms generalizing members total with
  | nil =>
    rw [collectMembers, named, List.map_nil, List.map_nil, List.sum_nil, List.append_nil]
    constructor
    · intro h
      cases h
      exact ⟨fun _ hm => (nomatch hm), htotal, Dict.distinct _, rfl⟩
    · intro ⟨_, _, _, h⟩
      rw [Dict.ext h]
  | cons m ms ih =>
    have hshift (hnew : m.filename ∉ members.keys) :
        (members.set m.filename m).entries ++ named ms = members.entries ++ named (m :: ms) := by
      rw [Dict.set_entries_of_not_mem hnew, List.append_assoc]
      rfl
    rw [collectMembers, bind_eq_ok, List.map_cons, List.sum_cons]
    constructor
    · intro ⟨_, hm, h⟩
      obtain ⟨hnew, hsized, hfits⟩ := checkMember_iff.mp hm
      obtain ⟨hrest, hsum, hdistinct, hresult⟩ := (ih hfits).mp h
      rw [hshift hnew] at hdistinct hresult
      refine ⟨fun x hx => ?_, by omega, hdistinct, hresult⟩
      obtain rfl | hx := List.mem_cons.mp hx
      · exact hsized
      · exact hrest x hx
    · intro ⟨hsized, hsum, hdistinct, hresult⟩
      have hnew : m.filename ∉ members.keys := by
        rw [Distinct, List.map_append] at hdistinct
        exact fun hm => (List.nodup_append.mp hdistinct).2.2 _ hm _ List.mem_cons_self rfl
      have hfits : total + m.fileSize ≤ maxUncompressedSizeBytes := by omega
      refine ⟨(), checkMember_iff.mpr ⟨hnew, hsized m List.mem_cons_self, hfits⟩, (ih hfits).mpr ?_⟩
      rw [hshift hnew]
      exact ⟨fun x hx => hsized x (List.mem_cons_of_mem _ hx), by omega, hdistinct, hresult⟩

/-- What the members of an archive must be like together. -/
structure SoundMembers (ms : List Member) : Prop where
  sized : ∀ m ∈ ms, Sized m
  total : (ms.map Member.fileSize).sum ≤ maxUncompressedSizeBytes
  distinct : (ms.map Member.filename).Nodup
  count : ms.length ≤ maxArchiveFileCount
  manifest : manifestName ∈ ms.map Member.filename

theorem validateArchiveMembers_iff : validateArchiveMembers ms = .ok members ↔
    SoundMembers ms ∧ members.entries = named ms := by
  have hnames : (named ms).map Prod.fst = ms.map Member.filename := by
    rw [named, List.map_map]
    rfl
  have hkeys {d : Dict Text Member} (hd : d.entries = named ms) : d.keys = ms.map Member.filename := by
    rw [Dict.keys, hd, hnames]
  unfold validateArchiveMembers
  rw [bind_eq_ok]
  constructor
  · rintro ⟨d, hd, h⟩
    obtain ⟨hsized, htotal, hdistinct, hentries⟩ := (collectMembers_iff (Nat.zero_le _)).mp hd
    rw [Dict.empty, List.nil_append] at hdistinct hentries
    simp only [invalid, ite_error_eq_ok] at h
    obtain ⟨hcount, hmanifest, h⟩ := h
    cases h
    rw [hkeys hentries] at hcount hmanifest
    rw [List.length_map] at hcount
    refine ⟨⟨hsized, by simpa using htotal, ?_, not_lt.mp hcount, not_not.mp hmanifest⟩, hentries⟩
    rw [← hnames]
    exact hdistinct
  · rintro ⟨h, hentries⟩
    refine ⟨members, (collectMembers_iff (Nat.zero_le _)).mpr ⟨h.sized, by simpa using h.total, ?_, hentries⟩, ?_⟩
    · rw [Dict.empty, List.nil_append, Distinct, hnames]
      exact h.distinct
    · simp only [invalid, ite_error_eq_ok]
      rw [hkeys hentries, List.length_map]
      exact ⟨not_lt.mpr h.count, not_not.mpr h.manifest, trivial⟩

theorem get_named (hentries : members.entries = named ms) :
    members.get name = some m ↔ m ∈ ms ∧ m.filename = name := by
  rw [get_eq_some_iff, hentries, named, List.mem_map]
  constructor
  · intro ⟨x, hx, he⟩
    cases he
    exact ⟨hx, rfl⟩
  · intro ⟨hm, hname⟩
    exact ⟨m, hm, by rw [hname]⟩

structure Declared (P : Platform) (manifest : BackupManifest) (members : Dict Text Member) (file : BackupFile) : Prop where
  safe : SafePath file.path
  other : file.path ≠ manifestName
  size : 0 ≤ file.size
  digits : file.sha256.length = 64
  member : ∃ m content, members.get file.path = some m ∧ m.isDir = false ∧ (m.fileSize : Int) = file.size ∧
    m.content = some content ∧ P.sha256 content = file.sha256
  component : ∃ c ∈ manifest.components, InComponent file.path c

theorem checkFile_iff : checkFile P manifest members paths file = .ok () ↔
    Declared P manifest members file ∧ file.path ∉ paths := by
  unfold checkFile
  rw [bind_eq_ok]
  constructor
  · rintro ⟨_, hsafe, h⟩
    simp only [invalid, ite_error_eq_ok] at h
    obtain ⟨hname, hrecord, h⟩ := h
    obtain ⟨hother, hnew⟩ := not_or.mp hname
    obtain ⟨hsize, hdigits⟩ := not_or.mp hrecord
    split at h
    · cases h
    · next m hm =>
      obtain ⟨hmember, h⟩ := ite_error_eq_ok.mp h
      obtain ⟨hdir, hfileSize⟩ := not_or.mp hmember
      obtain ⟨content, hcontent, h⟩ := bind_eq_ok.mp h
      obtain ⟨hsha, h⟩ := ite_error_eq_ok.mp h
      obtain ⟨c, hc, h⟩ := bind_eq_ok.mp h
      obtain ⟨hin, -⟩ := ite_error_eq_ok.mp h
      have hread : m.content = some content := by
        unfold Member.read at hcontent
        split at hcontent
        · cases hcontent
        · next hb =>
          cases hcontent
          exact hb
      exact ⟨⟨validateArchivePath_iff.mp hsafe, hother, Int.not_lt.mp hsize, not_not.mp hdigits,
        ⟨m, content, hm, by simpa using hdir, not_not.mp hfileSize, hread, not_not.mp hsha⟩,
        ⟨c, not_not.mp hin, componentFromArchivePath_iff.mp hc⟩⟩, hnew⟩
  · rintro ⟨h, hnew⟩
    obtain ⟨m, content, hm, hdir, hfileSize, hread, hsha⟩ := h.member
    obtain ⟨c, hin, hc⟩ := h.component
    refine ⟨(), validateArchivePath_iff.mpr h.safe, ?_⟩
    simp only [invalid, ite_error_eq_ok]
    refine ⟨not_or.mpr ⟨h.other, hnew⟩, not_or.mpr ⟨Int.not_lt.mpr h.size, not_not.mpr h.digits⟩, ?_⟩
    rw [hm]
    dsimp only
    rw [if_neg (not_or.mpr ⟨by simp [hdir], not_not.mpr hfileSize⟩), bind_eq_ok]
    refine ⟨content, by rw [Member.read, hread], ?_⟩
    rw [if_neg (not_not.mpr hsha), bind_eq_ok]
    exact ⟨c, componentFromArchivePath_iff.mpr hc, if_neg (not_not.mpr hin)⟩

theorem checkFiles_iff {files : List BackupFile} : checkFiles P manifest members paths files = .ok () ↔
    (∀ f ∈ files, Declared P manifest members f ∧ f.path ∉ paths) ∧ (files.map BackupFile.path).Nodup := by
  induction files generalizing paths with
  | nil => simp [checkFiles]
  | cons f files ih =>
    rw [checkFiles, bind_eq_ok, List.map_cons, List.nodup_cons]
    constructor
    · intro ⟨_, hf, h⟩
      obtain ⟨hrest, hnodup⟩ := ih.mp h
      refine ⟨fun g hg => ?_, fun hm => ?_, hnodup⟩
      · obtain rfl | hg := List.mem_cons.mp hg
        · exact checkFile_iff.mp hf
        · exact ⟨(hrest g hg).1, fun hp => (hrest g hg).2 (List.mem_cons_of_mem _ hp)⟩
      · obtain ⟨g, hg, he⟩ := List.mem_map.mp hm
        exact (hrest g hg).2 (he ▸ List.mem_cons_self)
    · intro ⟨h, hnew, hnodup⟩
      refine ⟨(), checkFile_iff.mpr (h f List.mem_cons_self), ih.mpr ⟨fun g hg => ?_, hnodup⟩⟩
      obtain ⟨hdeclared, hpaths⟩ := h g (List.mem_cons_of_mem _ hg)
      refine ⟨hdeclared, fun hm => ?_⟩
      obtain he | hm := List.mem_cons.mp hm
      · exact hnew (he ▸ List.mem_map_of_mem hg)
      · exact hpaths hm

/-- What the manifest must be like beside the archive. -/
structure SoundManifest (P : Platform) (manifest : BackupManifest) (members : Dict Text Member) : Prop where
  declared : ∀ f ∈ manifest.files, Declared P manifest members f
  distinct : (manifest.files.map BackupFile.path).Nodup
  complete : ∀ p, p ∈ archiveFilePaths members ↔ p ∈ manifest.files.map BackupFile.path
  total : (manifest.files.map BackupFile.size).sum = manifest.uncompressedSize

theorem validateManifest_iff : validateManifest P manifest members = .ok () ↔ SoundManifest P manifest members := by
  unfold validateManifest
  rw [bind_eq_ok]
  constructor
  · rintro ⟨_, hfiles, h⟩
    obtain ⟨hdeclared, hnodup⟩ := checkFiles_iff.mp hfiles
    simp only [invalid, ite_error_eq_ok] at h
    obtain ⟨hlist, htotal, -⟩ := h
    simp only [Bool.not_eq_true', Bool.and_eq_false_iff, not_or, Bool.not_eq_false, List.all_eq_true,
      decide_eq_true_eq] at hlist
    exact ⟨fun f hf => (hdeclared f hf).1, hnodup, fun p => ⟨hlist.1 p, hlist.2 p⟩, not_not.mp htotal⟩
  · intro h
    refine ⟨(), checkFiles_iff.mpr ⟨fun f hf => ⟨h.declared f hf, List.not_mem_nil⟩, h.distinct⟩, ?_⟩
    simp only [invalid, ite_error_eq_ok]
    refine ⟨?_, not_not.mpr h.total, trivial⟩
    simp only [Bool.not_eq_true', Bool.and_eq_false_iff, not_or, Bool.not_eq_false, List.all_eq_true, decide_eq_true_eq]
    exact ⟨fun p hp => (h.complete p).mp hp, fun p hp => (h.complete p).mpr hp⟩

theorem inspectMembers_iff : inspectMembers P ms = .ok manifest ↔
    ∃ members, SoundMembers ms ∧ members.entries = named ms ∧ readManifest P members = .ok manifest ∧
      SoundManifest P manifest members := by
  unfold inspectMembers
  rw [bind_eq_ok]
  constructor
  · intro ⟨members, hmembers, h⟩
    obtain ⟨hsound, hentries⟩ := validateArchiveMembers_iff.mp hmembers
    obtain ⟨m, hread, h⟩ := bind_eq_ok.mp h
    obtain ⟨_, hvalid, h⟩ := bind_eq_ok.mp h
    cases h
    exact ⟨members, hsound, hentries, hread, validateManifest_iff.mp hvalid⟩
  · intro ⟨members, hsound, hentries, hread, hvalid⟩
    refine ⟨members, validateArchiveMembers_iff.mpr ⟨hsound, hentries⟩, bind_eq_ok.mpr ⟨manifest, hread, ?_⟩⟩
    exact bind_eq_ok.mpr ⟨(), validateManifest_iff.mpr hvalid, rfl⟩

theorem inspectBackup_iff {archive : Option Archive} : inspectBackup P archive = .ok manifest ↔
    ∃ a ms, archive = some a ∧ a.size ≤ maxArchiveSizeBytes ∧ a.members = some ms ∧ inspectMembers P ms = .ok manifest := by
  unfold inspectBackup
  cases archive with
  | none => exact ⟨nofun, fun ⟨_, _, h, _⟩ => (nomatch h)⟩
  | some a =>
    dsimp only
    rw [invalid, ite_error_eq_ok]
    constructor
    · intro ⟨hsize, h⟩
      split at h
      · cases h
      · next ms hms => exact ⟨a, ms, rfl, not_lt.mp hsize, hms, h⟩
    · intro ⟨b, ms, hb, hsize, hms, h⟩
      cases hb
      rw [hms]
      exact ⟨not_lt.mpr hsize, h⟩

theorem allowedOf_subset {items : List Json} {cs : List Text} (h : allowedOf items = some cs) :
    ∀ c ∈ cs, c ∈ allowedComponents := by
  induction items generalizing cs with
  | nil =>
    cases h
    exact fun _ hc => (nomatch hc)
  | cons v items ih =>
    cases v with
    | text t =>
      unfold allowedOf at h
      split at h
      · next ht =>
        obtain ⟨rest, hrest, rfl⟩ := Option.map_eq_some_iff.mp h
        intro c hc
        obtain rfl | hc := List.mem_cons.mp hc
        · exact ht
        · exact ih hrest c hc
      · cases h
    | atom _ => cases h
    | list _ => cases h
    | tuple _ => cases h
    | dict _ => cases h

theorem components_of_parse {payload : Json} (h : parseManifest P payload = .ok manifest) :
    ∀ c ∈ manifest.components, c ∈ allowedComponents := by
  unfold parseManifest at h
  iterate 11 obtain ⟨_, -, h⟩ := bind_eq_ok.mp h
  obtain ⟨components, hfields, h⟩ := bind_eq_ok.mp h
  cases h
  unfold checkFields at hfields
  obtain ⟨-, hfields⟩ := ite_error_eq_ok.mp hfields
  split at hfields
  · cases hfields
  · next cs hcs =>
    obtain ⟨-, hfields⟩ := ite_error_eq_ok.mp hfields
    cases hfields
    exact allowedOf_subset hcs

theorem components_allowed (h : readManifest P members = .ok manifest) :
    ∀ c ∈ manifest.components, c ∈ allowedComponents := by
  unfold readManifest at h
  split at h
  · cases h
  obtain ⟨content, -, h⟩ := bind_eq_ok.mp h
  obtain ⟨payload, -, h⟩ := bind_eq_ok.mp h
  exact components_of_parse h

end Kirara.BackupInspections
