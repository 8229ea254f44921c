import Kirara.BackupRollbacks

namespace Kirara.BackupAcceptance

open Kirara.Channels Kirara.Dicts Kirara.Dicts.Dict Kirara.Fallible Kirara.PosixPaths Kirara.Rosters Kirara.StableSorts
open Kirara.BackupInspections Kirara.BackupListings Kirara.BackupRollbacks Kirara.DataBackups Kirara.DataRestores
open Kirara.ResourceArchives (Bytes Json above)

variable {P : Platform} {dataPath : List Text} {d : DataDirectory} {files : List (List Text × Bytes)} {createdAt : Text}
  {cs : List Text} {members : Dict Text Member} {manifest : BackupManifest} {size : Nat}

structure BackupPath (q : List Text) : Prop where
  names : ∀ c ∈ q, IsName c
  component : ∃ c p, q = c :: p ∧ c ∈ allowedComponents ∧ (c ∈ fileComponents ↔ p = [])

/-- What is known of the files that are backed up. -/
structure Listed (d : DataDirectory) (dataPath : List Text) (files : List (List Text × Bytes)) : Prop where
  paths : ∀ f ∈ files, BackupPath f.1
  distinct : (files.map Prod.fst).Nodup
  apart : ∀ f ∈ files, ∀ g ∈ files, above f.1 g.1 = false
  mem : ∀ c p content, (c :: p, content) ∈ files ↔
    c ∈ allowedComponents ∧ ∃ node, d.entries c = some node ∧ Included dataPath c node p content

theorem names_allowed : ∀ c ∈ allowedComponents, IsName c := by decide

variable {c : Text}

theorem above_cons {p q : List Text} : above (c :: p) (c :: q) = above p q := by
  simp [above]

variable {content : Bytes} {node : Node}

theorem backupPath_of_included {p : List Text}
    (hi : Included dataPath c node p content) (hc : c ∈ allowedComponents) : BackupPath (c :: p) := by
  refine ⟨fun x hx => ?_, c, p, rfl, hc, hi.own, fun hp => ?_⟩
  · obtain rfl | hx := List.mem_cons.mp hx
    · exact names_allowed _ hc
    · cases node with
      | directory listing =>
        have hkey := isSome_get_iff.mp (by rw [directory_files.mp hi.file]; rfl)
        exact (listing.named p hkey).2 x hx
      | file b =>
        cases p with
        | nil => cases hx
        | cons _ _ => cases hi.file
      | link dangling => cases hi.file
      | other => cases hi.file
  · by_contra hown
    exact (hi.below hown).1 hp

theorem listed (h : iterBackupFiles dataPath d (existingComponents d) = .ok files) : Listed d dataPath files := by
  have hmem (c : Text) (p : List Text) (content : Bytes) : (c :: p, content) ∈ files ↔
      c ∈ allowedComponents ∧ ∃ node, d.entries c = some node ∧ Included dataPath c node p content := by
    rw [mem_iterBackupFiles h]
    constructor
    · intro ⟨e, he, node, r, hq, hnode, hi⟩
      cases hq
      exact ⟨List.mem_of_mem_filter he, node, hnode, hi⟩
    · intro ⟨hc, node, hnode, hi⟩
      exact ⟨c, List.mem_filter.mpr ⟨hc, by rw [hnode]; rfl⟩, node, p, rfl, hnode, hi⟩
  have hcases (f : List Text × Bytes) (hf : f ∈ files) : ∃ c p node, f.1 = c :: p ∧ c ∈ allowedComponents ∧
      d.entries c = some node ∧ Included dataPath c node p f.2 := by
    obtain ⟨c, hc, node, p, hq, hnode, hi⟩ := (mem_iterBackupFiles h).mp hf
    exact ⟨c, p, node, hq, List.mem_of_mem_filter hc, hnode, hi⟩
  refine ⟨fun f hf => ?_, nodup_iterBackupFiles (List.Nodup.filter _ (by decide)) h, fun f hf g hg => ?_, hmem⟩
  · obtain ⟨c, p, node, hq, hc, -, hi⟩ := hcases f hf
    exact hq ▸ backupPath_of_included hi hc
  · obtain ⟨c, p, node, hq, hc, hnode, hi⟩ := hcases f hf
    obtain ⟨e, r, node', hr, he, hnode', hj⟩ := hcases g hg
    rw [hq, hr]
    by_contra habove
    rw [Bool.not_eq_false] at habove
    have hce : c = e := by
      simp only [above, List.isPrefixOf_cons_cons, Bool.and_eq_true, beq_iff_eq] at habove
      exact habove.1.1
    subst hce
    cases hnode.symm.trans hnode'
    rw [above_cons] at habove
    cases node with
    | directory listing =>
      have hp := directory_files.mp hi.file
      have hg := directory_files.mp hj.file
      have hdir := listing.closed p (isSome_get_iff.mp (by rw [hp]; rfl)) r (isSome_get_iff.mp (by rw [hg]; rfl)) habove
      cases hp.symm.trans hdir
    | file b =>
      cases p with
      | nil =>
        cases r with
        | nil => cases habove
        | cons _ _ => cases hj.file
      | cons _ _ => cases hi.file
    | link dangling => cases hi.file
    | other => cases hi.file

variable {q r : List Text}

variable (h : BackupPath q)

include h

theorem BackupPath.ne_nil : q ≠ [] := by
  obtain ⟨c, p, rfl, -⟩ := h.component
  exact List.cons_ne_nil _ _

theorem BackupPath.components_joined : components (joined q) = q :=
  PosixPaths.components_joined h.ne_nil (fun c hc => (h.names c hc).1)

theorem BackupPath.normal : Normal (joined q) := normal_joined h.ne_nil (fun c hc => (h.names c hc).1)

theorem BackupPath.inComponent : ∃ c p, q = c :: p ∧ InComponent (joined q) c := by
  obtain ⟨c, p, hq, hc, hfile⟩ := h.component
  exact ⟨c, p, hq, p, h.components_joined.trans hq, hc, hfile.mp⟩

theorem BackupPath.ne_manifestName : joined q ≠ manifestName := by
  intro heq
  obtain ⟨c, p, hq, hc, -⟩ := h.component
  have hparts : c :: p = [manifestName] := by
    rw [← hq, ← h.components_joined, heq, components_manifestName]
  cases hparts
  exact absurd hc (by decide)

theorem BackupPath.safePath_iff : SafePath (joined q) ↔ '\\' ∉ joined q := by
  refine ⟨SafePath.noBackslash, fun hback => ⟨hback, h.normal.not_isAbsolute, ?_, .inr ?_⟩⟩
  · rw [h.components_joined]
    exact fun hm => (h.names _ hm).2 rfl
  · obtain ⟨c, p, -, hc⟩ := h.inComponent
    exact ⟨c, hc⟩

omit h

theorem BackupPath.joined_inj (hq : BackupPath q) (hr : BackupPath r) (h : joined q = joined r) : q = r := by
  rw [← hq.components_joined, h, hr.components_joined]

theorem BackupPath.not_isDir (h : BackupPath q) (content : Bytes) : (member P (joined q) content).isDir = false := by
  refine decide_eq_false (fun hlast => ?_)
  obtain ⟨u, hu⟩ := List.getLast?_eq_some_iff.mp hlast
  have hnormal := h.normal
  rw [show joined q = u ++ '/' :: [] from hu] at hnormal
  exact hnormal.of_append.2.ne_nil rfl

theorem nodup_joined (h : Listed d dataPath files) : (files.map (fun f => joined f.1)).Nodup := by
  have hjoined : files.map (fun f => joined f.1) = (files.map Prod.fst).map joined := by
    rw [List.map_map]
    rfl
  rw [hjoined]
  refine h.distinct.map_on (fun q hq r hr he => ?_)
  obtain ⟨f, hf, rfl⟩ := List.mem_map.mp hq
  obtain ⟨g, hg, rfl⟩ := List.mem_map.mp hr
  exact (h.paths f hf).joined_inj (h.paths g hg) he

theorem safePath_manifestName : SafePath manifestName :=
  ⟨by decide, by decide, by decide, .inl rfl⟩

def manifestText (P : Platform) (createdAt : Text) (cs : List Text) (files : List (List Text × Bytes)) : Bytes :=
  P.dumps (manifestJson P createdAt cs (files.map (buildFileRecord P)))

/-- The limits that the members of a backup must keep. -/
structure Limits (P : Platform) (files : List (List Text × Bytes)) (text : Bytes) : Prop where
  names : ∀ f ∈ files, '\\' ∉ joined f.1
  ratio : ∀ f ∈ files, f.2.length ≤ P.deflated f.2 * maxCompressionRatio
  manifestRatio : text.length ≤ P.deflated text * maxCompressionRatio
  total : text.length + (files.map (fun f => f.2.length)).sum ≤ maxUncompressedSizeBytes
  count : files.length + 1 ≤ maxArchiveFileCount

theorem sized_member_iff {name : Text} : Sized (member P name content) ↔
    SafePath name ∧ content.length ≤ P.deflated content * maxCompressionRatio := by
  have hpos : content.length ≠ 0 → P.deflated content ≠ 0 := fun hne =>
    (P.deflated_pos content (fun he => hne (by rw [he]; rfl))).ne'
  constructor
  · intro h
    refine ⟨h.safe, ?_⟩
    by_cases hlength : content.length = 0
    · omega
    · exact h.ratio (hpos hlength)
  · intro ⟨hsafe, hratio⟩
    exact ⟨hsafe, rfl, hpos, fun _ => hratio⟩

theorem soundMembers_written_iff (hlisted : Listed d dataPath files) :
    SoundMembers (writtenMembers P createdAt cs files) ↔ Limits P files (manifestText P createdAt cs files) := by
  have hnames : (writtenMembers P createdAt cs files).map Member.filename =
      manifestName :: files.map (fun f => joined f.1) := by
    rw [writtenMembers, List.map_cons, List.map_map]
    rfl
  have hsizes : ((writtenMembers P createdAt cs files).map Member.fileSize).sum =
      (manifestText P createdAt cs files).length + (files.map (fun f => f.2.length)).sum := by
    rw [writtenMembers, List.map_cons, List.map_map, List.sum_cons]
    rfl
  constructor
  · intro h
    have hfile (f : List Text × Bytes) (hf : f ∈ files) : Sized (member P (joined f.1) f.2) :=
      h.sized _ (List.mem_cons_of_mem _ (List.mem_map_of_mem hf))
    refine ⟨fun f hf => (hfile f hf).safe.noBackslash, fun f hf => (sized_member_iff.mp (hfile f hf)).2,
      (sized_member_iff.mp (h.sized _ List.mem_cons_self)).2, hsizes ▸ h.total, ?_⟩
    have hcount := h.count
    rwa [writtenMembers, List.length_cons, List.length_map] at hcount
  · intro h
    refine ⟨fun m hm => ?_, hsizes ▸ h.total, ?_, ?_, ?_⟩
    · obtain rfl | hm := List.mem_cons.mp hm
      · exact sized_member_iff.mpr ⟨safePath_manifestName, h.manifestRatio⟩
      · obtain ⟨f, hf, rfl⟩ := List.mem_map.mp hm
        exact sized_member_iff.mpr ⟨(hlisted.paths f hf).safePath_iff.mpr (h.names f hf), h.ratio f hf⟩
    · rw [hnames, List.nodup_cons]
      constructor
      · intro hm
        obtain ⟨f, hf, he⟩ := List.mem_map.mp hm
        exact (hlisted.paths f hf).ne_manifestName he
      · exact nodup_joined hlisted
    · rw [writtenMembers, List.length_cons, List.length_map]
      exact h.count
    · rw [hnames]
      exact List.mem_cons_self

def writtenManifest (P : Platform) (createdAt : Text) (cs : List Text) (files : List (List Text × Bytes)) : BackupManifest :=
  ⟨backupFormatVersion, createdAt, P.applicationVersion, cs, files.map (buildFileRecord P),
    ((files.map (buildFileRecord P)).map BackupFile.size).sum⟩

theorem sum_sizes (P : Platform) (files : List (List Text × Bytes)) :
    ((files.map (buildFileRecord P)).map BackupFile.size).sum = ((files.map (fun f => f.2.length)).sum : Nat) := by
  induction files with
  | nil => rfl
  | cons f files ih =>
    rw [List.map_cons, List.map_cons, List.sum_cons, List.map_cons, List.sum_cons, ih]
    push_cast
    rfl

theorem readFile_toJson (f : BackupFile) : readFile P f.toJson = .ok f := by
  unfold readFile
  rw [show subscript f.toJson "path" = .ok (.text f.path) from rfl,
    show subscript f.toJson "sha256" = .ok (.text f.sha256) from rfl,
    show subscript f.toJson "size" = .ok (.atom (.int f.size)) from rfl]
  change (do
    let n ← (P.int (.atom (.int f.size))).required notAManifest
    return ⟨P.str (.text f.path), P.str (.text f.sha256), n⟩ : Except BackupError BackupFile) = _
  rw [P.int_int, P.str_text, P.str_text]
  rfl

theorem allowedOf_texts (h : ∀ c ∈ cs, c ∈ allowedComponents) : allowedOf (cs.map .text) = some cs := by
  induction cs with
  | nil => rfl
  | cons c cs ih =>
    rw [List.map_cons, allowedOf, if_pos (h c List.mem_cons_self), ih (fun e he => h e (List.mem_cons_of_mem _ he))]
    rfl

theorem parse_manifestJson (hcs : ∀ c ∈ cs, c ∈ allowedComponents)
    (htotal : (files.map (fun f => f.2.length)).sum ≤ maxUncompressedSizeBytes) :
    parseManifest P (manifestJson P createdAt cs (files.map (buildFileRecord P))) =
      .ok (writtenManifest P createdAt cs files) := by
  have hfiles : ((files.map (buildFileRecord P)).map BackupFile.toJson).mapM (readFile P) =
      .ok (files.map (buildFileRecord P)) := by
    have hread : ∀ f ∈ files.map (buildFileRecord P), (readFile P ∘ BackupFile.toJson) f = .ok (id f) :=
      fun f _ => readFile_toJson f
    rw [List.mapM_map, mapM_eq_ok hread, List.map_id]
  have hint (n : Int) : (P.int (.atom (.int n))).required notAManifest = .ok n := by
    rw [P.int_int]
    rfl
  have hnames : readComponents (.list (cs.map .text)) = .ok (cs.map .text) := by
    have hhashable : (cs.map ConfigValues.Value.text : List Json).all hashable = true := by
      rw [List.all_map]
      exact List.all_eq_true.mpr (fun _ _ => rfl)
    unfold readComponents
    exact bind_eq_ok.mpr ⟨_, rfl, if_pos hhashable⟩
  have hfields : checkFields backupFormatVersion ((files.map (buildFileRecord P)).map BackupFile.size).sum (cs.map .text) =
      .ok cs := by
    rw [checkFields, if_neg (not_not.mpr rfl), allowedOf_texts hcs, sum_sizes]
    exact if_neg (by omega)
  unfold parseManifest
  refine bind_eq_ok.mpr ⟨_, rfl, bind_eq_ok.mpr ⟨_, rfl, bind_eq_ok.mpr ⟨_, hfiles, ?_⟩⟩⟩
  refine bind_eq_ok.mpr ⟨_, rfl, bind_eq_ok.mpr ⟨_, hint _, bind_eq_ok.mpr ⟨_, rfl, bind_eq_ok.mpr ⟨_, rfl, ?_⟩⟩⟩⟩
  refine bind_eq_ok.mpr ⟨_, rfl, bind_eq_ok.mpr ⟨_, hnames, bind_eq_ok.mpr ⟨_, rfl, bind_eq_ok.mpr ⟨_, hint _, ?_⟩⟩⟩⟩
  refine bind_eq_ok.mpr ⟨_, hfields, ?_⟩
  rw [P.str_text, P.str_text]
  rfl

def dictOf (ms : List Member) (h : SoundMembers ms) : Dict Text Member :=
  ⟨named ms, by
    rw [Distinct, named, List.map_map]
    exact h.distinct⟩

theorem readManifest_written (hentries : members.entries = named (writtenMembers P createdAt cs files))
    (hcs : ∀ c ∈ cs, c ∈ allowedComponents) (hjson : P.loads (manifestText P createdAt cs files) =
      .value (manifestJson P createdAt cs (files.map (buildFileRecord P))))
    (htotal : (files.map (fun f => f.2.length)).sum ≤ maxUncompressedSizeBytes) :
    readManifest P members = .ok (writtenManifest P createdAt cs files) := by
  have hget : members.get manifestName = some (member P manifestName (manifestText P createdAt cs files)) :=
    (get_named hentries).mpr ⟨List.mem_cons_self, rfl⟩
  unfold readManifest
  rw [hget]
  refine bind_eq_ok.mpr ⟨manifestText P createdAt cs files, rfl, bind_eq_ok.mpr ⟨_, ?_, parse_manifestJson hcs htotal⟩⟩
  rw [hjson]
  rfl

theorem soundManifest_written (hlisted : Listed d dataPath files) (hlimits : Limits P files (manifestText P createdAt cs files))
    (hentries : members.entries = named (writtenMembers P createdAt cs files))
    (hcomponents : ∀ f ∈ files, ∃ c p, f.1 = c :: p ∧ c ∈ cs) :
    SoundManifest P (writtenManifest P createdAt cs files) members := by
  have hpaths : (writtenManifest P createdAt cs files).files.map BackupFile.path = files.map (fun f => joined f.1) := by
    rw [writtenManifest, List.map_map]
    rfl
  have hmember (f : List Text × Bytes) (hf : f ∈ files) : member P (joined f.1) f.2 ∈ writtenMembers P createdAt cs files :=
    List.mem_cons_of_mem _ (List.mem_map_of_mem hf)
  refine ⟨fun r hr => ?_, ?_, fun p => ?_, rfl⟩
  · obtain ⟨f, hf, rfl⟩ := List.mem_map.mp hr
    have hpath := hlisted.paths f hf
    refine ⟨hpath.safePath_iff.mpr (hlimits.names f hf), hpath.ne_manifestName, Int.natCast_nonneg _,
      P.sha256_length _, ⟨member P (joined f.1) f.2, f.2, ?_, hpath.not_isDir _, rfl, rfl, rfl⟩, ?_⟩
    · exact (get_named hentries).mpr ⟨hmember f hf, rfl⟩
    · obtain ⟨c, p, hq, hc⟩ := hcomponents f hf
      obtain ⟨e, r, hr, hin⟩ := hpath.inComponent
      cases hq.symm.trans hr
      exact ⟨c, hc, hin⟩
  · rw [hpaths]
    exact nodup_joined hlisted
  · rw [hpaths, mem_archiveFilePaths hentries, List.mem_map]
    constructor
    · intro ⟨m, hm, hname, hother, _⟩
      obtain rfl | hm := List.mem_cons.mp hm
      · exact absurd hname.symm hother
      · obtain ⟨f, hf, rfl⟩ := List.mem_map.mp hm
        exact ⟨f, hf, hname⟩
    · intro ⟨f, hf, he⟩
      refine ⟨_, hmember f hf, he, ?_, (hlisted.paths f hf).not_isDir _⟩
      rw [← he]
      exact (hlisted.paths f hf).ne_manifestName

theorem inspect_written_iff (hlisted : Listed d dataPath files) (hcs : ∀ c ∈ cs, c ∈ allowedComponents)
    (hcomponents : ∀ f ∈ files, ∃ c p, f.1 = c :: p ∧ c ∈ cs)
    (hjson : P.loads (manifestText P createdAt cs files) =
      .value (manifestJson P createdAt cs (files.map (buildFileRecord P)))) :
    inspectBackup P (some ⟨size, some (writtenMembers P createdAt cs files)⟩) = .ok manifest ↔
      size ≤ maxArchiveSizeBytes ∧ Limits P files (manifestText P createdAt cs files) ∧
      writtenManifest P createdAt cs files = manifest := by
  rw [inspectBackup_iff]
  constructor
  · intro ⟨a, ms, ha, hsize, hms, h⟩
    cases ha
    cases hms
    obtain ⟨members, hsound, hentries, hread, -⟩ := inspectMembers_iff.mp h
    have hlimits := (soundMembers_written_iff hlisted).mp hsound
    have htotal := hlimits.total
    exact ⟨hsize, hlimits, Except.ok.inj ((readManifest_written hentries hcs hjson (by omega)).symm.trans hread)⟩
  · intro ⟨hsize, hlimits, hmanifest⟩
    have hsound := (soundMembers_written_iff hlisted).mpr hlimits
    have htotal := hlimits.total
    refine ⟨_, _, rfl, hsize, rfl, inspectMembers_iff.mpr ⟨dictOf _ hsound, hsound, rfl, ?_, ?_⟩⟩
    · rw [← hmanifest]
      exact readManifest_written rfl hcs hjson (by omega)
    · rw [← hmanifest]
      exact soundManifest_written hlisted hlimits rfl hcomponents

section Extraction

variable {ms : List Member} {staged : Listing} {fs : List (List Text × Bytes)}

def leaves (files : List (List Text × Bytes)) : List (List Text × Leaf) := files.map (fun f => (f.1, .file f.2))

theorem extract_written (hlisted : Listed d dataPath files)
    (hopen : ∀ f ∈ files, openMember ms (joined f.1) = .ok f.2) {done : List (List Text × Bytes)}
    (hsplit : done ++ fs = files) (hstaged : staged.entries.entries = leaves done) :
    ∃ result, extractFiles ms (fs.map (buildFileRecord P)) staged = .ok result ∧ result.entries.entries = leaves files := by
  induction fs generalizing done staged with
  | nil =>
    rw [List.append_nil] at hsplit
    exact ⟨staged, rfl, by rw [hstaged, hsplit]⟩
  | cons f fs ih =>
    have hf : f ∈ files := hsplit ▸ List.mem_append_right _ List.mem_cons_self
    have hpath := hlisted.paths f hf
    have hmem {p : List Text} (hp : p ∈ staged.entries.keys) : ∃ g ∈ done, g.1 = p := by
      rw [Dict.keys, hstaged, leaves, List.map_map] at hp
      exact List.mem_map.mp hp
    have hdone {g : List Text × Bytes} (hg : g ∈ done) : g ∈ files := hsplit ▸ List.mem_append_left _ hg
    have hdistinct := hlisted.distinct
    rw [← hsplit, List.map_append, List.map_cons] at hdistinct
    have hnew {g : List Text × Bytes} (hg : g ∈ done) : g.1 ≠ f.1 := fun he =>
      (List.nodup_append.mp hdistinct).2.2 _ (List.mem_map_of_mem hg) _ List.mem_cons_self he
    have hfits : Fits staged f.1 := by
      refine ⟨⟨hpath.ne_nil, hpath.names⟩, fun p hp => ?_⟩
      obtain ⟨g, hg, rfl⟩ := hmem hp
      exact ⟨hnew hg, hlisted.apart g (hdone hg) f hf, hlisted.apart f hf g (hdone hg)⟩
    have hdir : f.1 ∉ directoryComponents.map (fun c => [c]) := by
      intro hm
      obtain ⟨c, hc, hq⟩ := List.mem_map.mp hm
      obtain ⟨e, p, hr, -, hown⟩ := hpath.component
      cases hq.trans hr
      exact not_both c hc (hown.mpr rfl)
    have hnext : (createFile staged f.1 f.2 hfits).entries.entries = leaves (done ++ [f]) := by
      have hfresh : f.1 ∉ staged.entries.keys := fun hm => by
        obtain ⟨g, hg, he⟩ := hmem hm
        exact hnew hg he
      change (staged.entries.set f.1 (.file f.2)).entries = _
      rw [Dict.set_entries_of_not_mem hfresh, hstaged, leaves, leaves, List.map_append]
      rfl
    have hfits' : Fits staged (components (joined f.1)) := by rwa [hpath.components_joined]
    obtain ⟨result, hresult, hentries⟩ := ih (by rw [List.append_assoc]; exact hsplit) hnext
    refine ⟨result, ?_, hentries⟩
    rw [List.map_cons, extractFiles, show (buildFileRecord P f).path = joined f.1 from rfl, hopen f hf]
    dsimp only
    have hcreate {q : List Text} (hq : q = f.1) (h : Fits staged q) :
        createFile staged q f.2 h = createFile staged f.1 f.2 hfits := by
      subst hq
      rfl
    rw [dif_pos hfits', hcreate hpath.components_joined, if_neg (by rw [hpath.components_joined]; exact hdir)]
    exact hresult

end Extraction

section Conditions

variable (P : Platform) (dataPath : List Text) (d : DataDirectory) (createdAt : Text)

def backedUp : List (List Text × Bytes) :=
  match iterBackupFiles dataPath d (existingComponents d) with
  | .ok files => files
  | .error _ => []

def stateName : Text := "auto_detect_state.json".toList

/-- A path that is left out on purpose has a name or a suffix that says so. -/
def Kept (path : List Text) : Prop := isExcludedPath [] path = false

instance (path : List Text) : Decidable (Kept path) := inferInstanceAs (Decidable (_ = _))

/-- The files of a data directory that a restoration takes. -/
structure Restorable : Prop where
  config : ∀ node, d.entries configName = some node → ∃ content, node = .file content ∧ P.config content = true
  state : ∀ node, d.entries stateName = some node → ∃ content, node = .file content
  rules : ∀ f ∈ backedUp dataPath d, f.1 = dispatchRules → ∃ items, P.yaml f.2 = some (.list items)
  workflows : ∀ f ∈ backedUp dataPath d, soundWorkflow P (f.1, .file f.2) = true
  directories : ∀ c ∈ directoryComponents, ∀ content, d.entries c ≠ some (.file content)
  location : ∀ c ∈ directoryComponents, ∀ node p content, d.entries c = some node → node.files p = some content →
    Kept (c :: p) → ∀ x ∈ dataPath, x ∉ excludedDirectoryNames

/-- A data directory whose backup can be used. -/
structure Backupable : Prop where
  size : P.zipSize (writtenMembers P createdAt (existingComponents d) (backedUp dataPath d)) ≤ maxArchiveSizeBytes
  limits : Limits P (backedUp dataPath d) (manifestText P createdAt (existingComponents d) (backedUp dataPath d))
  restorable : Restorable P dataPath d

structure Untroubled (env : Restoration) (target : DataDirectory) : Prop where
  rollback : ∃ r t, createBackup P dataPath env.creation "rollback".toList target = (.ok r, t)
  extracts : env.extracts = true
  fails : ∀ c, env.fails c = none

/-- The components have the files they had, besides those left out on purpose. -/
def SameFiles (next : DataDirectory) : Prop :=
  ∀ c ∈ allowedComponents, ∀ node, d.entries c = some node → ∀ p,
    (next.entries c).bind (fun n => n.files p) = if Kept (c :: p) then node.files p else none

/-- An archive that is accepted and gives the files back in any data directory. -/
def Usable (archive : Archive) : Prop :=
  (∃ manifest, inspectBackup P (some archive) = .ok manifest) ∧
  ∀ dataPath env target, Untroubled P dataPath env target → ∃ result next,
    restoreBackup P dataPath env (some archive) target = (.ok result, next) ∧ SameFiles d next

end Conditions

variable {env : Restoration} {staged : Listing} {target next : DataDirectory} {result : RestoreResult} {archive : Archive}
  {w : World} {done : List Text}

theorem validateStagedData_iff : validateStagedData P manifest staged = .ok () ↔
    (configName ∈ manifest.components → ∃ content, staged.entries.get [configName] = some (.file content) ∧
      P.config content = true) ∧
    (∀ content, staged.entries.get dispatchRules = some (.file content) → ∃ items, P.yaml content = some (.list items)) ∧
    ∀ e ∈ staged.entries.entries, soundWorkflow P e = true := by
  have hconfig : validateConfig P manifest staged = .ok () ↔ (configName ∈ manifest.components →
      ∃ content, staged.entries.get [configName] = some (.file content) ∧ P.config content = true) := by
    unfold validateConfig
    split
    · next hc =>
      split
      · next content hcontent =>
        split
        · next hp => exact ⟨fun _ _ => ⟨content, hcontent, hp⟩, fun _ => rfl⟩
        · next hp =>
          refine ⟨nofun, fun h => ?_⟩
          obtain ⟨b, hb, hpb⟩ := h hc
          cases hcontent.symm.trans hb
          exact absurd hpb hp
      · next hnone =>
        refine ⟨nofun, fun h => ?_⟩
        obtain ⟨b, hb, -⟩ := h hc
        exact absurd hb (hnone b)
    · next hc => exact ⟨fun _ h => absurd h hc, fun _ => rfl⟩
  have hrules : validateRules P staged = .ok () ↔
      ∀ content, staged.entries.get dispatchRules = some (.file content) → ∃ items, P.yaml content = some (.list items) := by
    unfold validateRules
    split
    · next content hcontent =>
      split
      · next items hitems =>
        refine ⟨fun _ b hb => ?_, fun _ => rfl⟩
        cases hcontent.symm.trans hb
        exact ⟨items, hitems⟩
      · next hnone =>
        refine ⟨nofun, fun h => ?_⟩
        obtain ⟨items, hitems⟩ := h content hcontent
        exact absurd hitems (hnone items)
    · next hnone => exact ⟨fun _ b hb => absurd hb (hnone b), fun _ => rfl⟩
  unfold validateStagedData
  rw [← hconfig, ← hrules]
  constructor
  · intro h
    obtain ⟨_, hc, h⟩ := bind_eq_ok.mp h
    obtain ⟨_, hr, h⟩ := bind_eq_ok.mp h
    split at h
    · next hall => exact ⟨hc, hr, List.all_eq_true.mp hall⟩
    · cases h
  · intro ⟨hc, hr, hall⟩
    exact bind_eq_ok.mpr ⟨(), hc, bind_eq_ok.mpr ⟨(), hr, if_pos (List.all_eq_true.mpr hall)⟩⟩

theorem replaceComponents_succeeds (hfails : ∀ c, env.fails c = none) (hnodup : cs.Nodup)
    (hstaged : ∀ c ∈ cs, (w.staged c).isSome) : ∃ next, replaceComponents env done cs w = (true, next) := by
  induction cs generalizing done w with
  | nil => exact ⟨w, rfl⟩
  | cons c cs ih =>
    obtain ⟨hnew, hnodup⟩ := List.nodup_cons.mp hnodup
    obtain ⟨node, hnode⟩ := Option.isSome_iff_exists.mp (hstaged c List.mem_cons_self)
    have hreplace : ∃ middle, replaceComponent (env.fails c) (env.undoes c) c w = (true, middle) ∧
        ∀ e, e ≠ c → middle.staged e = w.staged e := by
      unfold replaceComponent
      rw [hfails c, if_neg (by simp), hnode]
      dsimp only
      rw [if_neg (by simp)]
      exact ⟨_, rfl, fun e he => Function.update_of_ne he _ _⟩
    obtain ⟨middle, hmiddle, hothers⟩ := hreplace
    rw [replaceComponents, hmiddle]
    refine ih hnodup (fun e he => ?_)
    rw [hothers e (fun h => hnew (h ▸ he))]
    exact hstaged e (List.mem_cons_of_mem _ he)

theorem restore_succeeds (h : Untroubled P dataPath env target)
    (hprepare : prepareRestore P env (some archive) = .ok (manifest, staged))
    (hstaged : ∀ c ∈ manifest.components, (stagedNode manifest staged c).isSome) :
    ∃ result next, restoreBackup P dataPath env (some archive) target = (.ok result, next) := by
  obtain ⟨⟨name, rollback⟩, t, hcreate⟩ := h.rollback
  have hrun : ∃ w, replaceComponents env [] (sortedComponents manifest.components)
      ⟨t.entries, stagedNode manifest staged, fun _ => none⟩ = (true, w) :=
    replaceComponents_succeeds h.fails (nodup_sortedComponents _)
      (fun c hc => hstaged c (of_decide_eq_true (List.mem_filter.mp hc).2))
  obtain ⟨w, hw⟩ := hrun
  unfold restoreBackup
  rw [hprepare, hcreate]
  dsimp only
  rw [hw]
  exact ⟨_, _, rfl⟩

theorem untroubled_nothing (P : Platform) (dataPath : List Text) :
    Untroubled P dataPath ⟨⟨[], [], true, true⟩, true, fun _ => none, fun _ => true⟩ ⟨fun _ => none, .empty⟩ :=
  ⟨⟨_, _, rfl⟩, rfl, fun _ => rfl⟩

theorem isExcludedPath_eq {q : List Text} :
    isExcludedPath dataPath q = (isExcludedPath [] q || dataPath.any (· ∈ excludedDirectoryNames)) := by
  rw [isExcludedPath, isExcludedPath, List.any_append, List.nil_append]
  cases dataPath.any (· ∈ excludedDirectoryNames) <;> simp

theorem directory_allowed : ∀ c ∈ directoryComponents, c ∈ allowedComponents := by decide

theorem file_allowed : ∀ c ∈ fileComponents, c ∈ allowedComponents := by decide

theorem kept_component : ∀ c ∈ allowedComponents, Kept [c] := by decide +kernel

variable {createdAt : Text}

structure Staged (dataPath : List Text) (d : DataDirectory) (manifest : BackupManifest) (staged : Listing) : Prop where
  components : manifest.components = existingComponents d
  entries : staged.entries.entries = leaves (backedUp dataPath d)

theorem mem_existing : c ∈ existingComponents d ↔ c ∈ allowedComponents ∧ ∃ node, d.entries c = some node := by
  rw [existingComponents, List.mem_filter, Option.isSome_iff_exists]

theorem get_staged (h : Staged dataPath d manifest staged) {q : List Text} :
    staged.entries.get q = some (.file content) ↔ (q, content) ∈ backedUp dataPath d := by
  rw [get_eq_some_iff, h.entries, leaves, List.mem_map]
  constructor
  · intro ⟨f, hf, he⟩
    cases he
    exact hf
  · intro hf
    exact ⟨_, hf, rfl⟩

theorem stagedNode_directory (h : Staged dataPath d manifest staged) (hc : c ∈ directoryComponents)
    (hin : c ∈ existingComponents d) : stagedNode manifest staged c = some (.directory (below staged c)) := by
  rw [stagedNode, if_pos hc, h.components, if_pos hin]

theorem eq_file_of_files (h : node.files [] = some content) : node = .file content := by
  cases node with
  | file b => rw [Option.some.inj h]
  | directory listing =>
    have hkey := isSome_get_iff.mp (by rw [directory_files.mp h]; rfl)
    exact absurd rfl (listing.named [] hkey).1
  | link dangling => cases h
  | other => cases h

variable (hlisted : Listed d dataPath (backedUp dataPath d))

include hlisted

theorem get_staged_file (h : Staged dataPath d manifest staged) (hc : c ∈ fileComponents) :
    staged.entries.get [c] = some (.file content) ↔ d.entries c = some (.file content) := by
  rw [get_staged h, hlisted.mem]
  constructor
  · intro ⟨_, n, hn, hi⟩
    rw [hn, eq_file_of_files hi.file]
  · intro hn
    exact ⟨file_allowed c hc, _, hn, rfl, fun _ => rfl, fun hno => absurd hc hno⟩

theorem stagedNode_file (h : Staged dataPath d manifest staged) (hc : c ∈ fileComponents) :
    stagedNode manifest staged c = some node ↔
      ∃ content, d.entries c = some (.file content) ∧ node = .file content := by
  have hget {content : Bytes} : staged.entries.get [c] = some (.file content) ↔ d.entries c = some (.file content) :=
    get_staged_file hlisted h hc
  rw [stagedNode, if_neg (fun hd => not_both c hd hc)]
  split
  · next content hcontent =>
    constructor
    · intro he
      cases he
      exact ⟨content, hget.mp hcontent, rfl⟩
    · intro ⟨b, hb, he⟩
      cases (hget.mpr hb).symm.trans hcontent
      rw [he]
  · next hnone => exact ⟨nofun, fun ⟨b, hb, _⟩ => absurd (hget.mpr hb) (hnone b)⟩

theorem validate_iff (h : Staged dataPath d manifest staged) : validateStagedData P manifest staged = .ok () ↔
      (∀ node, d.entries configName = some node → ∃ content, node = .file content ∧ P.config content = true) ∧
      (∀ f ∈ backedUp dataPath d, f.1 = dispatchRules → ∃ items, P.yaml f.2 = some (.list items)) ∧
      ∀ f ∈ backedUp dataPath d, soundWorkflow P (f.1, .file f.2) = true := by
  have hname : configName ∈ allowedComponents := by decide
  have hfile : configName ∈ fileComponents := by decide
  have hstaged {content : Bytes} : staged.entries.get [configName] = some (.file content) ↔
      d.entries configName = some (.file content) := get_staged_file hlisted h hfile
  rw [validateStagedData_iff]
  refine and_congr ?_ (and_congr ?_ ?_)
  · rw [h.components, mem_existing]
    constructor
    · intro hc node hnode
      obtain ⟨content, hcontent, hp⟩ := hc ⟨hname, node, hnode⟩
      cases hnode.symm.trans (hstaged.mp hcontent)
      exact ⟨content, rfl, hp⟩
    · intro hc ⟨_, node, hnode⟩
      obtain ⟨content, rfl, hp⟩ := hc node hnode
      exact ⟨content, hstaged.mpr hnode, hp⟩
  · constructor
    · intro hr ⟨q, content⟩ hf hq
      dsimp only at hq
      subst hq
      exact hr content ((get_staged h).mpr hf)
    · intro hr content hcontent
      exact hr _ ((get_staged h).mp hcontent) rfl
  · rw [h.entries, leaves]
    constructor
    · intro hw f hf
      exact hw _ (List.mem_map_of_mem hf)
    · intro hw e he
      obtain ⟨f, hf, rfl⟩ := List.mem_map.mp he
      exact hw f hf

omit hlisted

theorem below_files {q : List Text} (h : Staged dataPath d manifest staged) :
    (Node.directory (below staged c)).files q = some content ↔ (c :: q, content) ∈ backedUp dataPath d ∧ q ≠ [] := by
  rw [directory_files, get_eq_some_iff]
  refine mem_belowEntries.trans (and_congr_left (fun _ => ?_))
  rw [← get_eq_some_iff, get_staged h]

theorem sameFiles_iff (hlisted : Listed d dataPath (backedUp dataPath d)) (h : Staged dataPath d manifest staged)
    (hfiles : ∀ c ∈ fileComponents, ∀ node, d.entries c = some node → ∃ content, node = .file content)
    (hnext : ∀ c ∈ existingComponents d, next.entries c = stagedNode manifest staged c) :
    SameFiles d next ↔ (∀ c ∈ directoryComponents, ∀ content, d.entries c ≠ some (.file content)) ∧
      ∀ c ∈ directoryComponents, ∀ node p content, d.entries c = some node → node.files p = some content →
        Kept (c :: p) → ∀ x ∈ dataPath, x ∉ excludedDirectoryNames := by
  have hdirectory {c : Text} (hc : c ∈ directoryComponents) {node : Node} (hnode : d.entries c = some node) (q : List Text) :
      (next.entries c).bind (fun n => n.files q) = (Node.directory (below staged c)).files q := by
    have hin : c ∈ existingComponents d := mem_existing.mpr ⟨directory_allowed c hc, node, hnode⟩
    rw [hnext c hin, stagedNode_directory h hc hin]
    rfl
  have hincluded {c : Text} (hc : c ∈ directoryComponents) {node : Node} (hnode : d.entries c = some node) (q : List Text)
      (content : Bytes) : (Node.directory (below staged c)).files q = some content ↔
        node.files q = some content ∧ q ≠ [] ∧ Kept (c :: q) ∧ dataPath.any (· ∈ excludedDirectoryNames) = false := by
    rw [below_files h, hlisted.mem]
    constructor
    · intro ⟨⟨_, n, hn, hi⟩, hq⟩
      cases hnode.symm.trans hn
      have hin := (hi.below (not_both c hc)).2
      rw [isExcludedPath_eq, Bool.or_eq_false_iff] at hin
      exact ⟨hi.file, hq, hin⟩
    · intro ⟨hfile, hq, hkept, hpath⟩
      refine ⟨⟨directory_allowed c hc, node, hnode, hfile, fun ho => absurd ho (not_both c hc), fun _ => ⟨hq, ?_⟩⟩, hq⟩
      rw [isExcludedPath_eq, Bool.or_eq_false_iff]
      exact ⟨hkept, hpath⟩
  constructor
  · intro hsame
    refine ⟨fun c hc content hnode => ?_, fun c hc node q content hnode hfile hkept x hx => ?_⟩
    · have hback := hsame c (directory_allowed c hc) _ hnode []
      rw [hdirectory hc hnode, if_pos (kept_component c (directory_allowed c hc))] at hback
      exact ((hincluded hc hnode [] content).mp hback).2.1 rfl
    · have hback := hsame c (directory_allowed c hc) _ hnode q
      rw [hdirectory hc hnode, if_pos hkept, hfile] at hback
      have hany := ((hincluded hc hnode q content).mp hback).2.2.2
      simpa using List.any_eq_false.mp hany x hx
  · intro ⟨hdirs, hlocation⟩ c hc node hnode q
    obtain hdir | hown := mem_components c hc
    · rw [hdirectory hdir hnode]
      refine Option.ext (fun content => ?_)
      rw [hincluded hdir hnode]
      by_cases hkept : Kept (c :: q)
      · rw [if_pos hkept]
        refine ⟨And.left, fun hfile => ⟨hfile, ?_, hkept, ?_⟩⟩
        · rintro rfl
          exact hdirs c hdir content (by rw [hnode, eq_file_of_files hfile])
        · exact List.any_eq_false.mpr (fun x hx => by simpa using hlocation c hdir node q content hnode hfile hkept x hx)
      · rw [if_neg hkept]
        exact ⟨fun hx => absurd hx.2.2.1 hkept, nofun⟩
    · obtain ⟨content, rfl⟩ := hfiles c hown node hnode
      have hstaged : stagedNode manifest staged c = some (.file content) :=
        (stagedNode_file hlisted h hown).mpr ⟨content, hnode, rfl⟩
      rw [hnext c (mem_existing.mpr ⟨hc, _, hnode⟩), hstaged]
      cases q with
      | nil => exact (if_pos (kept_component c hc)).symm
      | cons e q => exact (ite_self none).symm

theorem prepareRestore_eq_ok {ms : List Member} (hinspect : inspectBackup P (some ⟨size, some ms⟩) = .ok manifest)
    (hextracts : env.extracts = true) (hextract : extractFiles ms manifest.files emptyListing = .ok staged)
    {ready : BackupManifest × Listing} : prepareRestore P env (some ⟨size, some ms⟩) = .ok ready ↔
      validateStagedData P manifest staged = .ok () ∧ ready = (manifest, staged) := by
  have hstaged : extractBackup env (some ⟨size, some ms⟩) manifest = .ok staged := by
    rw [extractBackup, if_pos hextracts]
    exact hextract
  constructor
  · intro h
    obtain ⟨m, hm, h⟩ := bind_eq_ok.mp h
    cases hinspect.symm.trans hm
    obtain ⟨s, hs, h⟩ := bind_eq_ok.mp h
    cases hstaged.symm.trans hs
    obtain ⟨_, hvalid, h⟩ := bind_eq_ok.mp h
    cases h
    exact ⟨hvalid, rfl⟩
  · intro ⟨hvalid, hready⟩
    exact bind_eq_ok.mpr ⟨_, hinspect, bind_eq_ok.mpr ⟨_, hstaged, bind_eq_ok.mpr ⟨(), hvalid, by rw [hready]; rfl⟩⟩⟩

theorem prepared_of_restored (h : restoreBackup P dataPath env (some archive) target = (.ok result, next)) :
    ∃ ready, prepareRestore P env (some archive) = .ok ready := by
  unfold restoreBackup at h
  split at h
  · cases h
  · next manifest staged hready => exact ⟨_, hready⟩

theorem createBackup_written {creation : Creation} {kind name : Text}
    (h : createBackup P dataPath creation kind d = (.ok (name, archive), next)) :
    Listed d dataPath (backedUp dataPath d) ∧ archive =
      ⟨P.zipSize (writtenMembers P creation.createdAt (existingComponents d) (backedUp dataPath d)),
        some (writtenMembers P creation.createdAt (existingComponents d) (backedUp dataPath d))⟩ := by
  unfold createBackup at h
  split at h
  · cases h
  dsimp only at h
  split at h
  · cases h
  · next files hfiles =>
    split at h
    · cases h
    split at h
    · cases h
    have hbacked : backedUp dataPath d = files := by rw [backedUp, hfiles]
    cases h
    exact ⟨hbacked ▸ listed hfiles, by rw [hbacked]⟩

theorem restored_iff {ms : List Member} (hlisted : Listed d dataPath (backedUp dataPath d))
    (hinspect : inspectBackup P (some ⟨size, some ms⟩) = .ok manifest)
    (hextract : extractFiles ms manifest.files emptyListing = .ok staged) (hstaged : Staged dataPath d manifest staged)
    {path : List Text} (hquiet : Untroubled P path env target) :
    (∃ result next, restoreBackup P path env (some ⟨size, some ms⟩) target = (.ok result, next) ∧ SameFiles d next) ↔
      Restorable P dataPath d := by
  have hallowed : ∀ c ∈ manifest.components, c ∈ allowedComponents := by
    rw [hstaged.components]
    exact fun c hc => List.mem_of_mem_filter hc
  have hready {ready : BackupManifest × Listing} : prepareRestore P env (some ⟨size, some ms⟩) = .ok ready ↔
      validateStagedData P manifest staged = .ok () ∧ ready = (manifest, staged) :=
    prepareRestore_eq_ok hinspect hquiet.extracts hextract
  have hfileOf {c : Text} (hc : c ∈ fileComponents) {node : Node} (hnode : d.entries c = some node)
      (hsome : (stagedNode manifest staged c).isSome) : ∃ content, node = .file content := by
    obtain ⟨n, hn⟩ := Option.isSome_iff_exists.mp hsome
    obtain ⟨content, hcontent, -⟩ := (stagedNode_file hlisted hstaged hc).mp hn
    exact ⟨content, Option.some.inj (hnode.symm.trans hcontent)⟩
  have hfileNames : ∀ c ∈ fileComponents, c = stateName ∨ c = configName := by decide
  constructor
  · intro ⟨result, next, hrestore, hsame⟩
    obtain ⟨ready, hprepare⟩ := prepared_of_restored hrestore
    obtain ⟨hvalid, rfl⟩ := hready.mp hprepare
    obtain ⟨hplaced, -⟩ := (restore_cases hprepare hallowed).2 result next hrestore
    rw [hstaged.components] at hplaced
    have hfiles (c : Text) (hc : c ∈ fileComponents) (node : Node) (hnode : d.entries c = some node) :
        ∃ content, node = .file content :=
      hfileOf hc hnode (hplaced c (mem_existing.mpr ⟨file_allowed c hc, node, hnode⟩)).1
    obtain ⟨hconfig, hrules, hworkflows⟩ := (validate_iff hlisted hstaged).mp hvalid
    obtain ⟨hdirs, hlocation⟩ := (sameFiles_iff hlisted hstaged hfiles (fun c hc => (hplaced c hc).2)).mp hsame
    exact ⟨hconfig, hfiles stateName (by decide), hrules, hworkflows, hdirs, hlocation⟩
  · intro h
    have hfiles (c : Text) (hc : c ∈ fileComponents) (node : Node) (hnode : d.entries c = some node) :
        ∃ content, node = .file content := by
      obtain rfl | rfl := hfileNames c hc
      · exact h.state node hnode
      · obtain ⟨content, hcontent, -⟩ := h.config node hnode
        exact ⟨content, hcontent⟩
    have hprepare := hready.mpr ⟨(validate_iff hlisted hstaged).mpr ⟨h.config, h.rules, h.workflows⟩, rfl⟩
    have hall (c : Text) (hc : c ∈ manifest.components) : (stagedNode manifest staged c).isSome := by
      rw [hstaged.components] at hc
      obtain ⟨hin, node, hnode⟩ := mem_existing.mp hc
      obtain hdir | hown := mem_components c hin
      · rw [stagedNode_directory hstaged hdir hc]
        rfl
      · obtain ⟨content, rfl⟩ := hfiles c hown node hnode
        rw [(stagedNode_file hlisted hstaged hown).mpr ⟨content, hnode, rfl⟩]
        rfl
    obtain ⟨result, next, hrestore⟩ := restore_succeeds hquiet hprepare hall
    obtain ⟨hplaced, -⟩ := (restore_cases hprepare hallowed).2 result next hrestore
    rw [hstaged.components] at hplaced
    exact ⟨result, next, hrestore,
      (sameFiles_iff hlisted hstaged hfiles (fun c hc => (hplaced c hc).2)).mpr ⟨h.directories, h.location⟩⟩

/-- The backup of a data directory can be used just in case the directory meets the condition. -/
theorem usable_iff {creation : Creation} {kind name : Text}
    (hjson : P.loads (manifestText P creation.createdAt (existingComponents d) (backedUp dataPath d)) =
      .value (manifestJson P creation.createdAt (existingComponents d) ((backedUp dataPath d).map (buildFileRecord P))))
    (h : createBackup P dataPath creation kind d = (.ok (name, archive), next)) :
    Usable P d archive ↔ Backupable P dataPath d creation.createdAt := by
  obtain ⟨hlisted, rfl⟩ := createBackup_written h
  have hcs : ∀ c ∈ existingComponents d, c ∈ allowedComponents := fun c hc => List.mem_of_mem_filter hc
  have hcomponents (f : List Text × Bytes) (hf : f ∈ backedUp dataPath d) : ∃ c p, f.1 = c :: p ∧ c ∈ existingComponents d := by
    obtain ⟨c, p, hq, -⟩ := (hlisted.paths f hf).component
    obtain ⟨hc, node, hnode, -⟩ := (hlisted.mem c p f.2).mp (by rw [← hq]; exact hf)
    exact ⟨c, p, hq, mem_existing.mpr ⟨hc, node, hnode⟩⟩
  have hstage (hlimits : Limits P (backedUp dataPath d)
      (manifestText P creation.createdAt (existingComponents d) (backedUp dataPath d))) :
      ∃ staged, extractFiles (writtenMembers P creation.createdAt (existingComponents d) (backedUp dataPath d))
        (writtenManifest P creation.createdAt (existingComponents d) (backedUp dataPath d)).files emptyListing = .ok staged ∧
        staged.entries.entries = leaves (backedUp dataPath d) := by
    have hsound := (soundMembers_written_iff hlisted).mpr hlimits
    refine extract_written hlisted (fun f hf => (openMember_iff hsound).mpr ?_) (List.nil_append _) rfl
    exact ⟨_, List.mem_cons_of_mem _ (List.mem_map_of_mem hf), rfl, rfl⟩
  constructor
  · intro ⟨⟨manifest, hmanifest⟩, hrestore⟩
    obtain ⟨hsize, hlimits, rfl⟩ := (inspect_written_iff hlisted hcs hcomponents hjson).mp hmanifest
    obtain ⟨staged, hextract, hentries⟩ := hstage hlimits
    exact ⟨hsize, hlimits, (restored_iff hlisted hmanifest hextract ⟨rfl, hentries⟩ (untroubled_nothing P [])).mp
      (hrestore _ _ _ (untroubled_nothing P []))⟩
  · intro ⟨hsize, hlimits, hrestorable⟩
    have hmanifest := (inspect_written_iff hlisted hcs hcomponents hjson).mpr ⟨hsize, hlimits, rfl⟩
    obtain ⟨staged, hextract, hentries⟩ := hstage hlimits
    refine ⟨⟨_, hmanifest⟩, fun path env target hquiet => ?_⟩
    exact (restored_iff hlisted hmanifest hextract ⟨rfl, hentries⟩ hquiet).mpr hrestorable

def memoryName : Text := "memory".toList

/-- A file to be backed up alone, its digest, the text of the manifest, and what both are
deflated to. -/
structure Sample where
  content : Bytes
  digest : Text
  digits : digest.length = 64
  text : Bytes
  packedText : Nat
  packed : Nat
  positive : 0 < packedText ∧ 0 < packed

def ascii (t : String) : Bytes := t.toList.map (fun c => UInt8.ofNat c.toNat)

def lines (ts : List String) : Bytes := ts.flatMap ascii

def Sample.json (x : Sample) : Json :=
  .dict [("format_version".toList, .atom (.int 1)), ("created_at".toList, .text "2026-01-01".toList),
    ("application_version".toList, .text ['1']), ("components".toList, .list [.text memoryName]),
    ("files".toList, .list [BackupFile.toJson ⟨"memory/a".toList, x.digest, x.content.length⟩]),
    ("uncompressed_size".toList, .atom (.int x.content.length))]

/-- The libraries, as they treat the sample. Other bytes are stored as they are. -/
def Sample.platform (x : Sample) : Platform where
  sha256 _ := x.digest
  sha256_length _ := x.digits
  dumps _ := x.text
  loads content := if content = x.text then .value x.json else .malformed
  str
    | .text t => t
    | _ => []
  str_text := @rfl Text
  int
    | .atom (.int n) => .value n
    | _ => .malformed
  int_int n := Eq.refl (Read.value n)
  deflated content := if content = x.text then x.packedText else if content = x.content then x.packed else content.length
  deflated_pos content h := by
    split
    · exact x.positive.1
    split
    · exact x.positive.2
    · exact List.length_pos_of_ne_nil h
  zipSize ms := 22 + (ms.map (fun m => 76 + 2 * m.filename.length + m.compressSize)).sum
  config _ := true
  yaml _ := none
  applicationVersion := ['1']

def Sample.listing (x : Sample) : Listing :=
  createFile emptyListing [['a']] x.content (by decide)

/-- A data directory with the file in `memory`. -/
def Sample.directory (x : Sample) : DataDirectory :=
  ⟨fun n => if n = memoryName then some (.directory x.listing) else none, .empty⟩

def creation : Creation := ⟨"20260101T000000000000Z".toList, "2026-01-01".toList, true, true⟩

variable (x : Sample)

theorem existing_sample : existingComponents x.directory = [memoryName] := rfl

theorem iterBackupFiles_sample :
    iterBackupFiles [] x.directory (existingComponents x.directory) = .ok [([memoryName, ['a']], x.content)] := by
  have hsort : sortBy Prod.fst x.listing.entries.entries = [([['a']], .file x.content)] := List.mergeSort_singleton _
  have hcomponent : iterComponent [] memoryName (.directory x.listing) = .ok [([memoryName, ['a']], x.content)] := by
    change (if memoryName ∈ fileComponents then .ok [] else
      iterListing [] memoryName (sortBy Prod.fst x.listing.entries.entries)) = _
    rw [if_neg (by decide), hsort]
    rfl
  rw [existing_sample]
  change (do
    let files ← iterComponent [] memoryName (.directory x.listing)
    return files ++ (← iterBackupFiles [] x.directory []) : Except BackupError (List (List Text × Bytes))) = _
  rw [hcomponent]
  rfl

theorem backedUp_sample : backedUp [] x.directory = [([memoryName, ['a']], x.content)] := by
  rw [backedUp, iterBackupFiles_sample]

theorem createBackup_sample : ∃ name archive next,
    createBackup x.platform [] creation "backup".toList x.directory = (.ok (name, archive), next) := by
  have hfree : ¬ (buildBackupFilename "backup".toList creation.timestamp ∈ x.directory.backups.keys ∨
      (!creation.writes) = true) := not_or.mpr ⟨List.not_mem_nil, Bool.false_ne_true⟩
  unfold createBackup
  rw [if_neg (by decide), iterBackupFiles_sample]
  dsimp only
  rw [if_neg (by decide), if_neg hfree]
  exact ⟨_, _, _, rfl⟩

theorem text_sample : manifestText x.platform creation.createdAt (existingComponents x.directory)
    (backedUp [] x.directory) = x.text := rfl

theorem manifest_sample : x.platform.loads (manifestText x.platform creation.createdAt
      (existingComponents x.directory) (backedUp [] x.directory)) =
    .value (manifestJson x.platform creation.createdAt (existingComponents x.directory)
      ((backedUp [] x.directory).map (buildFileRecord x.platform))) := by
  rw [backedUp_sample]
  exact if_pos rfl

theorem deflated_text : x.platform.deflated x.text = x.packedText := if_pos rfl

theorem deflated_content (h : x.content ≠ x.text) : x.platform.deflated x.content = x.packed :=
  (if_neg h).trans (if_pos rfl)

theorem backupable_sample (h : x.content ≠ x.text) (htext : x.text.length ≤ x.packedText * maxCompressionRatio)
    (hcontent : x.content.length ≤ x.packed * maxCompressionRatio) (hsmall : x.text.length + x.content.length ≤ 1000)
    (hpacked : x.packedText + x.packed ≤ 1000) : Backupable x.platform [] x.directory creation.createdAt := by
  refine ⟨?_, ?_, ?_⟩
  · rw [backedUp_sample]
    change 22 + (76 + 2 * 13 + x.platform.deflated x.text + (76 + 2 * 8 + x.platform.deflated x.content + 0)) ≤ _
    rw [deflated_text, deflated_content x h, maxArchiveSizeBytes]
    omega
  · rw [text_sample, backedUp_sample]
    refine ⟨fun f hf => ?_, fun f hf => ?_, ?_, ?_, Nat.le_of_ble_eq_true rfl⟩
    · rw [List.mem_singleton.mp hf]
      exact show '\\' ∉ joined [memoryName, ['a']] by decide
    · rw [List.mem_singleton.mp hf, deflated_content x h]
      exact hcontent
    · rw [deflated_text]
      exact htext
    · change x.text.length + (x.content.length + 0) ≤ maxUncompressedSizeBytes
      rw [maxUncompressedSizeBytes]
      omega
  · have hentry {c : Text} {node : Node} (hn : x.directory.entries c = some node) :
        c = memoryName ∧ node = .directory x.listing := by
      change (if c = memoryName then some (Node.directory x.listing) else none) = some node at hn
      split at hn
      · next hc => exact ⟨hc, (Option.some.inj hn).symm⟩
      · cases hn
    refine ⟨fun node hn => ?_, fun node hn => ?_, fun f hf => ?_, fun f hf => ?_, fun c _ content hn => ?_,
      fun _ _ _ _ _ _ _ _ _ hx => (nomatch hx)⟩
    · exact absurd (hentry hn).1 (by decide)
    · exact absurd (hentry hn).1 (by decide)
    · rw [backedUp_sample, List.mem_singleton] at hf
      rw [hf]
      exact fun he => absurd (show [memoryName, ['a']] = dispatchRules from he) (by decide)
    · rw [backedUp_sample, List.mem_singleton] at hf
      rw [hf]
      rfl
    · cases (hentry hn).2

theorem not_usable_sample (h : x.content ≠ x.text) (hratio : x.packed * maxCompressionRatio < x.content.length)
    {name : Text} {archive : Archive} {next : DataDirectory}
    (hcreate : createBackup x.platform [] creation "backup".toList x.directory = (.ok (name, archive), next)) :
    ¬ Usable x.platform x.directory archive := by
  intro ⟨⟨manifest, hmanifest⟩, _⟩
  obtain ⟨hlisted, rfl⟩ := createBackup_written hcreate
  obtain ⟨a, ms, ha, -, hms, hmembers⟩ := inspectBackup_iff.mp hmanifest
  cases ha
  cases hms
  obtain ⟨members, hsound, -⟩ := inspectMembers_iff.mp hmembers
  have hlimit := ((soundMembers_written_iff hlisted).mp hsound).ratio ([memoryName, ['a']], x.content)
    (by rw [backedUp_sample]; exact List.mem_singleton_self _)
  rw [deflated_content x h] at hlimit
  exact absurd hratio (not_lt.mpr hlimit)

def letter : Sample where
  content := ascii "a"
  digest := "ca978112ca1bbdcafac231b39a23dc4da786eff8147c4e72b9807785afee48bb".toList
  digits := by decide
  text := lines ["\x7b\n", "  \"format_version\": 1,\n", "  \"created_at\": \"2026-01-01\",\n",
    "  \"application_version\": \"1\",\n", "  \"components\": [\n", "    \"memory\"\n", "  ],\n", "  \"files\": [\n",
    "    \x7b\n", "      \"path\": \"memory/a\",\n",
    "      \"sha256\": \"ca978112ca1bbdcafac231b39a23dc4da786eff8147c4e72b9807785afee48bb\",\n",
    "      \"size\": 1\n", "    \x7d\n", "  ],\n", "  \"uncompressed_size\": 1\n", "\x7d"]
  packedText := 194
  packed := 3
  positive := by decide

theorem letter_usable : ∃ name archive next,
    createBackup letter.platform [] creation "backup".toList letter.directory = (.ok (name, archive), next) ∧
      Usable letter.platform letter.directory archive := by
  obtain ⟨name, archive, next, h⟩ := createBackup_sample letter
  have htext : letter.text.length = 303 := by decide +kernel
  refine ⟨name, archive, next, h, (usable_iff (manifest_sample letter) h).mpr ?_⟩
  refine backupable_sample letter (fun he => ?_) ?_ (by decide) ?_ (by decide)
  · exact absurd (congrArg List.length he) (by rw [htext]; decide)
  · rw [htext]
    decide
  · rw [htext]
    decide

/-- A file of zeros, which is deflated to less than a part in two hundred. -/
def zeros : Sample where
  content := List.replicate 4096 0
  digest := "ad7facb2586fc6e966c004d7d1d16b024f5805ff7cb47c7a85dabd8b48892ca7".toList
  digits := by decide
  text := lines ["\x7b\n", "  \"format_version\": 1,\n", "  \"created_at\": \"2026-01-01\",\n",
    "  \"application_version\": \"1\",\n", "  \"components\": [\n", "    \"memory\"\n", "  ],\n", "  \"files\": [\n",
    "    \x7b\n", "      \"path\": \"memory/a\",\n",
    "      \"sha256\": \"ad7facb2586fc6e966c004d7d1d16b024f5805ff7cb47c7a85dabd8b48892ca7\",\n",
    "      \"size\": 4096\n", "    \x7d\n", "  ],\n", "  \"uncompressed_size\": 4096\n", "\x7d"]
  packedText := 195
  packed := 20
  positive := by decide

/-- The backup of the zeros is written, and is refused. -/
theorem zeros_not_usable : ∃ name archive next,
    createBackup zeros.platform [] creation "backup".toList zeros.directory = (.ok (name, archive), next) ∧
      ¬ Usable zeros.platform zeros.directory archive := by
  obtain ⟨name, archive, next, h⟩ := createBackup_sample zeros
  have hlength : zeros.content.length = 4096 := List.length_replicate
  have htext : zeros.text.length = 309 := by decide +kernel
  refine ⟨name, archive, next, h, not_usable_sample zeros (fun he => ?_) ?_ h⟩
  · rw [he, htext] at hlength
    omega
  · rw [hlength]
    decide

end Kirara.BackupAcceptance
