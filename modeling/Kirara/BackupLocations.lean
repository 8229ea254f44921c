import Kirara.BackupAcceptance

namespace Kirara.BackupLocations

open Kirara.Channels Kirara.Dicts Kirara.Dicts.Dict Kirara.Fallible Kirara.DataBackups Kirara.BackupRollbacks
open Kirara.BackupAcceptance Kirara.BackupListings Kirara.PosixPaths Kirara.StableSorts
open Kirara.ResourceArchives (Bytes)

variable {P : Platform} {dataPath : List Text} {d : DataDirectory} {c x : Text} {node : Node}

/-- A regular file that is selected by its path below the data directory. -/
def Selected (d : DataDirectory) (c : Text) (p : List Text) (content : Bytes) : Prop :=
  c ∈ allowedComponents ∧ ∃ node, d.entries c = some node ∧ Included [] c node p content

def Contains (archive : Archive) (name : Text) (content : Bytes) : Prop :=
  name ≠ manifestName ∧ ∃ ms, archive.members = some ms ∧ ∃ m ∈ ms, m.filename = name ∧ m.content = some content

/-- No component, and nothing that is not left out, is a link. -/
def LinkFree (d : DataDirectory) : Prop :=
  ∀ c ∈ allowedComponents, ∀ node, d.entries c = some node → node.isLink = false ∧
    ∀ listing p, node = .directory listing → (p, .link) ∈ listing.entries.entries → ¬ Kept (c :: p)

/-- Backups of a data directory are made, and hold exactly the selected files. -/
structure IncludesExactly (P : Platform) (dataPath : List Text) (d : DataDirectory) : Prop where
  made : LinkFree d → ∀ kind ∈ backupKinds, ∀ env, env.reads → env.writes →
    buildBackupFilename kind env.timestamp ∉ d.backups.keys →
      ∃ name archive after, createBackup P dataPath env kind d = (.ok (name, archive), after)
  exact : ∀ env kind name archive after, createBackup P dataPath env kind d = (.ok (name, archive), after) →
    ∀ n content, Contains archive n content ↔ ∃ c p, n = joined (c :: p) ∧ Selected d c p content

theorem iterListing_succeeds {entries : List (List Text × Leaf)}
    (h : ∀ e ∈ entries, e.2 = .link → isExcludedPath dataPath (c :: e.1) = true) :
    ∃ files, iterListing dataPath c entries = .ok files := by
  induction entries with
  | nil => exact ⟨[], rfl⟩
  | cons e entries ih =>
    obtain ⟨files, hfiles⟩ := ih (fun e he => h e (List.mem_cons_of_mem _ he))
    obtain ⟨p, leaf⟩ := e
    unfold iterListing
    split
    · exact ⟨files, hfiles⟩
    · next hkept =>
      rw [hfiles]
      cases leaf with
      | link => exact absurd (h _ List.mem_cons_self rfl) hkept
      | file content => exact ⟨_, rfl⟩
      | _ => exact ⟨files, rfl⟩

theorem iterComponent_succeeds (hlink : node.isLink = false)
    (h : ∀ listing p, node = .directory listing → (p, .link) ∈ listing.entries.entries → isExcludedPath dataPath (c :: p) = true) :
    ∃ files, iterComponent dataPath c node = .ok files := by
  cases node with
  | link dangling => cases hlink
  | directory listing =>
    unfold iterComponent
    dsimp only
    split
    · exact ⟨[], rfl⟩
    refine iterListing_succeeds (fun e he hleaf => h listing e.1 rfl ?_)
    rw [← hleaf]
    exact sortBy_perm.mem_iff.mp he
  | file content => exact ⟨_, rfl⟩
  | other => exact ⟨_, rfl⟩

theorem iterBackupFiles_succeeds {cs : List Text}
    (h : ∀ c ∈ cs, ∀ node, d.entries c = some node → ∃ files, iterComponent dataPath c node = .ok files) :
    ∃ files, iterBackupFiles dataPath d cs = .ok files := by
  induction cs with
  | nil => exact ⟨[], rfl⟩
  | cons c cs ih =>
    obtain ⟨rest, hrest⟩ := ih (fun c hc => h c (List.mem_cons_of_mem _ hc))
    unfold iterBackupFiles
    split
    · exact ⟨rest, hrest⟩
    · next node hnode =>
      obtain ⟨files, hfiles⟩ := h c List.mem_cons_self node hnode
      rw [hfiles, hrest]
      exact ⟨_, rfl⟩

theorem createBackup_succeeds (hfiles : ∃ files, iterBackupFiles dataPath d (existingComponents d) = .ok files) {kind : Text}
    (hkind : kind ∈ backupKinds) {env : Creation} (hreads : env.reads = true) (hwrites : env.writes = true)
    (hnew : buildBackupFilename kind env.timestamp ∉ d.backups.keys) :
    ∃ name archive after, createBackup P dataPath env kind d = (.ok (name, archive), after) := by
  obtain ⟨files, hfiles⟩ := hfiles
  have hfree : ¬ (buildBackupFilename kind env.timestamp ∈ d.backups.keys ∨ (!env.writes) = true) := by simp [hnew, hwrites]
  unfold createBackup
  rw [if_neg (not_not.mpr hkind), hfiles]
  dsimp only
  rw [hreads, Bool.not_true, if_neg Bool.false_ne_true, if_neg hfree]
  exact ⟨_, _, _, rfl⟩

theorem exists_length_lt (names : List Text) : ∃ n, ∀ t ∈ names, t.length < n := by
  induction names with
  | nil => exact ⟨0, nofun⟩
  | cons u names ih =>
    obtain ⟨n, hn⟩ := ih
    refine ⟨n + u.length + 1, fun t ht => ?_⟩
    obtain rfl | ht := List.mem_cons.mp ht
    · omega
    · have hlt := hn t ht
      omega

theorem exists_timestamp (kind : Text) (names : List Text) : ∃ timestamp, buildBackupFilename kind timestamp ∉ names := by
  obtain ⟨n, hn⟩ := exists_length_lt names
  refine ⟨List.replicate n '0', fun h => ?_⟩
  have hle := (List.infix_append ("kirara-".toList ++ kind ++ ['-']) (List.replicate n '0') backupSuffix).length_le
  rw [List.length_replicate] at hle
  exact absurd (hn _ h) (not_lt.mpr hle)

theorem contains_iff {env : Creation} {kind name n : Text} {archive : Archive} {after : DataDirectory} {content : Bytes}
    (h : createBackup P dataPath env kind d = (.ok (name, archive), after)) : Contains archive n content ↔
      ∃ c p, n = joined (c :: p) ∧ c ∈ allowedComponents ∧ ∃ node, d.entries c = some node ∧ Included dataPath c node p content := by
  obtain ⟨hlisted, rfl⟩ := createBackup_written h
  constructor
  · intro ⟨hn, ms, hms, m, hm, hname, hcontent⟩
    cases hms
    obtain rfl | hm := List.mem_cons.mp hm
    · exact absurd hname.symm hn
    · obtain ⟨⟨q, b⟩, hf, rfl⟩ := List.mem_map.mp hm
      cases hcontent
      obtain ⟨c, p, rfl, -⟩ := (hlisted.paths _ hf).component
      exact ⟨c, p, hname.symm, (hlisted.mem c p b).mp hf⟩
  · intro ⟨c, p, hn, hc, node, hnode, hi⟩
    have hf := (hlisted.mem c p content).mpr ⟨hc, node, hnode, hi⟩
    refine ⟨hn ▸ (hlisted.paths _ hf).ne_manifestName, _, rfl, member P (joined (c :: p)) content, ?_, hn.symm, rfl⟩
    exact List.mem_cons_of_mem _ (List.mem_map_of_mem hf)

theorem not_includes (hx : x ∈ dataPath) (hexcluded : x ∈ excludedDirectoryNames)
    (hlink : ∀ c ∈ allowedComponents, ∀ node, d.entries c = some node → node.isLink = false) {p : List Text} {content : Bytes}
    (hc : c ∈ directoryComponents) (hs : Selected d c p content) : ¬ IncludesExactly P dataPath d := by
  intro h
  have hall (q : List Text) : isExcludedPath dataPath q = true := by
    rw [isExcludedPath_eq, Bool.or_eq_true]
    exact .inr (List.any_eq_true.mpr ⟨x, hx, decide_eq_true hexcluded⟩)
  obtain ⟨timestamp, hnew⟩ := exists_timestamp "backup".toList d.backups.keys
  have hfiles : ∃ files, iterBackupFiles dataPath d (existingComponents d) = .ok files :=
    iterBackupFiles_succeeds (fun c hc node hnode =>
      iterComponent_succeeds (hlink c (List.mem_of_mem_filter hc) node hnode) (fun _ p _ _ => hall (c :: p)))
  have hcreate : ∃ name archive after, createBackup P dataPath ⟨timestamp, [], true, true⟩ "backup".toList d =
      (.ok (name, archive), after) := createBackup_succeeds hfiles (by decide) rfl rfl hnew
  obtain ⟨name, archive, after, hcreate⟩ := hcreate
  obtain ⟨e, q, hq, he, node, hnode, hi⟩ := (contains_iff hcreate).mp ((h.exact _ _ _ _ _ hcreate _ _).mpr ⟨c, p, rfl, hs⟩)
  obtain ⟨hc', node', hnode', hi'⟩ := hs
  cases (backupPath_of_included hi' hc').joined_inj (backupPath_of_included hi he) hq
  exact absurd (hi.below (not_both c hc)).2 (by rw [hall]; decide)

/-- Which files are backed up does not depend on the place of the data directory, unless a
directory above it has one of the names that are left out. -/
theorem includes_iff (P : Platform) (dataPath : List Text) (d : DataDirectory) : IncludesExactly P dataPath d ↔
    (∀ x ∈ dataPath, x ∉ excludedDirectoryNames) ∨
    (∃ c ∈ allowedComponents, ∃ dangling, d.entries c = some (.link dangling)) ∨
    ∀ c ∈ directoryComponents, ∀ p content, ¬ Selected d c p content := by
  constructor
  · intro h
    by_contra hno
    push Not at hno
    obtain ⟨⟨x, hx, hexcluded⟩, hlink, c, hc, p, content, hs⟩ := hno
    refine not_includes hx hexcluded (fun c hc node hnode => ?_) hc hs h
    cases node with
    | link dangling => exact absurd hnode (hlink c hc dangling)
    | _ => rfl
  · intro h
    refine ⟨fun hfree kind hkind env hreads hwrites hnew => ?_, fun env kind name archive after hcreate n content => ?_⟩
    · refine createBackup_succeeds (iterBackupFiles_succeeds (fun c hc node hnode => ?_)) hkind hreads hwrites hnew
      obtain ⟨hlink, hbelow⟩ := hfree c (List.mem_of_mem_filter hc) node hnode
      refine iterComponent_succeeds hlink (fun listing p hdir hp => ?_)
      rw [isExcludedPath_eq, Bool.or_eq_true]
      exact .inl (by simpa [Kept] using hbelow listing p hdir hp)
    · rw [contains_iff hcreate]
      refine exists_congr (fun c => exists_congr (fun p => and_congr_right (fun _ => and_congr_right (fun hc => ?_))))
      refine exists_congr (fun node => and_congr_right (fun hnode => ?_))
      refine ⟨fun hi => ⟨hi.file, hi.own, fun hown => ⟨(hi.below hown).1, ?_⟩⟩,
        fun hi => ⟨hi.file, hi.own, fun hown => ⟨(hi.below hown).1, ?_⟩⟩⟩
      · have hkept := (hi.below hown).2
        rw [isExcludedPath_eq, Bool.or_eq_false_iff] at hkept
        exact hkept.1
      · rw [isExcludedPath_eq, Bool.or_eq_false_iff]
        refine ⟨(hi.below hown).2, ?_⟩
        obtain hclear | ⟨e, he, dangling, hlink⟩ | hnone := h
        · simpa using hclear
        · cases ((createBackup_spec hcreate).2 name archive rfl).2.2 e he _ hlink
        · exact absurd ⟨hc, node, hnode, hi⟩ (hnone c ((mem_components c hc).resolve_right hown) p content)

/-- The file of a data directory at `/backups/kirara` is left out. -/
theorem below_backups_left_out :
    ¬ IncludesExactly letter.platform ["/".toList, "backups".toList, "kirara".toList] letter.directory := by
  have hentry {c : Text} {node : Node} (hn : letter.directory.entries c = some node) : node = .directory letter.listing := by
    change (if c = memoryName then some (Node.directory letter.listing) else none) = some node at hn
    split at hn
    · exact (Option.some.inj hn).symm
    · cases hn
  have hselected : Selected letter.directory memoryName [['a']] letter.content :=
    ⟨by decide, _, rfl, rfl, fun h => absurd h (by decide), fun _ => ⟨nofun, by decide +kernel⟩⟩
  refine not_includes (x := "backups".toList) (by decide) (by decide) (fun c _ node hn => ?_) (by decide) hselected
  rw [hentry hn]
  rfl

end Kirara.BackupLocations
