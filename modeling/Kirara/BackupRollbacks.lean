import Kirara.BackupInspections
import Kirara.DataRestores

namespace Kirara.BackupRollbacks

open Kirara.Channels Kirara.Dicts Kirara.Dicts.Dict Kirara.Fallible Kirara.PosixPaths Kirara.Rosters
open Kirara.BackupInspections Kirara.BackupListings Kirara.DataBackups Kirara.DataRestores
open Kirara.ResourceArchives (Bytes Json above)

section Swaps

variable {old new : Text → Option Node} {done cs : List Text} {c : Text} {w next : World} {fails : Option Move}
  {undoes : Bool} {env : Restoration}

/-- The components in `done` have been set aside, and no other is touched. -/
structure Aside (old : Text → Option Node) (done : List Text) (w : World) : Prop where
  others : ∀ c ∉ done, w.data c = old c
  previous : ∀ c, w.previous c = if c ∈ done then old c else none

structure Swapped (old new : Text → Option Node) (done : List Text) (w : World) : Prop extends Aside old done w where
  placed : ∀ c ∈ done, w.data c = new c
  staged : ∀ c ∉ done, w.staged c = new c

theorem swapped_nil : Swapped old new [] ⟨old, new, fun _ => none⟩ where
  others _ _ := rfl
  previous _ := (if_neg List.not_mem_nil).symm
  placed _ h := (nomatch h)
  staged _ _ := rfl

theorem setAside_data (c : Text) (w : World) : (setAside c w).data = Function.update w.data c none := by
  unfold setAside
  cases h : w.data c with
  | none => exact (Function.update_eq_self_iff.mpr h.symm).symm
  | some node => rfl

theorem setAside_previous (h : w.previous c = none) :
    (setAside c w).previous = Function.update w.previous c (w.data c) := by
  unfold setAside
  cases hd : w.data c with
  | none => exact (Function.update_eq_self_iff.mpr h.symm).symm
  | some node => rfl

theorem putBack_setAside {node : Node} (hd : w.data c = some node) (hp : w.previous c = none) (hlink : node.isLink = false) :
    putBack c (setAside c w) = w := by
  have hexists : node.exists = true := by
    cases node with
    | link dangling => cases hlink
    | _ => rfl
  unfold setAside putBack
  rw [hd]
  dsimp only
  rw [Function.update_self]
  dsimp only
  rw [if_pos hexists, Function.update_idem, Function.update_idem, ← hd, Function.update_eq_self, ← hp,
    Function.update_eq_self]

theorem swapped_replace (h : Swapped old new done w) (hc : c ∉ done)
    (hr : replaceComponent fails undoes c w = (true, next)) : Swapped old new (c :: done) next ∧ (new c).isSome := by
  unfold replaceComponent at hr
  split at hr
  · cases hr
  split at hr
  · next node hnode =>
    split at hr
    · cases hr
    cases hr
    have hnew : new c = some node := (h.staged c hc).symm.trans hnode
    have hprevious : w.previous c = none := (h.previous c).trans (if_neg hc)
    have hdata : ∀ d, d ≠ c → Function.update (setAside c w).data c (some node) d = w.data d := by
      intro d hd
      rw [setAside_data, Function.update_idem, Function.update_of_ne hd]
    refine ⟨⟨⟨fun d hd => ?_, fun d => ?_⟩, fun d hd => ?_, fun d hd => ?_⟩, by rw [hnew]; rfl⟩
    · obtain ⟨hdc, hd⟩ := not_or.mp (List.mem_cons.not.mp hd)
      exact (hdata d hdc).trans (h.others d hd)
    · dsimp only
      rw [setAside_previous hprevious]
      by_cases hdc : d = c
      · rw [hdc, Function.update_self, if_pos List.mem_cons_self, h.others c hc]
      · rw [Function.update_of_ne hdc, h.previous]
        simp [hdc]
    · by_cases hdc : d = c
      · rw [hdc, hnew]
        exact Function.update_self ..
      · exact (hdata d hdc).trans (h.placed d ((List.mem_cons.mp hd).resolve_left hdc))
    · obtain ⟨hdc, hd⟩ := not_or.mp (List.mem_cons.not.mp hd)
      exact (Function.update_of_ne hdc _ _).trans (h.staged d hd)
  · cases hr

theorem same_replace (h : Aside old done w) (hc : c ∉ done) (hlink : ∀ node, old c = some node → node.isLink = false)
    (hr : replaceComponent fails true c w = (false, next)) : next = w := by
  have hprevious : w.previous c = none := (h.previous c).trans (if_neg hc)
  have hdata : w.data c = old c := h.others c hc
  have hback : (if (w.data c).isSome ∧ true = true then putBack c (setAside c w) else setAside c w) = w := by
    cases hd : w.data c with
    | none =>
      rw [if_neg (by simp), setAside, hd]
    | some node =>
      rw [if_pos ⟨rfl, rfl⟩]
      exact putBack_setAside hd hprevious (hlink node (hdata.symm.trans hd))
  unfold replaceComponent at hr
  split at hr
  · cases hr
    rfl
  · split at hr
    · split at hr
      · cases hr
        exact hback
      · cases hr
    · cases hr
      exact hback

theorem restored_previous (h : Aside old done w) (hdone : done.Nodup) (hu : ∀ c, env.undoes c = true) :
    (restorePreviousComponents env.undoes done w).data = old := by
  induction done generalizing w with
  | nil => exact funext (fun c => h.others c List.not_mem_nil)
  | cons c done ih =>
    obtain ⟨hc, hdone⟩ := List.nodup_cons.mp hdone
    rw [restorePreviousComponents, if_pos (hu c)]
    refine ih ⟨fun d hd => ?_, fun d => ?_⟩ hdone
    · dsimp only
      by_cases hdc : d = c
      · rw [hdc, Function.update_self, h.previous, if_pos List.mem_cons_self]
      · rw [Function.update_of_ne hdc]
        exact h.others d (fun hm => (List.mem_cons.mp hm).elim hdc hd)
    · dsimp only
      by_cases hdc : d = c
      · rw [hdc, Function.update_self, if_neg hc]
      · rw [Function.update_of_ne hdc, h.previous]
        simp [hdc]

theorem replaceComponents_spec {replaced : Bool} (h : Swapped old new done w) (hnodup : (cs.reverse ++ done).Nodup)
    (hlink : ∀ c ∈ cs, ∀ node, old c = some node → node.isLink = false)
    (hr : replaceComponents env done cs w = (replaced, next)) :
    (replaced = true → Swapped old new (cs.reverse ++ done) next ∧ ∀ c ∈ cs, (new c).isSome) ∧
    (replaced = false → (∀ c, env.undoes c = true) → next.data = old) := by
  induction cs generalizing done w with
  | nil =>
    cases hr
    exact ⟨fun _ => ⟨h, fun _ hc => (nomatch hc)⟩, nofun⟩
  | cons c cs ih =>
    rw [List.reverse_cons, List.append_assoc] at hnodup ⊢
    have hcons : (c :: done).Nodup := hnodup.of_append_right
    have hc : c ∉ done := (List.nodup_cons.mp hcons).1
    unfold replaceComponents at hr
    split at hr
    · next middle hm =>
      obtain ⟨hswapped, hsome⟩ := swapped_replace h hc hm
      obtain ⟨hplaced, hback⟩ := ih hswapped hnodup (fun d hd => hlink d (List.mem_cons_of_mem _ hd)) hr
      refine ⟨fun ht => ⟨(hplaced ht).1, fun d hd => ?_⟩, hback⟩
      obtain rfl | hd := List.mem_cons.mp hd
      · exact hsome
      · exact (hplaced ht).2 d hd
    · next middle hm =>
      cases hr
      refine ⟨nofun, fun _ hu => ?_⟩
      rw [hu c] at hm
      rw [same_replace h.toAside hc (hlink c List.mem_cons_self) hm]
      exact restored_previous h.toAside (List.nodup_cons.mp hcons).2 hu

end Swaps

section Extraction

variable {P : Platform} {ms : List Member} {m : Member} {members : Dict Text Member} {manifest : BackupManifest}
  {fs : List BackupFile} {staged result : Listing} {c : Text} {p : List Text} {leaf : Leaf} {content : Bytes}

theorem openMember_iff (h : SoundMembers ms) {path : Text} :
    openMember ms path = .ok content ↔ ∃ m ∈ ms, m.filename = path ∧ m.content = some content := by
  have hsame {m n : Member} (hm : m ∈ ms) (hn : n ∈ ms) (he : m.filename = n.filename) : m = n :=
    List.inj_on_of_nodup_map h.distinct hm hn he
  unfold openMember
  constructor
  · intro ho
    split at ho
    · next m hm =>
      cases ho
      exact ⟨_, List.mem_reverse.mp (List.mem_of_find?_eq_some hm), by simpa using List.find?_some hm, rfl⟩
    · cases ho
  · intro ⟨m, hm, hname, hcontent⟩
    have hfound : ms.reverse.find? (fun m => m.filename = path) = some m := by
      cases hf : ms.reverse.find? (fun m => m.filename = path) with
      | none => exact absurd hname (by simpa using List.find?_eq_none.mp hf m (List.mem_reverse.mpr hm))
      | some n =>
        have hn : n.filename = path := by simpa using List.find?_some hf
        rw [hsame (List.mem_reverse.mp (List.mem_of_find?_eq_some hf)) hm (hn.trans hname.symm)]
    obtain ⟨filename, fileSize, compressSize, symlink, _⟩ := m
    cases hcontent
    rw [hfound]

theorem extractFiles_ok (h : extractFiles ms fs staged = .ok result) :
    (∀ p leaf, (p, leaf) ∈ result.entries.entries ↔ (p, leaf) ∈ staged.entries.entries ∨
      ∃ f ∈ fs, components f.path = p ∧ ∃ content, openMember ms f.path = .ok content ∧ leaf = .file content) ∧
    ∀ f ∈ fs, components f.path ∉ directoryComponents.map (fun c => [c]) := by
  induction fs generalizing staged with
  | nil =>
    cases h
    refine ⟨fun p leaf => ⟨.inl, ?_⟩, fun _ hf => (nomatch hf)⟩
    rintro (h | ⟨f, hf, -⟩)
    · exact h
    · cases hf
  | cons f fs ih =>
    unfold extractFiles at h
    split at h
    · cases h
    · next content hcontent =>
      split at h
      · next hfits =>
        obtain ⟨hdir, h⟩ := ite_error_eq_ok.mp h
        obtain ⟨hentries, hdirs⟩ := ih h
        refine ⟨fun p leaf => ?_, fun g hg => ?_⟩
        · have hcreated : (p, leaf) ∈ (createFile staged (components f.path) content hfits).entries.entries ↔
              (p, leaf) = (components f.path, .file content) ∨ (p, leaf) ∈ staged.entries.entries := by
            refine mem_set_iff.trans (or_congr_right ⟨And.left, fun hmem => ⟨hmem, ?_⟩⟩)
            exact (hfits.2 p (mem_keys_iff.mpr ⟨leaf, hmem⟩)).1
          rw [hentries, hcreated]
          constructor
          · rintro ((heq | hold) | ⟨g, hg, hrest⟩)
            · cases heq
              exact .inr ⟨f, List.mem_cons_self, rfl, content, hcontent, rfl⟩
            · exact .inl hold
            · exact .inr ⟨g, List.mem_cons_of_mem _ hg, hrest⟩
          · rintro (hold | ⟨g, hg, hpath, b, hb, rfl⟩)
            · exact .inl (.inr hold)
            · obtain rfl | hg := List.mem_cons.mp hg
              · cases hb.symm.trans hcontent
                exact .inl (.inl (by rw [hpath]))
              · exact .inr ⟨g, hg, hpath, b, hb, rfl⟩
        · obtain rfl | hg := List.mem_cons.mp hg
          · exact hdir
          · exact hdirs g hg
      · cases h

/-- The files of an archive, by their paths. -/
def Holds (ms : List Member) (p : List Text) (content : Bytes) : Prop :=
  ∃ m ∈ ms, m.filename ≠ manifestName ∧ m.isDir = false ∧ components m.filename = p ∧ m.content = some content

theorem mem_archiveFilePaths (hentries : members.entries = named ms) {path : Text} :
    path ∈ archiveFilePaths members ↔ ∃ m ∈ ms, m.filename = path ∧ path ≠ manifestName ∧ m.isDir = false := by
  rw [archiveFilePaths, mem_keys_iff]
  constructor
  · rintro ⟨m, hm⟩
    rw [Dict.filter, List.mem_filter, hentries, named, List.mem_map] at hm
    obtain ⟨⟨x, hx, he⟩, hf⟩ := hm
    cases he
    obtain ⟨hname, hdir⟩ : m.filename ≠ manifestName ∧ m.isDir = false := by simpa using hf
    exact ⟨m, hx, rfl, hname, hdir⟩
  · rintro ⟨m, hm, hname, hother, hdir⟩
    refine ⟨m, ?_⟩
    rw [Dict.filter, List.mem_filter, hentries, named, List.mem_map]
    exact ⟨⟨m, hm, by rw [hname]⟩, by simp [hother, hdir]⟩

theorem staged_holds (hms : SoundMembers ms) (hentries : members.entries = named ms)
    (hmanifest : SoundManifest P manifest members) (h : extractFiles ms manifest.files emptyListing = .ok staged) :
    (p, leaf) ∈ staged.entries.entries ↔ ∃ content, Holds ms p content ∧ leaf = .file content := by
  rw [(extractFiles_ok h).1]
  constructor
  · rintro (hempty | ⟨f, hf, hpath, content, hopen, rfl⟩)
    · cases hempty
    · obtain ⟨m, hm, hname, hcontent⟩ := (openMember_iff hms).mp hopen
      obtain ⟨n, hn, hnname, hother, hdir⟩ :=
        (mem_archiveFilePaths hentries).mp ((hmanifest.complete f.path).mpr (List.mem_map_of_mem hf))
      have hmn : m = n := List.inj_on_of_nodup_map hms.distinct hm hn (hname.trans hnname.symm)
      exact ⟨content, ⟨m, hm, hname ▸ hother, hmn ▸ hdir, hname ▸ hpath, hcontent⟩, rfl⟩
  · intro ⟨content, ⟨m, hm, hother, hdir, hpath, hcontent⟩, hleaf⟩
    have hin := (hmanifest.complete m.filename).mp ((mem_archiveFilePaths hentries).mpr ⟨m, hm, rfl, hother, hdir⟩)
    obtain ⟨f, hf, he⟩ := List.mem_map.mp hin
    exact .inr ⟨f, hf, he ▸ hpath, content, (openMember_iff hms).mpr ⟨m, hm, he.symm, hcontent⟩, hleaf⟩

theorem stagedNode_files (hms : SoundMembers ms) (hentries : members.entries = named ms)
    (hmanifest : SoundManifest P manifest members) (h : extractFiles ms manifest.files emptyListing = .ok staged)
    {node : Node} (hnode : stagedNode manifest staged c = some node) :
    node.files p = some content ↔ Holds ms (c :: p) content := by
  have hholds {q : List Text} {b : Bytes} : (q, Leaf.file b) ∈ staged.entries.entries ↔ Holds ms q b := by
    rw [staged_holds hms hentries hmanifest h]
    exact ⟨fun ⟨x, hx, he⟩ => (Leaf.file.inj he) ▸ hx, fun hb => ⟨b, hb, rfl⟩⟩
  have hdeclared {q : List Text} {b : Bytes} (hq : Holds ms q b) : ∃ f ∈ manifest.files, components f.path = q := by
    obtain hempty | ⟨f, hf, hpath, -⟩ := ((extractFiles_ok h).1 q (.file b)).mp (hholds.mpr hq)
    · cases hempty
    · exact ⟨f, hf, hpath⟩
  unfold stagedNode at hnode
  split at hnode
  · next hdir =>
    split at hnode
    · cases hnode
      rw [directory_files, get_eq_some_iff]
      refine mem_belowEntries.trans (Iff.trans ⟨And.left, fun hmem => ⟨hmem, ?_⟩⟩ hholds)
      rintro rfl
      obtain ⟨f, hf, hpath⟩ := hdeclared (hholds.mp hmem)
      exact (extractFiles_ok h).2 f hf (List.mem_map.mpr ⟨c, hdir, hpath.symm⟩)
    · cases hnode
  · next hdir =>
    split at hnode
    · next b hb =>
      cases hnode
      cases p with
      | nil =>
        rw [← hholds, ← get_eq_some_iff, hb]
        exact ⟨fun he => by rw [Option.some.inj he], fun he => by rw [Leaf.file.inj (Option.some.inj he)]; rfl⟩
      | cons d p =>
        refine ⟨nofun, fun hq => ?_⟩
        obtain ⟨f, hf, hpath⟩ := hdeclared hq
        obtain ⟨e, -, parts, hparts, hallowed, hfile⟩ := (hmanifest.declared f hf).component
        cases hparts.symm.trans hpath
        cases hfile ((mem_components c hallowed).resolve_left hdir)
    · cases hnode

end Extraction

variable {P : Platform} {dataPath : List Text} {env : Restoration} {creation : Creation} {kind : Text} {d next : DataDirectory} {c : Text}
  {archive : Option Archive} {manifest : BackupManifest} {staged : Listing}

theorem iterBackupFiles_links {cs : List Text} {files : List (List Text × Bytes)}
    (h : iterBackupFiles dataPath d cs = .ok files) : ∀ c ∈ cs, ∀ node, d.entries c = some node → node.isLink = false := by
  induction cs generalizing files with
  | nil => exact fun _ hc => (nomatch hc)
  | cons c cs ih =>
    intro e he node hnode
    unfold iterBackupFiles at h
    split at h
    · next hnone =>
      obtain rfl | he := List.mem_cons.mp he
      · cases hnone.symm.trans hnode
      · exact ih h e he node hnode
    · next first hfirst =>
      obtain ⟨fs, hfs, h⟩ := bind_eq_ok.mp h
      obtain ⟨rest, hrest, -⟩ := bind_eq_ok.mp h
      obtain rfl | he := List.mem_cons.mp he
      · cases hfirst.symm.trans hnode
        cases node with
        | link dangling => cases hfs
        | _ => rfl
      · exact ih hrest e he node hnode

theorem createBackup_spec {r : Except BackupError (Text × Archive)} (h : createBackup P dataPath creation kind d = (r, next)) :
    next.entries = d.entries ∧ ∀ name a, r = .ok (name, a) → next.backups = d.backups.set name a ∧
      name ∉ d.backups.keys ∧ ∀ c ∈ allowedComponents, ∀ node, d.entries c = some node → node.isLink = false := by
  unfold createBackup at h
  split at h
  · cases h
    exact ⟨rfl, fun _ _ hr => (nomatch hr)⟩
  · dsimp only at h
    split at h
    · cases h
      exact ⟨rfl, fun _ _ hr => (nomatch hr)⟩
    · next files hfiles =>
      split at h
      · cases h
        exact ⟨rfl, fun _ _ hr => (nomatch hr)⟩
      · split at h
        · cases h
          exact ⟨rfl, fun _ _ hr => (nomatch hr)⟩
        · next hnew =>
          cases h
          refine ⟨rfl, fun name a hr => ?_⟩
          cases hr
          refine ⟨rfl, fun hm => hnew (.inl hm), fun c hc node hnode => ?_⟩
          exact iterBackupFiles_links hfiles c (List.mem_filter.mpr ⟨hc, by rw [hnode]; rfl⟩) node hnode

/-- What a restoration that goes through leaves. -/
structure Restored (ms : List Member) (manifest : BackupManifest) (result : RestoreResult) (d next : DataDirectory) : Prop where
  components : ∀ c ∈ manifest.components, ∃ node, next.entries c = some node ∧
    ∀ p content, node.files p = some content ↔ Holds ms (c :: p) content
  others : ∀ c ∉ manifest.components, next.entries c = d.entries c
  rollback : result.rollbackPath ∉ d.backups.keys ∧ ∃ a, next.backups = d.backups.set result.rollbackPath a

theorem mem_sortedComponents {cs : List Text} (h : ∀ c ∈ cs, c ∈ allowedComponents) : c ∈ sortedComponents cs ↔ c ∈ cs := by
  rw [sortedComponents, List.mem_filter, decide_eq_true_eq]
  exact ⟨And.right, fun hc => ⟨h c hc, hc⟩⟩

theorem nodup_sortedComponents (cs : List Text) : (sortedComponents cs).Nodup :=
  List.Nodup.filter _ (by decide)

/-- What is known once a restoration begins to replace components. -/
structure Prepared (P : Platform) (archive : Option Archive) (ms : List Member) (manifest : BackupManifest)
    (staged : Listing) : Prop where
  inspected : inspectBackup P archive = .ok manifest
  archive : ∃ a, archive = some a ∧ a.members = some ms
  allowed : ∀ c ∈ manifest.components, c ∈ allowedComponents
  files : ∀ c node, stagedNode manifest staged c = some node →
    ∀ p content, node.files p = some content ↔ Holds ms (c :: p) content

theorem prepared (h : prepareRestore P env archive = .ok (manifest, staged)) :
    ∃ ms, Prepared P archive ms manifest staged := by
  obtain ⟨m, hinspect, h⟩ := bind_eq_ok.mp h
  obtain ⟨s, hextract, h⟩ := bind_eq_ok.mp h
  obtain ⟨_, -, h⟩ := bind_eq_ok.mp h
  cases h
  obtain ⟨a, ms, ha, -, hms, hmembers⟩ := inspectBackup_iff.mp hinspect
  obtain ⟨members, hsound, hentries, hread, hvalid⟩ := inspectMembers_iff.mp hmembers
  subst ha
  obtain ⟨size, _⟩ := a
  cases hms
  have hfiles : extractFiles ms manifest.files emptyListing = .ok staged := by
    dsimp only [extractBackup] at hextract
    split at hextract
    · exact hextract
    · cases hextract
  exact ⟨ms, hinspect, ⟨_, rfl, rfl⟩, components_allowed hread,
    fun c node hnode p content => stagedNode_files hsound hentries hvalid hfiles hnode⟩

theorem restore_cases (hprepare : prepareRestore P env archive = .ok (manifest, staged))
    (hallowed : ∀ c ∈ manifest.components, c ∈ allowedComponents) :
    (∀ e next, restoreBackup P dataPath env archive d = (.error e, next) → (∀ c, env.undoes c = true) →
      next.entries = d.entries) ∧
    (∀ result next, restoreBackup P dataPath env archive d = (.ok result, next) →
      (∀ c ∈ manifest.components, (stagedNode manifest staged c).isSome ∧ next.entries c = stagedNode manifest staged c) ∧
      (∀ c ∉ manifest.components, next.entries c = d.entries c) ∧
      result.rollbackPath ∉ d.backups.keys ∧ ∃ a, next.backups = d.backups.set result.rollbackPath a) := by
  unfold restoreBackup
  rw [hprepare]
  dsimp only
  cases hcreate : createBackup P dataPath env.creation "rollback".toList d with
  | mk r middle =>
    obtain ⟨hentries, hrollback⟩ := createBackup_spec hcreate
    cases r with
    | error x =>
      refine ⟨fun e next h _ => ?_, fun result next h => ?_⟩
      · cases h
        exact hentries
      · cases h
    | ok x =>
      obtain ⟨name, rollback⟩ := x
      obtain ⟨hbackups, hnew, hlinks⟩ := hrollback name rollback rfl
      dsimp only
      rw [hentries]
      cases hr : replaceComponents env [] (sortedComponents manifest.components)
          ⟨d.entries, stagedNode manifest staged, fun _ => none⟩ with
      | mk replaced w =>
        obtain ⟨hplaced, hback⟩ := replaceComponents_spec swapped_nil
          (by rw [List.append_nil]; exact List.nodup_reverse.mpr (nodup_sortedComponents _))
          (fun c hc => hlinks c (List.mem_of_mem_filter hc)) hr
        cases replaced with
        | false =>
          refine ⟨fun e next h hu => ?_, fun result next h => ?_⟩
          · cases h
            exact hback rfl hu
          · cases h
        | true =>
          refine ⟨fun e next h _ => ?_, fun result next h => ?_⟩
          · cases h
          · cases h
            obtain ⟨hswapped, hsome⟩ := hplaced rfl
            have hmem {c : Text} : c ∈ (sortedComponents manifest.components).reverse ++ [] ↔ c ∈ manifest.components := by
              rw [List.append_nil, List.mem_reverse, mem_sortedComponents hallowed]
            refine ⟨fun c hc => ⟨?_, ?_⟩, fun c hc => ?_, hnew, rollback, hbackups⟩
            · exact hsome c ((mem_sortedComponents hallowed).mpr hc)
            · exact hswapped.placed c (hmem.mpr hc)
            · exact hswapped.others c (fun h => hc (hmem.mp h))

/-- A restoration that fails leaves all components as they were, and another gives them the
files of the archive. -/
theorem all_or_nothing (P : Platform) (dataPath : List Text) (env : Restoration) (archive : Option Archive)
    (d : DataDirectory) :
    (∀ e next, restoreBackup P dataPath env archive d = (.error e, next) → (∀ c, env.undoes c = true) →
      next.entries = d.entries) ∧
    (∀ result next, restoreBackup P dataPath env archive d = (.ok result, next) → ∃ a ms manifest, archive = some a ∧
      a.members = some ms ∧ inspectBackup P archive = .ok manifest ∧ Restored ms manifest result d next) := by
  cases hprepare : prepareRestore P env archive with
  | error x =>
    unfold restoreBackup
    rw [hprepare]
    refine ⟨fun e next h _ => ?_, fun result next h => ?_⟩
    · cases h
      rfl
    · cases h
  | ok ready =>
    obtain ⟨manifest, staged⟩ := ready
    obtain ⟨ms, hready⟩ := prepared hprepare
    obtain ⟨hfails, hreturns⟩ := restore_cases hprepare hready.allowed
    refine ⟨hfails, fun result next h => ?_⟩
    obtain ⟨a, ha, hms⟩ := hready.archive
    obtain ⟨hplaced, hothers, hrollback⟩ := hreturns result next h
    refine ⟨a, ms, manifest, ha, hms, hready.inspected, fun c hc => ?_, hothers, hrollback⟩
    obtain ⟨hsome, hentry⟩ := hplaced c hc
    obtain ⟨node, hnode⟩ := Option.isSome_iff_exists.mp hsome
    exact ⟨node, hentry.trans hnode, hready.files c node hnode⟩

def webName : Text := "web".toList

/-- The manifest of an archive with one file in `web`. -/
def sampleJson : Json :=
  .dict [("format_version".toList, .atom (.int 1)), ("created_at".toList, .text []),
    ("application_version".toList, .text []), ("components".toList, .list [.text webName]),
    ("files".toList, .list [BackupFile.toJson ⟨"web/a".toList, List.replicate 64 '0', 1⟩]),
    ("uncompressed_size".toList, .atom (.int 1))]

def sample : Platform where
  sha256 _ := List.replicate 64 '0'
  sha256_length _ := List.length_replicate
  dumps _ := [1]
  loads content := if content = [1] then .value sampleJson else .malformed
  str
    | .text t => t
    | _ => []
  str_text _ := rfl
  int
    | .atom (.int n) => .value n
    | _ => .malformed
  int_int _ := rfl
  deflated := List.length
  deflated_pos _ := List.length_pos_of_ne_nil
  zipSize ms := ms.length
  config _ := true
  yaml _ := none
  applicationVersion := []

def sampleArchive : Archive := ⟨2, some [member sample manifestName [1], member sample "web/a".toList [7]]⟩

/-- A data directory with an empty `web`. -/
def emptyWeb : DataDirectory := ⟨fun n => if n = webName then some (.directory emptyListing) else none, .empty⟩

def noTrouble (fails : Text → Option Move) : Restoration := ⟨⟨[], [], true, true⟩, true, fails, fun _ => true⟩

def returns (r : Except BackupError RestoreResult × DataDirectory) : Bool :=
  match r.1 with
  | .ok _ => true
  | .error _ => false

variable {r : Except BackupError RestoreResult × DataDirectory}

theorem exists_of_returns (h : returns r = true) : ∃ result, r = (.ok result, r.2) := by
  obtain ⟨_ | result, next⟩ := r
  · cases h
  · exact ⟨result, rfl⟩

theorem exists_of_not_returns (h : returns r = false) : ∃ e, r = (.error e, r.2) := by
  obtain ⟨e | _, next⟩ := r
  · exact ⟨e, rfl⟩
  · cases h

/-- The file is restored, or `web` is given back where it cannot be put in place. -/
theorem web_all_or_nothing :
    (∃ result next, restoreBackup sample [] (noTrouble fun _ => none) sampleArchive emptyWeb = (.ok result, next) ∧
      ∃ node, next.entries webName = some node ∧ ∃ content, node.files ["a".toList] = some content) ∧
    ∃ e next, restoreBackup sample [] (noTrouble fun _ => some .putInPlace) sampleArchive emptyWeb = (.error e, next) ∧
      next.entries = emptyWeb.entries := by
  constructor
  · obtain ⟨result, hresult⟩ := exists_of_returns
      (show returns (restoreBackup sample [] (noTrouble fun _ => none) sampleArchive emptyWeb) = true by decide +kernel)
    obtain ⟨a, ms, manifest, ha, hms, hinspect, hrestored⟩ :=
      (all_or_nothing sample [] (noTrouble fun _ => none) sampleArchive emptyWeb).2 _ _ hresult
    cases ha
    cases hms
    have hweb : webName ∈ manifest.components := by
      have h : (inspectBackup sample sampleArchive).toOption.map BackupManifest.components = some [webName] := by
        decide +kernel
      rw [hinspect] at h
      rw [Option.some.inj h]
      exact List.mem_singleton_self _
    obtain ⟨node, hnode, hfiles⟩ := hrestored.components webName hweb
    refine ⟨result, _, hresult, node, hnode, [7], (hfiles _ _).mpr ?_⟩
    exact ⟨member sample "web/a".toList [7], by simp, by decide, by decide, by decide, rfl⟩
  · obtain ⟨e, he⟩ := exists_of_not_returns
      (show returns (restoreBackup sample [] (noTrouble fun _ => some .putInPlace) sampleArchive emptyWeb) = false by
        decide +kernel)
    exact ⟨e, _, he, (all_or_nothing sample [] (noTrouble fun _ => some .putInPlace) sampleArchive emptyWeb).1 _ _ he
      (fun _ => rfl)⟩

/-- A restoration adds a rollback archive beside the components. -/
theorem restoring_adds_rollback :
    ∃ result next, restoreBackup sample [] (noTrouble fun _ => none) sampleArchive emptyWeb = (.ok result, next) ∧
      next.backups ≠ emptyWeb.backups := by
  obtain ⟨result, hresult⟩ := exists_of_returns
    (show returns (restoreBackup sample [] (noTrouble fun _ => none) sampleArchive emptyWeb) = true by decide +kernel)
  refine ⟨result, _, hresult, fun h => ?_⟩
  exact absurd (congrArg Dict.keys h) (by decide +kernel)

end Kirara.BackupRollbacks
