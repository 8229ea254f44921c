import Kirara.DataBackups

namespace Kirara.DataRestores

open Kirara.Channels Kirara.Dicts.Dict Kirara.PosixPaths Kirara.Rosters
open Kirara.ResourceArchives (Bytes Json above)
open Kirara.DataBackups

/-- A path has names only and does not collide with another one. -/
def Fits (listing : Listing) (path : List Text) : Prop :=
  (path ≠ [] ∧ ∀ c ∈ path, IsName c) ∧ ∀ p ∈ listing.entries.keys, p ≠ path ∧ above p path = false ∧ above path p = false

instance (listing : Listing) (path : List Text) : Decidable (Fits listing path) := by
  unfold Fits
  infer_instance

def emptyListing : Listing := ⟨.empty, fun _ h => (nomatch h), fun _ h => (nomatch h)⟩

def createFile (listing : Listing) (path : List Text) (content : Bytes) (h : Fits listing path) : Listing where
  entries := listing.entries.set path (.file content)
  named p hp := by
    obtain ⟨leaf, hleaf⟩ := mem_keys_iff.mp hp
    obtain heq | hold := mem_set_iff.mp hleaf
    · cases heq
      exact h.1
    · exact listing.named p (mem_keys_iff.mpr ⟨leaf, hold.1⟩)
  closed p hp q hq hpq := by
    have hkey {r : List Text} (hr : r ∈ (listing.entries.set path (.file content)).keys) :
        r = path ∨ r ∈ listing.entries.keys := by
      obtain ⟨leaf, hleaf⟩ := mem_keys_iff.mp hr
      obtain heq | hold := mem_set_iff.mp hleaf
      · cases heq
        exact .inl rfl
      · exact .inr (mem_keys_iff.mpr ⟨leaf, hold.1⟩)
    obtain rfl | hp' := hkey hp
    · obtain rfl | hq' := hkey hq
      · rw [above, decide_eq_false (fun h => h rfl), Bool.and_false] at hpq
        cases hpq
      · rw [(h.2 q hq').2.2] at hpq
        cases hpq
    · obtain rfl | hq' := hkey hq
      · rw [(h.2 p hp').2.1] at hpq
        cases hpq
      · rw [get_set_of_ne (h.2 p hp').1]
        exact listing.closed p hp' q hq' hpq

/-- `archive.open(path)`. -/
def openMember (ms : List Member) (path : Text) : Except BackupError Bytes :=
  match ms.reverse.find? (fun m => m.filename = path) with
  | some ⟨_, _, _, _, some content⟩ => .ok content
  | _ => .error .raised

/-- The loop of `_extract_backup`; the directories of the components are there already. -/
def extractFiles (ms : List Member) : List BackupFile → Listing → Except BackupError Listing
  | [], staged => .ok staged
  | f :: fs, staged =>
    match openMember ms f.path with
    | .error e => .error e
    | .ok content =>
      if h : Fits staged (components f.path) then
        if components f.path ∈ directoryComponents.map (fun c => [c]) then .error .raised
        else extractFiles ms fs (createFile staged (components f.path) content h)
      else .error .raised

def belowEntries (c : Text) (entries : List (List Text × Leaf)) : List (List Text × Leaf) :=
  entries.filterMap (fun e =>
    match e.1 with
    | d :: p => if d = c ∧ p ≠ [] then some (p, e.2) else none
    | [] => none)

variable {entries : List (List Text × Leaf)}

theorem mem_belowEntries {c : Text} {p : List Text} {leaf : Leaf} :
    (p, leaf) ∈ belowEntries c entries ↔ (c :: p, leaf) ∈ entries ∧ p ≠ [] := by
  rw [belowEntries, List.mem_filterMap]
  constructor
  · intro ⟨⟨path, l⟩, he, h⟩
    cases path with
    | nil => cases h
    | cons d q =>
      dsimp only at h
      split at h
      · next hd =>
        obtain ⟨rfl, hne⟩ := hd
        cases h
        exact ⟨he, hne⟩
      · cases h
  · intro ⟨he, hne⟩
    exact ⟨(c :: p, leaf), he, if_pos ⟨rfl, hne⟩⟩

theorem distinct_belowEntries {c : Text} (h : Distinct entries) : Distinct (belowEntries c entries) := by
  induction entries with
  | nil => exact List.nodup_nil
  | cons e entries ih =>
    obtain ⟨hnew, hrest⟩ := List.nodup_cons.mp h
    rw [belowEntries, List.filterMap_cons]
    split
    · exact ih hrest
    · next x hx =>
      obtain ⟨path, l⟩ := e
      cases path with
      | nil => cases hx
      | cons d q =>
        dsimp only at hx
        split at hx
        · next hd =>
          obtain ⟨rfl, -⟩ := hd
          cases hx
          refine List.nodup_cons.mpr ⟨fun hmem => ?_, ih hrest⟩
          obtain ⟨⟨p, leaf⟩, hp, rfl⟩ := List.mem_map.mp hmem
          exact hnew (List.mem_map.mpr ⟨_, (mem_belowEntries.mp hp).1, rfl⟩)
        · cases hx

def below (listing : Listing) (c : Text) : Listing where
  entries := ⟨belowEntries c listing.entries.entries, distinct_belowEntries listing.entries.distinct⟩
  named p hp := by
    obtain ⟨leaf, hleaf⟩ := mem_keys_iff.mp hp
    obtain ⟨hmem, hne⟩ := mem_belowEntries.mp hleaf
    have hnames := (listing.named _ (mem_keys_iff.mpr ⟨leaf, hmem⟩)).2
    exact ⟨hne, fun d hd => hnames d (List.mem_cons_of_mem _ hd)⟩
  closed p hp q hq hpq := by
    obtain ⟨leaf, hleaf⟩ := mem_keys_iff.mp hp
    obtain ⟨leaf', hleaf'⟩ := mem_keys_iff.mp hq
    obtain ⟨hmem, hne⟩ := mem_belowEntries.mp hleaf
    obtain ⟨hmem', hne'⟩ := mem_belowEntries.mp hleaf'
    have habove : above (c :: p) (c :: q) = true := by simpa [above] using hpq
    have h := listing.closed _ (mem_keys_iff.mpr ⟨leaf, hmem⟩) _ (mem_keys_iff.mpr ⟨leaf', hmem'⟩) habove
    exact get_eq_some_iff.mpr (mem_belowEntries.mpr ⟨get_eq_some_iff.mp h, hne⟩)

def stagedNode (manifest : BackupManifest) (staged : Listing) (c : Text) : Option Node :=
  if c ∈ directoryComponents then
    if c ∈ manifest.components then some (.directory (below staged c)) else none
  else
    match staged.entries.get [c] with
    | some (.file content) => some (.file content)
    | _ => none

section Validation

variable (P : Platform)

def dispatchRules : List Text := ["dispatch_rules".toList, "rules.yaml".toList]
def workflowsName : Text := "workflows".toList

def isYaml (name : Text) : Bool := ".yaml".toList.isSuffixOf name

def validateConfig (manifest : BackupManifest) (staged : Listing) : Except BackupError Unit :=
  if configName ∈ manifest.components then
    match staged.entries.get [configName] with
    | some (.file content) => if P.config content then .ok () else invalid "configuration validation failed"
    | _ => invalid "configuration validation failed"
  else .ok ()

def validateRules (staged : Listing) : Except BackupError Unit :=
  match staged.entries.get dispatchRules with
  | some (.file content) =>
    match P.yaml content with
    | some (.list _) => .ok ()
    | _ => invalid "dispatch rule validation failed"
  | _ => .ok ()

def isWorkflow (content : Bytes) : Bool :=
  match P.yaml content with
  | some (.dict entries) =>
    match lookup "blocks".toList entries with
    | some (.list _) => true
    | _ => false
  | _ => false

/-- The workflows that `rglob` finds on the way to a file, no directories among them. -/
def soundWorkflow : List Text × Leaf → Bool
  | (c :: parts, .file content) =>
    c ≠ workflowsName || parts.dropLast.all (fun d => !isYaml d) && (parts.getLast?.all (fun d => !isYaml d) || isWorkflow P content)
  | _ => true

def validateStagedData (manifest : BackupManifest) (staged : Listing) : Except BackupError Unit := do
  validateConfig P manifest staged
  validateRules P staged
  if staged.entries.entries.all (soundWorkflow P) then .ok () else invalid "workflow validation failed"

end Validation

/-- A step of a replacement that the system refuses. -/
inductive Move where
  | prepare
  | setAside
  | putInPlace
  deriving DecidableEq

/-- The data directory, what was staged, and what was set aside. -/
structure World where
  data : Text → Option Node
  staged : Text → Option Node
  previous : Text → Option Node

def setAside (c : Text) (w : World) : World :=
  match w.data c with
  | some node => { w with data := Function.update w.data c none, previous := Function.update w.previous c (some node) }
  | none => w

/-- What `_replace_component` does after a failure, with the component set aside. -/
def putBack (c : Text) (w : World) : World :=
  match w.previous c with
  | some node =>
    if node.exists then
      { w with data := Function.update w.data c (some node), previous := Function.update w.previous c none }
    else w
  | none => w

/-- `_replace_component`, and whether it returns. A failure is undone where possible. -/
def replaceComponent (fails : Option Move) (undoes : Bool) (c : Text) (w : World) : Bool × World :=
  if fails = some .prepare ∨ (w.data c).isSome ∧ fails = some .setAside then (false, w)
  else
    match w.staged c with
    | some node =>
      if fails = some .putInPlace then
        (false, if (w.data c).isSome ∧ undoes then putBack c (setAside c w) else setAside c w)
      else
        (true, { setAside c w with
          data := Function.update (setAside c w).data c (some node), staged := Function.update w.staged c none })
    | none => (false, if (w.data c).isSome ∧ undoes then putBack c (setAside c w) else setAside c w)

/-- `_restore_previous_components`, from the last one on. -/
def restorePreviousComponents (undoes : Text → Bool) : List Text → World → World
  | [], w => w
  | c :: cs, w =>
    if undoes c then
      restorePreviousComponents undoes cs
        { w with data := Function.update w.data c (w.previous c), previous := Function.update w.previous c none }
    else w

structure Restoration where
  creation : Creation
  extracts : Bool
  fails : Text → Option Move
  undoes : Text → Bool

/-- The loop of `_restore_backup`, with the restored components, the last one first. -/
def replaceComponents (env : Restoration) : List Text → List Text → World → Bool × World
  | _, [], w => (true, w)
  | restored, c :: cs, w =>
    match replaceComponent (env.fails c) (env.undoes c) c w with
    | (true, next) => replaceComponents env (c :: restored) cs next
    | (false, next) => (false, restorePreviousComponents env.undoes restored next)

variable (P : Platform) (dataPath : List Text)

structure RestoreResult where
  rollbackPath : Text
  restoredComponents : List Text

def extractBackup (env : Restoration) (archive : Option Archive) (manifest : BackupManifest) : Except BackupError Listing :=
  match archive with
  | some ⟨_, some ms⟩ => if env.extracts then extractFiles ms manifest.files emptyListing else .error .raised
  | _ => .error .raised

/-- The part of `_restore_backup` before a component is replaced. -/
def prepareRestore (env : Restoration) (archive : Option Archive) : Except BackupError (BackupManifest × Listing) := do
  let manifest ← inspectBackup P archive
  let staged ← extractBackup env archive manifest
  validateStagedData P manifest staged
  return (manifest, staged)

def restoreBackup (env : Restoration) (archive : Option Archive) (d : DataDirectory) :
    Except BackupError RestoreResult × DataDirectory :=
  match prepareRestore P env archive with
  | .error e => (.error e, d)
  | .ok (manifest, staged) =>
    match createBackup P dataPath env.creation "rollback".toList d with
    | (.error e, d) => (.error e, d)
    | (.ok (name, _), d) =>
      let components := sortedComponents manifest.components
      match replaceComponents env [] components ⟨d.entries, stagedNode manifest staged, fun _ => none⟩ with
      | (true, w) => (.ok ⟨name, components⟩, { d with entries := w.data })
      | (false, w) => (.error .raised, { d with entries := w.data })

end Kirara.DataRestores
