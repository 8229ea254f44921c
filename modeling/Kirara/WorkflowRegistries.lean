import Kirara.DispatchRegistries

namespace Kirara.WorkflowRegistries

open Kirara.Channels Kirara.Dicts
open Kirara.DispatchRegistries (Tombstones)

variable {β χ : Type}

/-- How builders are kept in YAML files. What was saved can be loaded. -/
structure BuilderFormat (β χ : Type) where
  saveToYaml : β → χ
  loadFromYaml : χ → Option β
  reloads : ∀ b, (loadFromYaml (saveToYaml b)).isSome = true

structure WorkflowBuilder (β : Type) where
  body : β
  id : Option Text
  deriving DecidableEq

/-- A group directory and the name of a file in it, without the suffix `.yaml`. -/
abbrev WorkflowPath := Text × Text

def workflowName (path : WorkflowPath) : Text := path.1 ++ ':' :: path.2

def pathSymbol (c : Char) : Bool := c.isAlphanum || c = '_' || c = '-'

def validSymbols (t : Text) : Bool := t ≠ [] && t.all pathSymbol

def ValidPath (path : WorkflowPath) : Prop := validSymbols path.1 = true ∧ validSymbols path.2 = true

inductive RegistryError where
  | invalidSymbols (label : Text) (invalidChars : Text)
  | alreadyExists (fullName : Text)
  | notFound (fullName : Text)
  | transaction
  deriving DecidableEq

def RegistryError.text : RegistryError → Text
  | .invalidSymbols label invalidChars =>
    "Invalid symbols in ".toList ++ label ++ " path: ".toList ++ invalidChars
  | .alreadyExists fullName => "Workflow ".toList ++ fullName ++ " already exists".toList
  | .notFound fullName => "Workflow ".toList ++ fullName ++ " not found".toList
  | .transaction => []

def resolveWorkflowPath (path : WorkflowPath) : Except RegistryError WorkflowPath :=
  if !validSymbols path.2 then
    .error (.invalidSymbols "workflow".toList (path.2.filter (fun c => !pathSymbol c)))
  else if !validSymbols path.1 then
    .error (.invalidSymbols "group".toList (path.1.filter (fun c => !pathSymbol c)))
  else .ok path

/-- The files below the data directory, in whatever order they are listed. -/
structure WorkflowDirectory (χ : Type) where
  workflows : Dict WorkflowPath χ
  tombstones : Tombstones

inductive Target where
  | yaml (path : WorkflowPath)
  | tombstones
  deriving DecidableEq

inductive Mutation (χ : Type) where
  | write (path : WorkflowPath) (content : χ)
  | remove (path : WorkflowPath)
  | mark (tombstones : Tombstones)

def Mutation.target : Mutation χ → Target
  | .write path _ | .remove path => .yaml path
  | .mark _ => .tombstones

def Mutation.apply (files : WorkflowDirectory χ) : Mutation χ → WorkflowDirectory χ
  | .write path content => { files with workflows := files.workflows.set path content }
  | .remove path => { files with workflows := files.workflows.pop path }
  | .mark tombstones => { files with tombstones := tombstones }

def Mutation.inverse (files : WorkflowDirectory χ) : Mutation χ → Mutation χ
  | .write path _ | .remove path =>
    match files.workflows.get path with
    | none => .remove path
    | some content => .write path content
  | .mark _ => .mark files.tombstones

def applyAll (files : WorkflowDirectory χ) (mutations : List (Mutation χ)) : WorkflowDirectory χ :=
  mutations.foldl Mutation.apply files

/-- What a commit comes to. One that raises may have called the callback. -/
inductive Commit where
  | done
  | undone (calledBack : Bool)
  | left (calledBack : Bool) (published : Target → Bool) (forward : Bool)

def Commit.returns : Commit → Bool
  | .done => true
  | .undone _ | .left .. => false

def Commit.calledBack : Commit → Bool
  | .done => true
  | .undone calledBack | .left calledBack _ _ => calledBack

/-- A journal is given as what its recovery will do. -/
structure Storage (χ : Type) where
  files : WorkflowDirectory χ
  journals : List (List (Mutation χ))

def transact (s : Storage χ) (mutations : List (Mutation χ)) : Commit → Storage χ
  | .done => { s with files := applyAll s.files mutations }
  | .undone _ => s
  | .left _ published forward =>
    { files := applyAll s.files (mutations.filter (fun m => published m.target))
      journals := s.journals ++ [if forward then mutations else mutations.map (Mutation.inverse s.files)] }

def recoverDirectory (s : Storage χ) : Storage χ := ⟨s.journals.foldl applyAll s.files, []⟩

structure WorkflowRegistry (β : Type) where
  workflows : Dict Text (WorkflowBuilder β)
  presetWorkflowIds : Finset Text
  deletedPresetWorkflowIds : Finset Text

namespace WorkflowRegistry

def empty : WorkflowRegistry β := ⟨.empty, ∅, ∅⟩

def registerPresetWorkflow (r : WorkflowRegistry β) (path : WorkflowPath) (builder : WorkflowBuilder β) :
    WorkflowRegistry β :=
  let fullName := workflowName path
  let known := { r with presetWorkflowIds := insert fullName r.presetWorkflowIds }
  if fullName ∈ r.deletedPresetWorkflowIds then known
  else if fullName ∈ r.workflows.keys then known
  else { known with workflows := r.workflows.set fullName builder }

def loadPresetTombstones (r : WorkflowRegistry β) : Tombstones → WorkflowRegistry β
  | .missing => { r with deletedPresetWorkflowIds := ∅ }
  | .invalid => r
  | .ids ids => { r with deletedPresetWorkflowIds := ids }

end WorkflowRegistry

structure State (β χ : Type) where
  registry : WorkflowRegistry β
  storage : Storage χ

/-- What an operation wants to write, and what it makes of the registry. -/
structure Plan (β χ : Type) where
  mutations : List (Mutation χ)
  publishRegistry : WorkflowRegistry β → WorkflowRegistry β

def execute (s : State β χ) (plan : Except RegistryError (Plan β χ)) (commit : Commit) :
    Except RegistryError Unit × State β χ :=
  match plan with
  | .error e => (.error e, s)
  | .ok plan =>
    let registry := if commit.calledBack then plan.publishRegistry s.registry else s.registry
    (if commit.returns then .ok () else .error .transaction, ⟨registry, transact s.storage plan.mutations commit⟩)

section Operations

variable (format : BuilderFormat β χ) (s : State β χ)

/-- A builder's names before and after, and the file that goes. -/
structure Identity where
  path : WorkflowPath
  previous : Option WorkflowPath
  previousPath : WorkflowPath
  deriving DecidableEq

def Identity.fullName (i : Identity) : Text := workflowName i.path

def Identity.previousName (i : Identity) : Text := (i.previous.map workflowName).getD i.fullName

def orElse (value : Option Text) (fallback : Text) : Text :=
  match value with
  | none => fallback
  | some t => if t = [] then fallback else t

def identify (path : WorkflowPath) (previousGroupId previousWorkflowId : Option Text) : Identity where
  path := path
  previous :=
    match previousGroupId, previousWorkflowId with
    | some g, some w => some (g, w)
    | _, _ => none
  previousPath := (orElse previousGroupId path.1, orElse previousWorkflowId path.2)

def exists' (path : WorkflowPath) : Bool :=
  workflowName path ∈ s.registry.workflows.keys || path ∈ s.storage.files.workflows.keys

def persistTombstones (i : Identity) : Finset Text :=
  let kept := s.registry.deletedPresetWorkflowIds.erase i.fullName
  if i.previousName ≠ i.fullName ∧ i.previousName ∈ s.registry.presetWorkflowIds then insert i.previousName kept
  else kept

def persistPlan (i : Identity) (body : β) (createOnly : Bool) : Except RegistryError (Plan β χ) :=
  match resolveWorkflowPath i.path, resolveWorkflowPath i.previousPath with
  | .error e, _ | .ok _, .error e => .error e
  | .ok _, .ok _ =>
    if createOnly && exists' s i.path then .error (.alreadyExists i.fullName)
    else if i.previousName ≠ i.fullName ∧ exists' s i.path = true then .error (.alreadyExists i.fullName)
    else if i.previous.isSome && i.previousName ∉ s.registry.workflows.keys then .error (.notFound i.previousName)
    else
      .ok {
        mutations :=
          [.write i.path (format.saveToYaml body), .mark (.ids (persistTombstones s i))] ++
            if i.previousPath ≠ i.path then [.remove i.previousPath] else []
        publishRegistry := fun r =>
          { r with
            workflows :=
              (if i.previousName ≠ i.fullName then r.workflows.pop i.previousName else r.workflows).set i.fullName
                ⟨body, some i.fullName⟩
            deletedPresetWorkflowIds := persistTombstones s i } }

def persistBuilder (path : WorkflowPath) (body : β) (previousGroupId previousWorkflowId : Option Text)
    (createOnly : Bool) (commit : Commit) : Except RegistryError Unit × State β χ :=
  execute s (persistPlan format s (identify path previousGroupId previousWorkflowId) body createOnly) commit

def deleteTombstones (path : WorkflowPath) : Finset Text :=
  if workflowName path ∈ s.registry.presetWorkflowIds then
    insert (workflowName path) s.registry.deletedPresetWorkflowIds
  else s.registry.deletedPresetWorkflowIds

def deletePlan (path : WorkflowPath) : Except RegistryError (Plan β χ) :=
  if workflowName path ∉ s.registry.workflows.keys then .error (.notFound (workflowName path))
  else
    match resolveWorkflowPath path with
    | .error e => .error e
    | .ok _ =>
      .ok {
        mutations := [.remove path, .mark (.ids (deleteTombstones s path))]
        publishRegistry := fun r =>
          { r with
            workflows := r.workflows.pop (workflowName path)
            deletedPresetWorkflowIds := deleteTombstones s path } }

def deletePersisted (path : WorkflowPath) (commit : Commit) : Except RegistryError Unit × State β χ :=
  execute s (deletePlan s path) commit

end Operations

/-- A copy that fails may leave part of the file; each mark goes by itself. -/
structure LoadFaults (χ : Type) where
  copyFails : WorkflowPath → Option (Option χ)
  writes : Text → Commit

def calm : LoadFaults χ := ⟨fun _ => none, fun _ => .done⟩

variable (format : BuilderFormat β χ) (faults : LoadFaults χ)

def Storage.put (s : Storage χ) (path : WorkflowPath) (content : χ) : Storage χ :=
  { s with files := { s.files with workflows := s.files.workflows.set path content } }

/-- Copy a preset that comes with the program, unless it was deleted or its file is there. -/
def extractPreset (s : State β χ) (preset : WorkflowPath × χ) : State β χ :=
  let fullName := workflowName preset.1
  let known := { s.registry with presetWorkflowIds := insert fullName s.registry.presetWorkflowIds }
  if fullName ∈ s.registry.deletedPresetWorkflowIds then ⟨known, s.storage⟩
  else if preset.1 ∈ s.storage.files.workflows.keys then ⟨known, s.storage⟩
  else
    match faults.copyFails preset.1 with
    | none => ⟨known, s.storage.put preset.1 preset.2⟩
    | some none => ⟨known, s.storage⟩
    | some (some part) => ⟨known, s.storage.put preset.1 part⟩

/-- A deleted workflow with a file loses its mark first; if that raises, it is not registered. -/
def registerLoaded (s : State β χ) (fullName : Text) (body : β) : State β χ :=
  let marks := s.registry.deletedPresetWorkflowIds
  let registered := s.registry.workflows.set fullName ⟨body, some fullName⟩
  if fullName ∈ marks then
    let storage := transact s.storage [.mark (.ids (marks.erase fullName))] (faults.writes fullName)
    if (faults.writes fullName).returns then
      ⟨{ s.registry with workflows := registered, deletedPresetWorkflowIds := marks.erase fullName }, storage⟩
    else ⟨s.registry, storage⟩
  else ⟨{ s.registry with workflows := registered }, s.storage⟩

def loadFile (s : State β χ) (file : WorkflowPath × χ) : State β χ :=
  match format.loadFromYaml file.2 with
  | none => s
  | some body => registerLoaded faults s (workflowName file.1) body

def loadWorkflows (bundled : List (WorkflowPath × χ)) (s : State β χ) : State β χ :=
  let recovered := recoverDirectory s.storage
  let marked : State β χ := ⟨s.registry.loadPresetTombstones recovered.files.tombstones, recovered⟩
  let extracted := bundled.foldl (extractPreset faults) marked
  extracted.storage.files.workflows.entries.foldl (loadFile format faults) extracted

end Kirara.WorkflowRegistries
