import Kirara.Channels

namespace Kirara.Workflows

open Kirara.Channels

/-- A `dict` of ports, in the order of its keys. -/
structure Ports (α : Type) where
  entries : List (Text × α)
  distinct : (entries.map Prod.fst).Nodup

def Ports.names {α : Type} (p : Ports α) : List Text := p.entries.map Prod.fst

def Ports.lookup {α : Type} (p : Ports α) (name : Text) : Option α :=
  (p.entries.find? (fun e => e.1 = name)).map Prod.snd

def Ports.none {α : Type} : Ports α := ⟨[], List.nodup_nil⟩

structure Input (θ : Type) where
  dataType : θ
  nullable : Bool

inductive BlockKind where
  | normal
  | condition
  | loop
  | loopEnd
  deriving DecidableEq, Repr

structure Block (θ : Type) where
  name : Text
  kind : BlockKind
  inputs : Ports (Input θ)
  outputs : Ports θ

structure Wire (β : Type) where
  sourceBlock : β
  sourceOutput : Text
  targetBlock : β
  targetInput : Text

/-- Wires and the execution graph compare blocks by identity, the results by name. -/
structure Workflow (β θ : Type) where
  block : β → Block θ
  blocks : List β
  wires : List (Wire β)

inductive Failure where
  | blockExecutionFailed
  | typeError
  | keyError
  | indexError
  | raised
  deriving DecidableEq, Repr

variable {β θ υ : Type} [DecidableEq β]

/-- The check of one wire in `_build_execution_graph`. -/
def checkWire (compatible : θ → θ → Bool) (w : Workflow β θ) (wire : Wire β) :
    Except Failure Unit :=
  match (w.block wire.sourceBlock).outputs.lookup wire.sourceOutput,
    (w.block wire.targetBlock).inputs.lookup wire.targetInput with
  | some sourceType, some input =>
    if compatible sourceType input.dataType then .ok () else .error .typeError
  | _, _ => .error .keyError

def buildExecutionGraph (compatible : θ → θ → Bool) (w : Workflow β θ) : Except Failure Unit :=
  w.wires.forM (checkWire compatible w)

def executionGraph (w : Workflow β θ) (b : β) : List β :=
  (w.wires.filter (fun wire => wire.sourceBlock = b)).map Wire.targetBlock

/-- An executor whose constructor has accepted the workflow. -/
structure WorkflowExecutor (β θ : Type) [DecidableEq β] where
  compatible : θ → θ → Bool
  workflow : Workflow β θ
  built : buildExecutionGraph compatible workflow = .ok ()

/-- What a block has returned, as a `dict`. -/
abbrev Outputs (υ : Type) := Text → Option υ

inductive Event (β υ : Type) where
  | executed (b : β) (inputs : List (Text × υ)) (outputs : Outputs υ)
  | branched (b target : β)

/-- It may depend on everything that has been executed before. -/
structure Behaviour (β υ : Type) where
  execute : List (Event β υ) → β → List (Text × υ) → Except Failure (Outputs υ)
  truthy : υ → Bool

/-- `results` of the executor, and what has happened so far, the latest first. -/
structure State (β υ : Type) where
  results : Text → Option (Outputs υ)
  log : List (Event β υ)

/-- A run that goes on has no failure; without fuel there is no outcome. -/
abbrev Outcome (β υ : Type) := Option (Option Failure × State β υ)

def record (w : Workflow β θ) (b : β) (inputs : List (Text × υ)) (outputs : Outputs υ)
    (s : State β υ) : State β υ where
  results := Function.update s.results (w.block b).name (some outputs)
  log := .executed b inputs outputs :: s.log

def branch (b target : β) (s : State β υ) : State β υ :=
  { s with log := .branched b target :: s.log }

def wiresInto (w : Workflow β θ) (b : β) : List (Wire β) :=
  w.wires.filter (fun wire => wire.targetBlock = b)

/-- The value on a wire whose source has been executed and has given it. -/
def carried (w : Workflow β θ) (results : Text → Option (Outputs υ)) (wire : Wire β) : Option υ :=
  (results (w.block wire.sourceBlock).name).bind (fun outputs => outputs wire.sourceOutput)

def inputSatisfied (w : Workflow β θ) (results : Text → Option (Outputs υ)) (b : β)
    (name : Text) : Bool :=
  (wiresInto w b).any (fun wire => wire.targetInput = name && (carried w results wire).isSome)

def canExecute (w : Workflow β θ) (results : Text → Option (Outputs υ)) (b : β) : Bool :=
  (results (w.block b).name).isNone &&
  (wiresInto w b).all (fun wire => (results (w.block wire.sourceBlock).name).isSome) &&
  (w.block b).inputs.entries.all (fun e => inputSatisfied w results b e.1 || e.2.nullable)

/-- The entry of `input_wire_map`: the last wire into the port. -/
def inputWire (w : Workflow β θ) (b : β) (name : Text) : Option (Wire β) :=
  ((wiresInto w b).filter (fun wire => wire.targetInput = name)).getLast?

def gather (w : Workflow β θ) (results : Text → Option (Outputs υ)) (b : β) :
    List (Text × Input θ) → Option (List (Text × υ))
  | [] => some []
  | (name, input) :: rest =>
    match inputWire w b name with
    | some wire =>
      (carried w results wire).bind (fun v => (gather w results b rest).map ((name, v) :: ·))
    | none => if input.nullable then gather w results b rest else none

/-- `none` stands for the `BlockExecutionFailedException` of a missing value. -/
def gatherInputs (w : Workflow β θ) (results : Text → Option (Outputs υ)) (b : β) :
    Option (List (Text × υ)) :=
  gather w results b (w.block b).inputs.entries

def sequence (f : β → State β υ → Outcome β υ) : List β → State β υ → Outcome β υ
  | [], s => some (none, s)
  | b :: bs, s =>
    match f b s with
    | some (none, t) => sequence f bs t
    | outcome => outcome

/-- What escapes from the blocks after an ordinary one is a `BlockExecutionFailedException`. -/
def wrap : Outcome β υ → Outcome β υ
  | some (some _, s) => some (some .blockExecutionFailed, s)
  | outcome => outcome

/-- Only positional arguments are forwarded: a keyword argument is a `TypeError`. -/
def runInExecutor (env : Behaviour β υ) (log : List (Event β υ)) (b : β)
    (inputs : List (Text × υ)) : Except Failure (Outputs υ) :=
  if inputs.isEmpty then env.execute log b [] else .error .typeError

section Blocks

variable (w : Workflow β θ) (env : Behaviour β υ) (executeNodes : List β → State β υ → Outcome β υ)

def executeNormalBlock (b : β) (s : State β υ) : Outcome β υ :=
  if canExecute w s.results b then
    match gatherInputs w s.results b with
    | none => some (some .blockExecutionFailed, s)
    | some inputs =>
      match env.execute s.log b inputs with
      | .error _ => some (some .blockExecutionFailed, s)
      | .ok outputs => wrap (executeNodes (executionGraph w b) (record w b inputs outputs s))
  else some (none, s)

/-- The first target where its result counts as true, else the second one. -/
def takeBranch (b : β) (condition : Bool) (s : State β υ) : Outcome β υ :=
  match condition, executionGraph w b with
  | true, target :: _ => executeNodes [target] (branch b target s)
  | true, [] => some (some .indexError, s)
  | false, _ :: target :: _ => executeNodes [target] (branch b target s)
  | false, _ => some (none, s)

def conditionResult : Text := "condition_result".toList

def shouldContinue : Text := "should_continue".toList

def executeConditionalBranch (b : β) (s : State β υ) : Outcome β υ :=
  match gatherInputs w s.results b with
  | none => some (some .blockExecutionFailed, s)
  | some inputs =>
    match runInExecutor env s.log b inputs with
    | .error e => some (some e, s)
    | .ok outputs =>
      match outputs conditionResult with
      | none => some (some .keyError, record w b inputs outputs s)
      | some v => takeBranch w executeNodes b (env.truthy v) (record w b inputs outputs s)

def executeLoop (again : State β υ → Outcome β υ) (b : β) (s : State β υ) : Outcome β υ :=
  match gatherInputs w s.results b with
  | none => some (some .blockExecutionFailed, s)
  | some inputs =>
    match runInExecutor env s.log b inputs with
    | .error e => some (some e, s)
    | .ok outputs =>
      let s := record w b inputs outputs s
      match outputs shouldContinue with
      | none => some (some .keyError, s)
      | some v =>
        if env.truthy v then
          match executionGraph w b with
          | [] => some (some .indexError, s)
          | loopBody :: _ =>
            match executeNodes [loopBody] s with
            | some (none, t) => again t
            | outcome => outcome
        else some (none, s)

end Blocks

/-- The dispatch of `_execute_nodes` on one block. -/
def executeBlock (w : Workflow β θ) (env : Behaviour β υ) : Nat → β → State β υ → Outcome β υ
  | 0, _, _ => none
  | n + 1, b, s =>
    match (w.block b).kind with
    | .condition => executeConditionalBranch w env (sequence (executeBlock w env n)) b s
    | .loop => executeLoop w env (sequence (executeBlock w env n)) (executeBlock w env n b) b s
    | _ => executeNormalBlock w env (sequence (executeBlock w env n)) b s

def executeNodes (w : Workflow β θ) (env : Behaviour β υ) (n : Nat) (bs : List β)
    (s : State β υ) : Outcome β υ :=
  sequence (executeBlock w env n) bs s

def entryBlocks (w : Workflow β θ) : List β :=
  w.blocks.filter (fun b => (w.block b).inputs.entries.isEmpty)

def State.initial : State β υ := ⟨fun _ => none, []⟩

/-- `run`, without its time limit; the fuel bounds how deep blocks start one another. -/
def run (x : WorkflowExecutor β θ) (env : Behaviour β υ) (n : Nat) : Outcome β υ :=
  executeNodes x.workflow env n (entryBlocks x.workflow) State.initial

end Kirara.Workflows
