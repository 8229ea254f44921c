import Kirara.Dicts
import Kirara.Workflows

namespace Kirara.WorkflowBuilders

open Kirara.Channels Kirara.Dicts
open Kirara.Workflows (Ports)

variable {κ θ ν χ : Type}

/-- A class of blocks, of the program or a plugin, or one that controls the flow. -/
inductive BlockClass (κ : Type) where
  | ordinary (c : κ)
  | condition
  | loop
  | loopEnd
  deriving DecidableEq

abbrev Kwargs (ν : Type) := Dict Text ν

/-- `sources` is what a value gives as `wire_from`, if it can be iterated. -/
structure Blocks (κ θ ν : Type) where
  inputs : κ → Ports θ
  outputs : κ → Ports θ
  className : κ → Text
  accepts : κ → Kwargs ν → Bool
  bool : θ
  dict : θ
  list : θ
  text : Text → ν
  ports : Ports θ → ν
  sources : ν → Option (List Text)

section Classes

variable (blocks : Blocks κ θ ν)

def inputs : BlockClass κ → Ports θ
  | .ordinary c => blocks.inputs c
  | .condition | .loop | .loopEnd => Ports.none

def outputs : BlockClass κ → Ports θ
  | .ordinary c => blocks.outputs c
  | .condition => ⟨[("condition_result".toList, blocks.bool)], List.nodup_singleton _⟩
  | .loop => ⟨[("should_continue".toList, blocks.bool), ("iteration".toList, blocks.dict)], by
      simp⟩
  | .loopEnd => ⟨[("loop_results".toList, blocks.list)], List.nodup_singleton _⟩

def className : BlockClass κ → Text
  | .ordinary c => blocks.className c
  | .condition => "ConditionBlock".toList
  | .loop => "LoopBlock".toList
  | .loopEnd => "LoopEndBlock".toList

def takes (required optional : List Text) (kwargs : Kwargs ν) : Bool :=
  required.all (fun k => k ∈ kwargs.keys) && kwargs.keys.all (fun k => k ∈ required ++ optional)

def accepts (kwargs : Kwargs ν) : BlockClass κ → Bool
  | .ordinary c => blocks.accepts c kwargs
  | .condition => takes ["condition_func".toList, "inputs".toList] [] kwargs
  | .loop => takes ["condition_func".toList, "inputs".toList] ["iteration_var".toList] kwargs
  | .loopEnd => takes ["inputs".toList] [] kwargs

end Classes

structure BlockSpec (κ ν : Type) where
  blockClass : BlockClass κ
  name : Option Text
  kwargs : Kwargs ν
  wireFrom : Option (List Text)

/-- Nodes refer to each other by their place in the list of all nodes. -/
structure Node (κ ν : Type) where
  blockClass : BlockClass κ
  kwargs : Kwargs ν
  name : Text
  isParallel : Bool
  isConditional : Bool
  isLoop : Bool
  parent : Option ℕ
  position : Option (Dict Text ℤ)

structure WireSpec where
  sourceName : Text
  sourceOutput : Text
  targetName : Text
  targetInput : Text
  deriving DecidableEq

structure WorkflowConfig where
  maxExecutionTime : ℤ
  deriving DecidableEq

structure WorkflowBuilder (κ ν : Type) where
  name : Text
  description : Text
  metadata : Option (Dict Text ν)
  head : Option ℕ
  current : Option ℕ
  nodes : List (Node κ ν)
  nodesByName : Dict Text ℕ
  wireSpecs : List WireSpec
  config : WorkflowConfig

def WorkflowBuilder.new (name : Text) : WorkflowBuilder κ ν :=
  ⟨name, [], none, none, none, [], .empty, [], ⟨3600⟩⟩

inductive BuilderError where
  | typeError
  | keyError
  | indexError
  | elseThen
  | endIf
  | endLoop
  | createBlock (className : Text)
  | unknownType (typeName : Text)
  | unreadable
  deriving DecidableEq

section Wiring

variable [DecidableEq θ] (blocks : Blocks κ θ ν) (b : WorkflowBuilder κ ν)

def getAvailableInputs (name : Text) (cls : BlockClass κ) : List (Text × θ) :=
  (inputs blocks cls).entries.filter
    (fun input => !(b.wireSpecs.any (fun wire => wire.targetName = name && wire.targetInput = input.1)))

def findMatchingPorts : List (Text × θ) → List (Text × θ) → List (Text × Text)
  | [], _ => []
  | output :: rest, inputs =>
    match inputs.find? (fun input => input.2 = output.2) with
    | none => findMatchingPorts rest inputs
    | some input => (output.1, input.1) :: findMatchingPorts rest (inputs.filter (fun i => i.1 ≠ input.1))

def storeWireSpec (sourceName targetName : Text) (sourceNode targetNode : Node κ ν) : WorkflowBuilder κ ν :=
  let available := getAvailableInputs blocks b targetNode.name targetNode.blockClass
  let found := findMatchingPorts (outputs blocks sourceNode.blockClass).entries available
  { b with wireSpecs := b.wireSpecs ++ found.map (fun m => ⟨sourceName, m.1, targetName, m.2⟩) }

def node? (name : Text) : Option (Node κ ν) := (b.nodesByName.get name).bind (fun i => b.nodes[i]?)

def current? : Option (Node κ ν) := b.current.bind (fun i => b.nodes[i]?)

def addNode (node : Node κ ν) : WorkflowBuilder κ ν :=
  { b with
    nodes := b.nodes ++ [node]
    nodesByName := b.nodesByName.set node.name b.nodes.length }

def nameOr (name : Option Text) (base draw : Text) : Text :=
  match name with
  | none => base ++ '_' :: draw
  | some n => if n = [] then base ++ '_' :: draw else n

def wireNode (node : Node κ ν) : Option (List Text) → WorkflowBuilder κ ν
  | some (source :: sources) =>
    (source :: sources).foldl (fun b name =>
      match node? b name with
      | none => b
      | some sourceNode => storeWireSpec blocks b sourceNode.name node.name sourceNode node) b
  | some [] | none =>
    match current? b with
    | none => b
    | some currentNode => storeWireSpec blocks b currentNode.name node.name currentNode node

/-- The parent is that of the calls: none for `use`, else the current node. -/
def createNode (spec : BlockSpec κ ν) (draw : Text) (isParallel : Bool) (parent : Option ℕ) : WorkflowBuilder κ ν :=
  let node : Node κ ν := {
    blockClass := spec.blockClass, kwargs := spec.kwargs
    name := nameOr spec.name (className blocks spec.blockClass) draw
    isParallel := isParallel, isConditional := false, isLoop := false, parent := parent, position := none }
  wireNode blocks (addNode b node) node spec.wireFrom

def clashes (parameters : List Text) (kwargs : Kwargs ν) : Bool := kwargs.keys.any (fun k => k ∈ parameters)

def reserved : List Text := ["self".toList, "block_class".toList, "name".toList]

def wireFromKey : Text := "wire_from".toList

def use (cls : BlockClass κ) (name : Option Text) (kwargs : Kwargs ν) (draw : Text) :
    Except BuilderError (WorkflowBuilder κ ν) :=
  if clashes reserved kwargs then .error .typeError
  else
    let place := b.nodes.length
    let added := createNode blocks b ⟨cls, name, kwargs, none⟩ draw false none
    .ok { added with head := some place, current := some place }

/-- A `wire_from` among the keyword arguments is taken for the parameter. -/
def chain (cls : BlockClass κ) (name : Option Text) (kwargs : Kwargs ν) (draw : Text) :
    Except BuilderError (WorkflowBuilder κ ν) :=
  if clashes reserved kwargs then .error .typeError
  else
    let place := b.nodes.length
    let spec (wireFrom : Option (List Text)) : BlockSpec κ ν := ⟨cls, name, kwargs.pop wireFromKey, wireFrom⟩
    match kwargs.get wireFromKey with
    | none => .ok { createNode blocks b (spec none) draw false b.current with current := some place }
    | some value =>
      match blocks.sources value with
      | none => .error .typeError
      | some sources => .ok { createNode blocks b (spec (some sources)) draw false b.current with current := some place }

def parallel (specs : List (BlockSpec κ ν × Text)) : Except BuilderError (WorkflowBuilder κ ν) :=
  match specs with
  | [] => .error .indexError
  | _ :: _ =>
    let place := b.nodes.length
    let added := specs.foldl (fun added spec => createNode blocks added spec.1 spec.2 true b.current) b
    .ok { added with current := some place }

/-- A node of `if_then` or `loop`; its wire goes to a node of the name "output". -/
def addControl (cls : BlockClass κ) (kwargs : Kwargs ν) (name : Text) (isConditional isLoop : Bool) : WorkflowBuilder κ ν :=
  let node : Node κ ν := ⟨cls, kwargs, name, false, isConditional, isLoop, b.current, none⟩
  let place := b.nodes.length
  let wired :=
    match current? b with
    | none => addNode b node
    | some currentNode => storeWireSpec blocks (addNode b node) currentNode.name "output".toList currentNode node
  { wired with current := some place }

def ifThen (condition : ν) (name : Option Text) (draw : Text) : WorkflowBuilder κ ν :=
  let kwargs := (Dict.empty.set "condition".toList condition).set "outputs".toList (blocks.ports Ports.none)
  addControl blocks b .condition kwargs (nameOr name "condition".toList draw) true false

def loop (condition : ν) (name : Option Text) (iterationVar draw : Text) : WorkflowBuilder κ ν :=
  let kwargs := ((Dict.empty.set "condition".toList condition).set "outputs".toList (blocks.ports Ports.none)).set
    "iteration_var".toList (blocks.text iterationVar)
  addControl blocks b .loop kwargs (nameOr name "loop".toList draw) false true

def elseThen : Except BuilderError (WorkflowBuilder κ ν) :=
  match current? b with
  | none => .error .elseThen
  | some node => if node.isConditional then .ok { b with current := node.parent } else .error .elseThen

/-- No node has a merge point, so the current one stays. -/
def endIf : Except BuilderError (WorkflowBuilder κ ν) :=
  match current? b with
  | none => .error .endIf
  | some node => if node.isConditional then .ok b else .error .endIf

def ancestors : ℕ → Node κ ν → List (Node κ ν)
  | 0, _ => []
  | fuel + 1, node =>
    match node.parent.bind (fun i => b.nodes[i]?) with
    | none => []
    | some parent => parent :: ancestors fuel parent

def endLoop (draw : Text) : Except BuilderError (WorkflowBuilder κ ν) :=
  match current? b with
  | none => .error .endLoop
  | some currentNode =>
    match (ancestors b b.nodes.length currentNode).find? Node.isLoop with
    | none => .error .endLoop
    | some loopStart =>
      let name := nameOr none "loop_end".toList draw
      let node : Node κ ν :=
        ⟨.loopEnd, Dict.empty.set "outputs".toList (blocks.ports Ports.none), name, false, false, false, b.current, none⟩
      let place := b.nodes.length
      let first := storeWireSpec blocks (addNode b node) currentNode.name "output".toList currentNode node
      .ok { storeWireSpec blocks first node.name "output".toList loopStart node with current := some place }

def updatePosition (name : Text) (position : Dict Text ℤ) : Except BuilderError (WorkflowBuilder κ ν) :=
  match b.nodesByName.get name with
  | none => .error .keyError
  | some place => .ok { b with nodes := b.nodes.modify place (fun node => { node with position := some position }) }

def forceConnect (wire : WireSpec) : WorkflowBuilder κ ν := { b with wireSpecs := b.wireSpecs ++ [wire] }

end Wiring

section Building

variable (blocks : Blocks κ θ ν) (b : WorkflowBuilder κ ν)

structure Block (κ ν : Type) where
  blockClass : BlockClass κ
  kwargs : Kwargs ν
  name : Text

structure Workflow (κ ν : Type) where
  name : Text
  blocks : List (Block κ ν)
  wires : List WireSpec
  config : WorkflowConfig

/-- A condition or a loop is told what the block before it gives. -/
def buildKwargs (node : Node κ ν) : Kwargs ν :=
  if node.isConditional || node.isLoop then
    match node.parent.bind (fun i => b.nodes[i]?) with
    | none => node.kwargs
    | some parent => node.kwargs.set "outputs".toList (blocks.ports (outputs blocks parent.blockClass))
  else node.kwargs

def buildBlock (node : Node κ ν) : Except BuilderError (Block κ ν) :=
  let kwargs := buildKwargs blocks b node
  if accepts blocks kwargs node.blockClass then .ok ⟨node.blockClass, kwargs, node.name⟩
  else .error (.createBlock (className blocks node.blockClass))

def joined : List WireSpec :=
  b.wireSpecs.filter (fun wire => wire.sourceName ∈ b.nodes.map Node.name && wire.targetName ∈ b.nodes.map Node.name)

def build : Except BuilderError (Workflow κ ν) :=
  match b.nodes.mapM (buildBlock blocks b) with
  | .error e => .error e
  | .ok built => .ok ⟨b.name, built, joined b, b.config⟩

end Building

structure Connection where
  target : Text
  fromOutput : Text
  toInput : Text

structure BlockData (ν : Type) where
  type : Text
  name : Text
  params : Kwargs ν
  position : Option (Dict Text ℤ)
  parallel : Bool
  connectedTo : List Connection

structure WorkflowData (ν : Type) where
  name : Text
  description : Text
  blocks : List (BlockData ν)
  config : WorkflowConfig
  metadata : Option (Dict Text ν)

def Kept (kept : ν → Prop) (d : WorkflowData ν) : Prop :=
  (∀ block ∈ d.blocks, ∀ v ∈ block.params.values, kept v) ∧ ∀ m, d.metadata = some m → ∀ v ∈ m.values, kept v

/-- The YAML library, which reads data only, and the same as it writes. -/
structure Yaml (ν χ : Type) where
  kept : ν → Prop
  dump : WorkflowData ν → Option χ
  load : χ → Option (WorkflowData ν)
  reloads : ∀ d, Kept kept d → ∃ f, dump d = some f ∧ load f = some d
  loads : ∀ f d, load f = some d → Kept kept d

/-- The classes that are registered under names, and those that can be imported. -/
structure BlockRegistry (κ : Type) where
  blocks : Dict Text (BlockClass κ)
  classPath : BlockClass κ → Text
  importClass : Text → Option (BlockClass κ)

variable [DecidableEq κ] [DecidableEq θ] (blocks : Blocks κ θ ν) (registry : BlockRegistry κ) (yaml : Yaml ν χ)
  (b : WorkflowBuilder κ ν)

def getBlockTypeName (cls : BlockClass κ) : Text :=
  match registry.blocks.entries.find? (fun e => e.2 = cls) with
  | some e => e.1
  | none => '!' :: '!' :: registry.classPath cls

def getBlockClass : Text → Option (BlockClass κ)
  | '!' :: '!' :: path => registry.importClass path
  | typeName => registry.blocks.get typeName

def serializeNode (node : Node κ ν) : BlockData ν where
  type := getBlockTypeName registry node.blockClass
  name := node.name
  params := node.kwargs
  position := node.position
  parallel := node.isParallel
  connectedTo := (b.wireSpecs.filter (fun wire => wire.sourceName = node.name)).filterMap fun wire =>
    (node? b wire.targetName).map fun target => ⟨target.name, wire.sourceOutput, wire.targetInput⟩

def workflowData : WorkflowData ν where
  name := b.name
  description := b.description
  blocks := (b.nodesByName.values.filterMap (fun i => b.nodes[i]?)).map (serializeNode registry b)
  config := b.config
  metadata := b.metadata

def saveToYaml : Option χ := yaml.dump (workflowData registry b)

def loadPosition (data : BlockData ν) : Except BuilderError (WorkflowBuilder κ ν) :=
  match data.position with
  | none => .ok b
  | some position => if position.entries = [] then .ok b else updatePosition b data.name position

def loadBlock (data : BlockData ν) : Except BuilderError (WorkflowBuilder κ ν) :=
  match getBlockClass registry data.type with
  | none => .error (.unknownType data.type)
  | some cls =>
    let added :=
      if data.parallel then parallel blocks b [(⟨cls, some data.name, data.params, none⟩, [])]
      else if b.head.isNone then use blocks b cls (some data.name) data.params []
      else chain blocks b cls (some data.name) data.params []
    added.bind (fun b => loadPosition b data)

def loadConnection (source : Text) (b : WorkflowBuilder κ ν) (connection : Connection) :
    Except BuilderError (WorkflowBuilder κ ν) :=
  match node? b source, node? b connection.target with
  | some sourceNode, some targetNode =>
    .ok (forceConnect b ⟨sourceNode.name, connection.fromOutput, targetNode.name, connection.toInput⟩)
  | _, _ => .error .keyError

def loadConnections (b : WorkflowBuilder κ ν) (data : BlockData ν) : Except BuilderError (WorkflowBuilder κ ν) :=
  data.connectedTo.foldlM (loadConnection data.name) b

/-- All the blocks are made first, and wired anew. -/
def loadData (d : WorkflowData ν) : Except BuilderError (WorkflowBuilder κ ν) :=
  let empty := { (WorkflowBuilder.new d.name : WorkflowBuilder κ ν) with
    config := d.config, description := d.description, metadata := d.metadata }
  (d.blocks.foldlM (loadBlock blocks registry) empty).bind fun made =>
    d.blocks.foldlM loadConnections { made with wireSpecs := [] }

def loadFromYaml (file : χ) : Except BuilderError (WorkflowBuilder κ ν) :=
  match yaml.load file with
  | none => .error .unreadable
  | some d => loadData blocks registry d

end Kirara.WorkflowBuilders
