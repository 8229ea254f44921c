import Kirara.DepthFirst
import Kirara.Workflows
import Mathlib.Data.List.Sort

namespace Kirara.WorkflowValidation

open Kirara.Channels Kirara.Workflows Kirara.DepthFirst Kirara.Worklists

/-- A value of a deserialised definition, as far as its ports can be read. -/
inductive Value where
  | text (t : Text)
  | items (vs : List Value)
  | dict (entries : List (Text × Value))
  | other

def Value.get : Value → Text → Option Value
  | .dict entries, key => (entries.find? (fun e => e.1 = key)).map Prod.snd
  | _, _ => none

structure BlockDefinition where
  name : Text
  typeName : Text
  config : Option Value
  params : Option Value

structure WireDefinition where
  sourceBlock : Text
  sourceOutput : Text
  targetBlock : Text
  targetInput : Text

structure WorkflowDefinition where
  blocks : List BlockDefinition
  wires : List WireDefinition

/-- Instances have the ports of their class, unless they declare their own. -/
structure BlockClass (θ : Type) where
  kind : BlockKind
  declaresPorts : Bool
  inputs : Ports (Input θ)
  outputs : Ports θ

structure BlockRegistry (θ : Type) where
  get : Text → Option (BlockClass θ)
  typeName : θ → Text
  isTypeCompatible : Text → Text → Bool

inductive Severity where
  | error
  | warning
  deriving DecidableEq, Repr

inductive IssueCode where
  | duplicateNodeName
  | unknownBlockType
  | unknownSourceNode
  | unknownTargetNode
  | unknownOutputPort
  | unknownInputPort
  | multipleWiresForInput
  | incompatibleWireType
  | missingRequiredInput
  | noEntryNode
  | unreachableNode
  | controlledCycle
  | unsafeCycle
  | cycleScanDepthExceeded
  deriving DecidableEq, Repr

def IssueCode.ofWire : IssueCode → Bool
  | .unknownSourceNode | .unknownTargetNode | .unknownOutputPort | .unknownInputPort
  | .multipleWiresForInput | .incompatibleWireType => true
  | _ => false

def IssueCode.ofCycle : IssueCode → Bool
  | .unsafeCycle | .controlledCycle => true
  | _ => false

structure Issue where
  severity : Severity
  code : IssueCode
  message : Text
  nodeName : Option Text
  portName : Option Text
  deriving DecidableEq

def maxCycleScanDepth : Nat := 10000

def portName : Value → Option Text
  | .dict entries =>
    match (Value.dict entries).get "name".toList with
    | some (.text t) => some t
    | _ => none
  | _ => none

/-- The ports a node declares itself, in its `config` or else in its `params`. -/
def dynamicPortNames (block : BlockDefinition) (kind : Text) : List Text :=
  match block.config.or block.params with
  | some (.dict entries) =>
    match (Value.dict entries).get kind with
    | some (.items ports) => (ports.filterMap portName).dedup
    | _ => []
  | _ => []

theorem dynamicPortNames_nodup (block : BlockDefinition) (kind : Text) :
    (dynamicPortNames block kind).Nodup := by
  unfold dynamicPortNames
  split
  · split
    · exact List.nodup_dedup _
    · exact List.nodup_nil
  · exact List.nodup_nil

def inputsKey : Text := "inputs".toList

def outputsKey : Text := "outputs".toList

variable {θ : Type} (registry : BlockRegistry θ) (d : WorkflowDefinition)

/-- `blocks_by_name`: the first block of a name counts. -/
def findBlock (name : Text) : Option BlockDefinition :=
  d.blocks.find? (fun block => block.name = name)

/-- `block_classes`: under each name the first class that is known. -/
def blockClasses : List BlockDefinition → List (Text × BlockClass θ) → List (Text × BlockClass θ)
  | [], known => known
  | block :: blocks, known =>
    match registry.get block.typeName with
    | none => blockClasses blocks known
    | some cls =>
      if block.name ∈ known.map Prod.fst then blockClasses blocks known
      else blockClasses blocks (known ++ [(block.name, cls)])

def classes : List (Text × BlockClass θ) := blockClasses registry d.blocks []

def findClass (name : Text) : Option (BlockClass θ) :=
  ((classes registry d).find? (fun e => e.1 = name)).map Prod.snd

def blockIssues (block : BlockDefinition) : List Issue :=
  (if 1 < (d.blocks.map BlockDefinition.name).count block.name then
    [⟨.error, .duplicateNodeName, "节点名称「".toList ++ block.name ++
      "」重复；每个节点必须唯一".toList, some block.name, none⟩] else []) ++
  (if (registry.get block.typeName).isNone then
    [⟨.error, .unknownBlockType, "节点「".toList ++ block.name ++
      "」使用了未安装或未知的区块类型「".toList ++ block.typeName ++ "」".toList,
      some block.name, none⟩] else [])

def outputPortKnown (name port : Text) : Bool :=
  match findBlock d name, findClass registry d name with
  | some block, some cls =>
    port ∈ cls.outputs.names || port ∈ dynamicPortNames block outputsKey
  | _, _ => false

def inputPortKnown (name port : Text) : Bool :=
  match findBlock d name, findClass registry d name with
  | some block, some cls =>
    port ∈ cls.inputs.names || port ∈ dynamicPortNames block inputsKey
  | _, _ => false

def wireTypes (wire : WireDefinition) : Option (Text × Text) :=
  match (findClass registry d wire.sourceBlock).bind (fun c => c.outputs.lookup wire.sourceOutput),
    (findClass registry d wire.targetBlock).bind (fun c => c.inputs.lookup wire.targetInput) with
  | some sourceType, some input =>
    some (registry.typeName sourceType, registry.typeName input.dataType)
  | _, _ => none

def nodesKnown (wire : WireDefinition) : Bool :=
  (findBlock d wire.sourceBlock).isSome && (findBlock d wire.targetBlock).isSome &&
  (findClass registry d wire.sourceBlock).isSome && (findClass registry d wire.targetBlock).isSome

def portsKnown (wire : WireDefinition) : Bool :=
  nodesKnown registry d wire &&
  outputPortKnown registry d wire.sourceBlock wire.sourceOutput &&
  inputPortKnown registry d wire.targetBlock wire.targetInput

def typesCompatible (wire : WireDefinition) : Bool :=
  match wireTypes registry d wire with
  | some (sourceType, targetType) => registry.isTypeCompatible sourceType targetType
  | none => true

def validWires : List WireDefinition :=
  d.wires.filter (fun wire => portsKnown registry d wire && typesCompatible registry d wire)

def WireDefinition.inputKey (wire : WireDefinition) : Text × Text :=
  (wire.targetBlock, wire.targetInput)

def nodeIssues (wire : WireDefinition) : List Issue :=
  (if (findBlock d wire.sourceBlock).isNone then
    [⟨.error, .unknownSourceNode, "连线来源节点「".toList ++ wire.sourceBlock ++
      "」不存在".toList, some wire.sourceBlock, some wire.sourceOutput⟩] else []) ++
  (if (findBlock d wire.targetBlock).isNone then
    [⟨.error, .unknownTargetNode, "连线目标节点「".toList ++ wire.targetBlock ++
      "」不存在".toList, some wire.targetBlock, some wire.targetInput⟩] else [])

def portIssues (wire : WireDefinition) : List Issue :=
  (if outputPortKnown registry d wire.sourceBlock wire.sourceOutput then [] else
    [⟨.error, .unknownOutputPort, "节点「".toList ++ wire.sourceBlock ++
      "」没有输出端口「".toList ++ wire.sourceOutput ++ "」".toList,
      some wire.sourceBlock, some wire.sourceOutput⟩]) ++
  (if inputPortKnown registry d wire.targetBlock wire.targetInput then [] else
    [⟨.error, .unknownInputPort, "节点「".toList ++ wire.targetBlock ++
      "」没有输入端口「".toList ++ wire.targetInput ++ "」".toList,
      some wire.targetBlock, some wire.targetInput⟩])

def typeIssues (wire : WireDefinition) : List Issue :=
  match wireTypes registry d wire with
  | some (sourceType, targetType) =>
    if registry.isTypeCompatible sourceType targetType then [] else
    [⟨.error, .incompatibleWireType, "连线「".toList ++ wire.sourceBlock ++ ".".toList ++
      wire.sourceOutput ++ " → ".toList ++ wire.targetBlock ++ ".".toList ++
      wire.targetInput ++ "」类型不兼容（".toList ++ sourceType ++ " → ".toList ++ targetType ++
      "）".toList, some wire.targetBlock, some wire.targetInput⟩]
  | none => []

/-- The wires in order; `connected` are the inputs wired so far. -/
def wireIssues : List WireDefinition → List (Text × Text) → List Issue
  | [], _ => []
  | wire :: wires, connected =>
    nodeIssues d wire ++
    if nodesKnown registry d wire then
      portIssues registry d wire ++
      if portsKnown registry d wire then
        (if wire.inputKey ∈ connected then
          [⟨.error, .multipleWiresForInput, "输入端口「".toList ++ wire.targetBlock ++
            ".".toList ++ wire.targetInput ++ "」有多条连线；运行时只会保留其中一条".toList,
            some wire.targetBlock, some wire.targetInput⟩] else []) ++
        typeIssues registry d wire ++ wireIssues wires (wire.inputKey :: connected)
      else wireIssues wires connected
    else wireIssues wires connected

def missingInput (node port : Text) : Issue :=
  ⟨.error, .missingRequiredInput, "节点「".toList ++ node ++ "」的必需输入「".toList ++ port ++
    "」未连接".toList, some node, some port⟩

def inputWired (node port : Text) : Bool :=
  (validWires registry d).any (fun wire => wire.inputKey = (node, port))

def dynamicInputs (name : Text) : List Text :=
  ((findBlock d name).map (dynamicPortNames · inputsKey)).getD []

def sorted (names : List Text) : List Text := names.insertionSort (· ≤ ·)

def inputIssues (node : Text × BlockClass θ) : List Issue :=
  (node.2.inputs.entries.filter (fun e => !e.2.nullable && !inputWired registry d node.1 e.1)).map
      (fun e => missingInput node.1 e.1) ++
  ((sorted (dynamicInputs d node.1)).filter
    (fun port => !inputWired registry d node.1 port)).map (missingInput node.1)

def isEntry (node : Text × BlockClass θ) : Bool :=
  node.2.inputs.entries.isEmpty && (dynamicInputs d node.1).isEmpty &&
  !(validWires registry d).any (fun wire => wire.targetBlock = node.1)

def entryNames : List Text :=
  ((classes registry d).filter (isEntry registry d)).map Prod.fst

def entryIssues : List Issue :=
  if !(classes registry d).isEmpty && (entryNames registry d).isEmpty then
    [⟨.error, .noEntryNode, "没有可执行的入口节点：入口必须没有输入端口，也不能有前置连线".toList, none, none⟩] else []

/-- `sorted(adjacency[name])`. -/
def successors (name : Text) : List Text :=
  sorted (((validWires registry d).filter (fun wire => wire.sourceBlock = name)).map
    WireDefinition.targetBlock).dedup

def unreachableIssues (reachable : List Text) : List Issue :=
  if (entryNames registry d).isEmpty then [] else
  ((classes registry d).filter (fun node => node.1 ∉ reachable)).map (fun node =>
    ⟨.warning, .unreachableNode, "节点「".toList ++ node.1 ++
      "」不在任何入口节点的可达路径上，运行时不会执行".toList, some node.1, none⟩)

def controls (name : Text) : Bool :=
  match findClass registry d name with
  | some cls => cls.kind = .loop || cls.kind = .loopEnd
  | none => false

def arrows (names : List Text) : Text := (names.intersperse " → ".toList).flatten

def cycleIssue (cycle : List Text) : Issue :=
  if cycle.any (controls registry d) then
    ⟨.warning, .controlledCycle, "检测到包含循环控制块的环：".toList ++ arrows cycle, cycle.head?, none⟩
  else
    ⟨.error, .unsafeCycle, "检测到未受循环控制的环：".toList ++ arrows cycle, cycle.head?, none⟩

def depthIssue (name : Text) : Issue :=
  ⟨.warning, .cycleScanDepthExceeded, "工作流层级超过 10000 层，环检测已提前停止".toList, some name, none⟩

def cycleIssues : List (Finding Text) → List (List Text) → List Issue
  | [], _ => []
  | .tooDeep name :: rest, reported => depthIssue name :: cycleIssues rest reported
  | .cycle nodes :: rest, reported =>
    if sorted nodes ∈ reported then cycleIssues rest reported
    else cycleIssue registry d nodes :: cycleIssues rest (sorted nodes :: reported)

def nodeNames : List Text := (classes registry d).map Prod.fst

/-- `validate_workflow_definition`; the fuel bounds its two loops over the graph. -/
def validateWorkflowDefinition (n : Nat) : Option (List Issue) := do
  let entries := entryNames registry d
  let reachable ← reach (successors registry d) n entries entries.reverse
  let findings ← scan (successors registry d) maxCycleScanDepth n (nodeNames registry d)
  return d.blocks.flatMap (blockIssues registry d) ++ wireIssues registry d d.wires [] ++
    (classes registry d).flatMap (inputIssues registry d) ++ entryIssues registry d ++
    unreachableIssues registry d reachable ++ cycleIssues registry d findings []

variable {registry d}

theorem mem_successors {a b : Text} : b ∈ successors registry d a ↔
    ∃ wire ∈ validWires registry d, wire.sourceBlock = a ∧ wire.targetBlock = b := by
  unfold successors sorted
  rw [List.mem_insertionSort, List.mem_dedup, List.mem_map]
  simp only [List.mem_filter, decide_eq_true_eq, and_assoc]

variable {i : Issue}

theorem mem_missingInputs {node : Text × BlockClass θ}
    (h : i ∈ inputIssues registry d node) : i.code = .missingRequiredInput := by
  unfold inputIssues at h
  rw [List.mem_append, List.mem_map, List.mem_map] at h
  obtain ⟨e, _, rfl⟩ | ⟨port, _, rfl⟩ := h
  · rfl
  · rfl

theorem blockIssues_code {block : BlockDefinition} (h : i ∈ blockIssues registry d block) :
    i.code = .duplicateNodeName ∨ i.code = .unknownBlockType := by
  unfold blockIssues at h
  rw [List.mem_append] at h
  cases h with
  | inl h =>
    split at h
    · exact .inl (by rw [List.mem_singleton.mp h])
    · cases h
  | inr h =>
    split at h
    · exact .inr (by rw [List.mem_singleton.mp h])
    · cases h

variable {wire : WireDefinition}

theorem nodeIssues_code (h : i ∈ nodeIssues d wire) : i.code.ofWire = true := by
  unfold nodeIssues at h
  rw [List.mem_append] at h
  cases h with
  | inl h =>
    split at h
    · rw [List.mem_singleton.mp h]
      rfl
    · cases h
  | inr h =>
    split at h
    · rw [List.mem_singleton.mp h]
      rfl
    · cases h

theorem portIssues_code (h : i ∈ portIssues registry d wire) : i.code.ofWire = true := by
  unfold portIssues at h
  rw [List.mem_append] at h
  cases h with
  | inl h =>
    split at h
    · cases h
    · rw [List.mem_singleton.mp h]
      rfl
  | inr h =>
    split at h
    · cases h
    · rw [List.mem_singleton.mp h]
      rfl

theorem typeIssues_code (h : i ∈ typeIssues registry d wire) : i.code.ofWire = true := by
  unfold typeIssues at h
  split at h
  · split at h
    · cases h
    · rw [List.mem_singleton.mp h]
      rfl
  · cases h

theorem wireIssues_code {wires : List WireDefinition} {connected : List (Text × Text)}
    (h : i ∈ wireIssues registry d wires connected) : i.code.ofWire = true := by
  induction wires generalizing connected with
  | nil => cases h
  | cons wire wires ih =>
    unfold wireIssues at h
    rw [List.mem_append] at h
    cases h with
    | inl h => exact nodeIssues_code h
    | inr h =>
      split at h
      · rw [List.mem_append] at h
        cases h with
        | inl h => exact portIssues_code h
        | inr h =>
          split at h
          · rw [List.mem_append, List.mem_append] at h
            obtain (h | h) | h := h
            · split at h
              · rw [List.mem_singleton.mp h]
                rfl
              · cases h
            · exact typeIssues_code h
            · exact ih h
          · exact ih h
      · exact ih h

theorem entryIssues_code (h : i ∈ entryIssues registry d) : i.code = .noEntryNode := by
  unfold entryIssues at h
  split at h
  · rw [List.mem_singleton.mp h]
  · cases h

theorem unreachableIssues_code {reachable : List Text}
    (h : i ∈ unreachableIssues registry d reachable) : i.code = .unreachableNode := by
  unfold unreachableIssues at h
  split at h
  · cases h
  · obtain ⟨node, _, rfl⟩ := List.mem_map.mp h
    rfl

/-- What the validation comes to, once there is fuel enough for its loops. -/
structure Validated (registry : BlockRegistry θ) (d : WorkflowDefinition)
    (reachable : List Text) (findings : List (Finding Text)) (issues : List Issue) : Prop where
  ends : ∃ N, ∀ n, N ≤ n → validateWorkflowDefinition registry d n = some issues
  reaches : ∀ x, x ∈ reachable ↔ ∃ r ∈ entryNames registry d,
    Relation.ReflTransGen (fun a b => b ∈ successors registry d a) r x
  explored : ∃ visited, Explores (successors registry d) maxCycleScanDepth [] []
    (nodeNames registry d) visited findings
  issues : issues = d.blocks.flatMap (blockIssues registry d) ++ wireIssues registry d d.wires [] ++
    (classes registry d).flatMap (inputIssues registry d) ++ entryIssues registry d ++
    unreachableIssues registry d reachable ++ cycleIssues registry d findings []

variable (registry d) in
theorem validated : ∃ reachable findings issues, Validated registry d reachable findings issues := by
  have hnodes : ∀ v, ∀ c ∈ successors registry d v,
      c ∈ (d.wires.map WireDefinition.targetBlock ++ nodeNames registry d).toFinset := by
    intro v c hc
    obtain ⟨wire, hw, _, rfl⟩ := mem_successors.mp hc
    rw [List.mem_toFinset]
    exact List.mem_append_left _ (List.mem_map_of_mem (List.mem_filter.mp hw).1)
  obtain ⟨N, reachable, hN, hreach⟩ := reach_entries _ hnodes (entryNames registry d)
  obtain ⟨visited, findings, hex, M, hM⟩ := scan_explores
    (by unfold maxCycleScanDepth; omega : 0 < maxCycleScanDepth) _ hnodes (nodeNames registry d)
    (fun r hr => List.mem_toFinset.mpr (List.mem_append_right _ hr))
  refine ⟨reachable, findings, _, ⟨max N M, fun n hn => ?_⟩, hreach, ⟨visited, hex⟩, rfl⟩
  unfold validateWorkflowDefinition
  simp only [hN n (by omega), hM n (by omega), Option.bind_eq_bind, Option.bind_some]
  rfl

theorem validate_mono {m n : Nat} (hmn : m ≤ n) {issues : List Issue}
    (h : validateWorkflowDefinition registry d m = some issues) :
    validateWorkflowDefinition registry d n = some issues := by
  unfold validateWorkflowDefinition at h ⊢
  simp only [Option.bind_eq_bind, Option.bind_eq_some_iff] at h ⊢
  obtain ⟨reachable, hr, findings, hf, hi⟩ := h
  exact ⟨reachable, reach_mono hmn hr, findings, scan_mono hmn hf, hi⟩

theorem Validated.eq {reachable : List Text} {findings : List (Finding Text)}
    {issues other : List Issue} (h : Validated registry d reachable findings issues) {n : Nat}
    (hn : validateWorkflowDefinition registry d n = some other) : issues = other := by
  obtain ⟨N, hN⟩ := h.ends
  have hsame := (hN (max N n) (by omega)).symm.trans (validate_mono (by omega) hn)
  exact Option.some.inj hsame

end Kirara.WorkflowValidation
