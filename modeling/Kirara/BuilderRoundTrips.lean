import Kirara.Fallible
import Kirara.WorkflowBuilders

namespace Kirara.BuilderRoundTrips

open Kirara.Channels Kirara.Dicts Kirara.Fallible Kirara.WorkflowBuilders

variable {κ θ ν χ : Type} [DecidableEq θ] (blocks : Blocks κ θ ν) {b b' : WorkflowBuilder κ ν}

theorem storeWireSpec_eq (source target : Text) (sourceNode targetNode : Node κ ν) :
    ∃ ws, storeWireSpec blocks b source target sourceNode targetNode = { b with wireSpecs := ws } := ⟨_, rfl⟩

variable (node : Node κ ν)

theorem wireNode_eq (sources : Option (List Text)) :
    ∃ ws, wireNode blocks b node sources = { b with wireSpecs := ws } := by
  unfold wireNode
  split
  · next source sources =>
    generalize source :: sources = names
    induction names generalizing b with
    | nil => exact ⟨_, rfl⟩
    | cons name names ih =>
      rw [List.foldl_cons]
      split
      · exact ih
      · exact ih
  all_goals
    split
    · exact ⟨_, rfl⟩
    · exact storeWireSpec_eq blocks _ _ _ _

variable (spec : BlockSpec κ ν)

theorem createNode_eq (draw : Text) (isParallel : Bool) (parent : Option ℕ) :
    ∃ ws, createNode blocks b spec draw isParallel parent =
      { addNode b ⟨spec.blockClass, spec.kwargs, nameOr spec.name (className blocks spec.blockClass) draw, isParallel,
          false, false, parent, none⟩ with wireSpecs := ws } := wireNode_eq blocks _ _

def core (n : Node κ ν) : Node κ ν := { n with position := none }

/-- While names are unique, they lead to the places of the nodes. -/
def Indexed (b : WorkflowBuilder κ ν) : Prop :=
  (b.nodes.map Node.name).Nodup → b.nodesByName.entries = (b.nodes.map Node.name).zipIdx

/-- The nodes that are added, and what else stays. -/
structure Extends (b b' : WorkflowBuilder κ ν) (new : List (Node κ ν)) : Prop where
  nodes : b'.nodes.map core = b.nodes.map core ++ new
  indexed : Indexed b → Indexed b'
  metadata : b'.metadata = b.metadata

theorem Extends.refl (b : WorkflowBuilder κ ν) : Extends b b [] := ⟨(List.append_nil _).symm, id, rfl⟩

theorem Extends.trans {b'' : WorkflowBuilder κ ν} {new later : List (Node κ ν)} (h : Extends b b' new)
    (h' : Extends b' b'' later) : Extends b b'' (new ++ later) :=
  ⟨by rw [h'.nodes, h.nodes, List.append_assoc], h'.indexed ∘ h.indexed, h'.metadata.trans h.metadata⟩

theorem indexed_addNode (h : Indexed b) : Indexed (addNode b node) := by
  intro hnodup
  change ((b.nodes ++ [node]).map Node.name).Nodup at hnodup
  rw [List.map_append, List.nodup_append] at hnodup
  obtain ⟨hnames, -, hapart⟩ := hnodup
  have hentries := h hnames
  have hfree : node.name ∉ b.nodesByName.keys := by
    intro hkey
    rw [Dict.keys, hentries, List.zipIdx_map_fst] at hkey
    exact hapart _ hkey _ (List.mem_singleton_self _) rfl
  change (b.nodesByName.set node.name b.nodes.length).entries = ((b.nodes ++ [node]).map Node.name).zipIdx
  rw [Dict.set_entries_of_not_mem hfree, hentries, List.map_append, List.zipIdx_append]
  simp

theorem extends_addNode : Extends b (addNode b node) [core node] :=
  ⟨by simp [addNode], indexed_addNode node, rfl⟩

theorem extends_createNode (draw : Text) (isParallel : Bool) (parent : Option ℕ) :
    Extends b (createNode blocks b spec draw isParallel parent) [⟨spec.blockClass, spec.kwargs,
      nameOr spec.name (className blocks spec.blockClass) draw, isParallel, false, false, parent, none⟩] := by
  obtain ⟨ws, hws⟩ := createNode_eq blocks (b := b) spec draw isParallel parent
  rw [hws]
  have h := extends_addNode (b := b) ⟨spec.blockClass, spec.kwargs,
    nameOr spec.name (className blocks spec.blockClass) draw, isParallel, false, false, parent, none⟩
  exact ⟨h.nodes, h.indexed, h.metadata⟩

structure Adds (b b' : WorkflowBuilder κ ν) (node : Node κ ν) : Prop extends Extends b b' [core node] where
  config : b'.config = b.config
  found : (b'.nodesByName.get node.name).isSome = true

theorem adds_createNode (draw : Text) (isParallel : Bool) (parent : Option ℕ) :
    Adds b (createNode blocks b spec draw isParallel parent) ⟨spec.blockClass, spec.kwargs,
      nameOr spec.name (className blocks spec.blockClass) draw, isParallel, false, false, parent, none⟩ := by
  refine ⟨extends_createNode blocks spec draw isParallel parent, ?_, ?_⟩
  · obtain ⟨ws, hws⟩ := createNode_eq blocks (b := b) spec draw isParallel parent
    rw [hws]
    rfl
  · obtain ⟨ws, hws⟩ := createNode_eq blocks (b := b) spec draw isParallel parent
    rw [hws]
    change ((b.nodesByName.set _ _).get _).isSome = true
    rw [Dict.get_set_self]
    rfl

theorem map_modify {α β : Type} {f : α → α} {g : α → β} (h : ∀ a, g (f a) = g a) (l : List α) (i : ℕ) :
    (l.modify i f).map g = l.map g := by
  induction l generalizing i with
  | nil => simp
  | cons a l ih =>
    cases i with
    | zero => simp [h]
    | succ i => simp [ih]

variable {name : Text}

theorem extends_updatePosition {position : Dict Text ℤ} (h : updatePosition b name position = .ok b') :
    Extends b b' [] := by
  unfold updatePosition at h
  split at h
  · exact (nomatch h)
  · next place _ =>
    cases h
    have hcore : (b.nodes.modify place fun node => { node with position := some position }).map core = b.nodes.map core :=
      map_modify (by exact fun _ => rfl) _ _
    have hname : (b.nodes.modify place fun node => { node with position := some position }).map Node.name =
        b.nodes.map Node.name := map_modify (by exact fun _ => rfl) _ _
    refine ⟨by rw [List.append_nil]; exact hcore, fun hindexed => ?_, rfl⟩
    unfold Indexed
    rw [hname]
    exact hindexed

/-- A call of a method of the builder, with the random ending of a name. -/
inductive Operation (κ ν : Type) where
  | use (cls : BlockClass κ) (name : Option Text) (kwargs : Kwargs ν) (draw : Text)
  | chain (cls : BlockClass κ) (name : Option Text) (kwargs : Kwargs ν) (draw : Text)
  | parallel (specs : List (BlockSpec κ ν × Text))
  | ifThen (condition : ν) (name : Option Text) (draw : Text)
  | elseThen
  | endIf
  | loop (condition : ν) (name : Option Text) (iterationVar draw : Text)
  | endLoop (draw : Text)
  | forceConnect (wire : WireSpec)
  | updatePosition (name : Text) (position : Dict Text ℤ)
  | setConfig (config : WorkflowConfig)

def perform (blocks : Blocks κ θ ν) (b : WorkflowBuilder κ ν) :
    Operation κ ν → Except BuilderError (WorkflowBuilder κ ν)
  | .use cls name kwargs draw => use blocks b cls name kwargs draw
  | .chain cls name kwargs draw => chain blocks b cls name kwargs draw
  | .parallel specs => parallel blocks b specs
  | .ifThen condition name draw => .ok (ifThen blocks b condition name draw)
  | .elseThen => elseThen b
  | .endIf => endIf b
  | .loop condition name iterationVar draw => .ok (loop blocks b condition name iterationVar draw)
  | .endLoop draw => endLoop blocks b draw
  | .forceConnect wire => .ok (forceConnect b wire)
  | .updatePosition name position => updatePosition b name position
  | .setConfig config => .ok { b with config := config }

def Operation.controls : Operation κ ν → Bool
  | .ifThen .. | .loop .. | .endLoop _ => true
  | _ => false

/-- The constructor of the block takes no arguments like these. -/
def Refused (blocks : Blocks κ θ ν) (n : Node κ ν) : Prop :=
  ∀ kwargs : Kwargs ν, (∀ k ∈ n.kwargs.keys, k ∈ kwargs.keys) → accepts blocks kwargs n.blockClass = false

structure Formed (blocks : Blocks κ θ ν) (n : Node κ ν) : Prop where
  named : n.name ≠ []
  unreserved : n.isParallel = false → clashes reserved n.kwargs = false
  flagged : (n.isConditional || n.isLoop) = true → Refused blocks n

theorem nameOr_ne_nil (name : Option Text) (base draw : Text) : nameOr name base draw ≠ [] := by
  unfold nameOr
  cases name with
  | none => simp
  | some n =>
    dsimp only
    split
    · simp
    · next h => exact h

variable {n : Node κ ν}

omit [DecidableEq θ] in
theorem refused_of_key (required optional : List Text) (k : Text)
    (hcls : ∀ kwargs, accepts blocks kwargs n.blockClass = takes required optional kwargs)
    (hkey : k ∈ n.kwargs.keys) (hnot : k ∉ required ++ optional) : Refused blocks n := by
  intro kwargs hkeys
  rw [hcls, takes, Bool.and_eq_false_iff]
  right
  rw [← Bool.not_eq_true, List.all_eq_true]
  exact fun hall => hnot (of_decide_eq_true (hall k (hkeys k hkey)))

theorem extends_addControl (cls : BlockClass κ) (kwargs : Kwargs ν) (name : Text) (isConditional isLoop : Bool) :
    Extends b (addControl blocks b cls kwargs name isConditional isLoop)
      [⟨cls, kwargs, name, false, isConditional, isLoop, b.current, none⟩] := by
  have h := extends_addNode (b := b) ⟨cls, kwargs, name, false, isConditional, isLoop, b.current, none⟩
  unfold addControl
  dsimp only
  split
  · exact ⟨h.nodes, h.indexed, h.metadata⟩
  · exact ⟨h.nodes, h.indexed, h.metadata⟩

variable {cls : BlockClass κ} {kwargs : Kwargs ν} {draw : Text}

theorem adds_chain {name : Option Text}
    (h : chain blocks b cls name kwargs draw = .ok b') : clashes reserved kwargs = false ∧
      Adds b b' ⟨cls, kwargs.pop wireFromKey, nameOr name (className blocks cls) draw, false, false, false,
        b.current, none⟩ ∧ b'.head = b.head := by
  unfold chain at h
  split at h
  · exact (nomatch h)
  · next hclash =>
    refine ⟨by simpa using hclash, ?_⟩
    have hadds (sources : Option (List Text)) := adds_createNode blocks (b := b)
      ⟨cls, name, kwargs.pop wireFromKey, sources⟩ draw false b.current
    have heq (sources : Option (List Text)) := createNode_eq blocks (b := b)
      ⟨cls, name, kwargs.pop wireFromKey, sources⟩ draw false b.current
    dsimp only at h
    split at h
    · cases h
      obtain ⟨ws, hws⟩ := heq none
      have hc := hadds none
      exact ⟨⟨⟨hc.nodes, hc.indexed, hc.metadata⟩, hc.config, hc.found⟩, by rw [hws]; rfl⟩
    · split at h
      · exact (nomatch h)
      · next sources _ =>
        cases h
        obtain ⟨ws, hws⟩ := heq (some sources)
        have hc := hadds (some sources)
        exact ⟨⟨⟨hc.nodes, hc.indexed, hc.metadata⟩, hc.config, hc.found⟩, by rw [hws]; rfl⟩

theorem adds_use {name : Option Text}
    (h : use blocks b cls name kwargs draw = .ok b') : clashes reserved kwargs = false ∧
      Adds b b' ⟨cls, kwargs, nameOr name (className blocks cls) draw, false, false, false, none, none⟩ ∧
        b'.head.isSome = true := by
  unfold use at h
  split at h
  · exact (nomatch h)
  · next hclash =>
    cases h
    have hc := adds_createNode blocks (b := b) ⟨cls, name, kwargs, none⟩ draw false none
    exact ⟨by simpa using hclash, ⟨⟨hc.nodes, hc.indexed, hc.metadata⟩, hc.config, hc.found⟩, rfl⟩

theorem extends_createNodes (specs : List (BlockSpec κ ν × Text)) (parent : Option ℕ) :
    Extends b (specs.foldl (fun added spec => createNode blocks added spec.1 spec.2 true parent) b)
      (specs.map fun spec => ⟨spec.1.blockClass, spec.1.kwargs,
        nameOr spec.1.name (className blocks spec.1.blockClass) spec.2, true, false, false, parent, none⟩) := by
  induction specs generalizing b with
  | nil => exact Extends.refl b
  | cons spec specs ih => exact (extends_createNode blocks spec.1 spec.2 true parent).trans ih

theorem extends_parallel {specs : List (BlockSpec κ ν × Text)} (h : parallel blocks b specs = .ok b') :
    Extends b b' (specs.map fun spec => ⟨spec.1.blockClass, spec.1.kwargs,
      nameOr spec.1.name (className blocks spec.1.blockClass) spec.2, true, false, false, b.current, none⟩) := by
  cases specs with
  | nil => exact (nomatch h)
  | cons spec specs =>
    cases h
    have hc := extends_createNodes blocks (b := b) (spec :: specs) b.current
    exact ⟨hc.nodes, hc.indexed, hc.metadata⟩

theorem adds_parallel {spec : BlockSpec κ ν} (h : parallel blocks b [(spec, draw)] = .ok b') :
    Adds b b' ⟨spec.blockClass, spec.kwargs, nameOr spec.name (className blocks spec.blockClass) draw, true, false, false,
      b.current, none⟩ ∧ b'.head = b.head := by
  cases h
  have hc := adds_createNode blocks (b := b) spec draw true b.current
  obtain ⟨ws, hws⟩ := createNode_eq blocks (b := b) spec draw true b.current
  refine ⟨⟨⟨hc.nodes, hc.indexed, hc.metadata⟩, hc.config, hc.found⟩, ?_⟩
  change (createNode blocks b spec draw true b.current).head = b.head
  rw [hws]
  rfl

theorem extends_endLoop (h : endLoop blocks b draw = .ok b') :
    Extends b b' [⟨.loopEnd, Dict.empty.set "outputs".toList (blocks.ports Workflows.Ports.none),
      nameOr none "loop_end".toList draw, false, false, false, b.current, none⟩] := by
  unfold endLoop at h
  split at h
  · exact (nomatch h)
  split at h
  · exact (nomatch h)
  cases h
  have hadd := extends_addNode (b := b) ⟨.loopEnd, Dict.empty.set "outputs".toList (blocks.ports Workflows.Ports.none),
    nameOr none "loop_end".toList draw, false, false, false, b.current, none⟩
  exact ⟨hadd.nodes, hadd.indexed, hadd.metadata⟩

theorem extends_perform {op : Operation κ ν} (h : perform blocks b op = .ok b') : ∃ new, Extends b b' new ∧
    (∀ n ∈ new, Formed blocks n) ∧ (op.controls = true → ∃ n ∈ new, Refused blocks n) := by
  have hplain {cls : BlockClass κ} {kwargs : Kwargs ν} {name : Option Text} {base draw : Text} {isParallel : Bool}
      {parent : Option ℕ} (hfree : isParallel = false → clashes reserved kwargs = false) :
      Formed blocks ⟨cls, kwargs, nameOr name base draw, isParallel, false, false, parent, none⟩ :=
    ⟨nameOr_ne_nil name base draw, hfree, nofun⟩
  cases op with
  | use cls name kwargs draw =>
    obtain ⟨hclash, hnew, -⟩ := adds_use blocks h
    exact ⟨_, hnew.toExtends, List.forall_mem_singleton.mpr (hplain fun _ => hclash), nofun⟩
  | chain cls name kwargs draw =>
    obtain ⟨hclash, hnew, -⟩ := adds_chain blocks h
    refine ⟨_, hnew.toExtends, List.forall_mem_singleton.mpr (hplain fun _ => ?_), nofun⟩
    rw [clashes, List.any_eq_false] at hclash ⊢
    exact fun k hk => hclash k (Dict.mem_keys_pop.mp hk).1
  | parallel specs =>
    refine ⟨_, extends_parallel blocks h, fun n hn => ?_, nofun⟩
    obtain ⟨spec, -, rfl⟩ := List.mem_map.mp hn
    exact hplain nofun
  | ifThen condition name draw =>
    cases h
    have hnew := extends_addControl blocks (b := b) .condition
      ((Dict.empty.set "condition".toList condition).set "outputs".toList (blocks.ports Workflows.Ports.none))
      (nameOr name "condition".toList draw) true false
    have hrefused := refused_of_key blocks (n := ⟨.condition,
      (Dict.empty.set "condition".toList condition).set "outputs".toList (blocks.ports Workflows.Ports.none),
      nameOr name "condition".toList draw, false, true, false, b.current, none⟩)
      ["condition_func".toList, "inputs".toList] [] "outputs".toList (fun _ => rfl) (Dict.mem_keys_set.mpr (.inl rfl))
      (by decide)
    exact ⟨_, hnew, List.forall_mem_singleton.mpr ⟨nameOr_ne_nil _ _ _, fun _ => rfl, fun _ => hrefused⟩,
      fun _ => ⟨_, List.mem_singleton_self _, hrefused⟩⟩
  | elseThen =>
    change elseThen b = .ok b' at h
    unfold elseThen at h
    split at h
    · exact (nomatch h)
    split at h
    · cases h
      exact ⟨[], ⟨(List.append_nil _).symm, id, rfl⟩, nofun, nofun⟩
    · exact (nomatch h)
  | endIf =>
    change endIf b = .ok b' at h
    unfold endIf at h
    split at h
    · exact (nomatch h)
    split at h
    · cases h
      exact ⟨[], Extends.refl b, nofun, nofun⟩
    · exact (nomatch h)
  | loop condition name iterationVar draw =>
    cases h
    have hnew := extends_addControl blocks (b := b) .loop
      (((Dict.empty.set "condition".toList condition).set "outputs".toList (blocks.ports Workflows.Ports.none)).set
        "iteration_var".toList (blocks.text iterationVar)) (nameOr name "loop".toList draw) false true
    have hrefused := refused_of_key blocks (n := ⟨.loop,
      ((Dict.empty.set "condition".toList condition).set "outputs".toList (blocks.ports Workflows.Ports.none)).set
        "iteration_var".toList (blocks.text iterationVar), nameOr name "loop".toList draw, false, false, true,
      b.current, none⟩) ["condition_func".toList, "inputs".toList] ["iteration_var".toList] "outputs".toList
      (fun _ => rfl) (Dict.mem_keys_set.mpr (.inr (Dict.mem_keys_set.mpr (.inl rfl)))) (by decide)
    exact ⟨_, hnew, List.forall_mem_singleton.mpr ⟨nameOr_ne_nil _ _ _, fun _ => rfl, fun _ => hrefused⟩,
      fun _ => ⟨_, List.mem_singleton_self _, hrefused⟩⟩
  | endLoop draw =>
    have hrefused := refused_of_key blocks (n := ⟨.loopEnd,
      Dict.empty.set "outputs".toList (blocks.ports Workflows.Ports.none), nameOr none "loop_end".toList draw, false,
      false, false, b.current, none⟩) ["inputs".toList] [] "outputs".toList (fun _ => rfl)
      (Dict.mem_keys_set.mpr (.inl rfl)) (by decide)
    exact ⟨_, extends_endLoop blocks h, List.forall_mem_singleton.mpr ⟨nameOr_ne_nil none _ _, fun _ => rfl, fun _ => hrefused⟩,
      fun _ => ⟨_, List.mem_singleton_self _, hrefused⟩⟩
  | forceConnect wire =>
    cases h
    exact ⟨[], ⟨(List.append_nil _).symm, id, rfl⟩, nofun, nofun⟩
  | updatePosition name position => exact ⟨[], extends_updatePosition h, nofun, nofun⟩
  | setConfig config =>
    cases h
    exact ⟨[], ⟨(List.append_nil _).symm, id, rfl⟩, nofun, nofun⟩

def run (blocks : Blocks κ θ ν) (b : WorkflowBuilder κ ν) (ops : List (Operation κ ν)) :
    Except BuilderError (WorkflowBuilder κ ν) := ops.foldlM (perform blocks) b

variable {ops : List (Operation κ ν)}

theorem extends_run (h : run blocks b ops = .ok b') : ∃ new, Extends b b' new ∧
    (∀ n ∈ new, Formed blocks n) ∧ ((∃ op ∈ ops, op.controls = true) → ∃ n ∈ new, Refused blocks n) := by
  induction ops generalizing b with
  | nil =>
    cases h
    exact ⟨[], Extends.refl _, nofun, fun ⟨op, hop, _⟩ => (nomatch hop)⟩
  | cons op ops ih =>
    rw [run, List.foldlM_cons] at h
    obtain ⟨c, hc, hrest⟩ := bind_eq_ok.mp h
    obtain ⟨new, hnew, hformed, hrefused⟩ := extends_perform blocks hc
    obtain ⟨later, hlater, hformed', hrefused'⟩ := ih hrest
    refine ⟨new ++ later, hnew.trans hlater, fun n hn => ?_, fun ⟨o, ho, hcontrols⟩ => ?_⟩
    · exact (List.mem_append.mp hn).elim (hformed n) (hformed' n)
    · cases List.mem_cons.mp ho with
      | inl ho =>
        obtain ⟨n, hn, hr⟩ := hrefused (ho ▸ hcontrols)
        exact ⟨n, List.mem_append_left _ hn, hr⟩
      | inr ho =>
        obtain ⟨n, hn, hr⟩ := hrefused' ⟨o, ho, hcontrols⟩
        exact ⟨n, List.mem_append_right _ hn, hr⟩

section Loading

variable (registry : BlockRegistry κ) {data : BlockData ν}

/-- The keyword arguments of the blocks of a file, before or after there is a first node. -/
def loadedParams : Bool → List (BlockData ν) → List (Kwargs ν)
  | _, [] => []
  | started, d :: ds =>
    (if d.parallel || !started then d.params else d.params.pop wireFromKey) :: loadedParams (started || !d.parallel) ds

theorem loadPosition_ok (h : loadPosition b data = .ok b') :
    Extends b b' [] ∧ b'.head = b.head ∧ b'.config = b.config := by
  unfold loadPosition at h
  split at h
  · cases h
    exact ⟨Extends.refl b, rfl, rfl⟩
  · split at h
    · cases h
      exact ⟨Extends.refl b, rfl, rfl⟩
    · refine ⟨extends_updatePosition h, ?_⟩
      unfold updatePosition at h
      split at h
      · exact (nomatch h)
      · cases h
        exact ⟨rfl, rfl⟩

theorem loadPosition_succeeds (h : (b.nodesByName.get data.name).isSome = true) : ∃ b', loadPosition b data = .ok b' := by
  unfold loadPosition
  split
  · exact ⟨_, rfl⟩
  split
  · exact ⟨_, rfl⟩
  obtain ⟨place, hplace⟩ := Option.isSome_iff_exists.mp h
  unfold updatePosition
  rw [hplace]
  exact ⟨_, rfl⟩

def loadedNode (blocks : Blocks κ θ ν) (started : Bool) (data : BlockData ν) (cls : BlockClass κ) (parent : Option ℕ) :
    Node κ ν where
  blockClass := cls
  kwargs := if data.parallel || !started then data.params else data.params.pop wireFromKey
  name := nameOr (some data.name) (className blocks cls) []
  isParallel := data.parallel
  isConditional := false
  isLoop := false
  parent := parent
  position := none

def makeBlock (b : WorkflowBuilder κ ν) (data : BlockData ν) (cls : BlockClass κ) :
    Except BuilderError (WorkflowBuilder κ ν) :=
  if data.parallel then parallel blocks b [(⟨cls, some data.name, data.params, none⟩, [])]
  else if b.head.isNone then use blocks b cls (some data.name) data.params []
  else chain blocks b cls (some data.name) data.params []

theorem makeBlock_ok (h : makeBlock blocks b data cls = .ok b') :
    ∃ parent, Adds b b' (loadedNode blocks b.head.isSome data cls parent) ∧ b'.head.isSome = (b.head.isSome || !data.parallel) := by
  unfold makeBlock at h
  cases hparallel : data.parallel with
  | true =>
    rw [if_pos hparallel] at h
    obtain ⟨hadds, hhead⟩ := adds_parallel blocks h
    refine ⟨b.current, ?_, by simp [hhead]⟩
    simpa [loadedNode, hparallel] using hadds
  | false =>
    rw [if_neg (by simp [hparallel])] at h
    split at h
    · next hnone =>
      obtain ⟨-, hadds, hhead⟩ := adds_use blocks h
      refine ⟨none, ?_, by simp [hhead]⟩
      have hstarted : b.head.isSome = false := by simpa using hnone
      simpa [loadedNode, hparallel, hstarted] using hadds
    · next hsome =>
      obtain ⟨-, hadds, hhead⟩ := adds_chain blocks h
      have hstarted : b.head.isSome = true := by simpa [Option.isSome_iff_ne_none] using hsome
      refine ⟨b.current, ?_, by simp [hhead, hstarted]⟩
      simpa [loadedNode, hparallel, hstarted] using hadds

theorem makeBlock_succeeds (cls : BlockClass κ) (hfree : data.parallel = false → clashes reserved data.params = false)
    (hwire : data.parallel = false → b.head.isSome = true → data.params.get wireFromKey = none) :
    ∃ b', makeBlock blocks b data cls = .ok b' := by
  unfold makeBlock
  cases hparallel : data.parallel with
  | true => exact ⟨_, rfl⟩
  | false =>
    rw [if_neg Bool.false_ne_true]
    split
    · unfold use
      rw [hfree hparallel]
      exact ⟨_, rfl⟩
    · next hsome =>
      unfold chain
      rw [hfree hparallel, hwire hparallel (by simpa [Option.isSome_iff_ne_none] using hsome)]
      exact ⟨_, rfl⟩

theorem loadBlock_ok (h : loadBlock blocks registry b data = .ok b') :
    ∃ cls parent, getBlockClass registry data.type = some cls ∧
      Extends b b' [loadedNode blocks b.head.isSome data cls parent] ∧
        b'.head.isSome = (b.head.isSome || !data.parallel) ∧ b'.config = b.config := by
  unfold loadBlock at h
  split at h
  · exact (nomatch h)
  · next cls hcls =>
    change (makeBlock blocks b data cls >>= fun b => loadPosition b data) = .ok b' at h
    obtain ⟨c, hc, hposition⟩ := bind_eq_ok.mp h
    obtain ⟨parent, hadds, hhead⟩ := makeBlock_ok blocks hc
    obtain ⟨hextends, hhead', hconfig⟩ := loadPosition_ok hposition
    exact ⟨cls, parent, hcls, hadds.toExtends.trans hextends, by rw [hhead', hhead], hconfig.trans hadds.config⟩

theorem loadBlock_succeeds (hname : data.name ≠ []) (hcls : getBlockClass registry data.type = some cls)
    (hfree : data.parallel = false → clashes reserved data.params = false)
    (hwire : data.parallel = false → b.head.isSome = true → data.params.get wireFromKey = none) :
    ∃ b', loadBlock blocks registry b data = .ok b' := by
  obtain ⟨c, hc⟩ := makeBlock_succeeds blocks cls hfree hwire
  obtain ⟨parent, hadds, -⟩ := makeBlock_ok blocks hc
  have hfound := hadds.found
  rw [show (loadedNode blocks b.head.isSome data cls parent).name = data.name from if_neg hname] at hfound
  obtain ⟨b', hb'⟩ := loadPosition_succeeds hfound
  refine ⟨b', ?_⟩
  unfold loadBlock
  rw [hcls]
  change (makeBlock blocks b data cls >>= fun b => loadPosition b data) = .ok b'
  exact bind_eq_ok.mpr ⟨c, hc, hb'⟩

structure Loaded (registry : BlockRegistry κ) (b b' : WorkflowBuilder κ ν) (ds : List (BlockData ν))
    (new : List (Node κ ν)) : Prop extends Extends b b' new where
  params : new.map Node.kwargs = loadedParams b.head.isSome ds
  names : (∀ d ∈ ds, d.name ≠ []) → new.map Node.name = ds.map BlockData.name
  classes : new.map (fun n => some n.blockClass) = ds.map (fun d => getBlockClass registry d.type)
  flags : ∀ n ∈ new, n.isConditional = false ∧ n.isLoop = false
  config : b'.config = b.config

variable {ds : List (BlockData ν)}

theorem loadBlocks_ok
    (h : ds.foldlM (loadBlock blocks registry) b = .ok b') : ∃ new, Loaded registry b b' ds new := by
  induction ds generalizing b with
  | nil =>
    cases h
    exact ⟨[], Extends.refl _, rfl, fun _ => rfl, rfl, nofun, rfl⟩
  | cons d ds ih =>
    rw [List.foldlM_cons] at h
    obtain ⟨c, hc, hrest⟩ := bind_eq_ok.mp h
    obtain ⟨cls, parent, hcls, hextends, hhead, hconfig⟩ := loadBlock_ok blocks registry hc
    obtain ⟨new, hnew⟩ := ih hrest
    refine ⟨loadedNode blocks b.head.isSome d cls parent :: new, hextends.trans hnew.toExtends, ?_, ?_, ?_, ?_, ?_⟩
    · rw [List.map_cons, hnew.params, hhead]
      rfl
    · intro hnames
      rw [List.map_cons, hnew.names fun e he => hnames e (List.mem_cons_of_mem d he)]
      exact congrArg (· :: _) (if_neg (hnames d List.mem_cons_self))
    · rw [List.map_cons, hnew.classes, List.map_cons, hcls]
      rfl
    · intro n hn
      cases List.mem_cons.mp hn with
      | inl hn => exact hn ▸ ⟨rfl, rfl⟩
      | inr hn => exact hnew.flags n hn
    · exact hnew.config.trans hconfig

theorem loadBlocks_succeed (hds : ∀ d ∈ ds, d.name ≠ [] ∧ (getBlockClass registry d.type).isSome = true ∧
      (d.parallel = false → clashes reserved d.params = false))
    (hparams : loadedParams b.head.isSome ds = ds.map BlockData.params) :
    ∃ b', ds.foldlM (loadBlock blocks registry) b = .ok b' := by
  induction ds generalizing b with
  | nil => exact ⟨b, rfl⟩
  | cons d ds ih =>
    obtain ⟨hname, hcls, hfree⟩ := hds d List.mem_cons_self
    obtain ⟨cls, hcls⟩ := Option.isSome_iff_exists.mp hcls
    obtain ⟨hfirst, hparams⟩ := List.cons.inj hparams
    obtain ⟨c, hc⟩ := loadBlock_succeeds blocks registry hname hcls hfree fun hserial hstarted => by
      rw [hserial, hstarted, if_neg (by decide)] at hfirst
      rw [← hfirst, Dict.get_pop_self]
    obtain ⟨-, -, -, -, hhead, -⟩ := loadBlock_ok blocks registry hc
    obtain ⟨b', hb'⟩ := ih (fun e he => hds e (List.mem_cons_of_mem d he)) (by rw [hhead]; exact hparams)
    exact ⟨b', by rw [List.foldlM_cons]; exact bind_eq_ok.mpr ⟨c, hc, hb'⟩⟩

theorem pop_eq_self_iff {k : Text} : kwargs.pop k = kwargs ↔ k ∉ kwargs.keys := by
  constructor
  · intro h hkey
    rw [← h, Dict.mem_keys_pop] at hkey
    exact hkey.2 rfl
  · intro hkey
    apply Dict.ext
    refine List.filter_eq_self.mpr fun p hp => decide_eq_true fun he => hkey ?_
    exact he ▸ List.mem_map_of_mem hp

theorem loadedParams_eq_iff {started : Bool} : loadedParams started ds = ds.map BlockData.params ↔
      ∀ d ∈ (ds.filter (fun d => !d.parallel)).drop (if started then 0 else 1), wireFromKey ∉ d.params.keys := by
  induction ds generalizing started with
  | nil => simp [loadedParams]
  | cons d ds ih =>
    unfold loadedParams
    rw [List.map_cons, List.cons.injEq, ih]
    cases hparallel : d.parallel with
    | true => simp [hparallel]
    | false =>
      cases started with
      | true => simp [hparallel, pop_eq_self_iff]
      | false => simp [hparallel]

end Loading

variable {ds : List (BlockData ν)}

theorem node?_eq_some (hindexed : Indexed b) (hnodup : (b.nodes.map Node.name).Nodup)
    (h : node? b name = some n) : n ∈ b.nodes ∧ n.name = name := by
  obtain ⟨i, hi, hn⟩ := Option.bind_eq_some_iff.mp h
  have hentry := Dict.get_eq_some_iff.mp hi
  rw [hindexed hnodup, List.mem_zipIdx_iff_getElem?, List.getElem?_map, hn] at hentry
  exact ⟨List.mem_of_getElem? hn, Option.some.inj hentry⟩

theorem isSome_node? (hindexed : Indexed b) (hnodup : (b.nodes.map Node.name).Nodup) :
    (node? b name).isSome = true ↔ name ∈ b.nodes.map Node.name := by
  constructor
  · intro h
    obtain ⟨n, hn⟩ := Option.isSome_iff_exists.mp h
    obtain ⟨hmem, rfl⟩ := node?_eq_some hindexed hnodup hn
    exact List.mem_map_of_mem hmem
  · intro h
    obtain ⟨i, hi⟩ := List.getElem?_of_mem h
    have hget : b.nodesByName.get name = some i := by
      rw [Dict.get_eq_some_iff, hindexed hnodup, List.mem_zipIdx_iff_getElem?]
      exact hi
    rw [List.getElem?_map, Option.map_eq_some_iff] at hi
    obtain ⟨n, hn, -⟩ := hi
    unfold node?
    rw [hget, Option.bind_some, hn]
    rfl

theorem loadConnection_ok {source : Text} {connection : Connection} (h : loadConnection source b connection = .ok b') :
    ∃ ws, b' = { b with wireSpecs := ws } := by
  unfold loadConnection at h
  split at h
  · cases h
    exact ⟨_, rfl⟩
  · exact (nomatch h)

theorem loadConnections_ok {data : BlockData ν} (h : loadConnections b data = .ok b') :
    ∃ ws, b' = { b with wireSpecs := ws } := by
  unfold loadConnections at h
  generalize data.connectedTo = connections at h
  induction connections generalizing b with
  | nil =>
    cases h
    exact ⟨_, rfl⟩
  | cons connection connections ih =>
    rw [List.foldlM_cons] at h
    obtain ⟨c, hc, hrest⟩ := bind_eq_ok.mp h
    obtain ⟨ws, rfl⟩ := loadConnection_ok hc
    obtain ⟨ws', h'⟩ := ih hrest
    exact ⟨ws', h'⟩

theorem allConnections_ok (h : ds.foldlM loadConnections b = .ok b') : ∃ ws, b' = { b with wireSpecs := ws } := by
  induction ds generalizing b with
  | nil =>
    cases h
    exact ⟨_, rfl⟩
  | cons d ds ih =>
    rw [List.foldlM_cons] at h
    obtain ⟨c, hc, hrest⟩ := bind_eq_ok.mp h
    obtain ⟨ws, rfl⟩ := loadConnections_ok hc
    obtain ⟨ws', h'⟩ := ih hrest
    exact ⟨ws', h'⟩

def wiresOf (data : BlockData ν) : List WireSpec :=
  data.connectedTo.map fun c => ⟨data.name, c.fromOutput, c.target, c.toInput⟩

theorem loadConnections_eq (hindexed : Indexed b) (hnodup : (b.nodes.map Node.name).Nodup) {data : BlockData ν}
    (hsource : data.name ∈ b.nodes.map Node.name)
    (htargets : ∀ c ∈ data.connectedTo, c.target ∈ b.nodes.map Node.name) (ws : List WireSpec) :
    loadConnections { b with wireSpecs := ws } data = .ok { b with wireSpecs := ws ++ wiresOf data } := by
  unfold loadConnections wiresOf
  generalize data.connectedTo = connections at htargets
  induction connections generalizing ws with
  | nil =>
    rw [List.map_nil, List.append_nil]
    rfl
  | cons connection connections ih =>
    obtain ⟨sourceNode, hs⟩ := Option.isSome_iff_exists.mp ((isSome_node? hindexed hnodup).mpr hsource)
    obtain ⟨targetNode, ht⟩ := Option.isSome_iff_exists.mp
      ((isSome_node? hindexed hnodup).mpr (htargets connection List.mem_cons_self))
    have hone : loadConnection data.name { b with wireSpecs := ws } connection =
        .ok { b with wireSpecs := ws ++ [⟨data.name, connection.fromOutput, connection.target, connection.toInput⟩] } := by
      have hs' : node? { b with wireSpecs := ws } data.name = some sourceNode := hs
      have ht' : node? { b with wireSpecs := ws } connection.target = some targetNode := ht
      unfold loadConnection
      rw [hs', ht']
      simp only [forceConnect, (node?_eq_some hindexed hnodup hs).2, (node?_eq_some hindexed hnodup ht).2]
    rw [List.foldlM_cons, hone]
    have hrest := ih (ws ++ [⟨data.name, connection.fromOutput, connection.target, connection.toInput⟩])
      fun c hc => htargets c (List.mem_cons_of_mem _ hc)
    rw [List.append_assoc] at hrest
    exact hrest

theorem allConnections_eq (hindexed : Indexed b) (hnodup : (b.nodes.map Node.name).Nodup)
    (hds : ∀ d ∈ ds, d.name ∈ b.nodes.map Node.name ∧ ∀ c ∈ d.connectedTo, c.target ∈ b.nodes.map Node.name)
    (ws : List WireSpec) :
    ds.foldlM loadConnections { b with wireSpecs := ws } = .ok { b with wireSpecs := ws ++ ds.flatMap wiresOf } := by
  induction ds generalizing ws with
  | nil =>
    rw [List.flatMap_nil, List.append_nil]
    rfl
  | cons d ds ih =>
    obtain ⟨hsource, htargets⟩ := hds d List.mem_cons_self
    rw [List.foldlM_cons, loadConnections_eq hindexed hnodup hsource htargets]
    have hrest := ih (fun e he => hds e (List.mem_cons_of_mem d he)) (ws ++ wiresOf d)
    rw [List.append_assoc] at hrest
    exact hrest

def toBlock (n : Node κ ν) : Block κ ν := ⟨n.blockClass, n.kwargs, n.name⟩

omit [DecidableEq θ] in
theorem buildBlock_eq_ok {built : Block κ ν} : buildBlock blocks b n = .ok built ↔
    accepts blocks (buildKwargs blocks b n) n.blockClass = true ∧
      built = ⟨n.blockClass, buildKwargs blocks b n, n.name⟩ := by
  unfold buildBlock
  dsimp only
  split
  · next h => simp [h, eq_comm]
  · next h => simp [h]

omit [DecidableEq θ] in
theorem buildKwargs_of_flags (h : n.isConditional = false ∧ n.isLoop = false) :
    buildKwargs blocks b n = n.kwargs := by
  unfold buildKwargs
  rw [h.1, h.2, if_neg (by decide)]

omit [DecidableEq θ] in
theorem keys_buildKwargs {k : Text} (hk : k ∈ n.kwargs.keys) : k ∈ (buildKwargs blocks b n).keys := by
  unfold buildKwargs
  split
  · split
    · exact hk
    · exact Dict.mem_keys_set.mpr (.inr hk)
  · exact hk

omit [DecidableEq θ] in
theorem flags_of_accepted (hformed : Formed blocks n)
    (h : accepts blocks (buildKwargs blocks b n) n.blockClass = true) : n.isConditional = false ∧ n.isLoop = false := by
  by_contra hflags
  have hflagged : (n.isConditional || n.isLoop) = true := by
    cases hc : n.isConditional with
    | true => rfl
    | false =>
      cases hl : n.isLoop with
      | true => rfl
      | false => exact absurd ⟨hc, hl⟩ hflags
  have hrefused := hformed.flagged hflagged _ fun k hk => keys_buildKwargs blocks (b := b) hk
  exact (nomatch h.symm.trans hrefused)

omit [DecidableEq θ] in
theorem accepted_of_build {wf : Workflow κ ν} (h : build blocks b = .ok wf) :
    ∀ n ∈ b.nodes, accepts blocks (buildKwargs blocks b n) n.blockClass = true := by
  unfold build at h
  split at h
  · exact (nomatch h)
  · next built hbuilt =>
    intro n hn
    obtain ⟨block, -, hblock⟩ := exists_of_forall₂ (forall₂_of_mapM hbuilt) hn
    exact ((buildBlock_eq_ok blocks).mp hblock).1

omit [DecidableEq θ] in
theorem build_eq_ok (hflags : ∀ n ∈ b.nodes, n.isConditional = false ∧ n.isLoop = false)
    (haccepted : ∀ n ∈ b.nodes, accepts blocks n.kwargs n.blockClass = true) :
    build blocks b = .ok ⟨b.name, b.nodes.map toBlock, joined b, b.config⟩ := by
  have hbuilt : b.nodes.mapM (buildBlock blocks b) = .ok (b.nodes.map toBlock) := by
    refine mapM_eq_ok fun n hn => (buildBlock_eq_ok blocks).mpr ?_
    rw [buildKwargs_of_flags blocks (hflags n hn)]
    exact ⟨haccepted n hn, rfl⟩
  unfold build
  rw [hbuilt]

section RoundTrips

variable [DecidableEq κ] (registry : BlockRegistry κ) (yaml : Yaml ν χ)

/-- The workflow is built, saved, loaded and built again, with the same blocks, configuration and wires. -/
def RoundTrips (b : WorkflowBuilder κ ν) : Prop :=
  ∃ wf file b' wf', build blocks b = .ok wf ∧ saveToYaml registry yaml b = some file ∧
    loadFromYaml blocks registry yaml file = .ok b' ∧ build blocks b' = .ok wf' ∧
    wf'.blocks = wf.blocks ∧ wf'.config = wf.config ∧ ∀ wire, wire ∈ wf'.wires ↔ wire ∈ wf.wires

/-- The constructors take their arguments, YAML keeps them, and a type name leads to its class. -/
structure Restorable (b : WorkflowBuilder κ ν) : Prop where
  accepted : ∀ n ∈ b.nodes, accepts blocks (buildKwargs blocks b n) n.blockClass = true
  kept : ∀ n ∈ b.nodes, ∀ v ∈ n.kwargs.values, yaml.kept v
  resolved : ∀ n ∈ b.nodes, getBlockClass registry (getBlockTypeName registry n.blockClass) = some n.blockClass
  unwired : ∀ n ∈ (b.nodes.filter (fun n => !n.isParallel)).drop 1, wireFromKey ∉ n.kwargs.keys

structure Well (b : WorkflowBuilder κ ν) : Prop where
  indexed : Indexed b
  metadata : b.metadata = none
  formed : ∀ n ∈ b.nodes, Formed blocks n

omit [DecidableEq κ] in
theorem well_of_run (h : run blocks (.new name) ops = .ok b) : Well blocks b ∧
    ((∃ op ∈ ops, op.controls = true) → ∃ n ∈ b.nodes, Refused blocks n) := by
  obtain ⟨new, hextends, hformed, hrefused⟩ := extends_run blocks h
  have hnodes : b.nodes.map core = new := hextends.nodes
  have hcore : ∀ n ∈ b.nodes, core n ∈ new := fun n hn => hnodes ▸ List.mem_map_of_mem hn
  refine ⟨⟨hextends.indexed fun _ => rfl, hextends.metadata, fun n hn => ?_⟩, fun hcontrols => ?_⟩
  · have hn := hformed _ (hcore n hn)
    exact ⟨hn.named, hn.unreserved, hn.flagged⟩
  · obtain ⟨n, hn, hr⟩ := hrefused hcontrols
    rw [← hnodes] at hn
    obtain ⟨m, hm, rfl⟩ := List.mem_map.mp hn
    exact ⟨m, hm, hr⟩

variable {registry yaml}

theorem workflowData_blocks (registry : BlockRegistry κ) (hindexed : Indexed b) (hnodup : (b.nodes.map Node.name).Nodup) :
    (workflowData registry b).blocks = b.nodes.map (serializeNode registry b) := by
  have hvalues : b.nodesByName.values = b.nodes.zipIdx.map Prod.snd := by
    rw [Dict.values, hindexed hnodup, List.zipIdx_map, List.map_map]
    rfl
  have hnodes : b.nodesByName.values.filterMap (fun i => b.nodes[i]?) = b.nodes := by
    have hplace : ∀ p ∈ b.nodes.zipIdx, b.nodes[p.2]? = some p.1 := fun p hp => List.mem_zipIdx_iff_getElem?.mp hp
    rw [hvalues, List.filterMap_map]
    calc b.nodes.zipIdx.filterMap (fun p => b.nodes[p.2]?) = b.nodes.zipIdx.filterMap (some ∘ Prod.fst) :=
          List.filterMap_congr hplace
      _ = b.nodes := by rw [List.filterMap_eq_map, List.zipIdx_map_fst]
  exact congrArg _ hnodes

theorem mem_fileWires (registry : BlockRegistry κ) (hindexed : Indexed b) (hnodup : (b.nodes.map Node.name).Nodup) {wire : WireSpec} :
    wire ∈ (b.nodes.map (serializeNode registry b)).flatMap wiresOf ↔ wire ∈ joined b := by
  have htarget : ∀ name, name ∈ b.nodes.map Node.name ↔ ∃ n, node? b name = some n := fun name => by
    rw [← isSome_node? hindexed hnodup, Option.isSome_iff_exists]
  unfold joined
  rw [List.mem_filter, Bool.and_eq_true, decide_eq_true_eq, decide_eq_true_eq, List.mem_flatMap]
  constructor
  · intro ⟨d, hd, hwire⟩
    obtain ⟨n, hn, rfl⟩ := List.mem_map.mp hd
    obtain ⟨c, hc, rfl⟩ := List.mem_map.mp hwire
    obtain ⟨w, hw, hconnection⟩ := List.mem_filterMap.mp hc
    obtain ⟨target, htarget', rfl⟩ := Option.map_eq_some_iff.mp hconnection
    obtain ⟨hspec, hsource⟩ := List.mem_filter.mp hw
    have hsource : w.sourceName = n.name := of_decide_eq_true hsource
    have hname := (node?_eq_some hindexed hnodup htarget').2
    have heq : (⟨n.name, w.sourceOutput, target.name, w.targetInput⟩ : WireSpec) = w := by rw [← hsource, hname]
    refine ⟨?_, List.mem_map_of_mem hn, ?_⟩
    · change (⟨n.name, w.sourceOutput, target.name, w.targetInput⟩ : WireSpec) ∈ b.wireSpecs
      rwa [heq]
    · exact List.mem_map_of_mem (node?_eq_some hindexed hnodup htarget').1
  · intro ⟨hspec, hsource, htarget'⟩
    obtain ⟨n, hn, hname⟩ := List.mem_map.mp hsource
    obtain ⟨target, ht⟩ := (htarget _).mp htarget'
    refine ⟨serializeNode registry b n, List.mem_map_of_mem hn, List.mem_map.mpr
      ⟨⟨target.name, wire.sourceOutput, wire.targetInput⟩, List.mem_filterMap.mpr ⟨wire, ?_, ?_⟩, ?_⟩⟩
    · exact List.mem_filter.mpr ⟨hspec, decide_eq_true hname.symm⟩
    · rw [ht]
      rfl
    · change (⟨n.name, wire.sourceOutput, target.name, wire.targetInput⟩ : WireSpec) = wire
      rw [hname, (node?_eq_some hindexed hnodup ht).2]

omit [DecidableEq κ] in
theorem map_toBlock_eq_iff {l l' : List (Node κ ν)} : l.map toBlock = l'.map toBlock ↔
    l.map Node.blockClass = l'.map Node.blockClass ∧ l.map Node.kwargs = l'.map Node.kwargs ∧
      l.map Node.name = l'.map Node.name := by
  induction l generalizing l' with
  | nil =>
    cases l' with
    | nil => simp
    | cons n l' => simp
  | cons n l ih =>
    cases l' with
    | nil => simp
    | cons n' l' =>
      simp only [List.map_cons, List.cons.injEq, ih, toBlock, Block.mk.injEq]
      tauto

def emptyOf (d : WorkflowData ν) : WorkflowBuilder κ ν :=
  { (WorkflowBuilder.new d.name : WorkflowBuilder κ ν) with
    config := d.config, description := d.description, metadata := d.metadata }

omit [DecidableEq κ] in
theorem loadData_ok {d : WorkflowData ν} (h : loadData blocks registry d = .ok b') :
    ∃ made new ws, Loaded registry (emptyOf d) made d.blocks new ∧ made.nodes.map core = new ∧
      b' = { made with wireSpecs := ws } := by
  change (d.blocks.foldlM (loadBlock blocks registry) (emptyOf d) >>= fun made =>
    d.blocks.foldlM loadConnections { made with wireSpecs := [] }) = .ok b' at h
  obtain ⟨made, hmade, hconnections⟩ := bind_eq_ok.mp h
  obtain ⟨new, hnew⟩ := loadBlocks_ok blocks registry hmade
  obtain ⟨ws, hws⟩ := allConnections_ok hconnections
  exact ⟨made, new, ws, hnew, hnew.nodes, hws⟩

omit [DecidableEq κ] in
theorem flags_of_core {l : List (Node κ ν)} (h : ∀ n ∈ l.map core, n.isConditional = false ∧ n.isLoop = false) :
    ∀ n ∈ l, n.isConditional = false ∧ n.isLoop = false := fun n hn => h (core n) (List.mem_map_of_mem hn)

omit [DecidableEq κ] in
theorem map_toBlock_core (l : List (Node κ ν)) : (l.map core).map toBlock = l.map toBlock := by
  rw [List.map_map]
  rfl

omit [DecidableEq θ] [DecidableEq κ] in
theorem accepted_of_toBlock {l l' : List (Node κ ν)} (h : l'.map toBlock = l.map toBlock)
    (haccepted : ∀ n ∈ l, accepts blocks n.kwargs n.blockClass = true) :
    ∀ n ∈ l', accepts blocks n.kwargs n.blockClass = true := by
  intro n hn
  have hmem : toBlock n ∈ l.map toBlock := h ▸ List.mem_map_of_mem hn
  obtain ⟨m, hm, he⟩ := List.mem_map.mp hmem
  have hcls : m.blockClass = n.blockClass := congrArg Block.blockClass he
  have hkwargs : m.kwargs = n.kwargs := congrArg Block.kwargs he
  rw [← hcls, ← hkwargs]
  exact haccepted m hm

omit [DecidableEq θ] in
theorem kept_workflowData (registry : BlockRegistry κ) (hwell : Well blocks b) (hnodup : (b.nodes.map Node.name).Nodup)
    (hkept : ∀ n ∈ b.nodes, ∀ v ∈ n.kwargs.values, yaml.kept v) : Kept yaml.kept (workflowData registry b) := by
  refine ⟨fun d hd v hv => ?_, fun m hm => (nomatch hwell.metadata.symm.trans hm)⟩
  rw [workflowData_blocks registry hwell.indexed hnodup] at hd
  obtain ⟨n, hn, rfl⟩ := List.mem_map.mp hd
  exact hkept n hn v hv

theorem roundTrips_of_restorable (hwell : Well blocks b) (hnodup : (b.nodes.map Node.name).Nodup)
    (h : Restorable blocks registry yaml b) : RoundTrips blocks registry yaml b := by
  have hflags : ∀ n ∈ b.nodes, n.isConditional = false ∧ n.isLoop = false :=
    fun n hn => flags_of_accepted blocks (hwell.formed n hn) (h.accepted n hn)
  have haccepted : ∀ n ∈ b.nodes, accepts blocks n.kwargs n.blockClass = true := fun n hn =>
    buildKwargs_of_flags blocks (b := b) (hflags n hn) ▸ h.accepted n hn
  let d := workflowData registry b
  have hblocks : d.blocks = b.nodes.map (serializeNode registry b) := workflowData_blocks registry hwell.indexed hnodup
  obtain ⟨file, hdump, hload⟩ := yaml.reloads d (kept_workflowData blocks registry hwell hnodup h.kept)
  -- The blocks are made, with their own keyword arguments.
  have hparams : loadedParams (emptyOf d : WorkflowBuilder κ ν).head.isSome d.blocks = d.blocks.map BlockData.params := by
    refine loadedParams_eq_iff.mpr fun e he => ?_
    rw [hblocks, List.filter_map, ← List.map_drop] at he
    obtain ⟨n, hn, rfl⟩ := List.mem_map.mp he
    exact h.unwired n hn
  have hnamed : ∀ e ∈ d.blocks, e.name ≠ [] := by
    intro e he
    rw [hblocks] at he
    obtain ⟨n, hn, rfl⟩ := List.mem_map.mp he
    exact (hwell.formed n hn).named
  obtain ⟨made, hmade⟩ := loadBlocks_succeed blocks registry (b := emptyOf d) (by
    intro e he
    refine ⟨hnamed e he, ?_⟩
    rw [hblocks] at he
    obtain ⟨n, hn, rfl⟩ := List.mem_map.mp he
    exact ⟨by rw [show (serializeNode registry b n).type = getBlockTypeName registry n.blockClass from rfl,
      h.resolved n hn]; rfl, (hwell.formed n hn).unreserved⟩) hparams
  obtain ⟨new, hnew⟩ := loadBlocks_ok blocks registry hmade
  have hcore : made.nodes.map core = new := hnew.nodes
  have hsame : made.nodes.map toBlock = b.nodes.map toBlock := by
    rw [← map_toBlock_core, hcore, map_toBlock_eq_iff]
    refine ⟨?_, ?_, ?_⟩
    · have hclasses := hnew.classes
      rw [hblocks, List.map_map] at hclasses
      have hresolved : b.nodes.map ((fun e => getBlockClass registry e.type) ∘ serializeNode registry b) =
          b.nodes.map (fun n => some n.blockClass) := List.map_congr_left fun n hn => h.resolved n hn
      rw [hresolved] at hclasses
      have hsome := congrArg (List.filterMap id) hclasses
      simpa [List.filterMap_map, Function.comp_def] using hsome
    · rw [hnew.params, hparams, hblocks, List.map_map]
      rfl
    · rw [hnew.names hnamed, hblocks, List.map_map]
      rfl
  have hnames : made.nodes.map Node.name = b.nodes.map Node.name := (map_toBlock_eq_iff.mp hsame).2.2
  have hindexed : Indexed made := hnew.indexed fun _ => rfl
  -- All connections are found again.
  have hconnections : d.blocks.foldlM loadConnections { made with wireSpecs := [] } =
      .ok { made with wireSpecs := [] ++ d.blocks.flatMap wiresOf } := allConnections_eq hindexed (hnames ▸ hnodup) (by
    intro e he
    rw [hnames]
    rw [hblocks] at he
    obtain ⟨n, hn, rfl⟩ := List.mem_map.mp he
    refine ⟨List.mem_map_of_mem hn, fun c hc => ?_⟩
    obtain ⟨w, -, hconnection⟩ := List.mem_filterMap.mp hc
    obtain ⟨target, htarget, rfl⟩ := Option.map_eq_some_iff.mp hconnection
    exact List.mem_map_of_mem (node?_eq_some hwell.indexed hnodup htarget).1) []
  let b' : WorkflowBuilder κ ν := { made with wireSpecs := [] ++ d.blocks.flatMap wiresOf }
  have hloaded : loadFromYaml blocks registry yaml file = .ok b' := by
    unfold loadFromYaml
    rw [hload]
    change (d.blocks.foldlM (loadBlock blocks registry) (emptyOf d) >>= fun made =>
      d.blocks.foldlM loadConnections { made with wireSpecs := [] }) = .ok b'
    exact bind_eq_ok.mpr ⟨made, hmade, hconnections⟩
  have hflags' : ∀ n ∈ b'.nodes, n.isConditional = false ∧ n.isLoop = false :=
    flags_of_core (hcore.symm ▸ hnew.flags)
  refine ⟨_, file, b', _, build_eq_ok blocks hflags haccepted, hdump, hloaded,
    build_eq_ok blocks hflags' (accepted_of_toBlock blocks hsame haccepted), hsame, hnew.config, fun wire => ?_⟩
  change wire ∈ joined b' ↔ wire ∈ joined b
  rw [← mem_fileWires registry hwell.indexed hnodup, ← hblocks]
  unfold joined
  rw [List.mem_filter, Bool.and_eq_true, decide_eq_true_eq, decide_eq_true_eq]
  refine ⟨And.left, fun hwire => ⟨hwire, ?_⟩⟩
  rw [hblocks, mem_fileWires registry hwell.indexed hnodup, joined, List.mem_filter, Bool.and_eq_true, decide_eq_true_eq,
    decide_eq_true_eq] at hwire
  change wire.sourceName ∈ made.nodes.map Node.name ∧ wire.targetName ∈ made.nodes.map Node.name
  rw [hnames]
  exact hwire.2

omit [DecidableEq κ] [DecidableEq θ] in
theorem mem_values_loadedParams {started : Bool} {ds : List (BlockData ν)} {v : ν}
    (hk : kwargs ∈ loadedParams started ds) (hv : v ∈ kwargs.values) : ∃ d ∈ ds, v ∈ d.params.values := by
  induction ds generalizing started with
  | nil => exact (nomatch hk)
  | cons d ds ih =>
    cases List.mem_cons.mp hk with
    | inr hk =>
      obtain ⟨e, he, hv⟩ := ih hk
      exact ⟨e, List.mem_cons_of_mem d he, hv⟩
    | inl hk =>
      refine ⟨d, List.mem_cons_self, ?_⟩
      split at hk
      · rwa [hk] at hv
      rw [hk, Dict.mem_values_iff] at hv
      obtain ⟨k, hget⟩ := hv
      rw [Dict.get_pop] at hget
      split at hget
      · exact (nomatch hget)
      · exact Dict.mem_values_iff.mpr ⟨k, hget⟩

theorem restorable_of_roundTrips (hwell : Well blocks b) (hnodup : (b.nodes.map Node.name).Nodup)
    (h : RoundTrips blocks registry yaml b) : Restorable blocks registry yaml b := by
  obtain ⟨wf, file, b', wf', hbuild, hsave, hload, hbuild', hblocks, -, -⟩ := h
  have haccepted := accepted_of_build blocks hbuild
  have hflags : ∀ n ∈ b.nodes, n.isConditional = false ∧ n.isLoop = false :=
    fun n hn => flags_of_accepted blocks (hwell.formed n hn) (haccepted n hn)
  obtain ⟨d, hd, hdata⟩ : ∃ d, yaml.load file = some d ∧ loadData blocks registry d = .ok b' := by
    unfold loadFromYaml at hload
    split at hload
    · exact (nomatch hload)
    · next d hd => exact ⟨d, hd, hload⟩
  obtain ⟨made, new, ws, hnew, hcore, rfl⟩ := loadData_ok blocks hdata
  have hflags' : ∀ n ∈ made.nodes, n.isConditional = false ∧ n.isLoop = false := flags_of_core (hcore.symm ▸ hnew.flags)
  -- The blocks that are built first and last are those of the nodes.
  have hsame : new.map toBlock = b.nodes.map toBlock := by
    have hfirst := build_eq_ok blocks hflags fun n hn => buildKwargs_of_flags blocks (b := b) (hflags n hn) ▸ haccepted n hn
    have hlast := build_eq_ok blocks (b := { made with wireSpecs := ws }) hflags' fun n hn =>
      buildKwargs_of_flags blocks (b := { made with wireSpecs := ws }) (hflags' n hn) ▸ accepted_of_build blocks hbuild' n hn
    cases hfirst.symm.trans hbuild
    cases hlast.symm.trans hbuild'
    rw [← hcore, map_toBlock_core]
    exact hblocks
  obtain ⟨hclasses, hparams, -⟩ := map_toBlock_eq_iff.mp hsame
  rw [hnew.params] at hparams
  have hkept : ∀ n ∈ b.nodes, ∀ v ∈ n.kwargs.values, yaml.kept v := by
    intro n hn v hv
    have hmem : n.kwargs ∈ loadedParams (emptyOf d : WorkflowBuilder κ ν).head.isSome d.blocks :=
      hparams ▸ List.mem_map_of_mem hn
    obtain ⟨e, he, hv⟩ := mem_values_loadedParams hmem hv
    exact (yaml.loads file d hd).1 e he v hv
  -- So the file holds what was saved.
  obtain ⟨file', hdump, hreload⟩ := yaml.reloads _ (kept_workflowData blocks registry hwell hnodup hkept)
  cases hdump.symm.trans hsave
  cases hreload.symm.trans hd
  have hdata' := workflowData_blocks registry hwell.indexed hnodup
  refine ⟨haccepted, hkept, fun n hn => ?_, fun n hn => ?_⟩
  · have hall := hnew.classes
    have hmap : new.map (fun n => some n.blockClass) = (new.map Node.blockClass).map some := by
      rw [List.map_map]
      rfl
    rw [hmap, hclasses, hdata', List.map_map, List.map_map] at hall
    exact (List.map_inj_left.mp hall n hn).symm
  · have hall : loadedParams false (workflowData registry b).blocks =
        (workflowData registry b).blocks.map BlockData.params := by
      refine hparams.trans ?_
      rw [hdata', List.map_map]
      rfl
    have hchained := loadedParams_eq_iff.mp hall (serializeNode registry b n)
    rw [hdata', List.filter_map, ← List.map_drop] at hchained
    exact hchained (List.mem_map_of_mem hn)

/-- A builder with unique names is saved and loaded as it was just in case it is restorable. With a condition or a loop it
is not. -/
theorem round_trips_iff (blocks : Blocks κ θ ν) (registry : BlockRegistry κ) (yaml : Yaml ν χ) (name : Text)
    (ops : List (Operation κ ν)) (b : WorkflowBuilder κ ν) (h : run blocks (.new name) ops = .ok b)
    (hnodup : (b.nodes.map Node.name).Nodup) :
    (RoundTrips blocks registry yaml b ↔ Restorable blocks registry yaml b) ∧
      ((∃ op ∈ ops, op.controls = true) → ¬ Restorable blocks registry yaml b) := by
  obtain ⟨hwell, hrefused⟩ := well_of_run blocks h
  refine ⟨⟨restorable_of_roundTrips blocks hwell hnodup, roundTrips_of_restorable blocks hwell hnodup⟩, ?_⟩
  intro hcontrols hrestorable
  obtain ⟨n, hn, hr⟩ := hrefused hcontrols
  have hnot := hr _ fun k hk => keys_buildKwargs blocks (b := b) hk
  exact (nomatch (hrestorable.accepted n hn).symm.trans hnot)

end RoundTrips

def source : Bool := false

def process : Bool := true

def onePort (name : String) : Workflows.Ports Unit := ⟨[(name.toList, ())], List.nodup_singleton _⟩

def simpleBlocks : Blocks Bool Unit Text where
  inputs c := if c then onePort "in1" else Workflows.Ports.none
  outputs _ := onePort "out1"
  className c := if c then "SimpleProcessBlock".toList else "SimpleInputBlock".toList
  accepts _ _ := true
  bool := ()
  dict := ()
  list := ()
  text t := t
  ports _ := []
  sources t := some [t]

def simpleRegistry : BlockRegistry Bool where
  blocks := (Dict.empty.set "test:simple_input".toList (.ordinary source)).set "test:simple_process".toList (.ordinary process)
  classPath _ := []
  importClass _ := none

def plainYaml : Yaml Text (WorkflowData Text) where
  kept _ := True
  dump := some
  load := some
  reloads d _ := ⟨d, rfl, rfl⟩
  loads _ _ _ := ⟨fun _ _ _ _ => trivial, fun _ _ _ _ => trivial⟩

def given (ops : List (Operation Bool Text)) : WorkflowBuilder Bool Text :=
  (run simpleBlocks (.new "test".toList) ops).toOption.getD (.new [])

def argument (key value : String) : Kwargs Text := Dict.empty.set key.toList value.toList

def firstCall : Operation Bool Text :=
  .use (.ordinary source) (some "input1".toList) (argument "param1" "test") []

/-- A source, two blocks in parallel and one after them. -/
def chainedOps : List (Operation Bool Text) :=
  [firstCall, .parallel [(⟨.ordinary process, some "process1".toList, argument "multiplier" "2", none⟩, []),
      (⟨.ordinary process, some "process2".toList, argument "multiplier" "3", some ["input1".toList]⟩, [])],
    .chain (.ordinary process) none Dict.empty "a1b2c3".toList]

theorem chained_round_trips : RoundTrips simpleBlocks simpleRegistry plainYaml (given chainedOps) := by
  refine (round_trips_iff simpleBlocks simpleRegistry plainYaml "test".toList chainedOps (given chainedOps) rfl
    (by decide)).1.mpr ⟨by decide, fun _ _ _ _ => trivial, by decide, by decide⟩

def branchedOps : List (Operation Bool Text) := [firstCall, .ifThen [] (some "check".toList) []]

def loopedOps : List (Operation Bool Text) := [firstCall, .loop [] (some "again".toList) "index".toList []]

/-- A second source with an argument of the name `wire_from`. -/
def twoSources : List (Operation Bool Text) :=
  [firstCall, .use (.ordinary source) (some "input2".toList) (argument "wire_from" "input1") []]

/-- The calls make a builder with unique names, and what is built does not round trip. -/
def Fails (ops : List (Operation Bool Text)) : Prop :=
  run simpleBlocks (.new "test".toList) ops = .ok (given ops) ∧ ((given ops).nodes.map Node.name).Nodup ∧
    ¬ RoundTrips simpleBlocks simpleRegistry plainYaml (given ops)

theorem builders_do_not_round_trip : Fails branchedOps ∧ Fails loopedOps ∧ Fails twoSources := by
  refine ⟨?_, ?_, ?_⟩
  · refine ⟨rfl, by decide, fun ⟨wf, _, _, _, hbuild, _⟩ => ?_⟩
    have hfails : build simpleBlocks (given branchedOps) = .error (.createBlock "ConditionBlock".toList) := rfl
    exact (nomatch hbuild.symm.trans hfails)
  · refine ⟨rfl, by decide, fun ⟨wf, _, _, _, hbuild, _⟩ => ?_⟩
    have hfails : build simpleBlocks (given loopedOps) = .error (.createBlock "LoopBlock".toList) := rfl
    exact (nomatch hbuild.symm.trans hfails)
  · refine ⟨rfl, by decide, fun ⟨wf, file, b', wf', hbuild, hsave, hload, hbuild', hblocks, _⟩ => ?_⟩
    cases hbuild
    cases hsave
    cases hload
    cases hbuild'
    exact absurd (congrArg (List.map fun block => block.kwargs.keys) hblocks) (by decide)

end Kirara.BuilderRoundTrips
