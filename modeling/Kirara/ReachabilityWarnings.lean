import Kirara.WorkflowSchedules
import Kirara.WorkflowValidation

namespace Kirara.ReachabilityWarnings

open Kirara.Channels Kirara.Workflows Kirara.WorkflowRuns Kirara.WorkflowSchedules
  Kirara.WorkflowValidation

section Upstream

variable {β θ : Type}

def Feeds (w : Workflow β θ) (a b : β) : Prop :=
  ∃ wire ∈ w.wires, wire.sourceBlock = a ∧ wire.targetBlock = b

def Upstream (w : Workflow β θ) (a b : β) : Prop := Relation.ReflTransGen (Feeds w) a b

def OnCycle (w : Workflow β θ) (a : β) : Prop := Relation.TransGen (Feeds w) a a

/-- No block upstream is on a cycle, and those that no wire leads to take no
inputs. -/
structure UpstreamStarts (w : Workflow β θ) (b : β) : Prop where
  acyclic : ∀ a, Upstream w a b → ¬ OnCycle w a
  sources : ∀ a, Upstream w a b → (∀ wire ∈ w.wires, wire.targetBlock ≠ a) →
    (w.block a).inputs.entries = []

theorem UpstreamStarts.source {w : Workflow β θ} {a b : β} (h : UpstreamStarts w b)
    (hab : Feeds w a b) : UpstreamStarts w a :=
  ⟨fun c hc => h.acyclic c (hc.tail hab), fun c hc => h.sources c (hc.tail hab)⟩

open Classical in
theorem startable_of_upstreamStarts {w : Workflow β θ} (hw : WellNamed w)
    (hr : ∀ b ∈ w.blocks, RequiredWired w b) (n : Nat) (b : β) (hb : b ∈ w.blocks)
    (hn : (w.blocks.toFinset.filter (fun a => Upstream w a b)).card = n)
    (h : UpstreamStarts w b) : Startable w b := by
  induction n using Nat.strong_induction_on generalizing b with
  | h n ih =>
    by_cases hwired : ∃ wire ∈ w.wires, wire.targetBlock = b
    · refine .wired hwired (hr b hb) fun wire hwire ht => ?_
      have hfeeds : Feeds w wire.sourceBlock b := ⟨wire, hwire, rfl, ht⟩
      refine ih _ ?_ wire.sourceBlock (hw.joined wire hwire).1 rfl (h.source hfeeds)
      rw [← hn]
      apply Finset.card_lt_card
      rw [Finset.ssubset_iff_of_subset]
      · refine ⟨b, ?_, fun hmem => ?_⟩
        · rw [Finset.mem_filter, List.mem_toFinset]
          exact ⟨hb, .refl⟩
        · exact h.acyclic b .refl (Relation.TransGen.tail' (Finset.mem_filter.mp hmem).2 hfeeds)
      · intro a ha
        rw [Finset.mem_filter] at ha ⊢
        exact ⟨ha.1, ha.2.tail hfeeds⟩
    · refine .entry (h.sources b .refl fun wire hwire ht => hwired ⟨wire, hwire, ht⟩)

variable [DecidableEq β] {x : WorkflowExecutor β θ} {b : β}

theorem Startable.not_onCycle (h : Startable x.workflow b) : ¬ OnCycle x.workflow b := by
  induction h with
  | @entry b hb =>
    intro hcycle
    obtain ⟨c, _, wire, hw, _, ht⟩ := Relation.TransGen.tail'_iff.mp hcycle
    obtain ⟨input, hport⟩ := (wire_ports x hw).2
    rw [ht, hb] at hport
    cases hport
  | @wired b _ _ _ ih =>
    intro hcycle
    obtain ⟨c, hbc, wire, hw, hs, ht⟩ := Relation.TransGen.tail'_iff.mp hcycle
    refine ih wire hw ht ?_
    rw [hs]
    exact Relation.TransGen.head' ⟨wire, hw, hs, ht⟩ hbc

theorem Startable.upstream (h : Startable x.workflow b) {a : β} (ha : Upstream x.workflow a b) : Startable x.workflow a := by
  induction ha using Relation.ReflTransGen.head_induction_on with
  | refl => exact h
  | head hstep _ ih =>
    obtain ⟨wire, hw, rfl, rfl⟩ := hstep
    cases ih with
    | entry hb =>
      obtain ⟨input, hport⟩ := (wire_ports x hw).2
      rw [hb] at hport
      cases hport
    | wired _ _ hs => exact hs wire hw rfl

theorem upstreamStarts_of_startable (h : Startable x.workflow b) : UpstreamStarts x.workflow b where
  acyclic a ha := Startable.not_onCycle (Startable.upstream h ha)
  sources a ha hnone := by
    cases Startable.upstream h ha with
    | entry hb => exact hb
    | wired hw =>
      obtain ⟨wire, hw, ht⟩ := hw
      exact absurd ht (hnone wire hw)

theorem startable_iff_upstreamStarts (hw : WellNamed x.workflow)
    (hr : ∀ b ∈ x.workflow.blocks, RequiredWired x.workflow b) (hb : b ∈ x.workflow.blocks) : Startable x.workflow b ↔ UpstreamStarts x.workflow b :=
  ⟨upstreamStarts_of_startable, startable_of_upstreamStarts hw hr _ b hb rfl⟩

end Upstream

variable {θ : Type} (registry : BlockRegistry θ) (anyType : θ) (d : WorkflowDefinition)

def declaredInputs (block : BlockDefinition) : Ports (Input θ) where
  entries := (dynamicPortNames block inputsKey).map (fun name => (name, ⟨anyType, false⟩))
  distinct := by
    rw [List.map_map]
    exact (List.map_id'' (fun _ => rfl) _).symm ▸ dynamicPortNames_nodup block inputsKey

def declaredOutputs (block : BlockDefinition) : Ports θ where
  entries := (dynamicPortNames block outputsKey).map (fun name => (name, anyType))
  distinct := by
    rw [List.map_map]
    exact (List.map_id'' (fun _ => rfl) _).symm ▸ dynamicPortNames_nodup block outputsKey

def instantiateBlock (name : Text) : Block θ :=
  match findBlock d name, findClass registry d name with
  | some block, some cls =>
    if cls.declaresPorts then
      ⟨name, cls.kind, declaredInputs anyType block, declaredOutputs anyType block⟩
    else ⟨name, cls.kind, cls.inputs, cls.outputs⟩
  | _, _ => ⟨name, .normal, Ports.none, Ports.none⟩

def instantiateWire (wire : WireDefinition) : Wire Text :=
  ⟨wire.sourceBlock, wire.sourceOutput, wire.targetBlock, wire.targetInput⟩

/-- The workflow built from a definition; the nodes go by their names. -/
def instantiate : Workflow Text θ where
  block := instantiateBlock registry anyType d
  blocks := d.blocks.map BlockDefinition.name
  wires := d.wires.map instantiateWire

def Warned (issues : List Issue) (node : Text) : Prop :=
  ∃ i ∈ issues, i.code = .unreachableNode ∧ i.nodeName = some node

def NodeRuns (υ : Type) (x : WorkflowExecutor Text θ) (node : Text) : Prop :=
  ∀ env : Behaviour Text υ, Honest x.workflow env → ∃ s,
    (∀ n, x.workflow.blocks.length < n → run x env n = some (none, s)) ∧
    node ∈ executedBlocks s.log

variable {registry anyType d}

def NoError (issues : List Issue) : Prop := ∀ i ∈ issues, i.severity ≠ .error

theorem NoError.left {l m : List Issue} (h : NoError (l ++ m)) : NoError l :=
  fun i hi => h i (List.mem_append_left _ hi)

theorem NoError.right {l m : List Issue} (h : NoError (l ++ m)) : NoError m :=
  fun i hi => h i (List.mem_append_right _ hi)

theorem NoError.not_of_ite {p : Prop} [Decidable p] {i : Issue} (hi : i.severity = .error)
    (h : NoError (if p then [i] else [])) : ¬ p := by
  intro hp
  rw [if_pos hp] at h
  exact h i List.mem_cons_self hi

theorem NoError.of_ite {p : Prop} [Decidable p] {i : Issue} (hi : i.severity = .error)
    (h : NoError (if p then [] else [i])) : p := by
  by_contra hp
  rw [if_neg hp] at h
  exact h i List.mem_cons_self hi

theorem blockIssues_clean {block : BlockDefinition} (h : NoError (blockIssues registry d block)) :
    (d.blocks.map BlockDefinition.name).count block.name ≤ 1 ∧
      (registry.get block.typeName).isSome := by
  have hcount := NoError.not_of_ite rfl h.left
  have hknown := NoError.not_of_ite rfl h.right
  refine ⟨by omega, ?_⟩
  rw [Bool.not_eq_true, Option.isNone_eq_false_iff] at hknown
  exact hknown

structure WiresClean (registry : BlockRegistry θ) (d : WorkflowDefinition)
    (wires : List WireDefinition) (connected : List (Text × Text)) : Prop where
  known : ∀ wire ∈ wires, portsKnown registry d wire = true
  compatible : ∀ wire ∈ wires, typesCompatible registry d wire = true
  fresh : ∀ wire ∈ wires, wire.inputKey ∉ connected
  single : (wires.map WireDefinition.inputKey).Nodup

theorem typeIssues_clean {wire : WireDefinition} (h : NoError (typeIssues registry d wire)) :
    typesCompatible registry d wire = true := by
  unfold typeIssues at h
  unfold typesCompatible
  split at h
  · exact NoError.of_ite rfl h
  · rfl

theorem portsKnown_of_clean {wire : WireDefinition} (hn : nodesKnown registry d wire = true)
    (h : NoError (portIssues registry d wire)) : portsKnown registry d wire = true := by
  have hout := NoError.of_ite rfl h.left
  have hin := NoError.of_ite rfl h.right
  unfold portsKnown
  rw [hn, hout, hin]
  rfl

theorem wireIssues_clean (hc : ∀ name, (findBlock d name).isSome →
      (findClass registry d name).isSome) (wires : List WireDefinition)
    (connected : List (Text × Text)) (h : NoError (wireIssues registry d wires connected)) :
    WiresClean registry d wires connected := by
  induction wires generalizing connected with
  | nil =>
    exact ⟨fun _ hw => absurd hw List.not_mem_nil, fun _ hw => absurd hw List.not_mem_nil,
      fun _ hw => absurd hw List.not_mem_nil, List.nodup_nil⟩
  | cons wire wires ih =>
    unfold wireIssues at h
    have hsource := NoError.not_of_ite rfl h.left.left
    have htarget := NoError.not_of_ite rfl h.left.right
    rw [Bool.not_eq_true, Option.isNone_eq_false_iff] at hsource htarget
    have hnodes : nodesKnown registry d wire = true := by
      unfold nodesKnown
      rw [hsource, htarget, hc _ hsource, hc _ htarget]
      rfl
    have h := h.right
    rw [if_pos hnodes] at h
    have hports := portsKnown_of_clean hnodes h.left
    have h := h.right
    rw [if_pos hports] at h
    have hfresh := NoError.not_of_ite rfl h.left.left
    have hrest := ih _ h.right
    refine ⟨?_, ?_, ?_, ?_⟩
    · intro u hu
      cases List.mem_cons.mp hu with
      | inl heq => exact heq ▸ hports
      | inr hu => exact hrest.known u hu
    · intro u hu
      cases List.mem_cons.mp hu with
      | inl heq => exact heq ▸ typeIssues_clean h.left.right
      | inr hu => exact hrest.compatible u hu
    · intro u hu
      cases List.mem_cons.mp hu with
      | inl heq => exact heq ▸ hfresh
      | inr hu => exact fun hmem => hrest.fresh u hu (List.mem_cons_of_mem _ hmem)
    · rw [List.map_cons, List.nodup_cons]
      refine ⟨fun hmem => ?_, hrest.single⟩
      obtain ⟨u, hu, heq⟩ := List.mem_map.mp hmem
      exact hrest.fresh u hu (heq ▸ List.mem_cons_self)

variable {name : Text}

theorem mem_blockClasses {blocks : List BlockDefinition} {known : List (Text × BlockClass θ)} :
    name ∈ (blockClasses registry blocks known).map Prod.fst ↔
      name ∈ known.map Prod.fst ∨
        ∃ block ∈ blocks, block.name = name ∧ (registry.get block.typeName).isSome := by
  induction blocks generalizing known with
  | nil => simp [blockClasses]
  | cons block blocks ih =>
    unfold blockClasses
    cases hg : registry.get block.typeName with
    | none => simp [ih, hg]
    | some cls =>
      simp only [List.mem_cons, exists_eq_or_imp, hg, Option.isSome_some, and_true]
      by_cases hmem : block.name ∈ known.map Prod.fst
      · rw [if_pos hmem, ih]
        constructor
        · rintro (h | h)
          · exact .inl h
          · exact .inr (.inr h)
        · rintro (h | rfl | h)
          · exact .inl h
          · exact .inl hmem
          · exact .inr h
      · rw [if_neg hmem, ih, List.map_append, List.mem_append, or_assoc]
        apply or_congr_right
        apply or_congr_left
        rw [List.map_cons, List.map_nil, List.mem_singleton]
        exact eq_comm

theorem findClass_isSome : (findClass registry d name).isSome ↔
    ∃ block ∈ d.blocks, block.name = name ∧ (registry.get block.typeName).isSome := by
  have hmem : name ∈ (blockClasses registry d.blocks []).map Prod.fst ↔ _ := mem_blockClasses
  simp only [List.map_nil, List.not_mem_nil, false_or] at hmem
  rw [← hmem]
  unfold findClass classes
  rw [Option.isSome_map, List.find?_isSome, List.mem_map]
  simp only [decide_eq_true_eq]

theorem findBlock_isSome : (findBlock d name).isSome ↔ name ∈ d.blocks.map BlockDefinition.name := by
  unfold findBlock
  rw [List.find?_isSome, List.mem_map]
  simp only [decide_eq_true_eq]

theorem mem_classes_of_findClass {cls : BlockClass θ}
    (h : findClass registry d name = some cls) : (name, cls) ∈ classes registry d := by
  unfold findClass at h
  obtain ⟨e, he, rfl⟩ := Option.map_eq_some_iff.mp h
  have hname : e.1 = name := by simpa using List.find?_some he
  rw [← hname]
  exact List.mem_of_find?_eq_some he

/-- What the absence of errors says of a definition. -/
structure Clean (registry : BlockRegistry θ) (d : WorkflowDefinition) : Prop where
  names : (d.blocks.map BlockDefinition.name).Nodup
  known : ∀ name ∈ d.blocks.map BlockDefinition.name, (findClass registry d name).isSome
  wires : WiresClean registry d d.wires []
  inputs : ∀ name cls, findClass registry d name = some cls →
    ∀ e ∈ cls.inputs.entries, e.2.nullable = false → inputWired registry d name e.1 = true
  dynamic : ∀ name ∈ d.blocks.map BlockDefinition.name, ∀ port ∈ dynamicInputs d name,
    inputWired registry d name port = true

theorem clean_of_noError {reachable : List Text} {findings : List (DepthFirst.Finding Text)}
    {issues : List Issue} (h : Validated registry d reachable findings issues)
    (hn : NoError issues) : Clean registry d := by
  rw [h.issues] at hn
  have hinputs := hn.left.left.left.right
  have hwires := hn.left.left.left.left.right
  have hblocks : ∀ block ∈ d.blocks, NoError (blockIssues registry d block) :=
    fun block hb i hi => hn.left.left.left.left.left i (List.mem_flatMap.mpr ⟨block, hb, hi⟩)
  have hknown : ∀ name ∈ d.blocks.map BlockDefinition.name,
      (findClass registry d name).isSome := by
    intro name hname
    obtain ⟨block, hb, rfl⟩ := List.mem_map.mp hname
    exact findClass_isSome.mpr ⟨block, hb, rfl, (blockIssues_clean (hblocks block hb)).2⟩
  have hnode : ∀ name cls, findClass registry d name = some cls → NoError
      (inputIssues registry d (name, cls)) := fun name cls hc i hi =>
    hinputs i (List.mem_flatMap.mpr ⟨_, mem_classes_of_findClass hc, hi⟩)
  refine ⟨?_, hknown, ?_, ?_, ?_⟩
  · rw [List.nodup_iff_count_le_one]
    intro name
    by_cases hname : name ∈ d.blocks.map BlockDefinition.name
    · obtain ⟨block, hb, rfl⟩ := List.mem_map.mp hname
      exact (blockIssues_clean (hblocks block hb)).1
    · rw [List.count_eq_zero_of_not_mem hname]
      omega
  · exact wireIssues_clean (fun name hs => hknown name (findBlock_isSome.mp hs)) _ _ hwires
  · intro name cls hc e he hnull
    by_contra hw
    refine (hnode name cls hc).left (missingInput name e.1) ?_ rfl
    rw [List.mem_map]
    exact ⟨e, List.mem_filter.mpr ⟨he, by simp [hnull, hw]⟩, rfl⟩
  · intro name hname port hport
    by_contra hw
    obtain ⟨cls, hc⟩ := Option.isSome_iff_exists.mp (hknown name hname)
    refine (hnode name cls hc).right (missingInput name port) ?_ rfl
    rw [List.mem_map]
    refine ⟨port, List.mem_filter.mpr ⟨?_, by simp [hw]⟩, rfl⟩
    exact (List.mem_insertionSort _).mpr hport

theorem wired_of_inputWired {name port : Text} (h : inputWired registry d name port = true) :
    ∃ wire ∈ (instantiate registry anyType d).wires, wire.targetBlock = name ∧
      wire.targetInput = port := by
  obtain ⟨wire, hw, hkey⟩ := List.any_eq_true.mp h
  rw [decide_eq_true_eq] at hkey
  obtain ⟨rfl, rfl⟩ := Prod.mk.inj hkey
  exact ⟨instantiateWire wire, List.mem_map_of_mem (List.mem_filter.mp hw).1, rfl, rfl⟩

section Built

variable (hc : Clean registry d)

include hc

theorem Clean.wellNamed : WellNamed (instantiate registry anyType d) where
  names := by
    have hname : ∀ name, (instantiateBlock registry anyType d name).name = name := by
      intro name
      unfold instantiateBlock
      split
      · split
        · rfl
        · rfl
      · rfl
    have hmap : (instantiate registry anyType d).blocks.map
        (fun b => ((instantiate registry anyType d).block b).name) =
          d.blocks.map BlockDefinition.name := by
      apply List.map_id''
      exact hname
    rw [hmap]
    exact hc.names
  joined wire hw := by
    obtain ⟨u, hu, rfl⟩ := List.mem_map.mp hw
    have hknown := hc.wires.known u hu
    unfold portsKnown nodesKnown at hknown
    simp only [Bool.and_eq_true] at hknown
    exact ⟨findBlock_isSome.mp hknown.1.1.1.1.1, findBlock_isSome.mp hknown.1.1.1.1.2⟩

theorem Clean.requiredWired (hname : name ∈ (instantiate registry anyType d).blocks) :
    RequiredWired (instantiate registry anyType d) name := by
  intro e he hnull
  obtain ⟨block, hb⟩ := Option.isSome_iff_exists.mp (findBlock_isSome.mpr hname)
  obtain ⟨cls, hcls⟩ := Option.isSome_iff_exists.mp (hc.known name hname)
  have hblock : (instantiate registry anyType d).block name =
      instantiateBlock registry anyType d name := rfl
  rw [hblock, instantiateBlock, hb, hcls] at he
  simp only at he
  split at he
  · obtain ⟨port, hport, rfl⟩ := List.mem_map.mp he
    refine wired_of_inputWired (hc.dynamic name hname port ?_)
    rw [dynamicInputs, hb]
    exact hport
  · exact wired_of_inputWired (hc.inputs name cls hcls e he hnull)

end Built

theorem instantiateBlock_kind (hk : ∀ name cls, findClass registry d name = some cls →
    cls.kind = .normal) : (instantiateBlock registry anyType d name).kind = .normal := by
  unfold instantiateBlock
  split
  · next hcls =>
    split
    · exact hk name _ hcls
    · exact hk name _ hcls
  · rfl

/-- The validation and the executor agree on a node unless one upstream of it has inputs that no
wire leads to, or is on a cycle. -/
theorem node_runs_iff {υ : Type} [Inhabited υ] (x : WorkflowExecutor Text θ)
    (hx : x.workflow = instantiate registry anyType d)
    (hk : ∀ name cls, findClass registry d name = some cls → cls.kind = .normal)
    (node : Text) (hnode : node ∈ d.blocks.map BlockDefinition.name) :
    ∃ issues, (∃ N, ∀ n, N ≤ n → validateWorkflowDefinition registry d n = some issues) ∧
      ((NoError issues → ¬ Warned issues node → NodeRuns υ x node) ↔
        ¬ NoError issues ∨ Warned issues node ∨ UpstreamStarts x.workflow node) := by
  obtain ⟨reachable, findings, issues, h⟩ := validated registry d
  refine ⟨issues, h.ends, ?_⟩
  have hruns : NoError issues → (NodeRuns υ x node ↔ UpstreamStarts x.workflow node) := by
    intro hn
    have hc := clean_of_noError h hn
    have hw : WellNamed x.workflow := hx ▸ hc.wellNamed
    have hmem : node ∈ x.workflow.blocks := hx ▸ hnode
    have hreq : ∀ b ∈ x.workflow.blocks, RequiredWired x.workflow b := by
      rw [hx]
      exact fun b hb => hc.requiredWired hb
    have hnormal : ∀ b ∈ x.workflow.blocks, (x.workflow.block b).kind = .normal := by
      rw [hx]
      exact fun b _ => instantiateBlock_kind hk
    rw [← startable_iff_upstreamStarts hw hreq hmem]
    constructor
    · intro hrun
      obtain ⟨s, hs, hex⟩ := hrun ⟨fun _ _ _ => .ok fun _ => some default, fun _ => true⟩
        fun _ _ _ => ⟨_, rfl, fun _ _ => rfl⟩
      obtain ⟨t, ht, hi, _⟩ := run_settles (υ := υ) x
        ⟨fun _ _ _ => .ok fun _ => some default, fun _ => true⟩ hw hnormal
        fun _ _ _ => ⟨_, rfl, fun _ _ => rfl⟩
      have hsame := (hs _ (Nat.lt_succ_self _)).symm.trans (ht _ (Nat.lt_succ_self _))
      cases hsame
      exact startable_of_executed hi.sound hex
    · intro hstart env hh
      obtain ⟨s, hs, hi, hwait⟩ := run_settles x env hw hnormal hh
      exact ⟨s, hs, executed_of_startable hw hwait hstart hmem⟩
  constructor
  · intro hclaim
    by_cases hn : NoError issues
    · by_cases hwarn : Warned issues node
      · exact .inr (.inl hwarn)
      · exact .inr (.inr ((hruns hn).mp (hclaim hn hwarn)))
    · exact .inl hn
  · rintro (hn | hwarn | hup) hno hnot
    · exact absurd hno hn
    · exact absurd hwarn hnot
    · exact (hruns hno).mpr hup

def port (name : String) : Text := name.toList

/-- Classes without inputs, with an optional input, and with two required ones. -/
def fanRegistry : BlockRegistry Unit where
  get name :=
    if name = port "entry" then
      some ⟨.normal, false, Ports.none, ⟨[(port "out", ())], by decide⟩⟩
    else if name = port "optional" then
      some ⟨.normal, false, ⟨[(port "in", ⟨(), true⟩)], by decide⟩,
        ⟨[(port "out", ())], by decide⟩⟩
    else if name = port "join" then
      some ⟨.normal, false, ⟨[(port "a", ⟨(), false⟩), (port "b", ⟨(), false⟩)], by decide⟩,
        Ports.none⟩
    else none
  typeName _ := port "Any"
  isTypeCompatible _ _ := true

/-- `X` joins the entry `E` with `Y`, which has an optional input and no wire. -/
def fanDefinition : WorkflowDefinition where
  blocks := [⟨port "E", port "entry", none, none⟩, ⟨port "Y", port "optional", none, none⟩,
    ⟨port "X", port "join", none, none⟩]
  wires := [⟨port "E", port "out", port "X", port "a"⟩, ⟨port "Y", port "out", port "X", port "b"⟩]

def fanExecutor : WorkflowExecutor Text Unit :=
  ⟨fun _ _ => true, instantiate fanRegistry () fanDefinition, by decide⟩

def fanBlocks : Behaviour Text Nat := ⟨fun _ _ _ => .ok fun _ => some 0, fun _ => true⟩

theorem joined_node_not_executed :
    (∃ issues, validateWorkflowDefinition fanRegistry fanDefinition 20 = some issues ∧
      NoError issues ∧ ¬ Warned issues (port "X")) ∧
    (run fanExecutor fanBlocks 4).map (fun p => (p.1, executedBlocks p.2.log)) =
      some (none, [port "E"]) ∧
    ¬ NodeRuns Nat fanExecutor (port "X") := by
  have hrun : (run fanExecutor fanBlocks 4).map (fun p => (p.1, executedBlocks p.2.log)) =
      some (none, [port "E"]) := by
    decide
  refine ⟨⟨_, rfl, by unfold NoError; decide, by unfold Warned; decide⟩, hrun, fun h => ?_⟩
  obtain ⟨s, hs, hmem⟩ := h fanBlocks fun _ _ _ => ⟨_, rfl, fun _ _ => rfl⟩
  rw [hs 4 (by decide)] at hrun
  have hlog := congrArg Prod.snd (Option.some.inj hrun)
  simp only at hlog
  rw [hlog] at hmem
  revert hmem
  decide

theorem node_runs_iff_entry : ∃ issues, (∃ N, ∀ n, N ≤ n →
        validateWorkflowDefinition fanRegistry fanDefinition n = some issues) ∧
      ((NoError issues → ¬ Warned issues (port "E") → NodeRuns Nat fanExecutor (port "E")) ↔
        ¬ NoError issues ∨ Warned issues (port "E") ∨
          UpstreamStarts fanExecutor.workflow (port "E")) :=
  node_runs_iff fanExecutor rfl (by
    intro name cls h
    have hmem := mem_classes_of_findClass h
    have hall : ∀ e ∈ classes fanRegistry fanDefinition, e.2.kind = .normal := by decide
    exact hall _ hmem) (port "E") (by decide)

end Kirara.ReachabilityWarnings
