import Kirara.Workflows
import Mathlib.Data.List.Nodup

namespace Kirara.WorkflowRuns

open Kirara.Channels Kirara.Workflows

variable {β θ υ : Type}

def executedBlock? : Event β υ → Option β
  | .executed b _ _ => some b
  | .branched _ _ => none

def executedBlocks (log : List (Event β υ)) : List β := log.filterMap executedBlock?

variable {log : List (Event β υ)} {b : β}

theorem mem_executedBlocks : b ∈ executedBlocks log ↔ ∃ inputs outputs, .executed b inputs outputs ∈ log := by
  unfold executedBlocks
  rw [List.mem_filterMap]
  constructor
  · rintro ⟨e, he, hb⟩
    cases e with
    | executed c inputs outputs =>
      cases hb
      exact ⟨inputs, outputs, he⟩
    | branched c d => cases hb
  · rintro ⟨inputs, outputs, he⟩
    exact ⟨_, he, rfl⟩

/-- Names are unique, and wires join blocks of the workflow. -/
structure WellNamed (w : Workflow β θ) : Prop where
  names : (w.blocks.map (fun b => (w.block b).name)).Nodup
  joined : ∀ wire ∈ w.wires, wire.sourceBlock ∈ w.blocks ∧ wire.targetBlock ∈ w.blocks

/-- Moreover an input takes one wire at most. -/
structure Regular (w : Workflow β θ) : Prop extends WellNamed w where
  single : ∀ u ∈ w.wires, ∀ v ∈ w.wires, u.targetBlock = v.targetBlock →
    u.targetInput = v.targetInput → u = v

/-- No block raises, and each gives all the outputs it declares. -/
def Honest (w : Workflow β θ) (env : Behaviour β υ) : Prop :=
  ∀ log b inputs, ∃ outputs, env.execute log b inputs = .ok outputs ∧
    ∀ name ∈ (w.block b).outputs.names, (outputs name).isSome

/-- After a condition only along the branch it has taken. -/
def Called (w : Workflow β θ) (log : List (Event β υ)) (b : β) : Prop :=
  (w.block b).inputs.entries = [] ∨
    ∃ wire ∈ w.wires, wire.targetBlock = b ∧ wire.sourceBlock ∈ executedBlocks log ∧
      ((w.block wire.sourceBlock).kind = .condition → .branched wire.sourceBlock b ∈ log)

def RequiredWired (w : Workflow β θ) (b : β) : Prop :=
  ∀ e ∈ (w.block b).inputs.entries, e.2.nullable = false →
    ∃ wire ∈ w.wires, wire.targetBlock = b ∧ wire.targetInput = e.1

/-- What holds of a block at the moment it is executed, after `log`. -/
structure Fed [DecidableEq β] (w : Workflow β θ) (log : List (Event β υ)) (b : β)
    (inputs : List (Text × υ)) : Prop where
  member : b ∈ w.blocks
  fresh : b ∉ executedBlocks log
  called : Called w log b
  required : RequiredWired w b
  sources : ∀ wire ∈ w.wires, wire.targetBlock = b → wire.sourceBlock ∈ executedBlocks log
  given : ∀ name v, (name, v) ∈ inputs ↔ ∃ wire, inputWire w b name = some wire ∧
    ∃ from_ outputs, .executed wire.sourceBlock from_ outputs ∈ log ∧
      outputs wire.sourceOutput = some v

def Sound [DecidableEq β] (w : Workflow β θ) : List (Event β υ) → Prop
  | [] => True
  | .executed b inputs _ :: log => Fed w log b inputs ∧ Sound w log
  | .branched _ _ :: log => Sound w log

structure Inv [DecidableEq β] (w : Workflow β θ) (s : State β υ) : Prop where
  results : ∀ name outputs, s.results name = some outputs ↔
    ∃ b inputs, .executed b inputs outputs ∈ s.log ∧ (w.block b).name = name
  sound : Sound w s.log
  produced : ∀ b inputs outputs, .executed b inputs outputs ∈ s.log →
    ∀ name ∈ (w.block b).outputs.names, (outputs name).isSome

theorem inv_initial [DecidableEq β] (w : Workflow β θ) : Inv w (State.initial : State β υ) where
  results name outputs := by
    constructor
    · intro h
      cases h
    · rintro ⟨b, inputs, h, _⟩
      cases h
  sound := trivial
  produced b inputs outputs h := by cases h

variable {inputs : List (Text × υ)}

theorem fed_of_sound [DecidableEq β] {w : Workflow β θ} {outputs : Outputs υ} (hs : Sound w log)
    (he : .executed b inputs outputs ∈ log) :
    ∃ earlier later, log = later ++ .executed b inputs outputs :: earlier ∧
      Fed w earlier b inputs := by
  induction log with
  | nil => cases he
  | cons e log ih =>
    cases e with
    | executed c is os =>
      cases he with
      | head => exact ⟨log, [], rfl, hs.1⟩
      | tail _ hmem =>
        obtain ⟨earlier, later, h, hf⟩ := ih hs.2 hmem
        exact ⟨earlier, _ :: later, by rw [h]; rfl, hf⟩
    | branched c d =>
      cases he with
      | tail _ hmem =>
        obtain ⟨earlier, later, h, hf⟩ := ih hs hmem
        exact ⟨earlier, _ :: later, by rw [h]; rfl, hf⟩

theorem executedBlocks_append (l m : List (Event β υ)) :
    executedBlocks (l ++ m) = executedBlocks l ++ executedBlocks m :=
  List.filterMap_append

theorem Sound.nodup [DecidableEq β] {w : Workflow β θ} (hs : Sound w log) : (executedBlocks log).Nodup := by
  induction log with
  | nil => exact List.nodup_nil
  | cons e log ih =>
    cases e with
    | executed b inputs outputs => exact List.nodup_cons.mpr ⟨hs.1.fresh, ih hs.2⟩
    | branched b c => exact ih hs

theorem Sound.member [DecidableEq β] {w : Workflow β θ} (hs : Sound w log)
    (hb : b ∈ executedBlocks log) : b ∈ w.blocks := by
  obtain ⟨inputs, outputs, he⟩ := mem_executedBlocks.mp hb
  obtain ⟨_, _, _, hf⟩ := fed_of_sound hs he
  exact hf.member

theorem Sound.unique [DecidableEq β] {w : Workflow β θ} (hs : Sound w log)
    {inputs inputs' : List (Text × υ)} {outputs outputs' : Outputs υ}
    (h : .executed b inputs outputs ∈ log) (h' : .executed b inputs' outputs' ∈ log) :
    inputs = inputs' ∧ outputs = outputs' := by
  induction log with
  | nil => cases h
  | cons e log ih =>
    cases e with
    | branched c d =>
      cases h with
      | tail _ h =>
        cases h' with
        | tail _ h' => exact ih hs h h'
    | executed c is os =>
      cases h with
      | head =>
        cases h' with
        | head => exact ⟨rfl, rfl⟩
        | tail _ h' => exact absurd (mem_executedBlocks.mpr ⟨_, _, h'⟩) hs.1.fresh
      | tail _ h =>
        cases h' with
        | head => exact absurd (mem_executedBlocks.mpr ⟨_, _, h⟩) hs.1.fresh
        | tail _ h' => exact ih hs.2 h h'

section Results

variable [DecidableEq β] {w : Workflow β θ} {s : State β υ} (hr : WellNamed w) (hi : Inv w s)

include hr hi

theorem results_eq_some_iff (hb : b ∈ w.blocks) (outputs : Outputs υ) :
    s.results (w.block b).name = some outputs ↔ ∃ inputs, .executed b inputs outputs ∈ s.log := by
  rw [hi.results]
  constructor
  · rintro ⟨c, inputs, he, hc⟩
    have hmem := hi.sound.member (mem_executedBlocks.mpr ⟨_, _, he⟩)
    have hcb := List.inj_on_of_nodup_map hr.names hmem hb hc
    subst hcb
    exact ⟨inputs, he⟩
  · rintro ⟨inputs, he⟩
    exact ⟨b, inputs, he, rfl⟩

theorem results_isSome_iff (hb : b ∈ w.blocks) :
    (s.results (w.block b).name).isSome ↔ b ∈ executedBlocks s.log := by
  rw [Option.isSome_iff_exists, mem_executedBlocks]
  constructor
  · rintro ⟨outputs, h⟩
    obtain ⟨inputs, he⟩ := (results_eq_some_iff hr hi hb outputs).mp h
    exact ⟨inputs, outputs, he⟩
  · rintro ⟨inputs, outputs, he⟩
    exact ⟨outputs, (results_eq_some_iff hr hi hb outputs).mpr ⟨inputs, he⟩⟩

theorem carried_eq_some_iff {wire : Wire β} (hw : wire ∈ w.wires) (v : υ) :
    carried w s.results wire = some v ↔ ∃ from_ outputs,
      .executed wire.sourceBlock from_ outputs ∈ s.log ∧ outputs wire.sourceOutput = some v := by
  have hb := (hr.joined wire hw).1
  unfold carried
  rw [Option.bind_eq_some_iff]
  constructor
  · rintro ⟨outputs, h, hv⟩
    obtain ⟨from_, he⟩ := (results_eq_some_iff hr hi hb outputs).mp h
    exact ⟨from_, outputs, he, hv⟩
  · rintro ⟨from_, outputs, he, hv⟩
    exact ⟨outputs, (results_eq_some_iff hr hi hb outputs).mpr ⟨from_, he⟩, hv⟩

end Results

/-- How a log has grown: by executions of ordinary blocks only. -/
def Grows (w : Workflow β θ) (s t : State β υ) : Prop :=
  ∃ new : List (Event β υ), t.log = new ++ s.log ∧
    ∀ e ∈ new, ∃ b inputs outputs, e = .executed b inputs outputs ∧ (w.block b).kind = .normal

theorem Grows.refl (w : Workflow β θ) (s : State β υ) : Grows w s s :=
  ⟨[], rfl, fun e he => by cases he⟩

theorem Grows.trans {w : Workflow β θ} {s t u : State β υ} (h : Grows w s t) (h' : Grows w t u) :
    Grows w s u := by
  obtain ⟨new, hn, ho⟩ := h
  obtain ⟨new', hn', ho'⟩ := h'
  refine ⟨new' ++ new, by rw [hn', hn, List.append_assoc], ?_⟩
  intro e he
  rcases List.mem_append.mp he with h | h
  · exact ho' e h
  · exact ho e h

theorem Grows.mem {w : Workflow β θ} {s t : State β υ} (h : Grows w s t) {e : Event β υ}
    (he : e ∈ s.log) : e ∈ t.log := by
  obtain ⟨new, hn, _⟩ := h
  rw [hn]
  exact List.mem_append_right _ he

theorem Grows.executed {w : Workflow β θ} {s t : State β υ} (h : Grows w s t)
    (hb : b ∈ executedBlocks s.log) : b ∈ executedBlocks t.log := by
  obtain ⟨inputs, outputs, he⟩ := mem_executedBlocks.mp hb
  exact mem_executedBlocks.mpr ⟨inputs, outputs, h.mem he⟩

theorem Grows.called {w : Workflow β θ} {s t : State β υ} (h : Grows w s t)
    (hb : Called w s.log b) : Called w t.log b := by
  cases hb with
  | inl hb => exact .inl hb
  | inr hb =>
    obtain ⟨wire, hw, ht, hs, hc⟩ := hb
    exact .inr ⟨wire, hw, ht, h.executed hs, fun hk => h.mem (hc hk)⟩

variable [DecidableEq β] {wire : Wire β}

theorem wire_ports (x : WorkflowExecutor β θ) (hw : wire ∈ x.workflow.wires) :
    wire.sourceOutput ∈ (x.workflow.block wire.sourceBlock).outputs.names ∧
      ∃ input, (wire.targetInput, input) ∈
        (x.workflow.block wire.targetBlock).inputs.entries := by
  have hcheck : ∀ wires : List (Wire β), wires.forM (checkWire x.compatible x.workflow) = .ok () →
      ∀ wire ∈ wires, checkWire x.compatible x.workflow wire = .ok () := by
    intro wires
    induction wires with
    | nil => exact fun _ wire hw => by cases hw
    | cons u wires ih =>
      intro h wire hw
      change (checkWire x.compatible x.workflow u >>= fun _ => wires.forM _) = .ok () at h
      cases hu : checkWire x.compatible x.workflow u with
      | error e =>
        rw [hu] at h
        cases h
      | ok a =>
        rw [hu] at h
        cases hw with
        | head => exact hu
        | tail _ hw => exact ih h wire hw
  have h := hcheck _ x.built wire hw
  unfold checkWire Ports.lookup at h
  cases hs : (x.workflow.block wire.sourceBlock).outputs.entries.find?
      (fun e => e.1 = wire.sourceOutput) with
  | none => simp [hs] at h
  | some o =>
    cases ht : (x.workflow.block wire.targetBlock).inputs.entries.find?
        (fun e => e.1 = wire.targetInput) with
    | none => simp [hs, ht] at h
    | some i =>
      have ho : o.1 = wire.sourceOutput := by simpa using List.find?_some hs
      have hi : i.1 = wire.targetInput := by simpa using List.find?_some ht
      refine ⟨?_, i.2, ?_⟩
      · rw [← ho]
        exact List.mem_map_of_mem (List.mem_of_find?_eq_some hs)
      · rw [← hi]
        exact List.mem_of_find?_eq_some ht

theorem mem_wiresInto {w : Workflow β θ} : wire ∈ wiresInto w b ↔ wire ∈ w.wires ∧ wire.targetBlock = b := by
  simp [wiresInto]

theorem mem_executionGraph {w : Workflow β θ} {b c : β} :
    c ∈ executionGraph w b ↔ ∃ wire ∈ w.wires, wire.sourceBlock = b ∧ wire.targetBlock = c := by
  simp [executionGraph, and_assoc]

section Readiness

variable {x : WorkflowExecutor β θ} {s : State β υ} (hr : WellNamed x.workflow)
  (hi : Inv x.workflow s)

include hr hi

theorem carried_of_executed (hw : wire ∈ x.workflow.wires)
    (he : wire.sourceBlock ∈ executedBlocks s.log) : ∃ v, carried x.workflow s.results wire = some v := by
  obtain ⟨inputs, outputs, hmem⟩ := mem_executedBlocks.mp he
  obtain ⟨v, hv⟩ := Option.isSome_iff_exists.mp
    (hi.produced _ _ _ hmem _ (wire_ports x hw).1)
  exact ⟨v, (carried_eq_some_iff hr hi hw v).mpr ⟨inputs, outputs, hmem, hv⟩⟩

theorem canExecute_iff (hb : b ∈ x.workflow.blocks) :
    canExecute x.workflow s.results b = true ↔ b ∉ executedBlocks s.log ∧
      (∀ wire ∈ x.workflow.wires, wire.targetBlock = b →
        wire.sourceBlock ∈ executedBlocks s.log) ∧ RequiredWired x.workflow b := by
  have hfresh : (s.results (x.workflow.block b).name).isNone = true ↔
      b ∉ executedBlocks s.log := by
    rw [← results_isSome_iff hr hi hb]
    simp
  have hsources : (wiresInto x.workflow b).all
      (fun wire => (s.results (x.workflow.block wire.sourceBlock).name).isSome) = true ↔
      ∀ wire ∈ x.workflow.wires, wire.targetBlock = b →
        wire.sourceBlock ∈ executedBlocks s.log := by
    rw [List.all_eq_true]
    constructor
    · intro h wire hw ht
      have hs := h wire (mem_wiresInto.mpr ⟨hw, ht⟩)
      exact (results_isSome_iff hr hi (hr.joined wire hw).1).mp hs
    · intro h wire hw
      obtain ⟨hw, ht⟩ := mem_wiresInto.mp hw
      exact (results_isSome_iff hr hi (hr.joined wire hw).1).mpr (h wire hw ht)
  unfold canExecute
  rw [Bool.and_eq_true, Bool.and_eq_true, hfresh, hsources, and_assoc]
  refine and_congr_right fun _ => and_congr_right fun hall => ?_
  rw [List.all_eq_true]
  constructor
  · intro h e he hn
    have hsat := h e he
    rw [hn, Bool.or_false] at hsat
    obtain ⟨wire, hw, hc⟩ := List.any_eq_true.mp hsat
    obtain ⟨hw, ht⟩ := mem_wiresInto.mp hw
    rw [Bool.and_eq_true, decide_eq_true_eq] at hc
    exact ⟨wire, hw, ht, hc.1⟩
  · intro h e he
    cases hn : e.2.nullable with
    | true => simp
    | false =>
      obtain ⟨wire, hw, ht, hname⟩ := h e he hn
      obtain ⟨v, hv⟩ := carried_of_executed hr hi hw (hall wire hw ht)
      rw [Bool.or_false]
      refine List.any_eq_true.mpr ⟨wire, mem_wiresInto.mpr ⟨hw, ht⟩, ?_⟩
      simp [hname, hv]

end Readiness

theorem inputWire_mem {w : Workflow β θ} {name : Text} (h : inputWire w b name = some wire) :
    wire ∈ w.wires ∧ wire.targetBlock = b ∧ wire.targetInput = name := by
  have hmem := List.mem_of_getLast? h
  rw [List.mem_filter, mem_wiresInto, decide_eq_true_eq, and_assoc] at hmem
  exact hmem

theorem inputWire_isSome {w : Workflow β θ} (hw : wire ∈ w.wires) :
    (inputWire w wire.targetBlock wire.targetInput).isSome := by
  have hmem : wire ∈ (wiresInto w wire.targetBlock).filter
      (fun u => u.targetInput = wire.targetInput) := by
    rw [List.mem_filter, mem_wiresInto, decide_eq_true_eq]
    exact ⟨⟨hw, rfl⟩, rfl⟩
  rw [inputWire, List.getLast?_isSome]
  exact List.ne_nil_of_mem hmem

theorem inputWire_eq_some_iff {w : Workflow β θ} (hr : Regular w) {name : Text} :
    inputWire w b name = some wire ↔
      wire ∈ w.wires ∧ wire.targetBlock = b ∧ wire.targetInput = name := by
  constructor
  · exact inputWire_mem
  · rintro ⟨hw, rfl, rfl⟩
    obtain ⟨u, hu⟩ := Option.isSome_iff_exists.mp (inputWire_isSome hw)
    obtain ⟨hmem, ht, hname⟩ := inputWire_mem hu
    rw [hu, hr.single u hmem wire hw ht hname]

variable {x : WorkflowExecutor β θ} (hr : WellNamed x.workflow)

include hr

variable {s : State β υ}

theorem gather_eq_some (hi : Inv x.workflow s) (hall : ∀ wire ∈ x.workflow.wires, wire.targetBlock = b →
      wire.sourceBlock ∈ executedBlocks s.log)
    (entries : List (Text × Input θ))
    (hreq : ∀ e ∈ entries, e.2.nullable = false →
      ∃ wire ∈ x.workflow.wires, wire.targetBlock = b ∧ wire.targetInput = e.1) :
    ∃ inputs, gather x.workflow s.results b entries = some inputs ∧
      ∀ name v, (name, v) ∈ inputs ↔ name ∈ entries.map Prod.fst ∧
        ∃ wire, inputWire x.workflow b name = some wire ∧
          carried x.workflow s.results wire = some v := by
  induction entries with
  | nil => exact ⟨[], rfl, by simp⟩
  | cons e entries ih =>
    obtain ⟨inputs, hg, hm⟩ := ih fun e he => hreq e (List.mem_cons_of_mem _ he)
    cases hwire : inputWire x.workflow b e.1 with
    | some wire =>
      obtain ⟨hw, ht, _⟩ := inputWire_mem hwire
      obtain ⟨v, hv⟩ := carried_of_executed hr hi hw (hall wire hw ht)
      refine ⟨(e.1, v) :: inputs, by simp [gather, hwire, hv, hg], fun name u => ?_⟩
      rw [List.mem_cons, hm, List.map_cons, List.mem_cons]
      constructor
      · intro h
        cases h with
        | inl h =>
          cases h
          exact ⟨.inl rfl, wire, hwire, hv⟩
        | inr h => exact ⟨.inr h.1, h.2⟩
      · rintro ⟨hin, wire', hwire', hv'⟩
        cases hin with
        | inl hin =>
          subst hin
          rw [hwire] at hwire'
          cases hwire'
          rw [hv] at hv'
          cases hv'
          exact .inl rfl
        | inr hin => exact .inr ⟨hin, wire', hwire', hv'⟩
    | none =>
      have hnull : e.2.nullable = true := by
        by_contra hn
        obtain ⟨wire, hw, ht, hname⟩ := hreq e List.mem_cons_self (by simpa using hn)
        have hsome := inputWire_isSome hw
        rw [ht, hname, hwire] at hsome
        cases hsome
      refine ⟨inputs, by simp [gather, hwire, hnull, hg], fun name v => ?_⟩
      rw [hm, List.map_cons, List.mem_cons]
      constructor
      · exact fun h => ⟨.inr h.1, h.2⟩
      · rintro ⟨hin, wire, hw, hv⟩
        cases hin with
        | inl hin =>
          rw [hin, hwire] at hw
          cases hw
        | inr hin => exact ⟨hin, wire, hw, hv⟩

theorem gatherInputs_fed (hi : Inv x.workflow s) (hb : b ∈ x.workflow.blocks) (hc : Called x.workflow s.log b)
    (hcan : canExecute x.workflow s.results b = true) :
    ∃ inputs, gatherInputs x.workflow s.results b = some inputs ∧
      Fed x.workflow s.log b inputs := by
  obtain ⟨hfresh, hall, hreq⟩ := (canExecute_iff hr hi hb).mp hcan
  obtain ⟨inputs, hg, hm⟩ := gather_eq_some hr hi hall _ hreq
  refine ⟨inputs, hg, hb, hfresh, hc, hreq, hall, fun name v => ?_⟩
  rw [hm]
  constructor
  · rintro ⟨_, wire, hw, hv⟩
    exact ⟨wire, hw, (carried_eq_some_iff hr hi (inputWire_mem hw).1 v).mp hv⟩
  · rintro ⟨wire, hw, hv⟩
    obtain ⟨hmem, ht, hname⟩ := inputWire_mem hw
    refine ⟨?_, wire, hw, (carried_eq_some_iff hr hi hmem v).mpr hv⟩
    obtain ⟨input, hport⟩ := (wire_ports x hmem).2
    rw [ht] at hport
    rw [← hname]
    exact List.mem_map_of_mem hport

theorem inv_record (hi : Inv x.workflow s) {outputs : Outputs υ} (hf : Fed x.workflow s.log b inputs)
    (hp : ∀ name ∈ (x.workflow.block b).outputs.names, (outputs name).isSome) :
    Inv x.workflow (record x.workflow b inputs outputs s) where
  results name out := by
    simp only [record, List.mem_cons]
    by_cases hn : name = (x.workflow.block b).name
    · subst hn
      rw [Function.update_self]
      constructor
      · intro h
        cases h
        exact ⟨b, inputs, .inl rfl, rfl⟩
      · rintro ⟨c, is, he, hc⟩
        cases he with
        | inl he =>
          cases he
          rfl
        | inr he =>
          have hmem := mem_executedBlocks.mpr ⟨_, _, he⟩
          have hcb := List.inj_on_of_nodup_map hr.names (hi.sound.member hmem) hf.member hc
          rw [hcb] at hmem
          exact absurd hmem hf.fresh
    · rw [Function.update_of_ne hn, hi.results]
      constructor
      · rintro ⟨c, is, he, hc⟩
        exact ⟨c, is, .inr he, hc⟩
      · rintro ⟨c, is, he, hc⟩
        cases he with
        | inl he =>
          cases he
          exact absurd hc.symm hn
        | inr he => exact ⟨c, is, he, hc⟩
  sound := ⟨hf, hi.sound⟩
  produced c is out he := by
    cases he with
    | head => exact hp
    | tail _ he => exact hi.produced c is out he

end Kirara.WorkflowRuns
