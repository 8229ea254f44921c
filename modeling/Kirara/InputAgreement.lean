import Kirara.WorkflowRuns

namespace Kirara.InputAgreement

open Kirara.Channels Kirara.Workflows Kirara.WorkflowRuns

variable {β θ υ : Type} [DecidableEq β] {w : Workflow β θ} {results : Text → Option (Outputs υ)} {b : β}

/-- The inputs are gathered without an exception, with each that the block requires. -/
def GathersAll (w : Workflow β θ) (results : Text → Option (Outputs υ)) (b : β) : Prop :=
  ∃ inputs, gatherInputs w results b = some inputs ∧
    ∀ e ∈ (w.block b).inputs.entries, e.2.nullable = false → ∃ v, (e.1, v) ∈ inputs

def LastWiresCarry (w : Workflow β θ) (results : Text → Option (Outputs υ)) (b : β) : Prop :=
  ∀ e ∈ (w.block b).inputs.entries, ∀ wire, inputWire w b e.1 = some wire → (carried w results wire).isSome = true

theorem wired_of_canExecute (h : canExecute w results b = true) {e : Text × Input θ}
    (he : e ∈ (w.block b).inputs.entries) (hrequired : e.2.nullable = false) : ∃ wire, inputWire w b e.1 = some wire := by
  unfold canExecute at h
  rw [Bool.and_eq_true, List.all_eq_true] at h
  have hsatisfied := h.2 e he
  rw [hrequired, Bool.or_false] at hsatisfied
  obtain ⟨wire, hwire, hcarries⟩ := List.any_eq_true.mp hsatisfied
  obtain ⟨hw, ht⟩ := mem_wiresInto.mp hwire
  rw [Bool.and_eq_true, decide_eq_true_eq] at hcarries
  have hsome := inputWire_isSome hw
  rw [ht, hcarries.1] at hsome
  exact Option.isSome_iff_exists.mp hsome

theorem gather_eq_some_iff {entries : List (Text × Input θ)} {inputs : List (Text × υ)} :
    gather w results b entries = some inputs ↔
      (∀ e ∈ entries, ∀ wire, inputWire w b e.1 = some wire → (carried w results wire).isSome = true) ∧
      (∀ e ∈ entries, inputWire w b e.1 = none → e.2.nullable = true) ∧
      inputs = entries.filterMap fun e => ((inputWire w b e.1).bind (carried w results)).map (e.1, ·) := by
  induction entries generalizing inputs with
  | nil =>
    constructor
    · intro h
      cases h
      exact ⟨List.forall_mem_nil _, List.forall_mem_nil _, rfl⟩
    · rintro ⟨-, -, rfl⟩
      rfl
  | cons e entries ih =>
    unfold gather
    rw [List.forall_mem_cons, List.forall_mem_cons, List.filterMap_cons]
    cases hwire : inputWire w b e.1 with
    | none =>
      cases hnull : e.2.nullable with
      | true => simp [ih]
      | false => simp
    | some wire =>
      cases hcarried : carried w results wire with
      | none => simp [hcarried]
      | some v =>
        simp only [Option.bind_some, Option.map_eq_some_iff, ih, hcarried]
        constructor
        · rintro ⟨rest, ⟨hwires, hnone, hrest⟩, rfl⟩
          exact ⟨⟨by simp [hcarried], hwires⟩, ⟨by rintro ⟨⟩, hnone⟩, by rw [hrest]; rfl⟩
        · rintro ⟨⟨-, hwires⟩, ⟨-, hnone⟩, rfl⟩
          exact ⟨_, ⟨hwires, hnone, rfl⟩, rfl⟩

theorem gathers_all_iff (h : canExecute w results b = true) :
    GathersAll w results b ↔ LastWiresCarry w results b := by
  constructor
  · intro ⟨inputs, hgather, _⟩
    exact (gather_eq_some_iff.mp hgather).1
  · intro hlast
    have hnone : ∀ e ∈ (w.block b).inputs.entries, inputWire w b e.1 = none → e.2.nullable = true := by
      intro e he hfree
      by_contra hrequired
      obtain ⟨wire, hwire⟩ := wired_of_canExecute h he (by simpa using hrequired)
      exact (nomatch hwire.symm.trans hfree)
    refine ⟨_, gather_eq_some_iff.mpr ⟨hlast, hnone, rfl⟩, fun e he hrequired => ?_⟩
    obtain ⟨wire, hwire⟩ := wired_of_canExecute h he hrequired
    obtain ⟨v, hv⟩ := Option.isSome_iff_exists.mp (hlast e he wire hwire)
    refine ⟨v, List.mem_filterMap.mpr ⟨e, he, ?_⟩⟩
    rw [hwire, Option.bind_some, hv, Option.map_some]

def left : Text := "left".toList

def right : Text := "right".toList

def value : Text := "value".toList

def fork (nullable : Bool) (wires : List (Wire Bool)) : Workflow Bool Unit where
  block b := match b with
    | false => ⟨"source".toList, .normal, Ports.none, ⟨[(left, ()), (right, ())], by decide⟩⟩
    | true => ⟨"sink".toList, .normal, ⟨[(value, ⟨(), nullable⟩)], List.nodup_singleton _⟩, Ports.none⟩
  blocks := [false, true]
  wires := wires

def leftOnly : Text → Option (Outputs Nat) :=
  fun name => if name = "source".toList then some fun output => if output = left then some 1 else none else none

/-- The last of two wires to one input carries the value. -/
def mergedWires : WorkflowExecutor Bool Unit :=
  ⟨fun _ _ => true, fork false [⟨false, right, true, value⟩, ⟨false, left, true, value⟩], by decide⟩

theorem mergedWires_gathers : GathersAll mergedWires.workflow leftOnly true :=
  (gathers_all_iff (by decide)).mpr (by
    intro e he wire hwire
    obtain rfl := List.mem_singleton.mp he
    have hlast : inputWire mergedWires.workflow true value = some ⟨false, left, true, value⟩ := rfl
    cases hlast.symm.trans hwire
    rfl)

def shadowedWire : WorkflowExecutor Bool Unit :=
  ⟨fun _ _ => true, fork false [⟨false, left, true, value⟩, ⟨false, right, true, value⟩], by decide⟩

/-- A nullable input is wired to an output that was not produced. -/
def unproduced : WorkflowExecutor Bool Unit := ⟨fun _ _ => true, fork true [⟨false, right, true, value⟩], by decide⟩

theorem not_gathersAll_of_isNone {x : WorkflowExecutor Bool Unit}
    (hnone : (gatherInputs x.workflow leftOnly true).isNone = true) : ¬ GathersAll x.workflow leftOnly true := by
  intro ⟨inputs, h, _⟩
  rw [h] at hnone
  exact (nomatch hnone)

theorem ready_blocks_fail :
    (canExecute shadowedWire.workflow leftOnly true = true ∧ ¬ GathersAll shadowedWire.workflow leftOnly true) ∧
      canExecute unproduced.workflow leftOnly true = true ∧ ¬ GathersAll unproduced.workflow leftOnly true :=
  ⟨⟨by decide, not_gathersAll_of_isNone (by decide)⟩, by decide, not_gathersAll_of_isNone (by decide)⟩

end Kirara.InputAgreement
