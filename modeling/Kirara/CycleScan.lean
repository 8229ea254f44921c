import Kirara.FirstPaths
import Kirara.WorkflowValidation

namespace Kirara.CycleScan

open Kirara.Channels Kirara.Workflows Kirara.DepthFirst Kirara.FirstPaths
  Kirara.WorkflowValidation

variable {θ : Type} (registry : BlockRegistry θ) (d : WorkflowDefinition)

/-- The graph of the wires, whatever their ports are. -/
def wiredTo (name : Text) : List Text :=
  (d.wires.filter (fun wire => wire.sourceBlock = name)).map WireDefinition.targetBlock

/-- There is a cycle of wires with neither a loop nor the end of one on it. -/
def UncontrolledCycle : Prop :=
  ∃ nodes, IsCycle (wiredTo d) nodes ∧ ∀ x ∈ nodes, controls registry d x = false

structure ReportsCycles (issues : List Issue) : Prop where
  uncontrolled : (∃ i ∈ issues, i.code = .unsafeCycle) ↔ UncontrolledCycle registry d
  real : ∀ i ∈ issues, i.code = .unsafeCycle ∨ i.code = .controlledCycle →
    ∃ nodes, IsCycle (wiredTo d) nodes ∧ i = cycleIssue registry d nodes

/-- The validation ends, and its reports of cycles are right. -/
def CyclesReported : Prop :=
  ∃ issues, (∃ N, ∀ n, N ≤ n → validateWorkflowDefinition registry d n = some issues) ∧
    ReportsCycles registry d issues

/-- A valid wire leads back to a node of the first path to its source, with no loop between them. -/
def BackWire : Prop :=
  ∃ v q, FirstPath (successors registry d) [] (nodeNames registry d) v q ∧
    ∃ u ∈ successors registry d v, u ∈ q ∧
      ∀ x ∈ q.dropWhile (fun x => x ≠ u), controls registry d x = false

variable {registry d}

theorem successors_wired {a b : Text} (h : b ∈ successors registry d a) : b ∈ wiredTo d a := by
  obtain ⟨wire, hw, hs, ht⟩ := mem_successors.mp h
  unfold wiredTo
  rw [List.mem_map]
  refine ⟨wire, List.mem_filter.mpr ⟨(List.mem_filter.mp hw).1, ?_⟩, ht⟩
  rw [decide_eq_true_eq]
  exact hs

variable {nodes : List Text}

theorem isCycle_wired (h : IsCycle (successors registry d) nodes) : IsCycle (wiredTo d) nodes := by
  obtain ⟨a, ha, b, hb, hab⟩ := h.closed
  exact ⟨h.nodup, h.chain.imp fun _ _ hxy => successors_wired hxy, a, ha, b, hb,
    successors_wired hab⟩

theorem cycleIssue_unsafe_iff : (cycleIssue registry d nodes).code = .unsafeCycle ↔
      ∀ x ∈ nodes, controls registry d x = false := by
  unfold cycleIssue
  cases h : nodes.any (controls registry d) with
  | true =>
    obtain ⟨x, hx, hc⟩ := List.any_eq_true.mp h
    simp only [if_true, reduceCtorEq, false_iff, not_forall]
    exact ⟨x, hx, by simp [hc]⟩
  | false =>
    simp only [Bool.false_eq_true, if_false, true_iff]
    intro x hx
    have hall := List.any_eq_false.mp h x hx
    simpa using hall

theorem cycleIssue_code_eq {nodes nodes' : List Text} (h : sorted nodes = sorted nodes') :
    (cycleIssue registry d nodes).code = .unsafeCycle ↔
      (cycleIssue registry d nodes').code = .unsafeCycle := by
  have hmem : ∀ x, x ∈ nodes ↔ x ∈ nodes' := by
    intro x
    rw [← List.mem_insertionSort (r := (· ≤ ·)), ← List.mem_insertionSort (r := (· ≤ ·)) (l := nodes')]
    exact iff_of_eq (congrArg (x ∈ ·) h)
  rw [cycleIssue_unsafe_iff, cycleIssue_unsafe_iff]
  simp only [hmem]

variable {findings : List (Finding Text)} {i : Issue}

theorem mem_cycleIssues {reported : List (List Text)} (h : i ∈ cycleIssues registry d findings reported) :
    (∃ nodes, .cycle nodes ∈ findings ∧ i = cycleIssue registry d nodes) ∨
      ∃ name, i = depthIssue name := by
  induction findings generalizing reported with
  | nil => cases h
  | cons f findings ih =>
    have hlater : ∀ reported, i ∈ cycleIssues registry d findings reported →
        (∃ nodes, .cycle nodes ∈ f :: findings ∧ i = cycleIssue registry d nodes) ∨
          ∃ name, i = depthIssue name := by
      intro reported h
      cases ih h with
      | inl h =>
        obtain ⟨nodes, hn, hi⟩ := h
        exact .inl ⟨nodes, List.mem_cons_of_mem _ hn, hi⟩
      | inr h => exact .inr h
    cases f with
    | tooDeep name =>
      cases List.mem_cons.mp h with
      | inl h => exact .inr ⟨name, h⟩
      | inr h => exact hlater _ h
    | cycle nodes =>
      unfold cycleIssues at h
      by_cases hr : sorted nodes ∈ reported
      · rw [if_pos hr] at h
        exact hlater _ h
      · rw [if_neg hr] at h
        cases List.mem_cons.mp h with
        | inl h => exact .inl ⟨nodes, List.mem_cons_self, h⟩
        | inr h => exact hlater _ h

theorem cycleIssues_reports (reported : List (List Text)) (h : .cycle nodes ∈ findings) :
    sorted nodes ∈ reported ∨ ∃ nodes', sorted nodes = sorted nodes' ∧
      cycleIssue registry d nodes' ∈ cycleIssues registry d findings reported := by
  induction findings generalizing reported with
  | nil => cases h
  | cons f findings ih =>
    cases f with
    | tooDeep name =>
      cases h with
      | tail _ h =>
        cases ih reported h with
        | inl hr => exact .inl hr
        | inr hr =>
          obtain ⟨nodes', hs, hmem⟩ := hr
          exact .inr ⟨nodes', hs, List.mem_cons_of_mem _ hmem⟩
    | cycle first =>
      unfold cycleIssues
      by_cases hr : sorted first ∈ reported
      · rw [if_pos hr]
        cases h with
        | head => exact .inl hr
        | tail _ h => exact ih reported h
      · rw [if_neg hr]
        cases h with
        | head => exact .inr ⟨nodes, rfl, List.mem_cons_self⟩
        | tail _ h =>
          cases ih (sorted first :: reported) h with
          | inl hin =>
            cases List.mem_cons.mp hin with
            | inl heq => exact .inr ⟨first, heq, List.mem_cons_self⟩
            | inr hin => exact .inl hin
          | inr hr =>
            obtain ⟨nodes', hs, hmem⟩ := hr
            exact .inr ⟨nodes', hs, List.mem_cons_of_mem _ hmem⟩

variable {reachable : List Text} {issues : List Issue}

theorem mem_issues_iff (h : Validated registry d reachable findings issues)
    (hi : i.code.ofCycle = true) : i ∈ issues ↔ i ∈ cycleIssues registry d findings [] := by
  rw [h.issues]
  constructor
  · intro hmem
    simp only [List.mem_append, List.mem_flatMap] at hmem
    obtain ((((⟨_, _, hmem⟩ | hmem) | ⟨_, _, hmem⟩) | hmem) | hmem) | hmem := hmem
    · obtain hc | hc := blockIssues_code hmem
      · simp [hc, IssueCode.ofCycle] at hi
      · simp [hc, IssueCode.ofCycle] at hi
    · have hc := wireIssues_code hmem
      cases hcode : i.code with
      | unsafeCycle => simp [hcode, IssueCode.ofWire] at hc
      | controlledCycle => simp [hcode, IssueCode.ofWire] at hc
      | _ => simp [hcode, IssueCode.ofCycle] at hi
    · simp [mem_missingInputs hmem, IssueCode.ofCycle] at hi
    · simp [entryIssues_code hmem, IssueCode.ofCycle] at hi
    · simp [unreachableIssues_code hmem, IssueCode.ofCycle] at hi
    · exact hmem
  · exact fun hmem => List.mem_append_right _ hmem

theorem cycleIssue_found (hi : i.code.ofCycle = true) (h : i ∈ cycleIssues registry d findings []) :
    ∃ nodes, .cycle nodes ∈ findings ∧ i = cycleIssue registry d nodes := by
  cases mem_cycleIssues h with
  | inl h => exact h
  | inr h =>
    obtain ⟨name, rfl⟩ := h
    cases hi

variable (h : Validated registry d reachable findings issues)

include h

theorem reported_real (hi : i ∈ issues) (hcode : i.code.ofCycle = true) :
    ∃ nodes, .cycle nodes ∈ findings ∧ IsCycle (wiredTo d) nodes ∧
      i = cycleIssue registry d nodes := by
  obtain ⟨nodes, hn, rfl⟩ := cycleIssue_found hcode ((mem_issues_iff h hcode).mp hi)
  obtain ⟨visited, hex⟩ := h.explored
  have hw : Walk (successors registry d) [] (nodeNames registry d) :=
    ⟨List.nodup_nil, List.IsChain.nil, fun c _ v hv => by cases hv⟩
  exact ⟨nodes, hn, isCycle_wired (found_isCycle hex hw hn), rfl⟩

theorem unsafe_reported_iff : (∃ i ∈ issues, i.code = .unsafeCycle) ↔
      ∃ nodes, .cycle nodes ∈ findings ∧ ∀ x ∈ nodes, controls registry d x = false := by
  constructor
  · rintro ⟨i, hi, hcode⟩
    obtain ⟨nodes, hn, _, rfl⟩ := reported_real h hi (by rw [hcode]; rfl)
    exact ⟨nodes, hn, cycleIssue_unsafe_iff.mp hcode⟩
  · rintro ⟨nodes, hn, hc⟩
    have hcode := cycleIssue_unsafe_iff.mpr hc
    cases cycleIssues_reports [] hn with
    | inl hr => cases hr
    | inr hr =>
      obtain ⟨nodes', hs, hmem⟩ := hr
      have hcode' := (cycleIssue_code_eq hs).mp hcode
      exact ⟨_, (mem_issues_iff h (by rw [hcode']; rfl)).mpr hmem, hcode'⟩

theorem unsafe_reported_real (hu : ∃ i ∈ issues, i.code = .unsafeCycle) : UncontrolledCycle registry d := by
  obtain ⟨i, hi, hcode⟩ := hu
  obtain ⟨nodes, _, hcycle, rfl⟩ := reported_real h hi (by rw [hcode]; rfl)
  exact ⟨nodes, hcycle, cycleIssue_unsafe_iff.mp hcode⟩

theorem unsafe_iff_backWire (hs : Shallow (successors registry d) maxCycleScanDepth) :
    (∃ i ∈ issues, i.code = .unsafeCycle) ↔ BackWire registry d := by
  obtain ⟨visited, hex⟩ := h.explored
  rw [unsafe_reported_iff h]
  simp only [scan_cycles hex hs]
  constructor
  · rintro ⟨nodes, ⟨v, q, hq, u, hu, huq, rfl⟩, hc⟩
    exact ⟨v, q, hq, u, hu, huq, hc⟩
  · rintro ⟨v, q, hq, u, hu, huq, hc⟩
    exact ⟨_, ⟨v, q, hq, u, hu, huq, rfl⟩, hc⟩

theorem reportsCycles_iff : ReportsCycles registry d issues ↔
      (UncontrolledCycle registry d → ∃ i ∈ issues, i.code = .unsafeCycle) := by
  constructor
  · exact fun hr => hr.uncontrolled.mpr
  · intro hu
    refine ⟨⟨unsafe_reported_real h, hu⟩, fun i hi hcode => ?_⟩
    obtain ⟨nodes, _, hcycle, heq⟩ := reported_real h hi (by
      cases hcode with
      | inl hcode => rw [hcode]; rfl
      | inr hcode => rw [hcode]; rfl)
    exact ⟨nodes, hcycle, heq⟩

theorem cyclesReported_iff : CyclesReported registry d ↔ ReportsCycles registry d issues := by
  constructor
  · rintro ⟨other, ⟨N, hN⟩, hr⟩
    obtain ⟨M, hM⟩ := h.ends
    have hsame := (hN (max N M) (by omega)).symm.trans (hM (max N M) (by omega))
    cases hsame
    exact hr
  · exact fun hr => ⟨issues, h.ends, hr⟩

omit h

def step : Text := "step".toList

def loopStep : Text := "loop".toList

def start : Text := "start".toList

/-- Blocks with two optional inputs and one output, a loop among them, and one without inputs. -/
def stepRegistry : BlockRegistry Unit where
  get name :=
    if name = step then some ⟨.normal, false,
      ⟨[("a".toList, ⟨(), true⟩), ("b".toList, ⟨(), true⟩)], by decide⟩,
      ⟨[("out".toList, ())], by decide⟩⟩
    else if name = loopStep then some ⟨.loop, false, ⟨[("a".toList, ⟨(), true⟩)], by decide⟩,
      ⟨[("out".toList, ())], by decide⟩⟩
    else if name = start then some ⟨.normal, false, Ports.none, ⟨[("out".toList, ())], by decide⟩⟩
    else none
  typeName _ := "Any".toList
  isTypeCompatible _ _ := true

/-- The loop `B` is on the cycle `A → B → C → A`, but not on `A → C → A`. -/
def maskedDefinition : WorkflowDefinition where
  blocks := [⟨"S".toList, start, none, none⟩, ⟨"A".toList, step, none, none⟩,
    ⟨"B".toList, loopStep, none, none⟩, ⟨"C".toList, step, none, none⟩]
  wires := [⟨"S".toList, "out".toList, "A".toList, "a".toList⟩,
    ⟨"A".toList, "out".toList, "B".toList, "a".toList⟩,
    ⟨"B".toList, "out".toList, "C".toList, "a".toList⟩,
    ⟨"C".toList, "out".toList, "A".toList, "b".toList⟩,
    ⟨"A".toList, "out".toList, "C".toList, "b".toList⟩]

end Kirara.CycleScan
