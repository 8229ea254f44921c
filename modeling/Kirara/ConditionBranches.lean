import Kirara.WorkflowSchedules

namespace Kirara.ConditionBranches

open Kirara.Channels Kirara.Workflows Kirara.WorkflowRuns Kirara.WorkflowSchedules

variable {β θ υ : Type} [DecidableEq β]

/-- Ordinary blocks and conditions, which declare the result they are asked for. -/
structure Conditional (w : Workflow β θ) : Prop where
  kinds : ∀ b ∈ w.blocks, (w.block b).kind = .normal ∨ (w.block b).kind = .condition
  declared : ∀ b ∈ w.blocks, (w.block b).kind = .condition →
    conditionResult ∈ (w.block b).outputs.names

/-- The branch a result stands for: the block of the first wire, or of the next. -/
def selected (w : Workflow β θ) (b : β) (condition : Bool) : Option β :=
  match executionGraph w b with
  | [] => none
  | first :: rest => if condition then some first else rest.find? (fun c => c ≠ first)

variable {condition : Bool}

theorem selected_ne {w : Workflow β θ} {b c d : β}
    (hc : selected w b condition = some c) (hd : selected w b (!condition) = some d) : c ≠ d := by
  unfold selected at hc hd
  cases hg : executionGraph w b with
  | nil => simp [hg] at hc
  | cons first rest =>
    have hother : ∀ e, rest.find? (fun c => c ≠ first) = some e → e ≠ first := fun e he => by
      simpa using List.find?_some he
    cases condition with
    | true =>
      simp only [hg, if_true, Option.some.injEq, Bool.not_true, Bool.false_eq_true, if_false] at hc hd
      rw [← hc]
      exact (hother d hd).symm
    | false =>
      simp only [hg, Bool.false_eq_true, if_false, Bool.not_false, if_true, Option.some.injEq] at hc hd
      rw [← hd]
      exact hother c hc

/-- The blocks that can only be come to along the branch to `head`. -/
inductive OnlyThrough (w : Workflow β θ) (b head : β) : β → Prop where
  | head (hw : ∃ wire ∈ w.wires, wire.targetBlock = head)
      (hs : ∀ wire ∈ w.wires, wire.targetBlock = head → wire.sourceBlock = b) :
      OnlyThrough w b head head
  | after {c : β} (hw : ∃ wire ∈ w.wires, wire.targetBlock = c)
      (hs : ∀ wire ∈ w.wires, wire.targetBlock = c → OnlyThrough w b head wire.sourceBlock) :
      OnlyThrough w b head c

def branchFrom? (b : β) : Event β υ → Option β
  | .executed _ _ _ => none
  | .branched c target => if c = b then some target else none

/-- The blocks that have been started as a branch of `b`. -/
def branchesFrom (log : List (Event β υ)) (b : β) : List β := log.filterMap (branchFrom? b)

variable {log : List (Event β υ)}

theorem mem_branchesFrom {b target : β} : target ∈ branchesFrom log b ↔ .branched b target ∈ log := by
  rw [branchesFrom, List.mem_filterMap]
  constructor
  · rintro ⟨e, he, hb⟩
    cases e with
    | executed c is os => cases hb
    | branched c d =>
      simp only [branchFrom?, Option.ite_none_right_eq_some, Option.some.injEq] at hb
      rw [← hb.1, ← hb.2]
      exact he
  · intro he
    exact ⟨_, he, by simp [branchFrom?]⟩

variable {s : State β υ}

theorem branchesFrom_branch_self {b target : β} :
    branchesFrom (branch b target s).log b = target :: branchesFrom s.log b :=
  List.filterMap_cons_some (by simp [branchFrom?])

theorem branchesFrom_branch_of_ne {b c target : β} (h : c ≠ b) :
    branchesFrom (branch b target s).log c = branchesFrom s.log c :=
  List.filterMap_cons_none (by simp [branchFrom?, h.symm])

/-- What the log of a complete run shows of the conditions of the workflow. -/
structure RunsConditions (w : Workflow β θ) (env : Behaviour β υ) (log : List (Event β υ)) :
    Prop where
  once : ∀ b ∈ w.blocks, (w.block b).kind = .condition → (executedBlocks log).count b = 1
  after : ∀ later b inputs outputs earlier, log = later ++ .executed b inputs outputs :: earlier →
    (w.block b).kind = .condition →
    ∀ wire ∈ w.wires, wire.targetBlock = b → wire.sourceBlock ∈ executedBlocks earlier
  starts : ∀ b inputs outputs, .executed b inputs outputs ∈ log →
    (w.block b).kind = .condition → ∃ v, outputs conditionResult = some v ∧
      branchesFrom log b = (selected w b (env.truthy v)).toList
  spares : ∀ b inputs outputs v, .executed b inputs outputs ∈ log →
    (w.block b).kind = .condition → outputs conditionResult = some v →
    ∀ head, selected w b (!env.truthy v) = some head →
    ∀ c, OnlyThrough w b head c → c ∉ executedBlocks log

def ConditionsWork (υ : Type) (x : WorkflowExecutor β θ) : Prop :=
  ∀ env : Behaviour β υ, Honest x.workflow env → ∃ s,
    (∀ n, x.workflow.blocks.length < n → run x env n = some (none, s)) ∧
    RunsConditions x.workflow env s.log

/-- A condition without inputs whose first two wires, or only one, tell the branches apart. -/
def PlainCondition (w : Workflow β θ) (b : β) : Prop :=
  (w.block b).inputs.entries = [] ∧
    ((∃ first, executionGraph w b = [first]) ∨
      ∃ first second rest, executionGraph w b = first :: second :: rest ∧ second ≠ first)

def followed (w : Workflow β θ) (b : β) (condition : Bool) : Option β :=
  if condition then (executionGraph w b).head? else (executionGraph w b)[1]?

variable {b : β}

theorem takeBranch_followed {w : Workflow β θ} {nodes : List β → State β υ → Outcome β υ} :
    takeBranch w nodes b condition s =
      match followed w b condition with
      | some target => nodes [target] (branch b target s)
      | none => if condition then some (some .indexError, s) else some (none, s) := by
  unfold takeBranch followed
  cases condition with
  | true =>
    cases executionGraph w b with
    | nil => rfl
    | cons first rest => rfl
  | false =>
    cases executionGraph w b with
    | nil => rfl
    | cons first rest =>
      cases rest with
      | nil => rfl
      | cons second rest => rfl

theorem followed_mem {w : Workflow β θ} {b target : β}
    (h : followed w b condition = some target) : target ∈ executionGraph w b := by
  unfold followed at h
  cases condition with
  | true => exact List.mem_of_head? h
  | false => exact List.mem_of_getElem? h

theorem PlainCondition.followed_eq {w : Workflow β θ} (h : PlainCondition w b)
    (condition : Bool) : followed w b condition = selected w b condition := by
  obtain ⟨_, hone | htwo⟩ := h
  · obtain ⟨first, hg⟩ := hone
    cases condition with
    | true => simp [followed, selected, hg]
    | false => simp [followed, selected, hg]
  · obtain ⟨first, second, rest, hg, hne⟩ := htwo
    cases condition with
    | true => simp [followed, selected, hg]
    | false => simp [followed, selected, hg, hne]

theorem PlainCondition.followed_true {w : Workflow β θ} (h : PlainCondition w b) :
    ∃ first, followed w b true = some first := by
  obtain ⟨_, hone | htwo⟩ := h
  · obtain ⟨first, hg⟩ := hone
    exact ⟨first, by simp [followed, hg]⟩
  · obtain ⟨first, second, rest, hg, _⟩ := htwo
    exact ⟨first, by simp [followed, hg]⟩

section Reached

variable {x : WorkflowExecutor β θ} {env : Behaviour β υ}

def Reached (w : Workflow β θ) (b : β) : Prop :=
  (w.block b).inputs.entries = [] ∨ ∃ wire ∈ w.wires, wire.targetBlock = b

theorem reached_of_mem {w : Workflow β θ} {b c : β} (h : c ∈ executionGraph w b) : Reached w c := by
  obtain ⟨wire, hw, _, ht⟩ := mem_executionGraph.mp h
  exact .inr ⟨wire, hw, ht⟩

omit [DecidableEq β] in
theorem sequence_preserves {J : State β υ → Prop} {P : β → Prop} {f : β → State β υ → Outcome β υ}
    (hf : ∀ b s t, P b → f b s = some (none, t) → J s → J t) (bs : List β) {s t : State β υ}
    (hbs : ∀ b ∈ bs, P b) (h : sequence f bs s = some (none, t)) (hJ : J s) : J t := by
  induction bs generalizing s with
  | nil =>
    cases h
    exact hJ
  | cons b bs ih =>
    unfold Workflows.sequence at h
    cases hb : f b s with
    | none => simp [hb] at h
    | some p =>
      obtain ⟨failure, u⟩ := p
      cases failure with
      | some e => simp [hb] at h
      | none =>
        rw [hb] at h
        exact ih (fun c hc => hbs c (List.mem_cons_of_mem _ hc)) h
          (hf b s u (hbs b List.mem_cons_self) hb hJ)

/-- What each execution of a block or condition keeps, a part of a run that ends well keeps. -/
structure Kept (w : Workflow β θ) (env : Behaviour β υ) (J : State β υ → Prop) : Prop where
  record : ∀ b inputs outputs s, (w.block b).kind ≠ .condition → J s →
    J (record w b inputs outputs s)
  branch : ∀ b inputs outputs v target s, (w.block b).kind = .condition → Reached w b →
    gatherInputs w s.results b = some inputs → runInExecutor env s.log b inputs = .ok outputs →
    outputs conditionResult = some v → followed w b (env.truthy v) = some target → J s →
    J (branch b target (Workflows.record w b inputs outputs s))
  stop : ∀ b inputs outputs v s, (w.block b).kind = .condition → Reached w b →
    gatherInputs w s.results b = some inputs → runInExecutor env s.log b inputs = .ok outputs →
    outputs conditionResult = some v → env.truthy v = false → followed w b false = none → J s →
    J (Workflows.record w b inputs outputs s)

section Nodes

variable {w : Workflow β θ} {J : State β υ → Prop} (hk : Kept w env J)
  {nodes : List β → State β υ → Outcome β υ}
  (hn : ∀ bs s t, (∀ b ∈ bs, Reached w b) → nodes bs s = some (none, t) → J s → J t)

include hk hn

theorem executeNormalBlock_preserves {s t : State β υ} (hb : (w.block b).kind ≠ .condition)
    (h : executeNormalBlock w env nodes b s = some (none, t)) (hJ : J s) : J t := by
  unfold executeNormalBlock at h
  by_cases hc : canExecute w s.results b = true
  · rw [if_pos hc] at h
    cases hg : gatherInputs w s.results b with
    | none => simp [hg] at h
    | some inputs =>
      cases he : env.execute s.log b inputs with
      | error e => simp [hg, he] at h
      | ok outputs =>
        simp only [hg, he] at h
        cases hr : nodes (executionGraph w b) (record w b inputs outputs s) with
        | none => simp [hr, wrap] at h
        | some p =>
          obtain ⟨failure, u⟩ := p
          cases failure with
          | some e => simp [hr, wrap] at h
          | none =>
            rw [hr] at h
            cases h
            exact hn _ _ _ (fun c hc => reached_of_mem hc) hr (hk.record _ _ _ _ hb hJ)
  · rw [if_neg hc] at h
    cases h
    exact hJ

theorem executeConditionalBranch_preserves {s t : State β υ}
    (hb : (w.block b).kind = .condition) (hr : Reached w b)
    (h : executeConditionalBranch w env nodes b s = some (none, t)) (hJ : J s) : J t := by
  unfold executeConditionalBranch at h
  cases hg : gatherInputs w s.results b with
  | none => simp [hg] at h
  | some inputs =>
    cases he : runInExecutor env s.log b inputs with
    | error e => simp [hg, he] at h
    | ok outputs =>
      cases hv : outputs conditionResult with
      | none => simp [hg, he, hv] at h
      | some v =>
        simp only [hg, he, hv, takeBranch_followed] at h
        cases hf : followed w b (env.truthy v) with
        | some target =>
          rw [hf] at h
          refine hn _ _ _ (fun c hc => ?_) h (hk.branch _ _ _ _ _ _ hb hr hg he hv hf hJ)
          rw [List.mem_singleton.mp hc]
          exact reached_of_mem (followed_mem hf)
        | none =>
          cases ht : env.truthy v with
          | true =>
            rw [ht] at hf
            simp [hf, ht] at h
          | false =>
            rw [ht] at hf
            simp only [hf, ht, Bool.false_eq_true, if_false, Option.some.injEq, Prod.mk.injEq,
              true_and] at h
            rw [← h]
            exact hk.stop _ _ _ _ _ hb hr hg he hv ht hf hJ

theorem executeLoop_preserves {again : State β υ → Outcome β υ}
    (ha : ∀ s t, again s = some (none, t) → J s → J t) {s t : State β υ} (hb : (w.block b).kind ≠ .condition)
    (h : executeLoop w env nodes again b s = some (none, t)) (hJ : J s) : J t := by
  unfold executeLoop at h
  cases hg : gatherInputs w s.results b with
  | none => simp [hg] at h
  | some inputs =>
    cases he : runInExecutor env s.log b inputs with
    | error e => simp [hg, he] at h
    | ok outputs =>
      have hrec := hk.record b inputs outputs s hb hJ
      cases hv : outputs shouldContinue with
      | none => simp [hg, he, hv] at h
      | some v =>
        simp only [hg, he, hv] at h
        by_cases ht : env.truthy v = true
        · rw [if_pos ht] at h
          cases hx : executionGraph w b with
          | nil => simp [hx] at h
          | cons loopBody rest =>
            simp only [hx] at h
            cases hr : nodes [loopBody] (record w b inputs outputs s) with
            | none => simp [hr] at h
            | some p =>
              obtain ⟨failure, u⟩ := p
              cases failure with
              | some e => simp [hr] at h
              | none =>
                rw [hr] at h
                refine ha u t h (hn _ _ _ (fun c hc => ?_) hr hrec)
                rw [List.mem_singleton.mp hc]
                exact reached_of_mem (hx ▸ List.mem_cons_self)
        · rw [if_neg ht] at h
          cases h
          exact hrec

end Nodes

theorem executeBlock_preserves {w : Workflow β θ} {J : State β υ → Prop} (hk : Kept w env J)
    (n : Nat) (b : β) (s t : State β υ) (hb : Reached w b)
    (h : executeBlock w env n b s = some (none, t)) (hJ : J s) : J t := by
  induction n generalizing b s t with
  | zero => cases h
  | succ n ih =>
    have hn : ∀ bs s t, (∀ b ∈ bs, Reached w b) →
        sequence (executeBlock w env n) bs s = some (none, t) → J s → J t :=
      fun bs s t hbs hs => sequence_preserves ih bs hbs hs
    rw [executeBlock] at h
    cases hkind : (w.block b).kind with
    | condition =>
      simp only [hkind] at h
      exact executeConditionalBranch_preserves hk hn hkind hb h hJ
    | loop =>
      simp only [hkind] at h
      exact executeLoop_preserves hk hn (fun s t => ih b s t hb) (by simp [hkind]) h hJ
    | normal =>
      simp only [hkind] at h
      exact executeNormalBlock_preserves hk hn (by simp [hkind]) h hJ
    | loopEnd =>
      simp only [hkind] at h
      exact executeNormalBlock_preserves hk hn (by simp [hkind]) h hJ

theorem run_preserves {J : State β υ → Prop} (hk : Kept x.workflow env J) {n : Nat}
    {t : State β υ} (h : run x env n = some (none, t)) (hJ : J State.initial) : J t := by
  refine sequence_preserves (executeBlock_preserves hk n) _ (fun b hb => .inl ?_) h hJ
  exact List.isEmpty_iff.mp (List.mem_filter.mp hb).2

end Reached

section Fed

variable {x : WorkflowExecutor β θ} {env : Behaviour β υ} {inputs : List (Text × υ)}

theorem gather_name {w : Workflow β θ} {results : Text → Option (Outputs υ)}
    {entries : List (Text × Input θ)} {name : Text}
    (h : gather w results b entries = some inputs) (hname : name ∈ entries.map Prod.fst)
    (hw : (inputWire w b name).isSome) : inputs ≠ [] := by
  induction entries generalizing inputs with
  | nil => cases hname
  | cons e entries ih =>
    unfold gather at h
    cases hwire : inputWire w b e.1 with
    | some wire =>
      simp only [hwire, Option.bind_eq_some_iff, Option.map_eq_some_iff] at h
      obtain ⟨v, _, rest, _, hcons⟩ := h
      rw [← hcons]
      exact List.cons_ne_nil _ _
    | none =>
      simp only [hwire, Option.ite_none_right_eq_some] at h
      rw [List.map_cons, List.mem_cons] at hname
      cases hname with
      | inl heq =>
        rw [heq, hwire] at hw
        cases hw
      | inr hmem => exact ih h.2 hmem

theorem fed_condition_fails {wire : Wire β} (hw : wire ∈ x.workflow.wires) {outputs : Outputs υ}
    (hg : gatherInputs x.workflow s.results wire.targetBlock = some inputs)
    (hr : runInExecutor env s.log wire.targetBlock inputs = .ok outputs) : False := by
  obtain ⟨input, hport⟩ := (wire_ports x hw).2
  have hne := gather_name hg (List.mem_map_of_mem hport) (inputWire_isSome hw)
  unfold runInExecutor at hr
  rw [if_neg (by rw [List.isEmpty_iff]; exact hne)] at hr
  cases hr

theorem reached_input_fails (hb : (x.workflow.block b).inputs.entries ≠ []) (hreach : Reached x.workflow b)
    {outputs : Outputs υ} (hg : gatherInputs x.workflow s.results b = some inputs)
    (hr : runInExecutor env s.log b inputs = .ok outputs) : False := by
  cases hreach with
  | inl h => exact hb h
  | inr h =>
    obtain ⟨wire, hw, rfl⟩ := h
    exact fed_condition_fails hw hg hr

variable {t : State β υ}

theorem condition_with_inputs_not_executed (hk : (x.workflow.block b).kind = .condition)
    (hb : (x.workflow.block b).inputs.entries ≠ []) {n : Nat}
    (h : run x env n = some (none, t)) : b ∉ executedBlocks t.log := by
  refine run_preserves (J := fun s => b ∉ executedBlocks s.log) ⟨?_, ?_, ?_⟩ h List.not_mem_nil
  · intro c inputs outputs s hc hs hmem
    cases List.mem_cons.mp hmem with
    | inl heq => exact hc (heq ▸ hk)
    | inr hmem => exact hs hmem
  · intro c inputs outputs v target s _ hreach hg hr _ _ hs hmem
    cases List.mem_cons.mp hmem with
    | inl heq =>
      subst heq
      exact reached_input_fails hb hreach hg hr
    | inr hmem => exact hs hmem
  · intro c inputs outputs v s _ hreach hg hr _ _ _ hs hmem
    cases List.mem_cons.mp hmem with
    | inl heq =>
      subst heq
      exact reached_input_fails hb hreach hg hr
    | inr hmem => exact hs hmem

theorem unwired_condition_not_executed
    (hk : (x.workflow.block b).kind = .condition) (hb : executionGraph x.workflow b = [])
    (ht : ∀ v, env.truthy v = true) {n : Nat}
    (h : run x env n = some (none, t)) : b ∉ executedBlocks t.log := by
  refine run_preserves (J := fun s => b ∉ executedBlocks s.log) ⟨?_, ?_, ?_⟩ h List.not_mem_nil
  · intro c inputs outputs s hc hs hmem
    cases List.mem_cons.mp hmem with
    | inl heq => exact hc (heq ▸ hk)
    | inr hmem => exact hs hmem
  · intro c inputs outputs v target s _ _ _ _ _ hf hs hmem
    cases List.mem_cons.mp hmem with
    | inl heq =>
      have hin := followed_mem hf
      rw [← heq, hb] at hin
      cases hin
    | inr hmem => exact hs hmem
  · intro c inputs outputs v s _ _ _ _ _ hfalse
    rw [ht v] at hfalse
    cases hfalse

theorem condition_takes_second {b second : β} (hk : (x.workflow.block b).kind = .condition)
    (hb : (executionGraph x.workflow b)[1]? = some second) (ht : ∀ v, env.truthy v = false)
    {n : Nat} (h : run x env n = some (none, t))
    (he : b ∈ executedBlocks t.log) : second ∈ branchesFrom t.log b := by
  have hfollow : followed x.workflow b false = some second := by simp [followed, hb]
  refine run_preserves
    (J := fun s => b ∈ executedBlocks s.log → second ∈ branchesFrom s.log b)
    ⟨?_, ?_, ?_⟩ h (fun h => absurd h List.not_mem_nil) he
  · intro c inputs outputs s hc hs hmem
    cases List.mem_cons.mp hmem with
    | inl heq => exact absurd (heq ▸ hk) hc
    | inr hmem => exact mem_branchesFrom.mpr (List.mem_cons_of_mem _ (mem_branchesFrom.mp (hs hmem)))
  · intro c inputs outputs v target s _ _ _ _ _ hf hs hmem
    rw [ht v] at hf
    rw [mem_branchesFrom]
    cases List.mem_cons.mp hmem with
    | inl heq =>
      rw [← heq, hfollow] at hf
      cases hf
      rw [heq]
      exact List.mem_cons_self
    | inr hmem =>
      exact List.mem_cons_of_mem _ (List.mem_cons_of_mem _ (mem_branchesFrom.mp (hs hmem)))
  · intro c inputs outputs v s _ _ _ _ _ _ hf hs hmem
    cases List.mem_cons.mp hmem with
    | inl heq =>
      rw [← heq, hfollow] at hf
      cases hf
    | inr hmem => exact mem_branchesFrom.mpr (List.mem_cons_of_mem _ (mem_branchesFrom.mp (hs hmem)))

end Fed

section Plain

variable {x : WorkflowExecutor β θ} {env : Behaviour β υ}

structure Branched (w : Workflow β θ) (env : Behaviour β υ) (log : List (Event β υ)) : Prop where
  starts : ∀ b inputs outputs, .executed b inputs outputs ∈ log →
    (w.block b).kind = .condition → ∃ v, outputs conditionResult = some v ∧
      branchesFrom log b = (selected w b (env.truthy v)).toList
  later : ∀ b, b ∉ executedBlocks log → branchesFrom log b = []

variable {w : Workflow β θ}

theorem Branched.grows {s t : State β υ} (h : Branched w env s.log)
    (hg : Grows w s t) : Branched w env t.log := by
  obtain ⟨new, hnew, hordinary⟩ := hg
  have hsame : ∀ b, branchesFrom t.log b = branchesFrom s.log b := by
    intro b
    have hnone : new.filterMap (branchFrom? b) = [] := by
      rw [List.filterMap_eq_nil_iff]
      intro e he
      obtain ⟨c, is, os, rfl, _⟩ := hordinary e he
      rfl
    rw [branchesFrom, hnew, List.filterMap_append, hnone, List.nil_append]
    rfl
  refine ⟨fun b inputs outputs he hk => ?_, fun b hb => ?_⟩
  · rw [hnew, List.mem_append] at he
    cases he with
    | inl he =>
      obtain ⟨c, is, os, heq, hc⟩ := hordinary _ he
      cases heq
      rw [hk] at hc
      cases hc
    | inr he =>
      rw [hsame]
      exact h.starts b inputs outputs he hk
  · rw [hsame]
    refine h.later b fun hmem => hb ?_
    rw [hnew, executedBlocks_append]
    exact List.mem_append_right _ hmem

/-- An execution of an entry that the run of the entries goes on from. -/
structure Entered (w : Workflow β θ) (env : Behaviour β υ) (s t : State β υ) (b : β) : Prop where
  inv : Inv w t
  branched : Branched w env t.log
  kept : ∀ c ∈ executedBlocks s.log, c ∈ executedBlocks t.log
  condition : (w.block b).kind = .condition → b ∈ executedBlocks t.log
  others : ∀ c ∈ executedBlocks t.log, (w.block c).kind = .condition →
    c = b ∨ c ∈ executedBlocks s.log

omit [DecidableEq β] in
theorem Grows.condition_executed {s t : State β υ} (h : Grows w s t) {c : β}
    (hc : c ∈ executedBlocks t.log) (hk : (w.block c).kind = .condition) : c ∈ executedBlocks s.log := by
  obtain ⟨new, hnew, hordinary⟩ := h
  rw [hnew, executedBlocks_append, List.mem_append] at hc
  cases hc with
  | inr hc => exact hc
  | inl hc =>
    obtain ⟨inputs, outputs, he⟩ := mem_executedBlocks.mp hc
    obtain ⟨d, is, os, heq, hd⟩ := hordinary _ he
    cases heq
    rw [hk] at hd
    cases hd

theorem fed_entry (hb : b ∈ x.workflow.blocks)
    (hi : (x.workflow.block b).inputs.entries = []) (hf : b ∉ executedBlocks log) :
    Fed x.workflow log b ([] : List (Text × υ)) := by
  have hnone : ∀ wire ∈ x.workflow.wires, wire.targetBlock ≠ b := by
    intro wire hw ht
    obtain ⟨input, hport⟩ := (wire_ports x hw).2
    rw [ht, hi] at hport
    cases hport
  refine ⟨hb, hf, .inl hi, fun e he => ?_, fun wire hw ht => absurd ht (hnone wire hw), ?_⟩
  · rw [hi] at he
    cases he
  · intro name v
    constructor
    · intro h
      cases h
    · rintro ⟨wire, hw, _⟩
      obtain ⟨hmem, ht, _⟩ := inputWire_mem hw
      exact absurd ht (hnone wire hmem)

theorem inv_branch (hi : Inv w s) (b target : β) : Inv w (branch b target s) where
  results name outputs := by
    rw [show (branch b target s).results = s.results from rfl, hi.results]
    simp [branch]
  sound := hi.sound
  produced c inputs outputs he := by
    cases he with
    | tail _ he => exact hi.produced c inputs outputs he

variable (hr : WellNamed x.workflow) (hc : Conditional x.workflow) (hh : Honest x.workflow env)
  (hp : ∀ b ∈ x.workflow.blocks, (x.workflow.block b).kind = .condition → PlainCondition x.workflow b)

include hr hc hp

theorem target_normal : ∀ wire ∈ x.workflow.wires, (x.workflow.block wire.targetBlock).kind = .normal := by
  intro wire hw
  have hb := (hr.joined wire hw).2
  cases hc.kinds _ hb with
  | inl h => exact h
  | inr h =>
    obtain ⟨input, hport⟩ := (wire_ports x hw).2
    rw [(hp _ hb h).1] at hport
    cases hport

include hh

theorem condition_entered (n : Nat) (hb : b ∈ x.workflow.blocks)
    (hk : (x.workflow.block b).kind = .condition) (hi : Inv x.workflow s)
    (hs : Branched x.workflow env s.log) (hf : b ∉ executedBlocks s.log)
    (hlen : x.workflow.blocks.length < n + 1 + (executedBlocks s.log).length) :
    ∃ t, executeBlock x.workflow env (n + 1) b s = some (none, t) ∧
      Entered x.workflow env s t b := by
  have hplain := hp b hb hk
  obtain ⟨outputs, hex, hout⟩ := hh s.log b []
  obtain ⟨v, hv⟩ := Option.isSome_iff_exists.mp (hout _ (hc.declared b hb hk))
  have hg : gatherInputs x.workflow s.results b = some [] := by
    rw [gatherInputs, hplain.1]
    rfl
  have hrec : Inv x.workflow (record x.workflow b [] outputs s) :=
    inv_record hr hi (fed_entry hb hplain.1 hf) hout
  have hstep : executeBlock x.workflow env (n + 1) b s =
      takeBranch x.workflow (sequence (executeBlock x.workflow env n)) b (env.truthy v)
        (record x.workflow b [] outputs s) := by
    simp [executeBlock, hk, executeConditionalBranch, hg, runInExecutor, hex, hv]
  have hsame : ∀ c, branchesFrom (record x.workflow b [] outputs s).log c =
      branchesFrom s.log c := fun c => rfl
  have hothers : ∀ c ∈ executedBlocks (record x.workflow b [] outputs s).log,
      c = b ∨ c ∈ executedBlocks s.log := fun c hc => List.mem_cons.mp hc
  rw [hstep, takeBranch_followed, hplain.followed_eq]
  cases hsel : selected x.workflow b (env.truthy v) with
  | none =>
    have hfalse : env.truthy v = false := by
      by_contra htrue
      rw [Bool.not_eq_false] at htrue
      obtain ⟨first, hfirst⟩ := hplain.followed_true
      rw [htrue, ← hplain.followed_eq, hfirst] at hsel
      cases hsel
    refine ⟨record x.workflow b [] outputs s, by simp [hfalse], hrec, ⟨?_, ?_⟩,
      fun c hc => List.mem_cons_of_mem _ hc, fun _ => List.mem_cons_self, fun c hc _ => hothers c hc⟩
    · intro c inputs' outputs' he hkc
      cases he with
      | head => exact ⟨v, hv, by rw [hsame, hs.later b hf, hsel]; rfl⟩
      | tail _ he => exact hs.starts c inputs' outputs' he hkc
    · intro c hc
      exact hs.later c fun hmem => hc (List.mem_cons_of_mem _ hmem)
  | some target =>
    have hmem : target ∈ executionGraph x.workflow b := by
      rw [← hplain.followed_eq] at hsel
      exact followed_mem hsel
    obtain ⟨wire, hw, hsource, htarget⟩ := mem_executionGraph.mp hmem
    have hbranched : Branched x.workflow env
        (branch b target (record x.workflow b [] outputs s)).log := by
      refine ⟨fun c inputs' outputs' he hkc => ?_, fun c hcn => ?_⟩
      · cases he with
        | tail _ he =>
          cases he with
          | head =>
            refine ⟨v, hv, ?_⟩
            rw [branchesFrom_branch_self, hsame, hs.later b hf, hsel]
            rfl
          | tail _ he =>
            have hne : c ≠ b := fun heq => hf (heq ▸ mem_executedBlocks.mpr ⟨_, _, he⟩)
            rw [branchesFrom_branch_of_ne hne, hsame]
            exact hs.starts c inputs' outputs' he hkc
      · have hne : c ≠ b := fun heq => hcn (heq ▸ List.mem_cons_self)
        rw [branchesFrom_branch_of_ne hne, hsame]
        exact hs.later c fun hmem => hcn (List.mem_cons_of_mem _ hmem)
    have hn := target_normal hr hc hp
    obtain ⟨t, ht, hst⟩ := sequence_settles (executeBlock_settles hr hh hn n) [target]
      (branch b target (record x.workflow b [] outputs s)) (fun _ => True)
      (by
        have hcons : executedBlocks (branch b target (record x.workflow b [] outputs s)).log =
            b :: executedBlocks s.log := rfl
        rw [hcons, List.length_cons]
        omega)
      (inv_branch hrec b target) (by
        intro c hcin
        rw [List.mem_singleton] at hcin
        subst hcin
        refine ⟨htarget ▸ (hr.joined wire hw).2, htarget ▸ hn wire hw,
          .inr ⟨wire, hw, htarget, ?_, fun _ => ?_⟩⟩
        · rw [hsource]
          exact List.mem_cons_self
        · rw [hsource]
          exact List.mem_cons_self) (fun c _ => .inl trivial)
    refine ⟨t, ht, hst.inv, hbranched.grows hst.grows, fun c hcin => ?_, fun _ => ?_,
      fun c hcin hkc => ?_⟩
    · exact hst.grows.executed (List.mem_cons_of_mem _ hcin)
    · exact hst.grows.executed List.mem_cons_self
    · exact hothers c (Grows.condition_executed hst.grows hcin hkc)

theorem entry_entered (n : Nat) (hb : b ∈ entryBlocks x.workflow)
    (hi : Inv x.workflow s) (hs : Branched x.workflow env s.log)
    (hf : (x.workflow.block b).kind = .condition → b ∉ executedBlocks s.log)
    (hlen : x.workflow.blocks.length < n + 1 + (executedBlocks s.log).length) :
    ∃ t, executeBlock x.workflow env (n + 1) b s = some (none, t) ∧
      Entered x.workflow env s t b := by
  obtain ⟨hmem, hempty⟩ := List.mem_filter.mp hb
  cases hc.kinds b hmem with
  | inr hk => exact condition_entered hr hc hh hp n hmem hk hi hs (hf hk) hlen
  | inl hk =>
    obtain ⟨t, ht, hst⟩ := executeBlock_settles hr hh (target_normal hr hc hp) (n + 1) s b
      (fun _ => True) hlen hi hmem hk (.inl (List.isEmpty_iff.mp hempty)) (fun c _ => .inl trivial)
    refine ⟨t, ht, hst.inv, hs.grows hst.grows, fun c hcin => hst.grows.executed hcin,
      fun hcond => ?_, fun c hcin hkc => .inr (Grows.condition_executed hst.grows hcin hkc)⟩
    rw [hk] at hcond
    cases hcond

/-- By induction on the entries still to come, none of whose conditions has been executed. -/
theorem entries_entered (n : Nat) (bs : List β) (hbs : ∀ b ∈ bs, b ∈ entryBlocks x.workflow) (hnd : bs.Nodup)
    (hi : Inv x.workflow s) (hs : Branched x.workflow env s.log)
    (hf : ∀ b ∈ bs, (x.workflow.block b).kind = .condition → b ∉ executedBlocks s.log)
    (hlen : x.workflow.blocks.length < n + 1) :
    ∃ t, sequence (executeBlock x.workflow env (n + 1)) bs s = some (none, t) ∧
      Inv x.workflow t ∧ Branched x.workflow env t.log ∧
      (∀ c ∈ executedBlocks s.log, c ∈ executedBlocks t.log) ∧
      ∀ b ∈ bs, (x.workflow.block b).kind = .condition → b ∈ executedBlocks t.log := by
  induction bs generalizing s with
  | nil => exact ⟨s, rfl, hi, hs, fun c hc => hc, fun b hb => absurd hb List.not_mem_nil⟩
  | cons b bs ih =>
    obtain ⟨hnot, hnd⟩ := List.nodup_cons.mp hnd
    obtain ⟨t, ht, hst⟩ := entry_entered hr hc hh hp n (hbs b List.mem_cons_self) hi hs
      (hf b List.mem_cons_self) (by omega)
    obtain ⟨u, hu, hui, hus, hkept, hall⟩ := ih (fun c hcin => hbs c (List.mem_cons_of_mem _ hcin))
      hnd hst.inv hst.branched (fun c hcin hk hmem => by
        cases hst.others c hmem hk with
        | inl heq => exact hnot (heq ▸ hcin)
        | inr hold => exact hf c (List.mem_cons_of_mem _ hcin) hk hold)
    refine ⟨u, by simp [Workflows.sequence, ht, hu], hui, hus, fun c hcin => hkept c (hst.kept c hcin), ?_⟩
    intro c hcin hk
    cases List.mem_cons.mp hcin with
    | inl heq =>
      subst heq
      exact hkept c (hst.condition hk)
    | inr hcin => exact hall c hcin hk

end Plain

variable {x : WorkflowExecutor β θ}

theorem onlyThrough_not_executed {env : Behaviour β υ}
    (hs : Sound x.workflow log) (hb : Branched x.workflow env log)
    {b head c : β} {inputs : List (Text × υ)} {outputs : Outputs υ} {v : υ}
    (he : .executed b inputs outputs ∈ log) (hk : (x.workflow.block b).kind = .condition)
    (hv : outputs conditionResult = some v) (hsel : selected x.workflow b (!env.truthy v) = some head)
    (hc : OnlyThrough x.workflow b head c) : c ∉ executedBlocks log := by
  have hcalled : ∀ c ∈ executedBlocks log, (∃ wire ∈ x.workflow.wires, wire.targetBlock = c) →
      ∃ wire ∈ x.workflow.wires, wire.targetBlock = c ∧ wire.sourceBlock ∈ executedBlocks log ∧
        ((x.workflow.block wire.sourceBlock).kind = .condition →
          c ∈ branchesFrom log wire.sourceBlock) := by
    rintro c hc ⟨wire, hw, ht⟩
    obtain ⟨is, os, hmem⟩ := mem_executedBlocks.mp hc
    obtain ⟨earlier, later, hlog, hfed⟩ := fed_of_sound hs hmem
    have hin : ∀ e ∈ earlier, e ∈ log := by
      intro e he
      rw [hlog]
      exact List.mem_append_right _ (List.mem_cons_of_mem _ he)
    cases hfed.called with
    | inl hentry =>
      obtain ⟨input, hport⟩ := (wire_ports x hw).2
      rw [ht, hentry] at hport
      cases hport
    | inr hwire =>
      obtain ⟨wire, hw, ht, hsource, hbranch⟩ := hwire
      obtain ⟨is', os', hsource⟩ := mem_executedBlocks.mp hsource
      exact ⟨wire, hw, ht, mem_executedBlocks.mpr ⟨is', os', hin _ hsource⟩, fun hk =>
        mem_branchesFrom.mpr (hin _ (hbranch hk))⟩
  intro hmem
  induction hc with
  | head hwire hsource =>
    obtain ⟨wire, hw, ht, _, hbranch⟩ := hcalled _ hmem hwire
    have hfrom := hsource wire hw ht
    obtain ⟨v', hv', hbr⟩ := hb.starts b inputs outputs he hk
    rw [hv] at hv'
    cases hv'
    have htaken := hbranch (hfrom ▸ hk)
    rw [hfrom, hbr, Option.mem_toList] at htaken
    exact selected_ne htaken hsel rfl
  | after hwire _ ih =>
    obtain ⟨wire, hw, ht, hsource, _⟩ := hcalled _ hmem hwire
    exact ih wire hw ht hsource

theorem plain_of_work [Inhabited υ] (h : ConditionsWork υ x)
    (hb : b ∈ x.workflow.blocks) (hk : (x.workflow.block b).kind = .condition) :
    PlainCondition x.workflow b := by
  have hrun : ∀ truth : Bool, ∃ (s : State β υ) (n : Nat),
      run x ⟨fun _ _ _ => .ok fun _ => some default, fun _ => truth⟩ n = some (none, s) ∧
      b ∈ executedBlocks s.log ∧
      ∃ v : υ, branchesFrom s.log b = (selected x.workflow b truth).toList := by
    intro truth
    obtain ⟨s, hs, hw⟩ := h ⟨fun _ _ _ => .ok fun _ => some default, fun _ => truth⟩
      fun _ _ _ => ⟨_, rfl, fun _ _ => rfl⟩
    have hmem : b ∈ executedBlocks s.log := by
      rw [← List.count_pos_iff, hw.once b hb hk]
      exact Nat.one_pos
    obtain ⟨inputs, outputs, he⟩ := mem_executedBlocks.mp hmem
    obtain ⟨v, _, hbr⟩ := hw.starts b inputs outputs he hk
    exact ⟨s, _, hs _ (Nat.lt_succ_self _), hmem, v, hbr⟩
  have hinputs : (x.workflow.block b).inputs.entries = [] := by
    by_contra hne
    obtain ⟨s, n, hs, hmem, _⟩ := hrun true
    exact condition_with_inputs_not_executed hk hne hs hmem
  refine ⟨hinputs, ?_⟩
  cases hg : executionGraph x.workflow b with
  | nil =>
    obtain ⟨s, n, hs, hmem, _⟩ := hrun true
    exact absurd hmem (unwired_condition_not_executed hk hg (fun _ => rfl) hs)
  | cons first rest =>
    cases rest with
    | nil => exact .inl ⟨first, rfl⟩
    | cons second rest =>
      refine .inr ⟨first, second, rest, rfl, fun heq => ?_⟩
      obtain ⟨s, n, hs, hmem, _, hbr⟩ := hrun false
      have hsecond : (executionGraph x.workflow b)[1]? = some second := by rw [hg]; rfl
      have htaken := condition_takes_second hk hsecond (fun _ => rfl) hs hmem
      rw [hbr, Option.mem_toList] at htaken
      have hother : selected x.workflow b (!false) = some first := by simp [selected, hg]
      exact selected_ne htaken hother heq

theorem conditions_work_iff [Inhabited υ] (x : WorkflowExecutor β θ)
    (hr : WellNamed x.workflow) (hc : Conditional x.workflow) :
    ConditionsWork υ x ↔ ∀ b ∈ x.workflow.blocks, (x.workflow.block b).kind = .condition →
      PlainCondition x.workflow b := by
  constructor
  · exact fun h b hb hk => plain_of_work h hb hk
  · intro hp env hh
    have hentries : ∀ b ∈ x.workflow.blocks, (x.workflow.block b).kind = .condition →
        b ∈ entryBlocks x.workflow := fun b hb hk =>
      List.mem_filter.mpr ⟨hb, List.isEmpty_iff.mpr (hp b hb hk).1⟩
    have hnodup : (entryBlocks x.workflow).Nodup := (List.Nodup.of_map _ hr.names).filter _
    obtain ⟨s, hs, hi, hbr, _, hall⟩ := entries_entered hr hc hh hp x.workflow.blocks.length
      (entryBlocks x.workflow) (fun b hb => hb) hnodup (inv_initial x.workflow)
      ⟨fun b inputs outputs he => absurd he List.not_mem_nil, fun b _ => rfl⟩ (fun b _ _ => List.not_mem_nil)
      (Nat.lt_succ_self _)
    refine ⟨s, fun n hlt => run_mono hlt hs, ⟨?_, ?_, hbr.starts, ?_⟩⟩
    · intro b hb hk
      exact List.count_eq_one_of_mem hi.sound.nodup (hall b (hentries b hb hk) hk)
    · intro later b inputs outputs earlier hlog _
      have hsound := hi.sound
      rw [hlog] at hsound
      exact (Sound.fed hsound).1.sources
    · intro b inputs outputs v he hk hv head hsel c honly
      exact onlyThrough_not_executed hi.sound hbr he hk hv hsel honly

def conditionInput : Text := "input".toList

/-- A source, a condition that need not declare an input, and its two branches. -/
def gateWorkflow (fed : Bool) : Workflow (Fin 4) Unit where
  block b := match b with
    | 0 => ⟨"source".toList, .normal, Ports.none, ⟨[(text, ())], List.nodup_singleton text⟩⟩
    | 1 => ⟨"condition".toList, .condition,
        if fed then ⟨[(conditionInput, ⟨(), false⟩)], by decide⟩ else Ports.none,
        ⟨[(conditionResult, ())], by decide⟩⟩
    | 2 => ⟨"then".toList, .normal, ⟨[(text, ⟨(), false⟩)], List.nodup_singleton text⟩, Ports.none⟩
    | 3 => ⟨"else".toList, .normal, ⟨[(text, ⟨(), false⟩)], List.nodup_singleton text⟩, Ports.none⟩
  blocks := [0, 1, 2, 3]
  wires := (if fed then [⟨0, text, 1, conditionInput⟩] else []) ++
    [⟨1, conditionResult, 2, text⟩, ⟨1, conditionResult, 3, text⟩]

def fedGate : WorkflowExecutor (Fin 4) Unit := ⟨fun _ _ => true, gateWorkflow true, by decide⟩

def freeGate : WorkflowExecutor (Fin 4) Unit := ⟨fun _ _ => true, gateWorkflow false, by decide⟩

def countingBlocks : Behaviour (Fin 4) Nat where
  execute _ _ inputs := .ok fun _ => some inputs.length
  truthy v := v != 0

theorem gateWorkflow_wellNamed : ∀ fed, WellNamed (gateWorkflow fed)
  | true => ⟨by decide, by simp [gateWorkflow]⟩
  | false => ⟨by decide, by simp [gateWorkflow]⟩

theorem gateWorkflow_conditional : ∀ fed, Conditional (gateWorkflow fed)
  | true => ⟨by decide, by decide⟩
  | false => ⟨by decide, by decide⟩

theorem fedGate_fails : WellNamed fedGate.workflow ∧ Conditional fedGate.workflow ∧
    Honest fedGate.workflow countingBlocks ∧
    (∀ s, run fedGate countingBlocks 5 ≠ some (none, s)) ∧ ¬ ConditionsWork Nat fedGate := by
  have hh : Honest fedGate.workflow countingBlocks := fun _ _ _ => ⟨_, rfl, fun _ _ => rfl⟩
  have hrun : (run fedGate countingBlocks 5).map Prod.fst = some (some .blockExecutionFailed) := by
    decide
  have hfails : ∀ s, run fedGate countingBlocks 5 ≠ some (none, s) := by
    intro s hs
    rw [hs] at hrun
    cases hrun
  refine ⟨gateWorkflow_wellNamed true, gateWorkflow_conditional true, hh, hfails, fun h => ?_⟩
  obtain ⟨s, hs, _⟩ := h countingBlocks hh
  exact hfails s (hs 5 (by decide))

theorem freeGate_works : ConditionsWork Nat freeGate :=
  (conditions_work_iff freeGate (gateWorkflow_wellNamed false) (gateWorkflow_conditional false)).mpr
    (by
      intro b _ hk
      have hb : b = 1 := by
        revert b
        decide
      subst hb
      exact ⟨rfl, .inr ⟨2, 3, [], by decide, by decide⟩⟩)

end Kirara.ConditionBranches
