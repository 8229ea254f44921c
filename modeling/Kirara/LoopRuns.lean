import Kirara.ConditionBranches

namespace Kirara.LoopRuns

open Kirara.Channels Kirara.Workflows Kirara.WorkflowRuns Kirara.ConditionBranches

variable {β θ υ : Type} [DecidableEq β]

/-- The states in which the body of a loop starts and ends an iteration. -/
structure Iteration (β υ : Type) where
  begins : State β υ
  ends : State β υ

/-- A loop that ends without an exception, with its iterations in order. -/
inductive Looped (w : Workflow β θ) (env : Behaviour β υ) (b : β) : State β υ → List (Iteration β υ) → State β υ → Prop
  | stop {s : State β υ} {inputs : List (Text × υ)} {outputs : Outputs υ} {v : υ}
      (hg : gatherInputs w s.results b = some inputs) (hr : runInExecutor env s.log b inputs = .ok outputs)
      (ho : outputs shouldContinue = some v) (hv : env.truthy v = false) :
      Looped w env b s [] (record w b inputs outputs s)
  | again {s t u : State β υ} {inputs : List (Text × υ)} {outputs : Outputs υ} {v : υ} {c : β} {n : Nat}
      {its : List (Iteration β υ)} (hg : gatherInputs w s.results b = some inputs)
      (hr : runInExecutor env s.log b inputs = .ok outputs) (ho : outputs shouldContinue = some v)
      (hv : env.truthy v = true) (hc : (executionGraph w b).head? = some c)
      (hbody : executeNodes w env n [c] (record w b inputs outputs s) = some (none, t))
      (hnext : Looped w env b t its u) : Looped w env b s (⟨record w b inputs outputs s, t⟩ :: its) u

/-- In an iteration the body is executed once, on the results at its start, and no block twice. -/
def RunsBody (w : Workflow β θ) (b : β) (it : Iteration β υ) : Prop :=
  ∃ c inputs outputs new, (executionGraph w b).head? = some c ∧
    it.ends.log = new ++ .executed c inputs outputs :: it.begins.log ∧
    gatherInputs w it.begins.results c = some inputs ∧ (c :: executedBlocks new).Nodup

/-- From this execution on, a loop answers so, whatever happens in between. -/
def Answers (env : Behaviour β υ) (b : β) : Nat → List Bool → Prop
  | _, [] => True
  | i, a :: as =>
    (∀ log, (executedBlocks log).count b = i → ∃ outputs v, env.execute log b [] = .ok outputs ∧
      outputs shouldContinue = some v ∧ env.truthy v = a) ∧ Answers env b (i + 1) as

section Bodies

variable {w : Workflow β θ} {x : WorkflowExecutor β θ} {env : Behaviour β υ} {s t u : State β υ} {b c : β} {n : Nat}

/-- What the blocks after a wire add: executions of ordinary blocks, each its first. -/
structure Grown (w : Workflow β θ) (s t : State β υ) (new : List (Event β υ)) : Prop where
  log : t.log = new ++ s.log
  ordinary : ∀ b ∈ executedBlocks new, (w.block b).kind ≠ .loop
  kept : ∀ name, (s.results name).isSome = true → (t.results name).isSome = true
  fresh : ∀ b ∈ executedBlocks new, s.results (w.block b).name = none
  recorded : ∀ b ∈ executedBlocks new, (t.results (w.block b).name).isSome = true
  once : (executedBlocks new).Nodup

omit [DecidableEq β] in
theorem Grown.refl (w : Workflow β θ) (s : State β υ) : Grown w s s [] :=
  ⟨rfl, nofun, fun _ h => h, nofun, nofun, List.nodup_nil⟩

omit [DecidableEq β] in
theorem Grown.trans {new later : List (Event β υ)} (h : Grown w s t new) (h' : Grown w t u later) :
    Grown w s u (later ++ new) := by
  have hmem : ∀ b, b ∈ executedBlocks (later ++ new) → b ∈ executedBlocks later ∨ b ∈ executedBlocks new := by
    intro b hb
    rwa [executedBlocks_append, List.mem_append] at hb
  constructor
  · rw [h'.log, h.log, List.append_assoc]
  · exact fun b hb => (hmem b hb).elim (h'.ordinary b) (h.ordinary b)
  · exact fun name hname => h'.kept name (h.kept name hname)
  · intro b hb
    cases hmem b hb with
    | inl hb =>
      by_contra hsome
      have hkept := h.kept _ (Option.isSome_iff_ne_none.mpr hsome)
      rw [h'.fresh b hb] at hkept
      exact (nomatch hkept)
    | inr hb => exact h.fresh b hb
  · intro b hb
    exact (hmem b hb).elim (h'.recorded b) fun hb => h'.kept _ (h.recorded b hb)
  · rw [executedBlocks_append]
    refine List.nodup_append.mpr ⟨h'.once, h.once, fun b hb d hd he => ?_⟩
    have hsome := h.recorded d hd
    rw [← he, h'.fresh b hb] at hsome
    exact (nomatch hsome)

theorem fresh_of_canExecute (h : canExecute w s.results c = true) : s.results (w.block c).name = none := by
  unfold canExecute at h
  rw [Bool.and_eq_true, Bool.and_eq_true] at h
  exact Option.isNone_iff_eq_none.mp h.1.1

theorem grown_record (inputs : List (Text × υ)) (outputs : Outputs υ) (hk : (w.block c).kind ≠ .loop)
    (h : canExecute w s.results c = true) :
    Grown w s (record w c inputs outputs s) [.executed c inputs outputs] := by
  have hone : ∀ b ∈ executedBlocks [(.executed c inputs outputs : Event β υ)], b = c := by
    intro b hb
    exact List.mem_singleton.mp hb
  constructor
  · rfl
  · exact fun b hb => hone b hb ▸ hk
  · intro name hname
    change (Function.update s.results (w.block c).name (some outputs) name).isSome = true
    by_cases he : name = (w.block c).name
    · rw [he, Function.update_self]
      rfl
    · rwa [Function.update_of_ne he]
  · exact fun b hb => hone b hb ▸ fresh_of_canExecute h
  · intro b hb
    rw [hone b hb]
    change (Function.update s.results (w.block c).name (some outputs) (w.block c).name).isSome = true
    rw [Function.update_self]
    rfl
  · exact List.nodup_singleton c

def Fed (w : Workflow β θ) (b : β) : Prop := ∃ wire ∈ w.wires, wire.targetBlock = b

theorem fed_of_mem (h : c ∈ executionGraph w b) : Fed w c := by
  obtain ⟨wire, hw, _, ht⟩ := mem_executionGraph.mp h
  exact ⟨wire, hw, ht⟩

theorem fed_fails {inputs : List (Text × υ)} {outputs : Outputs υ} (hf : Fed x.workflow b)
    (hg : gatherInputs x.workflow s.results b = some inputs) (hr : runInExecutor env s.log b inputs = .ok outputs) :
    False := by
  obtain ⟨wire, hw, rfl⟩ := hf
  exact fed_condition_fails hw hg hr

theorem fed_cases (env : Behaviour β υ) (n : Nat) (s : State β υ) {c : β} (hf : Fed x.workflow c) :
    (∃ e, executeBlock x.workflow env (n + 1) c s = some (some e, s)) ∨
      ((x.workflow.block c).kind ≠ .loop ∧ executeBlock x.workflow env (n + 1) c s =
        executeNormalBlock x.workflow env (Workflows.sequence (executeBlock x.workflow env n)) c s) := by
  have hfails : gatherInputs x.workflow s.results c = none ∨ ∃ inputs e,
      gatherInputs x.workflow s.results c = some inputs ∧ runInExecutor env s.log c inputs = .error e := by
    cases hg : gatherInputs x.workflow s.results c with
    | none => exact .inl rfl
    | some inputs =>
      cases hr : runInExecutor env s.log c inputs with
      | error e => exact .inr ⟨inputs, e, rfl, hr⟩
      | ok outputs => exact (fed_fails hf hg hr).elim
  cases hk : (x.workflow.block c).kind with
  | normal => exact .inr ⟨by decide, by simp only [executeBlock, hk]⟩
  | loopEnd => exact .inr ⟨by decide, by simp only [executeBlock, hk]⟩
  | condition =>
    left
    obtain hg | ⟨inputs, e, hg, hr⟩ := hfails
    · exact ⟨.blockExecutionFailed, by simp only [executeBlock, hk, executeConditionalBranch, hg]⟩
    · exact ⟨e, by simp only [executeBlock, hk, executeConditionalBranch, hg, hr]⟩
  | loop =>
    left
    obtain hg | ⟨inputs, e, hg, hr⟩ := hfails
    · exact ⟨.blockExecutionFailed, by simp only [executeBlock, hk, executeLoop, hg]⟩
    · exact ⟨e, by simp only [executeBlock, hk, executeLoop, hg, hr]⟩

theorem executeNormalBlock_grown {nodes : List β → State β υ → Outcome β υ}
    (hnodes : ∀ s, nodes (executionGraph w c) s = some (none, t) → ∃ new, Grown w s t new)
    (h : executeNormalBlock w env nodes c s = some (none, t)) : canExecute w s.results c = false ∧ t = s ∨
      canExecute w s.results c = true ∧ ∃ inputs outputs new, gatherInputs w s.results c = some inputs ∧
        Grown w (record w c inputs outputs s) t new := by
  unfold executeNormalBlock at h
  cases hcan : canExecute w s.results c with
  | false =>
    rw [if_neg (by rw [hcan]; exact Bool.false_ne_true)] at h
    cases h
    exact .inl ⟨rfl, rfl⟩
  | true =>
    rw [if_pos hcan] at h
    cases hg : gatherInputs w s.results c with
    | none => simp [hg] at h
    | some inputs =>
      rw [hg] at h
      cases he : env.execute s.log c inputs with
      | error e => simp [he] at h
      | ok outputs =>
        simp only [he] at h
        refine .inr ⟨rfl, inputs, outputs, ?_⟩
        cases hn : nodes (executionGraph w c) (record w c inputs outputs s) with
        | none => simp [hn, wrap] at h
        | some p =>
          obtain ⟨failure, v⟩ := p
          cases failure with
          | some e => simp [hn, wrap] at h
          | none =>
            simp only [hn, wrap] at h
            cases h
            obtain ⟨new, hnew⟩ := hnodes _ hn
            exact ⟨new, rfl, hnew⟩

theorem executeBlock_fed (n : Nat) {c : β} {s t : State β υ} (hf : Fed x.workflow c)
    (h : executeBlock x.workflow env n c s = some (none, t)) :
    canExecute x.workflow s.results c = false ∧ t = s ∨
      canExecute x.workflow s.results c = true ∧ (x.workflow.block c).kind ≠ .loop ∧ ∃ inputs outputs new,
        gatherInputs x.workflow s.results c = some inputs ∧
          Grown x.workflow (record x.workflow c inputs outputs s) t new := by
  induction n generalizing c s t with
  | zero => exact (nomatch h)
  | succ n ih =>
    have hblock : ∀ d s t, Fed x.workflow d → executeBlock x.workflow env n d s = some (none, t) →
        ∃ new, Grown x.workflow s t new := by
      intro d s t hd h
      cases ih hd h with
      | inl hskipped => exact ⟨[], hskipped.2 ▸ Grown.refl x.workflow s⟩
      | inr hexecuted =>
        obtain ⟨hcan, hk, inputs, outputs, new, -, hnew⟩ := hexecuted
        exact ⟨_, (grown_record inputs outputs hk hcan).trans hnew⟩
    have hnodes : ∀ s, Workflows.sequence (executeBlock x.workflow env n) (executionGraph x.workflow c) s = some (none, t) →
        ∃ new, Grown x.workflow s t new := by
      intro s h
      refine sequence_preserves (J := fun t => ∃ new, Grown x.workflow s t new) (P := Fed x.workflow) ?_ _
        (fun d hd => fed_of_mem hd) h ⟨[], Grown.refl x.workflow s⟩
      intro d u v hd h ⟨new, hnew⟩
      obtain ⟨later, hlater⟩ := hblock d u v hd h
      exact ⟨_, hnew.trans hlater⟩
    cases fed_cases env n s hf with
    | inl hfails =>
      obtain ⟨e, he⟩ := hfails
      cases he.symm.trans h
    | inr hordinary =>
      obtain ⟨hk, he⟩ := hordinary
      rw [he] at h
      exact (executeNormalBlock_grown hnodes h).imp_right fun ⟨hcan, hrest⟩ => And.intro hcan (And.intro hk hrest)

theorem executeBody (hc : (executionGraph x.workflow b).head? = some c)
    (h : executeNodes x.workflow env n [c] s = some (none, t)) :
    canExecute x.workflow s.results c = false ∧ t = s ∨
      canExecute x.workflow s.results c = true ∧ RunsBody x.workflow b ⟨s, t⟩ ∧
        (t.results (x.workflow.block c).name).isSome = true ∧ ∃ new, Grown x.workflow s t new := by
  have hone : executeBlock x.workflow env n c s = some (none, t) := by
    unfold executeNodes Workflows.sequence at h
    cases hb : executeBlock x.workflow env n c s with
    | none => simp [hb] at h
    | some p =>
      obtain ⟨failure, u⟩ := p
      cases failure with
      | some e => simp [hb] at h
      | none =>
        rw [hb] at h
        cases h
        rfl
  refine (executeBlock_fed n (fed_of_mem (List.mem_of_head? hc)) hone).imp_right ?_
  rintro ⟨hcan, hk, inputs, outputs, new, hg, hnew⟩
  have hfirst := grown_record inputs outputs hk hcan
  have hall := hfirst.trans hnew
  refine ⟨hcan, ⟨c, inputs, outputs, new, hc, hnew.log, hg, ?_⟩, ?_, _, hall⟩
  · have hnodup := hall.once
    rw [executedBlocks_append, List.nodup_append_comm] at hnodup
    exact hnodup
  · exact hnew.kept _ (hfirst.recorded c List.mem_cons_self)

end Bodies

section Endings

variable {x : WorkflowExecutor β θ} {env : Behaviour β υ}

def free (w : Workflow β θ) (s : State β υ) (wire : Wire β) : Bool :=
  (s.results (w.block wire.targetBlock).name).isNone

def unexecuted (w : Workflow β θ) (s : State β υ) : Nat := w.wires.countP (free w s)

variable {w : Workflow β θ} {s t : State β υ}

omit [DecidableEq β] in
theorem Grown.free_of_free {new : List (Event β υ)} (h : Grown w s t new)
    (wire : Wire β) (hfree : free w t wire = true) : free w s wire = true := by
  unfold free at hfree ⊢
  by_contra hsome
  have hkept := h.kept (w.block wire.targetBlock).name (by simpa [Option.isSome_iff_ne_none] using hsome)
  rw [Option.isNone_iff_eq_none.mp hfree] at hkept
  exact (nomatch hkept)

omit [DecidableEq β] in
theorem Grown.unexecuted_le {new : List (Event β υ)} (h : Grown w s t new) :
    unexecuted w t ≤ unexecuted w s := List.countP_mono_left fun wire _ => h.free_of_free wire

theorem unexecuted_record {c : β} {s : State β υ} (inputs : List (Text × υ)) (outputs : Outputs υ)
    (hf : Fed w c) (hk : (w.block c).kind ≠ .loop) (hcan : canExecute w s.results c = true) :
    unexecuted w (record w c inputs outputs s) < unexecuted w s := by
  have hgrown := grown_record inputs outputs hk hcan
  obtain ⟨wire, hw, rfl⟩ := hf
  obtain ⟨before, after, hwires⟩ := List.append_of_mem hw
  have hfree : free w s wire = true := by rw [free, fresh_of_canExecute hcan]; rfl
  have htaken : ¬ free w (record w wire.targetBlock inputs outputs s) wire = true := by
    change ¬ (Function.update s.results _ (some outputs) _).isNone = true
    rw [Function.update_self]
    exact Bool.false_ne_true
  have hbefore := List.countP_mono_left (l := before) fun wire _ => hgrown.free_of_free wire
  have hafter := List.countP_mono_left (l := after) fun wire _ => hgrown.free_of_free wire
  unfold unexecuted
  rw [hwires, List.countP_append, List.countP_append, List.countP_cons_of_neg htaken, List.countP_cons_of_pos hfree]
  omega

theorem sequence_ends {f : β → State β υ → Outcome β υ} {m : Nat}
    (hf : ∀ c s, Fed x.workflow c → unexecuted x.workflow s ≤ m → f c s ≠ none ∧
      ∀ t, f c s = some (none, t) → unexecuted x.workflow t ≤ unexecuted x.workflow s)
    (bs : List β) (s : State β υ) (hbs : ∀ c ∈ bs, Fed x.workflow c) (hm : unexecuted x.workflow s ≤ m) :
    Workflows.sequence f bs s ≠ none := by
  induction bs generalizing s with
  | nil => exact Option.some_ne_none _
  | cons c bs ih =>
    obtain ⟨hends, hle⟩ := hf c s (hbs c List.mem_cons_self) hm
    unfold Workflows.sequence
    cases hc : f c s with
    | none => exact absurd hc hends
    | some p =>
      obtain ⟨failure, t⟩ := p
      cases failure with
      | some e => exact Option.some_ne_none _
      | none => exact ih t (fun d hd => hbs d (List.mem_cons_of_mem c hd)) ((hle t hc).trans hm)

theorem unexecuted_executeBlock {n : Nat} {c : β} (hf : Fed x.workflow c)
    (h : executeBlock x.workflow env n c s = some (none, t)) : unexecuted x.workflow t ≤ unexecuted x.workflow s := by
  cases executeBlock_fed n hf h with
  | inl hskipped => exact hskipped.2 ▸ le_rfl
  | inr hexecuted =>
    obtain ⟨hcan, hk, inputs, outputs, new, -, hnew⟩ := hexecuted
    exact ((grown_record inputs outputs hk hcan).trans hnew).unexecuted_le

theorem executeBlock_ends (n : Nat) {c : β} {s : State β υ} (hf : Fed x.workflow c) (hn : unexecuted x.workflow s ≤ n) :
    executeBlock x.workflow env (n + 1) c s ≠ none := by
  induction n using Nat.strong_induction_on generalizing c s with
  | _ n ih =>
    have hordinary (hk : (x.workflow.block c).kind ≠ .loop) :
        executeNormalBlock x.workflow env (Workflows.sequence (executeBlock x.workflow env n)) c s ≠ none := by
      unfold executeNormalBlock
      cases hcan : canExecute x.workflow s.results c with
      | false => exact Option.some_ne_none _
      | true =>
        rw [if_pos rfl]
        cases gatherInputs x.workflow s.results c with
        | none => exact Option.some_ne_none _
        | some inputs =>
          cases he : env.execute s.log c inputs with
          | error e =>
            simp only [he]
            exact Option.some_ne_none _
          | ok outputs =>
            simp only [he]
            have hless := unexecuted_record inputs outputs hf hk hcan
            obtain ⟨m, rfl⟩ : ∃ m, n = m + 1 := ⟨n - 1, by omega⟩
            have hnodes : Workflows.sequence (executeBlock x.workflow env (m + 1)) (executionGraph x.workflow c)
                (record x.workflow c inputs outputs s) ≠ none := by
              refine sequence_ends (fun d t hd ht => ⟨ih m (Nat.lt_succ_self m) hd ht, fun u hu => ?_⟩) _ _
                (fun d hd => fed_of_mem hd) (by omega)
              exact unexecuted_executeBlock hd hu
            cases hs : Workflows.sequence (executeBlock x.workflow env (m + 1)) (executionGraph x.workflow c)
                (record x.workflow c inputs outputs s) with
            | none => exact absurd hs hnodes
            | some p =>
              obtain ⟨failure, t⟩ := p
              cases failure with
              | none => exact Option.some_ne_none _
              | some e => exact Option.some_ne_none _
    cases fed_cases env n s hf with
    | inl hfails =>
      obtain ⟨e, he⟩ := hfails
      rw [he]
      exact Option.some_ne_none _
    | inr hfed =>
      obtain ⟨hk, he⟩ := hfed
      rw [he]
      exact hordinary hk

end Endings

variable {x : WorkflowExecutor β θ} {env : Behaviour β υ} {s t : State β υ} {b : β} {its : List (Iteration β υ)}

theorem looped (n : Nat) (hk : (x.workflow.block b).kind = .loop)
    (h : executeBlock x.workflow env n b s = some (none, t)) : ∃ its, Looped x.workflow env b s its t := by
  induction n generalizing s with
  | zero => exact (nomatch h)
  | succ n ih =>
    unfold executeBlock at h
    simp only [hk, executeLoop] at h
    cases hg : gatherInputs x.workflow s.results b with
    | none => simp [hg] at h
    | some inputs =>
      cases hr : runInExecutor env s.log b inputs with
      | error e => simp [hg, hr] at h
      | ok outputs =>
        cases ho : outputs shouldContinue with
        | none => simp [hg, hr, ho] at h
        | some v =>
          cases hv : env.truthy v with
          | false =>
            simp only [hg, hr, ho, hv, Bool.false_eq_true, if_false] at h
            cases h
            exact ⟨[], .stop hg hr ho hv⟩
          | true =>
            simp only [hg, hr, ho, hv, if_true] at h
            cases hgraph : executionGraph x.workflow b with
            | nil => simp [hgraph] at h
            | cons c rest =>
              simp only [hgraph] at h
              cases hbody : Workflows.sequence (executeBlock x.workflow env n) [c] (record x.workflow b inputs outputs s) with
              | none => simp [hbody] at h
              | some p =>
                obtain ⟨failure, u⟩ := p
                cases failure with
                | some e => simp [hbody] at h
                | none =>
                  rw [hbody] at h
                  obtain ⟨its, hits⟩ := ih h
                  exact ⟨_, .again hg hr ho hv (by rw [hgraph]; rfl) hbody hits⟩

variable {inputs : List (Text × υ)}

omit [DecidableEq β] in
theorem runInExecutor_ok {outputs : Outputs υ} {log : List (Event β υ)}
    (h : runInExecutor env log b inputs = .ok outputs) : inputs = [] ∧ env.execute log b [] = .ok outputs := by
  unfold runInExecutor at h
  split at h
  · next hempty => exact ⟨List.isEmpty_iff.mp hempty, h⟩
  · exact (nomatch h)

theorem count_body {n : Nat} {c : β} (hk : (x.workflow.block b).kind = .loop) (hc : (executionGraph x.workflow b).head? = some c)
    (h : executeNodes x.workflow env n [c] s = some (none, t)) :
    (executedBlocks t.log).count b = (executedBlocks s.log).count b := by
  cases executeBody hc h with
  | inl hskipped => rw [hskipped.2]
  | inr hexecuted =>
    obtain ⟨-, -, -, new, hnew⟩ := hexecuted
    rw [hnew.log, executedBlocks_append, List.count_append, Nat.add_eq_right, List.count_eq_zero]
    exact fun hb => hnew.ordinary b hb hk

theorem count_record (w : Workflow β θ) (inputs : List (Text × υ)) (outputs : Outputs υ) :
    (executedBlocks (record w b inputs outputs s).log).count b = (executedBlocks s.log).count b + 1 :=
  List.count_cons_self

theorem Looped.length_eq {k : Nat} (hk : (x.workflow.block b).kind = .loop)
    (ha : Answers env b ((executedBlocks s.log).count b) (List.replicate k true ++ [false]))
    (h : Looped x.workflow env b s its t) : its.length = k := by
  have answered {s : State β υ} {inputs : List (Text × υ)} {outputs : Outputs υ} {v : υ} {a : Bool} {as : List Bool}
      (ha : Answers env b ((executedBlocks s.log).count b) (a :: as)) (hr : runInExecutor env s.log b inputs = .ok outputs)
      (ho : outputs shouldContinue = some v) : env.truthy v = a := by
    obtain ⟨outputs', v', he, ho', hv'⟩ := ha.1 s.log rfl
    cases (runInExecutor_ok hr).2.symm.trans he
    cases ho.symm.trans ho'
    exact hv'
  induction h generalizing k with
  | stop hg hr ho hv =>
    cases k with
    | zero => rfl
    | succ k => exact (nomatch hv.symm.trans (answered ha hr ho))
  | again hg hr ho hv hc hbody hnext ih =>
    cases k with
    | zero => exact (nomatch hv.symm.trans (answered ha hr ho))
    | succ k =>
      have hcount := (count_body hk hc hbody).trans (count_record x.workflow _ _)
      rw [List.length_cons, ih (hcount ▸ ha.2)]

theorem canExecute_record {w : Workflow β θ} {c : β} {outputs : Outputs υ}
    (hdone : (s.results (w.block c).name).isSome = true) :
    canExecute w (record w b inputs outputs s).results c = false := by
  by_contra hcan
  have hfresh := fresh_of_canExecute (by simpa using hcan)
  change Function.update s.results (w.block b).name (some outputs) (w.block c).name = none at hfresh
  by_cases he : (w.block c).name = (w.block b).name
  · rw [he, Function.update_self] at hfresh
    exact (nomatch hfresh)
  · rw [Function.update_of_ne he] at hfresh
    rw [hfresh] at hdone
    exact (nomatch hdone)

theorem runsBody_iff {n : Nat} {c : β} (hc : (executionGraph x.workflow b).head? = some c)
    (h : executeNodes x.workflow env n [c] s = some (none, t)) :
    RunsBody x.workflow b ⟨s, t⟩ ↔ canExecute x.workflow s.results c = true := by
  cases executeBody hc h with
  | inr hexecuted => exact ⟨fun _ => hexecuted.1, fun _ => hexecuted.2.1⟩
  | inl hskipped =>
    refine ⟨fun ⟨d, inputs, outputs, new, _, hlog, _⟩ => ?_, fun hcan => (nomatch hskipped.1.symm.trans hcan)⟩
    have hlength : s.log.length = new.length + (s.log.length + 1) := by
      rw [← List.length_cons, ← List.length_append, ← hlog, hskipped.2]
    omega

/-- The body can be executed when the loop has been asked for the first time. -/
def BodyReady (w : Workflow β θ) (env : Behaviour β υ) (b : β) (s : State β υ) : Prop :=
  ∃ c outputs, (executionGraph w b).head? = some c ∧ env.execute s.log b [] = .ok outputs ∧
    canExecute w (record w b [] outputs s).results c = true

theorem Looped.runsBody_iff (h : Looped x.workflow env b s its t) :
    (∀ it ∈ its, RunsBody x.workflow b it) ↔ its.length = 0 ∨ its.length = 1 ∧ BodyReady x.workflow env b s := by
  cases h with
  | stop => exact ⟨fun _ => .inl rfl, fun _ => nofun⟩
  | again hg hr ho hv hc hbody hnext =>
    obtain ⟨rfl, he⟩ := runInExecutor_ok hr
    have hfirst := LoopRuns.runsBody_iff hc hbody
    constructor
    · intro hall
      have hready := hfirst.mp (hall _ List.mem_cons_self)
      refine .inr ⟨?_, _, _, hc, he, hready⟩
      -- A second iteration finds the result of the first one.
      cases hnext with
      | stop => rfl
      | again hg' hr' ho' hv' hc' hbody' hnext' =>
        cases hc.symm.trans hc'
        have hdone := (executeBody hc hbody).resolve_left fun hskipped => (nomatch hskipped.1.symm.trans hready)
        have hsecond := (LoopRuns.runsBody_iff hc hbody').mp (hall _ (List.mem_cons_of_mem _ List.mem_cons_self))
        exact (nomatch hsecond.symm.trans (canExecute_record hdone.2.2.1))
    · intro h
      obtain ⟨hlength, c, outputs, hc', he', hready⟩ := h.resolve_left (Nat.succ_ne_zero _)
      cases hc.symm.trans hc'
      cases he.symm.trans he'
      intro it hit
      rw [List.length_cons, Nat.succ_inj, List.length_eq_zero_iff] at hlength
      subst hlength
      exact List.mem_singleton.mp hit ▸ hfirst.mpr hready

omit [DecidableEq β] in
theorem unexecuted_record_le (w : Workflow β θ) (b : β) (s : State β υ) (inputs : List (Text × υ)) (outputs : Outputs υ) :
    unexecuted w (record w b inputs outputs s) ≤ unexecuted w s := by
  refine List.countP_mono_left fun wire _ hfree => ?_
  change (Function.update s.results (w.block b).name (some outputs) _).isNone = true at hfree
  by_cases he : (w.block wire.targetBlock).name = (w.block b).name
  · rw [he, Function.update_self] at hfree
    exact (nomatch hfree)
  · rwa [Function.update_of_ne he] at hfree

theorem executeLoop_ends {k n : Nat} (hk : (x.workflow.block b).kind = .loop)
    (ha : Answers env b ((executedBlocks s.log).count b) (List.replicate k true ++ [false]))
    (hn : unexecuted x.workflow s + k < n) : executeBlock x.workflow env (n + 1) b s ≠ none := by
  induction k generalizing s n with
  | zero =>
    obtain ⟨outputs, v, he, ho, hv⟩ := ha.1 s.log rfl
    unfold executeBlock
    simp only [hk, executeLoop]
    cases gatherInputs x.workflow s.results b with
    | none => exact Option.some_ne_none _
    | some inputs =>
      cases hr : runInExecutor env s.log b inputs with
      | error e =>
        simp only [hr]
        exact Option.some_ne_none _
      | ok outputs' =>
        cases (runInExecutor_ok hr).2.symm.trans he
        simp only [hr, ho, hv, Bool.false_eq_true, if_false]
        exact Option.some_ne_none _
  | succ k ih =>
    obtain ⟨outputs, v, he, ho, hv⟩ := ha.1 s.log rfl
    obtain ⟨m, rfl⟩ : ∃ m, n = m + 1 := ⟨n - 1, by omega⟩
    unfold executeBlock
    simp only [hk, executeLoop]
    cases gatherInputs x.workflow s.results b with
    | none => exact Option.some_ne_none _
    | some inputs =>
      cases hr : runInExecutor env s.log b inputs with
      | error e =>
        simp only [hr]
        exact Option.some_ne_none _
      | ok outputs' =>
        cases (runInExecutor_ok hr).2.symm.trans he
        simp only [hr, ho, hv, if_true]
        cases hgraph : executionGraph x.workflow b with
        | nil => exact Option.some_ne_none _
        | cons c rest =>
          have hc : (executionGraph x.workflow b).head? = some c := by rw [hgraph]; rfl
          have hle := unexecuted_record_le x.workflow b s inputs outputs
          have hbody : Workflows.sequence (executeBlock x.workflow env (m + 1)) [c]
              (record x.workflow b inputs outputs s) ≠ none := by
            refine sequence_ends (m := m) (fun d t hd ht => ⟨executeBlock_ends m hd ht, fun u hu => ?_⟩) _ _ ?_ (by omega)
            · exact unexecuted_executeBlock hd hu
            · exact fun d hd => List.mem_singleton.mp hd ▸ fed_of_mem (List.mem_of_head? hc)
          cases hs : Workflows.sequence (executeBlock x.workflow env (m + 1)) [c]
              (record x.workflow b inputs outputs s) with
          | none => exact absurd hs hbody
          | some p =>
            obtain ⟨failure, t⟩ := p
            cases failure with
            | some e =>
              simp only [hs]
              exact Option.some_ne_none _
            | none =>
              have hcount := (count_body hk hc hs).trans (count_record x.workflow inputs outputs)
              have ht : unexecuted x.workflow t ≤ unexecuted x.workflow (record x.workflow b inputs outputs s) := by
                cases executeBody hc hs with
                | inl hskipped => rw [hskipped.2]
                | inr hexecuted => exact hexecuted.2.2.2.elim fun new hnew => hnew.unexecuted_le
              simp only [hs]
              exact ih (hcount ▸ ha.2) (by omega)

/-- A loop that answers a number of times that it should go on, and then that it should not,
comes to an outcome: an exception where a wire leads to it, and otherwise, if nothing raises, it
goes round that many times and executes its body each time just in case that is at most once and
the body is ready. -/
theorem loop_runs_body_iff (x : WorkflowExecutor β θ) (env : Behaviour β υ) {b : β}
    (hk : (x.workflow.block b).kind = .loop) (s : State β υ) (k : Nat)
    (ha : Answers env b ((executedBlocks s.log).count b) (List.replicate k true ++ [false])) :
    (∃ n, executeBlock x.workflow env n b s ≠ none) ∧
      (Fed x.workflow b → ∀ n t, executeBlock x.workflow env n b s ≠ some (none, t)) ∧
      ∀ n t, executeBlock x.workflow env n b s = some (none, t) → ∃ its, Looped x.workflow env b s its t ∧ its.length = k ∧
        ((∀ it ∈ its, RunsBody x.workflow b it) ↔ k = 0 ∨ k = 1 ∧ BodyReady x.workflow env b s) := by
  refine ⟨⟨_, executeLoop_ends hk ha (Nat.lt_succ_self _)⟩, fun hf n t h => ?_, fun n t h => ?_⟩
  · cases executeBlock_fed n hf h with
    | inr hexecuted => exact hexecuted.2.1 hk
    | inl hskipped =>
      obtain ⟨its, hits⟩ := looped n hk h
      cases hits with
      | stop hg hr => exact fed_fails hf hg hr
      | again hg hr => exact fed_fails hf hg hr
  · obtain ⟨its, hits⟩ := looped n hk h
    have hlength := hits.length_eq hk ha
    exact ⟨its, hits, hlength, hlength ▸ hits.runsBody_iff⟩

def value : Text := "value".toList

/-- A loop and its body, behind a source that is wired to the loop or not. -/
def rounds (fed : Bool) : Workflow (Fin 3) Unit where
  block b := match b with
    | 0 => ⟨"loop".toList, .loop, if fed then ⟨[(value, ⟨(), false⟩)], by decide⟩ else Ports.none,
        ⟨[(shouldContinue, ())], by decide⟩⟩
    | 1 => ⟨"body".toList, .normal, ⟨[(value, ⟨(), false⟩)], by decide⟩, Ports.none⟩
    | 2 => ⟨"source".toList, .normal, Ports.none, ⟨[(value, ())], by decide⟩⟩
  blocks := [0, 1, 2]
  wires := (if fed then [⟨2, value, 0, value⟩] else []) ++ [⟨0, shouldContinue, 1, value⟩]

def freeRounds : WorkflowExecutor (Fin 3) Unit := ⟨fun _ _ => true, rounds false, by decide⟩

def fedRounds : WorkflowExecutor (Fin 3) Unit := ⟨fun _ _ => true, rounds true, by decide⟩

/-- The loop goes on until it has been asked so many times. -/
def goingOn (k : Nat) : Behaviour (Fin 3) Nat where
  execute log b _ := .ok fun _ => some (if b = 0 then k - (executedBlocks log).count 0 else 1)
  truthy v := v != 0

theorem goingOn_answers (k : Nat) : ∀ i, i ≤ k → Answers (goingOn k) 0 i (List.replicate (k - i) true ++ [false]) := by
  intro i hi
  induction hj : k - i generalizing i with
  | zero =>
    refine ⟨fun log hlog => ⟨_, _, rfl, rfl, ?_⟩, trivial⟩
    simp [goingOn, hlog, hj]
  | succ j ih =>
    refine ⟨fun log hlog => ⟨_, _, rfl, rfl, ?_⟩, ih (i + 1) (by omega) (by omega)⟩
    simp [goingOn, hlog, hj]

theorem one_round_runs_body : ∃ t its,
    executeBlock freeRounds.workflow (goingOn 1) 5 0 State.initial = some (none, t) ∧
      Looped freeRounds.workflow (goingOn 1) 0 State.initial its t ∧ its.length = 1 ∧
        ∀ it ∈ its, RunsBody freeRounds.workflow 0 it := by
  have hrun : (executeBlock freeRounds.workflow (goingOn 1) 5 0 State.initial).map Prod.fst = some none := by decide
  obtain ⟨⟨failure, t⟩, ht, rfl⟩ := Option.map_eq_some_iff.mp hrun
  obtain ⟨its, hits, hlength, hiff⟩ := (loop_runs_body_iff freeRounds (goingOn 1) rfl State.initial 1
    (goingOn_answers 1 0 (Nat.zero_le 1))).2.2 5 t ht
  exact ⟨t, its, ht, hits, hlength, hiff.mpr (.inr ⟨rfl, 1, _, rfl, rfl, by decide⟩)⟩

/-- Two rounds execute the body once, and a loop with a wire to it not at all. -/
theorem rounds_without_body : (run freeRounds (goingOn 2) 9).map (fun p =>
      (p.1, (executedBlocks p.2.log).count 0, (executedBlocks p.2.log).count 1)) = some (none, 3, 1) ∧
    (run fedRounds (goingOn 2) 9).map (fun p =>
      (p.1, (executedBlocks p.2.log).count 0, (executedBlocks p.2.log).count 1)) =
        some (some .blockExecutionFailed, 0, 0) := by
  decide

end Kirara.LoopRuns
