import Kirara.WorkflowRuns
import Mathlib.Data.List.Perm.Subperm

namespace Kirara.WorkflowSchedules

open Kirara.Channels Kirara.Workflows Kirara.WorkflowRuns

variable {β θ υ : Type} [DecidableEq β]

/-- A block nothing stands in the way of any more. -/
structure Waiting (w : Workflow β θ) (log : List (Event β υ)) (b : β) : Prop where
  member : b ∈ w.blocks
  fresh : b ∉ executedBlocks log
  started : (w.block b).inputs.entries = [] ∨ ∃ wire ∈ w.wires, wire.targetBlock = b
  required : RequiredWired w b
  sources : ∀ wire ∈ w.wires, wire.targetBlock = b → wire.sourceBlock ∈ executedBlocks log

/-- A part of a run that ends well; `left` are the blocks it may leave waiting. -/
structure Settles (w : Workflow β θ) (s t : State β υ) (left : β → Prop) : Prop where
  inv : Inv w t
  grows : Grows w s t
  waiting : ∀ b, Waiting w t.log b → left b

omit [DecidableEq β] in
theorem Grows.length_le {w : Workflow β θ} {s t : State β υ} (h : Grows w s t) :
    (executedBlocks s.log).length ≤ (executedBlocks t.log).length := by
  obtain ⟨new, hn, _⟩ := h
  rw [hn, executedBlocks_append, List.length_append]
  omega

variable {s : State β υ}

theorem executed_length_le {w : Workflow β θ} (hi : Inv w s) :
    (executedBlocks s.log).length ≤ w.blocks.length :=
  (hi.sound.nodup.subperm fun _ hb => hi.sound.member hb).length_le

/-- What a way to execute blocks has to achieve, with fuel `n`. -/
def Settling (w : Workflow β θ) (n : Nat) (f : β → State β υ → Outcome β υ) : Prop :=
  ∀ (s : State β υ) (b : β) (left : β → Prop),
    w.blocks.length < n + (executedBlocks s.log).length → Inv w s → b ∈ w.blocks →
    (w.block b).kind = .normal → Called w s.log b →
    (∀ c, Waiting w s.log c → left c ∨ c = b) →
    ∃ t, f b s = some (none, t) ∧ Settles w s t left

theorem sequence_settles {w : Workflow β θ} {n : Nat} {f : β → State β υ → Outcome β υ}
    (hf : Settling w n f) (bs : List β) (s : State β υ) (left : β → Prop)
    (hn : w.blocks.length < n + (executedBlocks s.log).length) (hi : Inv w s)
    (hbs : ∀ b ∈ bs, b ∈ w.blocks ∧ (w.block b).kind = .normal ∧ Called w s.log b)
    (hw : ∀ c, Waiting w s.log c → left c ∨ c ∈ bs) :
    ∃ t, sequence f bs s = some (none, t) ∧ Settles w s t left := by
  induction bs generalizing s with
  | nil =>
    refine ⟨s, rfl, hi, Grows.refl w s, fun c hc => ?_⟩
    exact (hw c hc).resolve_right List.not_mem_nil
  | cons b bs ih =>
    obtain ⟨hb, hk, hc⟩ := hbs b List.mem_cons_self
    obtain ⟨t, ht, hst⟩ := hf s b (fun c => left c ∨ c ∈ bs) hn hi hb hk hc (by
      intro c hc
      cases hw c hc with
      | inl h => exact .inl (.inl h)
      | inr h =>
        cases List.mem_cons.mp h with
        | inl h => exact .inr h
        | inr h => exact .inl (.inr h))
    have hle := Grows.length_le hst.grows
    obtain ⟨u, hu, htu⟩ := ih t (by omega) hst.inv (fun c hcin => by
      obtain ⟨hc1, hc2, hc3⟩ := hbs c (List.mem_cons_of_mem _ hcin)
      exact ⟨hc1, hc2, hst.grows.called hc3⟩) hst.waiting
    exact ⟨u, by simp [Workflows.sequence, ht, hu], htu.inv, hst.grows.trans htu.grows, htu.waiting⟩

variable {b : β} {inputs : List (Text × υ)}

theorem waiting_record {w : Workflow β θ}
    {outputs : Outputs υ} {left : β → Prop} (hw : ∀ c, Waiting w s.log c → left c ∨ c = b) :
    ∀ c, Waiting w (record w b inputs outputs s).log c → left c ∨ c ∈ executionGraph w b := by
  intro c hc
  have hex : executedBlocks (record w b inputs outputs s).log =
      b :: executedBlocks s.log := rfl
  have hfresh := hc.fresh
  rw [hex, List.mem_cons, not_or] at hfresh
  by_cases hfed : ∃ wire ∈ w.wires, wire.sourceBlock = b ∧ wire.targetBlock = c
  · exact .inr (mem_executionGraph.mpr hfed)
  have hbefore : Waiting w s.log c := by
    refine ⟨hc.member, hfresh.2, hc.started, hc.required, fun wire hwire ht => ?_⟩
    have hsource := hc.sources wire hwire ht
    rw [hex, List.mem_cons] at hsource
    cases hsource with
    | inl h => exact absurd ⟨wire, hwire, h, ht⟩ hfed
    | inr h => exact h
  exact .inl ((hw c hbefore).resolve_right hfresh.1)

section Ordinary

variable {x : WorkflowExecutor β θ} {env : Behaviour β υ} (hr : WellNamed x.workflow)
  (hh : Honest x.workflow env)
  (hn : ∀ wire ∈ x.workflow.wires, (x.workflow.block wire.targetBlock).kind = .normal)

include hr hh hn

/-- By induction on the fuel; an execution uses up one of it and adds one block. -/
theorem executeBlock_settles (n : Nat) : Settling x.workflow n (executeBlock x.workflow env n) := by
  induction n with
  | zero =>
    intro s b left hlen hi
    have hle := executed_length_le hi
    omega
  | succ n ih =>
    intro s b left hlen hi hb hk hc hw
    simp only [executeBlock, hk]
    unfold executeNormalBlock
    by_cases hcan : canExecute x.workflow s.results b = true
    · obtain ⟨inputs, hg, hfed⟩ := gatherInputs_fed hr hi hb hc hcan
      obtain ⟨outputs, hex, hp⟩ := hh s.log b inputs
      have hgrow : Grows x.workflow s (record x.workflow b inputs outputs s) := by
        refine ⟨[.executed b inputs outputs], rfl, fun e he => ?_⟩
        exact ⟨b, inputs, outputs, List.mem_singleton.mp he, hk⟩
      have hlen' : x.workflow.blocks.length <
          n + (executedBlocks (record x.workflow b inputs outputs s).log).length := by
        have hcons : executedBlocks (record x.workflow b inputs outputs s).log =
            b :: executedBlocks s.log := rfl
        rw [hcons, List.length_cons]
        omega
      obtain ⟨t, ht, hst⟩ := sequence_settles ih (executionGraph x.workflow b)
        (record x.workflow b inputs outputs s) left hlen' (inv_record hr hi hfed hp) (by
          intro c hcin
          obtain ⟨wire, hwire, hsource, htarget⟩ := mem_executionGraph.mp hcin
          refine ⟨htarget ▸ (hr.joined wire hwire).2, htarget ▸ hn wire hwire,
            .inr ⟨wire, hwire, htarget, ?_, ?_⟩⟩
          · rw [hsource]
            exact mem_executedBlocks.mpr ⟨inputs, outputs, List.mem_cons_self⟩
          · intro hcond
            rw [hsource, hk] at hcond
            cases hcond) (waiting_record hw)
      refine ⟨t, ?_, hst.inv, hgrow.trans hst.grows, hst.waiting⟩
      rw [if_pos hcan, hg]
      simp only [hex, ht]
      rfl
    · refine ⟨s, by rw [if_neg hcan], hi, Grows.refl _ s, fun c hcw => ?_⟩
      cases hw c hcw with
      | inl h => exact h
      | inr h =>
        rw [h] at hcw
        exact absurd ((canExecute_iff hr hi hb).mpr ⟨hcw.fresh, hcw.sources, hcw.required⟩) hcan

end Ordinary

section Fuel

variable {w : Workflow β θ} {env : Behaviour β υ}

/-- What ends with some fuel ends in the same way with more of it. -/
def Extends (f g : β → State β υ → Outcome β υ) : Prop :=
  ∀ b s r, f b s = some r → g b s = some r

omit [DecidableEq β] in
theorem Extends.sequence {f g : β → State β υ → Outcome β υ} (h : Extends f g) (bs : List β)
    (s : State β υ) (r : Option Failure × State β υ) (hs : sequence f bs s = some r) :
    Workflows.sequence g bs s = some r := by
  induction bs generalizing s with
  | nil => exact hs
  | cons b bs ih =>
    unfold Workflows.sequence at hs ⊢
    cases hf : f b s with
    | none => simp [hf] at hs
    | some p =>
      rw [h b s p hf]
      rw [hf] at hs
      obtain ⟨failure, t⟩ := p
      cases failure with
      | none => exact ih t hs
      | some e => exact hs

variable {nodes nodes' : List β → State β υ → Outcome β υ}
  (h : ∀ bs s r, nodes bs s = some r → nodes' bs s = some r)

include h

variable {r : Option Failure × State β υ}

theorem executeNormalBlock_mono
    (hs : executeNormalBlock w env nodes b s = some r) : executeNormalBlock w env nodes' b s = some r := by
  unfold executeNormalBlock at hs ⊢
  by_cases hc : canExecute w s.results b = true
  · rw [if_pos hc] at hs ⊢
    cases hg : gatherInputs w s.results b with
    | none => simpa [hg] using hs
    | some inputs =>
      cases he : env.execute s.log b inputs with
      | error e => simpa [hg, he] using hs
      | ok outputs =>
        simp only [hg, he] at hs ⊢
        cases hn : nodes (executionGraph w b) (record w b inputs outputs s) with
        | none =>
          rw [hn] at hs
          cases hs
        | some p =>
          rw [h _ _ _ hn, ← hs, hn]
  · rw [if_neg hc] at hs ⊢
    exact hs

theorem takeBranch_mono {condition : Bool} (hs : takeBranch w nodes b condition s = some r) :
    takeBranch w nodes' b condition s = some r := by
  unfold takeBranch at hs ⊢
  split at hs
  · exact h _ _ _ hs
  · exact hs
  · exact h _ _ _ hs
  · exact hs

theorem executeConditionalBranch_mono (hs : executeConditionalBranch w env nodes b s = some r) :
    executeConditionalBranch w env nodes' b s = some r := by
  unfold executeConditionalBranch at hs ⊢
  split at hs
  · exact hs
  split at hs
  · exact hs
  split at hs
  · exact hs
  · exact takeBranch_mono h hs

theorem executeLoop_mono {again again' : State β υ → Outcome β υ}
    (ha : ∀ s r, again s = some r → again' s = some r) (hs : executeLoop w env nodes again b s = some r) :
    executeLoop w env nodes' again' b s = some r := by
  unfold executeLoop at hs ⊢
  cases hg : gatherInputs w s.results b with
  | none => simpa [hg] using hs
  | some inputs =>
    cases he : runInExecutor env s.log b inputs with
    | error e => simpa [hg, he] using hs
    | ok outputs =>
      simp only [hg, he] at hs ⊢
      cases ho : outputs shouldContinue with
      | none => simpa [ho] using hs
      | some v =>
        simp only [ho] at hs ⊢
        by_cases ht : env.truthy v = true
        · rw [if_pos ht] at hs ⊢
          cases hx : executionGraph w b with
          | nil => simpa [hx] using hs
          | cons loopBody rest =>
            simp only [hx] at hs ⊢
            cases hn : nodes [loopBody] (record w b inputs outputs s) with
            | none => simp [hn] at hs
            | some p =>
              rw [h _ _ _ hn]
              rw [hn] at hs
              obtain ⟨failure, t⟩ := p
              cases failure with
              | none => exact ha t r hs
              | some e => exact hs
        · rw [if_neg ht] at hs ⊢
          exact hs

omit h in
theorem executeBlock_succ (n : Nat) : Extends (executeBlock w env n) (executeBlock w env (n + 1)) := by
  induction n with
  | zero =>
    intro b s r hs
    cases hs
  | succ n ih =>
    intro b s r hs
    rw [executeBlock] at hs ⊢
    cases hk : (w.block b).kind with
    | condition =>
      simp only [hk] at hs ⊢
      exact executeConditionalBranch_mono (Extends.sequence ih) hs
    | loop =>
      simp only [hk] at hs ⊢
      exact executeLoop_mono (Extends.sequence ih) (ih b) hs
    | normal =>
      simp only [hk] at hs ⊢
      exact executeNormalBlock_mono (Extends.sequence ih) hs
    | loopEnd =>
      simp only [hk] at hs ⊢
      exact executeNormalBlock_mono (Extends.sequence ih) hs

omit h in
theorem run_mono {x : WorkflowExecutor β θ} {m n : Nat} (hmn : m ≤ n)
    (hs : run x env m = some r) : run x env n = some r := by
  induction hmn with
  | refl => exact hs
  | step hle ih => exact Extends.sequence (executeBlock_succ _) _ _ _ ih

end Fuel

/-- It takes no inputs, or each required one has a wire from such a block. -/
inductive Startable (w : Workflow β θ) : β → Prop where
  | entry {b : β} (hb : (w.block b).inputs.entries = []) : Startable w b
  | wired {b : β} (hb : ∃ wire ∈ w.wires, wire.targetBlock = b) (hr : RequiredWired w b)
      (hs : ∀ wire ∈ w.wires, wire.targetBlock = b → Startable w wire.sourceBlock) :
      Startable w b

/-- What a log of a complete run of ordinary blocks shows. -/
structure ExecutesStartable (w : Workflow β θ) (log : List (Event β υ)) : Prop where
  once : (executedBlocks log).Nodup
  startable : ∀ b, b ∈ executedBlocks log ↔ b ∈ w.blocks ∧ Startable w b
  after : ∀ later b inputs outputs earlier, log = later ++ .executed b inputs outputs :: earlier →
    ∀ wire ∈ w.wires, wire.targetBlock = b → wire.sourceBlock ∈ executedBlocks earlier
  given : ∀ later b inputs outputs earlier, log = later ++ .executed b inputs outputs :: earlier →
    ∀ wire ∈ w.wires, wire.targetBlock = b → ∃ from_ produced v,
      .executed wire.sourceBlock from_ produced ∈ earlier ∧
      produced wire.sourceOutput = some v ∧
      ∀ u, (wire.targetInput, u) ∈ inputs ↔ u = v
  wired : ∀ b inputs outputs, .executed b inputs outputs ∈ log → ∀ name v, (name, v) ∈ inputs →
    ∃ wire ∈ w.wires, wire.targetBlock = b ∧ wire.targetInput = name

theorem Sound.fed {w : Workflow β θ} {later earlier : List (Event β υ)} {outputs : Outputs υ}
    (hs : Sound w (later ++ .executed b inputs outputs :: earlier)) :
    Fed w earlier b inputs ∧ Sound w earlier := by
  induction later with
  | nil => exact hs
  | cons e later ih =>
    cases e with
    | executed c is os => exact ih hs.2
    | branched c d => exact ih hs

theorem startable_of_executed {w : Workflow β θ} {log : List (Event β υ)} (hs : Sound w log)
    (hb : b ∈ executedBlocks log) : Startable w b := by
  induction log generalizing b with
  | nil => cases hb
  | cons e log ih =>
    cases e with
    | branched c d => exact ih hs hb
    | executed c inputs outputs =>
      cases List.mem_cons.mp hb with
      | inr hmem => exact ih hs.2 hmem
      | inl heq =>
        obtain ⟨hfed, hs⟩ := hs
        rw [heq]
        cases hfed.called with
        | inl hentry => exact .entry hentry
        | inr hwire =>
          obtain ⟨wire, hw, ht, _⟩ := hwire
          exact .wired ⟨wire, hw, ht⟩ hfed.required fun wire hw ht => ih hs (hfed.sources wire hw ht)

variable {x : WorkflowExecutor β θ}

theorem executed_of_startable (hr : WellNamed x.workflow)
    {log : List (Event β υ)} (hw : ∀ b, ¬ Waiting x.workflow log b)
    (hs : Startable x.workflow b) (hb : b ∈ x.workflow.blocks) : b ∈ executedBlocks log := by
  induction hs with
  | @entry b hentry =>
    by_contra hfresh
    refine hw b ⟨hb, hfresh, .inl hentry, fun e he => ?_, fun wire hwire ht => ?_⟩
    · rw [hentry] at he
      cases he
    · obtain ⟨input, hport⟩ := (wire_ports x hwire).2
      rw [ht, hentry] at hport
      cases hport
  | @wired b hwired hreq hsources ih =>
    by_contra hfresh
    exact hw b ⟨hb, hfresh, .inr hwired, hreq, fun wire hwire ht =>
      ih wire hwire ht (hr.joined wire hwire).1⟩

theorem executesStartable (hr : Regular x.workflow)
    (hi : Inv x.workflow s) (hw : ∀ b, ¬ Waiting x.workflow s.log b) : ExecutesStartable x.workflow s.log where
  once := hi.sound.nodup
  startable b := by
    constructor
    · exact fun hb => ⟨hi.sound.member hb, startable_of_executed hi.sound hb⟩
    · exact fun hb => executed_of_startable hr.toWellNamed hw hb.2 hb.1
  after later b inputs outputs earlier hlog := by
    have hs := hi.sound
    rw [hlog] at hs
    exact (Sound.fed hs).1.sources
  given later b inputs outputs earlier hlog wire hwire ht := by
    have hs := hi.sound
    rw [hlog] at hs
    obtain ⟨hfed, hearlier⟩ := Sound.fed hs
    obtain ⟨from_, produced, hmem⟩ := mem_executedBlocks.mp (hfed.sources wire hwire ht)
    have hlater : .executed wire.sourceBlock from_ produced ∈ s.log := by
      rw [hlog]
      exact List.mem_append_right _ (List.mem_cons_of_mem _ hmem)
    obtain ⟨v, hv⟩ := Option.isSome_iff_exists.mp
      (hi.produced _ _ _ hlater _ (wire_ports x hwire).1)
    refine ⟨from_, produced, v, hmem, hv, fun u => ?_⟩
    rw [hfed.given]
    constructor
    · rintro ⟨wire', hwire', from', produced', hmem', hu⟩
      obtain ⟨hw', ht', hname⟩ := inputWire_mem hwire'
      have hsame := hr.single wire' hw' wire hwire (ht'.trans ht.symm) hname
      rw [hsame] at hmem' hu
      rw [(hearlier.unique hmem' hmem).2, hv] at hu
      cases hu
      rfl
    · intro hu
      rw [hu]
      exact ⟨wire, (inputWire_eq_some_iff hr).mpr ⟨hwire, ht, rfl⟩, from_, produced, hmem, hv⟩
  wired b inputs outputs he name v hin := by
    obtain ⟨earlier, later, _, hfed⟩ := fed_of_sound hi.sound he
    obtain ⟨wire, hwire, _⟩ := (hfed.given name v).mp hin
    exact ⟨wire, inputWire_mem hwire⟩

theorem run_settles (x : WorkflowExecutor β θ) (env : Behaviour β υ) (hr : WellNamed x.workflow)
    (hk : ∀ b ∈ x.workflow.blocks, (x.workflow.block b).kind = .normal) (hh : Honest x.workflow env) :
    ∃ s, (∀ n, x.workflow.blocks.length < n → run x env n = some (none, s)) ∧
      Inv x.workflow s ∧ ∀ b, ¬ Waiting x.workflow s.log b := by
  have hn : ∀ wire ∈ x.workflow.wires, (x.workflow.block wire.targetBlock).kind = .normal :=
    fun wire hwire => hk _ (hr.joined wire hwire).2
  have hentry : ∀ b ∈ entryBlocks x.workflow,
      b ∈ x.workflow.blocks ∧ (x.workflow.block b).inputs.entries = [] := by
    intro b hb
    obtain ⟨hb, he⟩ := List.mem_filter.mp hb
    exact ⟨hb, List.isEmpty_iff.mp he⟩
  obtain ⟨s, hs, hst⟩ := sequence_settles
    (executeBlock_settles hr hh hn (x.workflow.blocks.length + 1))
    (entryBlocks x.workflow) State.initial (fun _ => False)
    (by simp only [State.initial, executedBlocks, List.filterMap_nil, List.length_nil]; omega)
    (inv_initial x.workflow)
    (fun b hb => ⟨(hentry b hb).1, hk b (hentry b hb).1, .inl (hentry b hb).2⟩) (by
      intro c hc
      cases hc.started with
      | inl he => exact .inr (List.mem_filter.mpr ⟨hc.member, List.isEmpty_iff.mpr he⟩)
      | inr hwire =>
        obtain ⟨wire, hw, ht⟩ := hwire
        exact absurd (hc.sources wire hw ht) List.not_mem_nil)
  exact ⟨s, fun n hlt => run_mono hlt hs, hst.inv, hst.waiting⟩

theorem run_executes_startable (x : WorkflowExecutor β θ) (env : Behaviour β υ)
    (hr : Regular x.workflow) (hk : ∀ b ∈ x.workflow.blocks, (x.workflow.block b).kind = .normal)
    (hh : Honest x.workflow env) : ∃ s, (∀ n, x.workflow.blocks.length < n → run x env n = some (none, s)) ∧
      ExecutesStartable x.workflow s.log := by
  obtain ⟨s, hs, hi, hw⟩ := run_settles x env hr.toWellNamed hk hh
  exact ⟨s, hs, executesStartable hr hi hw⟩

def text : Text := "text".toList

def pairWorkflow : Workflow (Fin 2) Unit where
  block b := if b = 0
    then ⟨"source".toList, .normal, Ports.none, ⟨[(text, ())], by decide⟩⟩
    else ⟨"sink".toList, .normal, ⟨[(text, ⟨(), false⟩)], by decide⟩, Ports.none⟩
  blocks := [1, 0]
  wires := [⟨0, text, 1, text⟩]

def pair : WorkflowExecutor (Fin 2) Unit := ⟨fun _ _ => true, pairWorkflow, by decide⟩

def counting : Behaviour (Fin 2) Nat where
  execute _ _ inputs := .ok fun _ => some inputs.length
  truthy v := v != 0

theorem pairWorkflow_regular : Regular pairWorkflow where
  names := by decide
  joined := by decide
  single w hw w' hw' _ _ := by rw [List.mem_singleton.mp hw, List.mem_singleton.mp hw']

theorem run_executes_startable_pair : ∃ s, (∀ n, 2 < n → run pair counting n = some (none, s)) ∧
      ExecutesStartable pairWorkflow s.log :=
  run_executes_startable pair counting pairWorkflow_regular (by decide) fun _ _ _ =>
    ⟨_, rfl, fun _ _ => rfl⟩

end Kirara.WorkflowSchedules
