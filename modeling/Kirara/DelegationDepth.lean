import Kirara.OfferedTools
import Kirara.Schedules
import Mathlib.Algebra.BigOperators.Group.Multiset.Basic
import Mathlib.Data.Prod.Lex
import Mathlib.Tactic.Abel

namespace Kirara.DelegationDepth

open Kirara.Channels Kirara.OfferedTools Kirara.Descents

section Turns

structure Agent where
  agentId : Text
  enabled : Bool
  allowTools : Bool
  maxToolIterations : Nat
  teammateAgentIds : List Text
  deriving DecidableEq

abbrev Registry := Text → Option Agent

/-- `_agent_policy_signature`. -/
def Agent.policySignature (a : Agent) : Bool × Nat × Bool × List Text :=
  (a.enabled, a.maxToolIterations, a.allowTools, a.teammateAgentIds)

/-- `_trusted_agent`: an Agent rebuilt by a resource service has no teammates. -/
def trustedAgent (resourceService : Bool) (a : Agent) : Agent :=
  if resourceService then { a with teammateAgentIds := [] } else a

def requireEnabled (registry : Registry) (agentId : Text) : Option Agent := (registry agentId).filter Agent.enabled

def defaultTeammateDepth : Int := 2

/-- Whether a turn is to ask the model, or has the calls of a reply to handle. -/
inductive Phase where
  | requesting
  | handling (calls : List Text)
  deriving DecidableEq

/-- A turn in its loop. Of the last three fields the code knows nothing. -/
structure Turn where
  agent : Agent
  depth : Int
  offered : List Text
  iteration : Nat
  phase : Phase
  /-- The model requests it has made. -/
  requests : Nat
  /-- The delegations between it and the user's message. -/
  nesting : Nat
  /-- The delegations that it may nest. -/
  left : Nat
  deriving DecidableEq

def offeredTeammates (registry : Registry) (a : Agent) (depth : Int) : List Text :=
  if a.allowTools then buildTeammateTools a.teammateAgentIds (fun id => (registry id).map Agent.enabled) depth else []

variable (resourceService : Bool) (registry : Registry)

/-- `run`, up to its loop. -/
def runTurn (agent : Agent) (teammateDepth : Option Int) (nesting left : Nat) : Turn :=
  let depth := (teammateDepth.map (max 0)).getD defaultTeammateDepth
  let agent := trustedAgent resourceService agent
  ⟨agent, depth, offeredTeammates registry agent depth, 0, .requesting, 0, nesting, left⟩

/-- The turn that `_delegate_to_teammate` runs. -/
def delegatedTurn (agent : Agent) (parent : Turn) : Turn :=
  runTurn resourceService registry agent (some (max 0 (parent.depth - 1))) (parent.nesting + 1) (parent.left - 1)

/-- The turn that `confirm` goes on with. -/
def resumedTurn (agent : Agent) (paused : Turn) : Turn :=
  let agent := trustedAgent resourceService agent
  { paused with
    agent := agent
    depth := defaultTeammateDepth
    offered := offeredTeammates registry agent defaultTeammateDepth
    iteration := paused.iteration + 1
    phase := .requesting }

/-- One step of the innermost of some nested turns, and the record it may leave. -/
inductive Advance : List Turn → List Turn → Option Turn → Prop
  /-- The model calls tools. -/
  | respond {t rest} (call calls) : t.phase = .requesting → t.iteration < t.agent.maxToolIterations →
      Advance (t :: rest) ({ t with phase := .handling (call :: calls), requests := t.requests + 1 } :: rest) none
  /-- The model answers, or the iterations are used up. -/
  | complete {t rest} : t.phase = .requesting → t.iteration ≤ t.agent.maxToolIterations → Advance (t :: rest) rest none
  /-- The turn is cancelled, raises, or has a loop without iterations. -/
  | fail {t rest} : Advance (t :: rest) rest none
  /-- A call is answered within the turn. -/
  | answer {t rest call calls} : t.phase = .handling (call :: calls) →
      Advance (t :: rest) ({ t with phase := .handling calls } :: rest) none
  /-- A call is handed to a teammate. -/
  | delegate {t rest call calls id agent} : t.phase = .handling (call :: calls) → id ∈ t.offered →
      call = teammateToolName id → requireEnabled registry id = some agent →
      Advance (t :: rest) (delegatedTurn resourceService registry agent t :: { t with phase := .handling calls } :: rest) none
  /-- A call waits for a confirmation. -/
  | pause {t rest call calls} : t.phase = .handling (call :: calls) → call ∉ t.offered.map teammateToolName →
      Advance (t :: rest) rest (some t)
  /-- The calls of a reply are handled. -/
  | next {t rest} : t.phase = .handling [] →
      Advance (t :: rest) ({ t with iteration := t.iteration + 1, phase := .requesting } :: rest) none

/-- The running turns, each with those that wait for it, and the records of paused ones. -/
structure State where
  active : List (List Turn)
  pending : List Turn

/-- Who takes a step: a turn, or a user who answers for a paused one. -/
inductive Action where
  | advance
  | confirm (agent : Agent) (paused : Turn)
  | reject

inductive Step : Action → State → State → Prop
  | advance {xs ys s s' p pending} : Advance resourceService registry s s' p →
      Step .advance ⟨xs ++ s :: ys, pending⟩ ⟨xs ++ s' :: ys, pending ++ p.toList⟩
  | confirm {active ps qs t agent} : registry t.agent.agentId = some agent → agent.enabled = true →
      (trustedAgent resourceService agent).policySignature = t.agent.policySignature →
      Step (.confirm agent t) ⟨active, ps ++ t :: qs⟩
        ⟨active ++ [[resumedTurn resourceService registry agent t]], ps ++ qs⟩
  | reject {active ps qs t} : Step .reject ⟨active, ps ++ t :: qs⟩ ⟨active, ps ++ qs⟩

/-- A paused turn goes on with no teammates, or had as much depth left as `confirm` gives. -/
def Careful : Action → Prop
  | .confirm agent paused =>
    offeredTeammates registry (trustedAgent resourceService agent) defaultTeammateDepth = [] ∨
      defaultTeammateDepth ≤ paused.left
  | _ => True

omit registry in
inductive Run : State → List (Registry × Action) → State → Prop
  | nil {σ} : Run σ [] σ
  | cons {σ σ' τ registry action log} : Step resourceService registry action σ σ' → Run σ' log τ →
      Run σ ((registry, action) :: log) τ

def depthOf (teammateDepth : Option Int) : Int := (teammateDepth.map (max 0)).getD defaultTeammateDepth

def started (agent : Agent) (teammateDepth : Option Int) : State :=
  ⟨[[runTurn resourceService registry agent teammateDepth 0 (depthOf teammateDepth).toNat]], []⟩

def State.turns (σ : State) : List Turn := σ.active.flatten ++ σ.pending

/-- The bounds on the turns of a message whose first turn is run with depth `d`. -/
structure Bounded (d : Int) (σ : State) : Prop where
  nesting : ∀ t ∈ σ.turns, t.nesting ≤ d
  nested : ∀ above t below, above ++ t :: below ∈ σ.active → above.length ≤ t.depth ∧ above.length ≤ t.left
  requests : ∀ t ∈ σ.turns, t.requests ≤ t.agent.maxToolIterations + 1
  offers : ∀ t ∈ σ.turns, t.offered ≠ [] → t.depth ≤ t.left

end Turns

section Invariants

variable {resourceService : Bool} {registry : Registry} {d : Nat} {t child : Turn} {agent : Agent}

def Turn.OnCourse (t : Turn) : Prop :=
  match t.phase with
  | .requesting => t.iteration ≤ t.agent.maxToolIterations ∧ t.requests ≤ t.iteration
  | .handling _ => t.iteration < t.agent.maxToolIterations ∧ t.requests ≤ t.iteration + 1

structure Sound (d : Nat) (t : Turn) : Prop where
  depth : 0 ≤ t.depth
  offers : t.offered ≠ [] → 0 < t.depth ∧ t.depth ≤ t.left
  budget : t.nesting + t.left = d
  course : t.OnCourse

/-- A turn waits for another that was given less. -/
def Below (child parent : Turn) : Prop := child.depth + 1 ≤ parent.depth ∧ child.left + 1 ≤ parent.left

theorem offered_of_depth {a : Agent} {depth : Int} (h : offeredTeammates registry a depth ≠ []) : 0 < depth := by
  by_contra hdepth
  refine h ?_
  rw [offeredTeammates, buildTeammateTools, if_pos (not_lt.mp hdepth), ite_self]

theorem sound_run {teammateDepth : Option Int} {nesting left : Nat} (hbudget : nesting + left = d)
    (hleft : (teammateDepth.map (max 0)).getD defaultTeammateDepth ≤ left) :
    Sound d (runTurn resourceService registry agent teammateDepth nesting left) where
  depth := by
    cases teammateDepth with
    | none => exact (by decide : (0 : Int) ≤ defaultTeammateDepth)
    | some depth => exact le_max_left 0 depth
  offers := fun h => ⟨offered_of_depth h, hleft⟩
  budget := hbudget
  course := ⟨Nat.zero_le _, Nat.le_refl 0⟩

theorem sound_delegated (h : Sound d t) (hoffered : t.offered ≠ []) :
    Sound d (delegatedTurn resourceService registry agent t) ∧
      Below (delegatedTurn resourceService registry agent t) t := by
  obtain ⟨hpos, hle⟩ := h.offers hoffered
  have hbudget := h.budget
  have hmax : max 0 (t.depth - 1) = t.depth - 1 := max_eq_right (by omega)
  have hdepth : ((some (max 0 (t.depth - 1))).map (max 0)).getD defaultTeammateDepth = t.depth - 1 := by
    rw [hmax, Option.map_some, Option.getD_some, hmax]
  refine ⟨sound_run (by omega) (by rw [hdepth]; omega), ?_, ?_⟩
  · change ((some (max 0 (t.depth - 1))).map (max 0)).getD defaultTeammateDepth + 1 ≤ t.depth
    rw [hdepth]
    omega
  · change t.left - 1 + 1 ≤ t.left
    omega

theorem maxToolIterations_resumed (h : (trustedAgent resourceService agent).policySignature = t.agent.policySignature) :
    (trustedAgent resourceService agent).maxToolIterations = t.agent.maxToolIterations :=
  congrArg (fun signature => signature.2.1) h

theorem sound_resumed {calls : List Text} (h : Sound d t) (hphase : t.phase = .handling calls)
    (hpolicy : (trustedAgent resourceService agent).policySignature = t.agent.policySignature)
    (hcareful : Careful resourceService registry (.confirm agent t)) :
    Sound d (resumedTurn resourceService registry agent t) where
  depth := (by decide : (0 : Int) ≤ defaultTeammateDepth)
  offers := by
    intro hoffered
    refine ⟨(by decide : (0 : Int) < defaultTeammateDepth), ?_⟩
    cases hcareful with
    | inl hnone => exact absurd hnone hoffered
    | inr hleft => exact hleft
  budget := h.budget
  course := by
    have hcourse := h.course
    rw [Turn.OnCourse, hphase] at hcourse
    change t.iteration + 1 ≤ (trustedAgent resourceService agent).maxToolIterations ∧ t.requests ≤ t.iteration + 1
    rw [maxToolIterations_resumed hpolicy]
    exact hcourse

/-- The turns of a stack are sound, each given less than the one that waits for it. -/
structure Nested (d : Nat) (s : List Turn) : Prop where
  sound : ∀ t ∈ s, Sound d t
  below : s.IsChain Below

structure Paused (d : Nat) (t : Turn) : Prop where
  sound : Sound d t
  handling : ∃ calls, t.phase = .handling calls

structure Inv (d : Nat) (σ : State) : Prop where
  active : ∀ s ∈ σ.active, Nested d s
  pending : ∀ t ∈ σ.pending, Paused d t

theorem nested_tail {rest : List Turn} (h : Nested d (t :: rest)) : Nested d rest :=
  ⟨fun u hu => h.sound u (List.mem_cons_of_mem t hu), h.below.tail⟩

theorem nested_further {t' : Turn} {rest : List Turn} (h : Nested d (t :: rest)) (hdepth : t'.depth = t.depth)
    (hoffered : t'.offered = t.offered) (hnesting : t'.nesting = t.nesting) (hleft : t'.left = t.left)
    (hcourse : t'.OnCourse) : Nested d (t' :: rest) := by
  have ht := h.sound t List.mem_cons_self
  refine ⟨List.forall_mem_cons.mpr ⟨⟨?_, ?_, ?_, hcourse⟩, (nested_tail h).sound⟩, ?_⟩
  · rw [hdepth]
    exact ht.depth
  · rw [hoffered, hdepth, hleft]
    exact ht.offers
  · rw [hnesting, hleft]
    exact ht.budget
  · refine List.isChain_cons.mpr ⟨fun u hu => ?_, h.below.tail⟩
    have hbelow := (List.isChain_cons.mp h.below).1 u hu
    exact ⟨hdepth ▸ hbelow.1, hleft ▸ hbelow.2⟩

theorem course_handling {calls : List Text} (h : t.OnCourse) (hphase : t.phase = .handling calls) :
    t.iteration < t.agent.maxToolIterations ∧ t.requests ≤ t.iteration + 1 := by
  rwa [Turn.OnCourse, hphase] at h

theorem nested_advance {s s' : List Turn} {p : Option Turn} (h : Advance resourceService registry s s' p)
    (hs : Nested d s) : Nested d s' ∧ ∀ t ∈ p, Paused d t := by
  cases h with
  | @respond t rest call calls hphase hlt =>
    have hcourse := (hs.sound t List.mem_cons_self).course
    rw [Turn.OnCourse, hphase] at hcourse
    exact ⟨nested_further hs rfl rfl rfl rfl ⟨hlt, Nat.succ_le_succ hcourse.2⟩, fun _ h => (nomatch h)⟩
  | complete => exact ⟨nested_tail hs, fun _ h => (nomatch h)⟩
  | fail => exact ⟨nested_tail hs, fun _ h => (nomatch h)⟩
  | @answer t rest call calls hphase =>
    have hcourse := course_handling (hs.sound t List.mem_cons_self).course hphase
    exact ⟨nested_further hs rfl rfl rfl rfl hcourse, fun _ h => (nomatch h)⟩
  | @delegate t rest call calls id agent hphase hid =>
    have ht := hs.sound t List.mem_cons_self
    have hcourse := course_handling ht.course hphase
    have hparent : Nested d ({ t with phase := .handling calls } :: rest) := nested_further hs rfl rfl rfl rfl hcourse
    obtain ⟨hchild, hbelow⟩ : Sound d (delegatedTurn resourceService registry agent t) ∧
        Below (delegatedTurn resourceService registry agent t) t := sound_delegated ht (List.ne_nil_of_mem hid)
    exact ⟨⟨List.forall_mem_cons.mpr ⟨hchild, hparent.sound⟩, List.isChain_cons_cons.mpr ⟨hbelow, hparent.below⟩⟩,
      fun _ h => (nomatch h)⟩
  | @pause t rest call calls hphase =>
    refine ⟨nested_tail hs, fun u hu => ?_⟩
    cases hu
    exact ⟨hs.sound t List.mem_cons_self, _, hphase⟩
  | @next t rest hphase =>
    have hcourse := course_handling (hs.sound t List.mem_cons_self).course hphase
    exact ⟨nested_further hs rfl rfl rfl rfl ⟨hcourse.1, hcourse.2⟩, fun _ h => (nomatch h)⟩

theorem inv_step {action : Action} {σ σ' : State} (h : Step resourceService registry action σ σ')
    (hcareful : Careful resourceService registry action) (hσ : Inv d σ) : Inv d σ' := by
  cases h with
  | @advance xs ys s s' p pending h =>
    obtain ⟨hs', hp⟩ := nested_advance h (hσ.active s (List.mem_append_right xs List.mem_cons_self))
    refine ⟨fun u hu => ?_, fun t ht => ?_⟩
    · cases List.mem_append.mp hu with
      | inl hu => exact hσ.active u (List.mem_append_left _ hu)
      | inr hu =>
        cases List.mem_cons.mp hu with
        | inl hu => exact hu ▸ hs'
        | inr hu => exact hσ.active u (List.mem_append_right xs (List.mem_cons_of_mem s hu))
    · cases List.mem_append.mp ht with
      | inl ht => exact hσ.pending t ht
      | inr ht => exact hp t (Option.mem_toList.mp ht)
  | @confirm active ps qs t agent _ _ hpolicy =>
    obtain ⟨hsound, calls, hphase⟩ := hσ.pending t (List.mem_append_right ps List.mem_cons_self)
    refine ⟨fun s hs => ?_, fun u hu => ?_⟩
    · cases List.mem_append.mp hs with
      | inl hs => exact hσ.active s hs
      | inr hs =>
        rw [List.mem_singleton.mp hs]
        exact ⟨fun u hu => List.mem_singleton.mp hu ▸ sound_resumed hsound hphase hpolicy hcareful, List.isChain_singleton _⟩
    · exact hσ.pending u (List.mem_append.mpr ((List.mem_append.mp hu).imp_right (List.mem_cons_of_mem t)))
  | @reject active ps qs t =>
    exact ⟨hσ.active, fun u hu =>
      hσ.pending u (List.mem_append.mpr ((List.mem_append.mp hu).imp_right (List.mem_cons_of_mem t)))⟩

theorem inv_started (teammateDepth : Option Int) :
    Inv (depthOf teammateDepth).toNat (started resourceService registry agent teammateDepth) := by
  have hdepth : depthOf teammateDepth ≤ ((depthOf teammateDepth).toNat : Int) := Int.self_le_toNat _
  refine ⟨fun s hs => ?_, fun t ht => (nomatch ht)⟩
  rw [List.mem_singleton.mp hs]
  exact ⟨fun t ht => List.mem_singleton.mp ht ▸ sound_run (Nat.zero_add _) hdepth, List.isChain_singleton _⟩

theorem inv_run {σ τ : State} {log : List (Registry × Action)} (h : Run resourceService σ log τ)
    (hcareful : ∀ e ∈ log, Careful resourceService e.1 e.2) (hσ : Inv d σ) : Inv d τ := by
  induction h with
  | nil => exact hσ
  | cons hstep _ ih =>
    exact ih (fun e he => hcareful e (List.mem_cons_of_mem _ he)) (inv_step hstep (hcareful _ List.mem_cons_self) hσ)

theorem above_le {above below : List Turn} (h : (above ++ t :: below).IsChain Below)
    (hdepth : ∀ u ∈ above ++ t :: below, 0 ≤ u.depth) : above.length ≤ t.depth ∧ above.length ≤ t.left := by
  induction above using List.reverseRecOn generalizing t below with
  | nil => exact ⟨hdepth t List.mem_cons_self, Nat.zero_le _⟩
  | append_singleton above u ih =>
    rw [List.append_assoc, List.singleton_append] at h hdepth
    obtain ⟨hu, hleft⟩ := ih h hdepth
    have hbelow : Below u t := (List.isChain_cons_cons.mp (List.isChain_append.mp h).2.1).1
    have hb₁ := hbelow.1
    have hb₂ := hbelow.2
    rw [List.length_append, List.length_singleton]
    omega

theorem requests_le (h : t.OnCourse) : t.requests ≤ t.agent.maxToolIterations + 1 := by
  cases hphase : t.phase with
  | requesting =>
    rw [Turn.OnCourse, hphase] at h
    exact Nat.le_succ_of_le (le_trans h.2 h.1)
  | handling calls =>
    have hcourse := course_handling h hphase
    omega

theorem bounded_of_inv {σ : State} (h : Inv d σ) : Bounded d σ := by
  have hsound : ∀ t ∈ σ.turns, Sound d t := by
    intro t ht
    cases List.mem_append.mp ht with
    | inl ht =>
      obtain ⟨s, hs, ht⟩ := List.mem_flatten.mp ht
      exact (h.active s hs).sound t ht
    | inr ht => exact (h.pending t ht).sound
  refine ⟨fun t ht => ?_, fun above t below hs => ?_, fun t ht => requests_le (hsound t ht).course, fun t ht hoffered => ?_⟩
  · have hbudget := (hsound t ht).budget
    omega
  · exact above_le (h.active _ hs).below (fun u hu => ((h.active _ hs).sound u hu).depth)
  · exact ((hsound t ht).offers hoffered).2

end Invariants

open Multiset (IsDershowitzMannaLT)

variable {resourceService : Bool} {registry : Registry} {d : Nat} {t : Turn} {agent : Agent}

/-- First what delegations a turn may lead to, then what is left of its loop. -/
abbrev Piece := ℕ ×ₗ ℕ

def piece (left rest : Nat) : Piece := toLex (left, rest)

theorem piece_lt_piece {left left' rest rest' : Nat} (h : left' < left ∨ left' = left ∧ rest' < rest) :
    piece left' rest' < piece left rest := Prod.Lex.toLex_lt_toLex.mpr h

def Turn.rounds (t : Turn) : Nat := 3 * (t.agent.maxToolIterations + 1 - t.iteration)

def Turn.work (t : Turn) : Multiset Piece :=
  match t.phase with
  | .requesting => {piece t.left t.rounds}
  | .handling calls => {piece t.left (t.rounds - 1)} + Multiset.replicate calls.length (piece t.left 0)

def stackWork (s : List Turn) : Multiset Piece := (s.map Turn.work).sum

def pausedWork (t : Turn) : Multiset Piece := {piece t.left (t.rounds - 2)}

def State.work (σ : State) : Multiset Piece := (σ.active.map stackWork).sum + (σ.pending.map pausedWork).sum

theorem stackWork_cons (rest : List Turn) : stackWork (t :: rest) = t.work + stackWork rest := List.sum_cons

theorem work_ne_zero : t.work ≠ 0 := by
  unfold Turn.work
  split
  · exact Multiset.singleton_ne_zero _
  · rw [Multiset.singleton_add]
    exact Multiset.cons_ne_zero

theorem work_handling {call : Text} {calls : List Text} (h : t.phase = .handling (call :: calls)) :
    t.work = { t with phase := .handling calls }.work + {piece t.left 0} := by
  rw [Turn.work, h, Turn.work]
  change _ + Multiset.replicate (calls.length + 1) (piece t.left 0) = _
  rw [Multiset.replicate_add, Multiset.replicate_one, ← add_assoc]
  rfl

theorem work_handling_nil (h : t.phase = .handling []) : t.work = {piece t.left (t.rounds - 1)} := by
  rw [Turn.work, h]
  exact add_zero _

theorem work_lt_of_left {left : Nat} (h : t.left < left) : IsDershowitzMannaLT t.work {piece left 0} := by
  refine lt_singleton (fun x hx => ?_)
  have hpiece (rest : Nat) : piece t.left rest < piece left 0 := piece_lt_piece (.inl h)
  unfold Turn.work at hx
  split at hx
  · exact Multiset.mem_singleton.mp hx ▸ hpiece _
  cases Multiset.mem_add.mp hx with
  | inl hx => exact Multiset.mem_singleton.mp hx ▸ hpiece _
  | inr hx => exact Multiset.eq_of_mem_replicate hx ▸ hpiece _

theorem work_advance {s s' : List Turn} {p : Option Turn} (h : Advance resourceService registry s s' p)
    (hs : Nested d s) : IsDershowitzMannaLT (stackWork s' + (p.toList.map pausedWork).sum) (stackWork s) := by
  have hadd (w : Multiset Piece) : w + (([] : List Turn).map pausedWork).sum = w := add_zero w
  have hcourse {calls : List Text} {t : Turn} {rest : List Turn} (hs : Nested d (t :: rest))
      (hphase : t.phase = .handling calls) : 6 ≤ t.rounds := by
    have hlt := (course_handling (hs.sound t List.mem_cons_self).course hphase).1
    unfold Turn.rounds
    omega
  cases h with
  | @respond t rest call calls hphase hlt =>
    rw [Option.toList_none, hadd, stackWork_cons, stackWork_cons]
    refine lt_add_right ?_ _
    have hrounds : 0 < t.rounds := by
      unfold Turn.rounds
      omega
    rw [show t.work = {piece t.left t.rounds} by rw [Turn.work, hphase]]
    refine lt_singleton (fun x hx => ?_)
    cases Multiset.mem_add.mp hx with
    | inl hx => exact Multiset.mem_singleton.mp hx ▸ piece_lt_piece (.inr ⟨rfl, Nat.sub_lt hrounds Nat.one_pos⟩)
    | inr hx => exact Multiset.eq_of_mem_replicate hx ▸ piece_lt_piece (.inr ⟨rfl, hrounds⟩)
  | complete =>
    rw [Option.toList_none, hadd, stackWork_cons]
    exact lt_of_add work_ne_zero
  | fail =>
    rw [Option.toList_none, hadd, stackWork_cons]
    exact lt_of_add work_ne_zero
  | @answer t rest call calls hphase =>
    rw [Option.toList_none, hadd, stackWork_cons, stackWork_cons, work_handling hphase]
    refine lt_add_right ?_ _
    rw [add_comm]
    exact lt_of_add (Multiset.singleton_ne_zero _)
  | @delegate t rest call calls id agent hphase hid =>
    have hpos := (hs.sound t List.mem_cons_self).offers (List.ne_nil_of_mem hid)
    have hleft : (delegatedTurn resourceService registry agent t).left < t.left := by
      change t.left - 1 < t.left
      omega
    rw [Option.toList_none, hadd, stackWork_cons, stackWork_cons, stackWork_cons, work_handling hphase, ← add_assoc,
      add_comm (Turn.work _) (Turn.work _), add_comm (Turn.work _) {_}]
    refine lt_add_right ?_ _
    rw [add_comm]
    exact lt_add_right (work_lt_of_left hleft) _
  | @pause t rest call calls hphase =>
    rw [stackWork_cons, add_comm]
    refine lt_add_right ?_ _
    change IsDershowitzMannaLT (({piece t.left (t.rounds - 2)} : Multiset Piece) + 0) _
    rw [add_zero, Turn.work, hphase]
    have hsix := hcourse hs hphase
    have hlt : IsDershowitzMannaLT ({piece t.left (t.rounds - 2)} : Multiset Piece) {piece t.left (t.rounds - 1)} :=
      singleton_lt (piece_lt_piece (.inr ⟨rfl, by omega⟩))
    have hne : Multiset.replicate (calls.length + 1) (piece t.left 0) ≠ 0 :=
      Multiset.replicate_succ (piece t.left 0) calls.length ▸ Multiset.cons_ne_zero
    have hmore : IsDershowitzMannaLT ({piece t.left (t.rounds - 1)} : Multiset Piece)
        (Multiset.replicate (calls.length + 1) (piece t.left 0) + {piece t.left (t.rounds - 1)}) := lt_of_add hne
    rw [add_comm] at hmore
    exact hlt.trans hmore
  | @next t rest hphase =>
    rw [Option.toList_none, hadd, stackWork_cons, stackWork_cons, work_handling_nil hphase]
    refine lt_add_right (singleton_lt (piece_lt_piece (.inr ⟨rfl, ?_⟩))) _
    have hlt := (course_handling (hs.sound t List.mem_cons_self).course hphase).1
    unfold Turn.rounds
    change 3 * (t.agent.maxToolIterations + 1 - (t.iteration + 1)) < _
    omega

theorem work_step {action : Action} {σ σ' : State} (h : Step resourceService registry action σ σ')
    (hσ : Inv d σ) : IsDershowitzMannaLT σ'.work σ.work := by
  cases h with
  | @advance xs ys s s' p pending h =>
    have hlt := work_advance h (hσ.active s (List.mem_append_right xs List.mem_cons_self))
    have hwork (u : List Turn) (ps : List Turn) : State.work ⟨xs ++ u :: ys, pending ++ ps⟩ =
        stackWork u + (ps.map pausedWork).sum +
          ((xs.map stackWork).sum + (ys.map stackWork).sum + (pending.map pausedWork).sum) := by
      simp only [State.work, List.map_append, List.sum_append, List.map_cons, List.sum_cons]
      abel
    have hbefore := hwork s []
    rw [List.append_nil] at hbefore
    rw [hbefore, hwork s']
    refine lt_add_right ?_ _
    rw [List.map_nil, List.sum_nil, add_zero]
    exact hlt
  | @confirm active ps qs t agent _ _ hpolicy =>
    obtain ⟨hsound, calls, hphase⟩ := hσ.pending t (List.mem_append_right ps List.mem_cons_self)
    have hlt := (course_handling hsound.course hphase).1
    have hafter : State.work ⟨active ++ [[resumedTurn resourceService registry agent t]], ps ++ qs⟩ =
        {piece t.left (resumedTurn resourceService registry agent t).rounds} +
          ((active.map stackWork).sum + ((ps.map pausedWork).sum + (qs.map pausedWork).sum)) := by
      simp only [State.work, List.map_append, List.sum_append, List.map_cons, List.map_nil, List.sum_cons, List.sum_nil,
        stackWork, add_zero]
      rw [add_comm (active.map _).sum, add_assoc]
      rfl
    have hbefore : State.work ⟨active, ps ++ t :: qs⟩ = pausedWork t +
        ((active.map stackWork).sum + ((ps.map pausedWork).sum + (qs.map pausedWork).sum)) := by
      simp only [State.work, List.map_append, List.sum_append, List.map_cons, List.sum_cons]
      abel
    rw [hafter, hbefore]
    refine lt_add_right (singleton_lt (piece_lt_piece (.inr ⟨rfl, ?_⟩))) _
    change 3 * ((trustedAgent resourceService agent).maxToolIterations + 1 - (t.iteration + 1)) < t.rounds - 2
    rw [maxToolIterations_resumed hpolicy]
    unfold Turn.rounds
    omega
  | @reject active ps qs t =>
    have hbefore : State.work ⟨active, ps ++ t :: qs⟩ = pausedWork t + State.work ⟨active, ps ++ qs⟩ := by
      simp only [State.work, List.map_append, List.sum_append, List.map_cons, List.sum_cons]
      abel
    rw [hbefore]
    exact lt_of_add (Multiset.singleton_ne_zero _)

def solo : Agent := ⟨"solo".toList, true, true, 8, []⟩

/-- Two Agents that may hand their work to each other. -/
def writer : Agent := ⟨"writer".toList, true, true, 8, ["critic".toList]⟩

def critic : Agent := ⟨"critic".toList, true, true, 8, ["writer".toList]⟩

def mates : Registry := fun id =>
  if id = "writer".toList then some writer else if id = "critic".toList then some critic else none

end Kirara.DelegationDepth
