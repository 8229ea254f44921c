import Kirara.DispatchRules

namespace Kirara.DispatchExplanations

open Kirara.Channels Kirara.Dicts Kirara.DispatchRules

variable {γ μ σ : Type}

structure ConditionExplanation (γ : Type) where
  type : Text
  config : γ
  matched : Option Bool
  reason : Option Text

structure GroupExplanation (γ : Type) where
  operator : Operator
  matched : Option Bool
  rules : List (ConditionExplanation γ)
  reason : Text

structure Explanation (γ : Type) where
  matched : Option Bool
  reason : Option Text
  groups : List (GroupExplanation γ)

/-- Why conditions of a type are not asked in a trial. -/
def undeterminedReason (type : Text) : Option Text :=
  if type = "random".toList then some "随机概率规则在试运行中不取样".toList
  else if type = "im_instance".toList then some "IM 实例条件需要真实运行中的消息来源，当前试运行无法确定".toList
  else none

variable (types : RuleTypes γ μ σ) (workflowId : Text) (message : μ)

/-- With what the condition adds to the valid results: a condition that raises adds nothing. -/
def explainCondition (rule : SimpleDispatchRule γ) (s : σ) : (ConditionExplanation γ × List (Option Bool)) × σ :=
  let condition : ConditionExplanation γ :=
    { type := rule.type, config := rule.config, matched := some false, reason := none }
  match undeterminedReason rule.type with
  | some reason => (({ condition with matched := none, reason := some reason }, [none]), s)
  | none =>
    match rule.evaluate types workflowId message s with
    | (.ok b, s) => (({ condition with matched := some b }, [some b]), s)
    | (.error e, s) => (({ condition with reason := some ("条件无法评估：".toList ++ e) }, []), s)

def explainConditions :
    List (SimpleDispatchRule γ) → σ → (List (ConditionExplanation γ) × List (Option Bool)) × σ
  | [], s => (([], []), s)
  | rule :: rules, s =>
    let ((condition, result), s) := explainCondition types workflowId message rule s
    let ((conditions, results), s) := explainConditions rules s
    ((condition :: conditions, result ++ results), s)

/-- The verdict on results that all have to be `b`, where one of the other kind decides. -/
def decided (b : Bool) (results : List (Option Bool)) : Option Bool :=
  if some (!b) ∈ results then some (!b) else if ∀ r ∈ results, r = some b then some b else none

def groupVerdict (operator : Operator) (results : List (Option Bool)) : Option Bool × Text :=
  if results = [] then (some false, "条件组中没有可评估的条件".toList)
  else
    match operator with
    | .and => (decided true results, "所有条件均需满足".toList)
    | .or => (decided false results, "任一条件满足即可".toList)

def explainGroup (group : RuleGroup γ) (s : σ) : GroupExplanation γ × σ :=
  if group.rules = [] then
    ({ operator := group.operator, matched := some true, rules := [], reason := "空条件组不构成额外限制".toList }, s)
  else
    let ((rules, results), s) := explainConditions types workflowId message group.rules s
    let (matched, reason) := groupVerdict group.operator results
    ({ operator := group.operator, matched := matched, rules := rules, reason := reason }, s)

def explainGroups : List (RuleGroup γ) → σ → List (GroupExplanation γ) × σ
  | [], s => ([], s)
  | group :: groups, s =>
    let (explanation, s) := explainGroup types workflowId message group s
    let (explanations, s) := explainGroups groups s
    (explanation :: explanations, s)

def explainMatch (rule : CombinedDispatchRule γ) (s : σ) : Explanation γ × σ :=
  if rule.enabled then
    let (groups, s) := explainGroups types rule.workflowId message rule.ruleGroups s
    let matched := decided true (groups.map GroupExplanation.matched)
    let reason := if matched = none then some "至少一个条件的结果无法确定".toList else none
    ({ matched := matched, reason := reason, groups := groups }, s)
  else ({ matched := some false, reason := some "规则已禁用".toList, groups := [] }, s)

/-- The condition says the same of the message whatever the state is. -/
def Deterministic (rule : SimpleDispatchRule γ) : Prop :=
  ∀ s t, (rule.evaluate types workflowId message s).1 = (rule.evaluate types workflowId message t).1

/-- Answers as they are explained, and any where the explanation leaves them open. -/
structure Answers (results : List (Option Bool)) (answers : List Bool) : Prop where
  mem : ∀ b, some b ∈ results → b ∈ answers
  all : none ∉ results → answers.map some = results

variable {results : List (Option Bool)} {answers : List Bool}

theorem Answers.decided {b c : Bool}
    (h : Answers results answers) (hne : results ≠ []) (hc : decided b results = some c) :
    answers ≠ [] ∧ ((c = !b ∧ (!b) ∈ answers) ∨ (c = b ∧ ∀ a ∈ answers, a = b)) := by
  unfold DispatchExplanations.decided at hc
  split at hc
  · next hmem =>
    have hanswer := h.mem _ hmem
    exact ⟨List.ne_nil_of_mem hanswer, Or.inl ⟨(Option.some.inj hc).symm, hanswer⟩⟩
  · split at hc
    · next hall =>
      have heq : answers.map some = results := h.all fun hnone => by simpa using hall none hnone
      refine ⟨fun hempty => hne (by rw [← heq, hempty, List.map_nil]), Or.inr ⟨(Option.some.inj hc).symm, fun a ha => ?_⟩⟩
      have hmem : some a ∈ results := heq ▸ List.mem_map_of_mem ha
      exact Option.some.inj (hall _ hmem)
    · simp at hc

theorem Answers.combine {operator : Operator}
    (h : Answers results answers) {c : Bool} (hc : (groupVerdict operator results).1 = some c) :
    (if answers = [] then false else operator.combine answers) = c := by
  unfold groupVerdict at hc
  by_cases hempty : results = []
  · have hall : answers.map some = results := h.all (by simp [hempty])
    rw [if_pos hempty] at hc
    rw [if_pos (List.map_eq_nil_iff.mp (hall.trans hempty))]
    exact Option.some.inj hc
  · rw [if_neg hempty] at hc
    cases operator with
    | and =>
      obtain ⟨hne, ⟨rfl, hone⟩ | ⟨rfl, hall⟩⟩ := h.decided hempty hc
      · rw [if_neg hne]
        exact List.all_eq_false.mpr ⟨false, hone, by simp⟩
      · rw [if_neg hne]
        exact List.all_eq_true.mpr hall
    | or =>
      obtain ⟨hne, ⟨rfl, hone⟩ | ⟨rfl, hall⟩⟩ := h.decided hempty hc
      · rw [if_neg hne]
        exact List.any_eq_true.mpr ⟨true, hone, rfl⟩
      · rw [if_neg hne]
        exact List.any_eq_false.mpr fun a ha => by simp [hall a ha]

variable {types : RuleTypes γ μ σ} {workflowId : Text} {message : μ}

/-- What a condition adds goes before what the others add. -/
theorem Answers.cons (h : Answers results answers) (b : Bool) :
    Answers (some b :: results) (b :: answers) ∧ Answers (none :: results) (b :: answers) ∧
      Answers (none :: results) answers := by
  refine ⟨⟨fun c hc => ?_, fun hnone => ?_⟩, ⟨fun c hc => ?_, fun hnone => ?_⟩, ⟨fun c hc => ?_, fun hnone => ?_⟩⟩
  · cases List.mem_cons.mp hc with
    | inl heq => exact List.mem_cons.mpr (Or.inl (Option.some.inj heq))
    | inr hrest => exact List.mem_cons_of_mem b (h.mem c hrest)
  · rw [List.map_cons, h.all (fun hrest => hnone (List.mem_cons_of_mem _ hrest))]
  · exact List.mem_cons_of_mem b (h.mem c (by simpa using hc))
  · exact absurd List.mem_cons_self hnone
  · exact h.mem c (by simpa using hc)
  · exact absurd List.mem_cons_self hnone

theorem answers_explained {rules : List (SimpleDispatchRule γ)}
    (h : ∀ rule ∈ rules, undeterminedReason rule.type = none → Deterministic types workflowId message rule) (s t : σ) :
    Answers (explainConditions types workflowId message rules s).1.2 (ruleResults types workflowId message rules t).1 := by
  induction rules generalizing s t with
  | nil => exact ⟨by simp [explainConditions], fun _ => rfl⟩
  | cons rule rules ih =>
    have hrest := ih fun r hr => h r (List.mem_cons_of_mem rule hr)
    rw [explainConditions, ruleResults, explainCondition]
    cases hreason : undeterminedReason rule.type with
    | some reason =>
      -- Asked in a match only, where it may also raise.
      rcases rule.evaluate types workflowId message t with ⟨e | b, t'⟩
      · exact ((hrest s t').cons true).2.2
      · exact ((hrest s t').cons b).2.1
    | none =>
      have hsame := h rule List.mem_cons_self hreason s t
      rcases hs : rule.evaluate types workflowId message s with ⟨r, s'⟩
      rcases ht : rule.evaluate types workflowId message t with ⟨r', t'⟩
      rw [hs, ht] at hsame
      obtain rfl : r = r' := hsame
      cases r with
      | error e => exact hrest s' t'
      | ok b => exact ((hrest s' t').cons b).1

theorem group_agrees {group : RuleGroup γ}
    (h : ∀ rule ∈ group.rules, undeterminedReason rule.type = none → Deterministic types workflowId message rule)
    (s t : σ) {b : Bool} (hb : (explainGroup types workflowId message group s).1.matched = some b) :
    (group.match' types workflowId message t).1 = b := by
  unfold explainGroup at hb
  unfold RuleGroup.match'
  by_cases hempty : group.rules = []
  · rw [if_pos hempty] at hb ⊢
    exact Option.some.inj hb
  · rw [if_neg hempty] at hb ⊢
    have hc := (answers_explained h s t).combine hb
    rw [← hc]
    exact apply_ite Prod.fst _ _ _

theorem groups_agree {groups : List (RuleGroup γ)} (h : ∀ group ∈ groups, ∀ rule ∈ group.rules,
      undeterminedReason rule.type = none → Deterministic types workflowId message rule) (s t : σ) :
    let verdicts := (explainGroups types workflowId message groups s).1.map GroupExplanation.matched
    (some false ∈ verdicts → (matchGroups types workflowId message groups t).1 = false) ∧
      ((∀ r ∈ verdicts, r = some true) → (matchGroups types workflowId message groups t).1 = true) := by
  induction groups generalizing s t with
  | nil => exact ⟨by simp [explainGroups], fun _ => rfl⟩
  | cons group groups ih =>
    have hgroup := fun b => group_agrees (h group List.mem_cons_self) s t (b := b)
    have hrest := ih fun g hg => h g (List.mem_cons_of_mem group hg)
    simp only [explainGroups, matchGroups, List.map_cons, List.mem_cons]
    rcases ht : group.match' types workflowId message t with ⟨_ | _, t'⟩ <;> rw [ht] at hgroup
    · exact ⟨fun _ => rfl, fun hall => hgroup true (hall _ (Or.inl rfl))⟩
    · refine ⟨fun hmem => ?_, fun hall => (hrest _ t').2 fun r hr => hall r (Or.inr hr)⟩
      cases hmem with
      | inl hhead => exact absurd (hgroup false hhead.symm) (by simp)
      | inr hmem => exact (hrest _ t').1 hmem

/-- What the trial of a rule says for sure is what matching gives, whatever state it meets. -/
theorem explainMatch_agrees {rule : CombinedDispatchRule γ}
    (h : ∀ group ∈ rule.ruleGroups, ∀ condition ∈ group.rules,
      undeterminedReason condition.type = none → Deterministic types rule.workflowId message condition)
    (s t : σ) {b : Bool} (hb : (explainMatch types message rule s).1.matched = some b) :
    (rule.match' types message t).1 = b := by
  unfold explainMatch at hb
  unfold CombinedDispatchRule.match'
  by_cases henabled : rule.enabled = true
  · rw [if_pos henabled] at hb ⊢
    have hgroups := groups_agree h s t
    dsimp only [decided] at hb
    split at hb
    · next hmem => exact (hgroups.1 hmem).trans (Option.some.inj hb)
    split at hb
    · next hall => exact (hgroups.2 hall).trans (Option.some.inj hb)
    · simp at hb
  · rw [if_neg henabled] at hb ⊢
    exact Option.some.inj hb

/-- One condition is enough: a chance, one that holds, and one of no known type. -/
def chancy : CombinedDispatchRule Unit where
  ruleId := "r".toList
  name := []
  description := []
  workflowId := "chat:normal".toList
  agentId := none
  priority := 5
  enabled := true
  ruleGroups := [⟨.or, [⟨"random".toList, ()⟩, ⟨fallbackRuleType, ()⟩, ⟨"unknown".toList, ()⟩]⟩]
  metadata := ()

def onlyFallback : RuleTypes Unit Unit Unit where
  classes := Dict.set .empty fallbackRuleType fallbackMatchRule
  fallback := rfl

theorem chancy_matches : (chancy.match' onlyFallback () ()).1 = true := by
  refine explainMatch_agrees (fun group hgroup condition hcondition hasked => ?_) () () rfl
  intro s t
  rfl

end Kirara.DispatchExplanations
