import Kirara.Channels
import Kirara.Dicts
import Kirara.StableSorts
import Mathlib.Data.List.Lex

namespace Kirara.DispatchRules

open Kirara.Channels Kirara.Dicts Kirara.StableSorts

/-- `γ` is a dictionary of whatever values, as a condition keeps its settings in. -/
structure SimpleDispatchRule (γ : Type) where
  type : Text
  config : γ
  deriving DecidableEq

inductive Operator where
  | and
  | or
  deriving DecidableEq

structure RuleGroup (γ : Type) where
  operator : Operator
  rules : List (SimpleDispatchRule γ)
  deriving DecidableEq

structure CombinedDispatchRule (γ : Type) where
  ruleId : Text
  name : Text
  description : Text
  workflowId : Text
  agentId : Option Text
  priority : Int
  enabled : Bool
  ruleGroups : List (RuleGroup γ)
  metadata : γ
  deriving DecidableEq

def fallbackRuleType : Text := "fallback".toList

variable {γ μ σ : Type}

/-- A type of conditions. All else that it reads or changes is the state. -/
structure RuleClass (γ μ σ : Type) where
  fromConfig : γ → Text → Except Text (μ → σ → Except Text Bool × σ)

def fallbackMatchRule : RuleClass γ μ σ where
  fromConfig _ _ := .ok (fun _ s => (.ok true, s))

/-- The types that are registered. Plugins add theirs to the built-in ones. -/
structure RuleTypes (γ μ σ : Type) where
  classes : Dict Text (RuleClass γ μ σ)
  fallback : classes.get fallbackRuleType = some fallbackMatchRule

def getRuleType (types : RuleTypes γ μ σ) (typeName : Text) : Except Text (RuleClass γ μ σ) :=
  match types.classes.get typeName with
  | none => .error ("Unknown rule type: ".toList ++ typeName)
  | some c => .ok c

variable (types : RuleTypes γ μ σ) (workflowId : Text) (message : μ)

def SimpleDispatchRule.evaluate (rule : SimpleDispatchRule γ) (s : σ) : Except Text Bool × σ :=
  match getRuleType types rule.type with
  | .error e => (.error e, s)
  | .ok c =>
    match c.fromConfig rule.config workflowId with
    | .error e => (.error e, s)
    | .ok ask => ask message s

/-- The answers of the conditions of a group. One that raises gives none. -/
def ruleResults : List (SimpleDispatchRule γ) → σ → List Bool × σ
  | [], s => ([], s)
  | rule :: rules, s =>
    match rule.evaluate types workflowId message s with
    | (.ok b, s) =>
      let (rest, s) := ruleResults rules s
      (b :: rest, s)
    | (.error _, s) => ruleResults rules s

def Operator.combine : Operator → List Bool → Bool
  | .and, results => results.all id
  | .or, results => results.any id

def RuleGroup.match' (group : RuleGroup γ) (s : σ) : Bool × σ :=
  if group.rules = [] then (true, s)
  else
    let (results, s) := ruleResults types workflowId message group.rules s
    if results = [] then (false, s) else (group.operator.combine results, s)

def matchGroups : List (RuleGroup γ) → σ → Bool × σ
  | [], s => (true, s)
  | group :: groups, s =>
    match group.match' types workflowId message s with
    | (false, s) => (false, s)
    | (true, s) => matchGroups groups s

def CombinedDispatchRule.match' (rule : CombinedDispatchRule γ) (s : σ) : Bool × σ :=
  if rule.enabled then matchGroups types rule.workflowId message rule.ruleGroups s else (false, s)

def firstMatch : List (CombinedDispatchRule γ) → σ → Option Nat × σ
  | [], s => (none, s)
  | rule :: rules, s =>
    match rule.match' types message s with
    | (true, s) => (some 0, s)
    | (false, s) =>
      let (place, s) := firstMatch rules s
      (place.map (· + 1), s)

/-- Higher priorities first, and equal ones by the id of the rule. -/
def dispatchOrderKey (rule : CombinedDispatchRule γ) : Int ×ₗ Text := toLex (-rule.priority, rule.ruleId)

def sortRulesInDispatchOrder (rules : List (CombinedDispatchRule γ)) : List (CombinedDispatchRule γ) :=
  sortBy dispatchOrderKey rules

def activeRules (rules : List (CombinedDispatchRule γ)) : List (CombinedDispatchRule γ) :=
  sortRulesInDispatchOrder (rules.filter CombinedDispatchRule.enabled)

def isUnconditionalGroup (group : RuleGroup γ) : Bool :=
  if group.rules = [] then true
  else
    match group.operator with
    | .and => group.rules.all (fun rule => rule.type = fallbackRuleType)
    | .or => group.rules.any (fun rule => rule.type = fallbackRuleType)

def isCatchAllRule (rule : CombinedDispatchRule γ) : Bool :=
  if rule.ruleGroups = [] then true else rule.ruleGroups.all isUnconditionalGroup

structure DispatchRuleReachability where
  ruleId : Text
  name : Text
  workflowId : Text
  priority : Int
  enabled : Bool
  order : Option Nat
  catchAll : Bool
  unreachable : Bool
  shadowedByRuleId : Option Text
  deriving DecidableEq

/-- With the rule that shadows what is left and the number of enabled rules. -/
def analyzeFrom (shadowingRuleId : Option Text) (enabledOrder : Nat) :
    List (CombinedDispatchRule γ) → List DispatchRuleReachability
  | [] => []
  | rule :: rules =>
    let catchAll := isCatchAllRule rule
    let unreachable := rule.enabled && shadowingRuleId.isSome
    let enabledOrder := if rule.enabled then enabledOrder + 1 else enabledOrder
    let row : DispatchRuleReachability :=
      { ruleId := rule.ruleId
        name := rule.name
        workflowId := rule.workflowId
        priority := rule.priority
        enabled := rule.enabled
        order := if rule.enabled then some enabledOrder else none
        catchAll := catchAll
        unreachable := unreachable
        shadowedByRuleId := if unreachable then shadowingRuleId else none }
    -- The first enabled rule that matches everything shadows all that follow.
    let shadowing :=
      if shadowingRuleId.isNone && rule.enabled && catchAll then some rule.ruleId else shadowingRuleId
    row :: analyzeFrom shadowing enabledOrder rules

def analyzeDispatchReachability (rules : List (CombinedDispatchRule γ)) : List DispatchRuleReachability :=
  analyzeFrom none 0 (sortRulesInDispatchOrder rules)

end Kirara.DispatchRules
