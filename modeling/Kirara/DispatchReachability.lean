import Kirara.DispatchRules

namespace Kirara.DispatchReachability

open Kirara.Channels Kirara.DispatchRules Kirara.StableSorts

variable {γ μ σ : Type}

variable {types : RuleTypes γ μ σ} {workflowId : Text} {message : μ}

theorem evaluate_fallback {rule : SimpleDispatchRule γ} (h : rule.type = fallbackRuleType) (s : σ) :
    rule.evaluate types workflowId message s = (.ok true, s) := by
  rw [SimpleDispatchRule.evaluate, getRuleType, h, types.fallback]
  rfl

theorem ruleResults_fallback {rules : List (SimpleDispatchRule γ)} (h : ∀ rule ∈ rules, rule.type = fallbackRuleType)
    (s : σ) : ruleResults types workflowId message rules s = (rules.map fun _ => true, s) := by
  induction rules with
  | nil => rfl
  | cons rule rules ih =>
    rw [ruleResults, evaluate_fallback (h rule List.mem_cons_self)]
    dsimp only
    rw [ih (fun r hr => h r (List.mem_cons_of_mem rule hr))]
    rfl

theorem true_mem_ruleResults {rules : List (SimpleDispatchRule γ)} (h : ∃ rule ∈ rules, rule.type = fallbackRuleType)
    (s : σ) : true ∈ (ruleResults types workflowId message rules s).1 := by
  induction rules generalizing s with
  | nil => simp at h
  | cons rule rules ih =>
    rw [ruleResults]
    by_cases hrule : rule.type = fallbackRuleType
    · rw [evaluate_fallback hrule]
      exact List.mem_cons_self
    · have hrest : ∃ r ∈ rules, r.type = fallbackRuleType := by simpa [hrule] using h
      split
      · exact List.mem_cons_of_mem _ (ih hrest _)
      · exact ih hrest _

theorem match_unconditional {group : RuleGroup γ} (h : isUnconditionalGroup group = true) (s : σ) :
    (group.match' types workflowId message s).1 = true := by
  unfold isUnconditionalGroup at h
  unfold RuleGroup.match'
  split
  · rfl
  · next hne =>
    rw [if_neg hne] at h
    cases hop : group.operator with
    | and =>
      have hall : ∀ rule ∈ group.rules, rule.type = fallbackRuleType := by simpa [hop] using h
      rw [ruleResults_fallback hall]
      simp [Operator.combine, hne]
    | or =>
      have hany : ∃ rule ∈ group.rules, rule.type = fallbackRuleType := by simpa [hop] using h
      have hmem : true ∈ (ruleResults types workflowId message group.rules s).1 := true_mem_ruleResults hany s
      dsimp only
      rw [if_neg (List.ne_nil_of_mem hmem)]
      exact List.any_eq_true.mpr ⟨true, hmem, rfl⟩

theorem matchGroups_unconditional {groups : List (RuleGroup γ)} (h : ∀ group ∈ groups, isUnconditionalGroup group = true)
    (s : σ) : (matchGroups types workflowId message groups s).1 = true := by
  induction groups generalizing s with
  | nil => rfl
  | cons group groups ih =>
    have hgroup : (group.match' types workflowId message s).1 = true := match_unconditional (h group List.mem_cons_self) s
    rw [matchGroups]
    split
    · next heq =>
      rw [heq] at hgroup
      exact nomatch hgroup
    · exact ih (fun g hg => h g (List.mem_cons_of_mem group hg)) _

theorem match_catchAll {rule : CombinedDispatchRule γ} (henabled : rule.enabled = true) (h : isCatchAllRule rule = true)
    (s : σ) : (rule.match' types message s).1 = true := by
  rw [CombinedDispatchRule.match', if_pos henabled]
  apply matchGroups_unconditional
  unfold isCatchAllRule at h
  split at h
  · next hnil => simp [hnil]
  · exact List.all_eq_true.mp h

variable {rules : List (CombinedDispatchRule γ)} {shadowing : Option Text} {n : Nat}

def described (rule : CombinedDispatchRule γ) : Text × Text × Text × Int × Bool :=
  (rule.ruleId, rule.name, rule.workflowId, rule.priority, isCatchAllRule rule)

def describes (row : DispatchRuleReachability) : Text × Text × Text × Int × Bool :=
  (row.ruleId, row.name, row.workflowId, row.priority, row.catchAll)

def activeRows (rows : List DispatchRuleReachability) : List DispatchRuleReachability :=
  rows.filter DispatchRuleReachability.enabled

theorem analyzeFrom_rows :
    (activeRows (analyzeFrom shadowing n rules)).map describes = (rules.filter CombinedDispatchRule.enabled).map described := by
  induction rules generalizing shadowing n with
  | nil => rfl
  | cons rule rules ih =>
    unfold activeRows at ih ⊢
    rw [analyzeFrom, List.filter_cons, List.filter_cons]
    dsimp only
    cases rule.enabled with
    | true => exact congrArg _ ih
    | false => exact ih

theorem analyzeFrom_order : (activeRows (analyzeFrom shadowing n rules)).map DispatchRuleReachability.order =
      (List.range' (n + 1) (rules.filter CombinedDispatchRule.enabled).length).map some := by
  induction rules generalizing shadowing n with
  | nil => rfl
  | cons rule rules ih =>
    unfold activeRows at ih ⊢
    rw [analyzeFrom, List.filter_cons, List.filter_cons]
    dsimp only
    cases rule.enabled with
    | true =>
      simp only [if_true, List.map_cons, List.length_cons, List.range'_succ, ih]
    | false => exact ih

theorem activeRules_eq (rules : List (CombinedDispatchRule γ)) :
    activeRules rules = (sortRulesInDispatchOrder rules).filter CombinedDispatchRule.enabled := sortBy_filter _

theorem analyzeFrom_first (types : RuleTypes γ μ σ) (message : μ) {s : σ} {place : Nat}
    (h : (firstMatch types message (rules.filter CombinedDispatchRule.enabled) s).1 = some place) :
    ∃ row, (activeRows (analyzeFrom none n rules))[place]? = some row ∧ row.unreachable = false := by
  unfold activeRows
  induction rules generalizing n s place with
  | nil => simp [firstMatch] at h
  | cons rule rules ih =>
    rw [analyzeFrom, List.filter_cons]
    rw [List.filter_cons] at h
    cases henabled : rule.enabled with
    | false =>
      simp only [henabled, Bool.false_eq_true, if_false, Bool.and_false, Bool.false_and] at h ⊢
      exact ih h
    | true =>
      simp only [henabled, if_true, firstMatch] at h ⊢
      split at h
      · cases h
        exact ⟨_, rfl, by simp⟩
      · next hno =>
        have hcatch : isCatchAllRule rule = false := by
          by_contra hc
          have hyes : (rule.match' types message s).1 = true := match_catchAll henabled (by simpa using hc) s
          rw [hno] at hyes
          exact nomatch hyes
        obtain ⟨later, hlater, hplace⟩ := Option.map_eq_some_iff.mp h
        obtain ⟨row, hrow, hfree⟩ := ih (n := n + 1) hlater
        refine ⟨row, ?_, hfree⟩
        simpa [← hplace, hcatch] using hrow

/-- The analysis lists the rules in order of trial, and the first that matches a message is not
taken to be shadowed. -/
theorem shadowed_never_first (types : RuleTypes γ μ σ) (rules : List (CombinedDispatchRule γ)) (message : μ) (s : σ) :
    let rows := activeRows (analyzeDispatchReachability rules)
    rows.map describes = (activeRules rules).map described ∧
      rows.map DispatchRuleReachability.order = (List.range' 1 rows.length).map some ∧
      ∀ place, (firstMatch types message (activeRules rules) s).1 = some place →
        ∃ row, rows[place]? = some row ∧ row.unreachable = false := by
  have hlength : (activeRows (analyzeDispatchReachability rules)).length =
      ((sortRulesInDispatchOrder rules).filter CombinedDispatchRule.enabled).length := by
    have hrows : (activeRows (analyzeDispatchReachability rules)).map describes = _ := analyzeFrom_rows
    simpa using congrArg List.length hrows
  rw [activeRules_eq]
  refine ⟨analyzeFrom_rows, ?_, fun place h => analyzeFrom_first types message h⟩
  rw [hlength]
  exact analyzeFrom_order

end Kirara.DispatchReachability
