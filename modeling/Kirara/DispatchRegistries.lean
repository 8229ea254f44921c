import Kirara.ConfigValues
import Kirara.DispatchRules
import Mathlib.Data.Finset.Basic
import Mathlib.Data.Finset.Lattice.Lemmas

namespace Kirara.DispatchRegistries

open Kirara.Channels Kirara.ConfigValues Kirara.Dicts Kirara.DispatchRules Kirara.Rosters

inductive Scalar where
  | null
  | bool (b : Bool)
  | int (n : Int)
  | other (t : Text)
  deriving DecidableEq

abbrev Data := Value Scalar

abbrev Settings := List (Text × Data)

abbrev Rule := CombinedDispatchRule Settings

/-- Reading and writing YAML, and making a rule from the fields in a document. -/
structure Library (χ : Type) where
  yamlDump : Data → χ
  yamlLoad : χ → Option Data
  validate : Settings → Option Rule

section Documents

def dumpSimple (rule : SimpleDispatchRule Settings) : Data :=
  .dict [("type".toList, .text rule.type), ("config".toList, .dict rule.config)]

def dumpOperator : Operator → Data
  | .and => .text "and".toList
  | .or => .text "or".toList

def dumpGroup (group : RuleGroup Settings) : Data :=
  .dict [("operator".toList, dumpOperator group.operator), ("rules".toList, .list (group.rules.map dumpSimple))]

def modelDump (rule : Rule) : Settings :=
  [("rule_id".toList, .text rule.ruleId), ("name".toList, .text rule.name),
    ("description".toList, .text rule.description),
    ("workflow_id".toList, .text rule.workflowId),
    ("agent_id".toList, rule.agentId.elim (.atom .null) .text),
    ("priority".toList, .atom (.int rule.priority)),
    ("enabled".toList, .atom (.bool rule.enabled)),
    ("rule_groups".toList, .list (rule.ruleGroups.map dumpGroup)),
    ("metadata".toList, .dict rule.metadata)]

/-- The settings that the conditions of each built-in type have. -/
def configFields : List (Text × List Text) :=
  [("regex".toList, ["pattern".toList]), ("prefix".toList, ["prefix".toList]),
    ("keyword".toList, ["keywords".toList]),
    ("bot_mention".toList, []),
    ("random".toList, ["chance".toList]),
    ("sender".toList, ["sender_id".toList, "sender_group".toList]),
    ("sender_mismatch".toList, ["sender_id".toList, "sender_group".toList]),
    ("chat_type".toList, ["chat_type".toList]),
    ("im_instance".toList, ["im_instance".toList]),
    (fallbackRuleType, [])]

variable {χ : Type} (lib : Library χ)

def convertOldRule (data : Settings) : Option Rule :=
  match lookup "type".toList data with
  | some (.text type) =>
    match lookup type configFields, lookup "rule_id".toList data, lookup "name".toList data,
      lookup "workflow_id".toList data with
    | some fields, some ruleId, some name, some workflowId =>
      let config := fields.filterMap (fun k => (lookup k data).map (fun v => (k, v)))
      let simple : Data := .dict [("type".toList, .text type), ("config".toList, .dict config)]
      let group : Data := .dict [("operator".toList, dumpOperator .or), ("rules".toList, .list [simple])]
      lib.validate
        [("rule_id".toList, ruleId), ("name".toList, name),
          ("description".toList, (lookup "description".toList data).getD (.text [])),
          ("workflow_id".toList, workflowId),
          ("rule_groups".toList, .list [group]),
          ("priority".toList, (lookup "priority".toList data).getD (.atom (.int 5))),
          ("enabled".toList, (lookup "enabled".toList data).getD (.atom (.bool true))),
          ("metadata".toList, (lookup "metadata".toList data).getD (.dict []))]
    | _, _, _, _ => none
  | _ => none

def parseRule : Data → Option Rule
  | .dict data =>
    if (lookup "rule_groups".toList data).isSome then lib.validate data else convertOldRule lib data
  | .atom _ | .text _ | .list _ | .tuple _ => none

end Documents

inductive RegistryError where
  | missingId
  | workflowNotFound (workflowId : Text)
  | ruleNotFound (ruleId : Text)
  deriving DecidableEq

def RegistryError.text : RegistryError → Text
  | .missingId => "Rule must have an ID".toList
  | .workflowNotFound workflowId => "Workflow ".toList ++ workflowId ++ " not found".toList
  | .ruleNotFound ruleId => "Rule ".toList ++ ruleId ++ " not found".toList

structure DispatchRuleRegistry where
  rules : Dict Text Rule
  presetRuleIds : Finset Text
  deletedPresetRuleIds : Finset Text
  hasPersistedRules : Bool

namespace DispatchRuleRegistry

def empty : DispatchRuleRegistry := ⟨.empty, ∅, ∅, false⟩

def register (r : DispatchRuleRegistry) (rule : Rule) : Except RegistryError DispatchRuleRegistry :=
  if rule.ruleId = [] then .error .missingId
  else
    .ok { r with
      deletedPresetRuleIds := r.deletedPresetRuleIds.erase rule.ruleId
      rules := r.rules.set rule.ruleId rule }

def registerPresetRule (r : DispatchRuleRegistry) (rule : Rule) : Except RegistryError DispatchRuleRegistry :=
  if rule.ruleId = [] then .error .missingId
  else
    let known := { r with presetRuleIds := insert rule.ruleId r.presetRuleIds }
    if rule.ruleId ∈ r.deletedPresetRuleIds then .ok known
    else if rule.ruleId ∈ r.rules.keys then .ok known
    else .ok { known with rules := r.rules.set rule.ruleId rule }

def createRule (r : DispatchRuleRegistry) (workflowExists : Bool) (rule : Rule) :
    Except RegistryError DispatchRuleRegistry :=
  if workflowExists then r.register rule else .error (.workflowNotFound rule.workflowId)

def updateRule (r : DispatchRuleRegistry) (ruleId : Text) (rule : Rule) : Except RegistryError DispatchRuleRegistry :=
  if ruleId ∈ r.rules.keys then r.register rule else .error (.ruleNotFound ruleId)

def deleteRule (r : DispatchRuleRegistry) (ruleId : Text) : Except RegistryError DispatchRuleRegistry :=
  if ruleId ∈ r.rules.keys then
    .ok { r with
      deletedPresetRuleIds :=
        if ruleId ∈ r.presetRuleIds then insert ruleId r.deletedPresetRuleIds else r.deletedPresetRuleIds
      rules := r.rules.pop ruleId }
  else .error (.ruleNotFound ruleId)

def registerSystemDispatchRules (r : DispatchRuleRegistry) (defaults : List Rule) :
    Except RegistryError DispatchRuleRegistry :=
  if r.hasPersistedRules then .ok r else defaults.foldlM registerPresetRule r

def getActiveRules (r : DispatchRuleRegistry) : List Rule := activeRules r.rules.values

end DispatchRuleRegistry

/-- The file of deletion marks. Of the list in it only the set of ids matters. -/
inductive Tombstones where
  | missing
  | invalid
  | ids (ruleIds : Finset Text)
  deriving DecidableEq

def Tombstones.marks : Tombstones → Finset Text
  | .missing | .invalid => ∅
  | .ids ruleIds => ruleIds

/-- The two files that a save writes, together. -/
structure RulesDirectory (χ : Type) where
  rulesFile : Option χ
  tombstones : Tombstones

/-- The other YAML files, which are listed before and after `rules.yaml`. -/
structure OtherFiles (χ : Type) where
  before : List χ
  after : List χ

namespace DispatchRuleRegistry

variable {χ : Type} (lib : Library χ)

def loadPresetTombstones (r : DispatchRuleRegistry) : Tombstones → DispatchRuleRegistry
  | .missing | .invalid => r
  | .ids ruleIds => { r with deletedPresetRuleIds := ruleIds }

def loadRule (r : DispatchRuleRegistry) (data : Data) : DispatchRuleRegistry :=
  match parseRule lib data with
  | none => r
  | some rule =>
    match r.register rule with
    | .error _ => r
    | .ok r => r

def loadFile (r : DispatchRuleRegistry) (content : χ) : DispatchRuleRegistry :=
  match lib.yamlLoad content with
  | some (.list items) => items.foldl (loadRule lib) { r with hasPersistedRules := true }
  | some (.atom _) | some (.text _) | some (.tuple _) | some (.dict _) | none => r

def loadRules (r : DispatchRuleRegistry) (others : OtherFiles χ) (dir : RulesDirectory χ) : DispatchRuleRegistry :=
  let marked := { r with hasPersistedRules := false }.loadPresetTombstones dir.tombstones
  (others.before ++ dir.rulesFile.toList ++ others.after).foldl (loadFile lib) marked

def saveRules (r : DispatchRuleRegistry) : RulesDirectory χ where
  rulesFile := some (lib.yamlDump (.list (r.rules.values.map (fun rule => .dict (modelDump rule)))))
  tombstones := .ids r.deletedPresetRuleIds

end DispatchRuleRegistry

variable {χ : Type} {lib : Library χ} {r : DispatchRuleRegistry}

def rulesOf (lib : Library χ) (content : χ) : List Rule :=
  match lib.yamlLoad content with
  | some (.list items) => (items.filterMap (parseRule lib)).filter (fun rule => rule.ruleId ≠ [])
  | some (.atom _) | some (.text _) | some (.tuple _) | some (.dict _) | none => []

def registerAll (rules : List Rule) (d : Dict Text Rule) : Dict Text Rule :=
  rules.foldl (fun d rule => d.set rule.ruleId rule) d

def ruleIds (rules : List Rule) : Finset Text := (rules.map CombinedDispatchRule.ruleId).toFinset

/-- What loading comes to, the flag for a rules file apart. -/
structure Loads (loaded : List Rule) (r s : DispatchRuleRegistry) : Prop where
  rules : s.rules = registerAll loaded r.rules
  deleted : s.deletedPresetRuleIds = r.deletedPresetRuleIds \ ruleIds loaded
  presets : s.presetRuleIds = r.presetRuleIds

theorem Loads.nil : Loads [] r r := ⟨rfl, by simp [ruleIds], rfl⟩

theorem Loads.trans {rules more : List Rule} {s t : DispatchRuleRegistry} (h : Loads rules r s) (h' : Loads more s t) :
    Loads (rules ++ more) r t where
  rules := by rw [h'.rules, h.rules, registerAll, registerAll, registerAll, List.foldl_append]
  deleted := by
    rw [h'.deleted, h.deleted, sdiff_sdiff, ruleIds, ruleIds, ruleIds, List.map_append, List.toFinset_append]
    rfl
  presets := h'.presets.trans h.presets

theorem loads_loadRule (data : Data) :
    Loads ((parseRule lib data).toList.filter (fun rule => rule.ruleId ≠ [])) r (r.loadRule lib data) := by
  unfold DispatchRuleRegistry.loadRule
  cases parseRule lib data with
  | none => exact .nil
  | some rule =>
    by_cases hid : rule.ruleId = []
    · simpa [DispatchRuleRegistry.register, hid] using Loads.nil
    simp only [DispatchRuleRegistry.register, hid, if_false]
    refine ⟨?_, ?_, rfl⟩
    · simp [registerAll, hid]
    · simp [ruleIds, hid, Finset.sdiff_singleton_eq_erase]

theorem loads_items (items : List Data) :
    Loads ((items.filterMap (parseRule lib)).filter (fun rule => rule.ruleId ≠ [])) r
      (items.foldl (DispatchRuleRegistry.loadRule lib) r) := by
  induction items generalizing r with
  | nil => exact .nil
  | cons data items ih =>
    have hsplit : ((data :: items).filterMap (parseRule lib)).filter (fun rule => rule.ruleId ≠ []) =
        (parseRule lib data).toList.filter (fun rule => rule.ruleId ≠ []) ++
          (items.filterMap (parseRule lib)).filter (fun rule => rule.ruleId ≠ []) := by
      rw [← List.filter_append, List.filterMap_cons]
      cases parseRule lib data with
      | none => rfl
      | some rule => rfl
    rw [hsplit]
    exact (loads_loadRule data).trans ih

theorem loads_loadFile (content : χ) : Loads (rulesOf lib content) r (r.loadFile lib content) := by
  unfold rulesOf DispatchRuleRegistry.loadFile
  cases lib.yamlLoad content with
  | none => exact .nil
  | some data =>
    cases data with
    | list items =>
      have h : Loads ((items.filterMap (parseRule lib)).filter (fun rule => rule.ruleId ≠ []))
          { r with hasPersistedRules := true }
          (items.foldl (DispatchRuleRegistry.loadRule lib) { r with hasPersistedRules := true }) := loads_items items
      exact ⟨h.rules, h.deleted, h.presets⟩
    | atom a => exact .nil
    | text t => exact .nil
    | tuple items => exact .nil
    | dict entries => exact .nil

theorem loads_files (files : List χ) :
    Loads (files.flatMap (rulesOf lib)) r (files.foldl (DispatchRuleRegistry.loadFile lib) r) := by
  induction files generalizing r with
  | nil => exact .nil
  | cons content files ih =>
    rw [List.flatMap_cons]
    exact (loads_loadFile content).trans ih

def onDisk (lib : Library χ) (others : OtherFiles χ) (dir : RulesDirectory χ) : List Rule :=
  (others.before ++ dir.rulesFile.toList ++ others.after).flatMap (rulesOf lib)

def marksAfter (r : DispatchRuleRegistry) : Tombstones → Finset Text
  | .missing | .invalid => r.deletedPresetRuleIds
  | .ids ruleIds => ruleIds

theorem loadRules_spec (lib : Library χ) (r : DispatchRuleRegistry) (others : OtherFiles χ) (dir : RulesDirectory χ) :
    (r.loadRules lib others dir).rules = registerAll (onDisk lib others dir) r.rules ∧
      (r.loadRules lib others dir).deletedPresetRuleIds =
        marksAfter r dir.tombstones \ ruleIds (onDisk lib others dir) ∧
      (r.loadRules lib others dir).presetRuleIds = r.presetRuleIds := by
  have h : Loads (onDisk lib others dir) ({ r with hasPersistedRules := false }.loadPresetTombstones dir.tombstones)
      (r.loadRules lib others dir) := loads_files _
  cases htombstones : dir.tombstones with
  | missing | invalid | ids =>
    rw [htombstones] at h
    exact ⟨h.rules, h.deleted, h.presets⟩

variable {rules : List Rule} {d : Dict Text Rule} {k : Text} {rule : Rule}

theorem mem_ruleIds : k ∈ ruleIds rules ↔ ∃ rule ∈ rules, rule.ruleId = k := by
  simp [ruleIds]

theorem mem_keys_registerAll : k ∈ (registerAll rules d).keys ↔ k ∈ ruleIds rules ∨ k ∈ d.keys := by
  induction rules generalizing d with
  | nil => simp [registerAll, ruleIds]
  | cons first rules ih =>
    have hstep : registerAll (first :: rules) d = registerAll rules (d.set first.ruleId first) := rfl
    have hids : k ∈ ruleIds (first :: rules) ↔ k = first.ruleId ∨ k ∈ ruleIds rules := by simp [ruleIds]
    rw [hstep, ih, Dict.mem_keys_set, hids, or_assoc, or_left_comm]

/-- Each rule is stored under its own id, and the id is not empty. -/
def Keyed (d : Dict Text Rule) : Prop := ∀ k rule, d.get k = some rule → rule.ruleId = k ∧ k ≠ []

theorem keyed_set (h : Keyed d) (hid : rule.ruleId ≠ []) : Keyed (d.set rule.ruleId rule) := by
  intro k other hother
  rw [Dict.get_set] at hother
  split at hother
  · next hk =>
    cases hother
    exact ⟨hk.symm, hk ▸ hid⟩
  · exact h k other hother

theorem keyed_pop (h : Keyed d) : Keyed (d.pop k) := by
  intro l other hother
  rw [Dict.get_pop] at hother
  split at hother
  · exact (nomatch hother)
  · exact h l other hother

theorem keyed_registerAll (h : Keyed d) (hids : ∀ rule ∈ rules, rule.ruleId ≠ []) : Keyed (registerAll rules d) := by
  induction rules generalizing d with
  | nil => exact h
  | cons first rules ih =>
    exact ih (keyed_set h (hids first List.mem_cons_self)) (fun rule hr => hids rule (List.mem_cons_of_mem first hr))

theorem ruleId_rulesOf {χ : Type} {lib : Library χ} {content : χ} (h : rule ∈ rulesOf lib content) : rule.ruleId ≠ [] := by
  unfold rulesOf at h
  split at h
  · simpa using (List.mem_filter.mp h).2
  all_goals exact (nomatch h)

theorem set_same (h : d.get k = some rule) : d.set k rule = d := by
  apply Dict.ext
  have hmem : k ∈ d.entries.map Prod.fst := List.mem_map.mpr ⟨(k, rule), Dict.get_eq_some_iff.mp h, rfl⟩
  rw [Dict.set, dif_pos hmem]
  refine (List.map_congr_left fun e he => ?_).trans (List.map_id _)
  by_cases hk : e.1 = k
  · have hv : e.2 = rule := eq_of_distinct d.distinct he (hk ▸ Dict.get_eq_some_iff.mp h)
    rw [if_pos hk, ← hv, ← hk]
    rfl
  · exact if_neg hk

theorem registerAll_same (h : ∀ rule ∈ rules, d.get rule.ruleId = some rule) : registerAll rules d = d := by
  induction rules with
  | nil => rfl
  | cons first rules ih =>
    have hstep : registerAll (first :: rules) d = registerAll rules (d.set first.ruleId first) := rfl
    rw [hstep, set_same (h first List.mem_cons_self)]
    exact ih (fun rule hr => h rule (List.mem_cons_of_mem first hr))

theorem registerAll_values (h : Keyed d) : registerAll d.values .empty = d := by
  have hpairs : d.values.map (fun rule => (rule.ruleId, rule)) = d.entries := by
    rw [Dict.values, List.map_map]
    refine (List.map_congr_left fun e he => ?_).trans (List.map_id _)
    have hid := (h e.1 e.2 (Dict.get_eq_some_iff.mpr he)).1
    change (e.2.ruleId, e.2) = e
    rw [hid]
  apply Dict.ext
  have hfold : registerAll d.values .empty =
      (d.values.map (fun rule => (rule.ruleId, rule))).foldl (fun d e => d.set e.1 e.2) .empty := by
    rw [List.foldl_map]
    rfl
  rw [hfold, hpairs, Dict.foldl_set_entries]
  · rfl
  · exact d.distinct

end Kirara.DispatchRegistries
