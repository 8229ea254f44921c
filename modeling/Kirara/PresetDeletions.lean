import Kirara.DispatchRegistries
import Kirara.Schedules

namespace Kirara.PresetDeletions

open Kirara.Channels Kirara.Dicts Kirara.DispatchRules Kirara.DispatchRegistries Kirara.Schedules

variable {χ : Type}

/-- A registry and its directory, with the presets the user has deleted, now and as last saved. -/
structure World (χ : Type) where
  registry : DispatchRuleRegistry
  directory : RulesDirectory χ
  loaded : Bool
  deleted : Finset Text
  saved : Finset Text

inductive Operation where
  | create (workflowExists : Bool) (rule : Rule)
  | update (ruleId : Text) (rule : Rule)
  | delete (ruleId : Text)
  | registerPreset (rule : Rule)
  | save (goesThrough : Bool)
  | load
  | restart

def elsewhere (lib : Library χ) (others : OtherFiles χ) : Finset Text :=
  ruleIds ((others.before ++ others.after).flatMap (rulesOf lib))

def World.made (w : World χ) (ruleId : Text) : Except RegistryError DispatchRuleRegistry → World χ
  | .error _ => w
  | .ok r => { w with registry := r, deleted := w.deleted.erase ruleId }

def World.removed (w : World χ) (deleted : Finset Text) : Except RegistryError DispatchRuleRegistry → World χ
  | .error _ => w
  | .ok r => { w with registry := r, deleted := deleted }

def next (lib : Library χ) (others : OtherFiles χ) (w : World χ) : Operation → Option (World χ)
  | .create workflowExists rule => some (w.made rule.ruleId (w.registry.createRule workflowExists rule))
  | .update ruleId rule => some (w.made rule.ruleId (w.registry.updateRule ruleId rule))
  | .delete ruleId =>
    let preset := ruleId ∈ w.registry.presetRuleIds ∧ ruleId ∉ elsewhere lib others
    some (w.removed (if preset then insert ruleId w.deleted else w.deleted) (w.registry.deleteRule ruleId))
  | .registerPreset rule => some (w.removed w.deleted (w.registry.registerPresetRule rule))
  | .save true => some { w with directory := w.registry.saveRules lib, saved := w.deleted }
  | .save false => some w
  -- What was deleted and not saved is lost with a load and with a restart.
  | .load =>
    some { w with
      registry := w.registry.loadRules lib others w.directory
      loaded := true
      deleted := w.deleted ∩ w.saved }
  | .restart => some { w with registry := .empty, loaded := false, deleted := w.saved }

def start (directory : RulesDirectory χ) : World χ := ⟨.empty, directory, false, ∅, ∅⟩

/-- A registry registers and saves after a load, and loads over no unsaved deletion. -/
def Ordered (w : World χ) : Operation → Prop
  | .registerPreset rule => w.loaded = true ∨ rule.ruleId ∉ w.directory.tombstones.marks
  | .save true => w.loaded = true ∨ w.directory.tombstones.marks ⊆ w.registry.deletedPresetRuleIds
  | .load => ∀ k ∈ w.registry.rules.keys, k ∉ w.directory.tombstones.marks
  | .create .. | .update .. | .delete _ | .save false | .restart => True

def ReadsBack (lib : Library χ) (rules : List Rule) : Prop :=
  lib.yamlLoad (lib.yamlDump (.list (rules.map (fun rule => .dict (modelDump rule))))) =
      some (.list (rules.map (fun rule => .dict (modelDump rule)))) ∧
    ∀ rule ∈ rules, lib.validate (modelDump rule) = some rule

def Same (r s : DispatchRuleRegistry) : Prop := s.rules = r.rules ∧ s.deletedPresetRuleIds = r.deletedPresetRuleIds

structure OwnIds (d : Dict Text Rule) : Prop where
  keyed : Keyed d
  unique : (d.values.map CombinedDispatchRule.ruleId).Nodup

structure Kept (lib : Library χ) (others : OtherFiles χ) (l : Operation) (v : World χ) : Prop where
  gone : ∀ k ∈ v.deleted, k ∉ v.registry.rules.keys
  /-- A save is read back the same, by the registry itself and by a new one. -/
  reloaded : l = .save true → elsewhere lib others = ∅ →
    Same v.registry (v.registry.loadRules lib others v.directory) ∧
      Same v.registry (DispatchRuleRegistry.empty.loadRules lib others v.directory)

structure Inv (lib : Library χ) (others : OtherFiles χ) (w : World χ) : Prop where
  keyed : Keyed w.registry.rules
  apart : ∀ k ∈ w.registry.deletedPresetRuleIds, k ∉ w.registry.rules.keys
  gone : ∀ k ∈ w.deleted, k ∉ w.registry.rules.keys
  marked : ∀ k ∈ w.deleted, k ∈ w.registry.deletedPresetRuleIds ∨ w.loaded = false ∧ k ∈ w.saved
  own : ∀ k ∈ w.deleted, k ∉ elsewhere lib others
  stored : ∀ k ∈ w.saved, k ∈ w.directory.tombstones.marks ∧
    k ∉ ruleIds (onDisk lib others w.directory)

variable {lib : Library χ} {others : OtherFiles χ} {w v : World χ} {l : Operation}

variable {d : Dict Text Rule} {r s : DispatchRuleRegistry} {rule : Rule} {k ruleId : Text}

theorem nodup_ruleIds (h : Keyed d) : (d.values.map CombinedDispatchRule.ruleId).Nodup := by
  have hkeys : d.values.map CombinedDispatchRule.ruleId = d.entries.map Prod.fst := by
    rw [Dict.values, List.map_map]
    exact List.map_congr_left fun e he => (h e.1 e.2 (Dict.get_eq_some_iff.mpr he)).1
  rw [hkeys]
  exact d.distinct

theorem register_ok (h : r.register rule = .ok s) : rule.ruleId ≠ [] ∧ s.rules = r.rules.set rule.ruleId rule ∧
    s.deletedPresetRuleIds = r.deletedPresetRuleIds.erase rule.ruleId := by
  unfold DispatchRuleRegistry.register at h
  split at h
  · exact (nomatch h)
  · next hid =>
    cases h
    exact ⟨hid, rfl, rfl⟩

theorem createRule_ok {workflowExists : Bool} (h : r.createRule workflowExists rule = .ok s) :
    r.register rule = .ok s := by
  unfold DispatchRuleRegistry.createRule at h
  split at h
  · exact h
  · exact (nomatch h)

theorem updateRule_ok (h : r.updateRule ruleId rule = .ok s) : r.register rule = .ok s := by
  unfold DispatchRuleRegistry.updateRule at h
  split at h
  · exact h
  · exact (nomatch h)

theorem registerPresetRule_ok (h : r.registerPresetRule rule = .ok s) :
    s.deletedPresetRuleIds = r.deletedPresetRuleIds ∧ (s.rules = r.rules ∨ rule.ruleId ≠ [] ∧
      rule.ruleId ∉ r.deletedPresetRuleIds ∧ s.rules = r.rules.set rule.ruleId rule) := by
  unfold DispatchRuleRegistry.registerPresetRule at h
  split at h
  · exact (nomatch h)
  · next hid =>
    dsimp only at h
    split at h
    · cases h
      exact ⟨rfl, .inl rfl⟩
    · next hmark =>
      split at h
      · cases h
        exact ⟨rfl, .inl rfl⟩
      · cases h
        exact ⟨rfl, .inr ⟨hid, hmark, rfl⟩⟩

theorem deleteRule_ok (h : r.deleteRule ruleId = .ok s) : s.rules = r.rules.pop ruleId ∧
    s.deletedPresetRuleIds =
      if ruleId ∈ r.presetRuleIds then insert ruleId r.deletedPresetRuleIds else r.deletedPresetRuleIds := by
  unfold DispatchRuleRegistry.deleteRule at h
  split at h
  · cases h
    exact ⟨rfl, rfl⟩
  · exact (nomatch h)

variable (directory : RulesDirectory χ)

theorem elsewhere_subset : elsewhere lib others ⊆ ruleIds (onDisk lib others directory) := by
  intro k hk
  obtain ⟨rule, hrule, hid⟩ := mem_ruleIds.mp hk
  refine mem_ruleIds.mpr ⟨rule, ?_, hid⟩
  obtain ⟨content, hcontent, hmem⟩ := List.mem_flatMap.mp hrule
  refine List.mem_flatMap.mpr ⟨content, ?_, hmem⟩
  cases List.mem_append.mp hcontent with
  | inl h => exact List.mem_append_left _ (List.mem_append_left _ h)
  | inr h => exact List.mem_append_right _ h

theorem rulesOf_saved (hkeyed : Keyed r.rules) (hread : ReadsBack lib r.rules.values) :
    (r.saveRules lib).rulesFile.toList.flatMap (rulesOf lib) = r.rules.values := by
  have hparse : ∀ rule ∈ r.rules.values, parseRule lib (.dict (modelDump rule)) = some rule :=
    fun rule hrule => hread.2 rule hrule
  have hids : ∀ rule ∈ r.rules.values, rule.ruleId ≠ [] := by
    intro rule hrule
    obtain ⟨k, hk⟩ := Dict.mem_values_iff.mp hrule
    obtain ⟨hid, hne⟩ := hkeyed k rule hk
    exact hid ▸ hne
  change rulesOf lib (lib.yamlDump _) ++ [] = _
  rw [List.append_nil, rulesOf, hread.1]
  dsimp only
  rw [List.filterMap_map, List.filter_eq_self.mpr]
  · exact (List.filterMap_congr hparse).trans List.filterMap_some
  · intro rule hrule
    obtain ⟨saved, hsaved, hrule⟩ := List.mem_filterMap.mp hrule
    cases (hparse saved hsaved).symm.trans hrule
    simpa using hids _ hsaved

theorem mem_onDisk_saved (hkeyed : Keyed r.rules) (hread : ReadsBack lib r.rules.values) :
    k ∈ ruleIds (onDisk lib others (r.saveRules lib)) ↔ k ∈ elsewhere lib others ∨ k ∈ r.rules.keys := by
  have hkeys : k ∈ r.rules.keys ↔ k ∈ ruleIds r.rules.values := by
    rw [mem_ruleIds, ← Dict.isSome_get_iff, Option.isSome_iff_exists]
    constructor
    · intro ⟨rule, hrule⟩
      exact ⟨rule, Dict.mem_values_iff.mpr ⟨k, hrule⟩, (hkeyed k rule hrule).1⟩
    · intro ⟨rule, hrule, hid⟩
      obtain ⟨l, hl⟩ := Dict.mem_values_iff.mp hrule
      exact ⟨rule, by rw [← hid, (hkeyed l rule hl).1, hl]⟩
  rw [hkeys, onDisk, List.flatMap_append, List.flatMap_append, rulesOf_saved hkeyed hread, elsewhere, List.flatMap_append]
  simp only [mem_ruleIds, List.mem_append]
  grind

theorem keyed_registered {r s : DispatchRuleRegistry} {rule : Rule} (h : Keyed r.rules) (hr : r.register rule = .ok s) :
    Keyed s.rules := by
  obtain ⟨hid, hrules, -⟩ := register_ok hr
  exact hrules ▸ keyed_set h hid

theorem keyed_loaded {r : DispatchRuleRegistry} {directory : RulesDirectory χ} (h : Keyed r.rules) :
    Keyed (r.loadRules lib others directory).rules := by
  rw [(loadRules_spec lib r others directory).1]
  apply keyed_registerAll h
  intro rule hrule
  obtain ⟨content, -, hmem⟩ := List.mem_flatMap.mp hrule
  exact ruleId_rulesOf hmem

theorem keyed_step (h : Keyed w.registry.rules) (hl : next lib others w l = some v) : Keyed v.registry.rules := by
  cases l with
  | create workflowExists rule =>
    cases hl
    cases hr : w.registry.createRule workflowExists rule with
    | error e => exact h
    | ok r => exact keyed_registered h (createRule_ok hr)
  | update ruleId rule =>
    cases hl
    cases hr : w.registry.updateRule ruleId rule with
    | error e => exact h
    | ok r => exact keyed_registered h (updateRule_ok hr)
  | delete ruleId =>
    cases hl
    cases hr : w.registry.deleteRule ruleId with
    | error e => exact h
    | ok r => exact (deleteRule_ok hr).1 ▸ keyed_pop h
  | registerPreset rule =>
    cases hl
    cases hr : w.registry.registerPresetRule rule with
    | error e => exact h
    | ok r =>
      cases (registerPresetRule_ok hr).2 with
      | inl hrules => exact hrules ▸ h
      | inr hrules => exact hrules.2.2 ▸ keyed_set h hrules.1
  | save goesThrough =>
    cases goesThrough with
    | false | true =>
      cases hl
      exact h
  | load =>
    cases hl
    exact keyed_loaded h
  | restart =>
    cases hl
    exact nofun

variable (h : Inv lib others w)

include h

theorem inv_made {r : DispatchRuleRegistry} {rule : Rule} (hr : w.registry.register rule = .ok r) :
    Inv lib others { w with registry := r, deleted := w.deleted.erase rule.ruleId } := by
  obtain ⟨hid, hrules, hmarks⟩ := register_ok hr
  constructor
  · exact keyed_registered h.keyed hr
  · intro k hk
    rw [hmarks, Finset.mem_erase] at hk
    rw [hrules, Dict.mem_keys_set, not_or]
    exact ⟨hk.1, h.apart k hk.2⟩
  · intro k hk
    rw [Finset.mem_erase] at hk
    rw [hrules, Dict.mem_keys_set, not_or]
    exact ⟨hk.1, h.gone k hk.2⟩
  · intro k hk
    rw [Finset.mem_erase] at hk
    exact (h.marked k hk.2).imp_left fun hm => by rw [hmarks, Finset.mem_erase]; exact ⟨hk.1, hm⟩
  · exact fun k hk => h.own k (Finset.mem_of_mem_erase hk)
  · exact h.stored

theorem inv_delete {ruleId : Text} {r : DispatchRuleRegistry}
    (hr : w.registry.deleteRule ruleId = .ok r) (hl : next lib others w (.delete ruleId) = some v) :
    Inv lib others v := by
  obtain ⟨hrules, hmarks⟩ := deleteRule_ok hr
  have hdeleted : v.deleted = if ruleId ∈ w.registry.presetRuleIds ∧ ruleId ∉ elsewhere lib others then
      insert ruleId w.deleted else w.deleted := by
    simp only [next, hr, World.removed] at hl
    cases hl
    rfl
  have hrest : v.registry = r ∧ v.directory = w.directory ∧ v.loaded = w.loaded ∧ v.saved = w.saved := by
    simp only [next, hr, World.removed] at hl
    cases hl
    exact ⟨rfl, rfl, rfl, rfl⟩
  obtain ⟨rfl, hdirectory, hloaded, hsaved⟩ := hrest
  have hcases : ∀ k ∈ v.deleted, k ∈ w.deleted ∨
      k = ruleId ∧ ruleId ∈ w.registry.presetRuleIds ∧ ruleId ∉ elsewhere lib others := by
    intro k hk
    rw [hdeleted] at hk
    split at hk
    · next hp => exact (Finset.mem_insert.mp hk).symm.imp_right (⟨·, hp⟩)
    · exact .inl hk
  constructor
  · exact hrules ▸ keyed_pop h.keyed
  · intro k hk hmem
    rw [hrules, Dict.mem_keys_pop] at hmem
    rw [hmarks] at hk
    split at hk
    · exact (Finset.mem_insert.mp hk).elim hmem.2 (fun hk => h.apart k hk hmem.1)
    · exact h.apart k hk hmem.1
  · intro k hk hmem
    rw [hrules, Dict.mem_keys_pop] at hmem
    cases hcases k hk with
    | inl hk => exact h.gone k hk hmem.1
    | inr hk => exact hmem.2 hk.1
  · intro k hk
    cases hcases k hk with
    | inl hk =>
      rw [hloaded, hsaved, hmarks]
      refine (h.marked k hk).imp_left fun hm => ?_
      split
      · exact Finset.mem_insert_of_mem hm
      · exact hm
    | inr hk =>
      obtain ⟨rfl, hpreset, -⟩ := hk
      rw [hmarks, if_pos hpreset]
      exact .inl (Finset.mem_insert_self k _)
  · intro k hk
    cases hcases k hk with
    | inl hk => exact h.own k hk
    | inr hk => exact hk.1 ▸ hk.2.2
  · rw [hdirectory, hsaved]
    exact h.stored

theorem inv_registerPreset {rule : Rule} {r : DispatchRuleRegistry}
    (hr : w.registry.registerPresetRule rule = .ok r)
    (hordered : w.loaded = true ∨ rule.ruleId ∉ w.directory.tombstones.marks) :
    Inv lib others { w with registry := r } := by
  obtain ⟨hmarks, hrules⟩ := registerPresetRule_ok hr
  cases hrules with
  | inl hrules =>
    exact ⟨hrules ▸ h.keyed, hmarks ▸ hrules ▸ h.apart, hrules ▸ h.gone, hmarks ▸ h.marked, h.own, h.stored⟩
  | inr hnew =>
    obtain ⟨hid, hunmarked, hrules⟩ := hnew
    -- What was deleted is marked in the registry, or on disk if the registry has not loaded.
    have hfresh : rule.ruleId ∉ w.deleted := by
      intro hm
      cases h.marked _ hm with
      | inl hm => exact hunmarked hm
      | inr hm =>
        cases hordered with
        | inl hloaded => exact Bool.false_ne_true (hm.1.symm.trans hloaded)
        | inr hdisk => exact hdisk (h.stored _ hm.2).1
    refine ⟨hrules ▸ keyed_set h.keyed hid, fun k hk hmem => ?_, fun k hk hmem => ?_, hmarks ▸ h.marked, h.own, h.stored⟩
    · rw [hmarks] at hk
      rw [hrules, Dict.mem_keys_set] at hmem
      exact hmem.elim (fun he => hunmarked (he ▸ hk)) (h.apart k hk)
    · rw [hrules, Dict.mem_keys_set] at hmem
      exact hmem.elim (fun he => hfresh (he ▸ hk)) (h.gone k hk)

theorem inv_save (hread : ReadsBack lib w.registry.rules.values)
    (hordered : w.loaded = true ∨ w.directory.tombstones.marks ⊆ w.registry.deletedPresetRuleIds) :
    Inv lib others { w with directory := w.registry.saveRules lib, saved := w.deleted } := by
  have hmarked : ∀ k ∈ w.deleted, k ∈ w.registry.deletedPresetRuleIds := by
    intro k hk
    cases h.marked k hk with
    | inl hm => exact hm
    | inr hm =>
      cases hordered with
      | inl hloaded => exact absurd (hm.1.symm.trans hloaded) Bool.false_ne_true
      | inr hsubset => exact hsubset (h.stored k hm.2).1
  refine ⟨h.keyed, h.apart, h.gone, fun k hk => .inl (hmarked k hk), h.own, fun k hk => ⟨hmarked k hk, ?_⟩⟩
  rw [mem_onDisk_saved h.keyed hread, not_or]
  exact ⟨h.own k hk, h.gone k hk⟩

theorem inv_load
    (hordered : ∀ k ∈ w.registry.rules.keys, k ∉ w.directory.tombstones.marks) : Inv lib others { w with
      registry := w.registry.loadRules lib others w.directory
      loaded := true
      deleted := w.deleted ∩ w.saved } := by
  obtain ⟨hrules, hmarks, -⟩ := loadRules_spec lib w.registry others w.directory
  constructor
  · exact keyed_loaded h.keyed
  · intro k hk hmem
    rw [hmarks, Finset.mem_sdiff] at hk
    rw [hrules, mem_keys_registerAll] at hmem
    have hkey := hmem.resolve_left hk.2
    have hdisk := hordered k hkey
    cases htombstones : w.directory.tombstones with
    | missing | invalid =>
      rw [htombstones] at hk
      exact h.apart k hk.1 hkey
    | ids ruleIds =>
      rw [htombstones] at hk hdisk
      exact hdisk hk.1
  · intro k hk hmem
    rw [Finset.mem_inter] at hk
    rw [hrules, mem_keys_registerAll] at hmem
    exact hmem.elim (h.stored k hk.2).2 (h.gone k hk.1)
  · intro k hk
    obtain ⟨hdisk, hids⟩ := h.stored k (Finset.mem_inter.mp hk).2
    rw [hmarks, Finset.mem_sdiff]
    refine .inl ⟨?_, hids⟩
    cases htombstones : w.directory.tombstones with
    | missing | invalid =>
      rw [htombstones] at hdisk
      simp [Tombstones.marks] at hdisk
    | ids ruleIds =>
      rw [htombstones] at hdisk
      exact hdisk
  · exact fun k hk => h.own k (Finset.mem_inter.mp hk).1
  · exact h.stored

theorem inv_restart : Inv lib others { w with registry := .empty, loaded := false, deleted := w.saved } where
  keyed := nofun
  apart := nofun
  gone := fun _ _ => nofun
  marked _ hk := .inr ⟨rfl, hk⟩
  own k hk hm := (h.stored k hk).2 (elsewhere_subset _ hm)
  stored := h.stored

omit h

def Readable (lib : Library χ) (w : World χ) (l : Operation) : Prop := l = .save true → ReadsBack lib w.registry.rules.values

theorem inv_step (h : Inv lib others w) (hordered : Ordered w l) (hread : Readable lib w l)
    (hl : next lib others w l = some v) : Inv lib others v := by
  cases l with
  | create workflowExists rule =>
    cases hl
    cases hr : w.registry.createRule workflowExists rule with
    | error e => exact h
    | ok r => exact inv_made h (createRule_ok hr)
  | update ruleId rule =>
    cases hl
    cases hr : w.registry.updateRule ruleId rule with
    | error e => exact h
    | ok r => exact inv_made h (updateRule_ok hr)
  | delete ruleId =>
    cases hr : w.registry.deleteRule ruleId with
    | error e =>
      simp only [next, hr, World.removed] at hl
      cases hl
      exact h
    | ok r => exact inv_delete h hr hl
  | registerPreset rule =>
    cases hl
    cases hr : w.registry.registerPresetRule rule with
    | error e => exact h
    | ok r => exact inv_registerPreset h hr hordered
  | save goesThrough =>
    cases goesThrough with
    | false =>
      cases hl
      exact h
    | true =>
      cases hl
      exact inv_save h (hread rfl) hordered
  | load =>
    cases hl
    exact inv_load h hordered
  | restart =>
    cases hl
    exact inv_restart h

theorem reload_same {r s : DispatchRuleRegistry} (hkeyed : Keyed r.rules) (hread : ReadsBack lib r.rules.values)
    (hapart : ∀ k ∈ r.deletedPresetRuleIds, k ∉ r.rules.keys) (hothers : elsewhere lib others = ∅)
    (hs : s.rules = r.rules ∨ s.rules = .empty) : Same r (s.loadRules lib others (r.saveRules lib)) := by
  have hdisk : onDisk lib others (r.saveRules lib) = r.rules.values := by
    have hnone : (others.before ++ others.after).flatMap (rulesOf lib) = [] := by
      have hids : ((others.before ++ others.after).flatMap (rulesOf lib)).map CombinedDispatchRule.ruleId = [] :=
        List.toFinset_eq_empty_iff _ |>.mp hothers
      exact List.map_eq_nil_iff.mp hids
    rw [List.flatMap_append, List.append_eq_nil_iff] at hnone
    rw [onDisk, List.flatMap_append, List.flatMap_append, rulesOf_saved hkeyed hread, hnone.1, hnone.2]
    simp
  obtain ⟨hrules, hmarks, -⟩ := loadRules_spec lib s others (r.saveRules lib)
  rw [hdisk] at hrules hmarks
  constructor
  · rw [hrules]
    cases hs with
    | inl hs =>
      rw [hs]
      apply registerAll_same
      intro rule hrule
      obtain ⟨k, hk⟩ := Dict.mem_values_iff.mp hrule
      rw [(hkeyed k rule hk).1, hk]
    | inr hs => rw [hs, registerAll_values hkeyed]
  · rw [hmarks]
    change r.deletedPresetRuleIds \ _ = _
    rw [Finset.sdiff_eq_self_iff_disjoint, Finset.disjoint_left]
    intro k hk hm
    obtain ⟨rule, hrule, hid⟩ := mem_ruleIds.mp hm
    obtain ⟨l, hl⟩ := Dict.mem_values_iff.mp hrule
    refine hapart k hk (Dict.isSome_get_iff.mp ?_)
    rw [← hid, (hkeyed l rule hl).1, hl]
    rfl

theorem kept_step (h : Inv lib others w) (hordered : Ordered w l) (hread : Readable lib w l)
    (hl : next lib others w l = some v) : Kept lib others l v := by
  refine ⟨(inv_step h hordered hread hl).gone, ?_⟩
  rintro rfl hothers
  cases hl
  have hsame {s : DispatchRuleRegistry} := reload_same (s := s) h.keyed (hread rfl) h.apart hothers
  exact ⟨hsame (.inl rfl), hsame (.inr rfl)⟩

theorem inv_start : Inv lib others (start directory) where
  keyed := nofun
  apart := nofun
  gone := nofun
  marked := nofun
  own := nofun
  stored := nofun

def preset : Rule where
  ruleId := ['p']
  name := []
  description := []
  workflowId := []
  agentId := none
  priority := 5
  enabled := true
  ruleGroups := []
  metadata := []

def plain : Library Data := ⟨id, some, fun _ => some preset⟩

def bare : OtherFiles Data := ⟨[], []⟩

def blank : RulesDirectory Data := ⟨none, .missing⟩

def Present (others : OtherFiles Data) (directory : RulesDirectory Data) (operations : List Operation) : Prop :=
  ∃ w, exec (next plain others) (start directory) operations = some w ∧ preset.ruleId ∈ w.registry.rules.keys

end Kirara.PresetDeletions
