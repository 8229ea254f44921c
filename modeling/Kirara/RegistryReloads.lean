import Kirara.Fallible
import Kirara.RegistryRecords

namespace Kirara.RegistryReloads

open Kirara.Channels Kirara.CreatorIdentity Kirara.Dicts Kirara.Fallible Kirara.StableSorts
open Kirara.AgentDefinitions Kirara.RegistryRecords
open Kirara.AgentRegistries hiding AgentDefinition ResourceBinding RegistryState AgentRegistry bindCreationOwner
  preserveOwner getAgent requireEnabled putAgent setEnabled register update removeAgent setDefault configuredOwner
  configuredDefault configure bindChannel unbindChannel bindAccount unbindAccount bindSession unbindSession
  BindingUpdate updateResourceBindings Operation nextState references validateState writeState commit Call
  perform emptyState

structure Same (σ τ : RegistryState) : Prop where
  agents : τ.agents.get = σ.agents.get
  channelBindings : τ.channelBindings.get = σ.channelBindings.get
  accountBindings : τ.accountBindings.get = σ.accountBindings.get
  sessionBindings : τ.sessionBindings.get = σ.sessionBindings.get
  defaultAgentId : τ.defaultAgentId = σ.defaultAgentId

/-- Reading a key again changes none of the keys. -/
def Fixed {κ ν : Type} [DecidableEq κ] (read : κ → κ) (d : Dict κ ν) : Prop :=
  ∀ key v, d.get key = some v → read key = key

def Named (agents : Dict Text AgentDefinition) : Prop := ∀ id a, agents.get id = some a → a.agentId.text = id

structure Shaped (σ : RegistryState) : Prop where
  agents : Named σ.agents
  channels : Fixed channelKey σ.channelBindings
  accounts : Fixed accountKey σ.accountBindings

structure Normal (σ : RegistryState) : Prop where
  shaped : Shaped σ
  valid : validateState σ = .ok ()

def Modelled (σ : RegistryState) : Prop := ∀ id a, σ.agents.get id = some a → a.modelPriority ≠ []

section Collecting

variable {κ ν τ : Type} [LinearOrder τ] {key : κ × ν → τ} {d : Dict κ ν}

theorem distinct_sortBy : Rosters.Distinct (sortBy key d.entries) :=
  (List.Perm.nodup_iff (sortBy_perm.map Prod.fst)).mpr d.distinct

variable [DecidableEq κ]

theorem entries_collect {pairs : List (κ × ν)} (h : Rosters.Distinct pairs) : (collect pairs).entries = pairs :=
  Dict.foldl_set_entries h

theorem collect_sorted {pairs : List (κ × ν)}
    (h : pairs = sortBy key d.entries) : (collect pairs).get = d.get := by
  subst h
  funext k
  apply Dict.get_eq_of_entries
  intro v
  rw [entries_collect distinct_sortBy]
  exact sortBy_perm.mem_iff

theorem mem_sortBy {e : κ × ν} : e ∈ sortBy key d.entries ↔ d.get e.1 = some e.2 := by
  rw [Dict.get_eq_some_iff]
  exact sortBy_perm.mem_iff

end Collecting

section Loading

variable {σ : RegistryState}

theorem map_eq_self {κ ν : Type} {l : List (κ × ν)} {f : κ × ν → κ × ν} (h : ∀ e ∈ l, f e = e) : l.map f = l :=
  (List.map_congr_left h).trans (List.map_id l)

theorem loaded_agents (hs : Shaped σ) :
    ((sortBy Prod.fst σ.agents.entries).map Prod.snd).map (fun a => (a.agentId.text, a)) =
      sortBy Prod.fst σ.agents.entries := by
  rw [List.map_map]
  apply map_eq_self
  intro e he
  exact Prod.ext (hs.agents e.1 e.2 (mem_sortBy.mp he)) rfl

theorem loaded_channels (hs : Shaped σ) :
    (serializeState σ).channelBindings.map (fun r => (channelKey r.channelType, r.agentId)) =
      sortBy Prod.fst σ.channelBindings.entries := by
  rw [serializeState, List.map_map]
  apply map_eq_self
  intro e he
  exact Prod.ext (hs.channels e.1 e.2 (mem_sortBy.mp he)) rfl

theorem loaded_accounts (hs : Shaped σ) : (serializeState σ).accountBindings.map (fun r =>
        (accountKey (r.channelType, r.adapterInstance, r.accountScope), r.agentId)) =
      sortBy accountOrder σ.accountBindings.entries := by
  rw [serializeState, List.map_map]
  apply map_eq_self
  intro e he
  exact Prod.ext (hs.accounts e.1 e.2 (mem_sortBy.mp he)) rfl

theorem loaded_sessions : (serializeState σ).sessionBindings.map (fun r => (r.sessionKey, r.agentId)) =
      sortBy Prod.fst σ.sessionBindings.entries := by
  rw [serializeState, List.map_map]
  exact map_eq_self (fun _ _ => rfl)

theorem mapM_loadAgent (hm : Modelled σ) :
    (serializeState σ).agents.mapM loadAgent = .ok ((sortBy Prod.fst σ.agents.entries).map Prod.snd) := by
  have hload : ∀ e ∈ sortBy Prod.fst σ.agents.entries, loadAgent (agentToDict e.2) = .ok e.2 := by
    intro e he
    rw [loadAgent_toDict, if_neg (hm e.1 e.2 (mem_sortBy.mp he))]
  rw [serializeState, List.mapM_map]
  exact mapM_eq_ok hload

theorem mem_references_iff {id : Text} : id ∈ references σ ↔
    ((∃ key, σ.channelBindings.get key = some id) ∨ ∃ key, σ.accountBindings.get key = some id) ∨
      (∃ key, σ.sessionBindings.get key = some id) ∨ σ.defaultAgentId = some id := by
  simp [references, Dict.mem_values_iff, or_assoc]

theorem validateState_eq_ok : validateState σ = .ok () ↔ ∀ id ∈ references σ, (σ.agents.get id).isSome := by
  have hmissing : (references σ).filter (fun id => id ∉ σ.agents.keys) = [] ↔
      ∀ id ∈ references σ, (σ.agents.get id).isSome := by
    simp [List.filter_eq_nil_iff, Dict.isSome_get_iff]
  unfold validateState
  dsimp only
  rw [← hmissing]
  split
  · next h => exact iff_of_true rfl h
  · next h => exact iff_of_false (by rintro ⟨⟩) h

theorem validateState_congr {τ : RegistryState} (h : Same σ τ) (hv : validateState σ = .ok ()) :
    validateState τ = .ok () := by
  rw [validateState_eq_ok] at hv ⊢
  intro id hid
  rw [mem_references_iff, h.channelBindings, h.accountBindings, h.sessionBindings, h.defaultAgentId,
    ← mem_references_iff] at hid
  rw [h.agents]
  exact hv id hid

theorem load_serialize (hn : Normal σ) (hm : Modelled σ) :
    ∃ τ, loadState (serializeState σ) = .ok τ ∧ Same σ τ := by
  have hagents : collect (((sortBy Prod.fst σ.agents.entries).map Prod.snd).map (fun a => (a.agentId.text, a))) =
      collect (sortBy Prod.fst σ.agents.entries) := by rw [loaded_agents hn.shaped]
  have hlength : (collect (sortBy Prod.fst σ.agents.entries)).entries.length =
      (serializeState σ).agents.length := by
    rw [entries_collect distinct_sortBy, serializeState, List.length_map]
  let τ : RegistryState := {
    agents := collect (sortBy Prod.fst σ.agents.entries)
    channelBindings := collect (sortBy Prod.fst σ.channelBindings.entries)
    accountBindings := collect (sortBy accountOrder σ.accountBindings.entries)
    sessionBindings := collect (sortBy Prod.fst σ.sessionBindings.entries)
    defaultAgentId := σ.defaultAgentId }
  have hsame : Same σ τ :=
    ⟨collect_sorted rfl, collect_sorted rfl, collect_sorted rfl, collect_sorted rfl, rfl⟩
  have hvalid := validateState_congr hsame hn.valid
  refine ⟨τ, ?_, hsame⟩
  have hversion : ¬ (serializeState σ).formatVersion ≠ 1 := fun h => h rfl
  rw [loadState, if_neg hversion, mapM_loadAgent hm]
  change (if (collect _).entries.length ≠ _ then _ else _) = _
  rw [hagents, if_neg (not_not.mpr hlength), loaded_channels hn.shaped, loaded_accounts hn.shaped, loaded_sessions]
  change (validateState τ >>= fun _ => .ok τ) = .ok τ
  rw [hvalid]
  rfl

theorem modelled_of_load {τ : RegistryState} (h : loadState (serializeState σ) = .ok τ) : Modelled σ := by
  intro id a ha hempty
  have hversion : ¬ (serializeState σ).formatVersion ≠ 1 := fun h => h rfl
  rw [loadState, if_neg hversion] at h
  obtain ⟨agents, hagents, _⟩ := bind_eq_ok.mp h
  have hmem : agentToDict a ∈ (serializeState σ).agents :=
    List.mem_map.mpr ⟨(id, a), mem_sortBy.mpr ha, rfl⟩
  obtain ⟨b, _, hb⟩ := exists_of_forall₂ (forall₂_of_mapM hagents) hmem
  rw [loadAgent_toDict, if_pos hempty] at hb
  cases hb

end Loading

variable {κ ν : Type} [DecidableEq κ] {read : κ → κ} {d : Dict κ ν} {key : κ} {v : ν}

theorem fixed_set (h : Fixed read d) (hk : read key = key) : Fixed read (d.set key v) := by
  intro l w hl
  rw [Dict.get_set] at hl
  split at hl
  · next he => rw [he, hk]
  · exact h l w hl

theorem fixed_pop (h : Fixed read d) : Fixed read (d.pop key) := by
  intro l w hl
  rw [Dict.get_pop] at hl
  split at hl
  · cases hl
  · exact h l w hl

variable {id : Text}

theorem fixed_rebind {d : Dict κ Text} {keys : List κ} (h : Fixed read d)
    (hkeys : ∀ key ∈ keys, read key = key) : Fixed read (rebind id keys d) := by
  intro l w hl
  cases Dict.get_foldl_set hl with
  | inl hm => exact hkeys l hm
  | inr hd => exact h l w (Dict.get_filter_eq_some_iff.mp hd).1

variable {agents : Dict Text AgentDefinition}

theorem named_set {a : AgentDefinition} (h : Named agents)
    (ha : a.agentId.text = id) : Named (agents.set id a) := by
  intro l b hl
  rw [Dict.get_set] at hl
  split at hl
  · next he =>
    cases hl
    rw [he, ha]
  · exact h l b hl

theorem named_pop (h : Named agents) : Named (agents.pop id) := by
  intro l b hl
  rw [Dict.get_pop] at hl
  split at hl
  · cases hl
  · exact h l b hl

theorem channelKey_channelKey (t : Text) : channelKey (channelKey t) = channelKey t := by
  have hlower (i : Identifier) : i.lower.lower = i.lower := by
    apply Identifier.ext
    simp only [Identifier.lower, List.map_map]
    exact List.map_congr_left (fun c _ => toLower_toLower c)
  rw [channelKey, channelKey, cleanIdentifier_self, hlower]

theorem accountPart_accountPart (t : Text) : accountPart (accountPart t) = accountPart t := by
  rw [accountPart, accountPart, cleanIdentifier_self]

theorem normalizeChannelType_fixed {t key : Text} (h : normalizeChannelType t = .ok key) : channelKey key = key := by
  unfold normalizeChannelType at h
  split at h
  · cases h
    exact channelKey_channelKey t
  · cases h

theorem normalizeAccount_fixed {t key : Text × Text × Text} (h : normalizeAccount t = .ok key) :
    accountKey key = key := by
  obtain ⟨channel, hc, h⟩ := bind_eq_ok.mp h
  cases pure_eq_ok.mp h
  rw [accountKey, normalizeChannelType_fixed hc, accountPart_accountPart, accountPart_accountPart]

theorem mapM_fixed {α β : Type} {f : α → Except Failure β} {read : β → β} (hf : ∀ a b, f a = .ok b → read b = b)
    {l : List α} {bs : List β} (h : l.mapM f = .ok bs) : ∀ b ∈ bs, read b = b := by
  intro b hb
  obtain ⟨a, _, hab⟩ := exists_of_forall₂ (forall₂_of_mapM h).flip hb
  exact hf a b hab

theorem normalize_fixed {relations normalized : Relations} (h : relations.normalize = .ok normalized) :
    (∀ key ∈ normalized.channels, channelKey key = key) ∧ ∀ key ∈ normalized.accounts, accountKey key = key := by
  obtain ⟨channels, hc, h⟩ := bind_eq_ok.mp h
  obtain ⟨accounts, ha, h⟩ := bind_eq_ok.mp h
  obtain ⟨sessions, _, h⟩ := bind_eq_ok.mp h
  obtain ⟨_, _, h⟩ := bind_eq_ok.mp h
  cases pure_eq_ok.mp h
  exact ⟨mapM_fixed (fun _ _ => normalizeChannelType_fixed) hc, mapM_fixed (fun _ _ => normalizeAccount_fixed) ha⟩

variable {σ τ : RegistryState} {principal : Option RuntimePrincipal} {agent current result : AgentDefinition}

variable {f : AgentFields ResourceBinding}

theorem agentId_of_construct (h : f.construct = .ok result) :
    result.agentId = cleanIdentifier (some f.agentId) agentName := by
  unfold AgentFields.construct at h
  split at h
  · cases h
  split at h
  · cases h
  split at h
  · cases h
  split at h
  · cases h
  unfold AgentFields.normalize at h
  split at h
  · cases h
  split at h
  · cases h
  · cases h
    rfl

theorem agentId_of_replace (hf : f.agentId = agent.agentId.text)
    (h : f.construct = .ok result) : result.agentId = agent.agentId := by
  rw [agentId_of_construct h, hf, cleanIdentifier_self]

theorem getAgent_eq_ok (h : getAgent σ id = .ok agent) : σ.agents.get id = some agent := by
  unfold getAgent at h
  split at h
  · next hg =>
    cases h
    exact hg
  · cases h

variable (hs : Shaped σ)

include hs

theorem shaped_putAgent (ha : agent.agentId.text = id) : Shaped (putAgent σ id agent) :=
  ⟨named_set hs.agents ha, hs.channels, hs.accounts⟩

theorem register_shaped (h : register σ principal agent = .ok τ) : Shaped τ := by
  obtain ⟨_, h⟩ := ite_throw_eq_ok.mp h
  obtain ⟨owned, _, h⟩ := bind_eq_ok.mp h
  have hput : Shaped (putAgent σ owned.agentId.text owned) := shaped_putAgent hs rfl
  dsimp only at h
  split at h
  · cases h
    exact ⟨hput.agents, hput.channels, hput.accounts⟩
  · cases h
    exact hput

theorem update_shaped (h : update σ agent = .ok τ) : Shaped τ := by
  unfold update at h
  split at h
  · cases h
  obtain ⟨owned, _, h⟩ := bind_eq_ok.mp h
  cases h
  exact shaped_putAgent hs rfl

theorem setEnabled_shaped {enabled : Bool} (h : setEnabled σ id enabled = .ok τ) : Shaped τ := by
  obtain ⟨agent, ha, h⟩ := bind_eq_ok.mp h
  split at h
  · cases h
  obtain ⟨updated, hu, h⟩ := bind_eq_ok.mp h
  cases h
  have hid : updated.agentId = agent.agentId := agentId_of_replace rfl hu
  exact shaped_putAgent hs (by rw [hid, hs.agents id agent (getAgent_eq_ok ha)])

theorem removeAgent_shaped (h : removeAgent σ id = .ok (some τ)) : Shaped τ := by
  unfold removeAgent fail at h
  repeat' split at h
  all_goals cases h
  exact ⟨named_pop hs.agents, hs.channels, hs.accounts⟩

theorem configure_shaped {relations : Relations} {create : Bool}
    (h : configure σ principal agent relations create = .ok τ) : Shaped τ := by
  obtain ⟨owned, _, h⟩ := bind_eq_ok.mp h
  obtain ⟨normalized, hn, h⟩ := bind_eq_ok.mp h
  obtain ⟨hchannels, haccounts⟩ := normalize_fixed hn
  split at h
  · cases h
  · cases h
    exact ⟨named_set hs.agents rfl, fixed_rebind hs.channels hchannels, fixed_rebind hs.accounts haccounts⟩

theorem bindChannel_shaped {channelType id : Text} (h : bindChannel σ channelType id = .ok τ) : Shaped τ := by
  obtain ⟨_, _, h⟩ := bind_eq_ok.mp h
  obtain ⟨channel, hc, h⟩ := bind_eq_ok.mp h
  cases h
  exact ⟨hs.agents, fixed_set hs.channels (normalizeChannelType_fixed hc), hs.accounts⟩

theorem bindAccount_shaped {account : Text × Text × Text}
    (h : bindAccount σ account id = .ok τ) : Shaped τ := by
  obtain ⟨_, _, h⟩ := bind_eq_ok.mp h
  obtain ⟨key, hk, h⟩ := bind_eq_ok.mp h
  cases h
  exact ⟨hs.agents, hs.channels, fixed_set hs.accounts (normalizeAccount_fixed hk)⟩

theorem updateResourceBindings_shaped {u : BindingUpdate}
    (h : updateResourceBindings σ id u = .ok τ) : Shaped τ := by
  obtain ⟨agent, ha, h⟩ := bind_eq_ok.mp h
  obtain ⟨updated, hu, h⟩ := bind_eq_ok.mp h
  cases h
  have hid : updated.agentId = agent.agentId := agentId_of_replace rfl hu
  exact shaped_putAgent hs (by rw [hid, hs.agents id agent (getAgent_eq_ok ha)])

theorem nextState_shaped {operation : Operation}
    (h : nextState principal σ operation = .ok (some τ)) : Shaped τ := by
  cases operation with
  | register agent => exact register_shaped hs (some_map_eq_ok.mp h)
  | update agent => exact update_shaped hs (some_map_eq_ok.mp h)
  | configure agent relations create => exact configure_shaped hs (some_map_eq_ok.mp h)
  | remove agentId => exact removeAgent_shaped hs h
  | setEnabled agentId enabled => exact setEnabled_shaped hs (some_map_eq_ok.mp h)
  | setDefault agentId =>
    obtain ⟨_, _, h⟩ := bind_eq_ok.mp (some_map_eq_ok.mp h)
    cases h
    exact ⟨hs.agents, hs.channels, hs.accounts⟩
  | bindChannel channelType agentId => exact bindChannel_shaped hs (some_map_eq_ok.mp h)
  | unbindChannel channelType =>
    cases h
    exact ⟨hs.agents, fixed_pop hs.channels, hs.accounts⟩
  | bindAccount account agentId => exact bindAccount_shaped hs (some_map_eq_ok.mp h)
  | unbindAccount account =>
    cases h
    exact ⟨hs.agents, hs.channels, fixed_pop hs.accounts⟩
  | bindSession session agentId =>
    obtain ⟨_, _, h⟩ := bind_eq_ok.mp (some_map_eq_ok.mp h)
    obtain ⟨_, _, h⟩ := bind_eq_ok.mp h
    cases h
    exact ⟨hs.agents, hs.channels, hs.accounts⟩
  | unbindSession session =>
    cases h
    exact ⟨hs.agents, hs.channels, hs.accounts⟩
  | updateResourceBindings agentId bindings => exact updateResourceBindings_shaped hs (some_map_eq_ok.mp h)

omit hs

theorem perform_normal {c : Call} {r : AgentRegistry} (hn : Normal r.state) : Normal (perform c r).2.state := by
  unfold perform
  split
  · exact hn
  · exact hn
  · next next hnext =>
    unfold commit
    split
    · exact hn
    · next hv =>
      have hcommitted : Normal next := ⟨nextState_shaped hn.shaped hnext, hv⟩
      split
      · split
        · exact hn
        · exact hcommitted
      · exact hcommitted

theorem created_normal (persistent : Bool) : Normal (created persistent).state :=
  ⟨⟨fun _ _ h => (nomatch h), fun _ _ h => (nomatch h), fun _ _ h => (nomatch h)⟩, rfl⟩

theorem foldl_normal {calls : List Call} {r : AgentRegistry} (hn : Normal r.state) :
    Normal (calls.foldl (fun r c => (perform c r).2) r).state := by
  induction calls generalizing r with
  | nil => exact hn
  | cons c calls ih => exact ih (perform_normal hn)

theorem reached_normal (persistent : Bool) (calls : List Call) : Normal (reached persistent calls).state :=
  foldl_normal (created_normal persistent)

/-- What is written of a reached state is read back as that state if and only if each definition
has a model candidate left. -/
theorem reload_iff (persistent : Bool) (calls : List Call) :
    (∃ τ, loadState (serializeState (reached persistent calls).state) = .ok τ ∧
      Same (reached persistent calls).state τ) ↔ Modelled (reached persistent calls).state := by
  constructor
  · intro ⟨τ, hload, _⟩
    exact modelled_of_load hload
  · exact load_serialize (reached_normal persistent calls)

def blankCandidate : AgentFields ResourceBinding where
  agentId := "helper".toList
  ownerSubject := none
  displayName := none
  enabled := true
  workflowId := none
  modelPriority := [" ".toList]
  providerAllowlist := []
  capabilities := []
  bindings := ⟨[], [], [], [], []⟩
  mcpAllowlist := []
  allowTools := false
  maxToolIterations := 8
  teammateAgentIds := []
  replyStreamMode := "inherit".toList

def registration (agent : AgentDefinition) : Call := ⟨.register agent, none, fun _ => false⟩

/-- The constructor counts the candidates before it strips them. It accepts the definition, and
the registry writes it and cannot be loaded again. -/
theorem reload_blankCandidate : ∃ agent, blankCandidate.construct = .ok agent ∧
    (perform (registration agent) (created true)).1 = .ok () ∧
    ∀ τ, loadState (serializeState (reached true [registration agent]).state) ≠ .ok τ := by
  refine ⟨_, rfl, rfl, fun τ h => ?_⟩
  exact modelled_of_load h "helper".toList _ rfl rfl

end Kirara.RegistryReloads
