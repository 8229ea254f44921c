import Kirara.AgentRegistries
import Kirara.Fallible
import Kirara.Schedules

namespace Kirara.RegistryInvariants

open Kirara.Channels Kirara.CreatorIdentity Kirara.Dicts Kirara.AgentRegistries Kirara.Fallible
open Kirara.Schedules

/-- An Agent that a user is bound to unchosen has to be there and enabled. -/
def DefaultEnabled (σ : RegistryState) : Prop :=
  ∀ id, σ.defaultAgentId = some id → ∃ agent, σ.agents.get id = some agent ∧ agent.enabled = true

def Bound (σ : RegistryState) : Prop :=
  ∀ id, id ∈ σ.channelBindings.values ∨ id ∈ σ.accountBindings.values ∨
    id ∈ σ.sessionBindings.values → (σ.agents.get id).isSome

structure Sound (σ : RegistryState) : Prop where
  enabled : DefaultEnabled σ
  bound : Bound σ

/-- An Agent that is there before and after belongs to whom it belonged. -/
def OwnersKept (σ τ : RegistryState) : Prop :=
  ∀ id a b, σ.agents.get id = some a → τ.agents.get id = some b → b.ownerSubject = a.ownerSubject

/-- What an operation must keep, whether it returns or raises. -/
structure Keeps (r : AgentRegistry) (c : Call) : Prop where
  sound : Sound (perform c r).2.state
  owners : OwnersKept r.state (perform c r).2.state
  raised : ∀ e, (perform c r).1 = .error e →
    (perform c r).2.state = r.state ∧ (perform c r).2.file = r.file

def Disables (σ : RegistryState) : Operation → Prop
  | .update agent => agent.enabled = false ∧ σ.defaultAgentId = some agent.agentId.text
  | .register agent => agent.enabled = false ∧ σ.defaultAgentId = none ∧
      agent.agentId.text = "default".toList
  | _ => False

def replaced (c : Call) : Bool :=
  !(c.fails .mkdir || c.fails .mkstemp || c.fails .dump || c.fails .replace)

/-- None disables the default Agent, and none that has replaced the file fails to clean up. -/
def Careful (r : AgentRegistry) (c : Call) : Prop :=
  ∀ next, nextState c.principal r.state c.operation = .ok (some next) →
    validateState next = .ok () → (r.persistent = true → replaced c = true) →
      if r.persistent = true ∧ c.fails .unlink = true then r.file = some next
      else ¬ Disables r.state c.operation

section Owners

variable {principal : Option RuntimePrincipal} {agent current replacement result : AgentDefinition}

theorem compareDigest_eq_true {a b : Text} (h : compareDigest a b = .ok true) : a = b := by
  unfold compareDigest at h
  split at h
  · simpa using h
  · cases h

theorem bindCreationOwner_spec (h : bindCreationOwner principal agent = .ok result) :
    result.agentId = agent.agentId ∧ result.enabled = agent.enabled := by
  unfold bindCreationOwner at h
  split at h
  · cases h
    exact ⟨rfl, rfl⟩
  · obtain ⟨owner, -, h⟩ := bind_eq_ok.mp h
    cases h
    exact ⟨rfl, rfl⟩
  · cases h
  · obtain ⟨same, -, h⟩ := bind_eq_ok.mp h
    cases same
    · cases h
    · cases h
      exact ⟨rfl, rfl⟩

theorem preserveOwner_spec (h : preserveOwner current replacement = .ok result) :
    result.agentId = replacement.agentId ∧ result.enabled = replacement.enabled ∧
      result.ownerSubject = current.ownerSubject := by
  unfold preserveOwner at h
  split at h
  · cases h
  · next hc hr =>
    cases h
    exact ⟨rfl, rfl, hr.trans hc.symm⟩
  · next hc _ =>
    cases h
    exact ⟨rfl, rfl, hc.symm⟩
  · next owner other hc hr =>
    obtain ⟨same, hs, h⟩ := bind_eq_ok.mp h
    cases same
    · cases h
    · cases h
      refine ⟨rfl, rfl, ?_⟩
      rw [hr, hc, Option.some.injEq]
      exact OwnerSubject.ext (compareDigest_eq_true hs).symm

theorem withBindings_spec {bindings : ResourceBindings} {allowed : List Text}
    (h : agent.withBindings bindings allowed = .ok result) :
    result.enabled = agent.enabled ∧ result.ownerSubject = agent.ownerSubject := by
  unfold AgentDefinition.withBindings at h
  split at h
  · cases h
  · cases h
    exact ⟨rfl, rfl⟩

end Owners

section Changes

variable {σ τ : RegistryState} {id : Text} {agent : AgentDefinition}
  {principal : Option RuntimePrincipal}

theorem ownersKept_of_agents (h : τ.agents = σ.agents) : OwnersKept σ τ := by
  intro id a b ha hb
  rw [h, ha] at hb
  cases hb
  rfl

theorem defaultEnabled_of_agents (hσ : DefaultEnabled σ) (ha : τ.agents = σ.agents)
    (hd : τ.defaultAgentId = σ.defaultAgentId) : DefaultEnabled τ := by
  intro id hid
  rw [ha]
  exact hσ id (hd ▸ hid)

theorem ownersKept_set (ha : τ.agents = σ.agents.set id agent)
    (h : ∀ old, σ.agents.get id = some old → agent.ownerSubject = old.ownerSubject) : OwnersKept σ τ := by
  intro other a b hold hnew
  rw [ha, Dict.get_set] at hnew
  split at hnew
  · next he =>
    cases hnew
    exact h a (he ▸ hold)
  · rw [hold] at hnew
    cases hnew
    rfl

theorem defaultEnabled_set (hσ : DefaultEnabled σ) (ha : τ.agents = σ.agents.set id agent)
    (hd : ∀ other, τ.defaultAgentId = some other → other ≠ id → σ.defaultAgentId = some other)
    (h : τ.defaultAgentId = some id → agent.enabled = true) : DefaultEnabled τ := by
  intro other hother
  rw [ha, Dict.get_set]
  by_cases he : other = id
  · rw [if_pos he]
    exact ⟨agent, rfl, h (he ▸ hother)⟩
  · rw [if_neg he]
    exact hσ other (hd other hother he)

theorem getAgent_eq_ok : getAgent σ id = .ok agent ↔ σ.agents.get id = some agent := by
  unfold getAgent
  cases σ.agents.get id with
  | none => simp
  | some a => simp

theorem requireEnabled_eq_ok :
    requireEnabled σ id = .ok agent ↔ σ.agents.get id = some agent ∧ agent.enabled = true := by
  unfold requireEnabled
  rw [bind_eq_ok]
  constructor
  · rintro ⟨a, ha, h⟩
    split at h
    · next he =>
      cases h
      exact ⟨getAgent_eq_ok.mp ha, he⟩
    · cases h
  · rintro ⟨ha, he⟩
    exact ⟨agent, getAgent_eq_ok.mpr ha, by rw [if_pos he]; rfl⟩

/-- What an operation that goes through does to the owners and the default. -/
structure Safe (σ τ : RegistryState) : Prop where
  enabled : DefaultEnabled τ
  owners : OwnersKept σ τ

theorem safe_of_agents (hσ : DefaultEnabled σ) (ha : τ.agents = σ.agents)
    (hd : τ.defaultAgentId = σ.defaultAgentId) : Safe σ τ :=
  ⟨defaultEnabled_of_agents hσ ha hd, ownersKept_of_agents ha⟩

theorem safe_putAgent (hσ : DefaultEnabled σ)
    (ho : ∀ old, σ.agents.get id = some old → agent.ownerSubject = old.ownerSubject)
    (he : σ.defaultAgentId = some id → agent.enabled = true) : Safe σ (putAgent σ id agent) :=
  ⟨defaultEnabled_set hσ rfl (fun _ h _ => h) he, ownersKept_set rfl ho⟩

theorem register_eq_ok (h : register σ principal agent = .ok τ) :
    σ.agents.get agent.agentId.text = none ∧ ∃ a, bindCreationOwner principal agent = .ok a ∧
      τ = if σ.defaultAgentId = none ∧ a.agentId.text = "default".toList then
        { putAgent σ a.agentId.text a with defaultAgentId := some a.agentId.text }
        else putAgent σ a.agentId.text a := by
  unfold register at h
  obtain ⟨hnew, h⟩ := ite_throw_eq_ok.mp h
  obtain ⟨a, ha, h⟩ := bind_eq_ok.mp h
  refine ⟨by simpa using hnew, a, ha, ?_⟩
  dsimp only at h
  split at h
  · next hd => exact (pure_eq_ok.mp h).symm.trans (if_pos (c := _ ∧ _) hd).symm
  · next hd => exact (pure_eq_ok.mp h).symm.trans (if_neg (c := _ ∧ _) hd).symm

theorem register_safe (hσ : DefaultEnabled σ) (hok : ¬ Disables σ (.register agent))
    (h : register σ principal agent = .ok τ) : Safe σ τ := by
  obtain ⟨hnew, a, ha, rfl⟩ := register_eq_ok h
  obtain ⟨hid, henabled⟩ := bindCreationOwner_spec ha
  have ho : ∀ old, σ.agents.get a.agentId.text = some old → a.ownerSubject = old.ownerSubject := by
    intro old hold
    rw [hid, hnew] at hold
    cases hold
  split
  · next hd =>
    refine ⟨defaultEnabled_set hσ rfl ?_ ?_, ownersKept_set rfl ho⟩
    · intro other hother hne
      exact absurd (Option.some.inj hother).symm hne
    · intro _
      rw [henabled]
      exact eq_true_of_ne_false (fun hf => hok ⟨hf, hd.1, hid ▸ hd.2⟩)
  · refine safe_putAgent hσ ho (fun hd => ?_)
    obtain ⟨old, hold, -⟩ := hσ _ hd
    rw [hid, hnew] at hold
    cases hold

theorem update_eq_ok (h : update σ agent = .ok τ) :
    ∃ current a, σ.agents.get agent.agentId.text = some current ∧
      preserveOwner current agent = .ok a ∧ τ = putAgent σ a.agentId.text a := by
  unfold update at h
  split at h
  · cases h
  · next current hc =>
    obtain ⟨a, ha, h⟩ := bind_eq_ok.mp h
    exact ⟨current, a, hc, ha, (pure_eq_ok.mp h).symm⟩

theorem update_safe (hσ : DefaultEnabled σ) (hok : ¬ Disables σ (.update agent))
    (h : update σ agent = .ok τ) : Safe σ τ := by
  obtain ⟨current, a, hc, ha, rfl⟩ := update_eq_ok h
  obtain ⟨hid, henabled, ho⟩ := preserveOwner_spec ha
  rw [hid]
  refine safe_putAgent hσ (fun old hold => ?_) (fun hd => ?_)
  · rw [hc] at hold
    cases hold
    exact ho
  · rw [henabled]
    exact eq_true_of_ne_false (fun hf => hok ⟨hf, hd⟩)

theorem setEnabled_safe {enabled : Bool} (hσ : DefaultEnabled σ)
    (h : setEnabled σ id enabled = .ok τ) : Safe σ τ := by
  unfold setEnabled at h
  obtain ⟨a, ha, h⟩ := bind_eq_ok.mp h
  rw [getAgent_eq_ok] at ha
  obtain ⟨hd, h⟩ := ite_error_eq_ok.mp h
  rw [← pure_eq_ok.mp h]
  refine safe_putAgent hσ (fun old hold => ?_) (fun hdefault => ?_)
  · rw [ha] at hold
    cases hold
    rfl
  · simpa [hdefault] using hd

theorem removeAgent_safe (hσ : DefaultEnabled σ) (h : removeAgent σ id = .ok (some τ)) : Safe σ τ := by
  unfold removeAgent at h
  split at h
  · cases h
  obtain ⟨hd, h⟩ := ite_error_eq_ok.mp h
  obtain ⟨-, h⟩ := ite_error_eq_ok.mp h
  obtain ⟨-, h⟩ := ite_error_eq_ok.mp h
  obtain ⟨-, h⟩ := ite_error_eq_ok.mp h
  cases h
  constructor
  · intro other hother
    have hne : other ≠ id := fun he => hd (he ▸ hother)
    obtain ⟨a, ha, he⟩ := hσ other hother
    exact ⟨a, by rw [Dict.get_pop_of_ne hne, ha], he⟩
  · intro other a b ha hb
    rw [Dict.get_pop] at hb
    split at hb
    · cases hb
    rw [ha] at hb
    cases hb
    rfl

theorem setDefault_safe (h : setDefault σ id = .ok τ) : Safe σ τ := by
  unfold setDefault at h
  obtain ⟨a, ha, h⟩ := bind_eq_ok.mp h
  obtain ⟨ha, he⟩ := requireEnabled_eq_ok.mp ha
  rw [← pure_eq_ok.mp h]
  refine ⟨fun other hother => ?_, ownersKept_of_agents rfl⟩
  cases hother
  exact ⟨a, ha, he⟩

theorem configuredOwner_spec {create : Bool} {a : AgentDefinition}
    (h : configuredOwner σ principal agent create = .ok a) : a.agentId = agent.agentId ∧
      ∀ old, σ.agents.get agent.agentId.text = some old → a.ownerSubject = old.ownerSubject := by
  unfold configuredOwner at h
  split at h
  · next current hc =>
    obtain ⟨-, h⟩ := ite_error_eq_ok.mp h
    obtain ⟨hid, -, ho⟩ := preserveOwner_spec h
    refine ⟨hid, fun old hold => ?_⟩
    rw [hc] at hold
    cases hold
    exact ho
  · next hnone =>
    split at h
    · refine ⟨(bindCreationOwner_spec h).1, fun old hold => ?_⟩
      rw [hnone] at hold
      cases hold
    · cases h

variable (hσ : DefaultEnabled σ)

include hσ

theorem configure_safe {relations : Relations} {create : Bool}
    (h : configure σ principal agent relations create = .ok τ) : Safe σ τ := by
  unfold configure at h
  obtain ⟨a, ha, h⟩ := bind_eq_ok.mp h
  obtain ⟨normalized, -, h⟩ := bind_eq_ok.mp h
  obtain ⟨hid, ho⟩ := configuredOwner_spec ha
  obtain ⟨hany, h⟩ := ite_throw_eq_ok.mp h
  rw [← pure_eq_ok.mp h]
  refine ⟨defaultEnabled_set hσ rfl (fun other hother hne => ?_) (fun hdefault => ?_),
    ownersKept_set rfl (hid ▸ ho)⟩
  · simp only [configuredDefault] at hother
    split at hother
    · exact absurd (Option.some.inj hother).symm hne
    split at hother
    · cases hother
    · exact hother
  · -- only `is_default` makes it the default, and that is a relation
    have hd : normalized.isDefault = true := by
      simp only [configuredDefault] at hdefault
      split at hdefault
      · assumption
      split at hdefault
      · cases hdefault
      · exact absurd hdefault ‹_›
    simpa [Relations.any, hd] using hany

theorem bindChannel_safe {channelType : Text} (h : bindChannel σ channelType id = .ok τ) : Safe σ τ := by
  unfold bindChannel at h
  obtain ⟨_, -, h⟩ := bind_eq_ok.mp h
  obtain ⟨channel, -, h⟩ := bind_eq_ok.mp h
  rw [← pure_eq_ok.mp h]
  exact safe_of_agents hσ rfl rfl

theorem bindAccount_safe {account : Text × Text × Text} (h : bindAccount σ account id = .ok τ) : Safe σ τ := by
  unfold bindAccount at h
  obtain ⟨_, -, h⟩ := bind_eq_ok.mp h
  obtain ⟨key, -, h⟩ := bind_eq_ok.mp h
  rw [← pure_eq_ok.mp h]
  exact safe_of_agents hσ rfl rfl

theorem bindSession_safe {session : SessionName} (h : bindSession σ session id = .ok τ) : Safe σ τ := by
  unfold bindSession at h
  obtain ⟨_, -, h⟩ := bind_eq_ok.mp h
  obtain ⟨_, -, h⟩ := bind_eq_ok.mp h
  rw [← pure_eq_ok.mp h]
  exact safe_of_agents hσ rfl rfl

theorem updateResourceBindings_safe {u : BindingUpdate}
    (h : updateResourceBindings σ id u = .ok τ) : Safe σ τ := by
  unfold updateResourceBindings at h
  obtain ⟨a, ha, h⟩ := bind_eq_ok.mp h
  obtain ⟨b, hb, h⟩ := bind_eq_ok.mp h
  rw [getAgent_eq_ok] at ha
  obtain ⟨henabled, ho⟩ := withBindings_spec hb
  rw [← pure_eq_ok.mp h]
  refine safe_putAgent hσ (fun old hold => ?_) (fun hd => ?_)
  · rw [ha] at hold
    cases hold
    exact ho
  · obtain ⟨c, hc, he⟩ := hσ id hd
    rw [ha] at hc
    cases hc
    exact henabled.trans he

theorem nextState_safe {operation : Operation}
    (hok : ¬ Disables σ operation) (h : nextState principal σ operation = .ok (some τ)) : Safe σ τ := by
  have hmap {x : Except Failure RegistryState} (hx : some <$> x = .ok (some τ)) : x = .ok τ := by
    obtain ⟨a, ha, hs⟩ := map_eq_ok.mp hx
    rw [ha, Option.some.inj hs]
  cases operation with
  | register agent => exact register_safe hσ hok (hmap h)
  | update agent => exact update_safe hσ hok (hmap h)
  | configure agent relations create => exact configure_safe hσ (hmap h)
  | remove id => exact removeAgent_safe hσ h
  | setEnabled id enabled => exact setEnabled_safe hσ (hmap h)
  | setDefault id => exact setDefault_safe (hmap h)
  | bindChannel channelType id => exact bindChannel_safe hσ (hmap h)
  | bindAccount account id => exact bindAccount_safe hσ (hmap h)
  | bindSession session id => exact bindSession_safe hσ (hmap h)
  | updateResourceBindings id u => exact updateResourceBindings_safe hσ (hmap h)
  | unbindChannel channelType =>
    cases h
    exact safe_of_agents hσ rfl rfl
  | unbindAccount account =>
    cases h
    exact safe_of_agents hσ rfl rfl
  | unbindSession session =>
    cases h
    exact safe_of_agents hσ rfl rfl

omit hσ

theorem not_defaultEnabled_of_disables {operation : Operation} (hd : Disables σ operation)
    (h : nextState principal σ operation = .ok (some τ)) : ¬ DefaultEnabled τ := by
  intro hτ
  cases operation with
  | register agent =>
    obtain ⟨_, hx, hs⟩ := map_eq_ok.mp h
    obtain ⟨hnew, a, ha, rfl⟩ := register_eq_ok hx
    obtain ⟨hid, henabled⟩ := bindCreationOwner_spec ha
    rw [if_pos ⟨hd.2.1, hid ▸ hd.2.2⟩] at hs
    cases hs
    obtain ⟨b, hb, he⟩ := hτ _ rfl
    rw [show (putAgent σ a.agentId.text a).agents = σ.agents.set a.agentId.text a from rfl,
      Dict.get_set_self] at hb
    cases hb
    rw [henabled, hd.1] at he
    cases he
  | update agent =>
    obtain ⟨_, hx, hs⟩ := map_eq_ok.mp h
    obtain ⟨current, a, hc, ha, rfl⟩ := update_eq_ok hx
    cases hs
    obtain ⟨hid, henabled, -⟩ := preserveOwner_spec ha
    obtain ⟨b, hb, he⟩ := hτ a.agentId.text (hid ▸ hd.2)
    rw [show (putAgent σ a.agentId.text a).agents = σ.agents.set a.agentId.text a from rfl,
      Dict.get_set_self] at hb
    cases hb
    rw [henabled, hd.1] at he
    cases he
  | _ => exact hd

end Changes

section Commits

variable {r : AgentRegistry} {c : Call} {σ next : RegistryState}

theorem bound_of_validateState (h : validateState σ = .ok ()) : Bound σ := by
  obtain ⟨hmissing, -⟩ : (references σ).filter (fun id => id ∉ σ.agents.keys) = [] ∧ True := by
    simpa [validateState] using h
  intro id hid
  rw [Dict.isSome_get_iff]
  by_contra hn
  have hm : id ∈ (references σ).filter (fun id => id ∉ σ.agents.keys) := by
    rw [List.mem_filter]
    refine ⟨?_, by simpa using hn⟩
    obtain hid | hid | hid := hid
    · simp [references, hid]
    · simp [references, hid]
    · simp [references, hid]
  rw [hmissing] at hm
  cases hm

theorem writeState_of_replaced (h : replaced c = true) (file : Option RegistryState) :
    writeState c.fails next file =
      (if c.fails .unlink then .error .osError else .ok (), some next) := by
  have hf : (c.fails .mkdir || c.fails .mkstemp || c.fails .dump || c.fails .replace) = false :=
    (Bool.not_eq_true' _).mp h
  unfold writeState
  rw [hf]
  cases c.fails .unlink <;> rfl

theorem writeState_of_not_replaced (h : replaced c ≠ true) (file : Option RegistryState) :
    writeState c.fails next file = (.error .osError, file) :=
  if_pos ((Bool.not_eq_false' _).mp (eq_false_of_ne_true h))

theorem perform_of_replaced (hn : nextState c.principal r.state c.operation = .ok (some next))
    (hv : validateState next = .ok ()) (hr : r.persistent = true → replaced c = true) :
    r.persistent = true ∧ c.fails .unlink = true ∧
        perform c r = (.error .osError, { r with file := some next }) ∨
      ¬ (r.persistent = true ∧ c.fails .unlink = true) ∧
        ∃ file, perform c r = (.ok (), { r with state := next, file := file }) := by
  simp only [perform, hn, commit, hv]
  by_cases hp : r.persistent = true
  · rw [if_pos hp, writeState_of_replaced (hr hp)]
    by_cases hu : c.fails .unlink = true
    · rw [if_pos hu]
      exact .inl ⟨hp, hu, rfl⟩
    · rw [if_neg hu]
      exact .inr ⟨fun h => hu h.2, some next, rfl⟩
  · rw [if_neg hp]
    exact .inr ⟨fun h => hp h.1, r.file, rfl⟩

theorem perform_cases (c : Call) (r : AgentRegistry) : (perform c r).2 = r ∨
      ∃ next, nextState c.principal r.state c.operation = .ok (some next) ∧
        validateState next = .ok () ∧ (r.persistent = true → replaced c = true) := by
  cases hn : nextState c.principal r.state c.operation with
  | error e => exact .inl (by simp only [perform, hn])
  | ok o =>
    cases o with
    | none => exact .inl (by simp only [perform, hn])
    | some next =>
      cases hv : validateState next with
      | error e => exact .inl (by simp only [perform, hn, commit, hv])
      | ok u =>
        by_cases hr : r.persistent = true ∧ replaced c ≠ true
        · refine .inl ?_
          simp only [perform, hn, commit, hv]
          rw [if_pos hr.1, writeState_of_not_replaced hr.2]
        · exact .inr ⟨next, rfl, hv, fun hp => not_not.mp (fun h => hr ⟨hp, h⟩)⟩

theorem ownersKept_self : OwnersKept σ σ :=
  ownersKept_of_agents rfl

theorem keeps_of_careful (h : Sound r.state) (hok : Careful r c) : Keeps r c := by
  obtain he | ⟨next, hn, hv, hr⟩ := perform_cases c r
  · have hs : (perform c r).2.state = r.state := congrArg AgentRegistry.state he
    exact ⟨hs.symm ▸ h, hs.symm ▸ ownersKept_self, fun _ _ => ⟨hs, congrArg AgentRegistry.file he⟩⟩
  · have hcase := hok next hn hv hr
    obtain ⟨hp, hu, he⟩ | ⟨hu, file, he⟩ := perform_of_replaced hn hv hr
    · rw [if_pos ⟨hp, hu⟩] at hcase
      exact ⟨he ▸ h, he ▸ ownersKept_self, fun _ _ => he ▸ ⟨rfl, hcase.symm⟩⟩
    · rw [if_neg hu] at hcase
      have hs := nextState_safe h.enabled hcase hn
      refine ⟨he ▸ ⟨hs.enabled, bound_of_validateState hv⟩, he ▸ hs.owners, fun e hraise => ?_⟩
      rw [he] at hraise
      cases hraise

theorem careful_of_keeps (hk : Keeps r c) : Careful r c := by
  intro next hn hv hr
  obtain ⟨hp, hu, he⟩ | ⟨hu, file, he⟩ := perform_of_replaced hn hv hr
  · have hfile := (hk.raised .osError (by rw [he])).2
    rw [he] at hfile
    rw [if_pos ⟨hp, hu⟩]
    exact hfile.symm
  · rw [if_neg hu]
    intro hd
    have hs := hk.sound.enabled
    rw [he] at hs
    exact not_defaultEnabled_of_disables hd hn hs

end Commits

/-- Every operation ends, by returning or by raising. -/
def next (r : AgentRegistry) (c : Call) : Option AgentRegistry := some (perform c r).2

/-- A run keeps the default Agent enabled, the bindings and the owners, and takes back what
raises, exactly where each of its operations is careful. -/
theorem registry_kept_iff {r : AgentRegistry} (h : Sound r.state) (cs : List Call) :
    Along next Keeps r cs ↔ Along next Careful r cs := by
  have hstep : ∀ r c t, Keeps r c → next r c = some t → Sound t.state := by
    intro r c t hk ht
    cases ht
    exact hk.sound
  constructor
  · exact along_of_invariant next (I := fun r => Sound r.state) (fun _ _ _ => careful_of_keeps)
      (fun r c t hk _ => hstep r c t hk) h
  · exact along_of_invariant next (I := fun r => Sound r.state) (fun _ _ => keeps_of_careful)
      (fun r c t hok hs => hstep r c t (keeps_of_careful hs hok)) h

def created (persistent : Bool) : AgentRegistry := ⟨emptyState, persistent, none⟩

theorem sound_created (persistent : Bool) : Sound (created persistent).state := by
  constructor
  · intro id hid
    cases hid
  · intro id hid
    simp [created, emptyState, Dict.values, Dict.empty] at hid

def principal : RuntimePrincipal := ⟨"root".toList, "admin", ["*"], true⟩

def defaultAgent : AgentDefinition :=
  ⟨defaultScope, none, true, ⟨[], [], [], [], []⟩, [], by decide⟩

def disablingUpdate : List Call :=
  [⟨.register defaultAgent, some principal, fun _ => false⟩,
    ⟨.update { defaultAgent with enabled := false }, some principal, fun _ => false⟩]

theorem disablingUpdate_disables_default : (exec next (created true) disablingUpdate).map (fun r =>
      (r.state.defaultAgentId, (r.state.agents.get defaultScope.text).map AgentDefinition.enabled)) =
        some (some defaultScope.text, some false) ∧
      ¬ Along next Keeps (created true) disablingUpdate := by
  have hrun : (exec next (created true) disablingUpdate).map (fun r =>
      (r.state.defaultAgentId, (r.state.agents.get defaultScope.text).map AgentDefinition.enabled)) =
        some (some defaultScope.text, some false) := by decide +kernel
  refine ⟨hrun, fun hk => ?_⟩
  obtain ⟨u, hu, hend⟩ := Option.map_eq_some_iff.mp hrun
  obtain ⟨hdefault, hdisabled⟩ := Prod.mk.inj hend
  have hs : Sound u.state := exec_invariant next (I := fun r => Sound r.state)
    (fun r c t (hk : Keeps r c) _ ht => Option.some.inj ht ▸ hk.sound) (sound_created true) hk hu
  obtain ⟨agent, hagent, henabled⟩ := hs.enabled _ hdefault
  rw [hagent, Option.map_some, henabled] at hdisabled
  cases hdisabled

theorem registry_kept_disablingUpdate : Along next Keeps (created true) disablingUpdate ↔
      Along next Careful (created true) disablingUpdate :=
  registry_kept_iff (sound_created true) disablingUpdate

end Kirara.RegistryInvariants
