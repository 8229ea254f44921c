import Kirara.AgentDefinitions
import Kirara.Fallible
import Kirara.ResourceAgreement

namespace Kirara.TrustedAgents

open Kirara.Channels Kirara.Fallible Kirara.AgentDefinitions
open Kirara.AgentRegistries (ResourceType resourceTypes)
open Kirara.ResourceAgreement (Sound agrees_iff_matches)
open Kirara.ResourceLifecycle (Manifest Platform Registry Resource State VersionRecord invalid refuse)

inductive Failure where
  | resource (e : ResourceLifecycle.Failure)
  | agent (e : AgentRegistries.Failure)
  deriving DecidableEq

structure ResourceService where
  registry : Registry
  readManifest : Text → Text → Except ResourceLifecycle.Failure Manifest

def lifecycleType : ResourceType → ResourceLifecycle.ResourceType
  | .prompt => .prompt
  | .skill => .skill
  | .memory => .memory
  | .mcp => .mcp
  | .hook => .hook

section Resolving

variable (s : ResourceService)

def loadRegisteredManifest (resourceId version : Text) (record : VersionRecord) :
    Except ResourceLifecycle.Failure Manifest :=
  match s.readManifest resourceId version with
  | .error e => .error e
  | .ok manifest =>
    if manifest.resourceId ≠ resourceId ∨ manifest.version ≠ version ∨
        manifest.contentSha256 ≠ record.contentSha256 then
      invalid "registered resource manifest does not match its registry"
    else .ok manifest

/-- `version or resource["current_version"]`. -/
def selectedVersion (version : Option Text) (resource : Resource) : Text :=
  (version.filter (fun v => v ≠ [])).getD resource.currentVersion

/-- What `resolve_binding` does under the lock. -/
def registeredVersion (resourceId : Text) (t : ResourceType) (version : Option Text) (enabled : Bool) :
    Except ResourceLifecycle.Failure VersionRecord :=
  match s.registry.get resourceId with
  | none => refuse "resource is not installed"
  | some resource =>
    if resource.type ≠ lifecycleType t then invalid "resource type does not match the registry"
    else if enabled = true ∧ resource.enabled = false then
      refuse "resource must be globally enabled before binding"
    else
      match resource.versions.find? (fun item => item.version = selectedVersion version resource) with
      | none => invalid "resource version is not registered"
      | some record =>
        match loadRegisteredManifest s resourceId (selectedVersion version resource) record with
        | .error e => .error e
        | .ok _ => .ok record

/-- `resolve_binding`, for a type and a policy that are known. -/
def resolveBinding (resourceId : Text) (t : ResourceType) (version : Option Text) (enabled : Bool)
    (policy : VersionPolicy) : Except Failure ResourceBinding :=
  match registeredVersion s resourceId t version enabled with
  | .error e => .error (.resource e)
  | .ok record =>
    let fields : BindingFields := {
      resourceId := resourceId
      resourceType := typeName t
      version := record.version
      contentSha256 := record.contentSha256
      enabled := enabled
      permissions := record.permissions
      source := record.source
      versionPolicy := policyName policy }
    fields.construct.mapError Failure.agent

def requestedVersion (b : ResourceBinding) : Option Text :=
  match b.versionPolicy with
  | .current => none
  | .fixed => some b.version.val

def resolveBindings (t : ResourceType) (bindings : List ResourceBinding) :
    Except Failure (List ResourceBinding) :=
  bindings.mapM (fun b => resolveBinding s b.resourceId.text t (requestedVersion b) b.enabled b.versionPolicy)

def resolveAll (b : ByType ResourceBinding) : Except Failure (ByType ResourceBinding) := do
  let prompt ← resolveBindings s .prompt b.prompt
  let skill ← resolveBindings s .skill b.skill
  let memory ← resolveBindings s .memory b.memory
  let mcp ← resolveBindings s .mcp b.mcp
  let hook ← resolveBindings s .hook b.hook
  return ⟨prompt, skill, memory, mcp, hook⟩

end Resolving

/-- `_trusted_agent`. The arguments it leaves out have their defaults. -/
def trustedAgent (service : Option ResourceService) (agent : AgentDefinition) : Except Failure AgentDefinition :=
  match service with
  | none => .ok agent
  | some s =>
    match resolveAll s agent.bindings with
    | .error e => .error e
    | .ok bindings =>
      let fields : AgentFields ResourceBinding := {
        agentId := agent.agentId.text
        ownerSubject := agent.ownerSubject.map AgentRegistries.OwnerSubject.text
        displayName := agent.displayName
        enabled := agent.enabled
        workflowId := agent.workflowId
        modelPriority := texts agent.modelPriority
        providerAllowlist := sorted agent.providerAllowlist
        capabilities := sorted agent.capabilities
        bindings := bindings
        mcpAllowlist := sorted agent.mcpAllowlist
        allowTools := agent.allowTools
        maxToolIterations := agent.maxToolIterations
        teammateAgentIds := []
        replyStreamMode := "inherit".toList }
      fields.construct.mapError Failure.agent

/-- All fields but the bindings agree. -/
structure KeepsRest (a b : AgentDefinition) : Prop where
  agentId : b.agentId = a.agentId
  ownerSubject : b.ownerSubject = a.ownerSubject
  displayName : b.displayName = a.displayName
  enabled : b.enabled = a.enabled
  workflowId : b.workflowId = a.workflowId
  modelPriority : b.modelPriority = a.modelPriority
  providerAllowlist : b.providerAllowlist = a.providerAllowlist
  capabilities : b.capabilities = a.capabilities
  mcpAllowlist : b.mcpAllowlist = a.mcpAllowlist
  allowTools : b.allowTools = a.allowTools
  maxToolIterations : b.maxToolIterations = a.maxToolIterations
  teammateAgentIds : b.teammateAgentIds.val = a.teammateAgentIds.val
  replyStreamMode : b.replyStreamMode = a.replyStreamMode

section Resolution

variable {s : ResourceService} {t : ResourceType}

/-- A version in the registry for a binding, with the registered manifest on disk. -/
structure Registered (s : ResourceService) (t : ResourceType) (b : ResourceBinding) (record : VersionRecord)
    (resource : Resource) (manifest : Manifest) : Prop where
  installed : s.registry.get b.resourceId.text = some resource
  type : resource.type = lifecycleType t
  enabled : b.enabled = true → resource.enabled = true
  listed : resource.versions.find? (fun item => item.version = selectedVersion (requestedVersion b) resource) =
    some record
  read : s.readManifest b.resourceId.text record.version = .ok manifest
  sameId : manifest.resourceId = b.resourceId.text
  sameVersion : manifest.version = record.version
  sameContent : manifest.contentSha256 = record.contentSha256

/-- The registry has a version for a binding, and its digest is one. -/
def Resolvable (s : ResourceService) (t : ResourceType) (b : ResourceBinding) : Prop :=
  ∃ record resource manifest, Registered s t b record resource manifest ∧
    isSha256 (lower (strip record.contentSha256)) = true

variable {record : VersionRecord}

theorem version_of_find {resource : Resource} {version : Text}
    (h : resource.versions.find? (fun item => item.version = version) = some record) : record.version = version := by
  simpa using List.find?_some h

theorem loadRegisteredManifest_eq_ok {id version : Text} {manifest : Manifest} :
    loadRegisteredManifest s id version record = .ok manifest ↔
      s.readManifest id version = .ok manifest ∧ manifest.resourceId = id ∧ manifest.version = version ∧
        manifest.contentSha256 = record.contentSha256 := by
  unfold loadRegisteredManifest
  cases s.readManifest id version with
  | error e => simp
  | ok read =>
    dsimp only
    rw [invalid, ite_error_eq_ok, Except.ok.injEq]
    constructor
    · rintro ⟨hsame, he⟩
      subst he
      simpa [not_or] using hsame
    · rintro ⟨he, hid, hversion, hcontent⟩
      subst he
      simp [hid, hversion, hcontent]

theorem registeredVersion_eq_ok {b : ResourceBinding} :
    registeredVersion s b.resourceId.text t (requestedVersion b) b.enabled = .ok record ↔
      ∃ resource manifest, Registered s t b record resource manifest := by
  constructor
  · intro h
    unfold registeredVersion at h
    cases hinstalled : s.registry.get b.resourceId.text with
    | none =>
      rw [hinstalled] at h
      cases h
    | some resource =>
      rw [hinstalled] at h
      dsimp only at h
      rw [invalid, refuse, ite_error_eq_ok, ite_error_eq_ok] at h
      obtain ⟨htype, henabled, h⟩ := h
      cases hlisted : resource.versions.find?
          (fun item => item.version = selectedVersion (requestedVersion b) resource) with
      | none =>
        rw [hlisted] at h
        cases h
      | some found =>
        rw [hlisted] at h
        dsimp only at h
        have hversion := version_of_find hlisted
        cases hload : loadRegisteredManifest s b.resourceId.text
            (selectedVersion (requestedVersion b) resource) found with
        | error e =>
          rw [hload] at h
          cases h
        | ok manifest =>
          rw [hload] at h
          cases h
          obtain ⟨hread, hid, hmanifest, hcontent⟩ := loadRegisteredManifest_eq_ok.mp hload
          exact ⟨resource, manifest, {
            installed := hinstalled
            type := not_not.mp htype
            enabled := by simpa using henabled
            listed := hlisted
            read := hversion ▸ hread
            sameId := hid
            sameVersion := hmanifest.trans hversion.symm
            sameContent := hcontent }⟩
  · rintro ⟨resource, manifest, h⟩
    have hversion := version_of_find h.listed
    have hload : loadRegisteredManifest s b.resourceId.text (selectedVersion (requestedVersion b) resource) record =
        .ok manifest :=
      loadRegisteredManifest_eq_ok.mpr
        ⟨hversion ▸ h.read, h.sameId, h.sameVersion.trans hversion, h.sameContent⟩
    have henabled : ¬ (b.enabled = true ∧ resource.enabled = false) := by
      rintro ⟨hb, hr⟩
      exact absurd ((h.enabled hb).symm.trans hr) (by decide)
    simp [registeredVersion, h.installed, h.type, henabled, h.listed, hload]

def bindingOf (b : ResourceBinding) (t : ResourceType) (record : VersionRecord)
    (h : isSha256 (lower (strip record.contentSha256)) = true) : ResourceBinding where
  resourceId := b.resourceId
  resourceType := t
  version := (name? record.version).getD unversioned
  contentSha256 := lower (strip record.contentSha256)
  enabled := b.enabled
  permissions := asTuple record.permissions
  source := cleanIdentifier (some record.source) localSource
  versionPolicy := b.versionPolicy
  digest := h

theorem mapError_eq_ok {ε δ α : Type} {f : ε → δ} {x : Except ε α} {a : α} :
    x.mapError f = .ok a ↔ x = .ok a := by
  cases x <;> simp [Except.mapError]

theorem resolveBinding_eq_ok {b c : ResourceBinding} :
    resolveBinding s b.resourceId.text t (requestedVersion b) b.enabled b.versionPolicy = .ok c ↔
      ∃ record resource manifest h, Registered s t b record resource manifest ∧ c = bindingOf b t record h := by
  have htype : parseType (typeName t) = some t := by cases t <;> decide
  have hpolicy : parsePolicy (policyName b.versionPolicy) = some b.versionPolicy := by
    cases b.versionPolicy <;> decide
  have hconstruct (record : VersionRecord) (c : ResourceBinding) :
      BindingFields.construct ⟨b.resourceId.text, typeName t, record.version, record.contentSha256, b.enabled,
        record.permissions, record.source, policyName b.versionPolicy⟩ = .ok c ↔
        ∃ h, c = bindingOf b t record h := by
    by_cases h : isSha256 (lower (strip record.contentSha256)) = true
    · simp [BindingFields.construct, htype, hpolicy, h, bindingOf, eq_comm]
    · simp [BindingFields.construct, htype, h, AgentRegistries.fail]
  unfold resolveBinding
  cases hrecord : registeredVersion s b.resourceId.text t (requestedVersion b) b.enabled with
  | error e =>
    constructor
    · intro h
      cases h
    · rintro ⟨record, resource, manifest, _, hregistered, _⟩
      cases hrecord.symm.trans (registeredVersion_eq_ok.mpr ⟨resource, manifest, hregistered⟩)
  | ok record =>
    dsimp only
    rw [mapError_eq_ok, hconstruct]
    constructor
    · rintro ⟨h, hc⟩
      obtain ⟨resource, manifest, hregistered⟩ := registeredVersion_eq_ok.mp hrecord
      exact ⟨record, resource, manifest, h, hregistered, hc⟩
    · rintro ⟨other, resource, manifest, h, hregistered, hc⟩
      cases hrecord.symm.trans (registeredVersion_eq_ok.mpr ⟨resource, manifest, hregistered⟩)
      exact ⟨h, hc⟩

theorem resolvable_iff {b : ResourceBinding} :
    (∃ c, resolveBinding s b.resourceId.text t (requestedVersion b) b.enabled b.versionPolicy = .ok c) ↔
      Resolvable s t b := by
  constructor
  · intro ⟨c, h⟩
    obtain ⟨record, resource, manifest, hdigest, hregistered, -⟩ := resolveBinding_eq_ok.mp h
    exact ⟨record, resource, manifest, hregistered, hdigest⟩
  · intro ⟨record, resource, manifest, hregistered, hdigest⟩
    exact ⟨_, resolveBinding_eq_ok.mpr ⟨record, resource, manifest, hdigest, hregistered, rfl⟩⟩

theorem resolveBindings_iff {bindings : List ResourceBinding} :
    (∃ resolved, resolveBindings s t bindings = .ok resolved) ↔ ∀ b ∈ bindings, Resolvable s t b := by
  constructor
  · intro ⟨resolved, h⟩ b hb
    obtain ⟨c, -, hc⟩ := exists_of_forall₂ (forall₂_of_mapM h) hb
    exact resolvable_iff.mp ⟨c, hc⟩
  · intro h
    obtain ⟨resolved, hresolved, -⟩ := mapM_forall₂_iff (R := fun _ _ => True) |>.mpr
      (fun b hb => (resolvable_iff.mpr (h b hb)).imp (fun _ hc => ⟨hc, trivial⟩))
    exact ⟨resolved, hresolved⟩

/-- What is resolved is, one by one, the same resource of the type asked for. -/
structure Refreshes (t : ResourceType) (b c : ResourceBinding) : Prop where
  resourceId : c.resourceId = b.resourceId
  resourceType : c.resourceType = t
  enabled : c.enabled = b.enabled
  versionPolicy : c.versionPolicy = b.versionPolicy
  pinned : b.versionPolicy = .fixed → c.version = b.version

theorem refreshes_of_resolved {b c : ResourceBinding}
    (h : resolveBinding s b.resourceId.text t (requestedVersion b) b.enabled b.versionPolicy = .ok c) :
    Refreshes t b c := by
  obtain ⟨record, resource, manifest, hdigest, hregistered, hc⟩ := resolveBinding_eq_ok.mp h
  subst hc
  refine ⟨rfl, rfl, rfl, rfl, ?_⟩
  intro hfixed
  have hversion : record.version = b.version.val := by
    have hne : b.version.val ≠ [] := b.version.property.2
    rw [version_of_find hregistered.listed, selectedVersion, requestedVersion, hfixed]
    simp [Option.filter, hne]
  rw [bindingOf, hversion, name?_val, Option.getD_some]

theorem refreshes_of_resolveBindings {bindings resolved : List ResourceBinding}
    (h : resolveBindings s t bindings = .ok resolved) : List.Forall₂ (Refreshes t) bindings resolved :=
  (forall₂_of_mapM h).imp (fun _ _ => refreshes_of_resolved)

variable {b c : ByType ResourceBinding}

theorem resolveAll_eq_ok :
    resolveAll s b = .ok c ↔ ∀ t, resolveBindings s t (b.ofType t) = .ok (c.ofType t) := by
  constructor
  · intro h
    unfold resolveAll at h
    obtain ⟨prompt, hprompt, h⟩ := bind_eq_ok.mp h
    obtain ⟨skill, hskill, h⟩ := bind_eq_ok.mp h
    obtain ⟨memory, hmemory, h⟩ := bind_eq_ok.mp h
    obtain ⟨mcp, hmcp, h⟩ := bind_eq_ok.mp h
    obtain ⟨hook, hhook, h⟩ := bind_eq_ok.mp h
    cases pure_eq_ok.mp h
    intro t
    cases t with
    | prompt => exact hprompt
    | skill => exact hskill
    | memory => exact hmemory
    | mcp => exact hmcp
    | hook => exact hhook
  · intro h
    have hprompt := h .prompt
    have hskill := h .skill
    have hmemory := h .memory
    have hmcp := h .mcp
    have hhook := h .hook
    simp only [ByType.ofType] at hprompt hskill hmemory hmcp hhook
    simp only [resolveAll, hprompt, hskill, hmemory, hmcp, hhook]
    rfl

theorem resolveAll_iff {b : ByType ResourceBinding} :
    (∃ c, resolveAll s b = .ok c) ↔ ∀ t, ∀ item ∈ b.ofType t, Resolvable s t item := by
  constructor
  · intro ⟨c, h⟩ t
    exact resolveBindings_iff.mp ⟨_, resolveAll_eq_ok.mp h t⟩
  · intro h
    have hresolved := fun t => resolveBindings_iff.mpr (h t)
    choose resolved hresolved using hresolved
    refine ⟨⟨resolved .prompt, resolved .skill, resolved .memory, resolved .mcp, resolved .hook⟩, ?_⟩
    rw [resolveAll_eq_ok]
    intro t
    cases t <;> exact hresolved _

theorem typed_of_resolved (h : resolveAll s b = .ok c) : resourceTypes.find? (misplaced c) = none := by
  rw [List.find?_eq_none]
  intro t _ hmisplaced
  obtain ⟨item, hitem, hne⟩ := List.any_eq_true.mp hmisplaced
  obtain ⟨source, -, hsource⟩ :=
    exists_of_forall₂ (refreshes_of_resolveBindings (resolveAll_eq_ok.mp h t)).flip hitem
  exact (decide_eq_true_eq.mp hne) hsource.resourceType

end Resolution

variable {s : ResourceService}

/-- The definition that comes back: teammates and stream mode are lost. -/
def rebuilt (a : AgentDefinition) (bindings : ByType ResourceBinding)
    (typed : resourceTypes.find? (misplaced bindings) = none) : AgentDefinition :=
  { a with
    bindings := bindings
    teammateAgentIds := noTeammates _
    replyStreamMode := .inherit
    typed := typed }

theorem trustedAgent_eq_ok {a b : AgentDefinition} : trustedAgent (some s) a = .ok b ↔
      a.modelPriority ≠ [] ∧ ∃ bindings typed, resolveAll s a.bindings = .ok bindings ∧ b = rebuilt a bindings typed := by
  dsimp only [trustedAgent]
  cases hall : resolveAll s a.bindings with
  | error e => simp
  | ok bindings =>
    have htyped := typed_of_resolved hall
    -- The arguments are the fields of the definition that comes back.
    have hfields := construct_fields (rebuilt a bindings htyped)
    dsimp only
    rw [mapError_eq_ok]
    constructor
    · intro h
      have hok := hfields.symm.trans h
      rw [AgentRegistries.fail, ite_error_eq_ok] at hok
      obtain ⟨hmodels, hb⟩ := hok
      exact ⟨hmodels, bindings, htyped, rfl, (Except.ok.inj hb).symm⟩
    · intro ⟨hmodels, other, _, hother, hb⟩
      cases hother
      subst hb
      exact hfields.trans (if_neg hmodels)

theorem keepsRest_rebuilt_iff {a : AgentDefinition} {bindings : ByType ResourceBinding}
    {typed : resourceTypes.find? (misplaced bindings) = none} :
    KeepsRest a (rebuilt a bindings typed) ↔ a.teammateAgentIds.val = [] ∧ a.replyStreamMode = .inherit := by
  constructor
  · intro h
    exact ⟨h.teammateAgentIds.symm, h.replyStreamMode.symm⟩
  · intro ⟨hteammates, hmode⟩
    exact ⟨rfl, rfl, rfl, rfl, rfl, rfl, rfl, rfl, rfl, rfl, rfl, hteammates.symm, hmode.symm⟩

def Refused (s : ResourceService) (a : AgentDefinition) : Prop :=
  a.modelPriority = [] ∨ ∃ t, ∃ item ∈ a.bindings.ofType t, ¬ Resolvable s t item

theorem refused_iff {a : AgentDefinition} : Refused s a ↔ ∀ b, trustedAgent (some s) a ≠ .ok b := by
  constructor
  · intro h b hb
    obtain ⟨hmodels, bindings, _, hall, -⟩ := trustedAgent_eq_ok.mp hb
    cases h with
    | inl h => exact hmodels h
    | inr h =>
      obtain ⟨t, item, hitem, hnot⟩ := h
      exact hnot (resolveAll_iff.mp ⟨bindings, hall⟩ t item hitem)
  · intro h
    by_contra hnot
    rw [Refused, not_or] at hnot
    push Not at hnot
    obtain ⟨hmodels, hresolvable⟩ := hnot
    obtain ⟨bindings, hall⟩ := resolveAll_iff.mpr hresolvable
    exact h _ (trustedAgent_eq_ok.mpr ⟨hmodels, bindings, typed_of_resolved hall, hall, rfl⟩)

/-- A definition without teammates and stream mode has nothing to lose. -/
def NothingToLose (a : AgentDefinition) : Prop := a.teammateAgentIds.val = [] ∧ a.replyStreamMode = .inherit

/-- The definition that comes back is the one given but for its bindings exactly where there is no service,
the service refuses it, or it has nothing to lose. -/
theorem trusted_agent_keeps_rest_iff (service : Option ResourceService) (a : AgentDefinition) :
    (∀ b, trustedAgent service a = .ok b → KeepsRest a b) ↔
      (∀ s, service = some s → Refused s a ∨ NothingToLose a) := by
  cases service with
  | none =>
    constructor
    · intro _ s hs
      cases hs
    · intro _ b hb
      cases hb
      exact ⟨rfl, rfl, rfl, rfl, rfl, rfl, rfl, rfl, rfl, rfl, rfl, rfl, rfl⟩
  | some s =>
    constructor
    · intro h _ hs
      cases hs
      by_cases hrefused : Refused s a
      · exact .inl hrefused
      right
      rw [refused_iff] at hrefused
      push Not at hrefused
      obtain ⟨b, hb⟩ := hrefused
      obtain ⟨-, bindings, typed, -, he⟩ := trustedAgent_eq_ok.mp hb
      exact keepsRest_rebuilt_iff.mp (he ▸ h b hb)
    · intro h b hb
      cases h s rfl with
      | inl hrefused => exact absurd hb (refused_iff.mp hrefused b)
      | inr hnothing =>
        obtain ⟨-, bindings, typed, -, he⟩ := trustedAgent_eq_ok.mp hb
        subst he
        exact keepsRest_rebuilt_iff.mpr hnothing

def emptyService : ResourceService := ⟨.empty, fun _ _ => invalid "registered resource manifest is unavailable"⟩

def helper : Name := ⟨"helper".toList, by decide, by decide⟩

def streamed : AgentDefinition where
  agentId := agentName
  ownerSubject := none
  displayName := none
  enabled := true
  workflowId := none
  modelPriority := [⟨"model".toList, by decide, by decide⟩]
  providerAllowlist := ∅
  capabilities := ∅
  bindings := ⟨[], [], [], [], []⟩
  mcpAllowlist := ∅
  allowTools := true
  maxToolIterations := 8
  teammateAgentIds := ⟨[helper], by decide, by decide⟩
  replyStreamMode := .aggregate
  typed := rfl

theorem teammates_forgotten : ∃ b, trustedAgent (some emptyService) streamed = .ok b ∧
    streamed.teammateAgentIds.val = [helper] ∧ b.teammateAgentIds.val = [] ∧
    streamed.replyStreamMode = .aggregate ∧ b.replyStreamMode = .inherit ∧ ¬ KeepsRest streamed b := by
  have hmodels : streamed.modelPriority ≠ [] := by decide
  have hreturned : trustedAgent (some emptyService) streamed = .ok (rebuilt streamed ⟨[], [], [], [], []⟩ rfl) :=
    trustedAgent_eq_ok.mpr ⟨hmodels, ⟨[], [], [], [], []⟩, rfl, rfl, rfl⟩
  refine ⟨_, hreturned, rfl, rfl, rfl, rfl, ?_⟩
  intro hkeeps
  cases hkeeps.teammateAgentIds

end Kirara.TrustedAgents
