import Kirara.AgentDefinitions
import Kirara.StableSorts

namespace Kirara.RegistryRecords

open Kirara.Channels Kirara.CreatorIdentity Kirara.Dicts Kirara.StableSorts Kirara.AgentDefinitions
open Kirara.AgentRegistries hiding AgentDefinition ResourceBinding RegistryState AgentRegistry bindCreationOwner
  preserveOwner getAgent requireEnabled putAgent setEnabled register update removeAgent setDefault configuredOwner
  configuredDefault configure bindChannel unbindChannel bindAccount unbindAccount bindSession unbindSession
  BindingUpdate updateResourceBindings Operation nextState references validateState writeState commit Call
  perform emptyState

structure RegistryState where
  agents : Dict Text AgentDefinition
  channelBindings : Dict Text Text
  accountBindings : Dict (Text × Text × Text) Text
  sessionBindings : Dict Text Text
  defaultAgentId : Option Text

def emptyState : RegistryState := ⟨.empty, .empty, .empty, .empty, none⟩

/-- `_bind_creation_owner`. A definition that is replaced is constructed again. -/
def bindCreationOwner (principal : Option RuntimePrincipal) (agent : AgentDefinition) :
    Except Failure AgentDefinition :=
  match agent.ownerSubject, principal.filter RuntimePrincipal.isCreator with
  | none, none => .ok agent
  | none, some creator => { agent.fields with ownerSubject := some creator.subject }.construct
  | some _, none =>
    .error (.permissionError "Agent owner can only be assigned by the matching creator".toList)
  | some owner, some creator => do
    if ← compareDigest creator.subject owner.text then return agent
    else throw (.permissionError "Agent owner can only be assigned by the matching creator".toList)

def preserveOwner (current replacement : AgentDefinition) : Except Failure AgentDefinition :=
  match current.ownerSubject, replacement.ownerSubject with
  | none, some _ => fail "Agent owner cannot be assigned after creation"
  | none, none => .ok replacement
  | some owner, none => { replacement.fields with ownerSubject := some owner.text }.construct
  | some owner, some other => do
    if ← compareDigest owner.text other.text then return replacement
    else fail "Agent owner cannot be transferred"

variable (σ : RegistryState)

def getAgent (agentId : Text) : Except Failure AgentDefinition :=
  match σ.agents.get agentId with
  | some agent => .ok agent
  | none => .error (.lookupError ("Unknown Agent: ".toList ++ agentId))

def requireEnabled (agentId : Text) : Except Failure AgentDefinition := do
  let agent ← getAgent σ agentId
  if agent.enabled then return agent
  else throw (.valueError ("Agent is disabled: ".toList ++ agentId))

def putAgent (agentId : Text) (agent : AgentDefinition) : RegistryState :=
  { σ with agents := σ.agents.set agentId agent }

def setEnabled (agentId : Text) (enabled : Bool) : Except Failure RegistryState := do
  let agent ← getAgent σ agentId
  if !enabled && σ.defaultAgentId = some agentId then
    fail "The global default Agent cannot be disabled"
  else
    let updated ← { agent.fields with enabled := enabled }.construct
    return putAgent σ agentId updated

def register (principal : Option RuntimePrincipal) (agent : AgentDefinition) :
    Except Failure RegistryState := do
  if (σ.agents.get agent.agentId.text).isSome then throw (alreadyRegistered agent.agentId.text)
  else
    let agent ← bindCreationOwner principal agent
    let next := putAgent σ agent.agentId.text agent
    if next.defaultAgentId = none ∧ agent.agentId.text = "default".toList then
      return { next with defaultAgentId := some agent.agentId.text }
    else return next

def update (agent : AgentDefinition) : Except Failure RegistryState :=
  match σ.agents.get agent.agentId.text with
  | none => .error (.keyError agent.agentId.text)
  | some current => do
    let agent ← preserveOwner current agent
    return putAgent σ agent.agentId.text agent

def removeAgent (agentId : Text) : Except Failure (Option RegistryState) :=
  if (σ.agents.get agentId).isNone then .ok none
  else if σ.defaultAgentId = some agentId then fail "The global default Agent cannot be removed"
  else if agentId ∈ σ.channelBindings.values then
    fail "An Agent with a channel binding cannot be removed"
  else if agentId ∈ σ.accountBindings.values then
    fail "An Agent with an account binding cannot be removed"
  else if agentId ∈ σ.sessionBindings.values then
    fail "An Agent with a session binding cannot be removed"
  else .ok (some { σ with agents := σ.agents.pop agentId })

def setDefault (agentId : Text) : Except Failure RegistryState := do
  let _ ← requireEnabled σ agentId
  return { σ with defaultAgentId := some agentId }

def configuredOwner (principal : Option RuntimePrincipal) (agent : AgentDefinition)
    (create : Bool) : Except Failure AgentDefinition :=
  match σ.agents.get agent.agentId.text with
  | some current =>
    if create then .error (alreadyRegistered agent.agentId.text) else preserveOwner current agent
  | none =>
    if create then bindCreationOwner principal agent else .error (.keyError agent.agentId.text)

def configuredDefault (agentId : Text) (isDefault : Bool) : Option Text :=
  if isDefault then some agentId
  else if σ.defaultAgentId = some agentId then none
  else σ.defaultAgentId

def configure (principal : Option RuntimePrincipal) (agent : AgentDefinition)
    (relations : Relations) (create : Bool) : Except Failure RegistryState := do
  let agent ← configuredOwner σ principal agent create
  let relations ← relations.normalize
  if !agent.enabled && relations.any then
    throw (.valueError ("Agent is disabled: ".toList ++ agent.agentId.text))
  else
    let id := agent.agentId.text
    return {
      agents := σ.agents.set id agent
      channelBindings := rebind id relations.channels σ.channelBindings
      accountBindings := rebind id relations.accounts σ.accountBindings
      sessionBindings := rebind id relations.sessions σ.sessionBindings
      defaultAgentId := configuredDefault σ id relations.isDefault }

def bindChannel (channelType agentId : Text) : Except Failure RegistryState := do
  let _ ← requireEnabled σ agentId
  let channel ← normalizeChannelType channelType
  return { σ with channelBindings := σ.channelBindings.set channel agentId }

def unbindChannel (channelType : Text) : RegistryState :=
  { σ with channelBindings := σ.channelBindings.pop (channelKey channelType) }

def bindAccount (account : Text × Text × Text) (agentId : Text) : Except Failure RegistryState := do
  let _ ← requireEnabled σ agentId
  let key ← normalizeAccount account
  return { σ with accountBindings := σ.accountBindings.set key agentId }

def accountKey (account : Text × Text × Text) : Text × Text × Text :=
  (channelKey account.1, accountPart account.2.1, accountPart account.2.2)

def unbindAccount (account : Text × Text × Text) : RegistryState :=
  { σ with accountBindings := σ.accountBindings.pop (accountKey account) }

def bindSession (session : SessionName) (agentId : Text) : Except Failure RegistryState := do
  let _ ← requireEnabled σ agentId
  let _ ← normalizeChannelType (sessionChannel session.bound)
  return { σ with sessionBindings := σ.sessionBindings.set session.bound agentId }

def unbindSession (session : SessionName) : RegistryState :=
  { σ with sessionBindings := session.keys.foldl Dict.pop σ.sessionBindings }

/-- The arguments of `update_resource_bindings`. What is not given is kept. -/
structure BindingUpdate where
  prompt : List ResourceBinding
  skill : List ResourceBinding
  mcp : List ResourceBinding
  memory : Option (List ResourceBinding)
  hook : Option (List ResourceBinding)
  mcpAllowlist : Option (List Text)

def BindingUpdate.bindings (u : BindingUpdate) (current : ByType ResourceBinding) : ByType ResourceBinding :=
  ⟨u.prompt, u.skill, u.memory.getD current.memory, u.mcp, u.hook.getD current.hook⟩

def updateResourceBindings (agentId : Text) (u : BindingUpdate) : Except Failure RegistryState := do
  let agent ← getAgent σ agentId
  let updated ← { agent.fields with
    bindings := u.bindings agent.bindings
    mcpAllowlist := u.mcpAllowlist.getD agent.fields.mcpAllowlist }.construct
  return putAgent σ agentId updated

inductive Operation where
  | register (agent : AgentDefinition)
  | update (agent : AgentDefinition)
  | configure (agent : AgentDefinition) (relations : Relations) (create : Bool)
  | remove (agentId : Text)
  | setEnabled (agentId : Text) (enabled : Bool)
  | setDefault (agentId : Text)
  | bindChannel (channelType agentId : Text)
  | unbindChannel (channelType : Text)
  | bindAccount (account : Text × Text × Text) (agentId : Text)
  | unbindAccount (account : Text × Text × Text)
  | bindSession (session : SessionName) (agentId : Text)
  | unbindSession (session : SessionName)
  | updateResourceBindings (agentId : Text) (bindings : BindingUpdate)

def nextState (principal : Option RuntimePrincipal) (σ : RegistryState) :
    Operation → Except Failure (Option RegistryState)
  | .register agent => some <$> register σ principal agent
  | .update agent => some <$> update σ agent
  | .configure agent relations create => some <$> configure σ principal agent relations create
  | .remove agentId => removeAgent σ agentId
  | .setEnabled agentId enabled => some <$> setEnabled σ agentId enabled
  | .setDefault agentId => some <$> setDefault σ agentId
  | .bindChannel channelType agentId => some <$> bindChannel σ channelType agentId
  | .unbindChannel channelType => .ok (some (unbindChannel σ channelType))
  | .bindAccount account agentId => some <$> bindAccount σ account agentId
  | .unbindAccount account => .ok (some (unbindAccount σ account))
  | .bindSession session agentId => some <$> bindSession σ session agentId
  | .unbindSession session => .ok (some (unbindSession σ session))
  | .updateResourceBindings agentId bindings => some <$> updateResourceBindings σ agentId bindings

def references (σ : RegistryState) : List Text :=
  σ.channelBindings.values ++ σ.accountBindings.values ++ σ.sessionBindings.values ++
    σ.defaultAgentId.toList

def validateState (σ : RegistryState) : Except Failure Unit :=
  let missing := (references σ).filter (fun agentId => agentId ∉ σ.agents.keys)
  if missing = [] then .ok () else .error (.danglingReferences missing)

structure ChannelRecord where
  channelType : Text
  agentId : Text

structure AccountRecord where
  channelType : Text
  adapterInstance : Text
  accountScope : Text
  agentId : Text

structure SessionRecord where
  sessionKey : Text
  agentId : Text

structure Payload where
  formatVersion : Nat
  agents : List (AgentFields BindingFields)
  defaultAgentId : Option Text
  channelBindings : List ChannelRecord
  accountBindings : List AccountRecord
  sessionBindings : List SessionRecord

def accountRecord (e : (Text × Text × Text) × Text) : AccountRecord := ⟨e.1.1, e.1.2.1, e.1.2.2, e.2⟩

def accountOrder (e : (Text × Text × Text) × Text) : Lex (Text × Lex (Text × Text)) := toLex (e.1.1, toLex e.1.2)

def serializeState (σ : RegistryState) : Payload where
  formatVersion := 1
  agents := (sortBy Prod.fst σ.agents.entries).map (fun e => agentToDict e.2)
  defaultAgentId := σ.defaultAgentId
  channelBindings := (sortBy Prod.fst σ.channelBindings.entries).map (fun e => ⟨e.1, e.2⟩)
  accountBindings := (sortBy accountOrder σ.accountBindings.entries).map accountRecord
  sessionBindings := (sortBy Prod.fst σ.sessionBindings.entries).map (fun e => ⟨e.1, e.2⟩)

def collect {κ ν : Type} [DecidableEq κ] (pairs : List (κ × ν)) : Dict κ ν :=
  pairs.foldl (fun d e => d.set e.1 e.2) .empty

def loadState (payload : Payload) : Except Failure RegistryState := do
  if payload.formatVersion ≠ 1 then fail "Agent registry format is invalid"
  else
    let agents ← payload.agents.mapM loadAgent
    let loaded := collect (agents.map (fun a => (a.agentId.text, a)))
    if loaded.entries.length ≠ payload.agents.length then fail "Agent registry contains duplicate Agent IDs"
    else
      let σ : RegistryState := {
        agents := loaded
        channelBindings := collect (payload.channelBindings.map (fun r => (channelKey r.channelType, r.agentId)))
        accountBindings := collect (payload.accountBindings.map (fun r =>
          (accountKey (r.channelType, r.adapterInstance, r.accountScope), r.agentId)))
        sessionBindings := collect (payload.sessionBindings.map (fun r => (r.sessionKey, r.agentId)))
        defaultAgentId := payload.defaultAgentId }
      let _ ← validateState σ
      return σ

/-- The definitions in memory and, with a registry path, what their file holds. -/
structure AgentRegistry where
  state : RegistryState
  persistent : Bool
  file : Option Payload

def writeState (fails : WriteStep → Bool) (next : RegistryState) (file : Option Payload) :
    Except Failure Unit × Option Payload :=
  if fails .mkdir || fails .mkstemp || fails .dump || fails .replace then (.error .osError, file)
  else if fails .unlink then (.error .osError, some (serializeState next))
  else (.ok (), some (serializeState next))

def commit (fails : WriteStep → Bool) (next : RegistryState) (r : AgentRegistry) :
    Except Failure Unit × AgentRegistry :=
  match validateState next with
  | .error e => (.error e, r)
  | .ok () =>
    if r.persistent then
      match writeState fails next r.file with
      | (.error e, file) => (.error e, { r with file := file })
      | (.ok (), file) => (.ok (), { r with state := next, file := file })
    else (.ok (), { r with state := next })

/-- An operation, its principal and the steps of its write that fail. -/
structure Call where
  operation : Operation
  principal : Option RuntimePrincipal
  fails : WriteStep → Bool

def perform (c : Call) (r : AgentRegistry) : Except Failure Unit × AgentRegistry :=
  match nextState c.principal r.state c.operation with
  | .error e => (.error e, r)
  | .ok none => (.ok (), r)
  | .ok (some next) => commit c.fails next r

def created (persistent : Bool) : AgentRegistry := ⟨emptyState, persistent, none⟩

def reached (persistent : Bool) (calls : List Call) : AgentRegistry :=
  calls.foldl (fun r c => (perform c r).2) (created persistent)

end Kirara.RegistryRecords
