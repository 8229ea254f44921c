import Kirara.CreatorIdentity
import Kirara.Dicts

namespace Kirara.AgentRegistries

open Kirara.Channels Kirara.ChannelContexts Kirara.CreatorIdentity Kirara.Dicts

inductive Failure where
  | keyError (agentId : Text)
  | lookupError (message : Text)
  | valueError (message : Text)
  | danglingReferences (missing : List Text)
  | permissionError (message : Text)
  | typeError (message : Text)
  | osError
  deriving DecidableEq

inductive ResourceType where
  | prompt
  | skill
  | memory
  | mcp
  | hook
  deriving DecidableEq

structure ResourceBinding where
  resourceId : Text
  resourceType : ResourceType
  version : Text
  deriving DecidableEq

structure ResourceBindings where
  prompt : List ResourceBinding
  skill : List ResourceBinding
  memory : List ResourceBinding
  mcp : List ResourceBinding
  hook : List ResourceBinding
  deriving DecidableEq

def ResourceBindings.ofType (b : ResourceBindings) : ResourceType → List ResourceBinding
  | .prompt => b.prompt
  | .skill => b.skill
  | .memory => b.memory
  | .mcp => b.mcp
  | .hook => b.hook

def resourceTypes : List ResourceType := [.prompt, .skill, .memory, .mcp, .hook]

def fieldName : ResourceType → Text
  | .prompt => "prompt_bindings".toList
  | .skill => "skill_bindings".toList
  | .memory => "memory_bindings".toList
  | .mcp => "mcp_bindings".toList
  | .hook => "hook_bindings".toList

def ResourceBindings.misplaced (b : ResourceBindings) (t : ResourceType) : Bool :=
  (b.ofType t).any (fun item => item.resourceType ≠ t)

/-- A subject `__post_init__` accepts, as it leaves it. -/
@[ext] structure OwnerSubject where
  text : Text
  nonempty : text ≠ []
  bounded : text.length ≤ 256
  stripped : strip text = text
  deriving DecidableEq

def ownerSubject (subject : Text) : Except Failure OwnerSubject :=
  if h : strip subject ≠ [] ∧ (strip subject).length ≤ 256 then
    .ok ⟨strip subject, h.1, h.2, strip_strip subject⟩
  else .error (.valueError "Agent owner subject is invalid".toList)

/-- What the registry reads of an Agent, well formed as it is constructed. -/
structure AgentDefinition where
  agentId : Identifier
  ownerSubject : Option OwnerSubject
  enabled : Bool
  bindings : ResourceBindings
  mcpAllowlist : List Text
  typed : resourceTypes.find? bindings.misplaced = none

structure RegistryState where
  agents : Dict Text AgentDefinition
  channelBindings : Dict Text Text
  accountBindings : Dict (Text × Text × Text) Text
  sessionBindings : Dict Text Text
  defaultAgentId : Option Text

/-- The definitions in memory and the file they are kept in. -/
structure AgentRegistry where
  state : RegistryState
  persistent : Bool
  file : Option RegistryState

def emptyState : RegistryState := ⟨.empty, .empty, .empty, .empty, none⟩

def fail {α : Type} (message : String) : Except Failure α := .error (.valueError message.toList)

def supportedChannelTypes : List Text :=
  ["webui".toList, "http".toList, "onebot".toList, "qqbot".toList, "telegram".toList, "wecom".toList]

def channelKey (channelType : Text) : Text := (cleanIdentifier (some channelType) unknown).lower.text

def normalizeChannelType (channelType : Text) : Except Failure Text :=
  if channelKey channelType ∈ supportedChannelTypes then .ok (channelKey channelType)
  else .error (.valueError ("Unsupported channel type: ".toList ++ channelKey channelType))

def accountPart (part : Text) : Text := (cleanIdentifier (some part) defaultScope).text

def normalizeAccount (account : Text × Text × Text) : Except Failure (Text × Text × Text) := do
  let channel ← normalizeChannelType account.1
  return (channel, accountPart account.2.1, accountPart account.2.2)

def sessionChannel (key : Text) : Text := key.takeWhile (· ≠ '/')

/-- `secrets.compare_digest` on two strings, which have to be ASCII. -/
def compareDigest (a b : Text) : Except Failure Bool :=
  if a.all (·.toNat < 128) && b.all (·.toNat < 128) then .ok (a = b)
  else .error (.typeError "comparing strings with non-ASCII characters is not supported".toList)

def bindCreationOwner (principal : Option RuntimePrincipal) (agent : AgentDefinition) :
    Except Failure AgentDefinition :=
  match agent.ownerSubject, principal.filter RuntimePrincipal.isCreator with
  | none, none => .ok agent
  | none, some creator => do
    let owner ← ownerSubject creator.subject
    return { agent with ownerSubject := some owner }
  | some _, none =>
    .error (.permissionError "Agent owner can only be assigned by the matching creator".toList)
  | some owner, some creator => do
    if ← compareDigest creator.subject owner.text then return agent
    else throw (.permissionError "Agent owner can only be assigned by the matching creator".toList)

def preserveOwner (current replacement : AgentDefinition) : Except Failure AgentDefinition :=
  match current.ownerSubject, replacement.ownerSubject with
  | none, some _ => fail "Agent owner cannot be assigned after creation"
  | none, none => .ok replacement
  | some owner, none => .ok { replacement with ownerSubject := some owner }
  | some owner, some other => do
    if ← compareDigest owner.text other.text then return replacement
    else fail "Agent owner cannot be transferred"

variable (σ : RegistryState)

def getAgent (agentId : Text) : Except Failure AgentDefinition :=
  match σ.agents.get agentId with
  | some agent => .ok agent
  | none => .error (.lookupError ("Unknown Agent: ".toList ++ agentId))

def requireEnabled (agentId : Text) : Except Failure AgentDefinition := do
  let agent ← getAgent σ agentId
  if agent.enabled then return agent
  else throw (.valueError ("Agent is disabled: ".toList ++ agentId))

def putAgent (agentId : Text) (agent : AgentDefinition) : RegistryState :=
  { σ with agents := σ.agents.set agentId agent }

def setEnabled (agentId : Text) (enabled : Bool) : Except Failure RegistryState := do
  let agent ← getAgent σ agentId
  if !enabled && σ.defaultAgentId = some agentId then
    fail "The global default Agent cannot be disabled"
  else return putAgent σ agentId { agent with enabled := enabled }

def alreadyRegistered (agentId : Text) : Failure :=
  .valueError ("Agent already registered: ".toList ++ agentId)

def register (principal : Option RuntimePrincipal) (agent : AgentDefinition) :
    Except Failure RegistryState := do
  if (σ.agents.get agent.agentId.text).isSome then throw (alreadyRegistered agent.agentId.text)
  else
    let agent ← bindCreationOwner principal agent
    let next := putAgent σ agent.agentId.text agent
    if next.defaultAgentId = none ∧ agent.agentId.text = "default".toList then
      return { next with defaultAgentId := some agent.agentId.text }
    else return next

def update (agent : AgentDefinition) : Except Failure RegistryState :=
  match σ.agents.get agent.agentId.text with
  | none => .error (.keyError agent.agentId.text)
  | some current => do
    let agent ← preserveOwner current agent
    return putAgent σ agent.agentId.text agent

def removeAgent (agentId : Text) : Except Failure (Option RegistryState) :=
  if σ.agents.get agentId = none then .ok none
  else if σ.defaultAgentId = some agentId then fail "The global default Agent cannot be removed"
  else if agentId ∈ σ.channelBindings.values then
    fail "An Agent with a channel binding cannot be removed"
  else if agentId ∈ σ.accountBindings.values then
    fail "An Agent with an account binding cannot be removed"
  else if agentId ∈ σ.sessionBindings.values then
    fail "An Agent with a session binding cannot be removed"
  else .ok (some { σ with agents := σ.agents.pop agentId })

def setDefault (agentId : Text) : Except Failure RegistryState := do
  let _ ← requireEnabled σ agentId
  return { σ with defaultAgentId := some agentId }

structure Relations where
  channels : List Text
  accounts : List (Text × Text × Text)
  sessions : List Text
  isDefault : Bool

def normalizeSession (session : Text) : Except Failure Text :=
  if strip session = [] then fail "session relation cannot be empty" else .ok (strip session)

def Relations.normalize (relations : Relations) : Except Failure Relations := do
  let channels ← relations.channels.mapM normalizeChannelType
  let accounts ← relations.accounts.mapM normalizeAccount
  let sessions ← relations.sessions.mapM normalizeSession
  let _ ← sessions.mapM (fun session => normalizeChannelType (sessionChannel session))
  return ⟨channels, accounts, sessions, relations.isDefault⟩

def Relations.any (relations : Relations) : Bool :=
  relations.isDefault || !relations.channels.isEmpty || !relations.accounts.isEmpty ||
    !relations.sessions.isEmpty

def rebind {κ : Type} [DecidableEq κ] (agentId : Text) (keys : List κ) (bindings : Dict κ Text) :
    Dict κ Text :=
  keys.foldl (fun d key => d.set key agentId) (bindings.filter (fun p => p.2 ≠ agentId))

def configuredOwner (principal : Option RuntimePrincipal) (agent : AgentDefinition)
    (create : Bool) : Except Failure AgentDefinition :=
  match σ.agents.get agent.agentId.text with
  | some current =>
    if create then .error (alreadyRegistered agent.agentId.text) else preserveOwner current agent
  | none =>
    if create then bindCreationOwner principal agent else .error (.keyError agent.agentId.text)

def configuredDefault (agentId : Text) (isDefault : Bool) : Option Text :=
  if isDefault then some agentId
  else if σ.defaultAgentId = some agentId then none
  else σ.defaultAgentId

def configure (principal : Option RuntimePrincipal) (agent : AgentDefinition)
    (relations : Relations) (create : Bool) : Except Failure RegistryState := do
  let agent ← configuredOwner σ principal agent create
  let relations ← relations.normalize
  if !agent.enabled && relations.any then
    throw (.valueError ("Agent is disabled: ".toList ++ agent.agentId.text))
  else
    let id := agent.agentId.text
    return {
      agents := σ.agents.set id agent
      channelBindings := rebind id relations.channels σ.channelBindings
      accountBindings := rebind id relations.accounts σ.accountBindings
      sessionBindings := rebind id relations.sessions σ.sessionBindings
      defaultAgentId := configuredDefault σ id relations.isDefault }

def bindChannel (channelType agentId : Text) : Except Failure RegistryState := do
  let _ ← requireEnabled σ agentId
  let channel ← normalizeChannelType channelType
  return { σ with channelBindings := σ.channelBindings.set channel agentId }

def unbindChannel (channelType : Text) : RegistryState :=
  { σ with channelBindings := σ.channelBindings.pop (channelKey channelType) }

def bindAccount (account : Text × Text × Text) (agentId : Text) : Except Failure RegistryState := do
  let _ ← requireEnabled σ agentId
  let key ← normalizeAccount account
  return { σ with accountBindings := σ.accountBindings.set key agentId }

def unbindAccount (account : Text × Text × Text) : RegistryState :=
  { σ with
    accountBindings := σ.accountBindings.pop
      (channelKey account.1, accountPart account.2.1, accountPart account.2.2) }

/-- A session is named by its key or by the context of a message. -/
inductive SessionName where
  | key (name : Text)
  | context (c : ChannelContext)

def SessionName.bound : SessionName → Text
  | .key name => name
  | .context c => sessionKey c

def SessionName.keys : SessionName → List Text
  | .key name => [name]
  | .context c => [sessionKey c, legacySessionKey c]

def bindSession (session : SessionName) (agentId : Text) : Except Failure RegistryState := do
  let _ ← requireEnabled σ agentId
  let _ ← normalizeChannelType (sessionChannel session.bound)
  return { σ with sessionBindings := σ.sessionBindings.set session.bound agentId }

def unbindSession (session : SessionName) : RegistryState :=
  { σ with sessionBindings := session.keys.foldl Dict.pop σ.sessionBindings }

/-- The arguments of `update_resource_bindings`. What is not given is kept. -/
structure BindingUpdate where
  prompt : List ResourceBinding
  skill : List ResourceBinding
  mcp : List ResourceBinding
  memory : Option (List ResourceBinding)
  hook : Option (List ResourceBinding)
  mcpAllowlist : Option (List Text)

def AgentDefinition.withBindings (agent : AgentDefinition) (bindings : ResourceBindings)
    (mcpAllowlist : List Text) : Except Failure AgentDefinition :=
  match h : resourceTypes.find? bindings.misplaced with
  | some t => .error (.valueError (fieldName t ++ " contains a resource of the wrong type".toList))
  | none => .ok { agent with bindings := bindings, mcpAllowlist := mcpAllowlist, typed := h }

def updateResourceBindings (agentId : Text) (u : BindingUpdate) : Except Failure RegistryState := do
  let agent ← getAgent σ agentId
  let updated ← agent.withBindings
    ⟨u.prompt, u.skill, u.memory.getD agent.bindings.memory, u.mcp,
      u.hook.getD agent.bindings.hook⟩ (u.mcpAllowlist.getD agent.mcpAllowlist)
  return putAgent σ agentId updated

inductive Operation where
  | register (agent : AgentDefinition)
  | update (agent : AgentDefinition)
  | configure (agent : AgentDefinition) (relations : Relations) (create : Bool)
  | remove (agentId : Text)
  | setEnabled (agentId : Text) (enabled : Bool)
  | setDefault (agentId : Text)
  | bindChannel (channelType agentId : Text)
  | unbindChannel (channelType : Text)
  | bindAccount (account : Text × Text × Text) (agentId : Text)
  | unbindAccount (account : Text × Text × Text)
  | bindSession (session : SessionName) (agentId : Text)
  | unbindSession (session : SessionName)
  | updateResourceBindings (agentId : Text) (bindings : BindingUpdate)

def nextState (principal : Option RuntimePrincipal) (σ : RegistryState) :
    Operation → Except Failure (Option RegistryState)
  | .register agent => some <$> register σ principal agent
  | .update agent => some <$> update σ agent
  | .configure agent relations create => some <$> configure σ principal agent relations create
  | .remove agentId => removeAgent σ agentId
  | .setEnabled agentId enabled => some <$> setEnabled σ agentId enabled
  | .setDefault agentId => some <$> setDefault σ agentId
  | .bindChannel channelType agentId => some <$> bindChannel σ channelType agentId
  | .unbindChannel channelType => .ok (some (unbindChannel σ channelType))
  | .bindAccount account agentId => some <$> bindAccount σ account agentId
  | .unbindAccount account => .ok (some (unbindAccount σ account))
  | .bindSession session agentId => some <$> bindSession σ session agentId
  | .unbindSession session => .ok (some (unbindSession σ session))
  | .updateResourceBindings agentId bindings => some <$> updateResourceBindings σ agentId bindings

def references (σ : RegistryState) : List Text :=
  σ.channelBindings.values ++ σ.accountBindings.values ++ σ.sessionBindings.values ++
    σ.defaultAgentId.toList

def validateState (σ : RegistryState) : Except Failure Unit :=
  let missing := (references σ).filter (fun agentId => agentId ∉ σ.agents.keys)
  if missing = [] then .ok () else .error (.danglingReferences missing)

inductive WriteStep where
  | mkdir
  | mkstemp
  | dump
  | replace
  | unlink
  deriving DecidableEq

/-- The replacement is the one step that changes the file. -/
def writeState (fails : WriteStep → Bool) (next : RegistryState) (file : Option RegistryState) :
    Except Failure Unit × Option RegistryState :=
  if fails .mkdir || fails .mkstemp || fails .dump || fails .replace then (.error .osError, file)
  else if fails .unlink then (.error .osError, some next)
  else (.ok (), some next)

def commit (fails : WriteStep → Bool) (next : RegistryState) (r : AgentRegistry) :
    Except Failure Unit × AgentRegistry :=
  match validateState next with
  | .error e => (.error e, r)
  | .ok () =>
    if r.persistent then
      match writeState fails next r.file with
      | (.error e, file) => (.error e, { r with file := file })
      | (.ok (), file) => (.ok (), { r with state := next, file := file })
    else (.ok (), { r with state := next })

/-- An operation, its principal and the steps of its write that fail. -/
structure Call where
  operation : Operation
  principal : Option RuntimePrincipal
  fails : WriteStep → Bool

def perform (c : Call) (r : AgentRegistry) : Except Failure Unit × AgentRegistry :=
  match nextState c.principal r.state c.operation with
  | .error e => (.error e, r)
  | .ok none => (.ok (), r)
  | .ok (some next) => commit c.fails next r

end Kirara.AgentRegistries
