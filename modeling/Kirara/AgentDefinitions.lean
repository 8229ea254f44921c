import Kirara.AgentRegistries
import Mathlib.Data.Finset.Sort
import Mathlib.Data.List.Lex

namespace Kirara.AgentDefinitions

open Kirara.Channels Kirara.AgentRegistries

/-- A text that has been stripped and is not empty. -/
abbrev Name := { t : Text // strip t = t ∧ t ≠ [] }

def name? (value : Text) : Option Name :=
  if h : strip value ≠ [] then some ⟨strip value, strip_strip value, h⟩ else none

def asTuple (values : List Text) : List Name := values.filterMap name?

def asFrozenset (values : List Text) : Finset Name := (asTuple values).toFinset

def texts (names : List Name) : List Text := names.map Subtype.val

/-- `sorted` on a set. -/
def sorted (names : Finset Name) : List Text := texts (names.sort (fun a b => a ≤ b))

/-- `str.lower`, where its result is ASCII. Elsewhere only the Kelvin sign becomes a letter. -/
def lowerChar (c : Char) : Char := if c.toNat = 0x212a then 'k' else c.toLower

def lower (t : Text) : Text := t.map lowerChar

def typeName : ResourceType → Text
  | .prompt => "prompt".toList
  | .skill => "skill".toList
  | .memory => "memory".toList
  | .mcp => "mcp".toList
  | .hook => "hook".toList

inductive VersionPolicy where
  | fixed
  | current
  deriving DecidableEq

def policyName : VersionPolicy → Text
  | .fixed => "fixed".toList
  | .current => "current".toList

def hexadecimal (c : Char) : Bool := ('0' ≤ c && c ≤ '9') || ('a' ≤ c && c ≤ 'f')

def isSha256 (t : Text) : Bool := t.length = 64 && t.all hexadecimal

def unknownResource : Identifier :=
  ⟨"unknown-resource".toList, by decide, by decide, legible_of_all (by decide)⟩

def localSource : Identifier := ⟨"local".toList, by decide, by decide, legible_of_all (by decide)⟩

def unversioned : Name := ⟨"unversioned".toList, by decide, by decide⟩

/-- The arguments of `ResourceBinding`. -/
structure BindingFields where
  resourceId : Text
  resourceType : Text
  version : Text
  contentSha256 : Text
  enabled : Bool
  permissions : List Text
  source : Text
  versionPolicy : Text

/-- A binding `__post_init__` accepts, as it leaves it. -/
structure ResourceBinding where
  resourceId : Identifier
  resourceType : ResourceType
  version : Name
  contentSha256 : Text
  enabled : Bool
  permissions : List Name
  source : Identifier
  versionPolicy : VersionPolicy
  digest : isSha256 contentSha256 = true

def parseType (value : Text) : Option ResourceType :=
  resourceTypes.find? (fun t => typeName t = lower (strip value))

def parsePolicy (value : Text) : Option VersionPolicy :=
  [VersionPolicy.fixed, .current].find? (fun p => policyName p = lower (strip value))

def BindingFields.construct (f : BindingFields) : Except Failure ResourceBinding :=
  match parseType f.resourceType with
  | none => .error (.valueError ("Unsupported runtime resource type: ".toList ++ lower (strip f.resourceType)))
  | some resourceType =>
    let contentSha256 := lower (strip f.contentSha256)
    if h : isSha256 contentSha256 = true then
      match parsePolicy f.versionPolicy with
      | none => fail "Resource version policy must be fixed or current"
      | some versionPolicy => .ok {
          resourceId := cleanIdentifier (some f.resourceId) unknownResource
          resourceType := resourceType
          version := (name? f.version).getD unversioned
          contentSha256 := contentSha256
          enabled := f.enabled
          permissions := asTuple f.permissions
          source := cleanIdentifier (some f.source) localSource
          versionPolicy := versionPolicy
          digest := h }
    else fail "Resource content hash must be a SHA-256 hexadecimal digest"

@[ext] structure ByType (β : Type) where
  prompt : List β
  skill : List β
  memory : List β
  mcp : List β
  hook : List β

def ByType.ofType {β : Type} (b : ByType β) : ResourceType → List β
  | .prompt => b.prompt
  | .skill => b.skill
  | .memory => b.memory
  | .mcp => b.mcp
  | .hook => b.hook

def ByType.map {β γ : Type} (f : β → γ) (b : ByType β) : ByType γ :=
  ⟨b.prompt.map f, b.skill.map f, b.memory.map f, b.mcp.map f, b.hook.map f⟩

def misplaced (b : ByType ResourceBinding) (t : ResourceType) : Bool :=
  (b.ofType t).any (fun item => item.resourceType ≠ t)

/-- `REPLY_STREAM_MODES`. -/
inductive ReplyStreamMode where
  | off
  | aggregate
  | incremental
  | inherit
  deriving DecidableEq

def modeName : ReplyStreamMode → Text
  | .off => "off".toList
  | .aggregate => "aggregate".toList
  | .incremental => "incremental".toList
  | .inherit => "inherit".toList

def parseMode (value : Text) : Option ReplyStreamMode :=
  [ReplyStreamMode.off, .aggregate, .incremental, .inherit].find? (fun m => modeName m = value)

/-- The arguments of `AgentDefinition`. -/
structure AgentFields (β : Type) where
  agentId : Text
  ownerSubject : Option Text
  displayName : Option Text
  enabled : Bool
  workflowId : Option Text
  modelPriority : List Text
  providerAllowlist : List Text
  capabilities : List Text
  bindings : ByType β
  mcpAllowlist : List Text
  allowTools : Bool
  maxToolIterations : Int
  teammateAgentIds : List Text
  replyStreamMode : Text

abbrev Teammates (agentId : Text) := { names : List Name // names.Nodup ∧ agentId ∉ texts names }

/-- A definition `__post_init__` accepts, as it leaves it. -/
structure AgentDefinition where
  agentId : Identifier
  ownerSubject : Option OwnerSubject
  displayName : Option Text
  enabled : Bool
  workflowId : Option Text
  modelPriority : List Name
  providerAllowlist : Finset Name
  capabilities : Finset Name
  bindings : ByType ResourceBinding
  mcpAllowlist : Finset Name
  allowTools : Bool
  maxToolIterations : Nat
  teammateAgentIds : Teammates agentId.text
  replyStreamMode : ReplyStreamMode
  typed : resourceTypes.find? (misplaced bindings) = none

def agentName : Identifier := ⟨"agent".toList, by decide, by decide, legible_of_all (by decide)⟩

def checkOwner (subject : Option Text) : Except Failure (Option OwnerSubject) :=
  match subject with
  | none => .ok none
  | some subject => some <$> ownerSubject subject

theorem teammates_snoc {agentId : Text} (names : Teammates agentId) {name : Name} (hn : name ∉ names.val)
    (ha : name.val ≠ agentId) : (names.val ++ [name]).Nodup ∧ agentId ∉ texts (names.val ++ [name]) := by
  obtain ⟨names, hnodup, hself⟩ := names
  constructor
  · exact List.nodup_append.mpr ⟨hnodup, List.nodup_singleton _, fun a hm b hb hab =>
      hn ((hab.trans (List.mem_singleton.mp hb)) ▸ hm)⟩
  · simpa [texts, not_or, Ne.symm ha] using hself

def collectTeammates (agentId : Text) : List Text → Teammates agentId → Except Failure (Teammates agentId)
  | [], names => .ok names
  | candidate :: rest, names =>
    match name? candidate with
    | none => collectTeammates agentId rest names
    | some name =>
      if hn : name ∈ names.val then collectTeammates agentId rest names
      else if ha : name.val = agentId then fail "teammate_agent_ids must not contain the Agent itself"
      else collectTeammates agentId rest ⟨names.val ++ [name], teammates_snoc names hn ha⟩

def noTeammates (agentId : Text) : Teammates agentId := ⟨[], List.nodup_nil, List.not_mem_nil⟩

/-- The rest of `__post_init__`, which checks the teammates and the bindings. -/
def AgentFields.normalize (f : AgentFields ResourceBinding) (agentId : Identifier) (owner : Option OwnerSubject)
    (mode : ReplyStreamMode) : Except Failure AgentDefinition :=
  match collectTeammates agentId.text f.teammateAgentIds (noTeammates _) with
  | .error e => .error e
  | .ok teammates =>
    match h : resourceTypes.find? (misplaced f.bindings) with
    | some t => .error (.valueError (fieldName t ++ " contains a resource of the wrong type".toList))
    | none => .ok {
        agentId := agentId
        ownerSubject := owner
        displayName := f.displayName
        enabled := f.enabled
        workflowId := f.workflowId
        modelPriority := asTuple f.modelPriority
        providerAllowlist := asFrozenset f.providerAllowlist
        capabilities := asFrozenset f.capabilities
        bindings := f.bindings
        mcpAllowlist := asFrozenset f.mcpAllowlist
        allowTools := f.allowTools
        maxToolIterations := f.maxToolIterations.toNat
        teammateAgentIds := teammates
        replyStreamMode := mode
        typed := h }

/-- `__post_init__`. That there is a model candidate is checked before the candidates are stripped. -/
def AgentFields.construct (f : AgentFields ResourceBinding) : Except Failure AgentDefinition :=
  match checkOwner f.ownerSubject with
  | .error e => .error e
  | .ok owner =>
    if f.modelPriority = [] then fail "Agent must define at least one model candidate"
    else if f.maxToolIterations < 0 then fail "max_tool_iterations must be non-negative"
    else
      match parseMode f.replyStreamMode with
      | none => fail "reply_stream_mode must be one of aggregate, incremental, inherit, off"
      | some mode => f.normalize (cleanIdentifier (some f.agentId) agentName) owner mode

/-- The fields that `dataclasses.replace` constructs a definition from. -/
def AgentDefinition.fields (a : AgentDefinition) : AgentFields ResourceBinding where
  agentId := a.agentId.text
  ownerSubject := a.ownerSubject.map OwnerSubject.text
  displayName := a.displayName
  enabled := a.enabled
  workflowId := a.workflowId
  modelPriority := texts a.modelPriority
  providerAllowlist := sorted a.providerAllowlist
  capabilities := sorted a.capabilities
  bindings := a.bindings
  mcpAllowlist := sorted a.mcpAllowlist
  allowTools := a.allowTools
  maxToolIterations := a.maxToolIterations
  teammateAgentIds := texts a.teammateAgentIds.val
  replyStreamMode := modeName a.replyStreamMode

def bindingToDict (b : ResourceBinding) : BindingFields where
  resourceId := b.resourceId.text
  resourceType := typeName b.resourceType
  version := b.version.val
  contentSha256 := b.contentSha256
  enabled := b.enabled
  permissions := texts b.permissions
  source := b.source.text
  versionPolicy := policyName b.versionPolicy

def AgentFields.withBindings {β γ : Type} (f : AgentFields β) (bindings : ByType γ) : AgentFields γ where
  agentId := f.agentId
  ownerSubject := f.ownerSubject
  displayName := f.displayName
  enabled := f.enabled
  workflowId := f.workflowId
  modelPriority := f.modelPriority
  providerAllowlist := f.providerAllowlist
  capabilities := f.capabilities
  bindings := bindings
  mcpAllowlist := f.mcpAllowlist
  allowTools := f.allowTools
  maxToolIterations := f.maxToolIterations
  teammateAgentIds := f.teammateAgentIds
  replyStreamMode := f.replyStreamMode

def agentToDict (a : AgentDefinition) : AgentFields BindingFields :=
  a.fields.withBindings (a.bindings.map bindingToDict)

def loadBinding (expected : ResourceType) (payload : BindingFields) : Except Failure ResourceBinding := do
  let binding ← payload.construct
  if binding.resourceType = expected then return binding
  else fail "Agent resource binding has the wrong type"

def loadBindings (b : ByType BindingFields) : Except Failure (ByType ResourceBinding) := do
  let prompt ← b.prompt.mapM (loadBinding .prompt)
  let skill ← b.skill.mapM (loadBinding .skill)
  let memory ← b.memory.mapM (loadBinding .memory)
  let mcp ← b.mcp.mapM (loadBinding .mcp)
  let hook ← b.hook.mapM (loadBinding .hook)
  return ⟨prompt, skill, memory, mcp, hook⟩

def loadAgent (payload : AgentFields BindingFields) : Except Failure AgentDefinition := do
  let bindings ← loadBindings payload.bindings
  (payload.withBindings bindings).construct

theorem name?_val (n : Name) : name? n.val = some n := by
  obtain ⟨t, hs, hne⟩ := n
  simp [name?, hs, hne]

@[simp] theorem asTuple_texts (names : List Name) : asTuple (texts names) = names := by
  unfold asTuple texts
  induction names with
  | nil => rfl
  | cons n names ih => rw [List.map_cons, List.filterMap_cons_some (name?_val n), ih]

@[simp] theorem asFrozenset_sorted (names : Finset Name) : asFrozenset (sorted names) = names := by
  rw [asFrozenset, sorted, asTuple_texts, Finset.sort_toFinset]

theorem hexadecimal_plain {c : Char} (h : hexadecimal c = true) : lowerChar c = c ∧ identifierChar c = true := by
  have hall : ∀ n < 128, hexadecimal (Char.ofNat n) = true →
      lowerChar (Char.ofNat n) = Char.ofNat n ∧ identifierChar (Char.ofNat n) = true := by
    decide +kernel
  have hascii : c.toNat < 128 := by
    simp only [hexadecimal, Bool.or_eq_true, Bool.and_eq_true, decide_eq_true_eq, Char.le_def,
      UInt32.le_iff_toNat_le] at h
    have hval : c.toNat = c.val.toNat := rfl
    have hnine : '9'.val.toNat = 57 := rfl
    have hf : 'f'.val.toNat = 102 := rfl
    omega
  exact ascii_induction (P := fun c => hexadecimal c = true → lowerChar c = c ∧ identifierChar c = true) hall hascii h

theorem lower_strip_of_isSha256 {t : Text} (h : isSha256 t = true) : lower (strip t) = t := by
  rw [isSha256, Bool.and_eq_true] at h
  have hplain : ∀ c ∈ t, lowerChar c = c ∧ identifierChar c = true :=
    fun c hc => hexadecimal_plain (List.all_eq_true.mp h.2 c hc)
  rw [strip_of_legible (fun c hc => (hplain c hc).2), lower]
  exact (List.map_congr_left (fun c hc => (hplain c hc).1)).trans (List.map_id t)

theorem construct_binding (b : ResourceBinding) : (bindingToDict b).construct = .ok b := by
  have htype : parseType (typeName b.resourceType) = some b.resourceType := by
    cases b.resourceType <;> decide
  have hpolicy : parsePolicy (policyName b.versionPolicy) = some b.versionPolicy := by
    cases b.versionPolicy <;> decide
  have hdigest := b.digest
  have hlower := lower_strip_of_isSha256 b.digest
  simp [BindingFields.construct, bindingToDict, htype, hpolicy, hdigest, hlower, name?_val]

theorem ownerSubject_text (s : OwnerSubject) : ownerSubject s.text = .ok s := by
  obtain ⟨t, hne, hb, hs⟩ := s
  simp [ownerSubject, hs, hne, hb]

theorem checkOwner_text (s : Option OwnerSubject) : checkOwner (s.map OwnerSubject.text) = .ok s := by
  cases s with
  | none => rfl
  | some s => simp [checkOwner, ownerSubject_text]

theorem parseMode_modeName (m : ReplyStreamMode) : parseMode (modeName m) = some m := by
  cases m <;> decide

theorem collectTeammates_texts {agentId : Text} (rest : List Name) (names : Teammates agentId)
    (h : (names.val ++ rest).Nodup ∧ agentId ∉ texts (names.val ++ rest)) :
    collectTeammates agentId (texts rest) names = .ok ⟨names.val ++ rest, h⟩ := by
  induction rest generalizing names with
  | nil =>
    rw [texts, List.map_nil, collectTeammates]
    exact congrArg Except.ok (Subtype.ext (List.append_nil _).symm)
  | cons n rest ih =>
    have hn : n ∉ names.val := by
      have hdisjoint := List.nodup_append.mp h.1
      exact fun hm => hdisjoint.2.2 n hm n List.mem_cons_self rfl
    have ha : n.val ≠ agentId := by
      intro he
      exact h.2 (by simp [texts, he])
    have hsplit : names.val ++ n :: rest = (names.val ++ [n]) ++ rest := by simp
    have hstep : collectTeammates agentId (texts (n :: rest)) names =
        collectTeammates agentId (texts rest) ⟨names.val ++ [n], teammates_snoc names hn ha⟩ := by
      rw [texts, List.map_cons, collectTeammates, name?_val]
      simp [hn, ha, texts]
    rw [hstep, ih _ (hsplit ▸ h)]
    exact congrArg Except.ok (Subtype.ext hsplit.symm)

theorem construct_fields (a : AgentDefinition) : a.fields.construct =
    if a.modelPriority = [] then fail "Agent must define at least one model candidate" else .ok a := by
  obtain ⟨agentId, owner, name, enabled, workflow, models, providers, capabilities, bindings, mcp, tools, iterations,
    teammates, mode, htyped⟩ := a
  have hteammates : collectTeammates agentId.text (texts teammates.val) (noTeammates _) = .ok teammates :=
    collectTeammates_texts teammates.val (noTeammates _) teammates.property
  by_cases hm : models = []
  · simp [AgentFields.construct, AgentDefinition.fields, checkOwner_text, hm, texts]
  have hne : texts models ≠ [] := fun h => hm (List.map_eq_nil_iff.mp h)
  have hiterations : ¬ (iterations : Int) < 0 := by omega
  simp only [AgentFields.construct, AgentDefinition.fields, checkOwner_text, parseMode_modeName, hne, hm,
    hiterations, if_false]
  rw [cleanIdentifier_self]
  simp only [AgentFields.normalize, hteammates, asTuple_texts, asFrozenset_sorted, Int.toNat_natCast]
  split
  · next t ht => cases htyped.symm.trans ht
  · rfl

theorem loadBinding_toDict (b : ResourceBinding) : loadBinding b.resourceType (bindingToDict b) = .ok b := by
  rw [loadBinding, construct_binding]
  exact if_pos rfl

theorem mapM_loadBinding {t : ResourceType} {bs : List ResourceBinding} (h : ∀ b ∈ bs, b.resourceType = t) :
    (bs.map bindingToDict).mapM (loadBinding t) = .ok bs := by
  induction bs with
  | nil => rfl
  | cons b bs ih =>
    have hb := loadBinding_toDict b
    rw [h b List.mem_cons_self] at hb
    rw [List.map_cons, List.mapM_cons, hb, ih (fun c hc => h c (List.mem_cons_of_mem b hc))]
    rfl

variable {b : ByType ResourceBinding}

theorem typed_ofType (h : resourceTypes.find? (misplaced b) = none) (t : ResourceType) :
    ∀ item ∈ b.ofType t, item.resourceType = t := by
  have hall := List.find?_eq_none.mp h t (by cases t <;> decide)
  intro item hi
  by_contra hne
  exact hall (List.any_eq_true.mpr ⟨item, hi, by simpa using hne⟩)

theorem loadBindings_toDict (h : resourceTypes.find? (misplaced b) = none) :
    loadBindings (b.map bindingToDict) = .ok b := by
  have hmap : ∀ t, ((b.ofType t).map bindingToDict).mapM (loadBinding t) = .ok (b.ofType t) :=
    fun t => mapM_loadBinding (typed_ofType h t)
  have hprompt := hmap .prompt
  have hskill := hmap .skill
  have hmemory := hmap .memory
  have hmcp := hmap .mcp
  have hhook := hmap .hook
  simp only [ByType.ofType] at hprompt hskill hmemory hmcp hhook
  simp only [loadBindings, ByType.map, hprompt, hskill, hmemory, hmcp, hhook]
  rfl

theorem loadAgent_toDict (a : AgentDefinition) : loadAgent (agentToDict a) =
    if a.modelPriority = [] then fail "Agent must define at least one model candidate" else .ok a := by
  rw [← construct_fields]
  have hbindings : loadBindings (agentToDict a).bindings = .ok a.bindings := loadBindings_toDict a.typed
  rw [loadAgent, hbindings]
  rfl

end Kirara.AgentDefinitions
