import Kirara.JsonTexts
import Kirara.ToolNames

namespace Kirara.ConfirmedTools

open Kirara.Channels Kirara.Dicts Kirara.JsonTexts Kirara.ToolNames

structure ToolInfo where
  description : Option Text
  inputSchema : List (Text × Value)

abbrev Entry := ToolCacheEntry ToolInfo

/-- `_tool_signature`. That there is no tool has a signature of its own. -/
def toolSignature (entry : Option Entry) : Option (Text × Text × Text × Text × Text) :=
  entry.map (fun e => (e.serverId, e.originalName, e.toolInfo.name, e.toolInfo.info.description.getD [],
    dumps (.object e.toolInfo.info.inputSchema)))

/-- The texts that name something, without the blanks around them. -/
def cleaned (values : List Text) : List Text := (values.map strip).filter (fun t => t ≠ [])

/-- What a tool of the cache is called in a policy. -/
structure Identity where
  serverId : Text
  originalName : Text
  deriving DecidableEq

def Identity.canonicalName (i : Identity) : Text := i.serverId ++ '.' :: i.originalName

def originalNameOf (name : Text) (e : Entry) : Text :=
  strip (if e.originalName ≠ [] then e.originalName else if e.toolInfo.name ≠ [] then e.toolInfo.name else name)

def identities (entries : ToolsCache ToolInfo) (bound : List Text) : Dict Text Identity :=
  entries.entries.foldl (fun found p =>
    if strip p.2.serverId = [] ∨ strip p.2.serverId ∉ cleaned bound ∨ originalNameOf p.1 p.2 = [] then found
    else found.set (strip p.1) ⟨strip p.2.serverId, originalNameOf p.1 p.2⟩) Dict.empty

def only (names : List Text) : List Text := if names.dedup.length = 1 then names.dedup else []

def resolveToken (found : Dict Text Identity) (token : Text) : List Text :=
  let canonical := (found.entries.filter (fun p => p.2.canonicalName = token)).map Prod.fst
  if canonical.length = 1 then canonical
  else
    only ((found.entries.filter (fun p => p.2.originalName = token)).map Prod.fst ++
      if token ∈ found.keys then [token] else [])

def resolveTokens (found : Dict Text Identity) (values : List Text) : List Text :=
  (cleaned values).flatMap (resolveToken found)

def expansions (found : Dict Text Identity) (agentAllowlist values : List Text) : List Text :=
  let agent := resolveTokens found agentAllowlist
  let candidate := resolveTokens found values
  let unresolved := (cleaned values).filter (fun t => t ∉ cleaned agentAllowlist)
  if ∀ t ∈ candidate, t ∈ agent then
    unresolved.filter (fun t => ¬ (∀ u ∈ resolveTokens found [t], u ∈ agent) ∨ resolveTokens found [t] = [])
  else unresolved ++ candidate.filter (fun t => t ∉ agent)

def narrow (found : Dict Text Identity) (agentAllowlist : List Text) (values : Option (List Text)) (effective : List Text) :
    Option (List Text) :=
  match values with
  | none => some effective
  | some values =>
    if expansions found agentAllowlist values = [] then
      some (effective.filter (fun t => t ∈ resolveTokens found values))
    else none

structure Policy where
  agentAllowlist : List Text
  mcpServerIds : List Text
  sessionAllowlist : Option (List Text)
  workflowAllowlist : Option (List Text)

def resolveMcpToolAllowlist (policy : Policy) (entries : ToolsCache ToolInfo) : Option (List Text) :=
  let found := identities entries policy.mcpServerIds
  (narrow found policy.agentAllowlist policy.sessionAllowlist (resolveTokens found policy.agentAllowlist)).bind
    (narrow found policy.agentAllowlist policy.workflowAllowlist)

inductive ConnectionState where
  | disconnected
  | connecting
  | connected
  | disconnecting
  | error
  deriving DecidableEq

structure Server where
  state : ConnectionState
  session : Bool
  deriving DecidableEq

/-- The record of a paused turn, with the tool whose signature it holds. -/
structure PendingConfirmation where
  name : Text
  policy : Policy
  recorded : Option Entry

def PendingConfirmation.toolSignature (p : PendingConfirmation) : Option (Text × Text × Text × Text × Text) :=
  ConfirmedTools.toolSignature p.recorded

structure Invocation where
  serverId : Text
  originalName : Text
  inputSchema : List (Text × Value)

/-- The tools, the records that wait for the user, and the tools called for a confirmation. -/
structure State where
  cache : ToolsCache ToolInfo
  servers : Dict Text Server
  pending : List PendingConfirmation
  hooked : List PendingConfirmation
  invoked : List (PendingConfirmation × Invocation)

def toolIsConnected (servers : Dict Text Server) (entry : Option Entry) : Bool :=
  match entry with
  | none => false
  | some e => ((servers.get e.serverId).map Server.state) = some .connected

/-- What `confirm` checks before the hook. -/
def checks (s : State) (p : PendingConfirmation) : Bool :=
  match resolveMcpToolAllowlist p.policy s.cache with
  | none => false
  | some effective =>
    p.name ∈ effective && toolSignature (s.cache.get p.name) = p.toolSignature && toolIsConnected s.servers (s.cache.get p.name)

/-- `call_tool`, for a call that is confirmed. -/
def callTool (s : State) (p : PendingConfirmation) (authorized : Bool) : Option Invocation :=
  if !authorized then none
  else
    match s.cache.get p.name, getToolServer s.servers.keys s.cache p.name with
    | some entry, some (serverId, originalName) =>
      if entry.serverId ∉ cleaned p.policy.mcpServerIds then none
      else
        match resolveMcpToolAllowlist p.policy s.cache with
        | none => none
        | some allowed =>
          if p.name ∉ allowed then none
          else if s.servers.get serverId = some ⟨.connected, true⟩ then
            some ⟨serverId, originalName, entry.toolInfo.info.inputSchema⟩
          else none
    | _, _ => none

/-- What happens between two awaits. -/
inductive Event where
  /-- A server connects, is disconnected, or has a new list of tools. -/
  | cache (operation : Operation ToolInfo)
  | server (serverId : Text) (server : Server)
  | forget (serverId : Text)
  /-- A turn pauses at a call. -/
  | pause (name : Text) (policy : Policy)
  /-- A user approves; whether the Agent and its owner are as they were. -/
  | confirm (index : Nat) (unchanged : Bool)
  /-- A hook refuses the call. -/
  | deny (index : Nat)
  /-- A hook has let the call through. -/
  | call (index : Nat) (authorized : Bool)

def step (s : State) : Event → State
  | .cache operation =>
    { s with cache := (ToolNames.step ⟨s.cache, fun _ => []⟩ operation).cache }
  | .server serverId server => { s with servers := s.servers.set serverId server }
  | .forget serverId => { s with servers := s.servers.pop serverId }
  | .pause name policy => { s with pending := s.pending ++ [⟨name, policy, s.cache.get name⟩] }
  | .confirm index unchanged =>
    match s.pending[index]? with
    | none => s
    | some p =>
      { s with
        pending := s.pending.eraseIdx index
        hooked := if unchanged && checks s p then s.hooked ++ [p] else s.hooked }
  | .deny index => { s with hooked := s.hooked.eraseIdx index }
  | .call index authorized =>
    match s.hooked[index]? with
    | none => s
    | some p =>
      { s with
        hooked := s.hooked.eraseIdx index
        invoked := s.invoked ++ (callTool s p authorized).toList.map (fun i => (p, i)) }

def run (s : State) (events : List Event) : State := events.foldl step s

def started (cache : ToolsCache ToolInfo) (servers : Dict Text Server) : State := ⟨cache, servers, [], [], []⟩

def Approved (p : PendingConfirmation) (i : Invocation) : Prop :=
  ∃ e, p.recorded = some e ∧ i.serverId = e.serverId ∧ i.originalName = e.originalName ∧
    sorted (.object i.inputSchema) = sorted (.object e.toolInfo.info.inputSchema)

def Safe (s : State) : Prop := ∀ c ∈ s.invoked, Approved c.1 c.2

def toolIdentity (entry : Option Entry) : Option (Text × Text × Text) :=
  entry.map (fun e => (e.serverId, e.originalName, dumps (.object e.toolInfo.info.inputSchema)))

def Shows (cache : ToolsCache ToolInfo) (p : PendingConfirmation) : Prop :=
  cache.get p.name = none ∨ toolIdentity (cache.get p.name) = toolIdentity p.recorded

instance (cache : ToolsCache ToolInfo) (p : PendingConfirmation) : Decidable (Shows cache p) :=
  inferInstanceAs (Decidable (_ ∨ _))

/-- While a hook runs, no server lists another tool under the approved name. -/
def Careful (s : State) : Event → Prop
  | .cache (.update serverId tools) => ∀ p ∈ s.hooked, Shows (updateToolsCache serverId tools s.cache) p
  | _ => True

instance decidableCareful (s : State) : ∀ event, Decidable (Careful s event)
  | .cache (.update serverId tools) => inferInstanceAs (Decidable (∀ p ∈ s.hooked, Shows (updateToolsCache serverId tools s.cache) p))
  | .cache (.remove _) | .cache (.clear _) | .server _ _ | .forget _ | .pause _ _ | .confirm _ _ | .deny _ | .call _ _ =>
    isTrue trivial

def CarefulRun (s : State) : List Event → Prop
  | [] => True
  | event :: events => Careful s event ∧ CarefulRun (step s event) events

instance decidableCarefulRun : ∀ s events, Decidable (CarefulRun s events)
  | _, [] => isTrue trivial
  | s, event :: events =>
    have := decidableCarefulRun (step s event) events
    inferInstanceAs (Decidable (_ ∧ _))

variable {s : State} {p : PendingConfirmation} {cache : ToolsCache ToolInfo} {event : Event} {events : List Event}

theorem identity_of_signature {e e' : Option Entry} (h : toolSignature e = toolSignature e') :
    toolIdentity e = toolIdentity e' := by
  have hidentity (e : Option Entry) : toolIdentity e = (toolSignature e).map (fun t => (t.1, t.2.1, t.2.2.2.2)) := by
    rw [toolSignature, Option.map_map]
    rfl
  rw [hidentity, hidentity, h]

theorem shows_removed {serverId : Text} (h : Shows cache p) : Shows (removeServerTools serverId cache) p := by
  cases hget : (removeServerTools serverId cache).get p.name with
  | none => exact .inl hget
  | some e =>
    have hbefore := (get_removeServerTools.mp hget).1
    cases h with
    | inl h => exact absurd (h.symm.trans hbefore) (by simp)
    | inr h => exact .inr (by rw [hget, ← hbefore, h])

theorem shows_of_checks (h : checks s p = true) : Shows s.cache p := by
  unfold checks at h
  split at h
  · cases h
  · rw [Bool.and_eq_true, Bool.and_eq_true, decide_eq_true_eq, decide_eq_true_eq] at h
    exact .inr (identity_of_signature h.1.2)

theorem callTool_spec {authorized : Bool} {i : Invocation} (h : callTool s p authorized = some i) :
    ∃ e, s.cache.get p.name = some e ∧ i = ⟨e.serverId, e.originalName, e.toolInfo.info.inputSchema⟩ := by
  unfold callTool at h
  split at h
  · cases h
  split at h
  · next entry serverId originalName hget hserver =>
    split at h
    · cases h
    split at h
    · cases h
    split at h
    · cases h
    split at h
    · rw [getToolServer, hget] at hserver
      dsimp only at hserver
      split at hserver
      · obtain ⟨rfl, rfl⟩ := Prod.mk.inj (Option.some.inj hserver)
        exact ⟨entry, hget, (Option.some.inj h).symm⟩
      · cases hserver
    · cases h
  · cases h

theorem approved_call {authorized : Bool} {i : Invocation} (hshows : Shows s.cache p)
    (h : callTool s p authorized = some i) : Approved p i := by
  obtain ⟨e, hget, rfl⟩ := callTool_spec h
  cases hshows with
  | inl hnone => exact absurd (hnone.symm.trans hget) (by simp)
  | inr hidentity =>
    rw [hget] at hidentity
    obtain ⟨r, hr, hsame⟩ := Option.map_eq_some_iff.mp hidentity.symm
    obtain ⟨hserver, hrest⟩ := Prod.mk.inj hsame
    obtain ⟨hname, hschema⟩ := Prod.mk.inj hrest
    exact ⟨r, hr, hserver.symm, hname.symm, (dumps_eq_iff.mp hschema).symm⟩

/-- Every call whose hook runs finds the recorded tool under its name, or none. -/
structure Inv (s : State) : Prop where
  hooked : ∀ p ∈ s.hooked, Shows s.cache p
  safe : Safe s

theorem inv_step (hs : Inv s) (h : Careful s event) : Inv (step s event) := by
  cases event with
  | cache operation =>
    refine ⟨fun p hp => ?_, hs.safe⟩
    cases operation with
    | update serverId tools => exact h p hp
    | remove serverId => exact shows_removed (hs.hooked p hp)
    | clear serverId => exact shows_removed (hs.hooked p hp)
  | server serverId server => exact ⟨hs.hooked, hs.safe⟩
  | forget serverId => exact ⟨hs.hooked, hs.safe⟩
  | pause name policy => exact ⟨hs.hooked, hs.safe⟩
  | confirm index unchanged =>
    rw [step]
    split
    · exact hs
    next p hp =>
    refine ⟨fun q hq => ?_, hs.safe⟩
    dsimp only at hq
    split at hq
    · next hchecks =>
      cases List.mem_append.mp hq with
      | inl hq => exact hs.hooked q hq
      | inr hq =>
        rw [List.mem_singleton.mp hq]
        exact shows_of_checks ((Bool.and_eq_true _ _).mp hchecks).2
    · exact hs.hooked q hq
  | deny index => exact ⟨fun p hp => hs.hooked p (List.mem_of_mem_eraseIdx hp), hs.safe⟩
  | call index authorized =>
    rw [step]
    split
    · exact hs
    next p hp =>
    refine ⟨fun q hq => hs.hooked q (List.mem_of_mem_eraseIdx hq), fun c hc => ?_⟩
    cases List.mem_append.mp hc with
    | inl hc => exact hs.safe c hc
    | inr hc =>
      obtain ⟨i, hi, rfl⟩ := List.mem_map.mp hc
      exact approved_call (hs.hooked p (List.mem_of_getElem? hp)) (Option.mem_toList.mp hi)

theorem inv_run (hs : Inv s) (h : CarefulRun s events) : Inv (run s events) := by
  induction events generalizing s with
  | nil => exact hs
  | cons event events ih => exact ih (inv_step hs h.1) h.2

/-- While no server puts another tool under an approved name, each called tool is the approved
one. -/
theorem approved_tools_called (cache : ToolsCache ToolInfo) (servers : Dict Text Server)
    (h : CarefulRun (started cache servers) events) : Safe (run (started cache servers) events) := by
  have hstart : Inv (started cache servers) := ⟨fun p hp => (nomatch hp), fun c hc => (nomatch hc)⟩
  exact (inv_run hstart h).safe

def toolNamed (name : String) : Tool ToolInfo := ⟨name.toList, none, []⟩

/-- An Agent that may call a tool of either of two servers. -/
def policy : Policy := ⟨["x".toList], [['a'], ['b']], none, none⟩

def connected : List Event := [.server ['a'] ⟨.connected, true⟩, .server ['b'] ⟨.connected, true⟩]

def approving : List Event :=
  connected ++ [.cache (.update ['a'] [toolNamed "x"]), .pause "x".toList policy, .confirm 0 true,
    .cache (.update ['b'] [toolNamed "y"]), .call 0 true]

theorem approved_approving : (run (started Dict.empty Dict.empty) approving).invoked.length = 1 ∧
    Safe (run (started Dict.empty Dict.empty) approving) :=
  ⟨by decide +kernel, approved_tools_called Dict.empty Dict.empty (by decide +kernel)⟩

/-- While the hook runs, another server takes the name. -/
def nameTaking : List Event :=
  connected ++ [.cache (.update ['a'] [toolNamed "x"]), .pause "x".toList policy, .confirm 0 true,
    .cache (.clear ['a']), .cache (.update ['b'] [toolNamed "x"]), .call 0 true]

theorem other_tool_called : ¬ ∀ events, Safe (run (started Dict.empty Dict.empty) events) := by
  intro h
  have hservers : (run (started Dict.empty Dict.empty) nameTaking).invoked.map
      (fun c => (c.2.serverId, c.1.recorded.map ToolCacheEntry.serverId)) = [(['b'], some ['a'])] := by
    decide +kernel
  have hmem := hservers.symm ▸ List.mem_singleton_self ((['b'], some ['a']) : Text × Option Text)
  obtain ⟨c, hc, hpair⟩ := List.mem_map.mp hmem
  obtain ⟨e, he, hserver, -⟩ := h nameTaking c hc
  obtain ⟨hb, ha⟩ := Prod.mk.inj hpair
  rw [he] at ha
  have hsame : (['b'] : Text) = ['a'] := hb.symm.trans (hserver.trans (Option.some.inj ha))
  exact absurd hsame (by decide)

end Kirara.ConfirmedTools
