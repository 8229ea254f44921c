import Kirara.AgentDefinitions
import Kirara.Fallible
import Kirara.ToolNames
import Mathlib.Data.Finset.Union

namespace Kirara.ToolAllowlists

open Kirara Kirara.Channels Kirara.Dicts Kirara.AgentDefinitions Kirara.ToolNames

variable {τ : Type}

/-- What a policy may call a tool, apart from its name in the cache. -/
structure ToolIdentity where
  serverId : Text
  originalName : Text
  deriving DecidableEq

def ToolIdentity.canonicalName (identity : ToolIdentity) : Text :=
  identity.serverId ++ '.' :: identity.originalName

/-- `_as_frozenset` of what may be missing. -/
def tokensOf (values : Option (List Text)) : Finset Text :=
  (texts (asTuple (values.getD []))).toFinset

/-- `name or other`. -/
def orElse (name other : Text) : Text := if name = [] then other else name

def isBound (boundServers : Option (Finset Text)) (serverId : Text) : Bool :=
  serverId ≠ [] && boundServers.all (fun servers => serverId ∈ servers)

def identityOf (boundServers : Option (Finset Text)) (cacheName : Text)
    (entry : ToolCacheEntry τ) : Option (Text × ToolIdentity) :=
  let serverId := strip entry.serverId
  let originalName := strip (orElse entry.originalName (orElse entry.toolInfo.name cacheName))
  if !isBound boundServers serverId || originalName = [] then none
  else some (strip cacheName, ⟨serverId, originalName⟩)

def addIdentity (boundServers : Option (Finset Text)) (identities : Dict Text ToolIdentity)
    (entry : Text × ToolCacheEntry τ) : Dict Text ToolIdentity :=
  match identityOf boundServers entry.1 entry.2 with
  | none => identities
  | some (displayName, identity) => identities.set displayName identity

def identitiesOf (boundServers : Option (Finset Text)) (toolEntries : ToolsCache τ) :
    Dict Text ToolIdentity :=
  toolEntries.entries.foldl (addIdentity boundServers) Dict.empty

section Resolution

variable (identities : Dict Text ToolIdentity)

/-- `canonical_index.get(token, set())`. -/
def canonicalMatches (token : Text) : Finset Text :=
  ((identities.entries.filter fun p => p.2.canonicalName = token).map Prod.fst).toFinset

/-- `original_index.get(token, set())`. -/
def originalMatches (token : Text) : Finset Text :=
  ((identities.entries.filter fun p => p.2.originalName = token).map Prod.fst).toFinset

def cacheMatches (token : Text) : Finset Text := if token ∈ identities.keys then {token} else ∅

def compatibilityMatches (token : Text) : Finset Text :=
  originalMatches identities token ∪ cacheMatches identities token

/-- The body of the loop of `resolve`. -/
def resolveToken (token : Text) : Finset Text :=
  if (canonicalMatches identities token).card = 1 then canonicalMatches identities token
  else if (compatibilityMatches identities token).card = 1 then compatibilityMatches identities token
  else ∅

def resolve (tokens : Finset Text) : Finset Text := tokens.biUnion (resolveToken identities)

/-- The policy that is refused, and the tokens that its error lists. -/
structure PolicyExpansion where
  label : Text
  tokens : Finset Text
  deriving DecidableEq

/-- The tokens with which a policy goes beyond the Agent's. -/
def unresolvedExpansions (rawAgent agent rawCandidate : Finset Text) : Finset Text :=
  if resolve identities rawCandidate ⊆ agent then
    (rawCandidate \ rawAgent).filter fun token =>
      ¬ resolve identities {token} ⊆ agent ∨ resolve identities {token} = ∅
  else (rawCandidate \ rawAgent) ∪ (resolve identities rawCandidate \ agent)

def narrow (rawAgent agent : Finset Text) (label : Text) (values : Option (List Text))
    (effective : Finset Text) : Except PolicyExpansion (Finset Text) :=
  match values with
  | none => .ok effective
  | some values =>
    let rawCandidate := tokensOf (some values)
    if unresolvedExpansions identities rawAgent agent rawCandidate = ∅ then
      .ok (effective ∩ resolve identities rawCandidate)
    else .error ⟨label, unresolvedExpansions identities rawAgent agent rawCandidate⟩

end Resolution

def resolveMcpToolAllowlist (agentAllowlist : Option (List Text)) (toolEntries : ToolsCache τ)
    (agentMcpServerIds sessionAllowlist workflowAllowlist : Option (List Text)) :
    Except PolicyExpansion (Finset Text) :=
  let boundServers := agentMcpServerIds.map fun ids => tokensOf (some ids)
  let identities := identitiesOf boundServers toolEntries
  let rawAgent := tokensOf agentAllowlist
  let agent := resolve identities rawAgent
  (narrow identities rawAgent agent "session".toList sessionAllowlist agent).bind
    (narrow identities rawAgent agent "workflow".toList workflowAllowlist)

section Tokens

variable {identities : Dict Text ToolIdentity} {token name : Text}

/-- What a token means: a server-qualified name, or else the one tool it fits. -/
def Names (identities : Dict Text ToolIdentity) (token name : Text) : Prop :=
  canonicalMatches identities token = {name} ∨
  ((canonicalMatches identities token).card ≠ 1 ∧ compatibilityMatches identities token = {name})

theorem mem_resolveToken : name ∈ resolveToken identities token ↔ Names identities token name := by
  have hone : ∀ s : Finset Text, s.card = 1 → (name ∈ s ↔ s = {name}) := by
    intro s hs
    obtain ⟨a, rfl⟩ := Finset.card_eq_one.mp hs
    rw [Finset.mem_singleton, Finset.singleton_inj]
    exact eq_comm
  have hcard : ∀ s : Finset Text, s = {name} → s.card = 1 := by
    rintro s rfl
    exact Finset.card_singleton name
  unfold resolveToken Names
  split
  · next h =>
    rw [hone _ h]
    exact ⟨.inl, fun hor => hor.resolve_right fun hno => hno.1 h⟩
  · next h =>
    split
    · next h' =>
      rw [hone _ h']
      exact ⟨fun heq => .inr ⟨h, heq⟩, fun hor => (hor.resolve_left fun heq => h (hcard _ heq)).2⟩
    · next h' =>
      refine iff_of_false (Finset.notMem_empty name) ?_
      rintro (heq | ⟨_, heq⟩)
      · exact h (hcard _ heq)
      · exact h' (hcard _ heq)

theorem mem_resolve {tokens : Finset Text} :
    name ∈ resolve identities tokens ↔ ∃ token ∈ tokens, Names identities token name := by
  rw [resolve, Finset.mem_biUnion]
  exact exists_congr fun token => and_congr_right fun _ => mem_resolveToken

theorem mem_keys_of_names (h : Names identities token name) : name ∈ identities.keys := by
  have hfilter : ∀ f : Text × ToolIdentity → Bool,
      name ∈ ((identities.entries.filter f).map Prod.fst).toFinset → name ∈ identities.keys := by
    intro f hmem
    obtain ⟨p, hp, hname⟩ := List.mem_map.mp (List.mem_toFinset.mp hmem)
    exact List.mem_map.mpr ⟨p, List.mem_of_mem_filter hp, hname⟩
  cases h with
  | inl h =>
    have hmem : name ∈ canonicalMatches identities token := h ▸ Finset.mem_singleton_self name
    exact hfilter (fun p => p.2.canonicalName = token) hmem
  | inr h =>
    have hmem : name ∈ compatibilityMatches identities token := h.2 ▸ Finset.mem_singleton_self name
    cases Finset.mem_union.mp hmem with
    | inl horiginal => exact hfilter (fun p => p.2.originalName = token) horiginal
    | inr hcache =>
      unfold cacheMatches at hcache
      split at hcache
      · next hkey =>
        rw [Finset.mem_singleton.mp hcache]
        exact hkey
      · cases Finset.notMem_empty _ hcache

theorem resolveToken_ambiguous {a b : Text} (hab : a ≠ b)
    (hcanonical : (canonicalMatches identities token).card ≠ 1) (ha : a ∈ compatibilityMatches identities token)
    (hb : b ∈ compatibilityMatches identities token) : resolveToken identities token = ∅ := by
  unfold resolveToken
  rw [if_neg hcanonical, if_neg]
  intro hone
  obtain ⟨c, hc⟩ := Finset.card_eq_one.mp hone
  rw [hc, Finset.mem_singleton] at ha hb
  exact hab (ha.trans hb.symm)

end Tokens

section Entries

variable {boundServers : Option (Finset Text)} {toolEntries : ToolsCache τ} {name : Text}

/-- A name in the cache, blanks aside, of a tool whose server is bound. -/
structure Backed (boundServers : Option (Finset Text)) (toolEntries : ToolsCache τ) (name : Text)
    (identity : ToolIdentity) : Prop where
  stored : ∃ cacheName entry, toolEntries.get cacheName = some entry ∧ strip cacheName = name ∧
    strip entry.serverId = identity.serverId ∧
    strip (orElse entry.originalName (orElse entry.toolInfo.name cacheName)) = identity.originalName
  bound : isBound boundServers identity.serverId = true

theorem backed_of_get {identity : ToolIdentity}
    (h : (identitiesOf boundServers toolEntries).get name = some identity) :
    Backed boundServers toolEntries name identity := by
  have hfold : ∀ (entries : List (Text × ToolCacheEntry τ)) (found : Dict Text ToolIdentity),
      (∀ p ∈ entries, p ∈ toolEntries.entries) →
      (∀ identity, found.get name = some identity → Backed boundServers toolEntries name identity) →
      ∀ identity, (entries.foldl (addIdentity boundServers) found).get name = some identity →
        Backed boundServers toolEntries name identity := by
    intro entries
    induction entries with
    | nil => exact fun _ _ hfound => hfound
    | cons p entries ih =>
      intro found hmem hfound
      obtain ⟨hp, hentries⟩ := List.forall_mem_cons.mp hmem
      refine ih _ hentries fun identity hget => ?_
      unfold addIdentity identityOf at hget
      simp only at hget
      split at hget
      · exact hfound identity hget
      · next displayName added hsome =>
        split at hsome
        · cases hsome
        · next hkept =>
          cases hsome
          rw [Dict.get_set] at hget
          split at hget
          · next hname =>
            cases hget
            rw [Bool.or_eq_true, Bool.not_eq_true', not_or, Bool.not_eq_false] at hkept
            exact ⟨⟨p.1, p.2, Dict.get_eq_some_iff.mpr hp, hname.symm, rfl, rfl⟩, hkept.1⟩
          · exact hfound identity hget
  exact hfold _ _ (fun _ hp => hp) (fun _ hget => by cases hget) identity h

end Entries

section Policies

variable {identities : Dict Text ToolIdentity} {rawAgent agent effective allowed : Finset Text}
variable {label : Text} {values more : Option (List Text)}

def Adds (values more : Option (List Text)) : Prop := values = none ∨ values = more

theorem narrow_subset (h : narrow identities rawAgent agent label values effective = .ok allowed) :
    allowed ⊆ effective := by
  unfold narrow at h
  split at h
  · cases h
    exact Finset.Subset.refl _
  · simp only at h
    split at h
    · cases h
      exact Finset.inter_subset_left
    · cases h

theorem narrow_mono (hadds : Adds values more) {fewer : Finset Text} (hfewer : fewer ⊆ effective)
    (h : narrow identities rawAgent agent label more fewer = .ok allowed) :
    ∃ wider, narrow identities rawAgent agent label values effective = .ok wider ∧
      allowed ⊆ wider := by
  cases hadds with
  | inl hnone =>
    rw [hnone]
    exact ⟨effective, rfl, (narrow_subset h).trans hfewer⟩
  | inr hsame =>
    rw [hsame]
    cases more with
    | none =>
      cases h
      exact ⟨effective, rfl, hfewer⟩
    | some values =>
      rw [narrow] at h ⊢
      split at h
      · next hempty =>
        cases h
        rw [if_pos hempty]
        exact ⟨_, rfl, Finset.inter_subset_inter_right hfewer⟩
      · cases h

theorem narrow_error {token : Text} (htoken : token ∈ tokensOf values)
    (hout : ¬ resolveToken identities token ⊆ agent) :
    ∃ e, narrow identities rawAgent agent label values effective = .error e := by
  cases values with
  | none => cases Finset.notMem_empty _ htoken
  | some values =>
    have hcandidate : ¬ resolve identities (tokensOf (some values)) ⊆ agent := fun hsub =>
      hout ((Finset.subset_biUnion_of_mem (resolveToken identities) htoken).trans hsub)
    have hne : unresolvedExpansions identities rawAgent agent (tokensOf (some values)) ≠ ∅ := by
      unfold unresolvedExpansions
      rw [if_neg hcandidate]
      intro hempty
      exact hcandidate (Finset.sdiff_eq_empty_iff_subset.mp (Finset.union_eq_empty.mp hempty).2)
    rw [narrow, if_neg hne]
    exact ⟨_, rfl⟩

end Policies

variable (agentAllowlist : Option (List Text)) (toolEntries : ToolsCache τ)
variable (agentMcpServerIds : Option (List Text))

def boundIdentities : Dict Text ToolIdentity :=
  identitiesOf (agentMcpServerIds.map fun ids => tokensOf (some ids)) toolEntries

variable {agentAllowlist toolEntries agentMcpServerIds}
variable {sessionAllowlist workflowAllowlist moreSession moreWorkflow : Option (List Text)}
variable {allowed : Finset Text} {name : Text}

theorem resolveMcpToolAllowlist_ok (h : resolveMcpToolAllowlist agentAllowlist toolEntries
      agentMcpServerIds sessionAllowlist workflowAllowlist = .ok allowed) :
    allowed ⊆ resolve (boundIdentities toolEntries agentMcpServerIds) (tokensOf agentAllowlist) := by
  obtain ⟨effective, hsession, hworkflow⟩ := Fallible.bind_eq_ok.mp h
  exact (narrow_subset hworkflow).trans (narrow_subset hsession)

theorem resolveMcpToolAllowlist_adds (hsession : Adds sessionAllowlist moreSession)
    (hworkflow : Adds workflowAllowlist moreWorkflow)
    (h : resolveMcpToolAllowlist agentAllowlist toolEntries agentMcpServerIds moreSession
      moreWorkflow = .ok allowed) :
    ∃ wider, resolveMcpToolAllowlist agentAllowlist toolEntries agentMcpServerIds sessionAllowlist
      workflowAllowlist = .ok wider ∧ allowed ⊆ wider := by
  obtain ⟨fewer, hfirst, hsecond⟩ := Fallible.bind_eq_ok.mp h
  obtain ⟨effective, heffective, hfewer⟩ :=
    narrow_mono hsession (Finset.Subset.refl _) hfirst
  obtain ⟨wider, hwider, hallowed⟩ := narrow_mono hworkflow hfewer hsecond
  exact ⟨wider, Fallible.bind_eq_ok.mpr ⟨effective, heffective, hwider⟩, hallowed⟩

theorem resolveMcpToolAllowlist_error {token : Text}
    (htoken : token ∈ tokensOf sessionAllowlist ∨ token ∈ tokensOf workflowAllowlist)
    (hout : ¬ resolveToken (boundIdentities toolEntries agentMcpServerIds) token ⊆
      resolve (boundIdentities toolEntries agentMcpServerIds) (tokensOf agentAllowlist)) :
    ∃ e, resolveMcpToolAllowlist agentAllowlist toolEntries agentMcpServerIds sessionAllowlist
      workflowAllowlist = .error e := by
  cases hresult : resolveMcpToolAllowlist agentAllowlist toolEntries agentMcpServerIds
      sessionAllowlist workflowAllowlist with
  | error e => exact ⟨e, rfl⟩
  | ok allowed =>
    obtain ⟨effective, hsession, hworkflow⟩ := Fallible.bind_eq_ok.mp hresult
    cases htoken with
    | inl htoken =>
      obtain ⟨e, he⟩ := narrow_error htoken hout
      cases he.symm.trans hsession
    | inr htoken =>
      obtain ⟨e, he⟩ := narrow_error htoken hout
      cases he.symm.trans hworkflow

theorem exists_identity (h : name ∈ (boundIdentities toolEntries agentMcpServerIds).keys) :
    ∃ identity, (boundIdentities toolEntries agentMcpServerIds).get name = some identity :=
  Option.isSome_iff_exists.mp (Dict.isSome_get_iff.mpr h)

def twoTools (name serverId originalName name' serverId' originalName' : String) :
    ToolsCache Unit :=
  (Dict.empty.set name.toList
      ⟨serverId.toList, originalName.toList, ⟨originalName.toList, ()⟩⟩).set name'.toList
    ⟨serverId'.toList, originalName'.toList, ⟨originalName'.toList, ()⟩⟩

end Kirara.ToolAllowlists
