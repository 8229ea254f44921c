import Kirara.AgentLoop
import Mathlib.Data.List.Nodup

namespace Kirara.OfferedTools

open Kirara.Channels Kirara.AgentMessages Kirara.AgentLoop

section Assembly

/-- What a tool on offer stands for. -/
inductive Capability where
  | search
  | teammate (agentId : Text)
  | skill (resourceId : Text)
  | mcp (name : Text)
  deriving DecidableEq

structure Toolset where
  entries : List Tool
  distinct : (entries.map Tool.name).Nodup
  allowed : List Text
  allowTools : Bool
  maxToolIterations : Nat
  teammateAgentIds : List Text
  teammates_nodup : teammateAgentIds.Nodup
  /-- Of a registered Agent, whether it is enabled. -/
  registry : Text → Option Bool
  depth : Int
  skills : List Identifier
  threshold : Int
  describe : Capability → Text × Text

variable (c : Toolset)

def Toolset.tool (name : Text) (capability : Capability) : Tool × Capability :=
  (⟨name, (c.describe capability).1, (c.describe capability).2⟩, capability)

def Toolset.buildTools : List Tool := if c.allowTools then c.entries.filter (fun t => t.name ∈ c.allowed) else []

/-- The teammates that `build_teammate_tools` makes tools for. -/
def buildTeammateTools (agentIds : List Text) (registry : Text → Option Bool) (depth : Int) : List Text :=
  if depth ≤ 0 then [] else agentIds.filter (fun id => registry id = some true)

def Toolset.teammates : List Text :=
  if c.allowTools then buildTeammateTools c.teammateAgentIds c.registry c.depth else []

/-- The skills that `build_skill_tools` makes tools for. -/
def Toolset.skillIds : List Text :=
  if c.allowTools then (c.skills.map (fun id => strip id.text)).filter (fun id => id ≠ []) else []

def teammateToolName (agentId : Text) : Text := "delegate_to_".toList ++ agentId

def skillToolName (resourceId : Text) : Text := "skill_".toList ++ resourceId

/-- `should_use_tool_search`. -/
def Toolset.Searching : Prop := 0 < c.threshold ∧ c.threshold < c.buildTools.length

instance : Decidable c.Searching := inferInstanceAs (Decidable (_ ∧ _))

def Toolset.searchable : List Tool := if c.Searching then c.buildTools else []

def Toolset.offers : List (Tool × Capability) :=
  (if c.Searching then [c.tool "search_tools".toList .search] else c.buildTools.map (fun t => (t, .mcp t.name))) ++
    c.teammates.map (fun id => c.tool (teammateToolName id) (.teammate id)) ++
    c.skillIds.map (fun id => c.tool (skillToolName id) (.skill id))

def Toolset.setup : Setup where
  allowTools := c.allowTools
  maxToolIterations := c.maxToolIterations
  toolNames := c.allowed
  teammateToolNames := c.teammates.map teammateToolName
  skillToolNames := c.skillIds.map skillToolName
  searchableTools := c.searchable

def disclose (found matched : List Tool) : List Tool :=
  matched.foldl (fun found t => if t.name ∈ found.map Tool.name then found else found ++ [t]) found

def Toolset.disclosed (lower : Text → Text) (queries : List Text) : List Tool :=
  queries.foldl (fun found query => disclose found (searchToolEntries lower c.searchable query)) []

def Toolset.onOffer (lower : Text → Text) (queries : List Text) : List (Tool × Capability) :=
  c.offers ++ (c.disclosed lower queries).map (fun t => (t, .mcp t.name))

def dispatch (S : Setup) (name : Text) : Option Capability :=
  if name = "search_tools".toList ∧ ¬ S.searchableTools.isEmpty then some .search
  else if name ∈ S.teammateToolNames then some (.teammate (removePrefix "delegate_to_".toList name))
  else if name ∈ S.skillToolNames then some (.skill (removePrefix "skill_".toList name))
  else if name ∈ S.toolNames then some (.mcp name)
  else none

end Assembly

section Loop

variable {κ : Type} {X : Executor κ} {c : Toolset} {base found matched : List Tool}

theorem handleCall_dispatch (S : Setup) (w : CallWorld κ) (call : ToolCall κ) (p : Progress κ) {name : Text}
    (h : call.functionName = some name) : handleCall X S w call p =
      match dispatch S name with
      | some .search =>
        let matched := searchToolEntries X.lower S.searchableTools ((textArgument "query".toList call.arguments).getD [])
        .answered ((p.disclose matched).answer call (toolSearchResult call matched))
      | some (.teammate _) => .answered (p.answer call (delegateToTeammate w call))
      | some (.skill _) => .answered (p.answer call (loadSkillBody w call))
      | some (.mcp _) => if w.requiresConfirmation then askConfirmation w call p else runCall w call p
      | none => .answered (p.answer call (errorResult call ("permission denied for MCP tool: ".toList ++ name))) := by
  unfold handleCall dispatch
  rw [h]
  dsimp only
  split
  · rfl
  split
  · rfl
  split
  · rfl
  split
  · rfl
  · next hallowed =>
    rw [if_pos (not_not.mp hallowed)]

theorem disclose_progress (p : Progress κ) (htools : p.tools = base ++ found) (hnames : p.disclosed = found.map Tool.name) :
    (p.disclose matched).tools = base ++ disclose found matched ∧
      (p.disclose matched).disclosed = (disclose found matched).map Tool.name := by
  induction matched generalizing p found with
  | nil => exact ⟨htools, hnames⟩
  | cons t matched ih =>
    by_cases ht : t.name ∈ found.map Tool.name
    · have hp : p.disclose (t :: matched) = p.disclose matched := by
        rw [Progress.disclose, List.foldl_cons, if_pos (hnames ▸ ht), Progress.disclose]
      have hd : disclose found (t :: matched) = disclose found matched := by
        rw [disclose, List.foldl_cons, if_pos ht, disclose]
      rw [hp, hd]
      exact ih p htools hnames
    · have hp : p.disclose (t :: matched) =
          ({ p with disclosed := p.disclosed ++ [t.name], tools := p.tools ++ [t] } : Progress κ).disclose matched := by
        rw [Progress.disclose, List.foldl_cons, if_neg (hnames ▸ ht), Progress.disclose]
      have hd : disclose found (t :: matched) = disclose (found ++ [t]) matched := by
        rw [disclose, List.foldl_cons, if_neg ht, disclose]
      rw [hp, hd]
      exact ih _ (by rw [htools, List.append_assoc]) (by rw [hnames, List.map_append]; rfl)

/-- The tools of a turn are those on offer after some searches. -/
def Offering (lower : Text → Text) (c : Toolset) (tools : List Tool) (disclosed : List Text) : Prop :=
  ∃ queries, tools = (c.onOffer lower queries).map Prod.fst ∧ disclosed = (c.disclosed lower queries).map Tool.name

theorem onOffer_tools (lower : Text → Text) (queries : List Text) :
    (c.onOffer lower queries).map Prod.fst = c.offers.map Prod.fst ++ c.disclosed lower queries := by
  rw [Toolset.onOffer, List.map_append, List.map_map]
  congr 1
  exact List.map_id _

theorem offering_search {p : Progress κ} (h : Offering X.lower c p.tools p.disclosed) (query : Text) :
    Offering X.lower c (p.disclose (searchToolEntries X.lower c.searchable query)).tools
      (p.disclose (searchToolEntries X.lower c.searchable query)).disclosed := by
  obtain ⟨queries, htools, hnames⟩ := h
  rw [onOffer_tools] at htools
  let matched := searchToolEntries X.lower c.searchable query
  have hdisclosed : (p.disclose matched).tools = c.offers.map Prod.fst ++ disclose (c.disclosed X.lower queries) matched ∧
      (p.disclose matched).disclosed = (disclose (c.disclosed X.lower queries) matched).map Tool.name :=
    disclose_progress p htools hnames
  obtain ⟨htools', hnames'⟩ := hdisclosed
  have hsnoc : c.disclosed X.lower (queries ++ [query]) =
      disclose (c.disclosed X.lower queries) (searchToolEntries X.lower c.searchable query) := List.foldl_append
  exact ⟨queries ++ [query], by rw [htools', onOffer_tools, hsnoc], by rw [hnames', hsnoc]⟩

def Handled.progress : Handled κ → Option (Progress κ)
  | .answered p | .paused p _ _ => some p
  | .failed => none

theorem offering_handleCall {w : CallWorld κ} {call : ToolCall κ} {p p' : Progress κ}
    (h : Offering X.lower c p.tools p.disclosed) (hp : Handled.progress (handleCall X c.setup w call p) = some p') :
    Offering X.lower c p'.tools p'.disclosed := by
  have hsame {p'' : Progress κ} (htools : p''.tools = p.tools) (hnames : p''.disclosed = p.disclosed) :
      Offering X.lower c p''.tools p''.disclosed := by rwa [htools, hnames]
  cases hname : call.functionName with
  | none =>
    rw [handleCall, hname] at hp
    cases hp
    exact hsame rfl rfl
  | some name =>
    rw [handleCall_dispatch c.setup w call p hname] at hp
    split at hp
    · cases hp
      exact offering_search h _
    · cases hp
      exact hsame rfl rfl
    · cases hp
      exact hsame rfl rfl
    · split at hp
      · unfold askConfirmation at hp
        split at hp
        · cases hp
          exact hsame rfl rfl
        split at hp
        · cases hp
          exact hsame rfl rfl
        split at hp
        · cases hp
          exact hsame rfl rfl
        split at hp
        · split at hp
          · cases hp
            exact hsame rfl rfl
          · cases hp
        · cases hp
          exact hsame rfl rfl
      · unfold runCall at hp
        split at hp
        · cases hp
          exact hsame rfl rfl
        split at hp
        · cases hp
          exact hsame rfl rfl
        · cases hp
          exact hsame rfl rfl
    · cases hp
      exact hsame rfl rfl

theorem offering_handleCalls {calls : List (CallWorld κ × ToolCall κ)} {p p' : Progress κ}
    (h : Offering X.lower c p.tools p.disclosed) (hp : Handled.progress (handleCalls X c.setup calls p) = some p') :
    Offering X.lower c p'.tools p'.disclosed := by
  induction calls generalizing p with
  | nil =>
    cases hp
    exact h
  | cons first calls ih =>
    obtain ⟨w, call⟩ := first
    rw [handleCalls] at hp
    have hstep {q : Progress κ} (hq : Handled.progress (handleCall X c.setup w call p) = some q) :=
      offering_handleCall h hq
    cases hcall : handleCall X c.setup w call p with
    | answered q =>
      rw [hcall] at hp hstep
      exact ih (hstep rfl) hp
    | paused q pending rest =>
      rw [hcall] at hp hstep
      cases hp
      exact hstep rfl
    | failed =>
      rw [hcall] at hp
      cases hp

theorem offering_round [DecidableEq κ] {t : Turn κ} (hsetup : t.setup = c.setup)
    (h : Offering X.lower c t.tools t.disclosed) (w : RoundWorld κ) : (AgentLoop.round X w t).setup = c.setup ∧
      Offering X.lower c (AgentLoop.round X w t).tools (AgentLoop.round X w t).disclosed := by
  unfold AgentLoop.round
  split
  · exact ⟨hsetup, h⟩
  dsimp only
  split
  · exact ⟨hsetup, h⟩
  unfold respond
  dsimp only
  split
  · exact ⟨hsetup, h⟩
  rw [hsetup]
  have hcalls (calls : List (CallWorld κ × ToolCall κ)) (messages : List (Message κ)) {p' : Progress κ}
      (hp : Handled.progress (handleCalls X c.setup calls ⟨messages, t.tools, t.disclosed⟩) = some p') :
      Offering X.lower c p'.tools p'.disclosed :=
    offering_handleCalls (p := ⟨messages, t.tools, t.disclosed⟩) h hp
  split
  · next p hp => exact ⟨rfl, hcalls _ _ (congrArg Handled.progress hp)⟩
  · next p call rest hp => exact ⟨rfl, hcalls _ _ (congrArg Handled.progress hp)⟩
  · exact ⟨rfl, h⟩

end Loop

variable {lower : Text → Text} {c : Toolset} {found matched : List Tool} {queries : List Text} {t : Tool}

/-- The tools on offer have names of their own, and each call goes to what its name stands for. -/
def Sound (lower : Text → Text) (c : Toolset) : Prop :=
  ∀ queries, ((c.onOffer lower queries).map (fun o => o.1.name)).Nodup ∧
    ∀ o ∈ c.onOffer lower queries, dispatch c.setup o.1.name = some o.2

/-- The cached tools that the model can come to be offered. -/
def Offerable (lower : Text → Text) (c : Toolset) (t : Tool) : Prop :=
  if c.Searching then ∃ query, t ∈ searchToolEntries lower c.searchable query else t ∈ c.buildTools

/-- No name of a cached tool is one of the executor's own. -/
structure Clear (lower : Text → Text) (c : Toolset) : Prop where
  skills : c.skillIds.Nodup
  teammate : ∀ t, Offerable lower c t → ∀ id ∈ c.teammates, t.name ≠ teammateToolName id
  skill : ∀ t, Offerable lower c t → ∀ id ∈ c.skillIds, t.name ≠ skillToolName id
  search : c.Searching → ∀ t, Offerable lower c t → t.name ≠ "search_tools".toList

theorem mem_searchToolEntries {tools : List Tool} {query : Text} (h : t ∈ searchToolEntries lower tools query) : t ∈ tools := by
  unfold searchToolEntries at h
  dsimp only at h
  split at h
  · exact List.mem_of_mem_take h
  · exact (List.mem_filter.mp (List.mem_of_mem_take h)).1

theorem mem_disclose : t ∈ disclose found matched → t ∈ found ∨ t ∈ matched := by
  induction matched generalizing found with
  | nil => exact .inl
  | cons u matched ih =>
    intro h
    rw [disclose, List.foldl_cons] at h
    split at h
    · cases ih h with
      | inl h => exact .inl h
      | inr h => exact .inr (List.mem_cons_of_mem u h)
    · cases ih h with
      | inl h =>
        cases List.mem_append.mp h with
        | inl h => exact .inl h
        | inr h => exact .inr (List.mem_singleton.mp h ▸ List.mem_cons_self)
      | inr h => exact .inr (List.mem_cons_of_mem u h)

theorem nodup_disclose (h : (found.map Tool.name).Nodup) : ((disclose found matched).map Tool.name).Nodup := by
  induction matched generalizing found with
  | nil => exact h
  | cons u matched ih =>
    rw [disclose, List.foldl_cons]
    split
    · exact ih h
    · next hnew =>
      refine ih ?_
      rw [List.map_append]
      exact List.nodup_append.mpr ⟨h, List.nodup_singleton _, fun a ha b hb hab => hnew (by
        rw [← List.mem_singleton.mp hb, ← hab]
        exact ha)⟩

theorem mem_disclosed (h : t ∈ c.disclosed lower queries) : ∃ query, t ∈ searchToolEntries lower c.searchable query := by
  induction queries using List.reverseRecOn with
  | nil => cases h
  | append_singleton queries query ih =>
    rw [Toolset.disclosed, List.foldl_append] at h
    cases mem_disclose h with
    | inl h => exact ih h
    | inr h => exact ⟨query, h⟩

theorem nodup_disclosed : ((c.disclosed lower queries).map Tool.name).Nodup := by
  induction queries using List.reverseRecOn with
  | nil => exact List.nodup_nil
  | append_singleton queries query ih =>
    rw [Toolset.disclosed, List.foldl_append]
    exact nodup_disclose ih

theorem name_mem_disclosed {query : Text} (h : t ∈ searchToolEntries lower c.searchable query) :
    t.name ∈ (c.disclosed lower [query]).map Tool.name := by
  have hall (matched found : List Tool) (hm : t ∈ matched ∨ t.name ∈ found.map Tool.name) :
      t.name ∈ (disclose found matched).map Tool.name := by
    induction matched generalizing found with
    | nil =>
      cases hm with
      | inl h => cases h
      | inr h => exact h
    | cons u matched ih =>
      rw [disclose, List.foldl_cons]
      split
      · next hknown =>
        cases hm with
        | inl h =>
          cases List.mem_cons.mp h with
          | inl h => exact ih found (.inr (h ▸ hknown))
          | inr h => exact ih found (.inl h)
        | inr h => exact ih found (.inr h)
      · cases hm with
        | inl h =>
          cases List.mem_cons.mp h with
          | inl h => exact ih _ (.inr (by rw [List.map_append, h]; exact List.mem_append_right _ (List.mem_singleton_self _)))
          | inr h => exact ih _ (.inl h)
        | inr h => exact ih _ (.inr (by rw [List.map_append]; exact List.mem_append_left _ h))
  exact hall _ [] (.inl h)

theorem teammateToolName_injective {a b : Text} (h : teammateToolName a = teammateToolName b) : a = b :=
  List.append_cancel_left h

theorem skillToolName_injective {a b : Text} (h : skillToolName a = skillToolName b) : a = b := List.append_cancel_left h

theorem removePrefix_append (start t : Text) : removePrefix start (start ++ t) = t := by
  rw [removePrefix, if_pos (List.prefix_append start t), List.drop_left]

theorem apart_of_head {a b t u : Text} {n : Nat} (hne : a.take n ≠ b.take n) (ha : n ≤ a.length) (hb : n ≤ b.length) :
    a ++ t ≠ b ++ u := by
  intro h
  have htake := congrArg (List.take n) h
  rw [List.take_append_of_le_length ha, List.take_append_of_le_length hb] at htake
  exact hne htake

theorem teammate_ne_skill (id resourceId : Text) : teammateToolName id ≠ skillToolName resourceId :=
  apart_of_head (n := 1) (by decide) (by decide) (by decide)

theorem search_ne_teammate (id : Text) : "search_tools".toList ≠ teammateToolName id := by
  have h := apart_of_head (a := "search_tools".toList) (b := "delegate_to_".toList) (t := []) (u := id) (n := 1)
    (by decide) (by decide) (by decide)
  rwa [List.append_nil] at h

theorem search_ne_skill (resourceId : Text) : "search_tools".toList ≠ skillToolName resourceId := by
  have h := apart_of_head (a := "search_tools".toList) (b := "skill_".toList) (t := []) (u := resourceId) (n := 2)
    (by decide) (by decide) (by decide)
  rwa [List.append_nil] at h

theorem nodup_teammates : c.teammates.Nodup := by
  unfold Toolset.teammates buildTeammateTools
  split
  · split
    · exact List.nodup_nil
    · exact c.teammates_nodup.filter _
  · exact List.nodup_nil

theorem nodup_buildTools : (c.buildTools.map Tool.name).Nodup := by
  unfold Toolset.buildTools
  split
  · exact c.distinct.sublist (List.filter_sublist.map _)
  · exact List.nodup_nil

theorem allowed_of_mem (h : t ∈ c.buildTools) : t.name ∈ c.allowed := by
  unfold Toolset.buildTools at h
  split at h
  · exact of_decide_eq_true (List.mem_filter.mp h).2
  · cases h

theorem names_eq : (c.onOffer lower queries).map (fun o => o.1.name) =
    (if c.Searching then ["search_tools".toList] else c.buildTools.map Tool.name) ++ c.teammates.map teammateToolName ++
      c.skillIds.map skillToolName ++ (c.disclosed lower queries).map Tool.name := by
  have hfirst : (if c.Searching then [c.tool "search_tools".toList .search]
      else c.buildTools.map (fun t => (t, Capability.mcp t.name))).map (fun o => o.1.name) =
      if c.Searching then ["search_tools".toList] else c.buildTools.map Tool.name := by
    split
    · rfl
    · rw [List.map_map]
      rfl
  rw [Toolset.onOffer, Toolset.offers, List.map_append, List.map_append, List.map_append, hfirst, List.map_map,
    List.map_map, List.map_map]
  rfl

theorem disclosed_of_not_searching (h : ¬ c.Searching) : c.disclosed lower queries = [] := by
  have hnone : c.searchable = [] := if_neg h
  apply List.eq_nil_iff_forall_not_mem.mpr
  intro t ht
  obtain ⟨query, hm⟩ := mem_disclosed ht
  rw [hnone] at hm
  cases mem_searchToolEntries hm

theorem offerable_of_disclosed (h : t ∈ c.disclosed lower queries) : Offerable lower c t := by
  by_cases hs : c.Searching
  · rw [Offerable, if_pos hs]
    exact mem_disclosed h
  · rw [disclosed_of_not_searching hs] at h
    cases h

theorem offerable_built (h : Offerable lower c t) : t ∈ c.buildTools := by
  unfold Offerable at h
  split at h
  · next hs =>
    obtain ⟨query, h⟩ := h
    have hm := mem_searchToolEntries h
    rwa [Toolset.searchable, if_pos hs] at hm
  · exact h

theorem offered_apart (hsound : Sound lower c) (h : Offerable lower c t) {name : Text}
    (hname : name ∈ c.teammates.map teammateToolName ++ c.skillIds.map skillToolName ∨
      c.Searching ∧ name = "search_tools".toList) : t.name ≠ name := by
  rintro rfl
  by_cases hs : c.Searching
  · rw [Offerable, if_pos hs] at h
    obtain ⟨query, h⟩ := h
    have hnodup := (hsound [query]).1
    rw [names_eq, if_pos hs] at hnodup
    refine (List.nodup_append.mp hnodup).2.2 t.name ?_ t.name (name_mem_disclosed h) rfl
    cases hname with
    | inl hname => exact List.append_assoc _ _ _ ▸ List.mem_append_right _ hname
    | inr hname => exact hname.2 ▸ List.mem_append_left _ (List.mem_append_left _ (List.mem_singleton_self _))
  · rw [Offerable, if_neg hs] at h
    have hnodup := (hsound []).1
    rw [names_eq, if_neg hs, disclosed_of_not_searching hs, List.map_nil, List.append_nil, List.append_assoc] at hnodup
    cases hname with
    | inl hname => exact (List.nodup_append.mp hnodup).2.2 t.name (List.mem_map_of_mem h) t.name hname rfl
    | inr hname => exact hs hname.1

theorem clear_of_sound (hsound : Sound lower c) : Clear lower c := by
  refine ⟨?_, ?_, ?_, ?_⟩
  · have hnodup := (hsound []).1
    rw [names_eq] at hnodup
    have hskills := (List.nodup_append.mp (List.nodup_append.mp hnodup).1).2.1
    exact List.Nodup.of_map _ hskills
  · exact fun t ht id hid => offered_apart hsound ht (.inl (List.mem_append_left _ (List.mem_map_of_mem hid)))
  · exact fun t ht id hid => offered_apart hsound ht (.inl (List.mem_append_right _ (List.mem_map_of_mem hid)))
  · exact fun hs t ht => offered_apart hsound ht (.inr ⟨hs, rfl⟩)

theorem nodup_of_clear (h : Clear lower c) (queries : List Text) :
    ((c.onOffer lower queries).map (fun o => o.1.name)).Nodup := by
  have hteammates : (c.teammates.map teammateToolName).Nodup := nodup_teammates.map (fun _ _ => teammateToolName_injective)
  have hskills : (c.skillIds.map skillToolName).Nodup := h.skills.map (fun _ _ => skillToolName_injective)
  have hapart : (c.teammates.map teammateToolName ++ c.skillIds.map skillToolName).Nodup := by
    refine List.nodup_append.mpr ⟨hteammates, hskills, fun a ha b hb hab => ?_⟩
    obtain ⟨id, _, rfl⟩ := List.mem_map.mp ha
    obtain ⟨resourceId, _, rfl⟩ := List.mem_map.mp hb
    exact teammate_ne_skill id resourceId hab
  -- the name of a cached tool is none of the teammates' and skills'
  have hcached {t : Tool} (ht : Offerable lower c t) :
      t.name ∉ c.teammates.map teammateToolName ++ c.skillIds.map skillToolName := by
    intro hm
    cases List.mem_append.mp hm with
    | inl hm =>
      obtain ⟨id, hid, heq⟩ := List.mem_map.mp hm
      exact h.teammate t ht id hid heq.symm
    | inr hm =>
      obtain ⟨id, hid, heq⟩ := List.mem_map.mp hm
      exact h.skill t ht id hid heq.symm
  rw [names_eq]
  by_cases hs : c.Searching
  · rw [if_pos hs, List.append_assoc, List.append_assoc, ← List.append_assoc (c.teammates.map teammateToolName)]
    have hown : (c.teammates.map teammateToolName ++ c.skillIds.map skillToolName ++
        (c.disclosed lower queries).map Tool.name).Nodup := by
      refine List.nodup_append.mpr ⟨hapart, nodup_disclosed, fun a ha b hb hab => ?_⟩
      obtain ⟨t, ht, rfl⟩ := List.mem_map.mp hb
      exact hcached (offerable_of_disclosed ht) (hab ▸ ha)
    have hsearch : "search_tools".toList ∉ c.teammates.map teammateToolName ++ c.skillIds.map skillToolName ++
        (c.disclosed lower queries).map Tool.name := by
      intro hm
      cases List.mem_append.mp hm with
      | inl hm =>
        cases List.mem_append.mp hm with
        | inl hm =>
          obtain ⟨id, _, heq⟩ := List.mem_map.mp hm
          exact search_ne_teammate id heq.symm
        | inr hm =>
          obtain ⟨id, _, heq⟩ := List.mem_map.mp hm
          exact search_ne_skill id heq.symm
      | inr hm =>
        obtain ⟨t, ht, heq⟩ := List.mem_map.mp hm
        exact h.search hs t (offerable_of_disclosed ht) heq
    exact List.nodup_cons.mpr ⟨hsearch, hown⟩
  · rw [if_neg hs, disclosed_of_not_searching hs, List.map_nil, List.append_nil, List.append_assoc]
    refine List.nodup_append.mpr ⟨nodup_buildTools, hapart, fun a ha b hb hab => ?_⟩
    obtain ⟨t, ht, rfl⟩ := List.mem_map.mp ha
    have hoffered : Offerable lower c t := by rwa [Offerable, if_neg hs]
    exact hcached hoffered (hab ▸ hb)

theorem searchable_nonempty (h : c.Searching) : c.searchable.isEmpty = false := by
  rw [Toolset.searchable, if_pos h, List.isEmpty_eq_false_iff]
  intro hnone
  obtain ⟨hpos, hmany⟩ := h
  rw [hnone, List.length_nil] at hmany
  omega

theorem dispatch_mcp (h : Clear lower c) (ht : Offerable lower c t) : dispatch c.setup t.name = some (.mcp t.name) := by
  have hbuilt := offerable_built ht
  have hsearch : ¬ (t.name = "search_tools".toList ∧ ¬ c.setup.searchableTools.isEmpty = true) := by
    intro hboth
    by_cases hs : c.Searching
    · exact h.search hs t ht hboth.1
    · have hnone : c.setup.searchableTools = [] := if_neg hs
      exact hboth.2 (hnone ▸ rfl)
  have hteammate : t.name ∉ c.setup.teammateToolNames := by
    intro hm
    obtain ⟨id, hid, heq⟩ := List.mem_map.mp hm
    exact h.teammate t ht id hid heq.symm
  have hskill : t.name ∉ c.setup.skillToolNames := by
    intro hm
    obtain ⟨id, hid, heq⟩ := List.mem_map.mp hm
    exact h.skill t ht id hid heq.symm
  have hallowed : t.name ∈ c.setup.toolNames := allowed_of_mem hbuilt
  rw [dispatch, if_neg hsearch, if_neg hteammate, if_neg hskill, if_pos hallowed]

theorem dispatch_teammate {id : Text} (h : id ∈ c.teammates) :
    dispatch c.setup (teammateToolName id) = some (.teammate id) := by
  have hmem : teammateToolName id ∈ c.teammates.map teammateToolName := List.mem_map_of_mem (f := teammateToolName) h
  have hsearch : ¬ (teammateToolName id = "search_tools".toList ∧ ¬ c.setup.searchableTools.isEmpty = true) :=
    fun hboth => search_ne_teammate id hboth.1.symm
  have hid : removePrefix "delegate_to_".toList (teammateToolName id) = id := removePrefix_append _ _
  rw [dispatch, if_neg hsearch]
  exact (if_pos hmem).trans (by rw [hid])

theorem dispatch_skill {id : Text} (h : id ∈ c.skillIds) : dispatch c.setup (skillToolName id) = some (.skill id) := by
  have hmem : skillToolName id ∈ c.skillIds.map skillToolName := List.mem_map_of_mem (f := skillToolName) h
  have hteammate : skillToolName id ∉ c.setup.teammateToolNames := by
    intro hm
    obtain ⟨agentId, _, heq⟩ := List.mem_map.mp hm
    exact teammate_ne_skill agentId id heq
  have hsearch : ¬ (skillToolName id = "search_tools".toList ∧ ¬ c.setup.searchableTools.isEmpty = true) :=
    fun hboth => search_ne_skill id hboth.1.symm
  have hid : removePrefix "skill_".toList (skillToolName id) = id := removePrefix_append _ _
  rw [dispatch, if_neg hsearch, if_neg hteammate]
  exact (if_pos hmem).trans (by rw [hid])

/-- No cached tool on offer has the name of a teammate's or a skill's tool, or of the search. -/
theorem sound_iff_clear : Sound lower c ↔ Clear lower c := by
  refine ⟨clear_of_sound, fun h queries => ⟨nodup_of_clear h queries, fun o ho => ?_⟩⟩
  cases List.mem_append.mp ho with
  | inr ho =>
    obtain ⟨t, ht, rfl⟩ := List.mem_map.mp ho
    exact dispatch_mcp h (offerable_of_disclosed ht)
  | inl ho =>
    rw [Toolset.offers] at ho
    cases List.mem_append.mp ho with
    | inr ho =>
      obtain ⟨id, hid, rfl⟩ := List.mem_map.mp ho
      exact dispatch_skill hid
    | inl ho =>
      cases List.mem_append.mp ho with
      | inr ho =>
        obtain ⟨id, hid, rfl⟩ := List.mem_map.mp ho
        exact dispatch_teammate hid
      | inl ho =>
        split at ho
        · next hs =>
          rw [List.mem_singleton.mp ho]
          have hfound : ¬ c.setup.searchableTools.isEmpty = true := by
            change ¬ c.searchable.isEmpty = true
            rw [searchable_nonempty hs]
            exact Bool.false_ne_true
          exact if_pos ⟨rfl, hfound⟩
        · next hs =>
          obtain ⟨t, ht, rfl⟩ := List.mem_map.mp ho
          exact dispatch_mcp h (by rwa [Offerable, if_neg hs])

/-- A foreign server names its tool like the delegation to a teammate. -/
def captured : Toolset where
  entries := [⟨"delegate_to_b".toList, [], []⟩]
  distinct := by decide
  allowed := ["delegate_to_b".toList]
  allowTools := true
  maxToolIterations := 1
  teammateAgentIds := [['b']]
  teammates_nodup := by decide
  registry := fun _ => some true
  depth := 2
  skills := []
  threshold := 12
  describe := fun _ => ([], [])

theorem captured_by_teammate : ¬ ∀ lower c, Sound lower c := by
  intro h
  have hsame := (h (fun t => t) captured []).1
  rw [names_eq, if_neg (by decide), disclosed_of_not_searching (by decide)] at hsame
  exact absurd hsame (by decide)

end Kirara.OfferedTools
