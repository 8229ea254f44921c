import Kirara.Channels
import Kirara.Dicts

namespace Kirara.ToolNames

open Kirara.Channels Kirara.Dicts

section Caches

variable {τ : Type}

structure Tool (τ : Type) where
  name : Text
  info : τ
  deriving DecidableEq

structure ToolCacheEntry (τ : Type) where
  serverId : Text
  originalName : Text
  toolInfo : Tool τ
  deriving DecidableEq

abbrev ToolsCache (τ : Type) := Dict Text (ToolCacheEntry τ)

def displayName (serverId : Text) (taken : List Text) (name : Text) : Text :=
  if name ∈ taken then serverId ++ '.' :: name else name

/-- The body of the loop of `_update_tools_cache`. -/
def addTool (serverId : Text) (cache : ToolsCache τ) (tool : Tool τ) : ToolsCache τ :=
  if tool.name = [] then cache
  else cache.set (displayName serverId cache.keys tool.name) ⟨serverId, tool.name, tool⟩

/-- `_remove_server_tools_from_cache`. -/
def removeServerTools (serverId : Text) (cache : ToolsCache τ) : ToolsCache τ :=
  cache.filter (fun p => p.2.serverId ≠ serverId)

/-- `_update_tools_cache`, once the server has listed its tools. -/
def updateToolsCache (serverId : Text) (tools : List (Tool τ)) (cache : ToolsCache τ) : ToolsCache τ :=
  tools.foldl (addTool serverId) (removeServerTools serverId cache)

/-- `get_tool_server`, with the managed servers. -/
def getToolServer (servers : List Text) (cache : ToolsCache τ) (name : Text) : Option (Text × Text) :=
  match cache.get name with
  | none => none
  | some entry => if entry.serverId ∈ servers then some (entry.serverId, entry.originalName) else none

inductive Operation (τ : Type) where
  | update (serverId : Text) (tools : List (Tool τ))
  | remove (serverId : Text)
  | clear (serverId : Text)

def Operation.serverId : Operation τ → Text
  | .update serverId _ | .remove serverId | .clear serverId => serverId

def named (tools : List (Tool τ)) : List (Tool τ) := tools.filter (fun tool => tool.name ≠ [])

structure State (τ : Type) where
  cache : ToolsCache τ
  listed : Text → List (Tool τ)

def State.empty : State τ := ⟨Dict.empty, fun _ => []⟩

def step (s : State τ) : Operation τ → State τ
  | .update serverId tools => ⟨updateToolsCache serverId tools s.cache, Function.update s.listed serverId (named tools)⟩
  | .remove serverId | .clear serverId => ⟨removeServerTools serverId s.cache, Function.update s.listed serverId []⟩

def run (s : State τ) (operations : List (Operation τ)) : State τ := operations.foldl step s

end Caches

section Names

variable {τ : Type}

structure Named (s : State τ) : Prop where
  stored : ∀ serverId, ∀ tool ∈ s.listed serverId, ∃ display, s.cache.get display = some ⟨serverId, tool.name, tool⟩
  unique : ∀ d d' e e', s.cache.get d = some e → s.cache.get d' = some e' → e.serverId = e'.serverId →
    e.originalName = e'.originalName → d = d'
  listed : ∀ d e, s.cache.get d = some e → e.toolInfo ∈ s.listed e.serverId ∧ e.originalName = e.toolInfo.name

def KeepsOthers (s : State τ) (operation : Operation τ) : Prop :=
  ∀ d e, e.serverId ≠ operation.serverId → (s.cache.get d = some e ↔ (step s operation).cache.get d = some e)

/-- No name is listed twice, and each tool finds a free name at its turn. -/
def Fits (serverId : Text) : List Text → List Text → Prop
  | _, [] => True
  | taken, name :: names =>
    name ∉ names ∧ displayName serverId taken name ∉ taken ∧ Fits serverId (displayName serverId taken name :: taken) names

instance decidableFits (serverId : Text) : ∀ taken names, Decidable (Fits serverId taken names)
  | _, [] => isTrue trivial
  | taken, name :: names =>
    have := decidableFits serverId (displayName serverId taken name :: taken) names
    inferInstanceAs (Decidable (_ ∧ _ ∧ _))

def othersNames (serverId : Text) (cache : ToolsCache τ) : List Text := (removeServerTools serverId cache).keys

def Careful (s : State τ) : Operation τ → Prop
  | .update serverId tools => Fits serverId (othersNames serverId s.cache) ((named tools).map Tool.name)
  | .remove _ | .clear _ => True

instance (s : State τ) : ∀ operation : Operation τ, Decidable (Careful s operation)
  | .update serverId tools => decidableFits serverId (othersNames serverId s.cache) ((named tools).map Tool.name)
  | .remove _ | .clear _ => isTrue trivial

def CarefulRun (s : State τ) : List (Operation τ) → Prop
  | [] => True
  | operation :: operations => Careful s operation ∧ CarefulRun (step s operation) operations

variable {serverId : Text} {cache : ToolsCache τ} {s : State τ} {operation : Operation τ} {operations : List (Operation τ)}

theorem get_removeServerTools {d : Text} {e : ToolCacheEntry τ} :
    (removeServerTools serverId cache).get d = some e ↔ cache.get d = some e ∧ e.serverId ≠ serverId := by
  rw [removeServerTools, Dict.get_filter_eq_some_iff]
  simp

theorem fits_congr {taken others names : List Text} (h : ∀ d, d ∈ taken ↔ d ∈ others) (hfits : Fits serverId taken names) :
    Fits serverId others names := by
  induction names generalizing taken others with
  | nil => trivial
  | cons name names ih =>
    obtain ⟨hnew, hfree, hrest⟩ := hfits
    have hsame : displayName serverId others name = displayName serverId taken name := by
      simp only [displayName, h]
    refine ⟨hnew, by rwa [hsame, ← h], ?_⟩
    rw [hsame]
    exact ih (fun d => by simp only [List.mem_cons, h]) hrest

/-- How far the loop of an update has come. -/
structure Placed (serverId : Text) (others : ToolsCache τ) (tools : List (Tool τ)) (cache : ToolsCache τ) : Prop where
  stored : ∀ tool ∈ tools, ∃ display, cache.get display = some ⟨serverId, tool.name, tool⟩
  unique : ∀ d d' e e', cache.get d = some e → cache.get d' = some e' → e.serverId = serverId → e'.serverId = serverId →
    e.originalName = e'.originalName → d = d'
  own : ∀ d e, cache.get d = some e → e.serverId = serverId → e.toolInfo ∈ tools ∧ e.originalName = e.toolInfo.name
  others : ∀ d e, e.serverId ≠ serverId → (others.get d = some e ↔ cache.get d = some e)

variable {others : ToolsCache τ} {tools rest : List (Tool τ)} {tool : Tool τ}

theorem placed_add (h : Placed serverId others tools cache) (hname : tool.name ≠ [])
    (hnew : ∀ t ∈ tools, t.name ≠ tool.name) (hfree : displayName serverId cache.keys tool.name ∉ cache.keys) :
    Placed serverId others (tools ++ [tool]) (addTool serverId cache tool) := by
  have hnone : cache.get (displayName serverId cache.keys tool.name) = none := by
    rw [← Dict.isSome_get_iff] at hfree
    exact Option.not_isSome_iff_eq_none.mp hfree
  rw [addTool, if_neg hname]
  generalize displayName serverId cache.keys tool.name = k at hnone
  have hother {d : Text} {e : ToolCacheEntry τ} (he : cache.get d = some e) : d ≠ k := by
    rintro rfl
    rw [hnone] at he
    cases he
  -- an entry of the new cache is the new one, or one from before
  have hcases {d : Text} {e : ToolCacheEntry τ} (he : (cache.set k ⟨serverId, tool.name, tool⟩).get d = some e) :
      d = k ∧ e = ⟨serverId, tool.name, tool⟩ ∨ cache.get d = some e := by
    rw [Dict.get_set] at he
    split at he
    · next hd => exact .inl ⟨hd, (Option.some.inj he).symm⟩
    · exact .inr he
  have hapart {d : Text} {e : ToolCacheEntry τ} (he : cache.get d = some e) (hs : e.serverId = serverId) :
      e.originalName ≠ tool.name := by
    obtain ⟨hmem, hsame⟩ := h.own d e he hs
    rw [hsame]
    exact hnew _ hmem
  refine ⟨?_, ?_, ?_, ?_⟩
  · intro t ht
    cases List.mem_append.mp ht with
    | inl ht =>
      obtain ⟨d, hd⟩ := h.stored t ht
      exact ⟨d, by rw [Dict.get_set_of_ne (hother hd), hd]⟩
    | inr ht =>
      rw [List.mem_singleton.mp ht]
      exact ⟨k, Dict.get_set_self⟩
  · intro d d' e e' hd hd' hs hs' hsame
    obtain ⟨hk, he⟩ | hold := hcases hd
    · obtain ⟨hk', _⟩ | hold' := hcases hd'
      · rw [hk, hk']
      · rw [he] at hsame
        exact absurd hsame.symm (hapart hold' hs')
    · obtain ⟨_, he'⟩ | hold' := hcases hd'
      · rw [he'] at hsame
        exact absurd hsame (hapart hold hs)
      · exact h.unique d d' e e' hold hold' hs hs' hsame
  · intro d e hd hs
    obtain ⟨rfl, rfl⟩ | hd := hcases hd
    · exact ⟨List.mem_append_right _ (List.mem_singleton_self _), rfl⟩
    · obtain ⟨hmem, hsame⟩ := h.own d e hd hs
      exact ⟨List.mem_append_left _ hmem, hsame⟩
  · intro d e hs
    rw [h.others d e hs]
    constructor
    · intro hd
      rw [Dict.get_set_of_ne (hother hd), hd]
    · intro hd
      obtain ⟨rfl, rfl⟩ | hd := hcases hd
      · exact absurd rfl hs
      · exact hd

theorem placed_foldl (h : Placed serverId others tools cache) (hnew : ∀ t ∈ tools, t.name ∉ (named rest).map Tool.name)
    (hfits : Fits serverId cache.keys ((named rest).map Tool.name)) :
    Placed serverId others (tools ++ named rest) (rest.foldl (addTool serverId) cache) := by
  induction rest generalizing tools cache with
  | nil => simpa [named] using h
  | cons tool rest ih =>
    by_cases hname : tool.name = []
    · have hskip : named (tool :: rest) = named rest := by simp [named, hname]
      have hsame : addTool serverId cache tool = cache := if_pos hname
      rw [hskip] at hnew hfits ⊢
      rw [List.foldl_cons, hsame]
      exact ih h hnew hfits
    · have hkeep : named (tool :: rest) = tool :: named rest := by simp [named, hname]
      rw [hkeep, List.map_cons] at hnew hfits
      obtain ⟨hfirst, hfree, hrest⟩ := hfits
      have hadd := placed_add h hname (fun t ht he => hnew t ht (he ▸ List.mem_cons_self)) hfree
      have hkeys : ∀ d, d ∈ displayName serverId cache.keys tool.name :: cache.keys ↔
          d ∈ (addTool serverId cache tool).keys := by
        intro d
        rw [addTool, if_neg hname, Dict.mem_keys_set, List.mem_cons]
      rw [hkeep, List.foldl_cons, List.append_cons]
      refine ih hadd ?_ (fits_congr hkeys hrest)
      intro t ht
      cases List.mem_append.mp ht with
      | inl ht => exact fun hm => hnew t ht (List.mem_cons_of_mem _ hm)
      | inr ht => exact List.mem_singleton.mp ht ▸ hfirst

theorem placed_update (hfits : Fits serverId (othersNames serverId cache) ((named tools).map Tool.name)) :
    Placed serverId cache (named tools) (updateToolsCache serverId tools cache) := by
  have hstart : Placed serverId cache [] (removeServerTools serverId cache) := by
    refine ⟨fun t ht => (nomatch ht), ?_, ?_, ?_⟩
    · intro d d' e e' hd _ hs
      exact absurd hs (get_removeServerTools.mp hd).2
    · intro d e hd hs
      exact absurd hs (get_removeServerTools.mp hd).2
    · intro d e hs
      rw [get_removeServerTools]
      exact ⟨fun h => ⟨h, hs⟩, fun h => h.1⟩
  exact placed_foldl hstart (fun t ht => (nomatch ht)) hfits

theorem removed_keeps {d : Text} {e : ToolCacheEntry τ} (hs : e.serverId ≠ serverId) :
    cache.get d = some e ↔ (removeServerTools serverId cache).get d = some e := by
  rw [get_removeServerTools]
  exact ⟨fun h => ⟨h, hs⟩, fun h => h.1⟩

theorem keepsOthers_of_careful (h : Careful s operation) : KeepsOthers s operation := by
  cases operation with
  | update serverId tools => exact (placed_update h).others
  | remove serverId => exact fun d e hs => removed_keeps hs
  | clear serverId => exact fun d e hs => removed_keeps hs

theorem named_removed (hs : Named s) :
    Named ⟨removeServerTools serverId s.cache, Function.update s.listed serverId []⟩ := by
  refine ⟨?_, ?_, ?_⟩
  · intro other tool ht
    change tool ∈ Function.update s.listed serverId [] other at ht
    by_cases ho : other = serverId
    · rw [ho, Function.update_self] at ht
      cases ht
    · rw [Function.update_of_ne ho] at ht
      obtain ⟨d, hd⟩ := hs.stored other tool ht
      exact ⟨d, get_removeServerTools.mpr ⟨hd, ho⟩⟩
  · intro d d' e e' hd hd'
    exact hs.unique d d' e e' (get_removeServerTools.mp hd).1 (get_removeServerTools.mp hd').1
  · intro d e hd
    obtain ⟨hd, ho⟩ := get_removeServerTools.mp hd
    change e.toolInfo ∈ Function.update s.listed serverId [] e.serverId ∧ _
    rw [Function.update_of_ne ho]
    exact hs.listed d e hd

theorem named_step (hs : Named s) (h : Careful s operation) : Named (step s operation) := by
  cases operation with
  | remove serverId => exact named_removed hs
  | clear serverId => exact named_removed hs
  | update serverId tools =>
    have hplaced := placed_update h
    refine ⟨?_, ?_, ?_⟩
    · intro other tool ht
      change tool ∈ Function.update s.listed serverId (named tools) other at ht
      by_cases ho : other = serverId
      · rw [ho, Function.update_self] at ht
        rw [ho]
        exact hplaced.stored tool ht
      · rw [Function.update_of_ne ho] at ht
        obtain ⟨d, hd⟩ := hs.stored other tool ht
        exact ⟨d, (hplaced.others d _ ho).mp hd⟩
    · intro d d' e e' hd hd' hserver hname
      by_cases ho : e.serverId = serverId
      · exact hplaced.unique d d' e e' hd hd' ho (hserver ▸ ho) hname
      · exact hs.unique d d' e e' ((hplaced.others d e ho).mpr hd) ((hplaced.others d' e' (hserver ▸ ho)).mpr hd') hserver hname
    · intro d e hd
      change e.toolInfo ∈ Function.update s.listed serverId (named tools) e.serverId ∧ _
      by_cases ho : e.serverId = serverId
      · rw [ho, Function.update_self]
        exact hplaced.own d e hd ho
      · rw [Function.update_of_ne ho]
        exact hs.listed d e ((hplaced.others d e ho).mpr hd)

theorem named_run (hs : Named s) (h : CarefulRun s operations) : Named (run s operations) := by
  induction operations generalizing s with
  | nil => exact hs
  | cons operation operations ih => exact ih (named_step hs h.1) h.2

theorem careful_of_run {before after : List (Operation τ)} (h : CarefulRun s (before ++ operation :: after)) :
    CarefulRun s before ∧ Careful (run s before) operation := by
  induction before generalizing s with
  | nil => exact ⟨trivial, h.1⟩
  | cons first before ih => exact ⟨⟨h.1, (ih h.2).1⟩, (ih h.2).2⟩

theorem named_empty : Named (State.empty : State τ) :=
  ⟨fun _ _ h => (nomatch h), fun _ _ _ _ h => (nomatch h), fun _ _ h => (nomatch h)⟩

/-- In a run of updates whose names fit, each listed tool has one display name, which maps back
to it, and no operation touches another server's entries. -/
theorem tools_named (h : CarefulRun (State.empty : State τ) operations) :
    Named (run State.empty operations) ∧ ∀ before operation after, operations = before ++ operation :: after →
      KeepsOthers (run State.empty before) operation := by
  refine ⟨named_run named_empty h, fun before operation after hsplit => ?_⟩
  rw [hsplit] at h
  exact keepsOthers_of_careful (careful_of_run h).2

end Names

def toolNamed (name : String) : Tool Unit := ⟨name.toList, ()⟩

def sameName : List (Operation Unit) := [.update ['a'] [toolNamed "x"], .update ['b'] [toolNamed "x", toolNamed "y"]]

theorem named_sameName : Named (run State.empty sameName) ∧ ∀ before operation after,
    sameName = before ++ operation :: after → KeepsOthers (run State.empty before) operation :=
  tools_named ⟨by decide, by decide, trivial⟩

/-- A server takes the qualified name of another's tool, and loses the entry. -/
theorem qualified_name_taken : ¬ ∀ operations : List (Operation Unit), Named (run State.empty operations) := by
  intro h
  have hnamed := h [.update ['b'] [toolNamed "x", toolNamed "a.x"], .update ['a'] [toolNamed "x"]]
  obtain ⟨d, hd⟩ := hnamed.stored ['b'] (toolNamed "a.x") (by decide)
  obtain ⟨hmem, -⟩ := hnamed.listed d _ hd
  have hentries : ∀ p ∈ (run State.empty [.update ['b'] [toolNamed "x", toolNamed "a.x"], .update ['a'] [toolNamed "x"]]).cache.entries,
      p.2 ≠ ⟨['b'], "a.x".toList, toolNamed "a.x"⟩ := by decide
  exact hentries _ (Dict.get_eq_some_iff.mp hd) rfl

end Kirara.ToolNames
