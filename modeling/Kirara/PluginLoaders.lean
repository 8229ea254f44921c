import Kirara.Channels
import Kirara.Dicts

namespace Kirara.PluginBuses

open Kirara.Channels Kirara.Dicts

/-- A bound method of a plugin instance, equal where instance and method are. -/
structure Listener where
  owner : Nat
  method : Text
  deriving DecidableEq

/-- The listeners of an `EventBus` by the type of their events. -/
abbrev EventBus (ε : Type) := Dict ε (List Listener)

/-- What a plugin's bus reads of its manifest. -/
structure Manifest where
  events : Bool
  hooks : List Text

/-- `_registered_listeners` and `_lifecycle_hooks` of a `PluginEventBus`. -/
structure PluginEventBus where
  manifest : Option Manifest
  registered : List Listener
  lifecycleHooks : List (Text × Listener)

inductive Action (ε : Type) where
  | register (type : ε) (method : Text)
  | unregister (type : ε) (method : Text)
  | registerHook (lifecycle method : Text)

def lifecycleNames : List Text :=
  ["startup_completed".toList, "shutdown_requested".toList, "workflow_before".toList,
    "workflow_after".toList, "workflow_error".toList, "dispatch_preview".toList,
    "model_catalog_refreshed".toList, "mcp_operation".toList]

variable {ε : Type} [DecidableEq ε]

def EventBus.listeners (b : EventBus ε) (t : ε) : List Listener := (b.get t).getD []

def EventBus.register (t : ε) (l : Listener) (b : EventBus ε) : EventBus ε :=
  b.set t (b.listeners t ++ [l])

/-- There is no result where `list.remove` raises. -/
def EventBus.unregister (t : ε) (l : Listener) (b : EventBus ε) : Option (EventBus ε) :=
  match b.get t with
  | none => some b
  | some ls => if l ∈ ls then some (b.set t (ls.erase l)) else none

def PluginEventBus.grantsEvents (p : PluginEventBus) : Bool := p.manifest.all Manifest.events

def PluginEventBus.declares (p : PluginEventBus) (lifecycle : Text) : Bool :=
  lifecycleNames.contains lifecycle && p.manifest.any (fun m => m.hooks.contains lifecycle)

/-- One action of the plugin `i`. An action that raises changes nothing. -/
def Action.run (i : Nat) : Action ε → PluginEventBus × EventBus ε → PluginEventBus × EventBus ε
  | .register t method, (p, b) =>
    if p.grantsEvents then
      ({ p with registered := p.registered ++ [⟨i, method⟩] }, b.register t ⟨i, method⟩)
    else (p, b)
  | .unregister t method, (p, b) =>
    if p.grantsEvents then (p, (b.unregister t ⟨i, method⟩).getD b) else (p, b)
  | .registerHook lifecycle method, (p, b) =>
    if p.declares lifecycle then
      ({ p with
          registered := p.registered ++ [⟨i, method⟩]
          lifecycleHooks := p.lifecycleHooks ++ [(lifecycle, ⟨i, method⟩)] }, b)
    else (p, b)

def runActions (i : Nat) (actions : List (Action ε)) (x : PluginEventBus × EventBus ε) :
    PluginEventBus × EventBus ε :=
  actions.foldl (fun x a => a.run i x) x

def EventBus.withdraw (b : EventBus ε) (l : Listener) : EventBus ε :=
  b.mapValues (fun ls => ls.erase l)

def unregisterAll (x : PluginEventBus × EventBus ε) : PluginEventBus × EventBus ε :=
  ({ x.1 with registered := [], lifecycleHooks := [] }, x.1.registered.foldl EventBus.withdraw x.2)

def Action.registers : Action ε → Bool
  | .register _ _ => true
  | _ => false

/-- The bus has no listener of the plugin more often than the plugin knows of. -/
structure Counted (i : Nat) (x : PluginEventBus × EventBus ε) : Prop where
  own : ∀ l ∈ x.1.registered, l.owner = i
  count_le : ∀ t l, l.owner = i → (x.2.listeners t).count l ≤ x.1.registered.count l

variable {b : EventBus ε} {t u : ε} {l m : Listener}

theorem count_register : ((b.register t l).listeners u).count m =
      (b.listeners u).count m + if u = t ∧ l = m then 1 else 0 := by
  unfold EventBus.register EventBus.listeners
  rw [Dict.get_set]
  by_cases hu : u = t
  · subst hu
    by_cases hm : l = m
    · simp [hm]
    · simp [hm]
  · simp [hu]

theorem count_unregister_le : (((b.unregister t l).getD b).listeners u).count m ≤ (b.listeners u).count m := by
  unfold EventBus.unregister
  split
  · exact Nat.le_refl _
  · next ls hls =>
    split
    · rw [Option.getD_some]
      unfold EventBus.listeners
      rw [Dict.get_set]
      by_cases hu : u = t
      · subst hu
        simpa [hls] using List.Sublist.count_le m List.erase_sublist
      · simp [hu]
    · exact Nat.le_refl _

theorem count_unregister_of_ne (h : m ≠ l) :
    (((b.unregister t l).getD b).listeners u).count m = (b.listeners u).count m := by
  unfold EventBus.unregister
  split
  · rfl
  · next ls hls =>
    split
    · rw [Option.getD_some]
      unfold EventBus.listeners
      rw [Dict.get_set]
      by_cases hu : u = t
      · subst hu
        simp [hls, List.count_erase_of_ne h]
      · simp [hu]
    · rfl

theorem count_withdraw :
    ((b.withdraw l).listeners t).count m = (b.listeners t).count m - if l = m then 1 else 0 := by
  unfold EventBus.withdraw EventBus.listeners
  rw [Dict.get_mapValues]
  cases b.get t with
  | none => simp
  | some ls => simp [List.count_erase]

theorem count_withdraw_all (ls : List Listener) :
    ((ls.foldl EventBus.withdraw b).listeners t).count m = (b.listeners t).count m - ls.count m := by
  induction ls generalizing b with
  | nil => simp
  | cons l ls ih =>
    rw [List.foldl_cons, ih, count_withdraw, List.count_cons]
    simp only [beq_iff_eq]
    omega

variable {i : Nat} {x y z : PluginEventBus × EventBus ε}

/-- A plugin's own doing leaves the listeners of the others as they are. -/
structure Acted (i : Nat) (x y : PluginEventBus × EventBus ε) : Prop where
  counted : Counted i x → Counted i y
  others : ∀ t l, l.owner ≠ i → (y.2.listeners t).count l = (x.2.listeners t).count l

theorem acted_refl : Acted i x x := ⟨id, fun _ _ _ => rfl⟩

theorem acted_trans (h : Acted i x y) (k : Acted i y z) : Acted i x z where
  counted := fun hc => k.counted (h.counted hc)
  others := fun t l hl => (k.others t l hl).trans (h.others t l hl)

theorem counted_snoc {p q : PluginEventBus} {b c : EventBus ε} {l : Listener}
    (hr : q.registered = p.registered ++ [l]) (hl : l.owner = i)
    (hc : ∀ t m, (c.listeners t).count m ≤ (b.listeners t).count m + if l = m then 1 else 0)
    (h : Counted i (p, b)) : Counted i (q, c) where
  own := by
    intro m hm
    rw [hr, List.mem_append, List.mem_singleton] at hm
    cases hm with
    | inl hm => exact h.own m hm
    | inr hm => exact hm ▸ hl
  count_le := by
    intro t m hm
    have hle := h.count_le t m hm
    have hadd := hc t m
    rw [hr, List.count_append, List.count_singleton]
    simp only [beq_iff_eq]
    dsimp only at hle ⊢
    omega

theorem acted_run (a : Action ε) : Acted i x (a.run i x) := by
  obtain ⟨p, b⟩ := x
  cases a with
  | register t method =>
    by_cases hg : p.grantsEvents
    · simp only [Action.run, hg, if_true]
      constructor
      · refine counted_snoc rfl rfl (fun u m => ?_)
        rw [count_register]
        by_cases hm : (⟨i, method⟩ : Listener) = m
        · by_cases hu : u = t <;> simp [hm, hu]
        · simp [hm]
      · intro u m hm
        have hne : (⟨i, method⟩ : Listener) ≠ m := fun h => hm (h ▸ rfl)
        simp [count_register, hne]
    · simp only [Action.run, hg]
      exact acted_refl
  | unregister t method =>
    by_cases hg : p.grantsEvents
    · simp only [Action.run, hg, if_true]
      constructor
      · intro h
        exact ⟨h.own, fun u m hm => count_unregister_le.trans (h.count_le u m hm)⟩
      · intro u m hm
        exact count_unregister_of_ne (fun h => hm (h ▸ rfl))
    · simp only [Action.run, hg]
      exact acted_refl
  | registerHook lifecycle method =>
    by_cases hd : p.declares lifecycle
    · simp only [Action.run, hd, if_true]
      constructor
      · exact counted_snoc rfl rfl (fun u m => Nat.le_add_right _ _)
      · intro u m hm
        rfl
    · simp only [Action.run, hd]
      exact acted_refl

theorem acted_runActions (actions : List (Action ε)) : Acted i x (runActions i actions x) := by
  induction actions generalizing x with
  | nil => exact acted_refl
  | cons a actions ih => exact acted_trans (acted_run a) ih

theorem count_run_le {a : Action ε} (h : a.registers = false) (t : ε) (l : Listener) :
    ((a.run i x).2.listeners t).count l ≤ (x.2.listeners t).count l := by
  obtain ⟨p, b⟩ := x
  cases a with
  | register t method => cases h
  | unregister u method =>
    by_cases hg : p.grantsEvents
    · simpa only [Action.run, hg, if_true] using count_unregister_le
    · simp [Action.run, hg]
  | registerHook lifecycle method =>
    by_cases hd : p.declares lifecycle
    · simp [Action.run, hd]
    · simp [Action.run, hd]

theorem count_runActions_le {actions : List (Action ε)} (h : ∀ a ∈ actions, a.registers = false)
    (t : ε) (l : Listener) : ((runActions i actions x).2.listeners t).count l ≤ (x.2.listeners t).count l := by
  induction actions generalizing x with
  | nil => exact Nat.le_refl _
  | cons a actions ih =>
    have ha := count_run_le (i := i) (x := x) (h a List.mem_cons_self) t l
    exact (ih (fun c hc => h c (List.mem_cons_of_mem a hc))).trans ha

theorem count_unregisterAll (t : ε) (l : Listener) : ((unregisterAll x).2.listeners t).count l =
      (x.2.listeners t).count l - x.1.registered.count l :=
  count_withdraw_all _

theorem unregisterAll_gone (h : Counted i x) {l : Listener} (hl : l.owner = i) (t : ε) :
    ((unregisterAll x).2.listeners t).count l = 0 := by
  have hle := h.count_le t l hl
  rw [count_unregisterAll]
  omega

theorem acted_unregisterAll (h : Counted i x) : Acted i x (unregisterAll x) where
  counted := by
    intro _
    refine ⟨fun l hl => (nomatch hl), fun t l hl => ?_⟩
    rw [unregisterAll_gone h hl]
    exact Nat.zero_le _
  others := by
    intro t l hl
    have hn : l ∉ x.1.registered := fun hm => hl (h.own l hm)
    rw [count_unregisterAll, List.count_eq_zero_of_not_mem hn]
    rfl

end Kirara.PluginBuses

namespace Kirara.PluginLoaders

open Kirara.Channels Kirara.Dicts Kirara.PluginBuses

/-- What the loader reads of a `PluginInfo`. -/
structure PluginInfo where
  packageName : Option Text
  isInternal : Bool
  isEnabled : Bool
  requiresRestart : Bool

/-- A plugin instance. Its name and that `on_start` has returned are only recorded. -/
structure Instance where
  name : Text
  bus : PluginEventBus
  started : Bool

/-- A `PluginLoader` with the buses it deals with and the configuration. -/
structure Loader (ε : Type) where
  plugins : Dict Text Nat
  infos : Dict Text PluginInfo
  internalPlugins : List Text
  enable : List Text
  events : EventBus ε
  host : List Nat
  instances : Nat → Instance
  created : Nat

/-- The plugin is the manifest of the class that loads, where one does. -/
structure EntryPoint where
  name : Text
  package : Text
  plugin : Option (Option Manifest)

inductive Phase where
  | load
  | start
  | stop

/-- What a hook of a plugin does, and whether an exception leaves it. -/
structure Hook (ε : Type) where
  actions : List (Action ε)
  raises : Bool

structure Environment (ε : Type) where
  modules : Text → Option (Option Manifest)
  entryPoints : List EntryPoint
  hook : Nat → Phase → Hook ε

inductive Outcome where
  | returned (value : Bool)
  | raised
  deriving DecidableEq

inductive Operation where
  | discoverInternal (names : List Text)
  | discoverExternal
  | loadPlugin (name : Text)
  | loadPlugins
  | startPlugins
  | stopPlugins
  | install (succeeds : Bool)
  | enable (name : Text)
  | disable (name : Text)

structure Label (ε : Type) where
  operation : Operation
  environment : Environment ε

/-- `LEGACY_EXTERNAL_PLUGIN_REPLACEMENTS`. -/
def replacementOf (name : Text) : Option Text :=
  if name = "im_onebot_adapters".toList then some "im_onebot_adapter".toList else none

variable {ε : Type} [DecidableEq ε]

namespace Loader

def busOf (i : Nat) (s : Loader ε) : PluginEventBus × EventBus ε := ((s.instances i).bus, s.events)

def withBus (i : Nat) (x : PluginEventBus × EventBus ε) (s : Loader ε) : Loader ε :=
  { s with
    events := x.2
    instances := Function.update s.instances i { s.instances i with bus := x.1 } }

/-- `instantiate_plugin`, and the entry in `plugins`. -/
def create (name : Text) (manifest : Option Manifest) (s : Loader ε) : Loader ε :=
  { s with
    plugins := s.plugins.set name s.created
    host := if manifest.isSome then s.host ++ [s.created] else s.host
    instances := Function.update s.instances s.created ⟨name, ⟨manifest, [], []⟩, false⟩
    created := s.created + 1 }

def setInfo (name : Text) (info : PluginInfo) (s : Loader ε) : Loader ε :=
  { s with infos := s.infos.set name info }

def markStarted (i : Nat) (s : Loader ε) : Loader ε :=
  { s with instances := Function.update s.instances i { s.instances i with started := true } }

/-- `config.plugins.enable.append`, where it is not there. -/
def listName (name : Text) (s : Loader ε) : Loader ε :=
  { s with enable := if name ∈ s.enable then s.enable else s.enable ++ [name] }

/-- `unregister_all` of the instance's bus, and its end on the extension host. -/
def silence (i : Nat) (s : Loader ε) : Loader ε :=
  { s.withBus i (unregisterAll (s.busOf i)) with host := s.host.filter (· ≠ i) }

end Loader

variable (E : Environment ε)

def loadInternalPlugin (name : Text) (s : Loader ε) : Option (Nat × Loader ε) :=
  (E.modules name).map (fun manifest =>
    (s.created, (s.create name manifest).setInfo name ⟨none, true, true, false⟩))

def loadExternalPlugin (name : Text) (s : Loader ε) : Option (Nat × Loader ε) :=
  match replacementOf name with
  | some replacement =>
    match s.plugins.get replacement with
    | some i => some (i, s)
    | none =>
      if replacement ∈ s.internalPlugins then loadInternalPlugin E replacement s else none
  | none =>
    match E.entryPoints.find? (fun ep => ep.name = name) with
    | none => none
    | some ep => ep.plugin.map (fun manifest => (s.created, s.create name manifest))

/-- `load_plugin` under the name that is not replaced. What it raises is logged. -/
def loadResolved (name : Text) (s : Loader ε) : Loader ε :=
  match if name ∈ s.internalPlugins then loadInternalPlugin E name s else loadExternalPlugin E name s with
  | some (_, t) => t
  | none => s

def loadPlugin (name : Text) (s : Loader ε) : Loader ε :=
  match replacementOf name with
  | some replacement =>
    if (s.plugins.get replacement).isSome then s else loadResolved E replacement s
  | none => loadResolved E name s

def discoverInternalPlugins (names : List Text) (s : Loader ε) : Loader ε :=
  names.foldl (fun s name =>
    loadPlugin E name { s with internalPlugins := s.internalPlugins ++ [name] }) s

def processEntryPoint (s : Loader ε) (ep : EntryPoint) : Loader ε :=
  if (replacementOf ep.name).isSome then s
  else
    let s := s.setInfo ep.name ⟨some ep.package, false, false, false⟩
    if ep.name ∈ s.enable then
      match loadExternalPlugin E ep.name s with
      | some (_, t) => t
      | none => s
    else s

def discoverExternalPlugins (s : Loader ε) : Loader ε :=
  E.entryPoints.foldl (processEntryPoint E) s

def callHook (phase : Phase) (i : Nat) (s : Loader ε) : Loader ε × Bool :=
  (s.withBus i (runActions i (E.hook i phase).actions (s.busOf i)), (E.hook i phase).raises)

def loadPlugins (s : Loader ε) : Loader ε :=
  s.plugins.entries.foldl (fun s p => (callHook E .load p.2 s).1) s

/-- One round of `start_plugins`. A plugin without an info is started all the same. -/
def startPlugin (s : Loader ε) (p : Text × Nat) : Loader ε :=
  match callHook E .start p.2 s with
  | (t, true) => t
  | (t, false) =>
    match t.infos.get p.1 with
    | none => t.markStarted p.2
    | some info => (t.markStarted p.2).setInfo p.1 { info with isEnabled := true }

def startPlugins (s : Loader ε) : Loader ε := s.plugins.entries.foldl (startPlugin E) s

def stopPlugin (s : Loader ε) (p : Text × Nat) : Loader ε :=
  match callHook E .stop p.2 s with
  | (t, true) => t
  | (t, false) => t.silence p.2

def stopPlugins (s : Loader ε) : Loader ε := s.plugins.entries.foldl (stopPlugin E) s

/-- Loading a built-in plugin has replaced the info that is marked. -/
def markRestart (name : Text) (info : PluginInfo) (s : Loader ε) : Loader ε :=
  if info.isInternal then s else s.setInfo name { info with requiresRestart := true }

def runEnabled (name : Text) (info : PluginInfo) (i : Nat) (s : Loader ε) : Loader ε × Outcome :=
  match callHook E .load i s with
  | (t, true) => (markRestart name info t, .raised)
  | (t, false) =>
    match callHook E .start i t with
    | (u, true) => (markRestart name info u, .raised)
    | (u, false) =>
      (if info.isInternal then u.markStarted i
        else (u.markStarted i).setInfo name { info with isEnabled := true }, .returned true)

def enablePlugin (name : Text) (s : Loader ε) : Loader ε × Outcome :=
  match s.infos.get name with
  | none => (s, .raised)
  | some info =>
    if info.isEnabled then (s, .returned true)
    else
      match if info.isInternal then loadInternalPlugin E name s else loadExternalPlugin E name s with
      | none => (s.setInfo name { info with requiresRestart := true }, .raised)
      | some (i, t) => runEnabled E name info i (t.listName name)

/-- The end of `disable_plugin`. -/
def unlist (name : Text) (info : PluginInfo) (s : Loader ε) : Loader ε :=
  { s with
    enable := s.enable.erase name
    infos := s.infos.set name { info with isEnabled := false } }

def disablePlugin (name : Text) (s : Loader ε) : Loader ε × Outcome :=
  match s.infos.get name with
  | none => (s, .raised)
  | some info =>
    if info.isEnabled then
      match s.plugins.get name with
      | none => (unlist name info s, .returned true)
      | some i =>
        match callHook E .stop i (s.silence i) with
        | (t, true) => (t.setInfo name { info with requiresRestart := true }, .returned false)
        | (t, false) => (unlist name info { t with plugins := t.plugins.pop name }, .returned true)
    else (s, .returned true)

def step (s : Loader ε) (l : Label ε) : Loader ε × Outcome :=
  let E := l.environment
  match l.operation with
  | .discoverInternal names => (discoverInternalPlugins E names s, .returned true)
  | .discoverExternal => (discoverExternalPlugins E s, .returned true)
  | .loadPlugin name => (loadPlugin E name s, .returned true)
  | .loadPlugins => (loadPlugins E s, .returned true)
  | .startPlugins => (startPlugins E s, .returned true)
  | .stopPlugins => (stopPlugins E s, .returned true)
  | .install true => (discoverExternalPlugins E s, .returned true)
  | .install false => (s, .raised)
  | .enable name => enablePlugin E name s
  | .disable name => disablePlugin E name s

def next (s : Loader ε) (l : Label ε) : Option (Loader ε) := some (step s l).1

def fresh (enable : List Text) : Loader ε where
  plugins := Dict.empty
  infos := Dict.empty
  internalPlugins := []
  enable := enable
  events := Dict.empty
  host := []
  instances := fun _ => ⟨[], ⟨none, [], []⟩, false⟩
  created := 0

end Kirara.PluginLoaders
