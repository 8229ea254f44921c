import Kirara.ConfirmedTools

namespace Kirara.ServerCaches

open Kirara.Channels Kirara.Dicts Kirara.ToolNames
open Kirara.ConfirmedTools (ConnectionState)

section Server

variable {τ : Type}

/-- Where `_lifecycle_manager` is: it opens the session, waits for the signal to close, or closes its resources. -/
inductive Lifecycle where
  | none
  | starting
  | running
  | closing
  deriving DecidableEq

/-- An `MCPServer`, and the tools that it listed last since it was connected. -/
structure Server (τ : Type) where
  state : ConnectionState
  lifecycle : Lifecycle
  shutdown : Bool
  listed : Option (List (Tool τ))

def Server.new : Server τ := ⟨.disconnected, .none, false, .none⟩

/-- `connect`, where it begins to wait. -/
def Server.connect (x : Server τ) : Server τ :=
  { x with
    state := .connecting
    shutdown := false
    lifecycle := if x.lifecycle = .none then .starting else x.lifecycle }

/-- `disconnect`, and whether it waits for the lifecycle to end. -/
def Server.disconnect (x : Server τ) : Server τ × Bool :=
  if x.state = .disconnected then (x, false)
  else if x.lifecycle = .none then ({ x with state := .disconnected, shutdown := true }, false)
  else ({ x with state := .disconnecting, shutdown := true }, true)

def Server.close (x : Server τ) : Server τ :=
  { x with lifecycle := .none, state := if x.state = .disconnecting then .disconnected else x.state }

inductive Kind where
  | tools
  | prompts
  | resources
  deriving DecidableEq

/-- A part of `gather` after a connect: it has not begun, waits for an answer, or is over. -/
inductive Ask where
  | waiting
  | asked (server : Nat)
  | done (ok : Bool)
  deriving DecidableEq

/-- What `refresh_managed_servers` does with a server that it has stopped. -/
inductive Next where
  | keep
  | pop
  | replace
  deriving DecidableEq

inductive Phase where
  /-- `connect` waits for the event, which may have been set. -/
  | connecting (woken : Bool)
  /-- `connect` has timed out, and disconnects. -/
  | withdrawing
  | listing (asks : Kind → Ask)
  | stopping (next : Next)

/-- A `connect_server` or `stop_server` in progress, and its server object. -/
structure Task where
  server : Nat
  phase : Phase

/-- A notification that waits for the new list. -/
structure Note where
  kind : Kind
  server : Nat

inductive Answer (τ : Type) where
  | tools (tools : List (Tool τ))
  | prompts (names : List Text)
  | resources (names : List Text)

def Answer.kind : Answer τ → Kind
  | .tools _ => .tools
  | .prompts _ => .prompts
  | .resources _ => .resources

/-- What the manager has for one server id, with the operations in progress. -/
structure Local (τ : Type) where
  servers : Nat → Server τ
  made : Nat
  managed : Option Nat
  tasks : List Task
  notes : List Note
  indexes : Kind → Option (List Text)

def Local.new : Local τ := ⟨fun _ => Server.new, 0, none, [], [], fun _ => none⟩

/-- What a step does to the entries of one server id in the cache of tools. -/
inductive Effect (τ : Type) where
  | keep
  | clear
  | list (tools : List (Tool τ))

def Local.put (l : Local τ) (o : Nat) (x : Server τ) : Local τ := { l with servers := Function.update l.servers o x }

def Local.drop (l : Local τ) (t : Nat) : Local τ := { l with tasks := l.tasks.eraseIdx t }

/-- `_clear_server_caches`, but for the tools. -/
def Local.clear (l : Local τ) : Local τ := { l with indexes := fun _ => none }

def Local.next (l : Local τ) : Next → Local τ
  | .keep => l
  | .pop => { l with managed := none }
  | .replace => { l.put l.made Server.new with made := l.made + 1, managed := some l.made }

def Task.wake (o : Nat) (t : Task) : Task :=
  match t.phase with
  | .connecting _ => if t.server = o then { t with phase := .connecting true } else t
  | _ => t

def Local.wake (l : Local τ) (o : Nat) : Local τ := { l with tasks := l.tasks.map (Task.wake o) }

def connectedServer (l : Local τ) : Option Nat := l.managed.filter (fun o => (l.servers o).state = .connected)

def Local.store (l : Local τ) (o : Nat) : Answer τ → Local τ × Effect τ
  | .tools tools => (l.put o { l.servers o with listed := some tools }, .list tools)
  | .prompts names => ({ l with indexes := Function.update l.indexes .prompts (some names) }, .keep)
  | .resources names => ({ l with indexes := Function.update l.indexes .resources (some names) }, .keep)

def Ask.ok (a : Ask) : Bool := a = .done true

def Ask.over : Ask → Bool
  | .done _ => true
  | _ => false

def allOk (asks : Kind → Ask) : Bool := (asks .tools).ok && (asks .prompts).ok && (asks .resources).ok

def allOver (asks : Kind → Ask) : Bool := (asks .tools).over && (asks .prompts).over && (asks .resources).over

def Local.setPhase (l : Local τ) (t : Nat) (o : Nat) (phase : Phase) : Local τ := { l with tasks := l.tasks.set t ⟨o, phase⟩ }

/-- What happens for one server id between two awaits. -/
inductive Event (τ : Type) where
  /-- `load_server`, for an id that is not managed. -/
  | load
  | connect
  /-- `stop_server`, and what a refresh does afterwards. -/
  | stop (next : Next)
  /-- The session is initialized, or opening it raises, or the lifecycle is told to end, is cut
off, is over. -/
  | up (o : Nat)
  | fall (o : Nat)
  | shut (o : Nat)
  | die (o : Nat)
  | close (o : Nat)
  /-- The event is seen by a `connect`, or comes too late. -/
  | wake (t : Nat)
  | timeout (t : Nat)
  /-- A `disconnect` has waited for the lifecycle, or that has raised. -/
  | ended (t : Nat) (ok : Bool)
  | ask (t : Nat) (kind : Kind)
  | answer (t : Nat) (a : Answer τ)
  /-- A list is refused; that a method is unknown counts as any other error. -/
  | refuse (t : Nat) (kind : Kind)
  | finish (t : Nat)
  | notify (kind : Kind)
  | noteAnswer (n : Nat) (a : Answer τ)
  | noteRefuse (n : Nat)

def Local.step (l : Local τ) : Event τ → Local τ × Effect τ
  | .load => if l.managed = none then (l.next .replace, .keep) else (l, .keep)
  | .connect =>
    match l.managed with
    | none => (l.clear, .clear)
    | some o =>
      if (l.servers o).state = .connected then (l, .keep)
      else if (l.servers o).state = .disconnected ∨ (l.servers o).state = .error then
        ({ l.clear.put o (l.servers o).connect with tasks := l.tasks ++ [⟨o, .connecting false⟩] }, .clear)
      else (l.clear, .clear)
  | .stop next =>
    match l.managed with
    | none => (l.clear, .clear)
    | some o =>
      if (l.servers o).state ≠ .connected then (l.clear.next next, .clear)
      else if (l.servers o).disconnect.2 then
        ({ l.put o (l.servers o).disconnect.1 with tasks := l.tasks ++ [⟨o, .stopping next⟩] }, .keep)
      else ((l.put o (l.servers o).disconnect.1).clear.next next, .clear)
  | .up o =>
    if (l.servers o).lifecycle = .starting then
      ((l.put o { l.servers o with state := .connected, lifecycle := .running, listed := none }).wake o, .keep)
    else (l, .keep)
  | .fall o =>
    if (l.servers o).lifecycle = .starting then
      ((l.put o { l.servers o with state := .error, lifecycle := .closing }).wake o, .keep)
    else (l, .keep)
  | .shut o =>
    if (l.servers o).lifecycle = .running ∧ (l.servers o).shutdown = true then
      (l.put o { l.servers o with lifecycle := .closing }, .keep)
    else (l, .keep)
  | .die o =>
    if (l.servers o).lifecycle = .starting ∨ (l.servers o).lifecycle = .running then
      (l.put o { l.servers o with lifecycle := .closing }, .keep)
    else (l, .keep)
  | .close o =>
    if (l.servers o).lifecycle = .closing then (l.put o (l.servers o).close, .keep) else (l, .keep)
  | .wake t =>
    match l.tasks[t]? with
    | some ⟨o, .connecting true⟩ =>
      if (l.servers o).state = .connected then (l.setPhase t o (.listing (fun _ => .waiting)), .keep)
      else ((l.drop t).clear, .clear)
    | _ => (l, .keep)
  | .timeout t =>
    match l.tasks[t]? with
    | some ⟨o, .connecting _⟩ =>
      if (l.servers o).disconnect.2 then ((l.put o (l.servers o).disconnect.1).setPhase t o .withdrawing, .keep)
      else (((l.put o (l.servers o).disconnect.1).drop t).clear, .clear)
    | _ => (l, .keep)
  | .ended t ok =>
    match l.tasks[t]? with
    | some ⟨o, phase⟩ =>
      if (l.servers o).lifecycle = .none then
        match phase with
        | .withdrawing =>
          (((l.put o { l.servers o with state := if ok then .disconnected else .error }).drop t).clear, .clear)
        | .stopping next =>
          (((l.put o { l.servers o with state := if ok then .disconnected else .error }).drop t).clear.next next, .clear)
        | _ => (l, .keep)
      else (l, .keep)
    | none => (l, .keep)
  | .ask t kind =>
    match l.tasks[t]? with
    | some ⟨o, .listing asks⟩ =>
      if asks kind = .waiting then
        let ask := match connectedServer l with
          | some o' => .asked o'
          | none => .done false
        (l.setPhase t o (.listing (Function.update asks kind ask)), .keep)
      else (l, .keep)
    | _ => (l, .keep)
  | .answer t a =>
    match l.tasks[t]? with
    | some ⟨o, .listing asks⟩ =>
      match asks a.kind with
      | .asked o' => ((l.setPhase t o (.listing (Function.update asks a.kind (.done true)))).store o' a)
      | _ => (l, .keep)
    | _ => (l, .keep)
  | .refuse t kind =>
    match l.tasks[t]? with
    | some ⟨o, .listing asks⟩ =>
      match asks kind with
      | .asked _ => (l.setPhase t o (.listing (Function.update asks kind (.done false))), .keep)
      | _ => (l, .keep)
    | _ => (l, .keep)
  | .finish t =>
    match l.tasks[t]? with
    | some ⟨_, .listing asks⟩ =>
      if allOver asks then
        if allOk asks then (l.drop t, .keep) else ((l.drop t).clear, .clear)
      else (l, .keep)
    | _ => (l, .keep)
  | .notify kind =>
    match connectedServer l with
    | some o => ({ l with notes := l.notes ++ [⟨kind, o⟩] }, .keep)
    | none => (l, .keep)
  | .noteAnswer n a =>
    match l.notes[n]? with
    | some ⟨kind, o⟩ => if a.kind = kind then ({ l with notes := l.notes.eraseIdx n }.store o a) else (l, .keep)
    | none => (l, .keep)
  | .noteRefuse n => ({ l with notes := l.notes.eraseIdx n }, .keep)

/-- Whether a step ends a `connect_server` that reports success. -/
def Local.reportsSuccess (l : Local τ) : Event τ → Bool
  | .connect => (connectedServer l).isSome
  | .finish t =>
    match l.tasks[t]? with
    | some ⟨_, .listing asks⟩ => allOk asks
    | _ => false
  | _ => false

/-- The cache of the tools, and what there is for each server id. -/
structure State (τ : Type) where
  tools : ToolNames.State τ
  locals : Text → Local τ

def State.new : State τ := ⟨ToolNames.State.empty, fun _ => Local.new⟩

def Effect.apply (id : Text) (s : ToolNames.State τ) : Effect τ → ToolNames.State τ
  | .keep => s
  | .clear => ToolNames.step s (.clear id)
  | .list tools => ToolNames.step s (.update id tools)

def step (s : State τ) (e : Text × Event τ) : State τ :=
  ⟨((s.locals e.1).step e.2).2.apply e.1 s.tools, Function.update s.locals e.1 ((s.locals e.1).step e.2).1⟩

def run (s : State τ) (events : List (Text × Event τ)) : State τ := events.foldl step s

end Server

variable {τ : Type} {l : Local τ} {listed tools : List (Tool τ)} {o t : Nat} {x : Server τ} {e : Event τ} {phase : Phase}

def Local.Clear (l : Local τ) (listed : List (Tool τ)) : Prop := listed = [] ∧ ∀ kind, l.indexes kind = none

def Server.Current (x : Server τ) (listed : List (Tool τ)) : Prop := ∃ tools, x.listed = some tools ∧ listed = named tools

/-- What holds of a server id on which no operation is in progress. -/
def Settled (l : Local τ) (listed : List (Tool τ)) : Prop :=
  match l.managed with
  | none => l.Clear listed
  | some o => (l.servers o).lifecycle ≠ .starting ∧ ((l.servers o).state = .connected → (l.servers o).Current listed) ∧
      ((l.servers o).state ≠ .connected → l.Clear listed)

/-- What holds of the server of an operation in progress. -/
def Phase.Sound (x : Server τ) (listed : List (Tool τ)) : Phase → Prop
  | .connecting false => x.state = .connecting
  | .connecting true => x.lifecycle ≠ .starting
  | .withdrawing => True
  | .listing asks => x.state = .connected ∧ x.lifecycle ≠ .starting ∧ (asks .tools = .done true → x.Current listed)
  | .stopping _ => x.lifecycle ≠ .starting

/-- No operation is in progress, or one on the server that is managed. -/
structure Sound (l : Local τ) (listed : List (Tool τ)) : Prop where
  made : ∀ o, l.managed = some o → o < l.made
  cases : l.tasks = [] ∧ Settled l listed ∨
    ∃ o phase, l.tasks = [⟨o, phase⟩] ∧ l.managed = some o ∧ phase.Sound (l.servers o) listed

/-- The parts of the listing that an operation waits for. -/
def Local.asks (l : Local τ) (t : Nat) : Option (Kind → Ask) :=
  match l.tasks[t]? with
  | some ⟨_, .listing asks⟩ => some asks
  | _ => none

def Ask.server : Ask → Option Nat
  | .asked o => some o
  | _ => none

def Answer.Fits (id : Text) (s : ToolNames.State τ) : Answer τ → Prop
  | .tools tools => ToolNames.Careful s (.update id tools)
  | _ => True

/-- Operations on one server do not overlap, and lists are stored for the server that gave them. -/
def Careful (s : State τ) (id : Text) : Event τ → Prop
  | .connect => (s.locals id).tasks = [] ∨ ∃ o ∈ (s.locals id).managed,
      ((s.locals id).servers o).state = .connecting ∨ ((s.locals id).servers o).state = .disconnecting
  | .stop next => (s.locals id).tasks = [] ∨ next = .keep ∧ connectedServer (s.locals id) = none
  | .answer t a => ∀ asks ∈ (s.locals id).asks t, ∀ o ∈ (asks a.kind).server,
      connectedServer (s.locals id) = some o ∧ a.Fits id s.tools
  | .noteAnswer n a => ∀ note ∈ (s.locals id).notes[n]?, connectedServer (s.locals id) = some note.server ∧ a.Fits id s.tools
  | .finish t => ∀ asks ∈ (s.locals id).asks t, allOver asks = true → allOk asks = true
  | _ => True

def CarefulRun (s : State τ) : List (Text × Event τ) → Prop
  | [] => True
  | e :: events => Careful s e.1 e.2 ∧ CarefulRun (step s e) events

def Effect.leaves (listed : List (Tool τ)) : Effect τ → List (Tool τ)
  | .keep => listed
  | .clear => []
  | .list tools => named tools

instance (id : Text) (s : ToolNames.State τ) : ∀ a : Answer τ, Decidable (a.Fits id s)
  | .tools tools => inferInstanceAs (Decidable (ToolNames.Careful s (.update id tools)))
  | .prompts _ | .resources _ => isTrue trivial

instance decidableCareful (s : State τ) (id : Text) : ∀ e, Decidable (Careful s id e)
  | .connect => inferInstanceAs (Decidable (_ = [] ∨ ∃ o ∈ (s.locals id).managed, _ ∨ _))
  | .stop _ => inferInstanceAs (Decidable (_ = [] ∨ _ ∧ _))
  | .answer _ _ => inferInstanceAs (Decidable (∀ asks ∈ (_ : Option _), ∀ o ∈ (_ : Option _), _ ∧ _))
  | .noteAnswer _ _ => inferInstanceAs (Decidable (∀ note ∈ (_ : Option _), _ ∧ _))
  | .finish _ => inferInstanceAs (Decidable (∀ asks ∈ (_ : Option _), _ → _))
  | .load | .up _ | .fall _ | .shut _ | .die _ | .close _ | .wake _ | .timeout _ | .ended _ _ | .ask _ _ | .refuse _ _ |
    .notify _ | .noteRefuse _ => isTrue trivial

instance decidableCarefulRun : ∀ (s : State τ) events, Decidable (CarefulRun s events)
  | _, [] => isTrue trivial
  | s, e :: events =>
    have := decidableCarefulRun (step s e) events
    inferInstanceAs (Decidable (_ ∧ _))

theorem asks_eq_some {asks : Kind → Ask} (h : l.tasks[t]? = some ⟨o, .listing asks⟩) : l.asks t = some asks := by
  rw [Local.asks, h]

theorem Sound.task (h : Sound l listed) (ht : l.tasks[t]? = some ⟨o, phase⟩) :
    l.tasks = [⟨o, phase⟩] ∧ t = 0 ∧ l.managed = some o ∧ phase.Sound (l.servers o) listed := by
  obtain ⟨hnone, -⟩ | ⟨o', phase', hone, hmanaged, hphase⟩ := h.cases
  · rw [hnone] at ht
    cases ht
  · rw [hone] at ht
    cases t with
    | zero =>
      cases ht
      exact ⟨hone, rfl, hmanaged, hphase⟩
    | succ t => cases ht

theorem connectedServer_eq_some : connectedServer l = some o ↔ l.managed = some o ∧ (l.servers o).state = .connected := by
  rw [connectedServer, Option.filter_eq_some_iff, decide_eq_true_eq]

theorem put_self (l : Local τ) (o : Nat) (x : Server τ) : (l.put o x).servers o = x := by
  simp [Local.put]

theorem put_of_ne {o' : Nat} (h : o' ≠ o) : (l.put o x).servers o' = l.servers o' := by
  simp [Local.put, h]

theorem sound_put_other (h : Sound l listed) (ho : l.managed ≠ some o) : Sound (l.put o x) listed := by
  have hne {o' : Nat} (hm : l.managed = some o') : (l.put o x).servers o' = l.servers o' :=
    put_of_ne (fun heq : o' = o => ho (heq ▸ hm))
  refine ⟨h.made, ?_⟩
  obtain ⟨hnone, hsettled⟩ | ⟨o', phase, hone, hmanaged, hphase⟩ := h.cases
  · refine .inl ⟨hnone, ?_⟩
    unfold Settled at hsettled ⊢
    change match l.managed with | none => _ | some o' => _
    cases hm : l.managed with
    | none =>
      rw [hm] at hsettled
      exact hsettled
    | some o' =>
      rw [hm] at hsettled
      dsimp only at hsettled ⊢
      rw [hne hm]
      exact hsettled
  · exact .inr ⟨o', phase, hone, hmanaged, by rwa [hne hmanaged]⟩

theorem sound_put (h : Sound l listed) (hm : l.managed = some o) (hlifecycle : x.lifecycle ≠ .starting)
    (hstate : x.state = .connected ↔ (l.servers o).state = .connected)
    (hconnecting : (l.servers o).state = .connecting → x.state = .connecting) (hlisted : x.listed = (l.servers o).listed) :
    Sound (l.put o x) listed := by
  have hself := put_self l o x
  have hcurrent (hc : (l.servers o).Current listed) : x.Current listed := by rwa [Server.Current, hlisted]
  refine ⟨h.made, ?_⟩
  obtain ⟨hnone, hsettled⟩ | ⟨o', phase, hone, hmanaged, hphase⟩ := h.cases
  · refine .inl ⟨hnone, ?_⟩
    unfold Settled at hsettled ⊢
    change match l.managed with | none => _ | some o' => _
    rw [hm] at hsettled ⊢
    dsimp only at hsettled ⊢
    rw [hself]
    exact ⟨hlifecycle, fun hx => hcurrent (hsettled.2.1 (hstate.mp hx)), fun hx => hsettled.2.2 (fun hc => hx (hstate.mpr hc))⟩
  · obtain rfl : o = o' := Option.some.inj (hm.symm.trans hmanaged)
    refine .inr ⟨o, phase, hone, hmanaged, ?_⟩
    rw [hself]
    cases phase with
    | connecting woken =>
      cases woken with
      | false => exact hconnecting hphase
      | true => exact hlifecycle
    | withdrawing => trivial
    | listing asks => exact ⟨hstate.mpr hphase.1, hlifecycle, fun ha => hcurrent (hphase.2.2 ha)⟩
    | stopping next => exact hlifecycle

theorem settled_cleared (h : ∀ o, l.managed = some o → (l.servers o).lifecycle ≠ .starting ∧ (l.servers o).state ≠ .connected) :
    Settled l.clear [] := by
  unfold Settled
  change match l.managed with | none => _ | some o' => _
  cases hm : l.managed with
  | none => exact ⟨rfl, fun _ => rfl⟩
  | some o => exact ⟨(h o hm).1, fun hc => absurd hc (h o hm).2, fun _ => ⟨rfl, fun _ => rfl⟩⟩

theorem sound_clear (h : Sound l listed) (hnot : ∀ o, l.managed = some o → (l.servers o).state ≠ .connected) :
    Sound l.clear [] := by
  refine ⟨h.made, ?_⟩
  obtain ⟨hnone, hsettled⟩ | ⟨o, phase, hone, hmanaged, hphase⟩ := h.cases
  · refine .inl ⟨hnone, settled_cleared (fun o hm => ⟨?_, hnot o hm⟩)⟩
    rw [Settled, hm] at hsettled
    exact hsettled.1
  · refine .inr ⟨o, phase, hone, hmanaged, ?_⟩
    cases phase with
    | connecting woken => cases woken <;> exact hphase
    | withdrawing => trivial
    | listing asks => exact absurd hphase.1 (hnot o hmanaged)
    | stopping next => exact hphase

theorem sound_next (hmade : ∀ o, l.managed = some o → o < l.made) (htasks : l.tasks = [])
    (h : ∀ o, l.managed = some o → (l.servers o).lifecycle ≠ .starting ∧ (l.servers o).state ≠ .connected) (next : Next) :
    Sound (l.clear.next next) [] := by
  cases next with
  | keep => exact ⟨hmade, .inl ⟨htasks, settled_cleared h⟩⟩
  | pop => exact ⟨fun o hm => (nomatch hm), .inl ⟨htasks, rfl, fun _ => rfl⟩⟩
  | replace =>
    have hnew : (l.clear.next .replace).servers l.made = Server.new := put_self l.clear l.made Server.new
    refine ⟨fun o hm => ?_, .inl ⟨htasks, ?_⟩⟩
    · cases hm
      exact Nat.lt_succ_self _
    · change ((l.clear.next .replace).servers l.made).lifecycle ≠ .starting ∧
        (((l.clear.next .replace).servers l.made).state = .connected → _) ∧
        (((l.clear.next .replace).servers l.made).state ≠ .connected → _)
      rw [hnew]
      exact ⟨nofun, nofun, fun _ => ⟨rfl, fun _ => rfl⟩⟩

theorem disconnect_lifecycle : x.disconnect.1.lifecycle = x.lifecycle := by
  unfold Server.disconnect
  split
  · rfl
  split
  · rfl
  · rfl

theorem disconnect_state (h : x.disconnect.2 = false) : x.disconnect.1.state = .disconnected := by
  unfold Server.disconnect at h ⊢
  split
  · next hs => exact hs
  split
  · rfl
  · next hs hl =>
    rw [if_neg hs, if_neg hl] at h
    cases h

theorem settled_lifecycle (h : Settled l listed) (hm : l.managed = some o) : (l.servers o).lifecycle ≠ .starting := by
  rw [Settled, hm] at h
  exact h.1

variable (h : Sound l listed)

include h

theorem tasks_of_unmanaged (hm : l.managed = none) : l.tasks = [] ∧ l.Clear listed := by
  obtain ⟨hnone, hsettled⟩ | ⟨o, phase, -, hmanaged, -⟩ := h.cases
  · rw [Settled, hm] at hsettled
    exact ⟨hnone, hsettled⟩
  · rw [hm] at hmanaged
    cases hmanaged

theorem sound_load : Sound (l.step .load).1 ((l.step .load).2.leaves listed) := by
  rw [Local.step]
  split
  · next hm =>
    obtain ⟨htasks, hlisted, hindexes⟩ := tasks_of_unmanaged h hm
    have hclear : l.clear = l := by
      rw [Local.clear, ← funext hindexes]
    change Sound (l.next .replace) listed
    rw [← hclear, hlisted]
    refine sound_next h.made htasks (fun o ho => ?_) .replace
    rw [hm] at ho
    cases ho
  · exact h

theorem sound_connect (hcareful : l.tasks = [] ∨ ∃ o ∈ l.managed,
    (l.servers o).state = .connecting ∨ (l.servers o).state = .disconnecting) :
    Sound (l.step .connect).1 ((l.step .connect).2.leaves listed) := by
  rw [Local.step]
  split
  · next hm =>
    refine sound_clear h (fun o ho => ?_)
    rw [hm] at ho
    cases ho
  next o hm =>
  split
  · exact h
  next hnot =>
  split
  · next hidle =>
    refine ⟨h.made, .inr ⟨o, .connecting false, ?_, hm, ?_⟩⟩
    · cases hcareful with
      | inl htasks =>
        change l.tasks ++ _ = _
        rw [htasks]
        rfl
      | inr hbusy =>
        obtain ⟨o', ho', hstate⟩ := hbusy
        obtain rfl : o = o' := Option.some.inj (hm.symm.trans ho')
        obtain hidle | hidle := hidle <;> obtain hstate | hstate := hstate <;> exact absurd (hidle.symm.trans hstate) (by decide)
    · change ((l.clear.put o (l.servers o).connect).servers o).state = .connecting
      rw [put_self]
      rfl
  · refine sound_clear h (fun o' ho' => ?_)
    rw [← Option.some.inj (hm.symm.trans ho')]
    exact hnot

theorem sound_stop {next : Next} (hcareful : l.tasks = [] ∨ next = .keep ∧ connectedServer l = none) :
    Sound (l.step (.stop next)).1 ((l.step (.stop next)).2.leaves listed) := by
  rw [Local.step]
  split
  · next hm =>
    refine sound_clear h (fun o ho => ?_)
    rw [hm] at ho
    cases ho
  next o hm =>
  have hsame {o' : Nat} (ho' : l.managed = some o') : o' = o := Option.some.inj (ho'.symm.trans hm)
  have hlifecycle (htasks : l.tasks = []) : (l.servers o).lifecycle ≠ .starting := by
    obtain ⟨-, hsettled⟩ | ⟨o', phase, hone, -, -⟩ := h.cases
    · exact settled_lifecycle hsettled hm
    · rw [htasks] at hone
      cases hone
  split
  · next hnot =>
    cases hcareful with
    | inl htasks =>
      refine sound_next h.made htasks (fun o' ho' => ?_) next
      rw [hsame ho']
      exact ⟨hlifecycle htasks, hnot⟩
    | inr hkeep =>
      rw [hkeep.1]
      refine sound_clear h (fun o' ho' => ?_)
      rw [hsame ho']
      exact hnot
  next hconnected =>
  have htasks : l.tasks = [] := by
    cases hcareful with
    | inl htasks => exact htasks
    | inr hkeep =>
      have hsome := connectedServer_eq_some.mpr ⟨hm, not_not.mp hconnected⟩
      rw [hkeep.2] at hsome
      cases hsome
  split
  · refine ⟨h.made, .inr ⟨o, .stopping next, ?_, hm, ?_⟩⟩
    · change l.tasks ++ _ = _
      rw [htasks]
      rfl
    · change ((l.put o (l.servers o).disconnect.1).servers o).lifecycle ≠ .starting
      rw [put_self, disconnect_lifecycle]
      exact hlifecycle htasks
  · next hends =>
    refine sound_next (l := l.put o (l.servers o).disconnect.1) h.made htasks (fun o' ho' => ?_) next
    rw [hsame ho', put_self, disconnect_lifecycle, disconnect_state (Bool.not_eq_true _ ▸ hends)]
    exact ⟨hlifecycle htasks, by decide⟩

theorem sound_wake (hstarting : (l.servers o).lifecycle = .starting) (hlifecycle : x.lifecycle ≠ .starting) :
    Sound ((l.put o x).wake o) listed := by
  obtain ⟨hnone, hsettled⟩ | ⟨o', phase, hone, hmanaged, hphase⟩ := h.cases
  · have ho : l.managed ≠ some o := fun hm => settled_lifecycle hsettled hm hstarting
    have hwake : (l.put o x).wake o = l.put o x := by
      change { l.put o x with tasks := l.tasks.map (Task.wake o) } = _
      rw [hnone]
      change _ = { l.put o x with tasks := l.tasks }
      rw [hnone]
      rfl
    rw [hwake]
    exact sound_put_other h ho
  · by_cases ho : o' = o
    · subst ho
      have htask (phase' : Phase) (hwake : Task.wake o' ⟨o', phase⟩ = ⟨o', phase'⟩) (hsound : phase'.Sound x listed) :
          Sound ((l.put o' x).wake o') listed := by
        refine ⟨h.made, .inr ⟨o', phase', ?_, hmanaged, ?_⟩⟩
        · change l.tasks.map (Task.wake o') = _
          rw [hone, List.map_singleton, hwake]
        · change phase'.Sound ((l.put o' x).servers o') listed
          rwa [put_self]
      cases phase with
      | connecting woken => exact htask (.connecting true) (if_pos rfl) hlifecycle
      | withdrawing => exact htask .withdrawing rfl trivial
      | listing asks => exact absurd hstarting hphase.2.1
      | stopping next => exact absurd hstarting hphase
    · have hm : l.managed ≠ some o := fun hm => ho (Option.some.inj (hmanaged.symm.trans hm))
      have hwake : Task.wake o ⟨o', phase⟩ = ⟨o', phase⟩ := by
        unfold Task.wake
        split
        · exact if_neg ho
        · rfl
      have hsame : (l.put o x).wake o = l.put o x := by
        change { l.put o x with tasks := l.tasks.map (Task.wake o) } = { l.put o x with tasks := l.tasks }
        rw [hone, List.map_singleton, hwake]
      rw [hsame]
      exact sound_put_other h hm

theorem sound_lifecycle (hlifecycle : x.lifecycle ≠ .starting)
    (hstate : x.state = .connected ↔ (l.servers o).state = .connected)
    (hconnecting : (l.servers o).state = .connecting → x.state = .connecting) (hlisted : x.listed = (l.servers o).listed) :
    Sound (l.put o x) listed := by
  by_cases hm : l.managed = some o
  · exact sound_put h hm hlifecycle hstate hconnecting hlisted
  · exact sound_put_other h hm

theorem sound_close : Sound (l.put o (l.servers o).close) listed := by
  refine sound_lifecycle h nofun ?_ (fun hs => ?_) rfl
  · unfold Server.close
    dsimp only
    split
    · next hs =>
      rw [hs]
      decide
    · exact Iff.rfl
  · unfold Server.close
    dsimp only
    rw [hs]
    rfl

omit h

theorem drop_only {t' : Task} (h : l.tasks = [t']) : (l.drop 0).tasks = [] := by
  change l.tasks.eraseIdx 0 = []
  rw [h]
  rfl

theorem setPhase_only {t' : Task} {phase : Phase} (h : l.tasks = [t']) : (l.setPhase 0 o phase).tasks = [⟨o, phase⟩] := by
  change l.tasks.set 0 _ = _
  rw [h]
  rfl

theorem sound_done {t' : Task} (hmade : ∀ o, l.managed = some o → o < l.made) (htasks : l.tasks = [t'])
    (hm : l.managed = some o) (hlifecycle : (l.servers o).lifecycle ≠ .starting) (hstate : (l.servers o).state ≠ .connected)
    (next : Next) : Sound ((l.drop 0).clear.next next) [] := by
  refine sound_next (l := l.drop 0) hmade (drop_only htasks) (fun o' ho' => ?_) next
  obtain rfl : o = o' := Option.some.inj (hm.symm.trans ho')
  exact ⟨hlifecycle, hstate⟩

variable (h : Sound l listed)

include h

theorem sound_woken : Sound (l.step (.wake t)).1 ((l.step (.wake t)).2.leaves listed) := by
  rw [Local.step]
  split
  · next o ht =>
    obtain ⟨hone, rfl, hm, hphase⟩ := h.task ht
    split
    · next hconnected =>
      exact ⟨h.made, .inr ⟨o, _, setPhase_only hone, hm, hconnected, hphase, nofun⟩⟩
    · next hnot => exact sound_done h.made hone hm hphase hnot .keep
  · exact h

theorem sound_timeout : Sound (l.step (.timeout t)).1 ((l.step (.timeout t)).2.leaves listed) := by
  rw [Local.step]
  split
  · next o woken ht =>
    obtain ⟨hone, rfl, hm, hphase⟩ := h.task ht
    split
    · exact ⟨h.made, .inr ⟨o, .withdrawing, setPhase_only hone, hm, trivial⟩⟩
    · next hends =>
      have hends := Bool.not_eq_true _ ▸ hends
      refine sound_done (l := l.put o (l.servers o).disconnect.1) h.made hone hm ?_ ?_ .keep
      · rw [put_self, disconnect_lifecycle]
        intro hstarting
        cases woken with
        | true => exact hphase hstarting
        | false =>
          have hstate : (l.servers o).state = .connecting := hphase
          rw [Server.disconnect, hstate, hstarting] at hends
          cases hends
      · rw [put_self, disconnect_state hends]
        decide
  · exact h

theorem sound_ended {ok : Bool} : Sound (l.step (.ended t ok)).1 ((l.step (.ended t ok)).2.leaves listed) := by
  rw [Local.step]
  split
  · next o phase ht =>
    obtain ⟨hone, rfl, hm, hphase⟩ := h.task ht
    split
    · next hover =>
      let l' := l.put o { l.servers o with state := if ok then .disconnected else .error }
      have hdone (next : Next) : Sound ((l'.drop 0).clear.next next) [] := by
        refine sound_done (l := l') h.made hone hm ?_ ?_ next
        · rw [put_self]
          exact fun hl => (nomatch hover.symm.trans hl)
        · rw [put_self]
          cases ok <;> exact fun hs => (nomatch hs)
      cases phase with
      | withdrawing => exact hdone .keep
      | stopping next => exact hdone next
      | connecting woken => exact h
      | listing asks => exact h
    · exact h
  · exact h

variable {kind : Kind}

theorem sound_asks {asks : Kind → Ask} {ask : Ask}
    (ht : l.tasks[t]? = some ⟨o, .listing asks⟩) (hask : ask ≠ .done true) :
    Sound (l.setPhase t o (.listing (Function.update asks kind ask))) listed := by
  obtain ⟨hone, rfl, hm, hphase⟩ := h.task ht
  refine ⟨h.made, .inr ⟨o, _, setPhase_only hone, hm, hphase.1, hphase.2.1, fun ha => hphase.2.2 ?_⟩⟩
  by_cases hkind : Kind.tools = kind
  · subst hkind
    rw [Function.update_self] at ha
    exact absurd ha hask
  · rwa [Function.update_of_ne hkind] at ha

theorem sound_ask : Sound (l.step (.ask t kind)).1 ((l.step (.ask t kind)).2.leaves listed) := by
  rw [Local.step]
  split
  · next o asks ht =>
    split
    · refine sound_asks h ht ?_
      split
      · exact fun ha => (nomatch ha)
      · exact fun ha => (nomatch ha)
    · exact h
  · exact h

theorem sound_refuse : Sound (l.step (.refuse t kind)).1 ((l.step (.refuse t kind)).2.leaves listed) := by
  rw [Local.step]
  split
  · next o asks ht =>
    split
    · exact sound_asks h ht nofun
    · exact h
  · exact h

theorem sound_store (ho : connectedServer l = some o) (a : Answer τ) :
    Sound (l.store o a).1 ((l.store o a).2.leaves listed) := by
  obtain ⟨hm, hconnected⟩ := connectedServer_eq_some.mp ho
  have hindexes (indexes : Kind → Option (List Text)) : Sound { l with indexes := indexes } listed := by
    refine ⟨h.made, ?_⟩
    obtain ⟨hnone, hsettled⟩ | hone := h.cases
    · rw [Settled, hm] at hsettled
      refine .inl ⟨hnone, ?_⟩
      unfold Settled
      change match l.managed with | none => _ | some o' => _
      rw [hm]
      exact ⟨hsettled.1, hsettled.2.1, fun hnot => absurd hconnected hnot⟩
    · exact .inr hone
  cases a with
  | prompts names => exact hindexes _
  | resources names => exact hindexes _
  | tools tools =>
    let x : Server τ := { l.servers o with listed := some tools }
    change Sound (l.put o x) (named tools)
    have hcurrent : x.Current (named tools) := ⟨tools, rfl, rfl⟩
    refine ⟨h.made, ?_⟩
    obtain ⟨hnone, hsettled⟩ | ⟨o', phase, hone, hmanaged, hphase⟩ := h.cases
    · rw [Settled, hm] at hsettled
      refine .inl ⟨hnone, ?_⟩
      unfold Settled
      change match l.managed with | none => _ | some o' => _
      rw [hm]
      dsimp only
      rw [put_self]
      exact ⟨hsettled.1, fun _ => hcurrent, fun hnot => absurd hconnected hnot⟩
    · obtain rfl : o = o' := Option.some.inj (hm.symm.trans hmanaged)
      refine .inr ⟨o, phase, hone, hm, ?_⟩
      rw [put_self]
      cases phase with
      | connecting woken => cases woken <;> exact hphase
      | withdrawing => trivial
      | listing asks => exact ⟨hphase.1, hphase.2.1, fun _ => hcurrent⟩
      | stopping next => exact hphase

theorem sound_answer {a : Answer τ} (hcareful : ∀ asks ∈ l.asks t, ∀ o ∈ (asks a.kind).server,
    connectedServer l = some o) : Sound (l.step (.answer t a)).1 ((l.step (.answer t a)).2.leaves listed) := by
  rw [Local.step]
  split
  · next o asks ht =>
    split
    · next o' hasked =>
      obtain ⟨hm', hconnected⟩ := connectedServer_eq_some.mp (hcareful asks (asks_eq_some ht) o' (by rw [hasked]; rfl))
      obtain ⟨hone, rfl, hm, hphase⟩ := h.task ht
      obtain rfl : o = o' := Option.some.inj (hm.symm.trans hm')
      let asks' := Function.update asks a.kind (.done true)
      cases a with
      | tools tools =>
        refine ⟨h.made, .inr ⟨o, .listing asks', setPhase_only hone, hm, ?_⟩⟩
        change Phase.Sound (((l.setPhase 0 o (.listing asks')).put o { l.servers o with listed := some tools }).servers o) _ _
        rw [put_self]
        exact ⟨hphase.1, hphase.2.1, fun _ => ⟨tools, rfl, rfl⟩⟩
      | prompts names => exact ⟨h.made, .inr ⟨o, .listing asks', setPhase_only hone, hm, hphase⟩⟩
      | resources names => exact ⟨h.made, .inr ⟨o, .listing asks', setPhase_only hone, hm, hphase⟩⟩
    · exact h
  · exact h

theorem sound_finish (hcareful : ∀ asks ∈ l.asks t, allOver asks = true → allOk asks = true) :
    Sound (l.step (.finish t)).1 ((l.step (.finish t)).2.leaves listed) := by
  rw [Local.step]
  split
  · next o asks ht =>
    split
    · next hover =>
      have hok := hcareful asks (asks_eq_some ht) hover
      obtain ⟨hone, rfl, hm, hphase⟩ := h.task ht
      rw [if_pos hok]
      rw [allOk, Bool.and_eq_true, Bool.and_eq_true, Ask.ok, decide_eq_true_eq] at hok
      refine ⟨h.made, .inl ⟨drop_only hone, ?_⟩⟩
      unfold Settled
      change match l.managed with | none => _ | some o' => _
      rw [hm]
      exact ⟨hphase.2.1, fun _ => hphase.2.2 hok.1.1, fun hnot => absurd hphase.1 hnot⟩
    · exact h
  · exact h

theorem sound_notes (notes : List Note) : Sound { l with notes := notes } listed := ⟨h.made, h.cases⟩

omit h

variable {s : State τ}

theorem sound_step {serverId : Text} (h : Sound (s.locals serverId) listed) (hcareful : Careful s serverId e) :
    Sound ((s.locals serverId).step e).1 (((s.locals serverId).step e).2.leaves listed) := by
  cases e with
  | load => exact sound_load h
  | connect => exact sound_connect h hcareful
  | stop next => exact sound_stop h hcareful
  | up o =>
    rw [Local.step]
    split
    · next hstarting => exact sound_wake h hstarting nofun
    · exact h
  | fall o =>
    rw [Local.step]
    split
    · next hstarting => exact sound_wake h hstarting nofun
    · exact h
  | shut o =>
    rw [Local.step]
    split
    · exact sound_lifecycle h nofun Iff.rfl id rfl
    · exact h
  | die o =>
    rw [Local.step]
    split
    · exact sound_lifecycle h nofun Iff.rfl id rfl
    · exact h
  | close o =>
    rw [Local.step]
    split
    · exact sound_close h
    · exact h
  | wake t => exact sound_woken h
  | timeout t => exact sound_timeout h
  | ended t ok => exact sound_ended h
  | ask t kind => exact sound_ask h
  | answer t a => exact sound_answer h (fun asks hasks o ho => (hcareful asks hasks o ho).1)
  | refuse t kind => exact sound_refuse h
  | finish t => exact sound_finish h hcareful
  | notify kind =>
    rw [Local.step]
    split
    · exact sound_notes h _
    · exact h
  | noteAnswer n a =>
    rw [Local.step]
    split
    · next kind o hn =>
      split
      · exact sound_store (sound_notes h ((s.locals serverId).notes.eraseIdx n)) (hcareful ⟨kind, o⟩ hn).1 a
      · exact h
    · exact h
  | noteRefuse n => exact sound_notes h _

theorem effect_fits {serverId : Text} (hcareful : Careful s serverId e)
    (heffect : ((s.locals serverId).step e).2 = .list tools) : ToolNames.Careful s.tools (.update serverId tools) := by
  have hstore {l : Local τ} {o : Nat} {a : Answer τ} (ha : (l.store o a).2 = .list tools) (hfits : a.Fits serverId s.tools) :
      ToolNames.Careful s.tools (.update serverId tools) := by
    cases a with
    | tools _ =>
      cases ha
      exact hfits
    | prompts _ => cases ha
    | resources _ => cases ha
  cases e with
  | answer t a =>
    rw [Local.step] at heffect
    split at heffect
    · next o asks ht =>
      split at heffect
      · next o' hasked => exact hstore heffect (hcareful asks (asks_eq_some ht) o' (by rw [hasked]; rfl)).2
      · cases heffect
    · cases heffect
  | noteAnswer n a =>
    rw [Local.step] at heffect
    split at heffect
    · next kind o hn =>
      split at heffect
      · exact hstore heffect (hcareful ⟨kind, o⟩ hn).2
      · cases heffect
    · cases heffect
  | noteRefuse n => cases heffect
  | load | connect | stop | up | fall | shut | die | close | wake | timeout | ended | ask | refuse | finish | notify =>
    rw [Local.step] at heffect
    repeat' split at heffect
    all_goals cases heffect

structure Inv (s : State τ) : Prop where
  named : Named s.tools
  sound : ∀ id, Sound (s.locals id) (s.tools.listed id)

theorem inv_new : Inv (State.new : State τ) :=
  ⟨named_empty, fun _ => ⟨fun _ hm => (nomatch hm), .inl ⟨rfl, rfl, fun _ => rfl⟩⟩⟩

theorem listed_apply (s : ToolNames.State τ) (id : Text) (effect : Effect τ) :
    (effect.apply id s).listed id = effect.leaves (s.listed id) ∧ ∀ other ≠ id, (effect.apply id s).listed other = s.listed other := by
  cases effect with
  | keep => exact ⟨rfl, fun _ _ => rfl⟩
  | clear => exact ⟨Function.update_self .., fun _ h => Function.update_of_ne h ..⟩
  | list tools => exact ⟨Function.update_self .., fun _ h => Function.update_of_ne h ..⟩

theorem inv_step {e : Text × Event τ} (hs : Inv s) (hcareful : Careful s e.1 e.2) : Inv (step s e) := by
  obtain ⟨hself, hother⟩ := listed_apply s.tools e.1 ((s.locals e.1).step e.2).2
  refine ⟨?_, fun id => ?_⟩
  · change Named (((s.locals e.1).step e.2).2.apply e.1 s.tools)
    cases heffect : ((s.locals e.1).step e.2).2 with
    | keep => exact hs.named
    | clear =>
      have hclear : ToolNames.Careful s.tools (.clear e.1) := trivial
      exact named_step hs.named hclear
    | list tools => exact named_step hs.named (effect_fits hcareful heffect)
  · change Sound (Function.update s.locals e.1 ((s.locals e.1).step e.2).1 id) ((((s.locals e.1).step e.2).2.apply e.1 s.tools).listed id)
    by_cases hid : id = e.1
    · rw [hid, Function.update_self, hself]
      exact sound_step (hs.sound e.1) hcareful
    · rw [Function.update_of_ne hid, hother id hid]
      exact hs.sound id

theorem inv_run {events : List (Text × Event τ)} (hs : Inv s) (h : CarefulRun s events) : Inv (run s events) := by
  induction events generalizing s with
  | nil => exact hs
  | cons e events ih => exact ih (inv_step hs h.1) h.2

def Exactly (cache : ToolsCache τ) (id : Text) (tools : List (Tool τ)) : Prop :=
  ∀ e : ToolCacheEntry τ, e.serverId = id →
    ((∃ display, cache.get display = some e) ↔ e.toolInfo ∈ named tools ∧ e.originalName = e.toolInfo.name)

def Available (s : State τ) (id : Text) : Prop := ∃ o tools, connectedServer (s.locals id) = some o ∧
  ((s.locals id).servers o).listed = some tools ∧ Exactly s.tools.cache id tools

def Agrees (s : State τ) (id : Text) : Prop :=
  Available s id ∨ connectedServer (s.locals id) = none ∧ (∀ display e, s.tools.cache.get display = some e → e.serverId ≠ id) ∧
    ∀ kind, (s.locals id).indexes kind = none

variable {id : Text}

theorem exactly_of_named {s : ToolNames.State τ} (hs : Named s) (h : s.listed id = named tools) :
    Exactly s.cache id tools := by
  intro e hid
  subst hid
  constructor
  · intro hget
    obtain ⟨display, hget⟩ := hget
    rw [← h]
    exact hs.listed display e hget
  · intro htool
    obtain ⟨display, hget⟩ := hs.stored e.serverId e.toolInfo (h ▸ htool.1)
    exact ⟨display, by rw [hget, ← htool.2]⟩

theorem agrees_of_settled (hs : Inv s) (h : Settled (s.locals id) (s.tools.listed id)) : Agrees s id := by
  have hclear (hc : (s.locals id).Clear (s.tools.listed id)) : (∀ display e, s.tools.cache.get display = some e → e.serverId ≠ id) ∧
      ∀ kind, (s.locals id).indexes kind = none := by
    refine ⟨fun display e hget hid => ?_, hc.2⟩
    have hmem := (hs.named.listed display e hget).1
    rw [hid, hc.1] at hmem
    cases hmem
  rw [Settled] at h
  cases hm : (s.locals id).managed with
  | none =>
    rw [hm] at h
    exact .inr ⟨by rw [connectedServer, hm]; rfl, hclear h⟩
  | some o =>
    rw [hm] at h
    by_cases hconnected : ((s.locals id).servers o).state = .connected
    · obtain ⟨tools, hlisted, htools⟩ := h.2.1 hconnected
      exact .inl ⟨o, tools, connectedServer_eq_some.mpr ⟨hm, hconnected⟩, hlisted, exactly_of_named hs.named htools⟩
    · refine .inr ⟨?_, hclear (h.2.2 hconnected)⟩
      rw [connectedServer, hm]
      exact Option.filter_some_neg (by simpa using hconnected)

theorem available_of_done (hs : Inv s) (htasks : (s.locals id).tasks = [])
    (ho : connectedServer (s.locals id) = some o) : Available s id := by
  obtain ⟨-, hsettled⟩ | ⟨o', phase, hone, -⟩ := (hs.sound id).cases
  · cases agrees_of_settled hs hsettled with
    | inl havailable => exact havailable
    | inr hnone =>
      rw [hnone.1] at ho
      cases ho
  · rw [htasks] at hone
    cases hone

theorem step_connect (h : connectedServer l = some o) : l.step .connect = (l, .keep) := by
  obtain ⟨hm, hconnected⟩ := connectedServer_eq_some.mp h
  rw [Local.step, hm]
  exact if_pos hconnected

theorem available_of_success {e : Text × Event τ} (hs : Inv s) (hcareful : Careful s e.1 e.2)
    (h : (s.locals e.1).reportsSuccess e.2 = true) : Available (step s e) e.1 := by
  have hself : (step s e).locals e.1 = ((s.locals e.1).step e.2).1 := Function.update_self ..
  obtain ⟨id, e⟩ := e
  dsimp only at hcareful h hself
  suffices hdone : ((s.locals id).step e).1.tasks = [] ∧ ∃ o, connectedServer ((s.locals id).step e).1 = some o by
    obtain ⟨htasks, o, ho⟩ := hdone
    rw [← hself] at htasks ho
    exact available_of_done (inv_step hs hcareful) htasks ho
  cases e with
  | connect =>
    obtain ⟨o, ho⟩ := Option.isSome_iff_exists.mp h
    obtain ⟨hm, hconnected⟩ := connectedServer_eq_some.mp ho
    rw [step_connect ho]
    refine ⟨?_, o, ho⟩
    cases hcareful with
    | inl htasks => exact htasks
    | inr hbusy =>
      obtain ⟨o', ho', hstate⟩ := hbusy
      obtain rfl : o = o' := Option.some.inj (hm.symm.trans ho')
      rw [hconnected] at hstate
      cases hstate with
      | inl hstate => cases hstate
      | inr hstate => cases hstate
  | finish t =>
    rw [Local.reportsSuccess] at h
    split at h
    · next o asks ht =>
      obtain ⟨hone, rfl, hm, hphase⟩ := (hs.sound id).task ht
      have hover : allOver asks = true := by
        rw [allOk, Bool.and_eq_true, Bool.and_eq_true, Ask.ok, Ask.ok, Ask.ok, decide_eq_true_eq, decide_eq_true_eq,
          decide_eq_true_eq] at h
        rw [allOver, h.1.1, h.1.2, h.2]
        rfl
      have hstep : (s.locals id).step (.finish 0) = ((s.locals id).drop 0, .keep) := by
        rw [Local.step, ht]
        dsimp only
        rw [if_pos hover, if_pos h]
      rw [hstep]
      exact ⟨drop_only hone, o, connectedServer_eq_some.mpr ⟨hm, hphase.1⟩⟩
    · cases h
  | load | stop | up | fall | shut | die | close | wake | timeout | ended | ask | answer | refuse | notify | noteAnswer |
    noteRefuse => cases h

theorem careful_of_run {before after : List (Text × Event τ)} {e : Text × Event τ}
    (h : CarefulRun s (before ++ e :: after)) : CarefulRun s before ∧ Careful (run s before) e.1 e.2 := by
  induction before generalizing s with
  | nil => exact ⟨trivial, h.1⟩
  | cons first before ih => exact ⟨⟨h.1, (ih h.2).1⟩, (ih h.2).2⟩

/-- In a run of careful steps, the caches agree with the state of each server that no operation
is on, and a connect that reports success leaves the tools of its server available. -/
theorem caches_agree {events : List (Text × Event τ)} (h : CarefulRun State.new events) :
    (∀ id, ((run State.new events).locals id).tasks = [] → Agrees (run State.new events) id) ∧
    ∀ before e after, events = before ++ e :: after → ((run State.new before).locals e.1).reportsSuccess e.2 = true →
      Available (step (run State.new before) e) e.1 := by
  refine ⟨fun id htasks => ?_, fun before e after hsplit hsuccess => ?_⟩
  · have hs := inv_run inv_new h
    obtain ⟨-, hsettled⟩ | ⟨o, phase, hone, -⟩ := (hs.sound id).cases
    · exact agrees_of_settled hs hsettled
    · rw [htasks] at hone
      cases hone
  · rw [hsplit] at h
    obtain ⟨hbefore, hcareful⟩ := careful_of_run h
    exact available_of_success (inv_run inv_new hbefore) hcareful hsuccess

def toolNamed (name : String) : Tool Unit := ⟨name.toList, ()⟩

def asking : List (Event Unit) := [.load, .connect, .up 0, .wake 0, .ask 0 .tools, .ask 0 .prompts, .ask 0 .resources]

def listing : List (Event Unit) :=
  asking ++ [.answer 0 (.tools [toolNamed "x"]), .answer 0 (.prompts []), .answer 0 (.resources []), .finish 0]

def runOne (events : List (Event Unit)) : State Unit := run State.new (events.map (fun e => (['a'], e)))

/-- A server connects, has a new list, and is stopped. -/
theorem caches_agree_stopped :
    let events := listing ++ [.notify .tools, .noteAnswer 0 (.tools [toolNamed "y"]), .connect, .stop .keep, .shut 0, .close 0,
      .ended 0 true]
    ∀ id, ((runOne events).locals id).tasks = [] → Agrees (runOne events) id :=
  (caches_agree (by decide +kernel)).1

def unsupported : List (Event Unit) :=
  asking ++ [.answer 0 (.tools [toolNamed "x"]), .refuse 0 .prompts, .answer 0 (.resources []), .finish 0]

def late : List (Event Unit) :=
  listing ++ [.notify .tools, .stop .keep, .shut 0, .close 0, .ended 0 true, .noteAnswer 0 (.tools [toolNamed "y"])]

theorem connect_same (h : connectedServer (s.locals id) = some o) : step s (id, .connect) = s := by
  unfold step
  dsimp only
  rw [step_connect h, Function.update_eq_self]
  rfl

theorem not_available {s : State Unit} {tool : Tool Unit} (hempty : s.tools.cache.entries = [])
    (hconnected : connectedServer (s.locals ['a']) = some 0) (hlisted : ((s.locals ['a']).servers 0).listed = some [tool])
    (hname : tool.name ≠ []) : ¬ Available s ['a'] := by
  intro h
  obtain ⟨o, tools, ho, htools, hexactly⟩ := h
  cases hconnected.symm.trans ho
  cases hlisted.symm.trans htools
  have hnamed : tool ∈ named [tool] := List.mem_filter.mpr ⟨List.mem_singleton_self _, decide_eq_true hname⟩
  obtain ⟨display, hget⟩ := (hexactly ⟨['a'], tool.name, tool⟩ rfl).mpr ⟨hnamed, rfl⟩
  have hmem := Dict.get_eq_some_iff.mp hget
  rw [hempty] at hmem
  cases hmem

/-- A server without prompts is connected without its tools, and the next connect reports
success; and a list that comes after a stop stays in the cache. -/
theorem caches_disagree :
    (((runOne unsupported).locals ['a']).tasks = [] ∧ ((runOne unsupported).locals ['a']).reportsSuccess .connect = true ∧
      ¬ Agrees (runOne unsupported) ['a'] ∧ ¬ Available (step (runOne unsupported) (['a'], .connect)) ['a']) ∧
    ((runOne late).locals ['a']).tasks = [] ∧ ¬ Agrees (runOne late) ['a'] := by
  have hconnected : connectedServer ((runOne unsupported).locals ['a']) = some 0 := by decide +kernel
  have hname : (toolNamed "x").name ≠ [] := by decide
  have hnot : ¬ Available (runOne unsupported) ['a'] :=
    not_available (by decide +kernel) hconnected (by decide +kernel) hname
  have hnone : connectedServer ((runOne late).locals ['a']) = none := by decide +kernel
  have hget : (runOne late).tools.cache.get "y".toList = some ⟨['a'], "y".toList, toolNamed "y"⟩ := by decide +kernel
  refine ⟨⟨by decide +kernel, by decide +kernel, fun h => ?_, ?_⟩, by decide +kernel, fun h => ?_⟩
  · cases h with
    | inl h => exact hnot h
    | inr h => exact nomatch hconnected.symm.trans h.1
  · rw [connect_same hconnected]
    exact hnot
  · cases h with
    | inl h =>
      obtain ⟨o, -, ho, -⟩ := h
      exact nomatch hnone.symm.trans ho
    | inr h => exact h.2.1 _ _ hget rfl

end Kirara.ServerCaches
