import Kirara.Fallible
import Kirara.Schedules
import Kirara.SecretRestoration

namespace Kirara.LoadedBackends

open Kirara.Channels Kirara.ConfigValues Kirara.Dicts

structure ModelConfig (α : Type) where
  id : Text
  details : Value α

/-- What `LLMManager` reads of an `LLMBackendConfig`. -/
structure Backend (α : Type) where
  name : Text
  adapter : Text
  config : Value α
  enable : Bool
  models : List (ModelConfig α)
  priority : Int
  participateInFailover : Bool

/-- An adapter instance, by its identity, and the configuration it was created from. -/
structure Adapter (α : Type) where
  identity : Nat
  backend : Backend α

structure Manager (α : Type) where
  apiBackends : List (Backend α)
  activeBackends : Dict Text (List (Adapter α))
  modelInfo : Dict Text (ModelConfig α)
  backends : Dict Text (Adapter α)
  created : Nat

variable {α : Type}

def Backend.modelIds (b : Backend α) : List Text := b.models.map ModelConfig.id

def Adapter.backendName (a : Adapter α) : Text := a.backend.name

def Manager.backendConfig (s : Manager α) (name : Text) : Option (Backend α) :=
  s.apiBackends.find? (·.name = name)

def Manager.serving (s : Manager α) (m : Text) : List (Adapter α) := (s.activeBackends.get m).getD []

/-- `backend_name in adapters`. The elements are instances, and none equals a name. -/
def listsName (_name : Text) (adapters : List (Adapter α)) : Bool := adapters.any (fun _ => false)

def register (a : Adapter α) (s : Manager α) (model : ModelConfig α) : Manager α :=
  { s with
    modelInfo := s.modelInfo.set model.id model
    activeBackends := s.activeBackends.set model.id (s.serving model.id ++ [a]) }

/-- Whether the adapter can be constructed is up to the plugins. -/
def loadBackend (name : Text) (registered constructs : Bool) (s : Manager α) :
    Except Text (Manager α) :=
  match s.backendConfig name with
  | none => .error ("Backend ".toList ++ name ++ " not found in config".toList)
  | some backend =>
    if !backend.enable then .error ("Backend ".toList ++ name ++ " is not enabled".toList)
    else if s.activeBackends.values.any (listsName name) then
      .error ("Backend ".toList ++ name ++ " is already loaded".toList)
    else if !registered then .error ("Invalid adapter type: ".toList ++ backend.adapter)
    else if !constructs then .error "the adapter cannot be constructed".toList
    else
      let adapter := ⟨s.created, backend⟩
      .ok (backend.models.foldl (register adapter)
        { s with backends := s.backends.set name adapter, created := s.created + 1 })

/-- `adapters.remove(backend_adapter)`, where it is listed. -/
def without (a : Adapter α) (adapters : List (Adapter α)) : List (Adapter α) :=
  adapters.eraseP (·.identity = a.identity)

/-- Take an instance out of the list of a model, and the model away with an empty list. -/
def withdraw (a : Adapter α) (s : Manager α) (m : Text) : Manager α :=
  if without a (s.serving m) = [] then
    { s with activeBackends := s.activeBackends.pop m, modelInfo := s.modelInfo.pop m }
  else { s with activeBackends := s.activeBackends.set m (without a (s.serving m)) }

def unloadBackend (name : Text) (s : Manager α) : Except Text (Manager α) :=
  match s.backendConfig name with
  | none => .error ("Backend ".toList ++ name ++ " not found in config".toList)
  | some _ =>
    match s.backends.get name with
    | none => .error ("Backend ".toList ++ name ++ " not found".toList)
    | some adapter =>
      let t := s.activeBackends.keys.foldl (withdraw adapter) s
      .ok { t with backends := t.backends.pop name }

/-- `sort` by priority and then by position. -/
def before (x y : Int × Nat × Adapter α) : Bool := x.1 < y.1 || (x.1 = y.1 && x.2.1 ≤ y.2.1)

def getProviderCandidates (s : Manager α) (m : Text) (providerAllowlist : List Text) :
    List (Adapter α) :=
  let allowed := (providerAllowlist.map strip).filter (· ≠ [])
  let candidates := (s.serving m).zipIdx.filterMap (fun (adapter, index) =>
    if allowed ≠ [] ∧ adapter.backendName ∉ allowed then none
    else if adapter.backendName = [] then none
    else
      match s.backendConfig adapter.backendName with
      | none => none
      | some backend =>
        if !backend.enable || !backend.participateInFailover then none
        else some (backend.priority, index, adapter))
  (candidates.mergeSort before).map (fun x => x.2.2)

def getLlm (s : Manager α) (m : Text) : Option (Adapter α) :=
  match s.serving m with
  | [] => none
  | first :: _ => some ((getProviderCandidates s m []).head?.getD first)

def loads (s : Manager α) (name : Text) (registered constructs : Bool) : Option (Backend α) :=
  (s.backendConfig name).filter (fun b => b.enable && registered && constructs)

/-- Calls of the manager, what the plugins make of a load, and edits of the configuration. -/
inductive Label (α : Type) where
  | load (name : Text) (registered constructs : Bool)
  | unload (name : Text)
  | reload (name : Text) (registered constructs : Bool)
  | edit (apiBackends : List (Backend α))

def settle (s : Manager α) : Except Text (Manager α) → Manager α
  | .ok t => t
  | .error _ => s

def next (s : Manager α) : Label α → Option (Manager α)
  | .load name registered constructs => some (settle s (loadBackend name registered constructs s))
  | .unload name => some (settle s (unloadBackend name s))
  | .reload name registered constructs =>
    match unloadBackend name s with
    | .error _ => some s
    | .ok t => some (settle t (loadBackend name registered constructs t))
  | .edit apiBackends => some { s with apiBackends := apiBackends }

/-- One instance for each loaded backend, and requests go to these only. -/
structure OneInstance (s : Manager α) : Prop where
  once : ∀ name a, s.backends.get name = some a → ∀ m,
    (s.serving m).countP (·.identity = a.identity) = if m ∈ a.backend.modelIds then 1 else 0
  loaded : ∀ m, ∀ a ∈ s.serving m, s.backends.get a.backendName = some a
  info : ∀ m, (s.modelInfo.get m).isSome = true ↔ s.serving m ≠ []
  candidates : ∀ m allowlist, ∀ a ∈ getProviderCandidates s m allowlist,
    s.backends.get a.backendName = some a
  llm : ∀ m a, getLlm s m = some a → s.backends.get a.backendName = some a

/-- A load lists no model twice, nor finds an instance of its backend in use. -/
def Careful (s : Manager α) : Label α → Prop
  | .load name registered constructs => ∀ b ∈ loads s name registered constructs,
      b.modelIds.Nodup ∧ ∀ a ∈ s.backends.get name, a.backend.models = []
  | .reload name registered constructs => (s.backends.get name).isSome = true →
      ∀ b ∈ loads s name registered constructs, b.modelIds.Nodup
  | _ => True

def Keeps (s : Manager α) (l : Label α) : Prop := ∀ t, next s l = some t → OneInstance t

end Kirara.LoadedBackends
