import Kirara.LoadedInstances
import Kirara.TimeoutBudgets

namespace Kirara.BackendEdits

open Kirara.Channels Kirara.ConfigValues Kirara.LoadedBackends Kirara.Rosters Kirara.SecretRestoration
open Kirara.TimeoutBudgets (Floats Given LLMBackendConfig ModelItem Same Values document loadConfig modelValidate nothing overlaid
  updatedBackend)

section Equality

variable {α φ : Type} [DecidableEq α]

mutual

/-- `==`. Two dicts are equal in any order of their keys. -/
def equal : Value α → Value α → Bool
  | .atom a, .atom b => decide (a = b)
  | .text t, .text u => decide (t = u)
  | .list items, .list items' => equalItems items items'
  | .tuple items, .tuple items' => equalItems items items'
  | .dict entries, .dict entries' => decide (entries.length = entries'.length) && equalEntries entries' entries
  | _, _ => false

def equalItems : List (Value α) → List (Value α) → Bool
  | [], [] => true
  | v :: vs, w :: ws => equal v w && equalItems vs ws
  | _, _ => false

def equalEntries (other : List (Text × Value α)) : List (Text × Value α) → Bool
  | [] => true
  | (key, value) :: es =>
    (match lookup key other with
      | some w => equal value w
      | none => false) && equalEntries other es

end

def equalModel (m n : TimeoutBudgets.ModelConfig α) : Bool :=
  decide (m.id = n.id) && decide (m.type = n.type) && decide (m.ability = n.ability) &&
    equal (.dict m.extra) (.dict n.extra)

def modelCatalogsEqual : List (TimeoutBudgets.ModelConfig α) → List (TimeoutBudgets.ModelConfig α) → Bool
  | [], [] => true
  | m :: ms, n :: ns => equalModel m n && modelCatalogsEqual ms ns
  | _, _ => false

def equalFloats (N : Floats φ) (x y : φ) : Bool := N.le x y && N.le y x

/-- `==` between backends, which compares the fields. -/
def equalBackends (N : Floats φ) (v w : Values α φ) : Bool :=
  decide (@Eq Text v.name w.name) && decide (@Eq Text v.adapter w.adapter) && equal v.config w.config &&
  decide (@Eq Bool v.enable w.enable) && modelCatalogsEqual v.models w.models &&
  decide (@Eq Int v.autoDetectIntervalDays w.autoDetectIntervalDays) && decide (@Eq Int v.priority w.priority) &&
  decide (@Eq Bool v.participateInFailover w.participateInFailover) && decide (@Eq Int v.maxRetries w.maxRetries) &&
  equalFloats N v.retryBackoffSeconds w.retryBackoffSeconds &&
  equalFloats N v.retryBackoffMaxSeconds w.retryBackoffMaxSeconds &&
  equalFloats N v.requestTimeoutSeconds w.requestTimeoutSeconds &&
  equalFloats N v.nonStreamTimeoutSeconds w.nonStreamTimeoutSeconds &&
  equalFloats N v.streamFirstByteTimeoutSeconds w.streamFirstByteTimeoutSeconds &&
  equalFloats N v.streamIdleTimeoutSeconds w.streamIdleTimeoutSeconds &&
  equalFloats N v.streamTotalTimeoutSeconds w.streamTotalTimeoutSeconds &&
  decide (@Eq Int v.circuitFailureThreshold w.circuitFailureThreshold) &&
  equalFloats N v.circuitErrorRateThreshold w.circuitErrorRateThreshold &&
  decide (@Eq Int v.circuitMinRequests w.circuitMinRequests) &&
  equalFloats N v.circuitRecoveryTimeoutSeconds w.circuitRecoveryTimeoutSeconds &&
  decide (@Eq Int v.circuitRecoverySuccessThreshold w.circuitRecoverySuccessThreshold) &&
  decide (@Eq (Option TimeoutBudgets.ReasoningEffort) v.reasoningEffort w.reasoningEffort) &&
  decide (@Eq Bool v.hideAiAttribution w.hideAiAttribution) && decide (@Eq Bool v.rectifierEnabled w.rectifierEnabled) &&
  decide (@Eq Bool v.rectifyThinkingSignature w.rectifyThinkingSignature) &&
  decide (@Eq Bool v.rectifyThinkingBudget w.rectifyThinkingBudget) &&
  decide (@Eq Bool v.rectifyMediaFallback w.rectifyMediaFallback) &&
  decide (@Eq Bool v.rectifyReasoningEffortUnsupported w.rectifyReasoningEffortUnsupported)

end Equality

section Manager

variable {α φ : Type} {N : Floats φ}

def name (c : LLMBackendConfig α N) : Text := c.values.name

def enable (c : LLMBackendConfig α N) : Bool := c.values.enable

def config (c : LLMBackendConfig α N) : Value α := c.values.config

def models (c : LLMBackendConfig α N) : List (TimeoutBudgets.ModelConfig α) := c.values.models

/-- What `LLMManager` reads of a backend. -/
def backend (c : LLMBackendConfig α N) : Backend α where
  name := name c
  adapter := c.adapter
  config := config c
  enable := enable c
  models := (models c).map (fun m => ⟨m.id, .dict (("type".toList, .text m.type) :: m.extra)⟩)
  priority := c.values.priority
  participateInFailover := c.values.participateInFailover

variable (α N) in
/-- The backends of the configuration, and the manager that reads them. -/
structure State where
  apiBackends : List (LLMBackendConfig α N)
  llm : Manager α

def State.manager (s : State α N) : Manager α := { s.llm with apiBackends := s.apiBackends.map backend }

/-- `name in manager.backends`. -/
def State.loaded (s : State α N) (n : Text) : Bool := (s.llm.backends.get n).isSome

/-- Which adapter types are registered and which adapters can be constructed. -/
structure Plugins (α : Type) where
  registered : Text → Bool
  constructs : Backend α → Bool

def Plugins.creates (P : Plugins α) (b : Backend α) : Bool := P.registered b.adapter && P.constructs b

/-- `load_backend`. -/
def load (P : Plugins α) (n : Text) (s : State α N) : Except Text (State α N) :=
  let found := s.manager.backendConfig n
  (loadBackend n (found.any (fun b => P.registered b.adapter)) (found.any P.constructs) s.manager).map
    (fun m => { s with llm := m })

/-- `unload_backend`. -/
def unload (n : Text) (s : State α N) : Except Text (State α N) :=
  (unloadBackend n s.manager).map (fun m => { s with llm := m })

/-- `load_backend`, where a failure is logged. -/
def tryLoad (P : Plugins α) (s : State α N) (n : Text) : State α N :=
  match load P n s with
  | .ok t => t
  | .error _ => s

def State.setBackend (s : State α N) (i : Nat) (c : LLMBackendConfig α N) : State α N :=
  { s with apiBackends := s.apiBackends.set i c }

def State.find (s : State α N) (n : Text) : Option (LLMBackendConfig α N × Nat) :=
  s.apiBackends.zipIdx.find? (fun p => decide (name p.1 = n))

end Manager

inductive Answer where
  | success
  /-- The status of the response. -/
  | error (status : Nat)
  /-- `_detect_backend` returns False. -/
  | notUpdated
  deriving DecidableEq

/-- What is outside the configuration during an operation. -/
structure Environment (α φ : Type) where
  plugins : Plugins α
  again : Plugins α
  saves : Bool
  /-- The digest of a configuration. -/
  digest : Values α φ → Text

section Operations

variable {α φ : Type} {N : Floats φ} (e : Environment α φ)

def createBackend (data : Given (ModelItem α) α φ) (s : State α N) : Answer × State α N :=
  match modelValidate N data with
  | .error _ => (.error 500, s)
  | .ok request =>
    if s.apiBackends.any (fun b => decide (name b = name request)) then (.error 400, s)
    else
      match modelValidate N request.modelDump with
      | .error _ => (.error 500, s)
      | .ok created =>
        let appended : State α N := { s with apiBackends := s.apiBackends ++ [created] }
        match if enable created then load e.plugins (name created) appended else .ok appended with
        | .error _ => (.error 500, appended)
        | .ok t => if e.saves then (.success, t) else (.error 500, t)

/-- What `update_backend` does after a failure. -/
def rollBack (original updated : LLMBackendConfig α N) (i : Nat) (wasLoaded : Bool) (s : State α N) : State α N :=
  match if s.loaded (name updated) then unload (name updated) s else .ok s with
  | .error _ => s
  | .ok t =>
    let restored := t.setBackend i original
    if enable original && wasLoaded && !restored.loaded (name original) then tryLoad e.again restored (name original)
    else restored

def updateBackend (n : Text) (data : Given (ModelItem α) α φ) (s : State α N) : Answer × State α N :=
  match modelValidate N data with
  | .error _ => (.error 500, s)
  | .ok request =>
    match s.find n with
    | none => (.error 404, s)
    | some (original, i) =>
      match updatedBackend original request with
      | .error _ => (.error 500, s)
      | .ok updated =>
        let wasLoaded := s.loaded n
        match if enable original && wasLoaded then unload n s else .ok s with
        | .error _ => (.error 500, s)
        | .ok t =>
          let edited := t.setBackend i updated
          match if enable updated then load e.plugins (name updated) edited else .ok edited with
          | .error _ => (.error 500, rollBack e original updated i wasLoaded edited)
          | .ok u => if e.saves then (.success, u) else (.error 500, rollBack e original updated i wasLoaded u)

def deleteBackend (n : Text) (s : State α N) : Answer × State α N :=
  match s.find n with
  | none => (.error 404, s)
  | some (deleted, i) =>
    match if enable deleted then unload n s else .ok s with
    | .error _ => (.error 500, s)
    | .ok t =>
      let popped : State α N := { t with apiBackends := t.apiBackends.eraseIdx i }
      if e.saves then (.success, popped) else (.error 500, popped)

variable (N) in
/-- The loop of `_validate_backend_document` over the entries. -/
def validateEntries : List Text → List (Given (ModelItem α) α φ) → Option (List (LLMBackendConfig α N))
  | _, [] => some []
  | seen, d :: ds =>
    match modelValidate N d with
    | .error _ => none
    | .ok b =>
      if strip (name b) = [] ∨ strip (name b) ∈ seen then none
      else (validateEntries (strip (name b) :: seen) ds).map (b :: ·)

variable (N) in
/-- `_validate_backend_document`. A document of another shape is none. -/
def validateBackendDocument (entries : Option (List (Given (ModelItem α) α φ))) : Option (List (LLMBackendConfig α N)) :=
  match entries with
  | none => none
  | some [] => none
  | some (d :: ds) => validateEntries N [] (d :: ds)

/-- The entry of `existing` under a name: of several backends the last. -/
def existing (s : State α N) (n : Text) : Option (LLMBackendConfig α N × Nat) :=
  s.apiBackends.zipIdx.reverse.find? (fun p => decide (name p.1 = n))

/-- What an imported backend becomes where there is one of its name. -/
def merged (b current : LLMBackendConfig α N) : Given (ModelItem α) α φ :=
  document { overlaid nothing b.values with
    config := some (restoreUnchangedSecrets (config b) (some (config current))) }

/-- `api_backends.index(current)`, for the backend that stands at a position. -/
def index [DecidableEq α] (current : LLMBackendConfig α N) (position : Nat) (backends : List (LLMBackendConfig α N)) :
    Option (LLMBackendConfig α N × Nat) :=
  backends.zipIdx.find? (fun p => p.2 == position || equalBackends N p.1.values current.values)

/-- The loop of `import_backends`: the list where it is left, and whether that is at its end. -/
def importEntries [DecidableEq α] (s : State α N) :
    List (LLMBackendConfig α N) → List (LLMBackendConfig α N) → List (LLMBackendConfig α N) × Bool
  | backends, [] => (backends, true)
  | backends, b :: bs =>
    match existing s (name b) with
    | none => importEntries s (backends ++ [b]) bs
    | some (current, position) =>
      match modelValidate N (merged b current) with
      | .error _ => (backends, false)
      | .ok replacement =>
        match index current position backends with
        | none => (backends, false)
        | some (_, i) => importEntries s (backends.set i replacement) bs

def loadEnabled (bs : List (LLMBackendConfig α N)) (s : State α N) : State α N :=
  ((bs.filter enable).map name).foldl (tryLoad e.plugins) s

def importBackends [DecidableEq α] (entries : Option (List (Given (ModelItem α) α φ))) (overwrite : Bool)
    (s : State α N) : Answer × State α N :=
  match validateBackendDocument N entries with
  | none => (.error 400, s)
  | some incoming =>
    if incoming.any (fun b => (existing s (name b)).isSome) && !overwrite then (.error 409, s)
    else
      match importEntries s s.apiBackends incoming with
      | (backends, false) => (.error 400, { s with apiBackends := backends })
      | (backends, true) =>
        let imported : State α N := { s with apiBackends := backends }
        if e.saves then (.success, loadEnabled e incoming imported) else (.error 500, imported)

/-- The loop of `restore_backends` over the backends that are to go. -/
def unloadAll : List Text → State α N → State α N × Bool
  | [], s => (s, true)
  | n :: ns, s =>
    if s.loaded n then
      match unload n s with
      | .error _ => (s, false)
      | .ok t => unloadAll ns t
    else unloadAll ns s

/-- `restore_backends`, with what the backup file holds, if it can be read. -/
def restoreBackends (confirmed : Bool) (backup : Option (List (Given (ModelItem α) α φ))) (s : State α N) :
    Answer × State α N :=
  if !confirmed then (.error 400, s)
  else
    match backup with
    | none => (.error 404, s)
    | some documents =>
      match loadConfig N documents with
      | .error _ => (.error 422, s)
      | .ok backupConfig =>
        match unloadAll (s.apiBackends.map name) s with
        | (t, false) => (.error 500, t)
        | (t, true) =>
          match backupConfig.mapM (fun b => modelValidate N b.modelDump) with
          | .error _ => (.error 500, t)
          | .ok restored =>
            let replaced : State α N := { t with apiBackends := restored }
            if e.saves then (.success, loadEnabled e restored replaced) else (.error 500, replaced)

/-- What `_detect_backend` found out before it takes the lock. -/
structure Detection (α : Type) where
  adapter : Nat
  fingerprint : Text
  newModels : List (TimeoutBudgets.ModelConfig α)

theorem checkFields_models (d : Given (TimeoutBudgets.ModelConfig α) α φ) (ms : Option (List (TimeoutBudgets.ModelConfig α))) :
    TimeoutBudgets.checkFields N { d with models := ms } = TimeoutBudgets.checkFields N d := rfl

/-- `backend_config.models = models`. -/
def setModels (ms : List (TimeoutBudgets.ModelConfig α)) (c : LLMBackendConfig α N) : LLMBackendConfig α N :=
  ⟨{ c.given with models := some ms }, (checkFields_models c.given (some ms)).trans c.accepted⟩

/-- `reload_backend`, with the state it leaves and whether it raises. -/
def reload (P : Plugins α) (n : Text) (s : State α N) : State α N × Bool :=
  match unload n s with
  | .error _ => (s, false)
  | .ok t =>
    match load P n t with
    | .error _ => (t, false)
    | .ok u => (u, true)

/-- The last attempt of `_detect_backend` to have the backend loaded. -/
def unloadAndLoad (n : Text) (s : State α N) : State α N :=
  match if s.loaded n then unload n s else .ok s with
  | .error _ => s
  | .ok t => tryLoad e.again t n

/-- `_detect_backend`. There may be nothing to find out. -/
def detectBackend [DecidableEq α] (n : Text) (found : Option (Detection α)) (s : State α N) : Answer × State α N :=
  match found with
  | none => (.notUpdated, s)
  | some d =>
    match s.find n, s.llm.backends.get n with
    | none, _ => (.notUpdated, s)
    | some _, none => (.notUpdated, s)
    | some (c, i), some adapter =>
      if adapter.identity ≠ d.adapter then (.notUpdated, s)
      else if e.digest { c.values with models := ([] : List (TimeoutBudgets.ModelConfig α)) } ≠ d.fingerprint then
        (.notUpdated, s)
      else if modelCatalogsEqual (models c) d.newModels then (.success, s)
      else
        match reload e.plugins n (s.setBackend i (setModels d.newModels c)) with
        | (t, false) => (.notUpdated, unloadAndLoad e n (t.setBackend i (setModels (models c) c)))
        | (t, true) =>
          if e.saves then (.success, t)
          else
            match reload e.again n (t.setBackend i (setModels (models c) c)) with
            | (u, true) => (.notUpdated, u)
            | (u, false) => (.notUpdated, unloadAndLoad e n u)

end Operations

variable {α φ : Type} {N : Floats φ}

/-- The operations that change the list of backends, with what they are given. -/
inductive Operation (α φ : Type) where
  | create (data : Given (ModelItem α) α φ)
  | update (n : Text) (data : Given (ModelItem α) α φ)
  | delete (n : Text)
  | importDocument (entries : Option (List (Given (ModelItem α) α φ))) (overwrite : Bool)
  | restore (confirmed : Bool) (backup : Option (List (Given (ModelItem α) α φ)))
  | detect (n : Text) (found : Option (Detection α))

def canLoad (P : Plugins α) (n : Text) (backends : List (LLMBackendConfig α N)) : Bool :=
  (backends.find? (fun c => decide (name c = n))).any (fun c => enable c && P.creates (backend c))

/-- List and loaded backends are what they were, but for those that cannot be loaded again. -/
structure Unchanged (again : Plugins α) (s t : State α N) : Prop where
  backends : List.Forall₂ Same s.apiBackends t.apiBackends
  noMore : ∀ n, t.loaded n = true → s.loaded n = true
  noLess : ∀ n, s.loaded n = true → canLoad again n s.apiBackends = true → t.loaded n = true

def Names (s : State α N) : Operation α φ → Text → Prop
  | .create data, n => data.name = some n
  | .update m data, n => n = m ∨ data.name = some n
  | .delete m, n => n = m
  | .importDocument entries _, n => ∃ ds ∈ entries, ∃ d ∈ ds, d.name = some n
  | .restore _ backup, n => n ∈ s.apiBackends.map name ∨ ∃ ds ∈ backup, ∃ d ∈ ds, d.name = some n
  | .detect m _, n => n = m

def Imported (incoming : List (LLMBackendConfig α N)) (c c' : LLMBackendConfig α N) : Prop :=
  (∃ b ∈ incoming, name b = name c ∧ modelValidate N (merged b c) = .ok c') ∨ (∀ b ∈ incoming, name b ≠ name c) ∧ c' = c

def Distinct (s : State α N) : Prop := (s.apiBackends.map name).Nodup

def completes (e : Environment α φ) (s : State α N) (i : Nat) (updated : LLMBackendConfig α N) : Bool :=
  (!enable updated || canLoad e.plugins (name updated) (s.apiBackends.set i updated)) && e.saves

/-- An imported backend is valid with the secrets of the one it replaces. -/
def merges (s : State α N) (b : LLMBackendConfig α N) : Bool :=
  match existing s (name b) with
  | none => true
  | some (current, _) => (modelValidate N (merged b current)).isOk

def Idle (s : State α N) (b : LLMBackendConfig α N) : Prop :=
  ∃ current position replacement, existing s (name b) = some (current, position) ∧
    modelValidate N (merged b current) = .ok replacement ∧ Same current replacement

/-- The steps after the first edit of the list go through, or nothing has been edited. -/
def Meets (s : State α N) : Operation α φ × Environment α φ → Prop
  | (.create data, e) => ∀ request created, modelValidate N data = .ok request →
      (∀ b ∈ s.apiBackends, name b ≠ name request) → modelValidate N request.modelDump = .ok created →
      (enable created = true → e.plugins.creates (backend created) = true) ∧ e.saves = true
  | (.update n data, e) => ∀ request original i updated, modelValidate N data = .ok request →
      s.find n = some (original, i) → updatedBackend original request = .ok updated → name updated ≠ n →
      if completes e s i updated then ∀ c ∈ s.apiBackends, name c ≠ name updated
      else s.loaded (name updated) = true → canLoad e.again (name updated) s.apiBackends = false
  | (.delete n, e) => ∀ deleted i, s.find n = some (deleted, i) → (enable deleted = true → s.loaded n = true) →
      e.saves = true
  | (.importDocument entries overwrite, e) => ∀ incoming, validateBackendDocument N entries = some incoming →
      (overwrite = true ∨ ∀ b ∈ incoming, name b ∉ s.apiBackends.map name) →
      (∀ b ∈ incoming, merges s b = true) ∧ e.saves = true ∨ ∀ b ∈ incoming.takeWhile (merges s), Idle s b
  | (.restore confirmed backup, e) => ∀ documents backupConfig, confirmed = true → backup = some documents →
      loadConfig N documents = .ok backupConfig →
      (∃ restored, backupConfig.mapM (fun b => modelValidate N b.modelDump) = .ok restored ∧ e.saves = true ∧
        (backupConfig.map name).Nodup) ∨
      (∀ restored, backupConfig.mapM (fun b => modelValidate N b.modelDump) = .ok restored →
        e.saves = false ∧ List.Forall₂ Same s.apiBackends restored) ∧
        ∀ n ∈ s.apiBackends.map name, s.loaded n = true → canLoad e.again n s.apiBackends = false
  | (.detect _ _, _) => True

variable [DecidableEq α]

def perform (s : State α N) : Operation α φ × Environment α φ → Answer × State α N
  | (.create data, e) => createBackend e data s
  | (.update n data, e) => updateBackend e n data s
  | (.delete n, e) => deleteBackend e n s
  | (.importDocument entries overwrite, e) => importBackends e entries overwrite s
  | (.restore confirmed backup, e) => restoreBackends e confirmed backup s
  | (.detect n found, e) => detectBackend e n found s

def next (s : State α N) (l : Operation α φ × Environment α φ) : Option (State α N) := some (perform s l).2

/-- The list of backends is as an operation that succeeds is to leave it. -/
def Carried (s t : State α N) : Operation α φ → Prop
  | .create data => ∃ request created, modelValidate N data = .ok request ∧ created.values = request.values ∧
      t.apiBackends = s.apiBackends ++ [created]
  | .update n data => ∃ before original after request updated, s.apiBackends = before ++ original :: after ∧
      name original = n ∧ modelValidate N data = .ok request ∧ updatedBackend original request = .ok updated ∧
      t.apiBackends = before ++ updated :: after
  | .delete n => ∃ before deleted after, s.apiBackends = before ++ deleted :: after ∧ name deleted = n ∧
      t.apiBackends = before ++ after
  | .importDocument entries _ => ∃ incoming kept, validateBackendDocument N entries = some incoming ∧
      List.Forall₂ (Imported incoming) s.apiBackends kept ∧
      t.apiBackends = kept ++ incoming.filter (fun b => decide (name b ∉ s.apiBackends.map name))
  | .restore _ backup => ∃ documents backupConfig, backup = some documents ∧ loadConfig N documents = .ok backupConfig ∧
      t.apiBackends.map LLMBackendConfig.values = backupConfig.map LLMBackendConfig.values
  | .detect n found => ∃ before c after d, s.apiBackends = before ++ c :: after ∧ name c = n ∧ found = some d ∧
      (t.apiBackends = s.apiBackends ∧ modelCatalogsEqual (models c) d.newModels = true ∨
        t.apiBackends = before ++ setModels d.newModels c :: after)

/-- An operation changes the backends it is about or, where it fails, nothing. -/
structure AllOrNothing (s : State α N) (l : Operation α φ × Environment α φ) (r : Answer × State α N) : Prop where
  failed : r.1 ≠ .success → Unchanged l.2.again s r.2
  succeeded : r.1 = .success → Carried s r.2 l.1 ∧ ∀ n, ¬ Names s l.1 n → r.2.loaded n = s.loaded n
  distinct : Distinct r.2

end Kirara.BackendEdits
