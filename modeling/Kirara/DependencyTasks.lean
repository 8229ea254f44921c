import Kirara.Channels
import Kirara.Dicts
import Kirara.Schedules

namespace Kirara.DependencyTasks

open Kirara.Channels Kirara.Dicts

abbrev Argv := List Text

structure DependencyDefinition where
  dependencyId : Text
  probeCommands : List Argv
  installCommands : List Argv
  prerequisites : List Text
  deriving DecidableEq

def DependencyDefinition.installSupported (d : DependencyDefinition) : Bool :=
  !d.installCommands.isEmpty

private def argv (words : List String) : Argv := words.map String.toList

/-- `_definitions()`, in the order of the catalog. -/
def definitions : List DependencyDefinition := [
  ⟨"node-runtime".toList,
    [argv ["node", "--version"], argv ["npm", "--version"], argv ["npx", "--version"]], [], []⟩,
  ⟨"python-tooling".toList, [argv ["uv", "--version"]], [], []⟩,
  ⟨"agent-browser-cli".toList, [argv ["agent-browser", "--version"]],
    [argv ["npm", "install", "-g", "agent-browser"]], ["node-runtime".toList]⟩,
  ⟨"agent-browser-browser".toList, [argv ["agent-browser", "doctor", "--offline", "--quick", "--json"]],
    [argv ["agent-browser", "install"]], ["agent-browser-cli".toList]⟩,
  ⟨"uvx-runtime".toList, [argv ["uvx", "--version"]], [], ["python-tooling".toList]⟩,
  ⟨"npx-runtime".toList, [argv ["npx", "--version"]], [], ["node-runtime".toList]⟩,
  ⟨"context7-runtime".toList, [argv ["npx", "--version"]], [], ["node-runtime".toList]⟩,
  ⟨"graphify-cli".toList, [argv ["graphify", "--version"]],
    [argv ["uv", "tool", "install", "--upgrade", "graphifyy"]], ["python-tooling".toList]⟩,
  ⟨"rtk-cli".toList, [argv ["rtk", "--version"], argv ["rtk", "gain"]],
    [argv ["cargo", "install", "--locked", "rtk-cli"]], []⟩,
  ⟨"memsearch-cli".toList, [argv ["memsearch", "--version"]],
    [argv ["uv", "tool", "install", "--upgrade", "memsearch"]], ["python-tooling".toList]⟩,
  ⟨"context-mode-plugin".toList, [argv ["context-mode", "--version"]],
    [argv ["npm", "install", "-g", "context-mode"]], ["node-runtime".toList]⟩,
  ⟨"caveman-plugin".toList, [argv ["caveman", "--version"]], [], ["node-runtime".toList]⟩]

inductive DependencyError where
  | notFound
  | confirmationRequired
  | unsupported
  | taskState
  deriving DecidableEq

inductive TaskStatus where
  | queued
  | running
  | succeeded
  | failed
  | cancelled
  deriving DecidableEq

def TaskStatus.terminal : TaskStatus → Bool
  | .succeeded | .failed | .cancelled => true
  | .queued | .running => false

inductive ErrorCode where
  | cancelled
  | serviceRestarted
  | prerequisiteMissing
  | timeout
  | installFailed
  | postProbeFailed
  | executionError
  deriving DecidableEq

structure DependencyInstallTask where
  taskId : Text
  dependencyId : Text
  status : TaskStatus
  retryOf : Option Text
  cancelRequested : Bool
  errorCode : Option ErrorCode
  deriving DecidableEq

inductive DependencyStatus where
  | unknown
  | ready
  | missing
  | cancelled
  | failed
  deriving DecidableEq

structure DependencyState where
  status : DependencyStatus
  ready : Bool
  lastTaskId : Option Text
  deriving DecidableEq

structure DependencyProbe where
  ready : Bool
  status : DependencyStatus
  deriving DecidableEq

structure CommandResult where
  exitCode : Option Int
  timedOut : Bool
  cancelled : Bool
  deriving DecidableEq

inductive Outcome where
  | returned (result : CommandResult)
  | osError
  | raised
  deriving DecidableEq

/-- Which of the probes of `run_task` is under way. -/
inductive Purpose where
  | current
  | prerequisite (prerequisiteId : Text) (rest : List Text)
  | post
  deriving DecidableEq

/-- What `run_task` hands to `_finish_task`. -/
inductive Ending where
  | succeeded
  | failed (errorCode : ErrorCode)
  | cancelled
  deriving DecidableEq

def Ending.status : Ending → TaskStatus
  | .succeeded => .succeeded
  | .failed _ => .failed
  | .cancelled => .cancelled

def Ending.errorCode : Ending → Option ErrorCode
  | .succeeded => none
  | .failed errorCode => some errorCode
  | .cancelled => some .cancelled

/-- Where a thread is in `run_task`. A cancellation can come at any of these points. -/
inductive Stage where
  | probing (purpose : Purpose) (due : List Argv)
  | probeRunning (purpose : Purpose) (due : List Argv)
  | probeReturned (purpose : Purpose) (due : List Argv) (outcome : Outcome)
  | probed (purpose : Purpose) (probe : DependencyProbe)
  | installing (due : List Argv)
  | installRunning (due : List Argv)
  | installReturned (due : List Argv) (outcome : Outcome)
  | finishing (ending : Ending)
  deriving DecidableEq

structure Worker where
  definition : DependencyDefinition
  stage : Stage
  deriving DecidableEq

/-- The service and its two files. A thread that runs a task is its worker. -/
structure Service where
  tasks : Dict Text DependencyInstallTask
  registry : Dict Text DependencyState
  cancellationEvents : Dict Text Bool
  workers : Dict Text Worker
  tasksFile : List DependencyInstallTask
  registryFile : Dict Text DependencyState

def definition (dependencyId : Text) : Except DependencyError DependencyDefinition :=
  match definitions.find? (fun d => d.dependencyId = dependencyId) with
  | some d => .ok d
  | none => .error .notFound

def Service.task (s : Service) (taskId : Text) : Except DependencyError DependencyInstallTask :=
  if "dep-".toList <+: taskId then
    match s.tasks.get taskId with
    | some t => .ok t
    | none => .error .taskState
  else .error .taskState

def Service.persistTasks (s : Service) : Service := { s with tasksFile := s.tasks.values }

def Service.persistRegistry (s : Service) : Service := { s with registryFile := s.registry }

def Service.setTask (s : Service) (t : DependencyInstallTask) : Service :=
  { s with tasks := s.tasks.set t.taskId t }

def Service.setStage (s : Service) (taskId : Text) (w : Worker) (stage : Stage) : Service :=
  { s with workers := s.workers.set taskId { w with stage := stage } }

/-- `cancellation_event.is_set()`. -/
def Service.cancelled (s : Service) (taskId : Text) : Bool :=
  (s.cancellationEvents.get taskId).getD false

def unknownState : DependencyState := ⟨.unknown, false, none⟩

def Service.entry (s : Service) (dependencyId : Text) : DependencyState :=
  (s.registry.get dependencyId).getD unknownState

def Service.setEntry (s : Service) (dependencyId : Text) (e : DependencyState) : Service :=
  { s with registry := s.registry.set dependencyId e }

/-- `uuid.uuid4().hex` under the prefix of a task. -/
def newTaskId (hex : Text) : Text := "dep-".toList ++ hex

variable (s : Service)

def install (dependencyId : Text) (confirmed : Bool) (hex : Text) (retryOf : Option Text) :
    Except DependencyError Service := do
  let d ← definition dependencyId
  if !confirmed then throw .confirmationRequired
  if !d.installSupported then throw .unsupported
  match retryOf with
  | none => pure ()
  | some original =>
    let t ← s.task original
    if t.dependencyId ≠ dependencyId then throw .taskState
  let t : DependencyInstallTask := ⟨newTaskId hex, dependencyId, .queued, retryOf, false, none⟩
  let queued := (s.setTask t).setEntry dependencyId { s.entry dependencyId with lastTaskId := some t.taskId }
  return queued.persistTasks.persistRegistry

/-- No step changes the status of an ended task, so what is checked here stays true. -/
def retryTask (taskId : Text) (confirmed : Bool) (hex : Text) : Except DependencyError Service := do
  let original ← s.task taskId
  if original.status ≠ .failed ∧ original.status ≠ .cancelled then throw .taskState
  install s original.dependencyId confirmed hex (some taskId)

def cancelTask (taskId : Text) : Except DependencyError Service := do
  let t ← s.task taskId
  match t.status with
  | .queued =>
    return (s.setTask { t with
      cancelRequested := true, status := .cancelled, errorCode := some .cancelled }).persistTasks
  | .running =>
    return { s.setTask { t with cancelRequested := true } with
      cancellationEvents := s.cancellationEvents.set taskId true }.persistTasks
  | _ => return s.persistTasks

/-- The first locked part of `run_task`, up to the first probe. -/
def runTask (taskId : Text) : Except DependencyError Service := do
  let t ← s.task taskId
  if t.status ≠ .queued then throw .taskState
  let started := { s.setTask { t with status := .running } with
    cancellationEvents := s.cancellationEvents.set taskId (s.cancelled taskId) }.persistTasks
  match definition t.dependencyId with
  | .ok d => return { started with
      workers := started.workers.set taskId ⟨d, .probing .current d.probeCommands⟩ }
  | .error _ => return started

/-- A prerequisite that the catalog does not have is a `KeyError`. -/
def nextPrerequisite (d : DependencyDefinition) : List Text → Stage
  | [] => .installing d.installCommands
  | prerequisiteId :: rest =>
    match definition prerequisiteId with
    | .ok p => .probing (.prerequisite prerequisiteId rest) p.probeCommands
    | .error _ => .finishing (.failed .executionError)

/-- What `_probe_definition` makes of the end of one command. -/
def judgeProbe (cancelled : Bool) (purpose : Purpose) (due : List Argv) : Outcome → Stage
  | .osError => .probed purpose ⟨false, .missing⟩
  | .raised => .finishing (.failed .executionError)
  | .returned result =>
    if result.cancelled || cancelled then .probed purpose ⟨false, .cancelled⟩
    else if result.timedOut then .probed purpose ⟨false, .failed⟩
    else if result.exitCode ≠ some 0 then .probed purpose ⟨false, .missing⟩
    else .probing purpose due

/-- What `run_task` makes of the end of one install command. -/
def judgeInstall (cancelled : Bool) (due : List Argv) : Outcome → Stage
  | .osError | .raised => .finishing (.failed .executionError)
  | .returned result =>
    if result.cancelled || cancelled then .finishing .cancelled
    else if result.timedOut then .finishing (.failed .timeout)
    else if result.exitCode ≠ some 0 then .finishing (.failed .installFailed)
    else .installing due

/-- The registry entry after `update(probe.to_dict())`. -/
def DependencyState.probed (e : DependencyState) (probe : DependencyProbe) : DependencyState :=
  { e with status := probe.status, ready := probe.ready }

def Service.record (dependencyId : Text) (probe : DependencyProbe) : Service :=
  (s.setEntry dependencyId ((s.entry dependencyId).probed probe)).persistRegistry

/-- `_finish_task`, and the `finally` of `run_task` after it. -/
def finishTask (taskId : Text) (ending : Ending) : Service :=
  let ended :=
    match s.tasks.get taskId with
    | none => s
    | some t =>
      let ended := (s.setTask { t with status := ending.status, errorCode := ending.errorCode }).persistTasks
      match ending with
      | .succeeded => ended
      | .failed _ => ended.record t.dependencyId ⟨false, .failed⟩
      | .cancelled => ended.record t.dependencyId ⟨false, .cancelled⟩
  { ended with
    cancellationEvents := ended.cancellationEvents.pop taskId
    workers := ended.workers.pop taskId }

def work (taskId : Text) (w : Worker) : Service :=
  match w.stage with
  | .probing purpose [] => s.setStage taskId w (.probed purpose ⟨true, .ready⟩)
  | .probing purpose (_ :: due) => s.setStage taskId w (.probeRunning purpose due)
  | .probeReturned purpose due outcome =>
    s.setStage taskId w (judgeProbe (s.cancelled taskId) purpose due outcome)
  | .probed .current probe =>
    s.setStage taskId w (if probe.ready then .finishing .succeeded
      else nextPrerequisite w.definition w.definition.prerequisites)
  | .probed (.prerequisite prerequisiteId rest) probe =>
    (s.record prerequisiteId probe).setStage taskId w (if probe.ready then nextPrerequisite w.definition rest
      else .finishing (.failed .prerequisiteMissing))
  | .probed .post probe =>
    (s.record w.definition.dependencyId probe).setStage taskId w (if probe.ready then .finishing .succeeded
      else .finishing (.failed .postProbeFailed))
  | .installing [] => s.setStage taskId w (.probing .post w.definition.probeCommands)
  | .installing (_ :: due) => s.setStage taskId w (.installRunning due)
  | .installReturned due outcome => s.setStage taskId w (judgeInstall (s.cancelled taskId) due outcome)
  | .finishing ending => finishTask s taskId ending
  | .probeRunning _ _ | .installRunning _ => s

def advance (taskId : Text) : Service :=
  match s.workers.get taskId with
  | some w => work s taskId w
  | none => s

def commandEnded (taskId : Text) (outcome : Outcome) : Service :=
  match s.workers.get taskId with
  | none => s
  | some w =>
    match w.stage with
    | .probeRunning purpose due => s.setStage taskId w (.probeReturned purpose due outcome)
    | .installRunning due => s.setStage taskId w (.installReturned due outcome)
    | _ => s

def loadTasks (file : List DependencyInstallTask) : Dict Text DependencyInstallTask :=
  ((file.filter (fun t => definitions.any (fun d => d.dependencyId = t.dependencyId) &&
    decide ("dep-".toList <+: t.taskId))).map (fun t => (t.taskId, t))).foldl (fun d e => d.set e.1 e.2) .empty

def loadRegistry (file : Dict Text DependencyState) : Dict Text DependencyState :=
  definitions.foldl (fun r d => r.set d.dependencyId ((file.get d.dependencyId).getD unknownState)) .empty

/-- `_recover_interrupted_tasks`, for one task. -/
def recover (t : DependencyInstallTask) : DependencyInstallTask :=
  if t.status = .queued ∨ t.status = .running then
    { t with status := .failed, errorCode := some .serviceRestarted }
  else t

def openService (tasksFile : List DependencyInstallTask) (registryFile : Dict Text DependencyState) : Service :=
  let tasks := (loadTasks tasksFile).mapValues recover
  let registry := loadRegistry registryFile
  ⟨tasks, registry, .empty, .empty, tasks.values, registry⟩

inductive Event where
  | install (dependencyId : Text) (confirmed : Bool) (hex : Text) (retryOf : Option Text)
  | retryTask (taskId : Text) (confirmed : Bool) (hex : Text)
  | cancelTask (taskId : Text)
  | runTask (taskId : Text)
  | advance (taskId : Text)
  | commandEnded (taskId : Text) (outcome : Outcome)
  | restart
  deriving DecidableEq

def Service.after (s : Service) : Except DependencyError Service → Service
  | .ok t => t
  | .error _ => s

/-- One step of the service and its threads. A UUID is never drawn twice. -/
def next (s : Service) : Event → Option Service
  | .install dependencyId confirmed hex retryOf =>
    if newTaskId hex ∈ s.tasks.keys then none
    else some (s.after (install s dependencyId confirmed hex retryOf))
  | .retryTask taskId confirmed hex =>
    if newTaskId hex ∈ s.tasks.keys then none else some (s.after (retryTask s taskId confirmed hex))
  | .cancelTask taskId => some (s.after (cancelTask s taskId))
  | .runTask taskId => some (s.after (runTask s taskId))
  | .advance taskId => some (advance s taskId)
  | .commandEnded taskId outcome => some (commandEnded s taskId outcome)
  | .restart => some (openService s.tasksFile s.registryFile)

def fresh : Service := openService [] .empty

end Kirara.DependencyTasks
