import Kirara.DependencyTasks
import Kirara.Fallible

namespace Kirara.DependencyRuns

open Kirara.Channels Kirara.Dicts Kirara.Dicts.Dict Kirara.DependencyTasks Kirara.Fallible

variable {s u : Service} {i j d : Text} {t : DependencyInstallTask} {w : Worker} {e : Event}

theorem definition_mem {p : DependencyDefinition} (h : definition d = .ok p) : p ∈ definitions ∧ p.dependencyId = d := by
  unfold definition at h
  split at h
  · next q hq =>
    cases h
    exact ⟨List.mem_of_find?_eq_some hq, by simpa using List.find?_some hq⟩
  · cases h

theorem exists_definition (h : ∃ p ∈ definitions, p.dependencyId = d) : ∃ p, definition d = .ok p := by
  obtain ⟨p, hp, hd⟩ := h
  have hsome : (definitions.find? (fun p => p.dependencyId = d)).isSome :=
    List.find?_isSome.mpr ⟨p, hp, by simpa using hd⟩
  obtain ⟨q, hq⟩ := Option.isSome_iff_exists.mp hsome
  exact ⟨q, by rw [definition, hq]⟩

theorem task_eq_ok : s.task i = .ok t ↔ "dep-".toList <+: i ∧ s.tasks.get i = some t := by
  unfold Service.task
  split
  · next hp =>
    cases hg : s.tasks.get i with
    | none => exact iff_of_false (by rintro ⟨⟩) (fun h => by cases h.2)
    | some v =>
      constructor
      · intro h
        cases h
        exact ⟨hp, rfl⟩
      · intro h
        cases h.2
        rfl
  · next hp => exact iff_of_false (by rintro ⟨⟩) (fun h => hp h.1)

def queuedTask (hex : Text) (dependencyId : Text) (retryOf : Option Text) : DependencyInstallTask :=
  ⟨newTaskId hex, dependencyId, .queued, retryOf, false, none⟩

def queue (s : Service) (q : DependencyInstallTask) : Service :=
  ((s.setTask q).setEntry q.dependencyId
    { s.entry q.dependencyId with lastTaskId := some q.taskId }).persistTasks.persistRegistry

theorem install_ok {confirmed : Bool} {hex : Text} {retryOf : Option Text}
    (h : install s d confirmed hex retryOf = .ok u) :
    (∃ p ∈ definitions, p.dependencyId = d) ∧ u = queue s (queuedTask hex d retryOf) := by
  unfold install at h
  obtain ⟨p, hp, h⟩ := bind_eq_ok.mp h
  obtain ⟨-, h⟩ := ite_error_eq_ok.mp h
  obtain ⟨-, h⟩ := ite_error_eq_ok.mp h
  refine ⟨⟨p, definition_mem hp⟩, ?_⟩
  cases retryOf with
  | none =>
    cases h
    rfl
  | some original =>
    obtain ⟨t, -, h⟩ := bind_eq_ok.mp h
    obtain ⟨-, h⟩ := ite_error_eq_ok.mp h
    cases h
    rfl

theorem retryTask_ok {confirmed : Bool} {hex : Text} (h : retryTask s i confirmed hex = .ok u) :
    ∃ d, (∃ p ∈ definitions, p.dependencyId = d) ∧ u = queue s (queuedTask hex d (some i)) := by
  unfold retryTask at h
  obtain ⟨t, -, h⟩ := bind_eq_ok.mp h
  obtain ⟨-, h⟩ := ite_error_eq_ok.mp h
  exact ⟨t.dependencyId, install_ok h⟩

/-- Tasks are under their own ids and on disk as in memory; running ones have a worker. -/
structure Consistent (s : Service) : Prop where
  keyed : ∀ i t, s.tasks.get i = some t → t.taskId = i
  known : ∀ i t, s.tasks.get i = some t →
    "dep-".toList <+: t.taskId ∧ ∃ p ∈ definitions, p.dependencyId = t.dependencyId
  saved : s.tasksFile = s.tasks.values
  working : ∀ i t, s.tasks.get i = some t → t.status = .running →
    ∃ w, s.workers.get i = some w ∧ w.definition.dependencyId = t.dependencyId
  staffed : ∀ i w, s.workers.get i = some w → ∃ t, s.tasks.get i = some t ∧ t.status = .running

theorem Consistent.put (h : Consistent s) {q : DependencyInstallTask}
    (htasks : u.tasks = s.tasks.set q.taskId q) (hfile : u.tasksFile = u.tasks.values)
    (hknown : "dep-".toList <+: q.taskId ∧ ∃ p ∈ definitions, p.dependencyId = q.dependencyId)
    (hother : ∀ j, j ≠ q.taskId → u.workers.get j = s.workers.get j) (hrunning : q.status = .running →
      ∃ w, u.workers.get q.taskId = some w ∧ w.definition.dependencyId = q.dependencyId)
    (hidle : q.status ≠ .running → u.workers.get q.taskId = none) : Consistent u := by
  have hget : ∀ j t, u.tasks.get j = some t → j = q.taskId ∧ t = q ∨ j ≠ q.taskId ∧ s.tasks.get j = some t := by
    intro j t ht
    rw [htasks, get_set] at ht
    split at ht
    · next hj =>
      cases ht
      exact .inl ⟨hj, rfl⟩
    · next hj => exact .inr ⟨hj, ht⟩
  refine ⟨fun j t ht => ?_, fun j t ht => ?_, hfile, fun j t ht hrun => ?_, fun j w hw => ?_⟩
  · obtain ⟨rfl, rfl⟩ | ⟨-, ht⟩ := hget j t ht
    · rfl
    · exact h.keyed j t ht
  · obtain ⟨rfl, rfl⟩ | ⟨-, ht⟩ := hget j t ht
    · exact hknown
    · exact h.known j t ht
  · obtain ⟨rfl, rfl⟩ | ⟨hj, ht⟩ := hget j t ht
    · exact hrunning hrun
    · rw [hother j hj]
      exact h.working j t ht hrun
  · rw [htasks]
    by_cases hj : j = q.taskId
    · subst hj
      refine ⟨q, get_set_self, ?_⟩
      by_contra hne
      rw [hidle hne] at hw
      cases hw
    · rw [hother j hj] at hw
      rw [get_set_of_ne hj]
      exact h.staffed j w hw

variable {stage : Stage}

theorem Consistent.setStage (h : Consistent s) (hw : s.workers.get i = some w)
    (htasks : u.tasks = s.tasks) (hfile : u.tasksFile = s.tasksFile)
    (hworkers : u.workers = s.workers.set i { w with stage := stage }) : Consistent u := by
  constructor
  · rw [htasks]
    exact h.keyed
  · rw [htasks]
    exact h.known
  · rw [hfile, htasks]
    exact h.saved
  · intro j t ht hrun
    rw [htasks] at ht
    obtain ⟨v, hv, hd⟩ := h.working j t ht hrun
    rw [hworkers, get_set]
    split
    · next hj =>
      subst hj
      cases hw.symm.trans hv
      exact ⟨_, rfl, hd⟩
    · exact ⟨v, hv, hd⟩
  · intro j v hv
    rw [htasks]
    rw [hworkers, get_set] at hv
    split at hv
    · next hj => exact hj ▸ h.staffed i w hw
    · exact h.staffed j v hv

theorem prefix_newTaskId (hex : Text) : "dep-".toList <+: newTaskId hex := ⟨hex, rfl⟩

variable (h : Consistent s)

include h

theorem consistent_queue {hex : Text} {retryOf : Option Text}
    (hnew : newTaskId hex ∉ s.tasks.keys) (hd : ∃ p ∈ definitions, p.dependencyId = d) :
    Consistent (queue s (queuedTask hex d retryOf)) := by
  refine h.put (q := queuedTask hex d retryOf) rfl rfl ⟨prefix_newTaskId hex, hd⟩ (fun _ _ => rfl)
    nofun (fun _ => ?_)
  cases hw : s.workers.get (newTaskId hex) with
  | none => exact hw
  | some w =>
    obtain ⟨t, ht, -⟩ := h.staffed _ w hw
    exact absurd (isSome_get_iff.mp (by rw [ht]; rfl)) hnew

theorem persistTasks_eq : s.persistTasks = s := by
  unfold Service.persistTasks
  rw [← h.saved]

theorem cancelTask_ok (hok : cancelTask s i = .ok u) : ∃ t, s.tasks.get i = some t ∧
      (t.status = .queued ∧ u = (s.setTask { t with
          cancelRequested := true, status := .cancelled, errorCode := some .cancelled }).persistTasks ∨
        t.status = .running ∧ u = ({ s.setTask { t with cancelRequested := true } with
          cancellationEvents := s.cancellationEvents.set i true } : Service).persistTasks ∨
        t.status.terminal ∧ u = s) := by
  unfold cancelTask at hok
  obtain ⟨t, ht, hok⟩ := bind_eq_ok.mp hok
  refine ⟨t, (task_eq_ok.mp ht).2, ?_⟩
  split at hok
  · next hs =>
    cases hok
    exact .inl ⟨hs, rfl⟩
  · next hs =>
    cases hok
    exact .inr (.inl ⟨hs, rfl⟩)
  · next hq hr =>
    cases hok
    refine .inr (.inr ⟨?_, persistTasks_eq h⟩)
    cases hs : t.status with
    | queued => exact absurd hs hq
    | running => exact absurd hs hr
    | succeeded => rfl
    | failed => rfl
    | cancelled => rfl

theorem task_ok (ht : s.tasks.get i = some t) : s.task i = .ok t :=
  task_eq_ok.mpr ⟨h.keyed i t ht ▸ (h.known i t ht).1, ht⟩

theorem cancelTask_queued (ht : s.tasks.get i = some t) (hs : t.status = .queued) :
    cancelTask s i = .ok (s.setTask { t with
      cancelRequested := true, status := .cancelled, errorCode := some .cancelled }).persistTasks := by
  unfold cancelTask
  rw [task_ok h ht]
  simp only [bind, Except.bind, hs]
  rfl

theorem cancelTask_running (ht : s.tasks.get i = some t) (hs : t.status = .running) :
    cancelTask s i = .ok ({ s.setTask { t with cancelRequested := true } with
      cancellationEvents := s.cancellationEvents.set i true } : Service).persistTasks := by
  unfold cancelTask
  rw [task_ok h ht]
  simp only [bind, Except.bind, hs]
  rfl

theorem runTask_ok (hok : runTask s i = .ok u) :
    ∃ t p, s.tasks.get i = some t ∧ t.status = .queued ∧ p.dependencyId = t.dependencyId ∧
      u = { ({ s.setTask { t with status := .running } with
          cancellationEvents := s.cancellationEvents.set i (s.cancelled i) } : Service).persistTasks with
        workers := s.workers.set i ⟨p, .probing .current p.probeCommands⟩ } := by
  unfold runTask at hok
  obtain ⟨t, ht, hok⟩ := bind_eq_ok.mp hok
  obtain ⟨hs, hok⟩ := ite_throw_eq_ok.mp hok
  have hget := (task_eq_ok.mp ht).2
  obtain ⟨p, hp⟩ := exists_definition (h.known i t hget).2
  rw [hp] at hok
  cases hok
  exact ⟨t, p, hget, not_not.mp hs, (definition_mem hp).2, rfl⟩

theorem consistent_cancelTask (hok : cancelTask s i = .ok u) : Consistent u := by
  obtain ⟨t, ht, hcase⟩ := cancelTask_ok h hok
  have hkey := h.keyed i t ht
  obtain ⟨hs, rfl⟩ | ⟨hs, rfl⟩ | ⟨-, rfl⟩ := hcase
  · refine h.put rfl rfl (h.known i t ht) (fun _ _ => rfl) nofun (fun _ => ?_)
    cases hw : s.workers.get t.taskId with
    | none => exact hw
    | some w =>
      obtain ⟨v, hv, hrun⟩ := h.staffed _ w hw
      rw [hkey, ht] at hv
      cases hv
      cases hs.symm.trans hrun
  · refine h.put rfl rfl (h.known i t ht) (fun _ _ => rfl) (fun _ => ?_) (fun hne => absurd hs hne)
    change ∃ w, s.workers.get t.taskId = some w ∧ _
    rw [hkey]
    exact h.working i t ht hs
  · exact h

theorem consistent_runTask (hok : runTask s i = .ok u) : Consistent u := by
  obtain ⟨t, p, ht, -, hp, rfl⟩ := runTask_ok h hok
  have hkey := h.keyed i t ht
  refine h.put rfl rfl (h.known i t ht) (fun j hj => ?_) (fun _ => ?_) (fun hne => absurd rfl hne)
  · exact get_set_of_ne (hkey ▸ hj)
  · refine ⟨⟨p, .probing .current p.probeCommands⟩, ?_, hp⟩
    rw [← hkey]
    exact get_set_self

omit h

/-- A worker goes to its next stage. Its task, its event and the file stay. -/
structure Moved (s u : Service) (i : Text) (w : Worker) (stage : Stage) : Prop where
  tasks : u.tasks = s.tasks
  file : u.tasksFile = s.tasksFile
  events : u.cancellationEvents = s.cancellationEvents
  workers : u.workers = s.workers.set i { w with stage := stage }

theorem moved_setStage : Moved s (s.setStage i w stage) i w stage := ⟨rfl, rfl, rfl, rfl⟩

theorem moved_record {probe : DependencyProbe} :
    Moved s ((s.record d probe).setStage i w stage) i w stage := ⟨rfl, rfl, rfl, rfl⟩

theorem work_cases : (∃ ending, w.stage = .finishing ending ∧ work s i w = finishTask s i ending) ∨
    work s i w = s ∨ ∃ stage, Moved s (work s i w) i w stage := by
  unfold work
  split
  · exact .inr (.inr ⟨_, moved_setStage⟩)
  · exact .inr (.inr ⟨_, moved_setStage⟩)
  · exact .inr (.inr ⟨_, moved_setStage⟩)
  · exact .inr (.inr ⟨_, moved_setStage⟩)
  · exact .inr (.inr ⟨_, moved_record⟩)
  · exact .inr (.inr ⟨_, moved_record⟩)
  · exact .inr (.inr ⟨_, moved_setStage⟩)
  · exact .inr (.inr ⟨_, moved_setStage⟩)
  · exact .inr (.inr ⟨_, moved_setStage⟩)
  · next ending hs => exact .inl ⟨ending, hs, rfl⟩
  · exact .inr (.inl rfl)
  · exact .inr (.inl rfl)

theorem commandEnded_cases {outcome : Outcome} : commandEnded s i outcome = s ∨ ∃ w, s.workers.get i = some w ∧
      ((∃ purpose due, w.stage = .probeRunning purpose due ∧
        commandEnded s i outcome = s.setStage i w (.probeReturned purpose due outcome)) ∨
      (∃ due, w.stage = .installRunning due ∧
        commandEnded s i outcome = s.setStage i w (.installReturned due outcome))) := by
  unfold commandEnded
  split
  · exact .inl rfl
  · next w hw =>
    split
    · next purpose due hs => exact .inr ⟨w, hw, .inl ⟨purpose, due, hs, rfl⟩⟩
    · next due hs => exact .inr ⟨w, hw, .inr ⟨due, hs, rfl⟩⟩
    · exact .inl rfl

structure Finished (s u : Service) (i : Text) (t : DependencyInstallTask) (ending : Ending) : Prop where
  tasks : u.tasks = s.tasks.set i { t with status := ending.status, errorCode := ending.errorCode }
  file : u.tasksFile = u.tasks.values
  events : u.cancellationEvents = s.cancellationEvents.pop i
  workers : u.workers = s.workers.pop i
  registry : ∀ d, (d = t.dependencyId → ending = .succeeded) → (u.entry d).ready = (s.entry d).ready

theorem entry_record {probe : DependencyProbe} {c : Text} :
    (s.record d probe).entry c = if c = d then (s.entry d).probed probe else s.entry c := by
  unfold Service.record Service.setEntry Service.persistRegistry Service.entry
  dsimp only
  rw [get_set]
  split <;> rfl

theorem finished_finishTask (h : Consistent s) (ht : s.tasks.get i = some t) (ending : Ending) :
    Finished s (finishTask s i ending) i t ending := by
  have hkey : t.taskId = i := h.keyed i t ht
  have hother : ∀ {probe : DependencyProbe} {c : Text} (v : Service), (c = t.dependencyId → ending = .succeeded) →
      ending ≠ .succeeded → (v.record t.dependencyId probe).entry c = v.entry c := by
    intro probe c v hc hne
    rw [entry_record, if_neg (fun he => hne (hc he))]
  unfold finishTask
  rw [ht]
  cases ending with
  | succeeded => exact ⟨hkey ▸ rfl, rfl, rfl, rfl, fun _ _ => rfl⟩
  | failed errorCode =>
    exact ⟨hkey ▸ rfl, rfl, rfl, rfl, fun d hd => congrArg _ (hother _ hd nofun)⟩
  | cancelled =>
    exact ⟨hkey ▸ rfl, rfl, rfl, rfl, fun d hd => congrArg _ (hother _ hd nofun)⟩

theorem consistent_moved (h : Consistent s) (hw : s.workers.get i = some w)
    (hm : Moved s u i w stage) : Consistent u :=
  h.setStage hw hm.tasks hm.file hm.workers

theorem terminal_ending (ending : Ending) : ending.status.terminal := by
  cases ending <;> rfl

theorem consistent_finished (h : Consistent s) (ht : s.tasks.get i = some t) {ending : Ending}
    (hf : Finished s u i t ending) : Consistent u := by
  have hkey : t.taskId = i := h.keyed i t ht
  subst hkey
  refine h.put (q := { t with status := ending.status, errorCode := ending.errorCode }) hf.tasks hf.file
    (h.known _ t ht) (fun j hj => ?_) (fun hrun => ?_) (fun _ => ?_)
  · rw [hf.workers]
    exact get_pop_of_ne hj
  · have hend := terminal_ending ending
    rw [show ending.status = .running from hrun] at hend
    cases hend
  · rw [hf.workers]
    exact get_pop_self

theorem loadTasks_eq (h : Consistent s) : loadTasks s.tasksFile = s.tasks := by
  have hall : ∀ t ∈ s.tasks.values, (definitions.any (fun d => d.dependencyId = t.dependencyId) &&
      decide ("dep-".toList <+: t.taskId)) = true := by
    intro t ht
    obtain ⟨i, hi⟩ := mem_values_iff.mp ht
    obtain ⟨hp, p, hmem, hd⟩ := h.known i t hi
    rw [Bool.and_eq_true, List.any_eq_true, decide_eq_true_iff]
    exact ⟨⟨p, hmem, by simpa using hd⟩, hp⟩
  have hentries : s.tasks.values.map (fun t => (t.taskId, t)) = s.tasks.entries := by
    rw [Dict.values, List.map_map]
    refine (List.map_congr_left (fun e he => ?_)).trans (List.map_id _)
    have hkey := h.keyed e.1 e.2 (get_eq_some_iff.mpr he)
    exact Prod.ext hkey rfl
  apply Dict.ext
  unfold loadTasks
  rw [h.saved, List.filter_eq_self.mpr hall, hentries, foldl_set_entries (by exact s.tasks.distinct)]
  rfl

theorem recover_taskId : (recover t).taskId = t.taskId ∧ (recover t).dependencyId = t.dependencyId := by
  unfold recover
  split
  · exact ⟨rfl, rfl⟩
  · exact ⟨rfl, rfl⟩

theorem recover_terminal : (recover t).status.terminal := by
  unfold recover
  split
  · rfl
  · next h =>
    cases hs : t.status with
    | queued => exact absurd (.inl hs) h
    | running => exact absurd (.inr hs) h
    | succeeded => rfl
    | failed => rfl
    | cancelled => rfl

theorem recover_eq_self (h : t.status.terminal) : recover t = t := by
  refine if_neg (fun hs => ?_)
  cases hs with
  | inl hs =>
    rw [hs] at h
    cases h
  | inr hs =>
    rw [hs] at h
    cases h

theorem get_restart (h : Consistent s) :
    (openService s.tasksFile s.registryFile).tasks.get i = (s.tasks.get i).map recover := by
  change ((loadTasks s.tasksFile).mapValues recover).get i = _
  rw [get_mapValues, loadTasks_eq h]

theorem consistent_restart (h : Consistent s) : Consistent (openService s.tasksFile s.registryFile) := by
  refine ⟨fun j t ht => ?_, fun j t ht => ?_, rfl, fun j t ht hrun => ?_, fun j w hw => (nomatch hw)⟩
  · rw [get_restart h] at ht
    obtain ⟨v, hv, rfl⟩ := Option.map_eq_some_iff.mp ht
    rw [recover_taskId.1]
    exact h.keyed j v hv
  · rw [get_restart h] at ht
    obtain ⟨v, hv, rfl⟩ := Option.map_eq_some_iff.mp ht
    rw [recover_taskId.1, recover_taskId.2]
    exact h.known j v hv
  · rw [get_restart h] at ht
    obtain ⟨v, -, rfl⟩ := Option.map_eq_some_iff.mp ht
    have hend := recover_terminal (t := v)
    rw [hrun] at hend
    cases hend

theorem consistent_fresh : Consistent fresh :=
  ⟨fun _ _ ht => (nomatch ht), fun _ _ ht => (nomatch ht), rfl, fun _ _ ht => (nomatch ht),
    fun _ _ hw => (nomatch hw)⟩

theorem next_cases (h : Consistent s) (hnext : next s e = some u) : u = s ∨
    (∃ hex d retryOf, newTaskId hex ∉ s.tasks.keys ∧ (∃ p ∈ definitions, p.dependencyId = d) ∧
      u = queue s (queuedTask hex d retryOf)) ∨
    (∃ i, e = .cancelTask i ∧ cancelTask s i = .ok u) ∨
    (∃ i, e = .runTask i ∧ runTask s i = .ok u) ∨
    (∃ i w, (e = .advance i ∨ ∃ outcome, e = .commandEnded i outcome) ∧ s.workers.get i = some w ∧
      ∃ stage, Moved s u i w stage) ∨
    (∃ i w t ending, e = .advance i ∧ s.workers.get i = some w ∧ w.stage = .finishing ending ∧
      s.tasks.get i = some t ∧ t.status = .running ∧ Finished s u i t ending) ∨
    (e = .restart ∧ u = openService s.tasksFile s.registryFile) := by
  cases e with
  | install d confirmed hex retryOf =>
    dsimp only [next] at hnext
    split at hnext
    · cases hnext
    · next hnew =>
      cases hnext
      cases hok : install s d confirmed hex retryOf with
      | error x => exact .inl rfl
      | ok v =>
        obtain ⟨hd, rfl⟩ := install_ok hok
        exact .inr (.inl ⟨hex, d, retryOf, hnew, hd, rfl⟩)
  | retryTask i confirmed hex =>
    dsimp only [next] at hnext
    split at hnext
    · cases hnext
    · next hnew =>
      cases hnext
      cases hok : retryTask s i confirmed hex with
      | error x => exact .inl rfl
      | ok v =>
        obtain ⟨d, hd, rfl⟩ := retryTask_ok hok
        exact .inr (.inl ⟨hex, d, some i, hnew, hd, rfl⟩)
  | cancelTask i =>
    cases hnext
    cases hok : cancelTask s i with
    | error x => exact .inl rfl
    | ok v => exact .inr (.inr (.inl ⟨i, rfl, hok⟩))
  | runTask i =>
    cases hnext
    cases hok : runTask s i with
    | error x => exact .inl rfl
    | ok v => exact .inr (.inr (.inr (.inl ⟨i, rfl, hok⟩)))
  | advance i =>
    cases hnext
    unfold advance
    cases hw : s.workers.get i with
    | none => exact .inl rfl
    | some w =>
      dsimp only
      obtain ⟨ending, hs, heq⟩ | heq | ⟨stage, hm⟩ := work_cases (s := s) (i := i) (w := w)
      · obtain ⟨t, ht, hrun⟩ := h.staffed i w hw
        refine .inr (.inr (.inr (.inr (.inr (.inl ⟨i, w, t, ending, rfl, hw, hs, ht, hrun, ?_⟩)))))
        rw [heq]
        exact finished_finishTask h ht ending
      · exact .inl heq
      · exact .inr (.inr (.inr (.inr (.inl ⟨i, w, .inl rfl, hw, stage, hm⟩))))
  | commandEnded i outcome =>
    cases hnext
    obtain heq | ⟨w, hw, hcase⟩ := @commandEnded_cases s i outcome
    · exact .inl heq
    · refine .inr (.inr (.inr (.inr (.inl ⟨i, w, .inr ⟨outcome, rfl⟩, hw, ?_⟩))))
      obtain ⟨purpose, due, -, heq⟩ | ⟨due, -, heq⟩ := hcase
      · exact ⟨_, heq ▸ moved_setStage⟩
      · exact ⟨_, heq ▸ moved_setStage⟩
  | restart =>
    cases hnext
    exact .inr (.inr (.inr (.inr (.inr (.inr ⟨rfl, rfl⟩)))))

theorem consistent_next (h : Consistent s) (hnext : next s e = some u) : Consistent u := by
  obtain rfl | ⟨hex, d, retryOf, hnew, hd, rfl⟩ | ⟨i, -, hok⟩ | ⟨i, -, hok⟩ | ⟨i, w, -, hw, stage, hm⟩ |
    ⟨i, w, t, ending, -, -, -, ht, -, hf⟩ | ⟨-, rfl⟩ := next_cases h hnext
  · exact h
  · exact consistent_queue h hnew hd
  · exact consistent_cancelTask h hok
  · exact consistent_runTask h hok
  · exact consistent_moved h hw hm
  · exact consistent_finished h ht hf
  · exact consistent_restart h

end Kirara.DependencyRuns
