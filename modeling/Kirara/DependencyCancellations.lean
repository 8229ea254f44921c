import Kirara.DependencyRuns

namespace Kirara.DependencyCancellations

open Kirara.Channels Kirara.Dicts.Dict Kirara.DependencyTasks Kirara.DependencyRuns Kirara.Schedules

variable {s u : Service} {i j d : Text} {t v : DependencyInstallTask} {w : Worker} {e : Event}

/-- How a step may change the status of a task. -/
inductive Follows (e : Event) (i : Text) : TaskStatus → TaskStatus → Prop where
  | same (status : TaskStatus) : Follows e i status status
  | started : e = .runTask i → Follows e i .queued .running
  | ended {status : TaskStatus} : e = .advance i → status.terminal → Follows e i .running status
  | cancelled : e = .cancelTask i → Follows e i .queued .cancelled
  | interrupted {status : TaskStatus} : e = .restart → status.terminal = false → Follows e i status .failed

structure Orderly (s : Service) (e : Event) (u : Service) : Prop where
  old : ∀ i t, s.tasks.get i = some t → ∃ v, u.tasks.get i = some v ∧ v.dependencyId = t.dependencyId ∧
    Follows e i t.status v.status ∧ (t.status.terminal → v = t)
  new : ∀ i v, s.tasks.get i = none → u.tasks.get i = some v → v.status = .queued

theorem orderly_same (h : u.tasks = s.tasks) : Orderly s e u := by
  refine ⟨fun i t ht => ⟨t, h ▸ ht, rfl, .same t.status, fun _ => rfl⟩, fun i v hnone hv => ?_⟩
  rw [h, hnone] at hv
  cases hv

theorem orderly_put (h : u.tasks = s.tasks.set i v) (ht : s.tasks.get i = some t)
    (hd : v.dependencyId = t.dependencyId) (hf : Follows e i t.status v.status)
    (hopen : t.status.terminal = false) : Orderly s e u := by
  constructor
  · intro j x hx
    rw [h, get_set]
    split
    · next hj =>
      subst hj
      cases ht.symm.trans hx
      refine ⟨v, rfl, hd, hf, fun hend => ?_⟩
      cases hopen.symm.trans hend
    · exact ⟨x, hx, rfl, .same x.status, fun _ => rfl⟩
  · intro j x hnone hx
    rw [h, get_set] at hx
    split at hx
    · next hj =>
      subst hj
      cases ht.symm.trans hnone
    · cases hnone.symm.trans hx

theorem orderly_queue {q : DependencyInstallTask} (hnew : q.taskId ∉ s.tasks.keys) (hq : q.status = .queued) :
    Orderly s e (queue s q) := by
  have htasks : (queue s q).tasks = s.tasks.set q.taskId q := rfl
  constructor
  · intro j x hx
    have hj : j ≠ q.taskId := by
      intro hj
      exact hnew (isSome_get_iff.mp (by rw [← hj, hx]; rfl))
    rw [htasks, get_set_of_ne hj]
    exact ⟨x, hx, rfl, .same x.status, fun _ => rfl⟩
  · intro j x hnone hx
    rw [htasks, get_set] at hx
    split at hx
    · cases hx
      exact hq
    · cases hnone.symm.trans hx

theorem orderly_restart (h : Consistent s) : Orderly s .restart (openService s.tasksFile s.registryFile) := by
  constructor
  · intro j x hx
    refine ⟨recover x, by rw [get_restart h, hx]; rfl, recover_taskId.2, ?_, recover_eq_self⟩
    cases hend : x.status.terminal with
    | true =>
      rw [recover_eq_self hend]
      exact .same x.status
    | false =>
      have hfailed : (recover x).status = .failed := by
        unfold recover
        split
        · rfl
        · next hs =>
          cases hx' : x.status with
          | queued => exact absurd (.inl hx') hs
          | running => exact absurd (.inr hx') hs
          | succeeded => rw [hx'] at hend; cases hend
          | failed => rfl
          | cancelled => rw [hx'] at hend; cases hend
      rw [hfailed]
      exact .interrupted rfl hend
  · intro j x hnone hx
    rw [get_restart h, hnone] at hx
    cases hx

theorem orderly_next (h : Consistent s) (hnext : next s e = some u) : Orderly s e u := by
  obtain rfl | ⟨hex, d, retryOf, hnew, hd, rfl⟩ | ⟨i, rfl, hok⟩ | ⟨i, rfl, hok⟩ | ⟨i, w, -, hw, stage, hm⟩ |
    ⟨i, w, t, ending, rfl, hw, -, ht, hrun, hf⟩ | ⟨rfl, rfl⟩ := next_cases h hnext
  · exact orderly_same rfl
  · exact orderly_queue hnew rfl
  · obtain ⟨t, ht, hcase⟩ := cancelTask_ok h hok
    have hkey := h.keyed i t ht
    obtain ⟨hs, rfl⟩ | ⟨hs, rfl⟩ | ⟨-, rfl⟩ := hcase
    · refine orderly_put (v := { t with cancelRequested := true, status := .cancelled, errorCode := some .cancelled })
        (hkey ▸ rfl) ht rfl ?_ (by rw [hs]; rfl)
      rw [hs]
      exact .cancelled rfl
    · exact orderly_put (v := { t with cancelRequested := true }) (hkey ▸ rfl) ht rfl (.same t.status)
        (by rw [hs]; rfl)
    · exact orderly_same rfl
  · obtain ⟨t, p, ht, hs, -, rfl⟩ := runTask_ok h hok
    have hkey := h.keyed i t ht
    refine orderly_put (v := { t with status := .running }) (hkey ▸ rfl) ht rfl ?_ (by rw [hs]; rfl)
    rw [hs]
    exact .started rfl
  · exact orderly_same hm.tasks
  · refine orderly_put hf.tasks ht rfl ?_ (by rw [hrun]; rfl)
    rw [hrun]
    exact .ended rfl (terminal_ending ending)
  · exact orderly_restart h

theorem consistent_exec (h : Consistent s) {labels : List Event} (hu : exec next s labels = some u) : Consistent u :=
  exec_invariant next (fun _ _ _ _ hs ht => consistent_next hs ht) h
    (along_true next s labels) hu

theorem ended_exec (h : Consistent s) {labels : List Event} (hu : exec next s labels = some u)
    (ht : s.tasks.get i = some t) (hend : t.status.terminal) : u.tasks.get i = some t := by
  have hkeep := exec_invariant next
    (I := fun s => Consistent s ∧ s.tasks.get i = some t) (fun s e v _ hs hv => ?_) ⟨h, ht⟩
    (along_true next s labels) hu
  · exact hkeep.2
  · obtain ⟨x, hx, -, -, heq⟩ := (orderly_next hs.1 hv).old i t hs.2
    exact ⟨consistent_next hs.1 hv, heq hend ▸ hx⟩

/-- The last install command is to be started, runs, or has an end not looked at. -/
def beforeLastInstall : Stage → Bool
  | .probing purpose _ | .probeRunning purpose _ | .probeReturned purpose _ _ | .probed purpose _ => purpose ≠ .post
  | .installing due => due ≠ []
  | .installRunning _ => true
  | .installReturned _ (.returned _) => true
  | .installReturned _ _ | .finishing _ => false

/-- A cancellation comes before the last install command of the task has ended. -/
def inTime (s : Service) (i : Text) : Bool :=
  match s.tasks.get i with
  | none => false
  | some t =>
    match t.status with
    | .queued => true
    | .running => (s.workers.get i).any (fun w => beforeLastInstall w.stage)
    | _ => false

/-- The step starts an install command of the task. -/
def StartsInstall (s : Service) (i : Text) (e : Event) : Prop :=
  e = .advance i ∧ ∃ w argv due, s.workers.get i = some w ∧ w.stage = .installing (argv :: due)

def installDue : Stage → Bool
  | .installing (_ :: _) => true
  | _ => false

instance (s : Service) (i : Text) (e : Event) : Decidable (StartsInstall s i e) :=
  decidable_of_iff (e = .advance i ∧ ∃ w ∈ s.workers.get i, installDue w.stage) (by
    refine and_congr_right (fun _ => ⟨?_, ?_⟩)
    · intro ⟨w, hw, hdue⟩
      unfold installDue at hdue
      split at hdue
      · next argv due hs => exact ⟨w, argv, due, hw, hs⟩
      · cases hdue
    · intro ⟨w, argv, due, hw, hs⟩
      exact ⟨w, hw, by rw [hs]; rfl⟩)

def EndsCancelled (s : Service) (i : Text) : Prop :=
  ∃ t, s.tasks.get i = some t ∧ (t.status.terminal → t.status = .cancelled)

def underWay : Stage → Bool
  | .installRunning _ => true
  | .installReturned _ (.returned _) => true
  | _ => false

/-- A cancellation has been seen, or will be when the command that runs ends. -/
def stopping (s : Service) (e : Text × Worker) : Bool :=
  s.cancelled e.1 && (underWay e.2.stage || e.2.stage = .finishing .cancelled)

def Returned : Outcome → Prop
  | .returned _ => True
  | .osError | .raised => False

instance : DecidablePred Returned
  | .returned _ => isTrue trivial
  | .osError | .raised => isFalse id

/-- A running task is cancelled while an install command runs or after the last. -/
def Seen (s : Service) : Event → Prop
  | .cancelTask i => ∀ e ∈ s.workers.entries, e.1 = i → beforeLastInstall e.2.stage → underWay e.2.stage
  | .commandEnded i outcome => ∀ e ∈ s.workers.entries, e.1 = i → s.cancelled i → underWay e.2.stage →
      Returned outcome
  | .restart => ∀ e ∈ s.workers.entries, stopping s e = false
  | _ => True

instance decidableSeen (s : Service) : DecidablePred (Seen s)
  | .cancelTask i =>
    inferInstanceAs (Decidable (∀ e ∈ s.workers.entries, e.1 = i → beforeLastInstall e.2.stage → underWay e.2.stage))
  | .commandEnded i outcome =>
    inferInstanceAs (Decidable (∀ e ∈ s.workers.entries, e.1 = i → s.cancelled i → underWay e.2.stage → Returned outcome))
  | .restart => inferInstanceAs (Decidable (∀ e ∈ s.workers.entries, stopping s e = false))
  | .install .. | .retryTask .. | .runTask _ | .advance _ => isTrue trivial

def Cancelling (s : Service) (i : Text) : Prop :=
  ∃ t, s.tasks.get i = some t ∧ (t.status = .cancelled ∨
    t.status = .running ∧ ∃ w, s.workers.get i = some w ∧ stopping s (i, w))

theorem endsCancelled_of_cancelling (h : Cancelling s i) : EndsCancelled s i := by
  obtain ⟨t, ht, hs⟩ := h
  refine ⟨t, ht, fun hend => ?_⟩
  cases hs with
  | inl hs => exact hs
  | inr hs =>
    rw [hs.1] at hend
    cases hend

theorem not_startsInstall_of_cancelling (hc : Consistent s) (h : Cancelling s i) : ¬ StartsInstall s i e := by
  intro ⟨_, w, argv, due, hw, hstage⟩
  obtain ⟨t, ht, hs | ⟨-, v, hv, hstop⟩⟩ := h
  · obtain ⟨x, hx, hrun⟩ := hc.staffed i w hw
    cases ht.symm.trans hx
    cases hs.symm.trans hrun
  · cases hw.symm.trans hv
    rw [stopping, hstage] at hstop
    simp [underWay] at hstop

theorem inTime_iff : inTime s i ↔ ∃ t, s.tasks.get i = some t ∧ (t.status = .queued ∨
    t.status = .running ∧ ∃ w, s.workers.get i = some w ∧ beforeLastInstall w.stage) := by
  unfold inTime
  split
  · next hnone => simp [hnone]
  · next t ht =>
    split
    · next hs => simp [ht, hs]
    · next hs => cases hw : s.workers.get i <;> simp [ht, hs]
    · next hq hr => simpa [ht] using ⟨hq, fun hs => absurd hs hr⟩

theorem cancelling_cancelTask (hc : Consistent s) (hin : inTime s i) (hseen : Seen s (.cancelTask i))
    (hu : next s (.cancelTask i) = some u) : Cancelling u i := by
  obtain ⟨t, ht, hs | ⟨hs, w, hw, hbefore⟩⟩ := inTime_iff.mp hin
  · cases hu
    rw [cancelTask_queued hc ht hs]
    refine ⟨{ t with cancelRequested := true, status := .cancelled, errorCode := some .cancelled }, ?_, .inl rfl⟩
    change (s.tasks.set t.taskId _).get i = _
    rw [hc.keyed i t ht, get_set_self]
  · cases hu
    rw [cancelTask_running hc ht hs]
    refine ⟨{ t with cancelRequested := true }, ?_, .inr ⟨hs, w, hw, ?_⟩⟩
    · change (s.tasks.set t.taskId _).get i = _
      rw [hc.keyed i t ht, get_set_self]
    · have hset : Service.cancelled { s with cancellationEvents := s.cancellationEvents.set i true } i = true := by
        unfold Service.cancelled
        rw [get_set_self]
        rfl
      have hunder := hseen (i, w) (get_eq_some_iff.mp hw) rfl hbefore
      unfold stopping
      rw [hunder, Bool.true_or, Bool.and_true]
      exact hset

theorem stopping_cases (h : stopping s (i, w)) : s.cancelled i ∧ ((∃ due, w.stage = .installRunning due) ∨
    (∃ due result, w.stage = .installReturned due (.returned result)) ∨ w.stage = .finishing .cancelled) := by
  unfold stopping at h
  obtain ⟨hset, hstage⟩ := Bool.and_eq_true_iff.mp h
  refine ⟨hset, ?_⟩
  cases Bool.or_eq_true_iff.mp hstage with
  | inl hunder =>
    unfold underWay at hunder
    split at hunder
    · next due hs => exact .inl ⟨due, hs⟩
    · next due result hs => exact .inr (.inl ⟨due, result, hs⟩)
    · cases hunder
  | inr hfin => exact .inr (.inr (of_decide_eq_true hfin))

theorem stopping_of (hset : s.cancelled i) (h : underWay w.stage ∨ w.stage = .finishing .cancelled) :
    stopping s (i, w) := by
  unfold stopping
  rw [hset, Bool.true_and, Bool.or_eq_true, decide_eq_true_iff]
  exact h

theorem cancelling_frame (h : Cancelling s i) (htasks : u.tasks.get i = s.tasks.get i)
    (hworkers : u.workers.get i = s.workers.get i) (hevents : u.cancellationEvents.get i = s.cancellationEvents.get i) :
    Cancelling u i := by
  obtain ⟨t, ht, hs⟩ := h
  refine ⟨t, htasks.trans ht, ?_⟩
  cases hs with
  | inl hs => exact .inl hs
  | inr hs =>
    obtain ⟨hrun, w, hw, hstop⟩ := hs
    refine .inr ⟨hrun, w, hworkers.trans hw, ?_⟩
    obtain ⟨hset, -⟩ := stopping_cases hstop
    unfold stopping at hstop ⊢
    have hsame : u.cancelled i = s.cancelled i := by
      unfold Service.cancelled
      rw [hevents]
    rw [hsame]
    exact hstop

variable {stage : Stage}

theorem cancelling_moved (hrun : t.status = .running) (ht : s.tasks.get i = some t)
    (hm : Moved s u i w stage) (hset : s.cancelled i)
    (hstage : underWay stage ∨ stage = .finishing .cancelled) : Cancelling u i := by
  refine ⟨t, hm.tasks ▸ ht, .inr ⟨hrun, { w with stage := stage }, ?_, stopping_of ?_ hstage⟩⟩
  · rw [hm.workers, get_set_self]
  · unfold Service.cancelled at hset ⊢
    rw [hm.events]
    exact hset

theorem cancelling_advance (hc : Consistent s) (h : Cancelling s i) : Cancelling (advance s i) i := by
  obtain ⟨t, ht, hs⟩ := id h
  unfold advance
  cases hw : s.workers.get i with
  | none => exact h
  | some w =>
    dsimp only
    cases hs with
    | inl hs =>
      obtain ⟨x, hx, hrun⟩ := hc.staffed i w hw
      cases ht.symm.trans hx
      cases hs.symm.trans hrun
    | inr hs =>
      obtain ⟨hrun, v, hv, hstop⟩ := hs
      cases hw.symm.trans hv
      obtain ⟨hset, ⟨due, hstage⟩ | ⟨due, result, hstage⟩ | hstage⟩ := stopping_cases hstop
      · have hwait : work s i w = s := by
          unfold work
          rw [hstage]
        rw [hwait]
        exact h
      · have hjudged : work s i w = s.setStage i w (.finishing .cancelled) := by
          unfold work
          rw [hstage]
          simp [judgeInstall, hset]
        rw [hjudged]
        exact cancelling_moved hrun ht moved_setStage hset (.inr rfl)
      · have hfinish : work s i w = finishTask s i .cancelled := by
          unfold work
          rw [hstage]
        rw [hfinish]
        refine ⟨{ t with status := .cancelled, errorCode := some .cancelled }, ?_, .inl rfl⟩
        rw [(finished_finishTask hc ht .cancelled).tasks, get_set_self]
        rfl

theorem cancelling_commandEnded {outcome : Outcome} (h : Cancelling s i) (hseen : Seen s (.commandEnded i outcome)) :
    Cancelling (commandEnded s i outcome) i := by
  obtain heq | ⟨w, hw, hcase⟩ := @commandEnded_cases s i outcome
  · rw [heq]
    exact h
  obtain ⟨t, ht, hs | ⟨hrun, v, hv, hstop⟩⟩ := h
  · obtain ⟨purpose, due, -, heq⟩ | ⟨due, -, heq⟩ := hcase
    · exact ⟨t, heq ▸ ht, .inl hs⟩
    · exact ⟨t, heq ▸ ht, .inl hs⟩
  · cases hw.symm.trans hv
    obtain ⟨hset, hstage⟩ := stopping_cases hstop
    obtain ⟨purpose, due, hprobe, -⟩ | ⟨due, hinstall, heq⟩ := hcase
    · rw [hprobe] at hstage
      obtain ⟨due, hne⟩ | ⟨due, result, hne⟩ | hne := hstage
      · cases hne
      · cases hne
      · cases hne
    · have hunder : underWay w.stage := by
        rw [hinstall]
        rfl
      have hreturned := hseen (i, w) (get_eq_some_iff.mp hw) rfl hset hunder
      obtain ⟨result, rfl⟩ : ∃ result, outcome = .returned result := by
        cases outcome with
        | returned result => exact ⟨result, rfl⟩
        | osError => exact hreturned.elim
        | raised => exact hreturned.elim
      rw [heq]
      exact cancelling_moved hrun ht moved_setStage hset (.inl rfl)

theorem cancelling_restart (hc : Consistent s) (h : Cancelling s i) (hseen : Seen s .restart) :
    Cancelling (openService s.tasksFile s.registryFile) i := by
  obtain ⟨t, ht, hs | ⟨-, w, hw, hstop⟩⟩ := h
  · have hend : t.status.terminal := by
      rw [hs]
      rfl
    refine ⟨t, ?_, .inl hs⟩
    rw [get_restart hc, ht, Option.map_some, recover_eq_self hend]
  · have hnone := hseen (i, w) (get_eq_some_iff.mp hw)
    rw [hstop] at hnone
    cases hnone

theorem cancelling_next (hc : Consistent s) (h : Cancelling s i) (hseen : Seen s e) (hnext : next s e = some u) :
    Cancelling u i := by
  obtain ⟨t, ht, hs⟩ := id h
  have hopen : t.status ≠ .queued := by
    intro hq
    cases hs with
    | inl hs => cases hq.symm.trans hs
    | inr hs => cases hq.symm.trans hs.1
  obtain rfl | ⟨hex, d, retryOf, hnew, -, rfl⟩ | ⟨j, rfl, hok⟩ | ⟨j, rfl, hok⟩ | ⟨j, w, he, hw, stage, hm⟩ |
    ⟨j, w, x, ending, rfl, hw, hfin, hx, -, hf⟩ | ⟨rfl, rfl⟩ := next_cases hc hnext
  · exact h
  · refine cancelling_frame h (get_set_of_ne (fun hi => hnew ?_)) rfl rfl
    exact isSome_get_iff.mp (by rw [show newTaskId hex = i from hi.symm, ht]; rfl)
  · obtain ⟨x, hx, hcase⟩ := cancelTask_ok hc hok
    have hkey := hc.keyed j x hx
    by_cases hj : i = j
    · subst hj
      cases ht.symm.trans hx
      obtain ⟨hq, -⟩ | ⟨hrun, rfl⟩ | ⟨-, rfl⟩ := hcase
      · exact absurd hq hopen
      · cases hs with
        | inl hs => cases hrun.symm.trans hs
        | inr hs =>
          obtain ⟨-, w, hw, hstop⟩ := hs
          refine ⟨{ t with cancelRequested := true }, ?_, .inr ⟨hrun, w, hw, ?_⟩⟩
          · change (s.tasks.set t.taskId _).get i = _
            rw [hkey, get_set_self]
          · refine stopping_of ?_ ?_
            · change ((s.cancellationEvents.set i true).get i).getD false = true
              rw [get_set_self]
              rfl
            · unfold stopping at hstop
              obtain ⟨-, hstage⟩ := Bool.and_eq_true_iff.mp hstop
              simpa using hstage
      · exact h
    · obtain ⟨-, rfl⟩ | ⟨-, rfl⟩ | ⟨-, rfl⟩ := hcase
      · exact cancelling_frame h (get_set_of_ne (hkey ▸ hj)) rfl rfl
      · exact cancelling_frame h (get_set_of_ne (hkey ▸ hj)) rfl (get_set_of_ne hj)
      · exact h
  · obtain ⟨x, p, hx, hq, -, rfl⟩ := runTask_ok hc hok
    have hkey := hc.keyed j x hx
    by_cases hj : i = j
    · subst hj
      cases ht.symm.trans hx
      exact absurd hq hopen
    · exact cancelling_frame h (get_set_of_ne (hkey ▸ hj)) (get_set_of_ne hj) (get_set_of_ne hj)
  · by_cases hj : i = j
    · subst hj
      obtain rfl | ⟨outcome, rfl⟩ := he
      · cases hnext
        exact cancelling_advance hc h
      · cases hnext
        exact cancelling_commandEnded h hseen
    · refine cancelling_frame h (by rw [hm.tasks]) ?_ (by rw [hm.events])
      rw [hm.workers, get_set_of_ne hj]
  · by_cases hj : i = j
    · subst hj
      cases hnext
      exact cancelling_advance hc h
    · refine cancelling_frame h ?_ ?_ ?_
      · rw [hf.tasks, get_set_of_ne hj]
      · rw [hf.workers, get_pop_of_ne hj]
      · rw [hf.events, get_pop_of_ne hj]
  · exact cancelling_restart hc h hseen

def unreadied (s : Service) : Event → Option Text
  | .advance i =>
    match s.workers.get i with
    | none => none
    | some w =>
      match w.stage with
      | .probed (.prerequisite prerequisiteId _) probe => if probe.ready then none else some prerequisiteId
      | .probed .post probe => if probe.ready then none else some w.definition.dependencyId
      | .finishing .succeeded => none
      | .finishing _ => some w.definition.dependencyId
      | _ => none
  | _ => none

def foundReady (s : Service) : Event → Option Text
  | .advance i =>
    match s.workers.get i with
    | none => none
    | some w =>
      match w.stage with
      | .probed .current probe => if probe.ready then some w.definition.dependencyId else none
      | _ => none
  | _ => none

structure OnRecord (s : Service) (e : Event) : Prop where
  found : ∀ d ∈ foundReady s e, (s.entry d).ready
  kept : ∀ d ∈ unreadied s e, ∀ x ∈ s.workers.entries, x.2.stage = .finishing .succeeded → x.2.definition.dependencyId ≠ d

instance (s : Service) (e : Event) : Decidable (OnRecord s e) :=
  decidable_of_iff ((∀ d ∈ foundReady s e, (s.entry d).ready) ∧ ∀ d ∈ unreadied s e, ∀ x ∈ s.workers.entries,
    x.2.stage = .finishing .succeeded → x.2.definition.dependencyId ≠ d)
    ⟨fun h => ⟨h.1, h.2⟩, fun h => ⟨h.found, h.kept⟩⟩

/-- A task about to succeed is for a dependency on record as ready. -/
def Ready (s : Service) : Prop :=
  ∀ i w, s.workers.get i = some w → w.stage = .finishing .succeeded → (s.entry w.definition.dependencyId).ready

theorem ready_setStage {b : Service} (hworkers : b.workers = s.workers)
    (hold : ∀ j v, s.workers.get j = some v → v.stage = .finishing .succeeded → (b.entry v.definition.dependencyId).ready)
    (hnew : stage = .finishing .succeeded → (b.entry w.definition.dependencyId).ready) :
    Ready (b.setStage i w stage) := by
  intro j v hv hstage
  change (b.workers.set i _).get j = some v at hv
  change (b.entry v.definition.dependencyId).ready
  rw [get_set] at hv
  split at hv
  · cases hv
    exact hnew hstage
  · exact hold j v (hworkers ▸ hv) hstage

theorem ready_record {probe : DependencyProbe} (h : Ready s)
    (hkept : probe.ready = false → ∀ x ∈ s.workers.entries, x.2.stage = .finishing .succeeded →
      x.2.definition.dependencyId ≠ d)
    (hnew : stage = .finishing .succeeded → w.definition.dependencyId = d ∧ probe.ready) :
    Ready ((s.record d probe).setStage i w stage) := by
  refine ready_setStage (s := s) rfl (fun j v hv hstage => ?_) (fun hstage => ?_)
  · rw [entry_record]
    split
    · next hd =>
      cases hp : probe.ready with
      | true => exact hp
      | false => exact absurd hd (hkept hp (j, v) (get_eq_some_iff.mp hv) hstage)
    · exact h j v hv hstage
  · obtain ⟨hd, hp⟩ := hnew hstage
    rw [entry_record, if_pos hd]
    exact hp

theorem nextPrerequisite_ne (p : DependencyDefinition) (rest : List Text) :
    nextPrerequisite p rest ≠ .finishing .succeeded := by
  cases rest with
  | nil => exact fun h => (nomatch h)
  | cons q rest =>
    intro h
    dsimp only [nextPrerequisite] at h
    split at h
    · cases h
    · cases h

theorem judgeProbe_ne (b : Bool) (purpose : Purpose) (due : List Argv) (outcome : Outcome) :
    judgeProbe b purpose due outcome ≠ .finishing .succeeded := by
  unfold judgeProbe
  grind

theorem judgeInstall_ne (b : Bool) (due : List Argv) (outcome : Outcome) :
    judgeInstall b due outcome ≠ .finishing .succeeded := by
  unfold judgeInstall
  grind

theorem ready_work (hc : Consistent s) (h : Ready s) (hok : OnRecord s (.advance i)) (hw : s.workers.get i = some w) :
    Ready (work s i w) := by
  have hstay : ∀ {stage : Stage}, stage ≠ .finishing .succeeded → Ready (s.setStage i w stage) := fun hne =>
    ready_setStage (s := s) rfl h (fun hs => absurd hs hne)
  obtain ⟨hfound, hkept⟩ := hok
  simp only [foundReady, unreadied, hw] at hfound hkept
  unfold work
  split
  · exact hstay nofun
  · exact hstay nofun
  · exact hstay (judgeProbe_ne _ _ _ _)
  · next probe hs =>
    rw [hs] at hfound
    refine ready_setStage (s := s) rfl h (fun hstage => ?_)
    cases hp : probe.ready with
    | true => exact hfound _ (by simp [hp])
    | false =>
      rw [hp] at hstage
      exact absurd hstage (nextPrerequisite_ne _ _)
  · next p rest probe hs =>
    rw [hs] at hkept
    refine ready_record h (fun hp => hkept p (by simp [hp])) (fun hstage => ?_)
    split at hstage
    · exact absurd hstage (nextPrerequisite_ne _ _)
    · cases hstage
  · next probe hs =>
    rw [hs] at hkept
    refine ready_record h (fun hp => hkept _ (by simp [hp])) (fun hstage => ?_)
    split at hstage
    · next hp => exact ⟨rfl, hp⟩
    · cases hstage
  · exact hstay nofun
  · exact hstay nofun
  · exact hstay (judgeInstall_ne _ _ _)
  · next ending hs =>
    rw [hs] at hkept
    obtain ⟨t, ht, hrun⟩ := hc.staffed i w hw
    have hf := finished_finishTask hc ht ending
    intro j v hv hstage
    rw [hf.workers, get_pop] at hv
    split at hv
    · cases hv
    rw [hf.registry]
    · exact h j v hv hstage
    · intro hd
      obtain ⟨x, hx, hwd⟩ := hc.working i t ht hrun
      cases hw.symm.trans hx
      have hother := fun hmem => hkept w.definition.dependencyId hmem (j, v) (get_eq_some_iff.mp hv) hstage
        (hd.trans hwd.symm)
      cases ending with
      | succeeded => rfl
      | failed errorCode => exact (hother rfl).elim
      | cancelled => exact (hother rfl).elim
  · exact h
  · exact h

theorem ready_same (h : Ready s) (hworkers : u.workers = s.workers)
    (hready : ∀ d, (u.entry d).ready = (s.entry d).ready) : Ready u := by
  intro j v hv hstage
  rw [hready]
  exact h j v (hworkers ▸ hv) hstage

theorem ready_next (hc : Consistent s) (h : Ready s) (hok : OnRecord s e) (hnext : next s e = some u) : Ready u := by
  obtain rfl | ⟨hex, d, retryOf, hnew, -, rfl⟩ | ⟨j, rfl, hcancel⟩ | ⟨j, rfl, hrun⟩ | ⟨j, w, he, hw, stage, hm⟩ |
    ⟨j, w, x, ending, rfl, hw, hfin, hx, -, hf⟩ | ⟨rfl, rfl⟩ := next_cases hc hnext
  · exact h
  · refine ready_same h rfl (fun c => ?_)
    change (((s.registry.set d _).get c).getD unknownState).ready = _
    rw [get_set]
    split
    · next hd =>
      subst hd
      rfl
    · rfl
  · obtain ⟨t, -, ⟨-, rfl⟩ | ⟨-, rfl⟩ | ⟨-, rfl⟩⟩ := cancelTask_ok hc hcancel
    · exact ready_same h rfl (fun _ => rfl)
    · exact ready_same h rfl (fun _ => rfl)
    · exact h
  · obtain ⟨t, p, -, -, -, rfl⟩ := runTask_ok hc hrun
    intro i v hv hstage
    change (s.workers.set j _).get i = some v at hv
    rw [get_set] at hv
    split at hv
    · cases hv
      cases hstage
    · exact h i v hv hstage
  · obtain rfl | ⟨outcome, rfl⟩ := he
    · cases hnext
      unfold advance
      rw [hw]
      exact ready_work hc h hok hw
    · cases hnext
      obtain heq | ⟨v, hv, ⟨purpose, due, -, heq⟩ | ⟨due, -, heq⟩⟩ := @commandEnded_cases s j outcome
      · rw [heq]
        exact h
      · rw [heq]
        exact ready_setStage (s := s) rfl h nofun
      · rw [heq]
        exact ready_setStage (s := s) rfl h nofun
  · cases hnext
    unfold advance
    rw [hw]
    exact ready_work hc h hok hw
  · exact fun i v hv => (nomatch hv)

/-- Where a step ends a task as succeeded, its dependency is on record as ready. -/
def SuccessRecorded (s : Service) (e : Event) : Prop :=
  ∀ u, next s e = some u → ∀ i t v, s.tasks.get i = some t → t.status ≠ .succeeded → u.tasks.get i = some v →
    v.status = .succeeded → (u.entry v.dependencyId).ready

theorem successRecorded (hc : Consistent s) (h : Ready s) : SuccessRecorded s e := by
  intro u hnext i t v ht hne hv hend
  obtain ⟨x, hx, -, hfollows, -⟩ := (orderly_next hc hnext).old i t ht
  cases hv.symm.trans hx
  rw [hend] at hfollows
  generalize hs : t.status = status at hfollows
  cases hfollows with
  | same => exact absurd hs hne
  | ended he _ =>
    subst he
    cases hnext
    obtain ⟨w, hw, hd⟩ := hc.working i t ht hs
    unfold advance at hv ⊢
    rw [hw] at hv ⊢
    dsimp only at hv ⊢
    obtain ⟨ending, hstage, heq⟩ | heq | ⟨stage, hm⟩ := work_cases (s := s) (i := i) (w := w)
    · have hf := finished_finishTask hc ht ending
      rw [heq] at hv ⊢
      rw [hf.tasks, get_set_self] at hv
      cases hv
      have hsucceeded : ending = .succeeded := by
        cases ending with
        | succeeded => rfl
        | failed errorCode => cases hend
        | cancelled => cases hend
      subst hsucceeded
      rw [hf.registry _ (fun _ => rfl)]
      exact hd ▸ h i w hw hstage
    · rw [heq, ht] at hv
      cases hv
      exact absurd hend hne
    · rw [hm.tasks, ht] at hv
      cases hv
      exact absurd hend hne

/-- The condition for cancellations honoured and successes on record. -/
structure Careful (s : Service) (e : Event) : Prop where
  seen : Seen s e
  onRecord : OnRecord s e

instance (s : Service) (e : Event) : Decidable (Careful s e) :=
  decidable_of_iff (Seen s e ∧ OnRecord s e) ⟨fun h => ⟨h.1, h.2⟩, fun h => ⟨h.seen, h.onRecord⟩⟩

/-- Along a run each step is orderly, and a task that has ended stays as it is. -/
def Lifecycle (labels : List Event) : Prop :=
  Along next (fun s e => ∀ u, next s e = some u → Orderly s e u) fresh labels ∧
  ∀ before after s u i t, labels = before ++ after → exec next fresh before = some s → exec next s after = some u →
    s.tasks.get i = some t → t.status.terminal → u.tasks.get i = some t

/-- After a cancellation in time, the task ends as cancelled and starts no install command. -/
def CancellationsHonoured (labels : List Event) : Prop :=
  ∀ before i after s, labels = before ++ .cancelTask i :: after → exec next fresh before = some s → inTime s i →
    ∀ u, next s (.cancelTask i) = some u → EndsCancelled u i ∧
      Along next (fun v e => ¬ StartsInstall v i e ∧ ∀ x, next v e = some x → EndsCancelled x i) u after

theorem lifecycle_run (labels : List Event) : Lifecycle labels := by
  constructor
  · exact along_of_invariant next (I := Consistent) (fun s e hs _ u hu => orderly_next hs hu)
      (fun s e u _ hs hu => consistent_next hs hu) consistent_fresh (along_true next fresh labels)
  · intro before after s u i t _ hs hu ht hend
    exact ended_exec (consistent_exec consistent_fresh hs) hu ht hend

/-- The life of every task is orderly. Careful steps honour cancellations and record successes. -/
theorem tasks_settle (labels : List Event) : Lifecycle labels ∧
    (Along next Careful fresh labels → CancellationsHonoured labels ∧ Along next SuccessRecorded fresh labels) := by
  refine ⟨lifecycle_run labels, fun hcareful => ⟨?_, ?_⟩⟩
  · intro before i after s hsplit hs hin u hu
    have hcs := consistent_exec consistent_fresh hs
    have hrest : Along next Careful s (.cancelTask i :: after) := along_append next (hsplit ▸ hcareful) hs
    have hcancelling := cancelling_cancelTask hcs hin hrest.1.seen hu
    refine ⟨endsCancelled_of_cancelling hcancelling, ?_⟩
    refine along_of_invariant next (I := fun v => Consistent v ∧ Cancelling v i) (fun v e hv he => ?_)
      (fun v e x he hv hx => ?_) ⟨consistent_next hcs hu, hcancelling⟩ (hrest.2 u hu)
    · exact ⟨not_startsInstall_of_cancelling hv.1 hv.2,
        fun x hx => endsCancelled_of_cancelling (cancelling_next hv.1 hv.2 he.seen hx)⟩
    · exact ⟨consistent_next hv.1 hx, cancelling_next hv.1 hv.2 he.seen hx⟩
  · refine along_of_invariant next (I := fun s => Consistent s ∧ Ready s) (fun s e hs _ => successRecorded hs.1 hs.2)
      (fun s e u he hs hu => ⟨consistent_next hs.1 hu, ready_next hs.1 hs.2 he.onRecord hu⟩)
      ⟨consistent_fresh, fun i w hw => (nomatch hw)⟩ hcareful

def hex : Text := "0".toList

def found (ready : Bool) : Outcome := .returned ⟨some (if ready then 0 else 127), false, false⟩

/-- RTK has no prerequisites. Its installer is started all the same. -/
def cancelledProbe : List Event :=
  [.install "rtk-cli".toList true hex none, .runTask (newTaskId hex), .advance (newTaskId hex),
    .cancelTask (newTaskId hex), .commandEnded (newTaskId hex) (.returned ⟨none, false, true⟩),
    .advance (newTaskId hex), .advance (newTaskId hex), .advance (newTaskId hex)]

def alreadyReady : List Event :=
  [.install "graphify-cli".toList true hex none, .runTask (newTaskId hex), .advance (newTaskId hex),
    .commandEnded (newTaskId hex) (found true), .advance (newTaskId hex), .advance (newTaskId hex),
    .advance (newTaskId hex), .advance (newTaskId hex)]

theorem installs_after_cancellation_and_unrecorded :
    ¬ CancellationsHonoured cancelledProbe ∧ ¬ Along next SuccessRecorded fresh alreadyReady := by
  constructor
  · intro h
    have hrun := (h (cancelledProbe.take 3) (newTaskId hex) (cancelledProbe.drop 4)
      ((exec next fresh (cancelledProbe.take 3)).get (by decide +kernel)) rfl (Option.some_get _).symm
      (by decide +kernel) _ rfl).2
    exact absurd (along_mono next (fun _ _ => And.left) hrun) (by decide +kernel)
  · intro h
    let before := (exec next fresh (alreadyReady.take 7)).get (by decide +kernel)
    have hlast : SuccessRecorded before (.advance (newTaskId hex)) :=
      (along_append next (show Along next SuccessRecorded fresh
        (alreadyReady.take 7 ++ [.advance (newTaskId hex)]) from h) (Option.some_get _).symm).1
    have hready := hlast _ rfl (newTaskId hex) ((before.tasks.get (newTaskId hex)).get (by decide +kernel))
      (((advance before (newTaskId hex)).tasks.get (newTaskId hex)).get (by decide +kernel))
      (Option.some_get _).symm (by decide +kernel) (Option.some_get _).symm (by decide +kernel)
    exact absurd hready (by decide +kernel)

def stoppedAndRetried : List Event :=
  let first := newTaskId hex
  let second := newTaskId "1".toList
  [.install "rtk-cli".toList true hex none, .runTask first, .advance first, .commandEnded first (found false),
    .advance first, .advance first, .advance first, .cancelTask first,
    .commandEnded first (.returned ⟨none, false, true⟩), .advance first, .advance first,
    .retryTask first true "1".toList, .runTask second, .advance second, .commandEnded second (found false),
    .advance second, .advance second, .advance second, .commandEnded second (found true), .advance second,
    .advance second, .advance second, .commandEnded second (found true), .advance second, .advance second,
    .commandEnded second (found true), .advance second, .advance second, .advance second, .advance second]

theorem stopped_and_retried :
    (exec next fresh stoppedAndRetried).map (fun s => s.tasks.values.map (fun t => t.status)) =
      some [.cancelled, .succeeded] ∧
    CancellationsHonoured stoppedAndRetried ∧ Along next SuccessRecorded fresh stoppedAndRetried :=
  ⟨by decide +kernel, (tasks_settle stoppedAndRetried).2 (by decide +kernel)⟩

end Kirara.DependencyCancellations
