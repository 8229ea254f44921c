import Kirara.JournalBacklog
import Kirara.Schedules

namespace Kirara.FileHistories

open Kirara.CrashHoare Kirara.FileTransactions Kirara.FileSteps Kirara.FileEntries
open Kirara.FilePreparation Kirara.FileCommits Kirara.FileRecovery Kirara.JournalBacklog
open Kirara.Schedules

set_option linter.unusedSectionVars false

variable {τ κ ν : Type} [DecidableEq τ] [LinearOrder κ]

/-- `track` lists a target's last committed content, and what later commits have tried to write. -/
structure Directory (τ κ ν : Type) where
  world : World τ κ ν
  used : List κ
  track : τ → Option (List (Option (Node ν)))

inductive Event (τ κ ν : Type) where
  | commit (k : κ) (txn : FileTransaction τ ν) (afterPublish : Bool)
      (faults : List (Fault (Option ν) Failure))
  | recover (faults : List (Fault (Option ν) Failure))

def returns (o : Outcome Failure Unit) : Bool :=
  match o with
  | .returned _ => true
  | _ => false

def recorded (returned : Bool) (ms : List (FileMutation τ ν))
    (track : τ → Option (List (Option (Node ν)))) (t : τ) : Option (List (Option (Node ν))) :=
  match ms.find? (fun m => m.target = t) with
  | none => track t
  | some m => if returned then some [m.outcome] else (track t).map (m.outcome :: ·)

variable (inside : τ → Bool)

def next (d : Directory τ κ ν) : Event τ κ ν → Option (Directory τ κ ν)
  | .commit k txn afterPublish faults =>
    if k ∈ d.used then none
    else
      let (o, w, _) := commit inside txn k afterPublish { d.world with rolledBack := [] } faults
      some ⟨w, k :: d.used, recorded (returns o) txn.mutations d.track⟩
  | .recover faults => some { d with world := (recoverDirectory inside d.world faults).2.1 }

def start (files : τ → Option (Node ν)) : Directory τ κ ν := ⟨ordinary files, [], fun _ => none⟩

/-- No target holds what is older than the last returned commit to it. -/
def NotOlder (d : Directory τ κ ν) : Prop :=
  ∀ t l, d.track t = some l → d.world.files (.target t) ∈ l

def Clear (d : Directory τ κ ν) : Event τ κ ν → Prop
  | .commit _ txn _ _ => ∀ p ∈ d.world.journals, ∀ e ∈ p.2.entries,
      e.target ∈ txn.mutations.map FileMutation.target → pending d.world p.2.state e = none
  | .recover _ => True

instance [DecidableEq ν] (d : Directory τ κ ν) : DecidablePred (Clear d)
  | .commit _ txn _ _ => inferInstanceAs (Decidable (∀ p ∈ d.world.journals, ∀ e ∈ p.2.entries,
      e.target ∈ txn.mutations.map FileMutation.target → pending d.world p.2.state e = none))
  | .recover _ => inferInstanceAs (Decidable True)

variable {inside} {used : List κ} {track track' : τ → Option (List (Option (Node ν)))}
  {w₀ w : World τ κ ν} {ms : List (FileMutation τ ν)} {k : κ} {es : List (Entry τ κ)}
  {e : Entry τ κ} {s : JournalState} {t : τ}

theorem recorded_of_not_mem {returned : Bool} (ht : t ∉ ms.map FileMutation.target) :
    recorded returned ms track t = track t := by
  have hfind : ms.find? (fun m => m.target = t) = none := by
    rw [List.find?_eq_none]
    intro m hm hmt
    apply ht
    rw [← of_decide_eq_true hmt]
    exact List.mem_map_of_mem hm
  rw [recorded, hfind]

variable (w₀) in
theorem recorded_of_mem {returned : Bool} (ht : t ∈ ms.map FileMutation.target) : recorded returned ms track t =
      if returned then some [wanted w₀ ms t] else (track t).map (wanted w₀ ms t :: ·) := by
  have hfind : ∃ m, ms.find? (fun m => m.target = t) = some m := by
    rw [← Option.isSome_iff_exists, List.find?_isSome]
    obtain ⟨m, hm, hmt⟩ := List.mem_map.mp ht
    exact ⟨m, hm, decide_eq_true hmt⟩
  obtain ⟨m, hm⟩ := hfind
  rw [recorded, wanted, hm]

theorem kept_of_apart {targets : List τ} (h : Kept used track w₀) (hk : k ∉ used)
    (hfiles : ∀ n : FileName τ κ, n.owner ≠ some k → (∀ t ∈ targets, n ≠ .target t) →
      w.files n = w₀.files n)
    (hj : w.journals = w₀.journals ∨ w.journals = (k, ⟨s, es⟩) :: w₀.journals)
    (hes : ∀ e ∈ es, e.target ∈ targets ∧ ∀ n ∈ artifacts e, n.owner = some k)
    (hout : ∀ t, t ∉ targets → track' t = track t)
    (hin : ∀ t ∈ targets, ∀ l, track' t = some l → w.files (.target t) ∈ l ∧
      (∀ e ∈ es, e.target = t → ∀ x ∈ pending w s e, x ∈ l) ∧
      ∀ p ∈ w₀.journals, ∀ e ∈ p.2.entries, e.target = t →
        ∀ x ∈ pending w₀ p.2.state e, x ∈ l) :
    Kept (k :: used) track' w := by
  have hmem : ∀ p ∈ w.journals, p = (k, ⟨s, es⟩) ∨ p ∈ w₀.journals := by
    intro p hp
    cases hj with
    | inl hj => exact Or.inr (hj ▸ hp)
    | inr hj =>
      rw [hj] at hp
      exact List.mem_cons.mp hp
  have hsame : ∀ t, t ∉ targets → w.files (.target t) = w₀.files (.target t) := by
    intro t ht
    apply hfiles _ (by simp [FileName.owner])
    rintro t' ht' ⟨⟩
    exact ht ht'
  have hold : ∀ p ∈ w₀.journals, ∀ e ∈ p.2.entries, ∀ x ∈ pending w p.2.state e,
      x ∈ pending w₀ p.2.state e := by
    intro p hp e he x hx
    apply pending_anti _ hx
    intro n hn
    have ho := h.owned p hp e he n hn
    apply Or.inl
    apply hfiles n
    · rw [ho, Ne, Option.some.injEq]
      rintro rfl
      exact hk (h.journals p hp)
    · exact fun t _ => artifact_ne_target ho
  constructor
  · intro n k' hn hk'
    rw [List.mem_cons, not_or] at hk'
    rw [hfiles n (by rw [hn]; simpa using hk'.1) (fun t _ => artifact_ne_target hn)]
    exact h.unused n k' hn hk'.2
  · intro p hp
    cases hmem p hp with
    | inl hp =>
      rw [hp]
      exact List.mem_cons_self
    | inr hp => exact List.mem_cons_of_mem _ (h.journals p hp)
  · intro p hp
    cases hmem p hp with
    | inl hp =>
      rw [hp]
      exact fun e he => (hes e he).2
    | inr hp => exact h.owned p hp
  · intro t l hl
    by_cases ht : t ∈ targets
    · exact (hin t ht l hl).1
    · rw [hsame t ht]
      exact h.found t l (hout t ht ▸ hl)
  · intro t l hl p hp e he het x hx
    cases hmem p hp with
    | inl hp =>
      rw [hp] at he hx
      have ht : t ∈ targets := het ▸ (hes e he).1
      exact (hin t ht l hl).2.1 e he het x hx
    | inr hp =>
      have hx' := hold p hp e he x hx
      by_cases ht : t ∈ targets
      · exact (hin t ht l hl).2.2 p hp e he het x hx'
      · exact h.backlog t l (hout t ht ▸ hl) p hp e he het x hx'

theorem pending_of_ready (h : Ready inside w₀ ms k es w) (he : e ∈ es) :
    ∀ x ∈ pending w .prepared e, x = wanted w₀ ms e.target := by
  intro x hx
  have hp := h.planned e he
  unfold pending at hx
  dsimp only at hx
  split at hx
  · next hd =>
    cases hx
    exact (hp.deletes hd).2.symm
  · obtain ⟨m, hm, rfl⟩ := Option.map_eq_some_iff.mp hx
    obtain ⟨hst, hex⟩ := Option.mem_filter_iff.mp hm
    cases h.armed e he m hst with
    | inl ha => exact ha
    | inr ha => simp [fileExists, ha.1] at hex

theorem pending_of_retreating (h : Retreating inside w₀ ms k es w) (he : e ∈ es) :
    ∀ x ∈ pending w .rollingBack e, x = w₀.files (.target e.target) := by
  intro x hx
  have hp := h.planned e he
  unfold pending at hx
  dsimp only at hx
  split at hx
  · next hh =>
    split at hx
    · next hex =>
      cases hx
      cases h.undoable e he hh with
      | inl hu => exact hu
      | inr hu => simp [fileExists, hu.1] at hex
    · cases hx
  · next hh =>
    cases hx
    exact (target_regular hp (by simpa using hh)).symm

variable (h : Underway inside w₀ ms k es w)

include h

theorem underway_artifacts :
    ∀ e ∈ es, e.target ∈ ms.map FileMutation.target ∧ ∀ n ∈ artifacts e, n.owner = some k := by
  intro e he
  refine ⟨?_, planned_owner (h.planned e he)⟩
  rw [← h.targets]
  exact List.mem_map_of_mem he

theorem underway_files : ∀ n : FileName τ κ,
    n.owner ≠ some k → (∀ t ∈ ms.map FileMutation.target, n ≠ .target t) →
      w.files n = w₀.files n :=
  fun n hn hne => h.apart n hn (fun e he => hne _ (underway_artifacts h e he).1)

theorem exists_entry (ht : t ∈ ms.map FileMutation.target) :
    ∃ e ∈ es, e.target = t := by
  rw [← h.targets] at ht
  exact List.mem_map.mp ht

omit h

theorem kept_of_finished (h : Kept used track w₀) (hk : k ∉ used)
    (hclear : ∀ p ∈ w₀.journals, ∀ e ∈ p.2.entries,
      e.target ∈ ms.map FileMutation.target → pending w₀ p.2.state e = none)
    (hf : Finished inside w₀ ms k es w) : Kept (k :: used) (recorded true ms track) w := by
  apply kept_of_apart h hk (underway_files hf.toUnderway) hf.journals
    (underway_artifacts hf.toUnderway) (fun t ht => recorded_of_not_mem ht)
  intro t ht l hl
  rw [recorded_of_mem w₀ ht, if_pos rfl] at hl
  cases hl
  obtain ⟨d, hd, rfl⟩ := exists_entry hf.toUnderway ht
  refine ⟨?_, fun e _ _ x hx => (by cases hx), ?_⟩
  · rw [hf.allNew d hd]
    exact List.mem_cons_self
  · intro p hp e he het x hx
    rw [hclear p hp e he (het ▸ ht)] at hx
    cases hx

theorem recorded_failed (w₀ : World τ κ ν) (ht : t ∈ ms.map FileMutation.target)
    {l : List (Option (Node ν))} (hl : recorded false ms track t = some l) :
    ∃ l₀, track t = some l₀ ∧ l = wanted w₀ ms t :: l₀ := by
  rw [recorded_of_mem w₀ ht, if_neg (by decide)] at hl
  obtain ⟨l₀, hl₀, rfl⟩ := Option.map_eq_some_iff.mp hl
  exact ⟨l₀, hl₀, rfl⟩

theorem kept_of_underway (h : Kept used track w₀) (hk : k ∉ used) (hu : Underway inside w₀ ms k es w)
    (hj : w.journals = w₀.journals ∨ w.journals = (k, ⟨s, es⟩) :: w₀.journals)
    (hb : ∀ e ∈ es, Between w₀ ms w e) (hp : ∀ e ∈ es, ∀ x ∈ pending w s e,
      x = w₀.files (.target e.target) ∨ x = wanted w₀ ms e.target) :
    Kept (k :: used) (recorded false ms track) w := by
  apply kept_of_apart h hk (underway_files hu) hj (underway_artifacts hu)
    (fun t ht => recorded_of_not_mem ht)
  intro t ht l hl
  obtain ⟨l₀, hl₀, rfl⟩ := recorded_failed w₀ ht hl
  have hmem : ∀ x, x = w₀.files (.target t) ∨ x = wanted w₀ ms t → x ∈ wanted w₀ ms t :: l₀ := by
    intro x hx
    cases hx with
    | inl hx =>
      rw [hx]
      exact List.mem_cons_of_mem _ (h.found t l₀ hl₀)
    | inr hx =>
      rw [hx]
      exact List.mem_cons_self
  obtain ⟨d, hd, rfl⟩ := exists_entry hu ht
  refine ⟨hmem _ (hb d hd), fun e he het x hx => ?_, fun p hp e he het x hx => ?_⟩
  · rw [← het] at hmem ⊢
    exact hmem x (hp e he x hx)
  · exact List.mem_cons_of_mem _ (h.backlog _ l₀ hl₀ p hp e he het x hx)

theorem kept_of_halfway (h : Kept used track w₀) (hk : k ∉ used)
    (hw : Halfway inside w₀ ms k w) : Kept (k :: used) (recorded false ms track) w := by
  obtain (hw | ⟨es, hw⟩) | ⟨⟨es, hw | hw⟩, -⟩ := hw
  · apply kept_of_apart (s := .committed) h hk (fun n hn _ => hw.files n hn)
      (Or.inl hw.journals) (fun e (he : e ∈ []) => by cases he) (fun t ht => recorded_of_not_mem ht)
    intro t ht l hl
    obtain ⟨l₀, hl₀, rfl⟩ := recorded_failed w₀ ht hl
    refine ⟨?_, fun e he => (by cases he), fun p hp e he het x hx => ?_⟩
    · rw [hw.files _ (by simp [FileName.owner])]
      exact List.mem_cons_of_mem _ (h.found t l₀ hl₀)
    · exact List.mem_cons_of_mem _ (h.backlog t l₀ hl₀ p hp e he het x hx)
  · exact kept_of_underway h hk hw.toUnderway (Or.inr hw.journals) hw.between
      (fun e he x hx => Or.inl (pending_of_retreating hw he x hx))
  · exact kept_of_underway h hk hw.toUnderway (Or.inr hw.journals) hw.between
      (fun e he x hx => Or.inr (pending_of_ready hw he x hx))
  · exact kept_of_underway h hk hw.toUnderway hw.journals (fun e he => Or.inr (hw.allNew e he))
      (fun e he x hx => (by cases hx))

theorem fresh_of_kept (h : Kept used track w₀) (hk : k ∉ used) : Fresh k { w₀ with rolledBack := [] } where
  artifacts n hn := h.unused n k hn hk
  journal p hp hpk := hk (hpk ▸ h.journals p hp)
  rollback := List.not_mem_nil

theorem kept_next {d d' : Directory τ κ ν} {a : Event τ κ ν} (hok : Clear d a)
    (h : Kept d.used d.track d.world) (hd : next inside d a = some d') : Kept d'.used d'.track d'.world := by
  cases a with
  | recover faults =>
    cases hd
    exact kept_recoverDirectory h faults
  | commit k txn afterPublish faults =>
    simp only [next] at hd
    split at hd
    · cases hd
    next hk =>
    cases hd
    have h₀ : Kept d.used d.track { d.world with rolledBack := [] } :=
      ⟨h.unused, h.journals, h.owned, h.found, h.backlog⟩
    have hcommit := (commit_triple inside txn afterPublish { d.world with rolledBack := [] } faults
      ⟨rfl, fresh_of_kept h hk⟩ False.elim).1
    dsimp only
    cases ho : (commit inside txn k afterPublish { d.world with rolledBack := [] } faults).1 with
    | returned a =>
      rw [ho] at hcommit
      obtain ⟨es, hes⟩ := hcommit
      exact kept_of_finished h₀ hk hok hes
    | raised f =>
      rw [ho] at hcommit
      exact kept_of_halfway h₀ hk hcommit
    | crashed =>
      rw [ho] at hcommit
      exact kept_of_halfway h₀ hk hcommit

theorem kept_start (files : τ → Option (Node ν)) :
    Kept (start files : Directory τ κ ν).used (start files : Directory τ κ ν).track
      (start files : Directory τ κ ν).world where
  unused n k hn _ := (fresh_ordinary files k).artifacts n hn
  journals p hp := by cases hp
  owned p hp := by cases hp
  found t l hl := by cases hl
  backlog t l hl := by cases hl

/-- Where every commit starts clear, no recovery brings back what is older than the last that
returned. -/
theorem never_older (files : τ → Option (Node ν)) {as : List (Event τ κ ν)}
    {d : Directory τ κ ν} (hok : Along (next inside) Clear (start files) as)
    (hd : exec (next inside) (start files) as = some d) : NotOlder d :=
  (exec_invariant (next inside) (I := fun d => Kept d.used d.track d.world)
    (fun _ _ _ hok h hn => kept_next hok h hn) (kept_start files) hok hd).found

def save (k t v : Nat) (faults : List (Fault (Option Nat) Failure)) : Event Nat Nat Nat :=
  .commit k ⟨[.replace t (some v)], List.cons_ne_nil _ _⟩ false faults

/-- Neither can the committed marker be written nor the backup be put back. -/
def rollbackFails : List (Fault (Option Nat) Failure) :=
  List.replicate 12 .proceed ++ [.raise .osError none, .proceed, .raise .osError none]

theorem never_older_recoveredBetween : NotOlder ((exec (next (fun _ => true)) (start (fun t => some (.file t)))
      [save 7 0 1 rollbackFails, .recover [], save 4 0 2 [], .recover []]).get (by decide +kernel)) :=
  never_older (fun t => some (.file t)) (by decide +kernel) (Option.some_get _).symm

/-- The journal of a failed commit is followed after a later one has returned, and undoes both. -/
theorem leftover_journal_undoes_commit : ∃ d, exec (next (fun _ => true)) (start (fun t => some (.file t)))
        [save 7 0 1 rollbackFails, save 4 0 2 [], .recover []] = some d ∧
      d.track 0 = some [some (.file 2)] ∧ d.world.files (.target 0) = some (.file 0) ∧
        ¬ NotOlder d := by
  have hd : ((exec (next (fun _ => true)) (start (fun t => some (.file t)))
      [save 7 0 1 rollbackFails, save 4 0 2 [], .recover []]).map
        (fun d => (d.track 0, d.world.files (.target 0)))) =
      some (some [some (.file 2)], some (.file 0)) := by decide +kernel
  obtain ⟨d, hexec, hd⟩ := Option.map_eq_some_iff.mp hd
  rw [Prod.mk.injEq] at hd
  refine ⟨d, hexec, hd.1, hd.2, fun h => ?_⟩
  have hmem := h 0 _ hd.1
  rw [hd.2] at hmem
  simp at hmem

end Kirara.FileHistories
