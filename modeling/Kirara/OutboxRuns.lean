import Kirara.OutboxInvariants
import Kirara.Schedules

namespace Kirara.OutboxRuns

open Kirara.Rosters Kirara.Outboxes Kirara.OutboxLocks Kirara.OutboxSteps Kirara.OutboxInvariants
open Kirara.OutboxSegments Kirara.Schedules

set_option linter.unusedSectionVars false

variable {ι δ ρ S : Type} [DecidableEq ι] [DecidableEq δ] [LinearOrder ρ] [DecidableEq S]

/-- A service picks a row of its own, and recovers while no other has a send under way. -/
def Orderly (σ : Outbox ι δ ρ S) : Label ι δ ρ S → Prop
  | .act t .look => ∀ x ∈ lookup t σ.tasks, ∀ r ∈ selected σ.rows x.target x.recipientKey,
      r.adapterInstance = x.service
  | .recover s => ∀ q ∈ σ.tasks, q.2.phase.attempt ≠ none → q.2.service = s
  | _ => True

variable {p : Platform} {limits : Limits S} {σ σ' : Outbox ι δ ρ S} {t : ι} {x : Task δ ρ S}
  {d : δ} {r : Delivery δ ρ S} {rows : List (Delivery δ ρ S)} {invoked : List (S × δ)}

variable {s : S}

theorem nodup_enqueue {key : ρ} (h : (rows.map Delivery.deliveryId).Nodup) :
    ((enqueue rows s d key).map Delivery.deliveryId).Nodup := by
  unfold enqueue
  split
  · exact h
  · next hget =>
    rw [List.map_append, List.map_cons, List.map_nil]
    refine List.nodup_append.mpr ⟨h, List.nodup_singleton _, fun d₁ hd₁ d₂ hd₂ => ?_⟩
    obtain ⟨r, hr, rfl⟩ := List.mem_map.mp hd₁
    rw [List.mem_singleton.mp hd₂]
    exact not_mem_of_get hget r hr

theorem timesInvoked_eq_zero (h : ∀ q ∈ invoked, q.2 ≠ d) : timesInvoked invoked d = 0 := by
  apply List.count_eq_zero.mpr
  intro hd
  obtain ⟨q, hq, hqd⟩ := List.mem_map.mp hd
  exact h q hq hqd

theorem sound_enqueue {key : ρ} (h : Sound limits σ) :
    Sound limits { σ with rows := enqueue σ.rows s d key } := by
  constructor
  · exact lockInv_record h.locks
  · exact nodup_enqueue h.ids
  · intro r hr
    cases mem_enqueue hr with
    | inl hr => exact h.sane r hr
    | inr hr =>
      obtain ⟨hget, rfl⟩ := hr
      have hnew := not_mem_of_get hget
      refine ⟨Nat.zero_le _, fun _ => ⟨limits.positive s, fun hd => ?_⟩, ?_⟩
      · obtain ⟨r, hr, hid⟩ := h.settled d hd
        exact hnew r hr hid
      · apply Nat.le_of_eq
        apply timesInvoked_eq_zero
        intro q hq hqd
        obtain ⟨r, hr, hid, -⟩ := h.invoked q hq
        exact hnew r hr (hid.trans hqd)
  · intro q hq
    have hfit := h.fits q hq
    refine ⟨fun d' hd' => ?_, hfit.claimed, hfit.unsettled, hfit.verdict⟩
    obtain ⟨r, hr, hrest⟩ := hfit.row d' hd'
    exact ⟨r, mem_enqueue_of_mem hr, hrest⟩
  · exact h.running
  · intro q hq
    obtain ⟨r, hr, hrest⟩ := h.invoked q hq
    exact ⟨r, mem_enqueue_of_mem hr, hrest⟩
  · intro d' hd'
    obtain ⟨r, hr, hid⟩ := h.settled d' hd'
    exact ⟨r, mem_enqueue_of_mem hr, hid⟩

theorem deliver_spec (t : ι) (s : S) (d : δ) (σ : Outbox ι δ ρ S) :
    (deliver t s d σ).rows = σ.rows ∧ (deliver t s d σ).invoked = σ.invoked ∧
      (deliver t s d σ).settled = σ.settled ∧ (deliver t s d σ).running = σ.running ∧
        ((deliver t s d σ).tasks = σ.tasks ∨ ∃ x : Task δ ρ S, x.phase = .waiting ∧
          x.service = s ∧ (deliver t s d σ).tasks = (t, x) :: σ.tasks) := by
  unfold deliver
  split
  · exact ⟨rfl, rfl, rfl, rfl, Or.inl rfl⟩
  split
  · exact ⟨rfl, rfl, rfl, rfl, Or.inl rfl⟩
  unfold register
  split
  · exact ⟨rfl, rfl, rfl, rfl, Or.inr ⟨_, rfl, rfl, rfl⟩⟩
  · exact ⟨rfl, rfl, rfl, rfl, Or.inr ⟨_, rfl, rfl, rfl⟩⟩

theorem mem_deliver {q : ι × Task δ ρ S} (hq : q ∈ (deliver t s d σ).tasks) :
    q.1 = t ∧ q.2.phase = .waiting ∧ q.2.service = s ∨ q ∈ σ.tasks := by
  obtain ⟨-, -, -, -, htasks | ⟨x, hw, hs, htasks⟩⟩ := deliver_spec t s d σ
  · exact Or.inr (htasks ▸ hq)
  · rw [htasks] at hq
    cases List.mem_cons.mp hq with
    | inl hq =>
      rw [hq]
      exact Or.inl ⟨rfl, hw, hs⟩
    | inr hq => exact Or.inr hq

theorem mem_deliver_of_mem {q : ι × Task δ ρ S} (hq : q ∈ σ.tasks) : q ∈ (deliver t s d σ).tasks := by
  obtain ⟨-, -, -, -, htasks | ⟨x, -, -, htasks⟩⟩ := deliver_spec t s d σ
  · rwa [htasks]
  · rw [htasks]
    exact List.mem_cons_of_mem _ hq

theorem lockInv_deliver (ht : t ∉ σ.tasks.map Prod.fst) (h : LockInv σ) : LockInv (deliver t s d σ) := by
  unfold deliver
  split
  · exact h
  split
  · exact h
  · exact lockInv_register ht h

theorem sound_deliver (ht : t ∉ σ.tasks.map Prod.fst) (hs : σ.running s = true)
    (h : Sound limits σ) : Sound limits (deliver t s d σ) := by
  obtain ⟨hrows, hinv, hset, hrun, -⟩ := deliver_spec t s d σ
  constructor
  · exact lockInv_deliver ht h.locks
  · rw [hrows]
    exact h.ids
  · rw [hrows, hinv, hset]
    exact h.sane
  · rw [hrows, hinv, hset]
    intro q hq
    cases mem_deliver hq with
    | inl hq =>
      apply fits_of_row_none
      rw [hq.2.1]
      rfl
    | inr hq => exact h.fits q hq
  · rw [hrun]
    intro q hq
    cases mem_deliver hq with
    | inl hq => rwa [hq.2.2]
    | inr hq => exact h.running q hq
  · rw [hrows, hinv]
    exact h.invoked
  · rw [hrows, hset]
    exact h.settled

/-- Calls of `deliver` one after another, each under a new name. -/
theorem resume_induction {I : Outbox ι δ ρ S → Prop} {l : List (ι × δ)}
    (hI : ∀ σ t d, t ∉ σ.tasks.map Prod.fst → σ.running s = true → I σ → I (deliver t s d σ))
    (hl : (l.map Prod.fst ++ σ.tasks.map Prod.fst).Nodup) (hs : σ.running s = true) (h : I σ) :
    I (l.foldl (fun σ q => deliver q.1 s q.2 σ) σ) := by
  induction l generalizing σ with
  | nil => exact h
  | cons q l ih =>
    rw [List.map_cons, List.cons_append, List.nodup_cons] at hl
    obtain ⟨hq, hl⟩ := hl
    obtain ⟨-, -, -, hrun, htasks⟩ := deliver_spec q.1 s q.2 σ
    apply ih
    · obtain htasks | ⟨x, -, -, htasks⟩ := htasks
      · rwa [htasks]
      · rw [htasks, List.map_cons]
        exact List.nodup_middle.mpr (List.nodup_cons.mpr ⟨hq, hl⟩)
    · rwa [hrun]
    · exact hI σ q.1 q.2 (fun hm => hq (List.mem_append_right _ hm)) hs h

theorem sound_acquire (h : Sound limits σ) (hx : (t, x) ∈ σ.tasks) (hw : x.phase = .waiting)
    (hfree : σ.locked x.lock = false) : Sound limits { σ with
      tasks := replace t { x with phase := .looking } σ.tasks
      locked := Function.update σ.locked x.lock true } where
  locks := lockInv_acquire hx hw hfree h.locks
  ids := h.ids
  sane := h.sane
  fits q hq := by
    cases mem_replace hq with
    | inl hq =>
      rw [hq]
      exact fits_of_row_none rfl
    | inr hq => exact h.fits q hq.1
  running q hq := by
    cases mem_replace hq with
    | inl hq =>
      rw [hq]
      exact h.running (t, x) hx
    | inr hq => exact h.running q hq.1
  invoked := h.invoked
  settled := h.settled

theorem sound_leave (h : Sound limits σ) (hx : (t, x) ∈ σ.tasks) : Sound limits (leave t x σ) where
  locks := lockInv_leave hx h.locks
  ids := h.ids
  sane := h.sane
  fits q hq := h.fits q (mem_remove.mp hq).1
  running q hq := h.running q (mem_remove.mp hq).1
  invoked := h.invoked
  settled := h.settled

theorem mem_crash_settled (hd : d ∈ (crash σ).settled) :
    (∃ q ∈ σ.tasks, ∃ n, q.2.phase = .inFlight d n) ∨ d ∈ σ.settled := by
  cases List.mem_append.mp hd with
  | inl hd =>
    obtain ⟨q, hq, hqd⟩ := List.mem_filterMap.mp hd
    cases hph : q.2.phase with
    | inFlight d' n =>
      rw [hph] at hqd
      cases hqd
      exact Or.inl ⟨q, hq, n, hph⟩
    | _ =>
      rw [hph] at hqd
      cases hqd
  | inr hd => exact Or.inr hd

theorem sound_crash (h : Sound limits σ) : Sound limits (crash σ) where
  locks := lockInv_crash
  ids := h.ids
  sane r hr := by
    have hold := h.sane r hr
    refine ⟨hold.attempts, fun hp => ⟨(hold.pending hp).1, fun hd => ?_⟩, hold.invoked⟩
    cases mem_crash_settled hd with
    | inl hd =>
      obtain ⟨q, hq, n, hph⟩ := hd
      obtain ⟨r', hr', hid, -, -, hm⟩ := (h.fits q hq).row r.deliveryId (by rw [hph]; rfl)
      rw [hph, eq_of_id h hr' hr hid] at hm
      exact not_pending_of_sending hm.1 hp
    | inr hd => exact (hold.pending hp).2 hd
  fits q hq := by cases hq
  running q hq := by cases hq
  invoked := h.invoked
  settled d hd := by
    cases mem_crash_settled hd with
    | inl hd =>
      obtain ⟨q, hq, n, hph⟩ := hd
      obtain ⟨r, hr, hid, -⟩ := (h.fits q hq).row d (by rw [hph]; rfl)
      exact ⟨r, hr, hid⟩
    | inr hd => exact h.settled d hd

theorem mem_recoverOnStartup (h : r ∈ recoverOnStartup p s rows) :
    r ∈ rows ∧ ¬ (selects p s r = true ∧ r.status = .sending) ∨
      ∃ r₀ ∈ rows, selects p s r₀ = true ∧ r₀.status = .sending ∧ r = setStatus .ambiguous r₀ := by
  obtain ⟨r₀, hr₀, rfl⟩ := List.mem_map.mp h
  by_cases hs : selects p s r₀ = true ∧ r₀.status = .sending
  · rw [if_pos hs]
    exact Or.inr ⟨r₀, hr₀, hs.1, hs.2, rfl⟩
  · rw [if_neg hs]
    exact Or.inl ⟨hr₀, hs⟩

theorem recoverOnStartup_of_ne (h : r ∈ rows) (hs : r.status ≠ .sending) : r ∈ recoverOnStartup p s rows :=
  List.mem_map.mpr ⟨r, h, if_neg (fun hc => hs hc.2)⟩

theorem exists_recoverOnStartup (h : r ∈ rows) : ∃ r' ∈ recoverOnStartup p s rows,
    r'.deliveryId = r.deliveryId ∧ r'.adapterInstance = r.adapterInstance := by
  refine ⟨_, List.mem_map_of_mem h, ?_⟩
  split <;> exact ⟨rfl, rfl⟩

theorem sound_recover (h : Sound limits σ) (hs : σ.running s = false)
    (hok : ∀ q ∈ σ.tasks, q.2.phase.attempt ≠ none → q.2.service = s) : Sound limits { σ with
      rows := recoverOnStartup p s σ.rows
      running := Function.update σ.running s true } := by
  have hnone : ∀ q ∈ σ.tasks, q.2.phase.attempt = none := by
    intro q hq
    by_contra hc
    have hrun := h.running q hq
    rw [hok q hq hc, hs] at hrun
    cases hrun
  constructor
  · exact lockInv_record h.locks
  · have hids : (recoverOnStartup p s σ.rows).map Delivery.deliveryId =
        σ.rows.map Delivery.deliveryId := by
      rw [recoverOnStartup, List.map_map]
      apply List.map_congr_left
      intro r _
      rw [Function.comp_apply]
      split <;> rfl
    rw [hids]
    exact h.ids
  · intro r hr
    cases mem_recoverOnStartup hr with
    | inl hr => exact h.sane r hr.1
    | inr hr =>
      obtain ⟨r₀, hr₀, -, -, rfl⟩ := hr
      have hold := h.sane r₀ hr₀
      exact ⟨hold.attempts, fun hp => absurd hp (by simp [setStatus, pendingStatuses]), hold.invoked⟩
  · intro q hq
    apply fits_of_pending (hnone q hq)
    intro d hd
    obtain ⟨r, hr, hid, hkey, hinst, hm⟩ := (h.fits q hq).row d hd
    have hp := matches_of_attempt (hnone q hq) hm
    exact ⟨r, recoverOnStartup_of_ne hr (fun hc => not_pending_of_sending hc hp), hid, hkey, hinst,
      hp⟩
  · intro q hq
    dsimp only
    by_cases hqs : q.2.service = s
    · rw [hqs, Function.update_self]
    · rw [Function.update_of_ne hqs]
      exact h.running q hq
  · intro q hq
    obtain ⟨r, hr, hid, hinst⟩ := h.invoked q hq
    obtain ⟨r', hr', hid', hinst'⟩ := exists_recoverOnStartup (p := p) (s := s) hr
    exact ⟨r', hr', hid'.trans hid, hinst'.trans hinst⟩
  · intro d hd
    obtain ⟨r, hr, hid⟩ := h.settled d hd
    obtain ⟨r', hr', hid', -⟩ := exists_recoverOnStartup (p := p) (s := s) hr
    exact ⟨r', hr', hid'.trans hid⟩

variable {a : Label ι δ ρ S}

theorem sound_next (hok : Orderly σ a) (h : Sound limits σ)
    (hn : next p limits σ a = some σ') : Sound limits σ' := by
  cases steps_of_next hn with
  | enqueue => exact sound_enqueue h
  | deliver hrun ht => exact sound_deliver ht hrun h
  | resume hrun hnodup hlen =>
    apply resume_induction (fun σ t d ht hs h => sound_deliver ht hs h) _ hrun h
    rwa [List.map_fst_zip (by rw [hlen])]
  | acquire hx hw hfree => exact sound_acquire h (mem_of_lookup hx) hw hfree
  | act hx he =>
    apply sound_act h (mem_of_lookup hx) _ he
    rintro rfl
    exact hok _ hx
  | leave hx => exact sound_leave h (mem_of_lookup hx)
  | crash => exact sound_crash h
  | recover hrun => exact sound_recover h hrun hok

theorem resume_records (l : List (ι × δ)) : (l.foldl (fun σ q => deliver q.1 s q.2 σ) σ).rows = σ.rows ∧
      (l.foldl (fun σ q => deliver q.1 s q.2 σ) σ).invoked = σ.invoked ∧
        (l.foldl (fun σ q => deliver q.1 s q.2 σ) σ).settled = σ.settled := by
  induction l generalizing σ with
  | nil => exact ⟨rfl, rfl, rfl⟩
  | cons q l ih =>
    obtain ⟨hrows, hinv, hset, -⟩ := deliver_spec q.1 s q.2 σ
    obtain ⟨hrows', hinv', hset'⟩ := ih (σ := deliver q.1 s q.2 σ)
    exact ⟨hrows'.trans hrows, hinv'.trans hinv, hset'.trans hset⟩

theorem records_next (hn : next p limits σ a = some σ') :
    (∃ t x a e, (t, x) ∈ σ.tasks ∧ Acts p limits σ.rows x x.phase a e ∧ σ' = perform t x e σ) ∨
      σ'.invoked = σ.invoked ∧ (∀ d ∈ σ.settled, d ∈ σ'.settled) ∧
        ((∃ s d key, σ'.rows = enqueue σ.rows s d key) ∨
          (∃ s, σ'.rows = recoverOnStartup p s σ.rows) ∨ σ'.rows = σ.rows) := by
  cases steps_of_next hn with
  | @enqueue s d key => exact Or.inr ⟨rfl, fun _ h => h, Or.inl ⟨s, d, key, rfl⟩⟩
  | @deliver t s d =>
    obtain ⟨hrows, hinv, hset, -⟩ := deliver_spec t s d σ
    exact Or.inr ⟨hinv, fun _ h => hset ▸ h, Or.inr (Or.inr hrows)⟩
  | @resume s ts =>
    obtain ⟨hrows, hinv, hset⟩ :=
      resume_records (s := s) (σ := σ) (ts.zip (pendingDeliveryIds p s σ.rows))
    exact Or.inr ⟨hinv, fun _ h => hset ▸ h, Or.inr (Or.inr hrows)⟩
  | acquire => exact Or.inr ⟨rfl, fun _ h => h, Or.inr (Or.inr rfl)⟩
  | act hx he => exact Or.inl ⟨_, _, _, _, mem_of_lookup hx, acts_of_act he, rfl⟩
  | leave => exact Or.inr ⟨rfl, fun _ h => h, Or.inr (Or.inr rfl)⟩
  | crash => exact Or.inr ⟨rfl, fun _ h => List.mem_append_right _ h, Or.inr (Or.inr rfl)⟩
  | @recover s => exact Or.inr ⟨rfl, fun _ h => h, Or.inr (Or.inl ⟨s, rfl⟩)⟩

theorem invoked_next (hn : next p limits σ a = some σ') :
    σ'.invoked = σ.invoked ∨ ∃ t x d n, (t, x) ∈ σ.tasks ∧ x.phase = .claimed d n ∧
      σ'.rows = σ.rows ∧ σ'.invoked = (x.service, d) :: σ.invoked := by
  cases records_next hn with
  | inl hact =>
    obtain ⟨t, x, a, e, hx, hacts, rfl⟩ := hact
    obtain ⟨hrows, -, hinv, -⟩ := perform_fields (t := t) (x := x) (e := e) (σ := σ)
    generalize hp : x.phase = phase at hacts
    cases hacts with
    | invokes => exact Or.inr ⟨t, x, _, _, hx, hp, hrows, hinv⟩
    | _ => exact Or.inl hinv
  | inr hrest => exact Or.inl hrest.1

theorem orderly_of_subsingleton [Subsingleton S] (σ : Outbox ι δ ρ S) (a : Label ι δ ρ S) : Orderly σ a := by
  unfold Orderly
  split
  · exact fun x _ r _ => Subsingleton.elim _ _
  · exact fun q _ _ => Subsingleton.elim _ _
  · trivial

theorem not_terminal_of_row (hs : Sound limits σ) (hx : (t, x) ∈ σ.tasks)
    (hd : x.phase.row = some d) : ∀ r ∈ σ.rows, r.deliveryId = d → r.status ∉ terminalStatuses := by
  intro r hr hid
  obtain ⟨r', hr', hid', -, -, hm⟩ := (hs.fits (t, x) hx).row d hd
  rw [eq_of_id hs hr' hr (hid'.trans hid.symm), Matches] at hm
  split at hm
  · cases hst : r.status <;> simp [hst, pendingStatuses, terminalStatuses] at hm ⊢
  · rw [hm.1]
    decide

theorem sound_empty : Sound limits (empty : Outbox ι δ ρ S) where
  locks := lockInv_empty
  ids := List.nodup_nil
  sane r hr := by cases hr
  fits q hq := by cases hq
  running q hq := by cases hq
  invoked q hq := by cases hq
  settled d hd := by cases hd

theorem sound_exec {as : List (Label ι δ ρ S)} (hok : Along (next p limits) Orderly empty as)
    (h : exec (next p limits) empty as = some σ) : Sound limits σ :=
  exec_invariant (next p limits) (fun _ _ _ hok h hn => sound_next hok h hn) sound_empty hok h

end Kirara.OutboxRuns
