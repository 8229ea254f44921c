import Kirara.OutboxSteps

namespace Kirara.OutboxInvariants

open Kirara.Rosters Kirara.Outboxes Kirara.OutboxLocks Kirara.OutboxSteps

set_option linter.unusedSectionVars false

variable {ι δ ρ S : Type} [DecidableEq ι] [DecidableEq δ] [LinearOrder ρ] [DecidableEq S]

/-- How often the message of a delivery has been passed to a sender. -/
def timesInvoked (invoked : List (S × δ)) (d : δ) : ℕ := (invoked.map Prod.snd).count d

def Matches (phase : Phase δ) (r : Delivery δ ρ S) : Prop :=
  match phase.attempt with
  | none => r.status ∈ pendingStatuses
  | some n => r.status = .sending ∧ r.attemptCount = n

/-- A call and the row it works on, which is of its recipient and its service. -/
structure Fits (rows : List (Delivery δ ρ S)) (invoked : List (S × δ)) (settled : List δ)
    (x : Task δ ρ S) : Prop where
  row : ∀ d, x.phase.row = some d → ∃ r ∈ rows, r.deliveryId = d ∧
    r.recipientKey = x.recipientKey ∧ r.adapterInstance = x.service ∧ Matches x.phase r
  claimed : ∀ d n, x.phase = .claimed d n → timesInvoked invoked d < n
  unsettled : ∀ d n, x.phase = .claimed d n ∨ x.phase = .inFlight d n → d ∉ settled
  verdict : ∀ d n v, x.phase = .marking d n v → d ∈ settled → v ≠ .retryable

/-- A row within its limit. One fit to be sent again has an attempt left and cannot have arrived. -/
structure Sane (limits : Limits S) (invoked : List (S × δ)) (settled : List δ)
    (r : Delivery δ ρ S) : Prop where
  attempts : r.attemptCount ≤ limits.maxAttempts r.adapterInstance
  pending : r.status ∈ pendingStatuses →
    r.attemptCount < limits.maxAttempts r.adapterInstance ∧ r.deliveryId ∉ settled
  invoked : timesInvoked invoked r.deliveryId ≤ r.attemptCount

structure Sound (limits : Limits S) (σ : Outbox ι δ ρ S) : Prop where
  locks : LockInv σ
  ids : (σ.rows.map Delivery.deliveryId).Nodup
  sane : ∀ r ∈ σ.rows, Sane limits σ.invoked σ.settled r
  fits : ∀ q ∈ σ.tasks, Fits σ.rows σ.invoked σ.settled q.2
  running : ∀ q ∈ σ.tasks, σ.running q.2.service = true
  invoked : ∀ q ∈ σ.invoked, ∃ r ∈ σ.rows, r.deliveryId = q.2 ∧ r.adapterInstance = q.1
  settled : ∀ d ∈ σ.settled, ∃ r ∈ σ.rows, r.deliveryId = d

variable {p : Platform} {limits : Limits S} {σ σ' : Outbox ι δ ρ S} {t : ι} {x : Task δ ρ S}
  {d : δ} {r r' : Delivery δ ρ S} {e : Effect δ ρ S} {q q' : ι × Task δ ρ S}
  {f : Delivery δ ρ S → Delivery δ ρ S} {rows rows' : List (Delivery δ ρ S)}
  {invoked : List (S × δ)} {settled : List δ} {phase : Phase δ}

theorem eq_of_id (h : Sound limits σ) (hr : r ∈ σ.rows) (hr' : r' ∈ σ.rows)
    (hd : r.deliveryId = r'.deliveryId) : r = r' :=
  List.inj_on_of_nodup_map h.ids hr hr' hd

theorem eq_of_row (h : Sound limits σ) (hq : q ∈ σ.tasks) (hq' : q' ∈ σ.tasks)
    (hd : q.2.phase.row = some d) (hd' : q'.2.phase.row = some d) : q = q' := by
  obtain ⟨r, hr, hid, hkey, hs, -⟩ := (h.fits q hq).row d hd
  obtain ⟨r', hr', hid', hkey', hs', -⟩ := (h.fits q' hq').row d hd'
  have hrr : r = r' := eq_of_id h hr hr' (hid.trans hid'.symm)
  rw [← hrr] at hkey' hs'
  exact eq_of_holding h.locks hq hq' (hs.symm.trans hs') (hkey.symm.trans hkey')
    (holding_of_row hd) (holding_of_row hd')

theorem fits_of_pending (hattempt : x.phase.attempt = none)
    (hrow : ∀ d, x.phase.row = some d → ∃ r ∈ rows, r.deliveryId = d ∧
      r.recipientKey = x.recipientKey ∧ r.adapterInstance = x.service ∧
        r.status ∈ pendingStatuses) : Fits rows invoked settled x where
  row d hd := by
    obtain ⟨r, hr, hid, hkey, hs, hst⟩ := hrow d hd
    exact ⟨r, hr, hid, hkey, hs, by rwa [Matches, hattempt]⟩
  claimed d n hp := by
    rw [hp] at hattempt
    cases hattempt
  unsettled d n hp := by
    cases hp with
    | inl hp =>
      rw [hp] at hattempt
      cases hattempt
    | inr hp =>
      rw [hp] at hattempt
      cases hattempt
  verdict d n v hp := by
    rw [hp] at hattempt
    cases hattempt

theorem fits_of_row_none (h : x.phase.row = none) : Fits rows invoked settled x := by
  apply fits_of_pending (attempt_of_row_none h)
  intro d hd
  rw [h] at hd
  cases hd

theorem fits_frame {invoked' : List (S × δ)} {settled' : List δ} (hd : x.phase.row ≠ some d)
    (hinvoked : ∀ d', d' ≠ d → timesInvoked invoked' d' = timesInvoked invoked d')
    (hsettled : ∀ d', d' ≠ d → (d' ∈ settled' ↔ d' ∈ settled))
    (h : Fits rows invoked settled x) : Fits (update d f rows) invoked' settled' x where
  row d' hd' := by
    obtain ⟨r, hr, hid, hrest⟩ := h.row d' hd'
    refine ⟨r, mem_update_of_ne hr ?_, hid, hrest⟩
    rw [hid]
    rintro rfl
    exact hd hd'
  claimed d' n hp := by
    have hne : d' ≠ d := by
      rintro rfl
      exact hd (by rw [hp]; rfl)
    rw [hinvoked d' hne]
    exact h.claimed d' n hp
  unsettled d' n hp := by
    have hne : d' ≠ d := by
      rintro rfl
      cases hp with
      | inl hp => exact hd (by rw [hp]; rfl)
      | inr hp => exact hd (by rw [hp]; rfl)
    rw [hsettled d' hne]
    exact h.unsettled d' n hp
  verdict d' n v hp := by
    have hne : d' ≠ d := by
      rintro rfl
      exact hd (by rw [hp]; rfl)
    rw [hsettled d' hne]
    exact h.verdict d' n v hp

theorem mem_perform (h : q ∈ (perform t x e σ).tasks) :
    (∃ phase, e.phase = some phase ∧ q = (t, { x with phase := phase })) ∨
      q ∈ σ.tasks ∧ q.1 ≠ t := by
  unfold perform at h
  split at h
  · next phase hp => exact (mem_replace h).imp (fun hq => ⟨phase, hp, hq⟩) id
  · exact Or.inr (mem_remove.mp h)

theorem mem_perform_of_ne (h : q ∈ σ.tasks) (ht : q.1 ≠ t) : q ∈ (perform t x e σ).tasks := by
  unfold perform
  split
  · exact mem_replace_of_ne h ht
  · exact mem_remove.mpr ⟨h, ht⟩

theorem perform_fields : (perform t x e σ).rows = e.rows ∧ (perform t x e σ).running = σ.running ∧
    (perform t x e σ).invoked = (e.invokes.map (Prod.mk x.service)).toList ++ σ.invoked ∧
    (perform t x e σ).settled = e.settles.toList ++ σ.settled := by
  unfold perform
  split <;> exact ⟨rfl, rfl, rfl, rfl⟩

theorem sound_quiet (h : Sound limits σ) (hx : (t, x) ∈ σ.tasks)
    (hh : x.phase.holding = true ∧ ∀ phase, e.phase = some phase → phase.holding = true)
    (hrows : e.rows = σ.rows) (hi : e.invokes = none) (hs : e.settles = none)
    (hfit : ∀ phase, e.phase = some phase → Fits σ.rows σ.invoked σ.settled { x with phase := phase }) :
    Sound limits (perform t x e σ) := by
  obtain ⟨hr, hrun, hinv, hset⟩ := perform_fields (t := t) (x := x) (e := e) (σ := σ)
  rw [hi] at hinv
  rw [hs] at hset
  simp only [Option.map_none, Option.toList_none, List.nil_append] at hinv hset
  rw [hrows] at hr
  constructor
  · exact lockInv_perform hx (fun phase hp => (hh.2 phase hp).trans hh.1.symm) h.locks
  · rw [hr]
    exact h.ids
  · rw [hr, hinv, hset]
    exact h.sane
  · rw [hr, hinv, hset]
    intro q hq
    cases mem_perform hq with
    | inl hq =>
      obtain ⟨phase, hp, rfl⟩ := hq
      exact hfit phase hp
    | inr hq => exact h.fits q hq.1
  · rw [hrun]
    intro q hq
    cases mem_perform hq with
    | inl hq =>
      obtain ⟨phase, hp, rfl⟩ := hq
      exact h.running (t, x) hx
    | inr hq => exact h.running q hq.1
  · rw [hr, hinv]
    exact h.invoked
  · rw [hr, hset]
    exact h.settled

theorem sound_row (h : Sound limits σ) (hx : (t, x) ∈ σ.tasks) (hd : x.phase.row = some d)
    (hh : x.phase.holding = true ∧ ∀ phase, e.phase = some phase → phase.holding = true)
    (hf : ∀ r, (f r).deliveryId = r.deliveryId ∧ (f r).recipientKey = r.recipientKey ∧
      (f r).adapterInstance = r.adapterInstance)
    (hrows : e.rows = update d f σ.rows) (hi : ∀ d' ∈ e.invokes, d' = d)
    (hs : ∀ d' ∈ e.settles, d' = d)
    (hsane : ∀ r ∈ σ.rows, r.deliveryId = d → Matches x.phase r →
      r.adapterInstance = x.service → Sane limits
        ((e.invokes.map (Prod.mk x.service)).toList ++ σ.invoked) (e.settles.toList ++ σ.settled)
        (f r))
    (hfit : ∀ r ∈ σ.rows, r.deliveryId = d → Matches x.phase r →
      ∀ phase, e.phase = some phase → (∀ d', phase.row = some d' → d' = d ∧ Matches phase (f r)) ∧
        (∀ n, phase = .claimed d n →
          timesInvoked ((e.invokes.map (Prod.mk x.service)).toList ++ σ.invoked) d < n) ∧
        (∀ n, phase = .claimed d n ∨ phase = .inFlight d n → d ∉ e.settles.toList ++ σ.settled) ∧
        (∀ n v, phase = .marking d n v → d ∈ e.settles.toList ++ σ.settled → v ≠ .retryable)) :
    Sound limits (perform t x e σ) := by
  obtain ⟨hr, hrun, hinv, hset⟩ := perform_fields (t := t) (x := x) (e := e) (σ := σ)
  rw [hrows] at hr
  obtain ⟨r₀, hr₀, hid₀, hkey₀, hinst₀, hm₀⟩ := (h.fits (t, x) hx).row d hd
  have hcount : ∀ d', d' ≠ d → timesInvoked (perform t x e σ).invoked d' =
      timesInvoked σ.invoked d' := by
    intro d' hd'
    rw [hinv]
    cases hc : e.invokes with
    | none => rfl
    | some d'' =>
      have hdd : d'' = d := hi d'' hc
      simp [timesInvoked, hdd, Ne.symm hd']
  have hmem : ∀ d', d' ≠ d → (d' ∈ (perform t x e σ).settled ↔ d' ∈ σ.settled) := by
    intro d' hd'
    rw [hset]
    cases hc : e.settles with
    | none => rfl
    | some d'' =>
      have hdd : d'' = d := hs d'' hc
      simp [hdd, hd']
  have hids : (perform t x e σ).rows.map Delivery.deliveryId = σ.rows.map Delivery.deliveryId := by
    rw [hr, update, List.map_map]
    apply List.map_congr_left
    intro r _
    by_cases hrd : r.deliveryId = d
    · simp [hrd, (hf r).1]
    · simp [hrd]
  have hexists : ∀ r ∈ σ.rows, ∃ r' ∈ (perform t x e σ).rows, r'.deliveryId = r.deliveryId ∧
      r'.adapterInstance = r.adapterInstance := by
    intro r hrm
    rw [hr]
    by_cases hrd : r.deliveryId = d
    · exact ⟨f r, mem_update_self hrm hrd, (hf r).1, (hf r).2.2⟩
    · exact ⟨r, mem_update_of_ne hrm hrd, rfl, rfl⟩
  constructor
  · exact lockInv_perform hx (fun phase hp => (hh.2 phase hp).trans hh.1.symm) h.locks
  · rw [hids]
    exact h.ids
  · intro r hrm
    rw [hr] at hrm
    cases mem_update hrm with
    | inl hrm =>
      obtain ⟨r₁, hr₁, hid₁, rfl⟩ := hrm
      have hrr : r₁ = r₀ := eq_of_id h hr₁ hr₀ (hid₁.trans hid₀.symm)
      rw [hinv, hset, hrr]
      exact hsane r₀ hr₀ hid₀ hm₀ hinst₀
    | inr hrm =>
      have hold := h.sane r hrm.1
      refine ⟨hold.attempts, fun hp => ?_, ?_⟩
      · rw [hmem _ hrm.2]
        exact hold.pending hp
      · rw [hcount _ hrm.2]
        exact hold.invoked
  · intro q hq
    cases mem_perform hq with
    | inl hq =>
      obtain ⟨phase, hp, rfl⟩ := hq
      obtain ⟨h1, h2, h3, h4⟩ := hfit r₀ hr₀ hid₀ hm₀ phase hp
      rw [hr, hinv, hset]
      constructor
      · intro d' hd'
        obtain ⟨rfl, hmatch⟩ := h1 d' hd'
        exact ⟨f r₀, mem_update_self hr₀ hid₀, (hf r₀).1.trans hid₀, (hf r₀).2.1.trans hkey₀,
          (hf r₀).2.2.trans hinst₀, hmatch⟩
      · rintro d' n rfl
        obtain ⟨rfl, -⟩ := h1 d' rfl
        exact h2 n rfl
      · rintro d' n (rfl | rfl)
        · obtain ⟨rfl, -⟩ := h1 d' rfl
          exact h3 n (Or.inl rfl)
        · obtain ⟨rfl, -⟩ := h1 d' rfl
          exact h3 n (Or.inr rfl)
      · rintro d' n v rfl
        obtain ⟨rfl, -⟩ := h1 d' rfl
        exact h4 n v rfl
    | inr hq =>
      have hne : q.2.phase.row ≠ some d := by
        intro hqd
        exact hq.2 (congrArg Prod.fst (eq_of_row h hq.1 hx hqd hd))
      rw [hr]
      exact fits_frame hne hcount hmem (h.fits q hq.1)
  · rw [hrun]
    intro q hq
    cases mem_perform hq with
    | inl hq =>
      obtain ⟨phase, hp, rfl⟩ := hq
      exact h.running (t, x) hx
    | inr hq => exact h.running q hq.1
  · intro q hq
    rw [hinv] at hq
    cases List.mem_append.mp hq with
    | inl hq =>
      obtain ⟨d', hd', rfl⟩ := Option.map_eq_some_iff.mp (Option.mem_toList.mp hq)
      obtain ⟨r', hr', hid, hinst⟩ := hexists r₀ hr₀
      rw [hi d' hd']
      exact ⟨r', hr', hid.trans hid₀, hinst.trans hinst₀⟩
    | inr hq =>
      obtain ⟨r, hrm, hid, hinst⟩ := h.invoked q hq
      obtain ⟨r', hr', hid', hinst'⟩ := hexists r hrm
      exact ⟨r', hr', hid'.trans hid, hinst'.trans hinst⟩
  · intro d' hd'
    rw [hset] at hd'
    cases List.mem_append.mp hd' with
    | inl hd' =>
      obtain ⟨r', hr', hid, -⟩ := hexists r₀ hr₀
      rw [hs d' (Option.mem_toList.mp hd')]
      exact ⟨r', hr', hid.trans hid₀⟩
    | inr hd' =>
      obtain ⟨r, hrm, hid⟩ := h.settled d' hd'
      obtain ⟨r', hr', hid', -⟩ := hexists r hrm
      exact ⟨r', hr', hid'.trans hid⟩

end Kirara.OutboxInvariants

namespace Kirara.OutboxSegments

open Kirara.Rosters Kirara.Outboxes Kirara.OutboxSteps Kirara.OutboxInvariants

set_option linter.unusedSectionVars false

variable {ι δ ρ S : Type} [DecidableEq ι] [DecidableEq δ] [LinearOrder ρ] [DecidableEq S]
variable {p : Platform} {limits : Limits S} {σ : Outbox ι δ ρ S} {t : ι} {x : Task δ ρ S} {d : δ}
  {r : Delivery δ ρ S} {e : Effect δ ρ S} {rows : List (Delivery δ ρ S)} {phase : Phase δ}

theorem mem_of_selected {target : δ} {key : ρ} (h : selected rows target key = some r) :
    ∃ current, get rows target = some current ∧
      (∀ b ∈ blocker rows key current.recipientSequence, b.status ∉ terminalStatuses) ∧
        nextDelivery rows key current.recipientSequence = some r := by
  unfold selected at h
  split at h
  · cases h
  next current hget =>
  split at h
  · cases h
  split at h
  · cases h
  next hblocker =>
  refine ⟨current, hget, fun b hb ht => ?_, h⟩
  apply hblocker
  rw [Option.any_eq_true]
  exact ⟨b, hb, decide_eq_true ht⟩

variable {n : ℕ}

theorem mem_of_nextDelivery {key : ρ} (h : nextDelivery rows key n = some r) :
    r ∈ rows ∧ r.recipientKey = key ∧ r.recipientSequence ≤ n ∧ r.status ∈ pendingStatuses := by
  have hmem := List.argmin_mem h
  rw [List.mem_filter, decide_eq_true_iff] at hmem
  exact hmem

theorem matches_of_attempt (hattempt : phase.attempt = none) (h : Matches phase r) :
    r.status ∈ pendingStatuses := by
  rwa [Matches, hattempt] at h

theorem not_pending_of_sending (h : r.status = .sending) : r.status ∉ pendingStatuses := by
  rw [h]
  decide

variable (h : Sound limits σ)

include h

theorem sound_look (hx : (t, x) ∈ σ.tasks) (hp : x.phase = .looking)
    (hok : ∀ r ∈ selected σ.rows x.target x.recipientKey, r.adapterInstance = x.service) :
    Sound limits (perform t x ⟨σ.rows, (selected σ.rows x.target x.recipientKey).map
      (fun r => atFirst p r.deliveryId), none, none⟩ σ) := by
  refine sound_quiet h hx ⟨by rw [hp]; rfl, fun phase hph => ?_⟩ rfl rfl rfl (fun phase hph => ?_)
  · obtain ⟨r, -, rfl⟩ := Option.map_eq_some_iff.mp hph
    exact atFirst_phase.2.2
  · obtain ⟨r, hr, rfl⟩ := Option.map_eq_some_iff.mp hph
    obtain ⟨current, -, -, hnext⟩ := mem_of_selected hr
    obtain ⟨hmem, hkey, -, hst⟩ := mem_of_nextDelivery hnext
    apply fits_of_pending atFirst_phase.2.1
    intro d hd
    rw [atFirst_phase.1] at hd
    cases hd
    exact ⟨r, hmem, rfl, hkey, hok r hr, hst⟩

theorem sound_claim (hx : (t, x) ∈ σ.tasks) (hp : x.phase = .claiming d)
    (hget : get σ.rows d = some r) : Sound limits (perform t x
      ⟨update d startSending σ.rows, some (.claimed d (r.attemptCount + 1)), none, none⟩ σ) := by
  obtain ⟨hrmem, hrid⟩ := mem_of_get hget
  have hpending : ∀ r' ∈ σ.rows, r'.deliveryId = d → Matches x.phase r' → r' = r ∧
      r.status ∈ pendingStatuses := by
    intro r' hr' hid hm
    have hrr : r' = r := eq_of_id h hr' hrmem (hid.trans hrid.symm)
    rw [hp] at hm
    exact ⟨hrr, hrr ▸ matches_of_attempt rfl hm⟩
  have hsane := h.sane r hrmem
  apply sound_row (f := startSending) h hx (by rw [hp]; rfl)
    ⟨by rw [hp]; rfl, fun phase hph => by cases hph; rfl⟩ (fun r => ⟨rfl, rfl, rfl⟩) rfl
    (fun d' hd' => by cases hd') (fun d' hd' => by cases hd')
  · intro r' hr' hid hm _
    obtain ⟨rfl, hst⟩ := hpending r' hr' hid hm
    refine ⟨(hsane.pending hst).1, fun hs => ?_, ?_⟩
    · exact absurd hs (not_pending_of_sending rfl)
    · exact Nat.le_succ_of_le hsane.invoked
  · intro r' hr' hid hm phase hph
    obtain ⟨rfl, hst⟩ := hpending r' hr' hid hm
    cases hph
    refine ⟨fun d' hd' => ?_, fun n hn => ?_, fun n _ => ?_, fun n v hv => by cases hv⟩
    · cases hd'
      exact ⟨rfl, rfl, rfl⟩
    · cases hn
      rw [← hrid]
      exact Nat.lt_succ_of_le hsane.invoked
    · rw [← hrid]
      exact (hsane.pending hst).2

theorem sound_invoke (hx : (t, x) ∈ σ.tasks)
    (hp : x.phase = .claimed d n) : Sound limits (perform t x
      ⟨σ.rows, some (.inFlight d n), some d, none⟩ σ) := by
  have hfit := h.fits (t, x) hx
  have hlt := hfit.claimed d n hp
  apply sound_row (f := id) h hx (by rw [hp]; rfl)
    ⟨by rw [hp]; rfl, fun phase hph => by cases hph; rfl⟩ (fun r => ⟨rfl, rfl, rfl⟩)
    update_id.symm (fun d' hd' => by cases hd'; rfl) (fun d' hd' => by cases hd')
  · intro r hr hid hm _
    rw [hp] at hm
    have hold := h.sane r hr
    refine ⟨hold.attempts, fun hs => absurd hs (not_pending_of_sending hm.1), ?_⟩
    have hattempt : r.attemptCount = n := hm.2
    simp only [id, hid, hattempt, timesInvoked, Option.map_some, Option.toList_some,
      List.singleton_append, List.map_cons, List.count_cons_self]
    exact hlt
  · intro r hr hid hm phase hph
    rw [hp] at hm
    cases hph
    refine ⟨fun d' hd' => ?_, fun n hn => (by cases hn), fun n' _ => ?_, fun n v hv => by cases hv⟩
    · cases hd'
      exact ⟨rfl, hm⟩
    · exact hfit.unsettled d n (Or.inl hp)

theorem sound_reply {o : Reply} (hx : (t, x) ∈ σ.tasks)
    (hp : x.phase = .inFlight d n) : Sound limits (perform t x
      ⟨σ.rows, some (.marking d n (p.verdict o)), none,
        if p.mayHaveArrived o then some d else none⟩ σ) := by
  have hfit := h.fits (t, x) hx
  have hnot := hfit.unsettled d n (Or.inr hp)
  have hsettles : ∀ d' ∈ (if p.mayHaveArrived o then some d else none : Option δ),
      d' = d ∧ p.mayHaveArrived o = true := by
    intro d' hd'
    split at hd'
    · next ho =>
      cases hd'
      exact ⟨rfl, ho⟩
    · cases hd'
  apply sound_row (f := id) h hx (by rw [hp]; rfl)
    ⟨by rw [hp]; rfl, fun phase hph => by cases hph; rfl⟩ (fun r => ⟨rfl, rfl, rfl⟩)
    update_id.symm (fun d' hd' => by cases hd') (fun d' hd' => (hsettles d' hd').1)
  · intro r hr hid hm _
    rw [hp] at hm
    have hold := h.sane r hr
    exact ⟨hold.attempts, fun hs => absurd hs (not_pending_of_sending hm.1), hold.invoked⟩
  · intro r hr hid hm phase hph
    rw [hp] at hm
    cases hph
    refine ⟨fun d' hd' => ?_, fun n hn => (by cases hn), fun n hn => ?_, fun n' v hv hd' => ?_⟩
    · cases hd'
      exact ⟨rfl, hm⟩
    · cases hn with
      | inl hn => cases hn
      | inr hn => cases hn
    · cases hv
      cases List.mem_append.mp hd' with
      | inl hd' => exact p.safe o (hsettles d (Option.mem_toList.mp hd')).2
      | inr hd' => exact absurd hd' hnot

omit h

theorem marked_eq_retryWait {m n : ℕ} {v : Verdict} (h : marked m n v = .retryWait) :
    v = .retryable ∧ n < m := by
  cases v with
  | retryable =>
    refine ⟨rfl, Nat.lt_of_not_le (fun hle => ?_)⟩
    rw [marked, if_pos hle] at h
    cases h
  | accepted | ambiguous | cancelled | deadLetter => cases h

theorem marked_cases (m n : ℕ) (v : Verdict) : marked m n v = .retryWait ∨ marked m n v ∈ terminalStatuses := by
  cases v with
  | retryable =>
    by_cases hmn : m ≤ n
    · exact Or.inr (by simp [marked, hmn, terminalStatuses])
    · exact Or.inl (if_neg hmn)
  | accepted | ambiguous | cancelled | deadLetter =>
    exact Or.inr (by simp [marked, terminalStatuses])

theorem sound_mark {v : Verdict} {delayed : Bool} {status : Status} (h : Sound limits σ)
    (hx : (t, x) ∈ σ.tasks) (hp : x.phase = .marking d n v)
    (hs : marked (limits.maxAttempts x.service) n v = status) : Sound limits (perform t x
      ⟨update d (setStatus status) σ.rows, if status = .retryWait
        then some (afterRefusal p delayed d) else afterResult status, none, none⟩ σ) := by
  have hfit := h.fits (t, x) hx
  have hretry : status = .retryWait → n < limits.maxAttempts x.service ∧ d ∉ σ.settled := by
    intro hst
    obtain ⟨hv, hn⟩ := marked_eq_retryWait (hs.trans hst)
    exact ⟨hn, fun hd => hfit.verdict d n v hp hd hv⟩
  apply sound_row (f := setStatus status) h hx (by rw [hp]; rfl)
    ⟨by rw [hp]; rfl, fun phase hph => ?_⟩
    (fun r => ⟨rfl, rfl, rfl⟩) rfl (fun d' hd' => by cases hd') (fun d' hd' => by cases hd')
  · intro r hr hid hm hinst
    rw [hp] at hm
    have hold := h.sane r hr
    refine ⟨hold.attempts, fun hst => ?_, hold.invoked⟩
    have hstatus : status = .retryWait := by
      cases marked_cases (limits.maxAttempts x.service) n v with
      | inl hc => exact hs.symm.trans hc
      | inr hc =>
        rw [hs] at hc
        change status ∈ pendingStatuses at hst
        cases status <;> first | rfl | simp [terminalStatuses, pendingStatuses] at hc hst
    have hattempt : r.attemptCount = n := hm.2
    change r.attemptCount < limits.maxAttempts r.adapterInstance ∧ r.deliveryId ∉ σ.settled
    rw [hattempt, hinst, hid]
    exact hretry hstatus
  · intro r hr hid hm phase hph
    dsimp only at hph
    split at hph
    · next hst =>
      cases hph
      have hphase : (afterRefusal p delayed d).row = some d ∧
        (afterRefusal p delayed d).attempt = none ∧ _ := afterRefusal_phase
      obtain ⟨hrow, hattempt, -⟩ := hphase
      refine ⟨fun d' hd' => ?_, fun n hn => ?_, fun n hn => ?_, fun n v hn => ?_⟩
      · rw [hrow] at hd'
        cases hd'
        refine ⟨rfl, ?_⟩
        rw [Matches, hattempt, hst]
        exact (by decide : Status.retryWait ∈ pendingStatuses)
      · rw [hn] at hattempt
        cases hattempt
      · cases hn with
        | inl hn =>
          rw [hn] at hattempt
          cases hattempt
        | inr hn =>
          rw [hn] at hattempt
          cases hattempt
      · rw [hn] at hattempt
        cases hattempt
    · rw [afterResult_phase hph]
      refine ⟨fun d' hd' => (by cases hd'), fun n hn => (by cases hn), fun n hn => ?_,
        fun n v hn => by cases hn⟩
      cases hn with
      | inl hn => cases hn
      | inr hn => cases hn
  · dsimp only at hph
    split at hph
    · cases hph
      exact afterRefusal_phase.2.2
    · rw [afterResult_phase hph]
      rfl

theorem sound_act {a : Act} (h : Sound limits σ) (hx : (t, x) ∈ σ.tasks)
    (hok : a = .look → ∀ r ∈ selected σ.rows x.target x.recipientKey, r.adapterInstance = x.service)
    (he : act p limits σ.rows x x.phase a = some e) : Sound limits (perform t x e σ) := by
  have hacts := acts_of_act he
  have hh := holding_of_acts hacts
  generalize hp : x.phase = phase at hacts hh
  cases hacts with
  | looked => exact sound_look h hx hp (hok rfl)
  | gone => exact sound_quiet h hx (hp ▸ hh) rfl rfl rfl (fun _ hph => by cases hph)
  | found =>
    apply sound_quiet h hx (hp ▸ hh) rfl rfl rfl
    intro phase' hph
    rw [afterResult_phase hph]
    exact fits_of_row_none rfl
  | goesOn hrow hattempt hrow' hattempt' =>
    apply sound_quiet h hx (hp ▸ hh) rfl rfl rfl
    intro phase' hph
    cases hph
    apply fits_of_pending hattempt'
    intro d' hd'
    dsimp only at hd'
    rw [hrow'] at hd'
    cases hd'
    obtain ⟨r, hr, hid, hkey, hinst, hm⟩ := (h.fits (t, x) hx).row _ (by rw [hp]; exact hrow)
    rw [hp] at hm
    exact ⟨r, hr, hid, hkey, hinst, matches_of_attempt hattempt hm⟩
  | claims hget => exact sound_claim h hx hp hget
  | invokes => exact sound_invoke h hx hp
  | replies => exact sound_reply h hx hp
  | marks hs => exact sound_mark h hx hp hs
  | fails => exact sound_quiet h hx (hp ▸ hh) rfl rfl rfl (fun _ hph => by cases hph)

end Kirara.OutboxSegments
