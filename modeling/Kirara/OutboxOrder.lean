import Kirara.OutboxRuns

namespace Kirara.OutboxOrder

open Kirara.Rosters Kirara.Outboxes Kirara.OutboxLocks Kirara.OutboxSteps Kirara.OutboxInvariants
open Kirara.OutboxSegments Kirara.OutboxRuns Kirara.Schedules

set_option linter.unusedSectionVars false

variable {ι δ ρ S : Type} [DecidableEq ι] [DecidableEq δ] [LinearOrder ρ] [DecidableEq S]

/-- Every earlier row of the recipient has been accepted. -/
def Clear (rows : List (Delivery δ ρ S)) (r : Delivery δ ρ S) : Prop :=
  ∀ r' ∈ rows, r'.recipientKey = r.recipientKey → r'.recipientSequence < r.recipientSequence →
    r'.status = .accepted

/-- What is worked on has nothing unaccepted ahead of it. -/
structure InOrder (σ : Outbox ι δ ρ S) : Prop where
  sending : ∀ s, σ.running s = true → ∀ r ∈ σ.rows, r.status = .sending →
    ∃ q ∈ σ.tasks, q.2.phase.row = some r.deliveryId ∧ q.2.phase.attempt ≠ none
  clear : ∀ q ∈ σ.tasks, ∀ r ∈ σ.rows, q.2.phase.row = some r.deliveryId → Clear σ.rows r

def WritesSucceed (_ : Outbox ι δ ρ S) : Label ι δ ρ S → Prop
  | .act _ a => a ≠ .writeFails
  | _ => True

instance (σ : Outbox ι δ ρ S) : DecidablePred (WritesSucceed σ)
  | .act _ a => inferInstanceAs (Decidable (a ≠ .writeFails))
  | .enqueue _ _ _ | .deliver _ _ _ | .resume _ _ | .acquire _ | .leave _ | .crash | .recover _ =>
    inferInstanceAs (Decidable True)

variable {p : Platform} {limits : Limits S} {σ σ' : Outbox ι δ ρ S} {t : ι} {x : Task δ ρ S}
  {d : δ} {r r' : Delivery δ ρ S} {e : Effect δ ρ S} {rows rows' : List (Delivery δ ρ S)}

/-- Rows keep their place, and stay accepted once they are. -/
def Advances (rows rows' : List (Delivery δ ρ S)) : Prop :=
  ∀ r' ∈ rows', ∃ r ∈ rows, r.deliveryId = r'.deliveryId ∧ r.recipientKey = r'.recipientKey ∧
    r.recipientSequence = r'.recipientSequence ∧ (r.status = .accepted → r'.status = .accepted)

theorem advances_refl : Advances rows rows := fun r hr => ⟨r, hr, rfl, rfl, rfl, id⟩

theorem advances_update {f : Delivery δ ρ S → Delivery δ ρ S}
    (hf : ∀ r, (f r).deliveryId = r.deliveryId ∧ (f r).recipientKey = r.recipientKey ∧
      (f r).recipientSequence = r.recipientSequence)
    (hd : ∀ r ∈ rows, r.deliveryId = d → r.status ≠ .accepted) :
    Advances rows (update d f rows) := by
  intro r' hr'
  cases mem_update hr' with
  | inl hr' =>
    obtain ⟨r, hr, hid, rfl⟩ := hr'
    exact ⟨r, hr, (hf r).1.symm, (hf r).2.1.symm, (hf r).2.2.symm, fun h => absurd h (hd r hr hid)⟩
  | inr hr' => exact ⟨r', hr'.1, rfl, rfl, rfl, id⟩

theorem clear_of_advances (h : Advances rows rows') (hkey : r'.recipientKey = r.recipientKey)
    (hseq : r'.recipientSequence = r.recipientSequence) (hc : Clear rows r) : Clear rows' r' := by
  intro r₁ hr₁ hk hs
  obtain ⟨r₀, hr₀, -, hkey₀, hseq₀, hacc⟩ := h r₁ hr₁
  apply hacc
  apply hc r₀ hr₀
  · rw [hkey₀, hk, hkey]
  · rw [hseq₀, ← hseq]
    exact hs

theorem clear_of_id (hrows : Advances rows rows') (hc : ∀ r ∈ rows, r.deliveryId = d → Clear rows r) :
    ∀ r' ∈ rows', r'.deliveryId = d → Clear rows' r' := by
  intro r' hr' hid
  obtain ⟨r, hr, hid', hkey, hseq, -⟩ := hrows r' hr'
  exact clear_of_advances hrows hkey.symm hseq.symm (hc r hr (hid'.trans hid))

theorem clear_of_selected [Subsingleton S] (hs : Sound limits σ) (h : InOrder σ)
    (hx : (t, x) ∈ σ.tasks) (hp : x.phase = .looking)
    (hr : selected σ.rows x.target x.recipientKey = some r) : Clear σ.rows r := by
  obtain ⟨current, -, hblocker, hnext⟩ := mem_of_selected hr
  obtain ⟨-, hkey, hseq, -⟩ := mem_of_nextDelivery hnext
  intro r' hr' hk hlt
  by_contra hacc
  have hmem : r' ∈ σ.rows.filter (fun r => r.recipientKey = x.recipientKey ∧
      r.recipientSequence < current.recipientSequence ∧ r.status ≠ .accepted) := by
    rw [List.mem_filter, decide_eq_true_iff]
    exact ⟨hr', hk.trans hkey, lt_of_lt_of_le hlt hseq, hacc⟩
  -- the earliest unaccepted row ahead of the target is no later than `r'`
  obtain ⟨b, hb⟩ : ∃ b, blocker σ.rows x.recipientKey current.recipientSequence = some b := by
    rw [← Option.ne_none_iff_exists']
    intro hnone
    rw [blocker, earliest, List.argmin_eq_none] at hnone
    rw [hnone] at hmem
    cases hmem
  have hble : b.recipientSequence ≤ r'.recipientSequence := List.le_of_mem_argmin hmem hb
  have hbmem := List.argmin_mem hb
  rw [List.mem_filter, decide_eq_true_iff] at hbmem
  obtain ⟨hbrow, hbkey, hblt, hbacc⟩ := hbmem
  have hbterm := hblocker b hb
  have hbpending : b.status ∉ pendingStatuses := by
    intro hbp
    have hbnext : b ∈ σ.rows.filter (fun r => r.recipientKey = x.recipientKey ∧
        r.recipientSequence ≤ current.recipientSequence ∧ r.status ∈ pendingStatuses) := by
      rw [List.mem_filter, decide_eq_true_iff]
      exact ⟨hbrow, hbkey, hblt.le, hbp⟩
    have hle := List.le_of_mem_argmin hbnext hnext
    omega
  have hsending : b.status = .sending := by
    cases hbs : b.status <;>
      first | rfl | simp [hbs, terminalStatuses, pendingStatuses] at hbterm hbpending
  -- a row that is being sent is being sent under the lock that this call holds
  obtain ⟨q, hq, hqrow, -⟩ := h.sending x.service (hs.running (t, x) hx) b hbrow hsending
  obtain ⟨b', hb', hid, hkey', -⟩ := (hs.fits q hq).row b.deliveryId hqrow
  rw [eq_of_id hs hb' hbrow hid, hbkey] at hkey'
  have hqx : q = (t, x) := eq_of_holding hs.locks hq hx (Subsingleton.elim _ _) hkey'.symm
    (holding_of_row hqrow) (by rw [hp]; rfl)
  rw [hqx, hp] at hqrow
  cases hqrow

theorem inOrder_perform (hs : Sound limits σ) (h : InOrder σ) (hx : (t, x) ∈ σ.tasks)
    (hadv : Advances σ.rows e.rows) (hsend : ∀ r ∈ e.rows, r.status = .sending →
      (∃ phase, e.phase = some phase ∧ phase.row = some r.deliveryId ∧ phase.attempt ≠ none) ∨
        r ∈ σ.rows ∧ ¬ (x.phase.row = some r.deliveryId ∧ x.phase.attempt ≠ none))
    (hclear : ∀ phase, e.phase = some phase → ∀ r ∈ e.rows, phase.row = some r.deliveryId →
      Clear e.rows r) : InOrder (perform t x e σ) := by
  obtain ⟨hrows, hrun, -, -⟩ := perform_fields (t := t) (x := x) (e := e) (σ := σ)
  constructor
  · intro s hrs r hr hst
    rw [hrows] at hr
    rw [hrun] at hrs
    cases hsend r hr hst with
    | inl hown =>
      obtain ⟨phase, hp, hrow, hattempt⟩ := hown
      refine ⟨(t, { x with phase := phase }), ?_, hrow, hattempt⟩
      unfold perform
      rw [hp]
      exact mem_replace_self hx
    | inr hother =>
      obtain ⟨q, hq, hqrow, hqattempt⟩ := h.sending s hrs r hother.1 hst
      refine ⟨q, mem_perform_of_ne hq ?_, hqrow, hqattempt⟩
      intro hqt
      have hqx : q.2 = x := eq_of_distinct hs.locks.distinct (hqt ▸ hq) hx
      exact hother.2 ⟨hqx ▸ hqrow, hqx ▸ hqattempt⟩
  · intro q hq r hr hrow
    rw [hrows] at hr ⊢
    cases mem_perform hq with
    | inl hq =>
      obtain ⟨phase, hp, rfl⟩ := hq
      exact hclear phase hp r hr hrow
    | inr hq =>
      obtain ⟨r₀, hr₀, hid, hkey, hseq, -⟩ := hadv r hr
      exact clear_of_advances hadv hkey.symm hseq.symm
        (h.clear q hq.1 r₀ hr₀ (by rw [hid]; exact hrow))

theorem not_accepted (h : r.status ∉ terminalStatuses) : r.status ≠ .accepted := by
  intro hr
  rw [hr] at h
  exact h (by decide)

theorem inOrder_same (hs : Sound limits σ) (h : InOrder σ) (hx : (t, x) ∈ σ.tasks) (hrows : e.rows = σ.rows)
    (hkeeps : x.phase.attempt = none ∨
      ∃ phase, e.phase = some phase ∧ phase.row = x.phase.row ∧ phase.attempt ≠ none)
    (hclear : ∀ phase, e.phase = some phase → ∀ r ∈ σ.rows, phase.row = some r.deliveryId →
      Clear σ.rows r) : InOrder (perform t x e σ) := by
  apply inOrder_perform hs h hx
  · rw [hrows]
    exact advances_refl
  · intro r hr hst
    rw [hrows] at hr
    cases hkeeps with
    | inl hnone => exact Or.inr ⟨hr, fun hc => hc.2 hnone⟩
    | inr hkeeps =>
      obtain ⟨phase, hp, hrow, hattempt⟩ := hkeeps
      by_cases hd : x.phase.row = some r.deliveryId
      · exact Or.inl ⟨phase, hp, hrow.trans hd, hattempt⟩
      · exact Or.inr ⟨hr, fun hc => hd hc.1⟩
  · rw [hrows]
    exact hclear

theorem inOrder_act [Subsingleton S] {a : Act} (hs : Sound limits σ) (h : InOrder σ)
    (hx : (t, x) ∈ σ.tasks) (ha : a ≠ .writeFails) (he : act p limits σ.rows x x.phase a = some e) :
    InOrder (perform t x e σ) := by
  have hacts := acts_of_act he
  have hown := h.clear (t, x) hx
  generalize hp : x.phase = phase at hacts
  cases hacts with
  | looked =>
    apply inOrder_same hs h hx rfl (Or.inl (by rw [hp]; rfl))
    intro phase' hph r hr hrow
    obtain ⟨r₀, hr₀, rfl⟩ := Option.map_eq_some_iff.mp hph
    rw [atFirst_phase.1] at hrow
    obtain ⟨current, -, -, hnext⟩ := mem_of_selected hr₀
    rw [← eq_of_id hs (mem_of_nextDelivery hnext).1 hr (Option.some.inj hrow)]
    exact clear_of_selected hs h hx hp hr₀
  | gone _ hattempt =>
    exact inOrder_same hs h hx rfl (Or.inl (by rw [hp]; exact hattempt)) (fun _ hph => by cases hph)
  | found _ hattempt =>
    apply inOrder_same hs h hx rfl (Or.inl (by rw [hp]; exact hattempt))
    intro phase' hph r _ hrow
    rw [afterResult_phase hph] at hrow
    cases hrow
  | goesOn hrow hattempt hrow' =>
    apply inOrder_same hs h hx rfl (Or.inl (by rw [hp]; exact hattempt))
    intro phase' hph r hr hr'
    cases hph
    apply hown r hr
    rw [hp, hrow, ← hrow', hr']
  | @claims d r₁ hget =>
    have hd : x.phase.row = some d := by
      rw [hp]
      rfl
    have hadv : Advances σ.rows (update d startSending σ.rows) :=
      advances_update (fun r => ⟨rfl, rfl, rfl⟩)
        (fun r hr hid => not_accepted (not_terminal_of_row hs hx hd r hr hid))
    apply inOrder_perform hs h hx hadv
    · intro r hr _
      cases mem_update hr with
      | inl hr =>
        obtain ⟨r₀, -, hid, rfl⟩ := hr
        exact Or.inl ⟨_, rfl, by rw [← hid]; rfl, Option.some_ne_none _⟩
      | inr hr =>
        refine Or.inr ⟨hr.1, fun hc => hr.2 ?_⟩
        rw [hd] at hc
        exact (Option.some.inj hc.1).symm
    · intro phase' hph r hr hrow
      cases hph
      apply clear_of_id hadv (fun r hr hid => hown r hr (by rw [hid]; exact hd)) r hr
      exact (Option.some.inj hrow).symm
  | @invokes d n =>
    have hd : x.phase.row = some d := by
      rw [hp]
      rfl
    apply inOrder_same hs h hx rfl (Or.inr ⟨.inFlight d n, rfl, hd.symm, Option.some_ne_none _⟩)
    intro phase' hph r hr hrow
    cases hph
    exact hown r hr (hd.trans hrow)
  | @replies d n o =>
    have hd : x.phase.row = some d := by
      rw [hp]
      rfl
    apply inOrder_same hs h hx rfl
      (Or.inr ⟨.marking d n (p.verdict o), rfl, hd.symm, Option.some_ne_none _⟩)
    intro phase' hph r hr hrow
    cases hph
    exact hown r hr (hd.trans hrow)
  | @marks d n v delayed status hst =>
    have hd : x.phase.row = some d := by
      rw [hp]
      rfl
    have hadv : Advances σ.rows (update d (setStatus status) σ.rows) :=
      advances_update (fun r => ⟨rfl, rfl, rfl⟩)
        (fun r hr hid => not_accepted (not_terminal_of_row hs hx hd r hr hid))
    apply inOrder_perform hs h hx hadv
    · intro r hr hsending
      cases mem_update hr with
      | inl hr =>
        obtain ⟨r₀, -, -, rfl⟩ := hr
        have hcases := marked_cases (limits.maxAttempts x.service) n v
        have hstatus : status = .sending := hsending
        rw [hst, hstatus] at hcases
        cases hcases with
        | inl hc => cases hc
        | inr hc => exact absurd hc (by decide)
      | inr hr =>
        refine Or.inr ⟨hr.1, fun hc => hr.2 ?_⟩
        rw [hd] at hc
        exact (Option.some.inj hc.1).symm
    · intro phase' hph r hr hrow
      have hid : r.deliveryId = d := by
        dsimp only at hph
        split at hph
        · cases hph
          rw [afterRefusal_phase.1] at hrow
          exact (Option.some.inj hrow).symm
        · rw [afterResult_phase hph] at hrow
          cases hrow
      exact clear_of_id hadv (fun r hr hid => hown r hr (by rw [hid]; exact hd)) r hr hid
  | fails => exact absurd rfl ha

theorem inOrder_enqueue {s : S} {key : ρ} (hs : Sound limits σ) (h : InOrder σ) :
    InOrder { σ with rows := enqueue σ.rows s d key } where
  sending s' hrs r hr hst := by
    cases mem_enqueue hr with
    | inl hr => exact h.sending s' hrs r hr hst
    | inr hr =>
      rw [hr.2] at hst
      cases hst
  clear q hq r hr hrow r' hr' hkey hlt := by
    obtain ⟨r₀, hr₀, hid, -⟩ := (hs.fits q hq).row r.deliveryId hrow
    have hrold : r ∈ σ.rows := by
      cases mem_enqueue hr with
      | inl hr => exact hr
      | inr hr =>
        rw [hr.2] at hid
        exact absurd hid (not_mem_of_get hr.1 r₀ hr₀)
    cases mem_enqueue hr' with
    | inl hr' => exact h.clear q hq r hrold hrow r' hr' hkey hlt
    | inr hr' =>
      rw [hr'.2] at hkey hlt
      have hnew := lt_nextSequence hrold
      rw [← hkey] at hnew
      exact absurd (lt_trans hlt hnew) (lt_irrefl _)

theorem inOrder_deliver {s : S} (h : InOrder σ) : InOrder (deliver t s d σ) := by
  obtain ⟨hrows, -, -, hrun, -⟩ := deliver_spec t s d σ
  constructor
  · rw [hrows, hrun]
    intro s' hrs r hr hst
    obtain ⟨q, hq, hrest⟩ := h.sending s' hrs r hr hst
    exact ⟨q, mem_deliver_of_mem hq, hrest⟩
  · rw [hrows]
    intro q hq r hr hrow
    cases mem_deliver hq with
    | inl hq =>
      rw [hq.2.1] at hrow
      cases hrow
    | inr hq => exact h.clear q hq r hr hrow

theorem inOrder_resume {s : S} {l : List (ι × δ)} (h : InOrder σ) :
    InOrder (l.foldl (fun σ q => deliver q.1 s q.2 σ) σ) := by
  induction l generalizing σ with
  | nil => exact h
  | cons q l ih => exact ih (inOrder_deliver h)

theorem inOrder_acquire (hs : Sound limits σ) (h : InOrder σ) (hx : (t, x) ∈ σ.tasks)
    (hw : x.phase = .waiting) : InOrder { σ with
      tasks := replace t { x with phase := .looking } σ.tasks
      locked := Function.update σ.locked x.lock true } where
  sending s hrs r hr hst := by
    obtain ⟨q, hq, hrow, hattempt⟩ := h.sending s hrs r hr hst
    refine ⟨q, mem_replace_of_ne hq ?_, hrow, hattempt⟩
    intro hqt
    have hqx : q.2 = x := eq_of_distinct hs.locks.distinct (hqt ▸ hq) hx
    rw [hqx, hw] at hrow
    cases hrow
  clear q hq r hr hrow := by
    cases mem_replace hq with
    | inl hq =>
      rw [hq] at hrow
      cases hrow
    | inr hq => exact h.clear q hq.1 r hr hrow

theorem inOrder_leave (hs : Sound limits σ) (h : InOrder σ) (hx : (t, x) ∈ σ.tasks)
    (hw : x.phase = .waiting) : InOrder (leave t x σ) where
  sending s hrs r hr hst := by
    obtain ⟨q, hq, hrow, hattempt⟩ := h.sending s hrs r hr hst
    refine ⟨q, mem_remove.mpr ⟨hq, ?_⟩, hrow, hattempt⟩
    intro hqt
    have hqx : q.2 = x := eq_of_distinct hs.locks.distinct (hqt ▸ hq) hx
    rw [hqx, hw] at hrow
    cases hrow
  clear q hq r hr hrow := h.clear q (mem_remove.mp hq).1 r hr hrow

theorem inOrder_recover [Subsingleton S] {s : S} (hs : Sound limits σ)
    (hrs : σ.running s = false) : InOrder { σ with
      rows := recoverOnStartup p s σ.rows
      running := Function.update σ.running s true } where
  sending s' _ r hr hst := by
    cases mem_recoverOnStartup hr with
    | inl hr => exact absurd ⟨by simp [selects, Subsingleton.elim r.adapterInstance s], hst⟩ hr.2
    | inr hr =>
      obtain ⟨r₀, -, -, -, rfl⟩ := hr
      cases hst
  clear q hq := by
    have hrun := hs.running q hq
    rw [Subsingleton.elim q.2.service s, hrs] at hrun
    cases hrun

theorem inOrder_next [Subsingleton S] {a : Label ι δ ρ S} (hok : WritesSucceed σ a)
    (hs : Sound limits σ) (h : InOrder σ) (hn : next p limits σ a = some σ') : InOrder σ' := by
  cases steps_of_next hn with
  | enqueue => exact inOrder_enqueue hs h
  | deliver => exact inOrder_deliver h
  | resume => exact inOrder_resume h
  | acquire hx hw => exact inOrder_acquire hs h (mem_of_lookup hx) hw
  | act hx he => exact inOrder_act hs h (mem_of_lookup hx) hok he
  | leave hx hw => exact inOrder_leave hs h (mem_of_lookup hx) hw
  | crash => exact ⟨fun s hrs => (by cases hrs), fun q hq => (by cases hq)⟩
  | recover hrun => exact inOrder_recover hs hrun

theorem inOrder_exec [Subsingleton S] {as : List (Label ι δ ρ S)}
    (hok : Along (next p limits) WritesSucceed empty as)
    (h : exec (next p limits) empty as = some σ) : Sound limits σ ∧ InOrder σ := by
  apply exec_invariant (next p limits) (I := fun σ => Sound limits σ ∧ InOrder σ) _ _ hok h
  · exact fun σ a σ' hok hσ hn => ⟨sound_next (orderly_of_subsingleton σ a) hσ.1 hn,
      inOrder_next hok hσ.1 hσ.2 hn⟩
  · exact ⟨sound_empty, fun s hrs => (by cases hrs), fun q hq => (by cases hq)⟩

/-- Whenever one Telegram service passes a delivery to its sender, all deliveries of the
recipient with lower sequences have been accepted. -/
theorem sent_in_order {limits : Limits Unit} {as : List (Label ι δ ρ Unit)} {a : Label ι δ ρ Unit}
    {σ σ' : Outbox ι δ ρ Unit} (hok : Along (next telegram limits) WritesSucceed empty as)
    (h : exec (next telegram limits) empty as = some σ) (hn : next telegram limits σ a = some σ') :
    σ'.invoked = σ.invoked ∨ ∃ r ∈ σ'.rows, σ'.invoked = ((), r.deliveryId) :: σ.invoked ∧
      ∀ r' ∈ σ'.rows, r'.recipientKey = r.recipientKey →
        r'.recipientSequence < r.recipientSequence → r'.status = .accepted := by
  obtain ⟨hs, hin⟩ := inOrder_exec hok h
  cases invoked_next hn with
  | inl hsame => exact Or.inl hsame
  | inr hinv =>
    obtain ⟨t, x, d, n, hx, hp, hrows, hinv⟩ := hinv
    have hd : x.phase.row = some d := by
      rw [hp]
      rfl
    obtain ⟨r, hr, hid, -⟩ := (hs.fits (t, x) hx).row d hd
    rw [hrows]
    exact Or.inr ⟨r, hr, by rw [hinv, hid], hin.clear (t, x) hx r hr (by rw [hid]; exact hd)⟩

def threeAttempts : Limits Unit := ⟨fun _ => 3, fun _ => by decide⟩

/-- The second page is to be delivered, and the first goes ahead. -/
def twoPages : List (Label ℕ ℕ ℕ Unit) :=
  [.recover (), .enqueue () 7 1, .enqueue () 8 1, .deliver 0 () 8, .acquire 0, .act 0 .look,
    .act 0 .claim, .act 0 .invoke, .act 0 (.reply .response), .act 0 (.mark false), .act 0 .look,
    .act 0 .claim]

theorem sent_in_order_secondPage :
    let σ := (exec (next telegram threeAttempts) empty twoPages).get (by decide +kernel)
    let σ' := (next telegram threeAttempts σ (.act 0 .invoke)).get (by decide +kernel)
    σ'.invoked = σ.invoked ∨ ∃ r ∈ σ'.rows, σ'.invoked = ((), r.deliveryId) :: σ.invoked ∧
      ∀ r' ∈ σ'.rows, r'.recipientKey = r.recipientKey →
        r'.recipientSequence < r.recipientSequence → r'.status = .accepted :=
  sent_in_order
    (by decide +kernel : Along (next telegram threeAttempts) WritesSucceed empty twoPages)
    (Option.some_get _).symm (Option.some_get _).symm

end Kirara.OutboxOrder
