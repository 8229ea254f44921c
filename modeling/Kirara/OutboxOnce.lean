import Kirara.OutboxRuns

namespace Kirara.OutboxOnce

open Kirara.Outboxes Kirara.OutboxSteps Kirara.OutboxInvariants Kirara.OutboxRuns
open Kirara.Schedules

set_option linter.unusedSectionVars false

variable {ι δ ρ S : Type} [DecidableEq ι] [DecidableEq δ] [LinearOrder ρ] [DecidableEq S]
variable {p : Platform} {limits : Limits S} {σ σ' : Outbox ι δ ρ S} {t : ι} {x : Task δ ρ S}
  {d : δ} {r : Delivery δ ρ S} {a : Label ι δ ρ S} {c : Act} {e : Effect δ ρ S}

theorem rows_of_acts (h : Acts p limits σ.rows x x.phase c e) :
    e.rows = σ.rows ∨ ∃ d f, x.phase.row = some d ∧ e.rows = update d f σ.rows := by
  generalize hp : x.phase = phase at h
  cases h with
  | claims => exact Or.inr ⟨_, _, rfl, rfl⟩
  | marks => exact Or.inr ⟨_, _, rfl, rfl⟩
  | _ => exact Or.inl rfl

theorem terminal_next (hs : Sound limits σ) (hn : next p limits σ a = some σ') (hr : r ∈ σ.rows)
    (ht : r.status ∈ terminalStatuses) : r ∈ σ'.rows := by
  cases records_next hn with
  | inl hact =>
    obtain ⟨t, x, c, e, hx, hacts, rfl⟩ := hact
    rw [perform_fields.1]
    cases rows_of_acts hacts with
    | inl hrows =>
      rw [hrows]
      exact hr
    | inr hrows =>
      obtain ⟨d, f, hd, hrows⟩ := hrows
      rw [hrows]
      apply mem_update_of_ne hr
      intro hid
      exact not_terminal_of_row hs hx hd r hr hid ht
  | inr hrest =>
    obtain ⟨-, -, hrows⟩ := hrest
    obtain ⟨s, d, key, hrows⟩ | ⟨s, hrows⟩ | hrows := hrows
    · rw [hrows]
      exact mem_enqueue_of_mem hr
    · rw [hrows]
      apply recoverOnStartup_of_ne hr
      intro hst
      rw [hst] at ht
      exact absurd ht (by decide)
    · rw [hrows]
      exact hr

theorem settled_next (hs : Sound limits σ) (hn : next p limits σ a = some σ') (hd : d ∈ σ.settled) :
    d ∈ σ'.settled ∧ timesInvoked σ'.invoked d = timesInvoked σ.invoked d := by
  constructor
  · cases records_next hn with
    | inl hact =>
      obtain ⟨t, x, c, e, -, -, rfl⟩ := hact
      rw [perform_fields.2.2.2]
      exact List.mem_append_right _ hd
    | inr hrest => exact hrest.2.1 d hd
  · cases invoked_next hn with
    | inl hsame => rw [hsame]
    | inr hinv =>
      obtain ⟨t, x, d', n, hx, hp, -, hinv⟩ := hinv
      have hne : d' ≠ d := by
        rintro rfl
        exact (hs.fits (t, x) hx).unsettled d' n (Or.inl hp) hd
      rw [hinv, timesInvoked, timesInvoked, List.map_cons, List.count_cons_of_ne hne]

theorem timesInvoked_le {m : ℕ} (hs : Sound limits σ) (hd : ∀ r ∈ σ.rows, r.deliveryId = d →
    limits.maxAttempts r.adapterInstance ≤ m) : timesInvoked σ.invoked d ≤ m := by
  by_cases hrow : ∃ r ∈ σ.rows, r.deliveryId = d
  · obtain ⟨r, hr, hid⟩ := hrow
    have hsane := hs.sane r hr
    have hle := hd r hr hid
    have hinv := hsane.invoked
    have hatt := hsane.attempts
    rw [hid] at hinv
    omega
  · rw [timesInvoked_eq_zero]
    · exact Nat.zero_le _
    · intro q hq hqd
      obtain ⟨r, hr, hid, -⟩ := hs.invoked q hq
      exact hrow ⟨r, hr, hid.trans hqd⟩

section Alone

variable [Subsingleton S] {as : List (Label ι δ ρ S)}

theorem sound_exec_of_sound (hs : Sound limits σ) (h : exec (next p limits) σ as = some σ') : Sound limits σ' :=
  exec_invariant (next p limits)
    (fun σ a _ _ h hn => sound_next (orderly_of_subsingleton σ a) h hn) hs
    (along_true (next p limits) σ as) h

theorem terminal_exec (hs : Sound limits σ) (h : exec (next p limits) σ as = some σ') (hr : r ∈ σ.rows)
    (ht : r.status ∈ terminalStatuses) : r ∈ σ'.rows := by
  have hinv := exec_invariant (next p limits) (I := fun σ => Sound limits σ ∧ r ∈ σ.rows)
    (fun σ a _ _ hσ hn => ⟨sound_next (orderly_of_subsingleton σ a) hσ.1 hn,
      terminal_next hσ.1 hn hσ.2 ht⟩) ⟨hs, hr⟩ (along_true (next p limits) σ as) h
  exact hinv.2

theorem settled_exec (hs : Sound limits σ) (h : exec (next p limits) σ as = some σ') (hd : d ∈ σ.settled) :
    timesInvoked σ'.invoked d = timesInvoked σ.invoked d := by
  have hinv := exec_invariant (next p limits)
    (I := fun σ'' => Sound limits σ'' ∧ d ∈ σ''.settled ∧
      timesInvoked σ''.invoked d = timesInvoked σ.invoked d)
    (fun σ a _ _ hσ hn => by
      obtain ⟨hset, hcount⟩ := settled_next hσ.1 hn hσ.2.1
      exact ⟨sound_next (orderly_of_subsingleton σ a) hσ.1 hn, hset, hcount.trans hσ.2.2⟩)
    ⟨hs, hd, rfl⟩ (along_true (next p limits) σ as) h
  exact hinv.2.2

end Alone

/-- Whatever is cancelled, fails to be written, crashes and restarts, one service, of either
platform, never sends a delivery again whose send has succeeded or ended in an unknown result,
changes no terminal row, and sends none more often than the limit says. -/
theorem sent_at_most_once (p : Platform) (limits : Limits Unit)
    {as bs : List (Label ι δ ρ Unit)} {σ τ : Outbox ι δ ρ Unit}
    (h : exec (next p limits) empty as = some σ) (h' : exec (next p limits) σ bs = some τ) :
    (∀ d ∈ σ.settled, timesInvoked τ.invoked d = timesInvoked σ.invoked d) ∧
      (∀ r ∈ σ.rows, r.status ∈ terminalStatuses → r ∈ τ.rows) ∧
      ∀ d, timesInvoked τ.invoked d ≤ limits.maxAttempts () := by
  have hσ : Sound limits σ := sound_exec_of_sound sound_empty h
  have hτ : Sound limits τ := sound_exec_of_sound hσ h'
  refine ⟨fun d hd => settled_exec hσ h' hd, fun r hr ht => terminal_exec hσ h' hr ht, fun d => ?_⟩
  exact timesInvoked_le hτ (fun r _ _ => le_rfl)

def twoAttempts : Limits Unit := ⟨fun _ => 2, fun _ => by decide⟩

def diesInFlight : List (Label ℕ ℕ ℕ Unit) :=
  [.recover (), .enqueue () 7 1, .deliver 0 () 7, .acquire 0, .act 0 .look, .act 0 (.check false),
    .act 0 .claim, .act 0 .invoke, .crash]

theorem sent_at_most_once_restarted :
    let σ := (exec (next oneBot twoAttempts) empty diesInFlight).get (by decide +kernel)
    let τ := (exec (next oneBot twoAttempts) σ
      [.recover (), .deliver 1 () 7, .resume () []]).get (by decide +kernel)
    (∀ d ∈ σ.settled, timesInvoked τ.invoked d = timesInvoked σ.invoked d) ∧
      (∀ r ∈ σ.rows, r.status ∈ terminalStatuses → r ∈ τ.rows) ∧
      ∀ d, timesInvoked τ.invoked d ≤ twoAttempts.maxAttempts () :=
  sent_at_most_once oneBot twoAttempts (Option.some_get _).symm (Option.some_get _).symm

end Kirara.OutboxOnce
