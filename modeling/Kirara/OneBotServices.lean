import Kirara.OutboxRuns

namespace Kirara.OneBotServices

open Kirara.Rosters Kirara.Outboxes Kirara.OutboxInvariants Kirara.OutboxRuns Kirara.Schedules

variable {ι δ ρ S : Type} [DecidableEq ι] [DecidableEq δ] [LinearOrder ρ] [DecidableEq S]

/-- Only the service that queued a delivery sends it, once at a time. -/
structure NoCrossTalk (σ : Outbox ι δ ρ S) : Prop where
  ownSender : ∀ q ∈ σ.invoked, ∀ r ∈ σ.rows, r.deliveryId = q.2 → r.adapterInstance = q.1
  single : ∀ q ∈ σ.tasks, ∀ q' ∈ σ.tasks, ∀ d n n', q.2.phase = .inFlight d n →
    q'.2.phase = .inFlight d n' → q = q'
  notMarked : ∀ q ∈ σ.tasks, ∀ d n, q.2.phase = .inFlight d n → ∀ r ∈ σ.rows,
    r.deliveryId = d → r.status ≠ .ambiguous

instance (σ : Outbox ι δ ρ S) : DecidablePred (Orderly σ)
  | .act t .look => inferInstanceAs (Decidable (∀ x ∈ lookup t σ.tasks,
      ∀ r ∈ selected σ.rows x.target x.recipientKey, r.adapterInstance = x.service))
  | .recover s => inferInstanceAs (Decidable (∀ q ∈ σ.tasks, q.2.phase.attempt ≠ none → q.2.service = s))
  | .enqueue _ _ _ | .deliver _ _ _ | .resume _ _ | .acquire _ | .leave _ | .crash
  | .act _ (.check _) | .act _ .wake | .act _ .claim | .act _ .invoke | .act _ (.reply _)
  | .act _ (.mark _) | .act _ .writeFails | .act _ .cancel => inferInstanceAs (Decidable True)

theorem noCrossTalk_of_sound {limits : Limits S} {σ : Outbox ι δ ρ S} (h : Sound limits σ) : NoCrossTalk σ where
  ownSender q hq r hr hid := by
    obtain ⟨r', hr', hid', hinst⟩ := h.invoked q hq
    rw [eq_of_id h hr hr' (hid.trans hid'.symm)]
    exact hinst
  single q hq q' hq' d n n' hp hp' := by
    apply eq_of_row h hq hq'
    · rw [hp]
      rfl
    · rw [hp']
      rfl
  notMarked q hq d n hp r hr hid := by
    obtain ⟨r', hr', hid', -, -, hm⟩ := (h.fits q hq).row d (by rw [hp]; rfl)
    rw [hp] at hm
    rw [eq_of_id h hr hr' (hid.trans hid'.symm), hm.1]
    exact Status.noConfusion

/-- Services on one table do not get in each other's way as long as each picks rows of its own,
and starts while no other has a send under way. -/
theorem no_cross_talk {limits : Limits S} {as : List (Label ι δ ρ S)} {σ : Outbox ι δ ρ S}
    (hok : Along (next oneBot limits) Orderly empty as)
    (h : exec (next oneBot limits) empty as = some σ) : NoCrossTalk σ :=
  noCrossTalk_of_sound (sound_exec hok h)

def threeAttempts : Limits Bool := ⟨fun _ => 3, fun _ => by decide⟩

/-- The first send of a call of `deliver` up to the reply. -/
def firstSend (t : ℕ) : List (Label ℕ ℕ ℕ Bool) :=
  [.acquire t, .act t .look, .act t (.check false), .act t .claim, .act t .invoke]

def startAndQueue : List (Label ℕ ℕ ℕ Bool) :=
  [.recover false, .enqueue false 7 1, .deliver 0 false 7]

theorem no_cross_talk_ownRecipients : NoCrossTalk ((exec (next oneBot threeAttempts) empty
      ([.recover true] ++ startAndQueue ++ [.enqueue true 8 2, .deliver 1 true 8] ++ firstSend 0 ++
        firstSend 1)).get (by decide +kernel)) :=
  no_cross_talk (by decide +kernel) (Option.some_get _).symm

/-- While the service of a row waits to try again, another is told to resume, and sends it. -/
def otherResumes : List (Label ℕ ℕ ℕ Bool) :=
  [.recover true] ++ startAndQueue ++ firstSend 0 ++ [.act 0 (.reply .retryableError),
    .act 0 (.mark false), .act 0 (.check true), .resume true [1], .acquire 1, .act 1 .look,
    .act 1 (.check true), .act 1 .wake, .act 1 .claim, .act 1 .invoke, .act 0 .wake, .act 0 .claim,
    .act 0 .invoke]

/-- While the send of one service is running, another one starts. -/
def otherStarts : List (Label ℕ ℕ ℕ Bool) := startAndQueue ++ firstSend 0 ++ [.recover true]

theorem services_interfere : (∃ σ, exec (next oneBot threeAttempts) empty otherResumes = some σ ∧
      σ.invoked = [(false, 7), (true, 7), (false, 7)] ∧
      σ.rows.map (fun r => (r.deliveryId, r.adapterInstance)) = [(7, false)] ∧
      σ.tasks.map (fun q => (q.1, q.2.phase)) = [(1, .inFlight 7 2), (0, .inFlight 7 3)] ∧
      ¬ NoCrossTalk σ) ∧
    ∃ σ, exec (next oneBot threeAttempts) empty otherStarts = some σ ∧
      σ.rows.map (fun r => (r.deliveryId, r.status)) = [(7, .ambiguous)] ∧
      σ.tasks.map (fun q => (q.1, q.2.phase)) = [(0, .inFlight 7 1)] ∧ ¬ NoCrossTalk σ := by
  constructor
  · have hrun : (exec (next oneBot threeAttempts) empty otherResumes).map (fun σ => (σ.invoked,
        σ.rows.map (fun r => (r.deliveryId, r.adapterInstance)),
        σ.tasks.map (fun q => (q.1, q.2.phase)))) = some ([(false, 7), (true, 7), (false, 7)],
          [(7, false)], [(1, .inFlight 7 2), (0, .inFlight 7 3)]) := by decide +kernel
    obtain ⟨σ, hexec, hσ⟩ := Option.map_eq_some_iff.mp hrun
    simp only [Prod.mk.injEq] at hσ
    obtain ⟨hinvoked, hrows, htasks⟩ := hσ
    refine ⟨σ, hexec, hinvoked, hrows, htasks, fun h => ?_⟩
    have hmem : (7, false) ∈ σ.rows.map (fun r => (r.deliveryId, r.adapterInstance)) := by
      rw [hrows]
      exact List.mem_singleton_self _
    obtain ⟨r, hr, hrow⟩ := List.mem_map.mp hmem
    rw [Prod.mk.injEq] at hrow
    have hown := h.ownSender (true, 7) (by rw [hinvoked]; decide) r hr hrow.1
    rw [hrow.2] at hown
    cases hown
  · have hrun : (exec (next oneBot threeAttempts) empty otherStarts).map (fun σ =>
        (σ.rows.map (fun r => (r.deliveryId, r.status)),
        σ.tasks.map (fun q => (q.1, q.2.phase)))) = some ([(7, .ambiguous)],
          [(0, .inFlight 7 1)]) := by decide +kernel
    obtain ⟨σ, hexec, hσ⟩ := Option.map_eq_some_iff.mp hrun
    rw [Prod.mk.injEq] at hσ
    obtain ⟨hrows, htasks⟩ := hσ
    refine ⟨σ, hexec, hrows, htasks, fun h => ?_⟩
    have hmem : (7, Status.ambiguous) ∈ σ.rows.map (fun r => (r.deliveryId, r.status)) := by
      rw [hrows]
      exact List.mem_singleton_self _
    obtain ⟨r, hr, hrow⟩ := List.mem_map.mp hmem
    have htask : (0, Phase.inFlight 7 1) ∈ σ.tasks.map (fun q => (q.1, q.2.phase)) := by
      rw [htasks]
      exact List.mem_singleton_self _
    obtain ⟨q, hq, hphase⟩ := List.mem_map.mp htask
    rw [Prod.mk.injEq] at hrow hphase
    exact h.notMarked q hq 7 1 hphase.2 r hr hrow.1 hrow.2

end Kirara.OneBotServices
