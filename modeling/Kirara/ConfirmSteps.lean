import Kirara.Confirmations
import Kirara.Schedules

namespace Kirara.ConfirmRuns

open Kirara.Channels Kirara.Confirmations

variable {κ π ξ δ : Type} [DecidableEq κ] [DecidableEq π] [DecidableEq δ]

/-- An exception: the name of its type and the text that is reported of it. -/
structure Raised where
  errorType : String
  message : String
  deriving DecidableEq, Repr

/-- Where one call of `confirm` stands. -/
inductive Phase (ξ δ : Type) where
  | owner (c : Confirmation ξ δ)
  | authorizing (call : ξ)
  | executing
  | resuming
  | failing (error : Raised)
  | returned (error : Option Raised)
  | gone

def Phase.beforeTool : Phase ξ δ → Bool
  | .owner _ => true
  | .authorizing _ => true
  | _ => false

structure Caller (π ξ δ : Type) where
  process : π
  confirmationId : Text
  phase : Phase ξ δ

/-- A caller was told that it owns the execution; `found` is the state before. -/
structure Ownership (κ : Type) where
  caller : κ
  confirmationId : Text
  found : Option ConfirmationState

structure Handover (κ ξ : Type) where
  caller : κ
  confirmationId : Text
  call : ξ

/-- Any number of processes on one store. The two lists are records only. -/
structure System (κ π ξ δ : Type) where
  file : StoreFile ξ δ
  pending : π → Text → Option ξ
  callers : κ → Option (Caller π ξ δ)
  owners : List (Ownership κ)
  handed : List (Handover κ ξ)

/-- The checks between the claim and the tool call. -/
inductive Verdict (ξ : Type) where
  | principalMismatch
  | bindingChanged
  | hookDenied
  | invalidHookInput (message : String)
  | raised (error : Raised)
  | proceed (call : ξ)

inductive ToolOutcome where
  | result (isError : Bool)
  | raised (error : Raised)

inductive Step (κ π ξ : Type) where
  | suspend (p : π) (id sessionKey : Text) (correlationId : Option Text) (call : ξ)
      (refused : Option Raised) (now : Int)
  | claim (k : κ) (p : π) (id sessionKey freshId : Text) (now : Int)
  | fetch (k : κ) (restore refused : Option Raised) (now : Int)
  | authorize (k : κ) (verdict : Verdict ξ) (refused : Option Raised) (now : Int)
  | finish (k : κ) (outcome : ToolOutcome) (refused : Option Raised) (now : Int)
  | resume (k : κ) (raised : Option Raised)
  | fail (k : κ) (refused : Option Raised) (now : Int)
  | cancel (k : κ)
  | restart (p : π)

def claimFailure : ClaimOutcome → Raised
  | .notFound => ⟨"ConfirmationNotFound", "confirmation is missing or expired"⟩
  | .sessionMismatch =>
    ⟨"ConfirmationSessionMismatch", "confirmation belongs to a different session"⟩
  | .status .executing => ⟨"ConfirmationInProgress", "confirmation is already executing"⟩
  | .status .succeeded => ⟨"ConfirmationAlreadyProcessed", "confirmation was already processed"⟩
  | .status .failed => ⟨"ConfirmationAlreadyProcessed", "confirmation was already processed"⟩
  | .status .expired => ⟨"ConfirmationExpired", "confirmation has expired"⟩
  | .status .awaitingConfirmation => ⟨"ConfirmationUnavailable", "confirmation is unavailable"⟩

/-- How a call that is turned down is completed, and with which error it returns. -/
def Verdict.refusal : Verdict ξ → Option (ConfirmationState × Raised)
  | .principalMismatch =>
    some (.failed, ⟨"ConfirmationPrincipalMismatch", "confirmation principal or Agent owner changed"⟩)
  | .bindingChanged =>
    some (.expired, ⟨"ConfirmationExpired", "Agent or MCP binding changed before confirmation"⟩)
  | .hookDenied => some (.failed, ⟨"AgentHookDenied", "tool call was denied by Agent Hook"⟩)
  | .invalidHookInput message => some (.failed, ⟨"InvalidHookToolInput", message⟩)
  | .raised _ => none
  | .proceed _ => none

def storeRaised : StoreError → Raised
  | .missing => ⟨"LookupError", StoreError.missing.message⟩
  | e => ⟨"ValueError", e.message⟩

/-- `complete_pending` as `confirm` calls it. -/
def complete (st : Settings δ) (now : Int) (refused : Option Raised) (id : Text)
    (status : ConfirmationState) (errorType : Option String) (file : StoreFile ξ δ) :
    Except Raised (StoreFile ξ δ) :=
  match completePending st now id status (errorType.map String.toList) file, refused with
  | .error e, _ => .error (storeRaised e)
  | .ok _, some e => .error e
  | .ok file, none => .ok file

def System.setPhase (s : System κ π ξ δ) (k : κ) (c : Caller π ξ δ) (phase : Phase ξ δ) :
    System κ π ξ δ :=
  { s with callers := Function.update s.callers k (some { c with phase := phase }) }

def suspend (st : Settings δ) (s : System κ π ξ δ) (p : π) (id sessionKey : Text)
    (correlationId : Option Text) (call : ξ) (refused : Option Raised) (now : Int) :
    System κ π ξ δ :=
  let pending := Function.update s.pending p (Function.update (s.pending p) id (some call))
  match savePending st now id sessionKey correlationId call s.file, refused with
  | .ok file, none => { s with pending := pending, file := file }
  | _, _ => { s with pending := pending }

def claim (st : Settings δ) (s : System κ π ξ δ) (k : κ) (p : π) (id sessionKey freshId : Text)
    (now : Int) : System κ π ξ δ :=
  match claimPending st now freshId id sessionKey s.file with
  | .ok (.status .executing, some c, file) =>
    { s.setPhase k ⟨p, id, .gone⟩ (.owner c) with
      file := file
      owners := ⟨k, id, storedStatus s.file id⟩ :: s.owners }
  | .ok (outcome, _, file) =>
    { s.setPhase k ⟨p, id, .gone⟩ (.returned (some (claimFailure outcome))) with file := file }
  | .error _ => s.setPhase k ⟨p, id, .gone⟩ .gone

def fetch (st : Settings δ) (s : System κ π ξ δ) (k : κ) (c : Caller π ξ δ)
    (record : Confirmation ξ δ) (restore refused : Option Raised) (now : Int) : System κ π ξ δ :=
  let popped := { s with
    pending := Function.update s.pending c.process
      (Function.update (s.pending c.process) c.confirmationId none) }
  match s.pending c.process c.confirmationId, restore with
  | some call, _ => popped.setPhase k c (.authorizing call)
  | none, none => popped.setPhase k c (.authorizing record.pendingCall)
  | none, some e =>
    match complete st now refused c.confirmationId .failed (some "InvalidConfirmationRecord")
      s.file with
    | .error _ => popped.setPhase k c .gone
    | .ok file => { popped.setPhase k c (.returned (some e)) with file := file }

def authorize (st : Settings δ) (s : System κ π ξ δ) (k : κ) (c : Caller π ξ δ)
    (verdict : Verdict ξ) (refused : Option Raised) (now : Int) : System κ π ξ δ :=
  match verdict with
  | .proceed call =>
    { s.setPhase k c .executing with handed := ⟨k, c.confirmationId, call⟩ :: s.handed }
  | .raised e => s.setPhase k c (.failing e)
  | verdict =>
    match verdict.refusal with
    | none => s
    | some (status, error) =>
      match complete st now refused c.confirmationId status (some error.errorType) s.file with
      | .error e => s.setPhase k c (.failing e)
      | .ok file => { s.setPhase k c (.returned (some error)) with file := file }

def finish (st : Settings δ) (s : System κ π ξ δ) (k : κ) (c : Caller π ξ δ)
    (outcome : ToolOutcome) (refused : Option Raised) (now : Int) : System κ π ξ δ :=
  match outcome with
  | .raised e => s.setPhase k c (.failing e)
  | .result isError =>
    match complete st now refused c.confirmationId (if isError then .failed else .succeeded)
      (if isError then some "ToolExecutionFailed" else none) s.file with
    | .error e => s.setPhase k c (.failing e)
    | .ok file => { s.setPhase k c .resuming with file := file }

/-- The handler of every exception: a record still in execution is completed. -/
def failConfirm (st : Settings δ) (s : System κ π ξ δ) (k : κ) (c : Caller π ξ δ) (e : Raised)
    (refused : Option Raised) (now : Int) : System κ π ξ δ :=
  match getConfirmation st now c.confirmationId s.file with
  | .error _ => s.setPhase k c .gone
  | .ok record =>
    if record.any (fun r => r.status = .executing) then
      match complete st now refused c.confirmationId .failed (some e.errorType) s.file with
      | .error _ => s.setPhase k c .gone
      | .ok file => { s.setPhase k c (.returned (some e)) with file := file }
    else s.setPhase k c (.returned (some e))

def next (st : Settings δ) (s : System κ π ξ δ) : Step κ π ξ → Option (System κ π ξ δ)
  | .suspend p id sessionKey correlationId call refused now =>
    some (suspend st s p id sessionKey correlationId call refused now)
  | .claim k p id sessionKey freshId now =>
    if (s.callers k).isSome then none else some (claim st s k p id sessionKey freshId now)
  | .fetch k restore refused now =>
    match s.callers k with
    | some ⟨p, id, .owner r⟩ => some (fetch st s k ⟨p, id, .owner r⟩ r restore refused now)
    | _ => none
  | .authorize k verdict refused now =>
    match s.callers k with
    | some ⟨p, id, .authorizing call⟩ =>
      some (authorize st s k ⟨p, id, .authorizing call⟩ verdict refused now)
    | _ => none
  | .finish k outcome refused now =>
    match s.callers k with
    | some ⟨p, id, .executing⟩ => some (finish st s k ⟨p, id, .executing⟩ outcome refused now)
    | _ => none
  | .resume k raised =>
    match s.callers k with
    | some ⟨p, id, .resuming⟩ =>
      some (s.setPhase k ⟨p, id, .resuming⟩ (raised.elim (.returned none) .failing))
    | _ => none
  | .fail k refused now =>
    match s.callers k with
    | some ⟨p, id, .failing e⟩ => some (failConfirm st s k ⟨p, id, .failing e⟩ e refused now)
    | _ => none
  | .cancel k =>
    match s.callers k with
    | some c => some (s.setPhase k c .gone)
    | none => none
  | .restart p =>
    some { s with
      pending := Function.update s.pending p (fun _ => none)
      callers := fun k => (s.callers k).map
        (fun c => if c.process = p then { c with phase := .gone } else c) }

def start (file : StoreFile ξ δ) (pending : π → Text → Option ξ) : System κ π ξ δ :=
  ⟨file, pending, fun _ => none, [], []⟩

end Kirara.ConfirmRuns

namespace Kirara.ConfirmSteps

open Kirara.Channels Kirara.Confirmations Kirara.ConfirmRuns

variable {κ π ξ δ : Type} {st : Settings δ} {s t : System κ π ξ δ} {k : κ} {c : Caller π ξ δ}
  {id : Text}

/-- What was claimed stays claimed, and nobody new gets ahead of the tool call. -/
structure Advances (s t : System κ π ξ δ) : Prop where
  owners : t.owners = s.owners
  handed : t.handed = s.handed
  claimed : ∀ j, Claimed s.file j → Claimed t.file j
  before : ∀ k c', t.callers k = some c' → c'.phase.beforeTool = true →
    ∃ c, s.callers k = some c ∧ c.confirmationId = c'.confirmationId ∧ c.phase.beforeTool = true
  callers : ∀ k, (s.callers k).isSome = true → (t.callers k).isSome = true

/-- `k` becomes an owner of `id`. -/
structure Claims (st : Settings δ) (s t : System κ π ξ δ) (k : κ) (id sessionKey : Text) :
    Prop where
  fresh : s.callers k = none
  owners : t.owners = ⟨k, id, storedStatus s.file id⟩ :: s.owners
  handed : t.handed = s.handed
  claimed : ∀ j, Claimed s.file j → Claimed t.file j
  executing : Claimed t.file id
  found : storedStatus s.file id = some .awaitingConfirmation ∨
    storedStatus s.file id = some .executing ∧ FoundExecuting st s.file id sessionKey
  others : ∀ k' ≠ k, t.callers k' = s.callers k'
  caller : ∃ c, t.callers k = some c ∧ c.confirmationId = id

/-- `k` hands the call of `id` to the tools. -/
structure Hands (s t : System κ π ξ δ) (k : κ) (id : Text) : Prop where
  owners : t.owners = s.owners
  handed : ∃ call, t.handed = ⟨k, id, call⟩ :: s.handed
  claimed : ∀ j, Claimed s.file j → Claimed t.file j
  caller : ∃ c, s.callers k = some c ∧ c.confirmationId = id ∧ c.phase.beforeTool = true
  after : ∃ c, t.callers k = some c ∧ c.phase.beforeTool = false
  others : ∀ k' ≠ k, t.callers k' = s.callers k'

variable {file file' : StoreFile ξ δ}

theorem claimed_congr {j : Text}
    (h : storedStatus file' j = storedStatus file j) (hj : Claimed file j) : Claimed file' j := by
  obtain ⟨s, hs, hne⟩ := hj
  exact ⟨s, h.trans hs, hne⟩

theorem claimed_savePending {now : Int} {key : Text} {correlationId : Option Text} {call : ξ}
    (h : savePending st now id key correlationId call file = .ok file') (j : Text)
    (hj : Claimed file j) : Claimed file' j := by
  cases savePending_status h j with
  | inl he => exact claimed_congr he hj
  | inr hn =>
    obtain ⟨s, hs, -⟩ := hj
    rw [hn.1] at hs
    cases hs

theorem claimed_complete {now : Int} {refused : Option Raised} {status : ConfirmationState}
    {errorType : Option String} (h : complete st now refused id status errorType file = .ok file') (j : Text)
    (hj : Claimed file j) : Claimed file' j := by
  unfold complete at h
  split at h
  · cases h
  · cases h
  next hc =>
  cases h
  obtain he | ⟨-, hs, hne⟩ := completePending_status hc j
  · exact claimed_congr he hj
  · exact ⟨status, hs, hne⟩

variable {file : StoreFile ξ δ}

theorem storedStatus_of_foundExecuting {key : Text}
    (h : FoundExecuting st file id key) : storedStatus file id = some .executing := by
  obtain ⟨item, c, rfl, hi, -, hs⟩ := h
  simp [storedStatus, hi, hs]

theorem claimed_claimPending [DecidableEq δ] {now : Int} {freshId key : Text}
    {o : ClaimOutcome} {r : Option (Confirmation ξ δ)}
    (h : claimPending st now freshId id key file = .ok (o, r, file')) (j : Text)
    (hj : Claimed file j) : Claimed file' j := by
  obtain ⟨-, hk⟩ | ⟨-, -, he, hk, -⟩ := claimPending_cases h
  · cases hk j with
    | inl he => exact claimed_congr he hj
    | inr he =>
      obtain ⟨s, hs, hne⟩ := hj
      rw [he.1, Option.some.injEq] at hs
      exact absurd hs.symm hne
  · by_cases hji : j = id
    · rw [hji]
      exact ⟨.executing, he, by decide⟩
    · exact claimed_congr (hk j hji) hj

variable {pending : π → Text → Option ξ}

theorem advances_idle (hfile : ∀ j, Claimed s.file j → Claimed file j) :
    Advances s ⟨file, pending, s.callers, s.owners, s.handed⟩ :=
  ⟨rfl, rfl, hfile, fun _ c' hc' hb => ⟨c', hc', rfl, hb⟩, fun _ hk => hk⟩

section Calls

variable [DecidableEq κ]

theorem advances_of {phase : Phase ξ δ} (hfile : ∀ j, Claimed s.file j → Claimed file j)
    (hphase : phase.beforeTool = true → ∃ c₀, s.callers k = some c₀ ∧
      c₀.confirmationId = c.confirmationId ∧ c₀.phase.beforeTool = true) :
    Advances s ⟨file, pending, Function.update s.callers k (some { c with phase := phase }),
      s.owners, s.handed⟩ := by
  refine ⟨rfl, rfl, hfile, fun k' c' hc' hb => ?_, fun k' hk' => ?_⟩
  · dsimp only at hc'
    by_cases hk : k' = k
    · subst hk
      rw [Function.update_self, Option.some.injEq] at hc'
      subst hc'
      exact hphase hb
    · rw [Function.update_of_ne hk] at hc'
      exact ⟨c', hc', rfl, hb⟩
  · dsimp only
    by_cases hk : k' = k
    · rw [hk, Function.update_self]
      rfl
    · rwa [Function.update_of_ne hk]

theorem advances_past {phase : Phase ξ δ}
    (hfile : ∀ j, Claimed s.file j → Claimed file j) (hphase : phase.beforeTool = false) :
    Advances s ⟨file, pending, Function.update s.callers k (some { c with phase := phase }),
      s.owners, s.handed⟩ :=
  advances_of hfile (fun h => by rw [hphase] at h; cases h)

theorem authorize_steps (st : Settings δ) (hk : s.callers k = some c) (hb : c.phase.beforeTool = true)
    (verdict : Verdict ξ) (refused : Option Raised) (now : Int) :
    Hands s (authorize st s k c verdict refused now) k c.confirmationId ∨
      Advances s (authorize st s k c verdict refused now) := by
  unfold authorize
  split
  · next call =>
    exact Or.inl ⟨rfl, ⟨call, rfl⟩, fun _ hj => hj, ⟨c, hk, rfl, hb⟩,
      ⟨_, Function.update_self _ _ _, rfl⟩, fun k' hk' => Function.update_of_ne hk' _ _⟩
  · exact Or.inr (advances_past (fun _ hj => hj) rfl)
  split
  · exact Or.inr (advances_idle (fun _ hj => hj))
  split
  · exact Or.inr (advances_past (fun _ hj => hj) rfl)
  · next hc => exact Or.inr (advances_past (claimed_complete hc) rfl)

theorem finish_advances (outcome : ToolOutcome) (refused : Option Raised) (now : Int) :
    Advances s (finish st s k c outcome refused now) := by
  unfold finish
  split
  · exact advances_past (fun _ hj => hj) rfl
  split
  · exact advances_past (fun _ hj => hj) rfl
  · next hc => exact advances_past (claimed_complete hc) rfl

theorem failConfirm_advances (e : Raised) (refused : Option Raised) (now : Int) :
    Advances s (failConfirm st s k c e refused now) := by
  unfold failConfirm
  split
  · exact advances_past (fun _ hj => hj) rfl
  split
  · split
    · exact advances_past (fun _ hj => hj) rfl
    · next hc => exact advances_past (claimed_complete hc) rfl
  · exact advances_past (fun _ hj => hj) rfl

theorem claim_steps [DecidableEq δ] (hk : s.callers k = none) (p : π) (key freshId : Text) (now : Int) :
    Claims st s (claim st s k p id key freshId now) k id key ∨
      Advances s (claim st s k p id key freshId now) := by
  unfold claim
  split
  · next c file hc =>
    obtain ⟨hne, -⟩ | ⟨-, -, he, -, hf⟩ := claimPending_cases hc
    · exact absurd rfl hne
    refine Or.inl ⟨hk, rfl, rfl, claimed_claimPending hc, ⟨.executing, he, by decide⟩, ?_,
      fun k' hk' => Function.update_of_ne hk' _ _, ⟨_, Function.update_self _ _ _, rfl⟩⟩
    cases hf with
    | inl hw => exact Or.inl hw
    | inr hx => exact Or.inr ⟨storedStatus_of_foundExecuting hx, hx⟩
  · next outcome r file _ hc =>
    exact Or.inr (advances_past (claimed_claimPending hc) rfl)
  · exact Or.inr (advances_past (fun _ hj => hj) rfl)

variable [DecidableEq π]

theorem fetch_advances (hk : s.callers k = some c) (hb : c.phase.beforeTool = true)
    (r : Confirmation ξ δ) (restore refused : Option Raised) (now : Int) :
    Advances s (fetch st s k c r restore refused now) := by
  unfold fetch
  dsimp only
  split
  · exact advances_of (fun _ hj => hj) (fun _ => ⟨c, hk, rfl, hb⟩)
  · exact advances_of (fun _ hj => hj) (fun _ => ⟨c, hk, rfl, hb⟩)
  split
  · exact advances_past (fun _ hj => hj) rfl
  · next hc => exact advances_past (claimed_complete hc) rfl

end Calls

variable [DecidableEq π]

theorem suspend_advances (p : π) (key : Text) (correlationId : Option Text) (call : ξ)
    (refused : Option Raised) (now : Int) :
    Advances s (suspend st s p id key correlationId call refused now) := by
  unfold suspend
  dsimp only
  split
  · next hs => exact advances_idle (claimed_savePending hs)
  · exact advances_idle (fun _ hj => hj)

theorem restart_advances (p : π) : Advances s { s with
      pending := Function.update s.pending p (fun _ => none)
      callers := fun k => (s.callers k).map
        (fun c => if c.process = p then { c with phase := .gone } else c) } := by
  refine ⟨rfl, rfl, fun _ hj => hj, fun k c' hc' hb => ?_, fun k hk => by simpa using hk⟩
  obtain ⟨c, hc, rfl⟩ := Option.map_eq_some_iff.mp hc'
  by_cases hp : c.process = p
  · rw [if_pos hp] at hb
    cases hb
  · rw [if_neg hp] at hb ⊢
    exact ⟨c, hc, rfl, hb⟩

theorem next_cases [DecidableEq κ] [DecidableEq δ] {l : Step κ π ξ} (h : next st s l = some t) :
    (∃ k p id sessionKey freshId now, l = .claim k p id sessionKey freshId now ∧
      Claims st s t k id sessionKey) ∨
    (∃ k id, Hands s t k id) ∨ Advances s t := by
  cases l with
  | suspend p id key correlationId call refused now =>
    cases h
    exact Or.inr (Or.inr (suspend_advances p key correlationId call refused now))
  | claim k p id key freshId now =>
    simp only [next] at h
    split at h
    · cases h
    next hk =>
    cases h
    have hnone : s.callers k = none := by simpa using hk
    cases claim_steps hnone p key freshId now with
    | inl hc => exact Or.inl ⟨k, p, id, key, freshId, now, rfl, hc⟩
    | inr ha => exact Or.inr (Or.inr ha)
  | fetch k restore refused now =>
    simp only [next] at h
    split at h
    · next p id r hk =>
      cases h
      exact Or.inr (Or.inr (fetch_advances hk rfl r restore refused now))
    · cases h
  | authorize k verdict refused now =>
    simp only [next] at h
    split at h
    · next p id call hk =>
      cases h
      cases authorize_steps st hk rfl verdict refused now with
      | inl hh => exact Or.inr (Or.inl ⟨k, id, hh⟩)
      | inr ha => exact Or.inr (Or.inr ha)
    · cases h
  | finish k outcome refused now =>
    simp only [next] at h
    split at h
    · cases h
      exact Or.inr (Or.inr (finish_advances outcome refused now))
    · cases h
  | resume k raised =>
    simp only [next] at h
    split at h
    · cases h
      refine Or.inr (Or.inr (advances_past (fun _ hj => hj) ?_))
      cases raised <;> rfl
    · cases h
  | fail k refused now =>
    simp only [next] at h
    split at h
    · cases h
      exact Or.inr (Or.inr (failConfirm_advances _ refused now))
    · cases h
  | cancel k =>
    simp only [next] at h
    split at h
    · cases h
      exact Or.inr (Or.inr (advances_past (fun _ hj => hj) rfl))
    · cases h
  | restart p =>
    cases h
    exact Or.inr (Or.inr (restart_advances p))

end Kirara.ConfirmSteps
