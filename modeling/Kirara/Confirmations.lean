import Kirara.ChannelContexts
import Kirara.Fallible

namespace Kirara.Confirmations

open Kirara.Channels Kirara.ChannelContexts Kirara.Fallible

inductive ConfirmationState where
  | awaitingConfirmation
  | executing
  | succeeded
  | failed
  | expired
  deriving DecidableEq, Repr

inductive StoreError where
  | idRequired
  | idExists
  | invalidStore
  | invalidTerminalStatus
  | missing
  | notExecuting
  deriving DecidableEq, Repr

def StoreError.message : StoreError → String
  | .idRequired => "pending confirmation ID is required"
  | .idExists => "pending confirmation ID already exists"
  | .invalidStore => "pending confirmation store format is invalid"
  | .invalidTerminalStatus => "confirmation terminal status is invalid"
  | .missing => "confirmation is missing"
  | .notExecuting => "confirmation is not executing"

variable {ξ δ : Type}

/-- A validated confirmation. `pendingCall` stands for all else the runtime restores. -/
structure Confirmation (ξ δ : Type) where
  sessionDigest : δ
  status : ConfirmationState
  createdAt : Int
  updatedAt : Int
  expiresAt : Int
  correlationId : Option Text
  errorType : Option Text
  pendingCall : ξ

/-- An item of the stored list. An old one has fields in place of a digest. -/
inductive Item (ξ δ : Type) where
  | current (c : Confirmation ξ δ)
  | legacy (context : List Text) (correlationId : Option Text) (pendingCall : ξ)

/-- `pending.json` by confirmation id. An unreadable item fails every operation. -/
inductive StoreFile (ξ δ : Type) where
  | absent
  | invalid
  | items (item : Text → Option (Item ξ δ))

structure Settings (δ : Type) where
  digest : Text → δ
  ttl : Int
  ttl_pos : 0 < ttl

abbrev Records (ξ δ : Type) := Text → Option (Confirmation ξ δ)

def upgradeConfirmation (st : Settings δ) (now : Int) : Item ξ δ → Confirmation ξ δ
  | .current c => c
  | .legacy context correlationId pendingCall =>
    { sessionDigest := st.digest (joinScopes context)
      status := .awaitingConfirmation
      createdAt := now
      updatedAt := now
      expiresAt := now + st.ttl
      correlationId := correlationId
      errorType := none
      pendingCall := pendingCall }

def loadConfirmationPayload (st : Settings δ) (now : Int) :
    StoreFile ξ δ → Except StoreError (Records ξ δ)
  | .absent => .ok (fun _ => none)
  | .invalid => .error .invalidStore
  | .items item => .ok (fun id => (item id).map (upgradeConfirmation st now))

def writeConfirmations (records : Records ξ δ) : StoreFile ξ δ :=
  .items (fun id => (records id).map .current)

def transition (c : Confirmation ξ δ) (status : ConfirmationState) (errorType : Option Text)
    (now : Int) : Confirmation ξ δ :=
  { c with
    status := status
    updatedAt := now
    errorType := (errorType.filter (fun t => t ≠ [])).map (List.take 128) }

def isExpired (c : Confirmation ξ δ) (now : Int) : Bool := c.expiresAt ≤ now

def savePending (st : Settings δ) (now : Int) (id sessionKey : Text) (correlationId : Option Text)
    (pendingCall : ξ) (file : StoreFile ξ δ) : Except StoreError (StoreFile ξ δ) :=
  if id = [] then .error .idRequired
  else do
    let records ← loadConfirmationPayload st now file
    if (records id).isSome then .error .idExists
    else .ok (writeConfirmations (Function.update records id (some
      { sessionDigest := st.digest sessionKey
        status := .awaitingConfirmation
        createdAt := now
        updatedAt := now
        expiresAt := now + st.ttl
        correlationId := correlationId
        errorType := none
        pendingCall := pendingCall })))

inductive ClaimOutcome where
  | notFound
  | sessionMismatch
  | status (s : ConfirmationState)
  deriving DecidableEq, Repr

/-- Fill in the correlation id that an old record lacks, and write it back at once. -/
def backfill (freshId id : Text) (c : Confirmation ξ δ) (records : Records ξ δ)
    (file : StoreFile ξ δ) : Confirmation ξ δ × Records ξ δ × StoreFile ξ δ :=
  match c.correlationId with
  | some _ => (c, records, file)
  | none =>
    let c := { c with correlationId := some freshId }
    let records := Function.update records id (some c)
    (c, records, writeConfirmations records)

/-- `claim_pending`: the outcome, the record as the caller gets it and the file. -/
def claimPending [DecidableEq δ] (st : Settings δ) (now : Int) (freshId id sessionKey : Text)
    (file : StoreFile ξ δ) :
    Except StoreError (ClaimOutcome × Option (Confirmation ξ δ) × StoreFile ξ δ) := do
  let records ← loadConfirmationPayload st now file
  match records id with
  | none => .ok (.notFound, none, file)
  | some c =>
    let (c, records, file) := backfill freshId id c records file
    if c.sessionDigest ≠ st.digest sessionKey then .ok (.sessionMismatch, some c, file)
    else if c.status = .awaitingConfirmation ∧ isExpired c now then
      let c := transition c .expired (some "ConfirmationExpired".toList) now
      .ok (.status .expired, some c, writeConfirmations (Function.update records id (some c)))
    else if c.status ≠ .awaitingConfirmation then .ok (.status c.status, some c, file)
    else
      let c := transition c .executing none now
      .ok (.status .executing, some c, writeConfirmations (Function.update records id (some c)))

def completePending (st : Settings δ) (now : Int) (id : Text) (status : ConfirmationState)
    (errorType : Option Text) (file : StoreFile ξ δ) : Except StoreError (StoreFile ξ δ) :=
  if status ∉ [.succeeded, .failed, .expired] then .error .invalidTerminalStatus
  else do
    let records ← loadConfirmationPayload st now file
    match records id with
    | none => .error .missing
    | some c =>
      if c.status = status then .ok file
      else if c.status ≠ .executing then .error .notExecuting
      else .ok (writeConfirmations
        (Function.update records id (some (transition c status errorType now))))

def getConfirmation (st : Settings δ) (now : Int) (id : Text) (file : StoreFile ξ δ) :
    Except StoreError (Option (Confirmation ξ δ)) := do
  let records ← loadConfirmationPayload st now file
  .ok (records id)

def storedStatus (file : StoreFile ξ δ) (id : Text) : Option ConfirmationState :=
  match file with
  | .items item =>
    (item id).map (fun i =>
      match i with
      | .current c => c.status
      | .legacy _ _ _ => .awaitingConfirmation)
  | _ => none

/-- The record has left the state a confirmation waits in. -/
def Claimed (file : StoreFile ξ δ) (id : Text) : Prop :=
  ∃ s, storedStatus file id = some s ∧ s ≠ .awaitingConfirmation

/-- The session finds its own record in execution already. -/
def FoundExecuting (st : Settings δ) (file : StoreFile ξ δ) (id sessionKey : Text) : Prop :=
  ∃ item c, file = .items item ∧ item id = some (.current c) ∧
    c.sessionDigest = st.digest sessionKey ∧ c.status = .executing

variable {st : Settings δ} {now : Int} {id : Text} {file file' : StoreFile ξ δ}
  {records : Records ξ δ}

theorem storedStatus_of_load (h : loadConfirmationPayload st now file = .ok records) (j : Text) :
    storedStatus file j = (records j).map Confirmation.status := by
  cases file with
  | absent =>
    cases h
    rfl
  | invalid => cases h
  | items item =>
    cases h
    cases hi : item j with
    | none => simp [storedStatus, hi]
    | some i => cases i <;> simp [storedStatus, hi, upgradeConfirmation]

theorem foundExecuting_of_load (h : loadConfirmationPayload st now file = .ok records)
    {c : Confirmation ξ δ} (hc : records id = some c) {sessionKey : Text}
    (hd : c.sessionDigest = st.digest sessionKey) (hs : c.status = .executing) :
    FoundExecuting st file id sessionKey := by
  cases file with
  | absent =>
    cases h
    cases hc
  | invalid => cases h
  | items item =>
    cases h
    obtain ⟨i, hi, rfl⟩ := Option.map_eq_some_iff.mp hc
    cases i with
    | current c => exact ⟨item, c, rfl, hi, hd, hs⟩
    | legacy context correlationId call => cases hs

@[simp] theorem storedStatus_write (records : Records ξ δ) (j : Text) :
    storedStatus (writeConfirmations records) j = (records j).map Confirmation.status := by
  cases h : records j <;> simp [storedStatus, writeConfirmations, h]

theorem storedStatus_update (h : loadConfirmationPayload st now file = .ok records)
    (c : Confirmation ξ δ) (j : Text) :
    storedStatus (writeConfirmations (Function.update records id (some c))) j =
      if j = id then some c.status else storedStatus file j := by
  rw [storedStatus_write, storedStatus_of_load h, Function.update_apply]
  split <;> rfl

theorem savePending_status {key : Text} {correlationId : Option Text} {call : ξ}
    (h : savePending st now id key correlationId call file = .ok file') (j : Text) :
    storedStatus file' j = storedStatus file j ∨
      storedStatus file j = none ∧ storedStatus file' j = some .awaitingConfirmation := by
  unfold savePending at h
  split at h
  · cases h
  obtain ⟨records, hl, h⟩ := bind_eq_ok.mp h
  split at h
  · cases h
  next hn =>
  cases h
  rw [storedStatus_update hl]
  by_cases hj : j = id
  · rw [if_pos hj, hj, storedStatus_of_load hl]
    exact Or.inr ⟨by simpa using hn, rfl⟩
  · rw [if_neg hj]
    exact Or.inl rfl

theorem completePending_status {status : ConfirmationState} {errorType : Option Text}
    (h : completePending st now id status errorType file = .ok file') (j : Text) :
    storedStatus file' j = storedStatus file j ∨
      storedStatus file j = some .executing ∧ storedStatus file' j = some status ∧
        status ≠ .awaitingConfirmation := by
  unfold completePending at h
  split at h
  · cases h
  next ht =>
  obtain ⟨records, hl, h⟩ := bind_eq_ok.mp h
  split at h
  · cases h
  next c hc =>
  split at h
  · cases h
    exact Or.inl rfl
  split at h
  · cases h
  next he =>
  cases h
  rw [storedStatus_update hl]
  by_cases hj : j = id
  · rw [if_pos hj, hj, storedStatus_of_load hl, hc]
    refine Or.inr ⟨by simpa using he, rfl, ?_⟩
    rintro rfl
    simp at ht
  · rw [if_neg hj]
    exact Or.inl rfl

theorem backfill_spec (hl : loadConfirmationPayload st now file = .ok records)
    {c : Confirmation ξ δ} (hc : records id = some c) (freshId : Text) :
    let (c', records', file') := backfill freshId id c records file
    c'.status = c.status ∧ c'.sessionDigest = c.sessionDigest ∧
      loadConfirmationPayload st now file' = .ok records' ∧ records' id = some c' ∧
      ∀ j, storedStatus file' j = storedStatus file j := by
  unfold backfill
  cases hf : c.correlationId with
  | some t => exact ⟨rfl, rfl, hl, hc, fun _ => rfl⟩
  | none =>
    refine ⟨rfl, rfl, ?_, by simp, fun j => ?_⟩
    · simp only [loadConfirmationPayload, writeConfirmations, Option.map_map]
      congr 1
      funext j
      cases Function.update records id _ j <;> rfl
    · rw [storedStatus_update hl]
      by_cases hj : j = id
      · rw [if_pos hj, hj, storedStatus_of_load hl, hc]
        rfl
      · rw [if_neg hj]

theorem claimPending_cases [DecidableEq δ] {freshId key : Text} {o : ClaimOutcome}
    {r : Option (Confirmation ξ δ)} (h : claimPending st now freshId id key file = .ok (o, r, file')) :
    (o ≠ .status .executing ∧ ∀ j, storedStatus file' j = storedStatus file j ∨
      storedStatus file j = some .awaitingConfirmation ∧ storedStatus file' j = some .expired) ∨
    (o = .status .executing ∧ r.isSome = true ∧ storedStatus file' id = some .executing ∧
      (∀ j ≠ id, storedStatus file' j = storedStatus file j) ∧
      (storedStatus file id = some .awaitingConfirmation ∨ FoundExecuting st file id key)) := by
  obtain ⟨records, hl, h⟩ := bind_eq_ok.mp h
  split at h
  · cases h
    exact Or.inl ⟨by simp, fun j => Or.inl rfl⟩
  next c hc =>
  have hb := backfill_spec hl hc freshId
  cases hbf : backfill freshId id c records file with
  | mk c' rest =>
  obtain ⟨records', file₁⟩ := rest
  rw [hbf] at hb h
  obtain ⟨hs, hd, hl', hc', hst⟩ := hb
  dsimp only at h
  split at h
  · cases h
    exact Or.inl ⟨by simp, fun j => Or.inl (hst j)⟩
  next hsession =>
  have hid : storedStatus file id = some c.status := by rw [storedStatus_of_load hl, hc]; rfl
  split at h
  · next he =>
    cases h
    refine Or.inl ⟨by simp, fun j => ?_⟩
    rw [storedStatus_update hl']
    by_cases hj : j = id
    · rw [if_pos hj, hj, hid, ← hs, he.1]
      exact Or.inr ⟨rfl, rfl⟩
    · rw [if_neg hj]
      exact Or.inl (hst j)
  split at h
  · next ha =>
    cases h
    by_cases hx : c'.status = .executing
    · refine Or.inr ⟨by rw [hx], rfl, ?_, fun j _ => hst j, Or.inr ?_⟩
      · rw [hst, hid, ← hs, hx]
      · exact foundExecuting_of_load hl hc (hd ▸ not_not.mp hsession) (hs ▸ hx)
    · exact Or.inl ⟨by simpa using hx, fun j => Or.inl (hst j)⟩
  · next ha =>
    cases h
    refine Or.inr ⟨rfl, rfl, ?_, fun j hj => ?_, Or.inl ?_⟩
    · rw [storedStatus_update hl', if_pos rfl]
      rfl
    · rw [storedStatus_update hl', if_neg hj, hst]
    · rw [hid, ← hs, not_not.mp ha]

end Kirara.Confirmations
