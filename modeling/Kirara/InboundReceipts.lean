import Kirara.Channels
import Kirara.Dicts

namespace Kirara.InboundReceipts

open Kirara.Channels Kirara.Dicts

inductive ReceiptStatus where
  | processing
  | retryable
  | completed
  deriving DecidableEq

structure InboundReceipt where
  chatKey : Text
  payloadJson : Option Text
  status : ReceiptStatus
  deriving DecidableEq

structure ReceiptKey where
  channel : Text
  adapterInstance : Text
  eventKey : Text
  deriving DecidableEq

abbrev Table := Dict ReceiptKey InboundReceipt

inductive ReceiptError where
  | channelRequired
  | adapterInstanceRequired
  | eventKeyInvalid
  | notSerializable
  | database
  deriving DecidableEq

structure InboundReceiptService where
  channel : Text
  adapterInstance : Text
  deriving DecidableEq

def construct (channel adapterInstance : Text) : Except ReceiptError InboundReceiptService :=
  if strip channel = [] then .error .channelRequired
  else if strip adapterInstance = [] then .error .adapterInstanceRequired
  else
    .ok ⟨(strip channel).take 32, (strip adapterInstance).take 128⟩

def maxEventKeyLength : Nat := 128

def maxChatKeyLength : Nat := 256

/-- The argument is what `str` makes of the event key, empty for a missing one. -/
def normalizeEventKey (eventKey : Text) : Except ReceiptError Text :=
  let value := strip eventKey
  if value = [] ∨ maxEventKeyLength < value.length then .error .eventKeyInvalid else .ok value

inductive Payload where
  | absent
  | json (text : Text)
  | notSerializable
  deriving DecidableEq

def Payload.encode : Payload → Except ReceiptError (Option Text)
  | .absent => .ok none
  | .json text => .ok (some text)
  | .notSerializable => .error .notSerializable

/-- Where the database raises during a call. -/
inductive Fault where
  | query
  | commit
  deriving DecidableEq

def commit {α : Type} (fault : Option Fault) (old new : Table) (value : α) : Except ReceiptError α × Table :=
  if fault = some .commit then (.error .database, old) else (.ok value, new)

namespace InboundReceiptService

variable (s : InboundReceiptService) (fault : Option Fault) (t : Table)

def key (eventKey : Text) : ReceiptKey := ⟨s.channel, s.adapterInstance, eventKey⟩

def owns (k : ReceiptKey) : Bool := k.channel = s.channel ∧ k.adapterInstance = s.adapterInstance

/-- What every call does first, under the lock of the service. -/
def lookup {α : Type} (eventKey : Text) (body : ReceiptKey → Option InboundReceipt → Except ReceiptError α × Table) :
    Except ReceiptError α × Table :=
  match normalizeEventKey eventKey with
  | .error e => (.error e, t)
  | .ok value =>
    if fault = some .query then (.error .database, t) else body (s.key value) (t.get (s.key value))

def claim (eventKey chatKey : Text) (payload : Payload) : Except ReceiptError Bool × Table :=
  s.lookup fault t eventKey fun k existing =>
    if existing.any (fun item => item.status ≠ .retryable) then (.ok false, t)
    else
      match payload.encode with
      | .error e => (.error e, t)
      | .ok encoded =>
        -- A claim without a payload keeps the one of the claim before.
        let payloadJson := encoded.or (existing.bind InboundReceipt.payloadJson)
        commit fault t (t.set k ⟨chatKey.take maxChatKeyLength, payloadJson, .processing⟩) true

def complete (eventKey : Text) : Except ReceiptError Unit × Table :=
  s.lookup fault t eventKey fun k existing =>
    match existing with
    | none => (.ok (), t)
    | some item => commit fault t (t.set k { item with payloadJson := none, status := .completed }) ()

def retry (eventKey : Text) : Except ReceiptError Unit × Table :=
  s.lookup fault t eventKey fun k existing =>
    match existing with
    | none => (.ok (), t)
    | some item =>
      if item.status = .completed then (.ok (), t)
      else commit fault t (t.set k { item with status := .retryable }) ()

def interrupted (k : ReceiptKey) (item : InboundReceipt) : Bool := s.owns k ∧ item.status = .processing

def recoverOnStartup : Except ReceiptError Nat × Table :=
  if fault = some .query then (.error .database, t)
  else
    commit fault t (t.mapEntries (fun k item => if s.interrupted k item then { item with status := .retryable } else item))
      (t.entries.countP (fun e => s.interrupted e.1 e.2))

end InboundReceiptService

variable {s : InboundReceiptService} {fault : Option Fault} {t u : Table} {eventKey : Text}

theorem commit_cases {α : Type} {new : Table} {value : α} {r : Except ReceiptError α}
    (h : commit fault t new value = (r, u)) :
    (r = .error .database ∧ u = t) ∨ fault ≠ some .commit ∧ r = .ok value ∧ u = new := by
  unfold commit at h
  split at h
  · cases h
    exact .inl ⟨rfl, rfl⟩
  · next hf =>
    cases h
    exact .inr ⟨hf, rfl, rfl⟩

theorem lookup_cases {α : Type} {body : ReceiptKey → Option InboundReceipt → Except ReceiptError α × Table}
    {r : Except ReceiptError α} (h : s.lookup fault t eventKey body = (r, u)) :
    ((∃ e, r = .error e) ∧ u = t) ∨ ∃ value, normalizeEventKey eventKey = .ok value ∧ fault ≠ some .query ∧
      body (s.key value) (t.get (s.key value)) = (r, u) := by
  unfold InboundReceiptService.lookup at h
  split at h
  · cases h
    exact .inl ⟨⟨_, rfl⟩, rfl⟩
  · next value hv =>
    split at h
    · cases h
      exact .inl ⟨⟨_, rfl⟩, rfl⟩
    · next hf => exact .inr ⟨value, hv, hf, h⟩

theorem claim_cases {chatKey : Text} {payload : Payload} {r : Except ReceiptError Bool}
    (h : s.claim fault t eventKey chatKey payload = (r, u)) :
    (r ≠ .ok true ∧ u = t) ∨ ∃ value row, normalizeEventKey eventKey = .ok value ∧ r = .ok true ∧
      (∀ item, t.get (s.key value) = some item → item.status = .retryable) ∧
      row.status = .processing ∧ u = t.set (s.key value) row := by
  cases lookup_cases h with
  | inl h =>
    obtain ⟨⟨e, rfl⟩, rfl⟩ := h
    exact .inl ⟨by rintro ⟨⟩, rfl⟩
  | inr h =>
    obtain ⟨value, hv, -, h⟩ := h
    split at h
    · cases h
      exact .inl ⟨by rintro ⟨⟩, rfl⟩
    · next hopen =>
      split at h
      · cases h
        exact .inl ⟨by rintro ⟨⟩, rfl⟩
      · cases commit_cases h with
        | inl h =>
          obtain ⟨rfl, rfl⟩ := h
          exact .inl ⟨by rintro ⟨⟩, rfl⟩
        | inr h =>
          obtain ⟨-, rfl, rfl⟩ := h
          refine .inr ⟨value, _, hv, rfl, fun item hitem => ?_, rfl, rfl⟩
          simpa [hitem] using hopen

variable {r : Except ReceiptError Unit}

theorem complete_cases (h : s.complete fault t eventKey = (r, u)) :
    u = t ∨ ∃ value item, normalizeEventKey eventKey = .ok value ∧ t.get (s.key value) = some item ∧
      u = t.set (s.key value) { item with payloadJson := none, status := .completed } := by
  cases lookup_cases h with
  | inl h => exact .inl h.2
  | inr h =>
    obtain ⟨value, hv, -, h⟩ := h
    split at h
    · cases h
      exact .inl rfl
    · next item hitem =>
      cases commit_cases h with
      | inl h => exact .inl h.2
      | inr h => exact .inr ⟨value, item, hv, hitem, h.2.2⟩

theorem retry_cases (h : s.retry fault t eventKey = (r, u)) :
    u = t ∨ ∃ value item, fault = none ∧ normalizeEventKey eventKey = .ok value ∧
      t.get (s.key value) = some item ∧ item.status ≠ .completed ∧
      u = t.set (s.key value) { item with status := .retryable } := by
  cases lookup_cases h with
  | inl h => exact .inl h.2
  | inr h =>
    obtain ⟨value, hv, hquery, h⟩ := h
    split at h
    · cases h
      exact .inl rfl
    · next item hitem =>
      split at h
      · cases h
        exact .inl rfl
      · next hs =>
        cases commit_cases h with
        | inl h => exact .inl h.2
        | inr h =>
          obtain ⟨hcommit, -, hu⟩ := h
          have hnone : fault = none := by
            cases fault with
            | none => rfl
            | some f => cases f <;> contradiction
          exact .inr ⟨value, item, hnone, hv, hitem, hs, hu⟩

theorem recover_cases {r : Except ReceiptError Nat} (h : s.recoverOnStartup fault t = (r, u)) :
    ((∃ e, r = .error e) ∧ u = t) ∨ (∃ n, r = .ok n) ∧
      ∀ k, u.get k = (t.get k).map fun item => if s.interrupted k item then { item with status := .retryable } else item := by
  unfold InboundReceiptService.recoverOnStartup at h
  split at h
  · cases h
    exact .inl ⟨⟨_, rfl⟩, rfl⟩
  · cases commit_cases h with
    | inl h => exact .inl ⟨⟨_, h.1⟩, h.2⟩
    | inr h =>
      obtain ⟨-, hr, rfl⟩ := h
      exact .inr ⟨⟨_, hr⟩, fun k => Dict.get_mapEntries⟩

end Kirara.InboundReceipts
