import Kirara.Confirmations

namespace Kirara.SessionStores

open Kirara.Channels Kirara.ChannelContexts Kirara.Confirmations Kirara.Fallible

section Operations

variable {ξ δ : Type} [DecidableEq δ]

def loadAt (st : Settings δ) (now : Text → Int) : StoreFile ξ δ → Except StoreError (Records ξ δ)
  | .absent => .ok (fun _ => none)
  | .invalid => .error .invalidStore
  | .items item => .ok (fun id => (item id).map (upgradeConfirmation st (now id)))

/-- `save_pending`: the file it writes. -/
def saveAt (st : Settings δ) (now : Text → Int) (saved : Int) (id sessionKey : Text) (correlationId : Option Text)
    (pendingCall : ξ) (file : StoreFile ξ δ) : Except StoreError (List (StoreFile ξ δ)) :=
  if id = [] then .error .idRequired
  else do
    let records ← loadAt st now file
    if (records id).isSome then .error .idExists
    else if correlationId.any (fun t => t = [] || 64 < t.length) then .error .invalidStore
    else .ok [writeConfirmations (Function.update records id (some
      { sessionDigest := st.digest sessionKey
        status := .awaitingConfirmation
        createdAt := saved
        updatedAt := saved
        expiresAt := saved + st.ttl
        correlationId := correlationId
        errorType := none
        pendingCall := pendingCall }))]

/-- The files it leaves one after another, and its answer. The clock is read twice. -/
def claimAt (st : Settings δ) (now : Text → Int) (check moved : Int) (freshId id sessionKey : Text)
    (file : StoreFile ξ δ) : Except StoreError (List (StoreFile ξ δ) × ClaimOutcome × Option (Confirmation ξ δ)) := do
  let records ← loadAt st now file
  match records id with
  | none => .ok ([], .notFound, none)
  | some c =>
    let (c, records, file) := backfill freshId id c records file
    if c.sessionDigest ≠ st.digest sessionKey then .ok ([file], .sessionMismatch, some c)
    else if c.status = .awaitingConfirmation ∧ isExpired c check then
      let c := transition c .expired (some "ConfirmationExpired".toList) moved
      .ok ([file, writeConfirmations (Function.update records id (some c))], .status .expired, some c)
    else if c.status ≠ .awaitingConfirmation then .ok ([file], .status c.status, some c)
    else
      let c := transition c .executing none moved
      .ok ([file, writeConfirmations (Function.update records id (some c))], .status .executing, some c)

/-- `complete_pending`. -/
def completeAt (st : Settings δ) (now : Text → Int) (moved : Int) (id : Text) (status : ConfirmationState)
    (errorType : Option Text) (file : StoreFile ξ δ) : Except StoreError (List (StoreFile ξ δ)) :=
  if status ∉ [.succeeded, .failed, .expired] then .error .invalidTerminalStatus
  else do
    let records ← loadAt st now file
    match records id with
    | none => .error .missing
    | some c =>
      if c.status = status then .ok []
      else if c.status ≠ .executing then .error .notExecuting
      else .ok [writeConfirmations (Function.update records id (some (transition c status errorType moved)))]

/-- `_ACTIVE_CONFIRMATION_STATES`. -/
def active (status : ConfirmationState) : Bool := status = .awaitingConfirmation || status = .executing

def deletePending (st : Settings δ) (now : Text → Int) (id : Text) (file : StoreFile ξ δ) :
    Except StoreError (List (StoreFile ξ δ)) := do
  let records ← loadAt st now file
  if (records id).any (fun c => active c.status) then .ok [writeConfirmations (Function.update records id none)]
  else .ok []

inductive Operation (ξ : Type) where
  | save (saved : Int) (id sessionKey : Text) (correlationId : Option Text) (pendingCall : ξ)
  | claim (check moved : Int) (freshId id sessionKey : Text)
  | complete (moved : Int) (id : Text) (status : ConfirmationState) (errorType : Option Text)
  | delete (id : Text)
  | load

def Operation.files (st : Settings δ) (now : Text → Int) (file : StoreFile ξ δ) : Operation ξ → Except StoreError (List (StoreFile ξ δ))
  | .save saved id sessionKey correlationId pendingCall => saveAt st now saved id sessionKey correlationId pendingCall file
  | .claim check moved freshId id sessionKey => (claimAt st now check moved freshId id sessionKey file).map Prod.fst
  | .complete moved id status errorType => completeAt st now moved id status errorType file
  | .delete id => deletePending st now id file
  | .load => .ok []

/-- One operation of an open store. It may end after any of its writes. -/
structure Step (ξ : Type) where
  ttl : Int
  ttl_pos : 0 < ttl
  now : Text → Int
  operation : Operation ξ
  writes : Nat

variable (digest : Text → δ)

def Step.after (step : Step ξ) (file : StoreFile ξ δ) : StoreFile ξ δ :=
  match step.operation.files ⟨digest, step.ttl, step.ttl_pos⟩ step.now file with
  | .ok files => (files.take step.writes).getLast?.getD file
  | .error _ => file

def run (file : StoreFile ξ δ) (steps : List (Step ξ)) : StoreFile ξ δ := steps.foldl (fun file step => step.after digest file) file

end Operations

section Items

variable {ξ δ : Type} (digest : Text → δ)

def storedItem (id : Text) : StoreFile ξ δ → Option (Item ξ δ)
  | .items item => item id
  | _ => none

def Item.status : Item ξ δ → ConfirmationState
  | .current c => c.status
  | .legacy _ _ _ => .awaitingConfirmation

def Item.sessionDigest : Item ξ δ → δ
  | .current c => c.sessionDigest
  | .legacy context _ _ => digest (joinScopes context)

/-- The expiry time, from the first time on that the record is saved with one. -/
def Item.expiry : Item ξ δ → Option Int
  | .current c => some c.expiresAt
  | .legacy _ _ _ => none

/-- A record goes on as the same one. -/
structure Carried (i j : Item ξ δ) : Prop where
  digest : Item.sessionDigest digest j = Item.sessionDigest digest i
  expiry : ∀ e ∈ Item.expiry i, Item.expiry j = some e

inductive Change (id : Text) (operation : Operation ξ) : Option (Item ξ δ) → Option (Item ξ δ) → Prop
  | absent : Change id operation none none
  | kept {i j : Item ξ δ} (carried : Carried digest i j) (same : Item.status j = Item.status i) :
      Change id operation (some i) (some j)
  | saved {j : Item ξ δ} (waits : Item.status j = .awaitingConfirmation) : Change id operation none (some j)
  | deleted {i : Item ξ δ} (h : operation = .delete id) (hactive : active (Item.status i) = true) :
      Change id operation (some i) none
  | executing {i j : Item ξ δ} {check moved : Int} {freshId sessionKey : Text}
      (h : operation = .claim check moved freshId id sessionKey) (owner : Item.sessionDigest digest i = digest sessionKey)
      (carried : Carried digest i j) (before : Item.status i = .awaitingConfirmation)
      (after : Item.status j = .executing) (inTime : ∃ e ∈ Item.expiry j, check < e) : Change id operation (some i) (some j)
  | expired {i j : Item ξ δ} {check moved : Int} {freshId sessionKey : Text}
      (h : operation = .claim check moved freshId id sessionKey) (owner : Item.sessionDigest digest i = digest sessionKey)
      (carried : Carried digest i j) (before : Item.status i = .awaitingConfirmation) (after : Item.status j = .expired) :
      Change id operation (some i) (some j)
  | completed {i j : Item ξ δ} {moved : Int} {status : ConfirmationState} {errorType : Option Text}
      (h : operation = .complete moved id status errorType) (carried : Carried digest i j)
      (before : Item.status i = .executing) (after : Item.status j ∈ [.succeeded, .failed, .expired]) :
      Change id operation (some i) (some j)

end Items

section Changes

variable {ξ δ : Type} {st : Settings δ} {now : Text → Int} {file f : StoreFile ξ δ} {records : Records ξ δ}
  {operation : Operation ξ} {id j : Text}

variable (digest : Text → δ)

theorem carried_refl (i : Item ξ δ) : Carried digest i i := ⟨rfl, fun _ h => h⟩

theorem load_item (h : loadAt st now file = .ok records) (id : Text) :
    records id = (storedItem id file).map (upgradeConfirmation st (now id)) := by
  cases file with
  | absent =>
    cases h
    rfl
  | invalid => cases h
  | items item =>
    cases h
    rfl

theorem storedItem_write (records : Records ξ δ) (id : Text) :
    storedItem id (writeConfirmations records) = (records id).map .current := rfl

theorem carried_upgrade (st : Settings δ) (t : Int) (i : Item ξ δ) :
    Carried st.digest i (.current (upgradeConfirmation st t i)) := by
  cases i with
  | current c => exact carried_refl _ _
  | legacy context correlationId call => exact ⟨rfl, fun e he => (nomatch he)⟩

theorem status_upgrade (st : Settings δ) (t : Int) (i : Item ξ δ) :
    (upgradeConfirmation st t i).status = Item.status i := by
  cases i <;> rfl

theorem change_rewritten (h : loadAt st now file = .ok records) (j : Text) :
    Change st.digest j operation (storedItem j file) ((records j).map .current) := by
  rw [load_item h]
  cases storedItem j file with
  | none => exact .absent
  | some i => exact .kept (carried_upgrade st (now j) i) (status_upgrade st (now j) i)

theorem change_refl (i : Option (Item ξ δ)) : Change digest j operation i i := by
  cases i with
  | none => exact .absent
  | some i => exact .kept (carried_refl _ _) rfl

theorem change_update (h : loadAt st now file = .ok records) {c : Option (Confirmation ξ δ)}
    (hid : Change st.digest id operation (storedItem id file) (c.map .current)) (j : Text) :
    Change st.digest j operation (storedItem j file)
      (storedItem j (writeConfirmations (Function.update records id c))) := by
  rw [storedItem_write]
  by_cases hj : j = id
  · rw [hj, Function.update_self]
    exact hid
  · rw [Function.update_of_ne hj]
    exact change_rewritten h j

variable {files : List (StoreFile ξ δ)}

theorem change_save {saved : Int} {key : Text} {correlationId : Option Text} {call : ξ}
    (h : saveAt st now saved id key correlationId call file = .ok files) (hf : f ∈ files) (j : Text) :
    Change st.digest j operation (storedItem j file) (storedItem j f) := by
  unfold saveAt at h
  split at h
  · cases h
  obtain ⟨records, hl, h⟩ := bind_eq_ok.mp h
  split at h
  · cases h
  next hnew =>
  split at h
  · cases h
  cases h
  rw [List.mem_singleton.mp hf]
  have hnone : storedItem id file = none := by
    have hrecord := load_item hl id
    cases hi : storedItem id file with
    | none => rfl
    | some i =>
      rw [hi] at hrecord
      rw [hrecord] at hnew
      exact absurd rfl hnew
  refine change_update hl ?_ j
  rw [hnone]
  exact .saved rfl

theorem change_complete {moved : Int} {status : ConfirmationState} {errorType : Option Text}
    (h : completeAt st now moved id status errorType file = .ok files) (hf : f ∈ files) (j : Text) :
    Change st.digest j (.complete moved id status errorType : Operation ξ) (storedItem j file) (storedItem j f) := by
  unfold completeAt at h
  split at h
  · cases h
  next hterminal =>
  obtain ⟨records, hl, h⟩ := bind_eq_ok.mp h
  have hrecord := load_item hl id
  split at h
  · cases h
  next c hc =>
  obtain ⟨i, hi, rfl⟩ := Option.map_eq_some_iff.mp (hrecord.symm.trans hc)
  split at h
  · cases h
    cases hf
  split at h
  · cases h
  next hexecuting =>
  cases h
  rw [List.mem_singleton.mp hf]
  have hcarried := carried_upgrade st (now id) i
  refine change_update hl ?_ j
  rw [hi]
  exact .completed rfl ⟨hcarried.digest, hcarried.expiry⟩ (status_upgrade st (now id) i ▸ not_not.mp hexecuting)
    (not_not.mp hterminal)

theorem change_delete (h : deletePending st now id file = .ok files) (hf : f ∈ files) (j : Text) :
    Change st.digest j (.delete id : Operation ξ) (storedItem j file) (storedItem j f) := by
  obtain ⟨records, hl, h⟩ := bind_eq_ok.mp h
  split at h
  · next hactive =>
    cases h
    rw [List.mem_singleton.mp hf]
    refine change_update hl ?_ j
    obtain ⟨c, hc, hactive⟩ := (Option.any_eq_true _ _).mp hactive
    obtain ⟨i, hi, rfl⟩ := Option.map_eq_some_iff.mp ((load_item hl id).symm.trans hc)
    rw [hi]
    exact .deleted rfl (status_upgrade st (now id) i ▸ hactive)
  · cases h
    cases hf

variable (operation) in
theorem backfill_item (hl : loadAt st now file = .ok records) {i : Item ξ δ} (hi : storedItem id file = some i) (freshId : Text) :
    let (c, records', file') := backfill freshId id (upgradeConfirmation st (now id) i) records file
    Carried st.digest i (.current c) ∧ c.status = Item.status i ∧
      (∀ j, Change st.digest j operation (storedItem j file) (storedItem j file')) ∧
      ∀ j ≠ id, records' j = records j := by
  have hcarried := carried_upgrade st (now id) i
  have hstatus := status_upgrade st (now id) i
  unfold backfill
  cases (upgradeConfirmation st (now id) i).correlationId with
  | some t => exact ⟨hcarried, hstatus, fun j => change_refl _ _, fun _ _ => rfl⟩
  | none =>
    refine ⟨⟨hcarried.digest, hcarried.expiry⟩, hstatus, change_update hl ?_, fun j hj => Function.update_of_ne hj _ _⟩
    rw [hi]
    exact .kept ⟨hcarried.digest, hcarried.expiry⟩ hstatus

variable [DecidableEq δ]

theorem change_claim {check moved : Int} {freshId key : Text}
    {r : List (StoreFile ξ δ) × ClaimOutcome × Option (Confirmation ξ δ)}
    (h : claimAt st now check moved freshId id key file = .ok r) (hf : f ∈ r.1) (j : Text) :
    Change st.digest j (.claim check moved freshId id key : Operation ξ) (storedItem j file) (storedItem j f) := by
  obtain ⟨records, hl, h⟩ := bind_eq_ok.mp h
  have hrecord := load_item hl id
  split at h
  · cases h
    cases hf
  next c hc =>
  obtain ⟨i, hi, rfl⟩ := Option.map_eq_some_iff.mp (hrecord.symm.trans hc)
  have hb := backfill_item (.claim check moved freshId id key) hl hi freshId
  cases hbf : backfill freshId id (upgradeConfirmation st (now id) i) records file with
  | mk c rest =>
  obtain ⟨records', file₁⟩ := rest
  rw [hbf] at hb h
  obtain ⟨hcarried, hstatus, hfirst, hothers⟩ := hb
  -- the file after the new state: the record has it, the others are as they were
  have hsecond {c' : Confirmation ξ δ} (hid : Change st.digest id (.claim check moved freshId id key : Operation ξ)
      (storedItem id file) (some (.current c'))) (j : Text) : Change st.digest j (.claim check moved freshId id key : Operation ξ)
        (storedItem j file) (storedItem j (writeConfirmations (Function.update records' id (some c')))) := by
    rw [storedItem_write]
    by_cases hj : j = id
    · rw [hj, Function.update_self]
      exact hid
    · rw [Function.update_of_ne hj, hothers j hj]
      exact change_rewritten hl j
  dsimp only at h
  split at h
  · cases h
    rw [List.mem_singleton.mp hf]
    exact hfirst j
  next hsession =>
  have howner : Item.sessionDigest st.digest i = st.digest key := hcarried.digest.symm.trans (not_not.mp hsession)
  split at h
  · next he =>
    cases h
    cases List.mem_cons.mp hf with
    | inl hf => exact hf ▸ hfirst j
    | inr hf =>
      rw [List.mem_singleton.mp hf]
      refine hsecond ?_ j
      rw [hi]
      exact .expired rfl howner ⟨hcarried.digest, hcarried.expiry⟩ (hstatus ▸ he.1) rfl
  next hwaits =>
  split at h
  · cases h
    rw [List.mem_singleton.mp hf]
    exact hfirst j
  next hs =>
  cases h
  cases List.mem_cons.mp hf with
  | inl hf => exact hf ▸ hfirst j
  | inr hf =>
    rw [List.mem_singleton.mp hf]
    refine hsecond ?_ j
    have hawaits := not_not.mp hs
    have hnot : ¬ isExpired c check = true := fun h => hwaits ⟨hawaits, h⟩
    have htime : check < c.expiresAt := by simpa [isExpired] using hnot
    rw [hi]
    exact .executing rfl howner ⟨hcarried.digest, hcarried.expiry⟩ (hstatus ▸ hawaits) rfl ⟨_, rfl, htime⟩

theorem change_of_files (h : operation.files st now file = .ok files) (hf : f ∈ files)
    (j : Text) : Change st.digest j operation (storedItem j file) (storedItem j f) := by
  cases operation with
  | save saved id key correlationId call => exact change_save h hf j
  | claim check moved freshId id key =>
    obtain ⟨r, hr, rfl⟩ := map_ok h
    exact change_claim hr hf j
  | complete moved id status errorType => exact change_complete h hf j
  | delete id => exact change_delete h hf j
  | load =>
    cases h
    cases hf

theorem change_step (step : Step ξ) (file : StoreFile ξ δ) (j : Text) :
    Change digest j step.operation (storedItem j file) (storedItem j (step.after digest file)) := by
  unfold Step.after
  split
  · next files h =>
    cases hlast : (files.take step.writes).getLast? with
    | none => exact change_refl _ _
    | some f => exact change_of_files h (List.mem_of_mem_take (List.mem_of_getLast? hlast)) j
  · exact change_refl _ _

end Changes

variable {ξ δ : Type} [DecidableEq δ] {digest : Text → δ} {file : StoreFile ξ δ} {steps : List (Step ξ)} {step : Step ξ}
  {id : Text}

inductive Moves : ConfirmationState → ConfirmationState → Prop
  | stays (s : ConfirmationState) : Moves s s
  | claimed : Moves .awaitingConfirmation .executing
  | lapsed : Moves .awaitingConfirmation .expired
  | ended {s : ConfirmationState} (h : s ∈ [.succeeded, .failed, .expired]) : Moves .executing s

def Alive (digest : Text → δ) (file : StoreFile ξ δ) (steps : List (Step ξ)) (id : Text) : Prop :=
  ∀ n, (storedItem id (run digest file (steps.take n))).isSome = true

/-- What holds of a record along a run and in the step that follows. -/
structure Kept (digest : Text → δ) (file : StoreFile ξ δ) (steps : List (Step ξ)) (step : Step ξ) (id : Text) : Prop where
  moves : ∀ i j, storedItem id (run digest file steps) = some i →
    storedItem id (run digest file (steps ++ [step])) = some j → Moves (Item.status i) (Item.status j)
  sessionDigest : ∀ i j, storedItem id (run digest file steps) = some i →
    storedItem id (run digest file (steps ++ [step])) = some j → Item.sessionDigest digest j = Item.sessionDigest digest i
  appears : ∀ j, storedItem id (run digest file steps) = none →
    storedItem id (run digest file (steps ++ [step])) = some j → Item.status j = .awaitingConfirmation
  vanishes : ∀ i, storedItem id (run digest file steps) = some i →
    storedItem id (run digest file (steps ++ [step])) = none → step.operation = .delete id ∧ active (Item.status i) = true
  terminal : ∀ i, storedItem id file = some i → active (Item.status i) = false →
    ∃ j, storedItem id (run digest file (steps ++ [step])) = some j ∧ Item.status j = Item.status i ∧
      Item.sessionDigest digest j = Item.sessionDigest digest i
  otherSession : ∀ check moved freshId sessionKey i, step.operation = .claim check moved freshId id sessionKey →
    storedItem id (run digest file steps) = some i → Item.sessionDigest digest i ≠ digest sessionKey →
    ∃ j, storedItem id (run digest file (steps ++ [step])) = some j ∧ Item.status j = Item.status i
  /-- The expiry time that counts is the one that was saved first. -/
  inTime : ∀ i j, storedItem id (run digest file steps) = some i →
    storedItem id (run digest file (steps ++ [step])) = some j → Item.status i = .awaitingConfirmation →
    Item.status j = .executing → ∃ check moved freshId sessionKey, step.operation = .claim check moved freshId id sessionKey ∧
      (∃ e ∈ Item.expiry j, check < e) ∧
      ∀ first e, storedItem id file = some first → e ∈ Item.expiry first → Alive digest file steps id → check < e

theorem run_snoc : run digest file (steps ++ [step]) = step.after digest (run digest file steps) := List.foldl_append

theorem alive_of_snoc (h : Alive digest file (steps ++ [step]) id) : Alive digest file steps id := by
  intro n
  by_cases hn : n ≤ steps.length
  · have htake := h n
    rwa [List.take_append_of_le_length hn] at htake
  · have htake := h steps.length
    rw [List.take_append_of_le_length le_rfl, List.take_length] at htake
    rwa [List.take_of_length_le (by omega)]

variable {i j : Item ξ δ}

theorem carried_step (hi : storedItem id file = some i) (hj : storedItem id (step.after digest file) = some j) :
    Carried digest i j := by
  have h := change_step digest step file id
  rw [hi, hj] at h
  cases h with
  | kept carried same => exact carried
  | executing h owner carried before after inTime => exact carried
  | expired h owner carried before after => exact carried
  | completed h carried before after => exact carried

theorem carried_run (halive : Alive digest file steps id) (hi : storedItem id file = some i)
    (hj : storedItem id (run digest file steps) = some j) : Carried digest i j := by
  induction steps using List.reverseRecOn generalizing j with
  | nil => exact Option.some.inj (hi.symm.trans hj) ▸ carried_refl digest i
  | append_singleton steps step ih =>
    have hbefore := alive_of_snoc halive
    have hthere := hbefore steps.length
    rw [List.take_length] at hthere
    obtain ⟨k, hk⟩ := Option.isSome_iff_exists.mp hthere
    have hfirst := ih hbefore hk
    rw [run_snoc] at hj
    have hlast := carried_step hk hj
    exact ⟨hlast.digest.trans hfirst.digest, fun e he => hlast.expiry e (hfirst.expiry e he)⟩

theorem terminal_step (digest : Text → δ) (step : Step ξ) {i : Item ξ δ} (hi : storedItem id file = some i) (hterminal : active (Item.status i) = false) :
    ∃ j, storedItem id (step.after digest file) = some j ∧ Item.status j = Item.status i ∧
      Item.sessionDigest digest j = Item.sessionDigest digest i := by
  have h := change_step digest step file id
  rw [hi] at h
  cases hj : storedItem id (step.after digest file) with
  | none =>
    rw [hj] at h
    cases h with
    | deleted h hactive => exact absurd (hactive.symm.trans hterminal) (by decide)
  | some j =>
    rw [hj] at h
    cases h with
    | kept carried same => exact ⟨j, rfl, same, carried.digest⟩
    | executing h owner carried before after inTime =>
      rw [before] at hterminal
      cases hterminal
    | expired h owner carried before after =>
      rw [before] at hterminal
      cases hterminal
    | completed h carried before after =>
      rw [before] at hterminal
      cases hterminal

theorem terminal_run {i : Item ξ δ} (hi : storedItem id file = some i) (hterminal : active (Item.status i) = false)
    (steps : List (Step ξ)) : ∃ j, storedItem id (run digest file steps) = some j ∧ Item.status j = Item.status i ∧
      Item.sessionDigest digest j = Item.sessionDigest digest i := by
  induction steps using List.reverseRecOn with
  | nil => exact ⟨i, hi, rfl, rfl⟩
  | append_singleton steps step ih =>
    obtain ⟨j, hj, hstatus, hdigest⟩ := ih
    obtain ⟨k, hk, hstatus', hdigest'⟩ := terminal_step digest step hj (hstatus ▸ hterminal)
    exact ⟨k, by rw [run_snoc, hk], hstatus'.trans hstatus, hdigest'.trans hdigest⟩

theorem moves_step (hi : storedItem id file = some i)
    (hj : storedItem id (step.after digest file) = some j) : Moves (Item.status i) (Item.status j) := by
  have h := change_step digest step file id
  rw [hi, hj] at h
  cases h with
  | kept carried same => exact same ▸ .stays _
  | executing h owner carried before after inTime => exact before ▸ after ▸ .claimed
  | expired h owner carried before after => exact before ▸ after ▸ .lapsed
  | completed h carried before after => exact before ▸ .ended after

/-- In every run on a stored file, whatever the clock reads and wherever an operation breaks
off, the confirmations keep to their states, sessions and expiry times. -/
theorem confirmations_kept (digest : Text → δ) (file : StoreFile ξ δ) (steps : List (Step ξ)) (step : Step ξ) (id : Text) :
    Kept digest file steps step id := by
  have h := change_step digest step (run digest file steps) id
  refine ⟨?_, ?_, ?_, ?_, ?_, ?_, ?_⟩
  · intro i j hi hj
    rw [run_snoc] at hj
    exact moves_step hi hj
  · intro i j hi hj
    rw [run_snoc] at hj
    exact (carried_step hi hj).digest
  · intro j hi hj
    rw [run_snoc] at hj
    rw [hi, hj] at h
    cases h with
    | saved waits => exact waits
  · intro i hi hj
    rw [run_snoc] at hj
    rw [hi, hj] at h
    cases h with
    | deleted h hactive => exact ⟨h, hactive⟩
  · intro i hi hterminal
    exact terminal_run hi hterminal (steps ++ [step])
  · intro check moved freshId sessionKey i hop hi hother
    rw [run_snoc]
    rw [hi, hop] at h
    cases hj : storedItem id (step.after digest (run digest file steps)) with
    | none =>
      rw [hj] at h
      cases h with
      | deleted h hactive => cases h
    | some j =>
      rw [hj] at h
      cases h with
      | kept carried same => exact ⟨j, rfl, same⟩
      | executing h owner carried before after inTime =>
        cases h
        exact absurd owner hother
      | expired h owner carried before after =>
        cases h
        exact absurd owner hother
      | completed h carried before after => cases h
  · intro i j hi hj hawaits hexecuting
    rw [run_snoc] at hj
    rw [hi, hj] at h
    cases h with
    | kept carried same =>
      rw [same, hawaits] at hexecuting
      cases hexecuting
    | executing hop owner carried before after inTime =>
      obtain ⟨e, he, hcheck⟩ := inTime
      refine ⟨_, _, _, _, hop, ⟨e, he, hcheck⟩, fun first e' hfirst he' halive => ?_⟩
      have hkept := carried.expiry e' ((carried_run halive hfirst hi).expiry e' he')
      rw [he] at hkept
      exact Option.some.inj hkept ▸ hcheck
    | expired hop owner carried before after =>
      rw [after] at hexecuting
      cases hexecuting
    | completed hop carried before after =>
      rw [hawaits] at before
      cases before

end Kirara.SessionStores
