import Kirara.Channels
import Kirara.Schedules

namespace Kirara.QQBotDeliveries

open Kirara.Channels Kirara.Schedules

inductive Status where
  | queued | uploading | uploaded | sending | accepted | retryWait | ambiguous | deadLetter
  deriving DecidableEq

def terminalStatuses : List Status := [.accepted, .ambiguous, .deadLetter]

def pendingStatuses : List Status := [.queued, .retryWait, .uploaded]

inductive Phase where
  | upload | send
  deriving DecidableEq

def Phase.status : Phase → Status
  | .upload => .uploading
  | .send => .sending

/-- What comes of a call of the QQ API. -/
inductive Outcome where
  | answered
  /-- No result, a timeout or a broken connection. -/
  | unknown
  /-- `QQBotRetryableError`. -/
  | refused
  | cancelled
  | failed
  /-- Nothing is written: the process stops, or the table cannot be written. -/
  | lost
  deriving DecidableEq

/-- A row of the table, with its calls that are known to be over. -/
structure Delivery where
  deliveryId : Text
  hasMedia : Bool
  mediaUploaded : Bool
  status : Status
  attemptCount : Nat
  uploadAttemptCount : Nat
  calls : List (Phase × Outcome)
  deriving DecidableEq

structure Service where
  maxAttempts : Nat
  hasUploader : Bool
  positive : 1 ≤ maxAttempts

def Delivery.count (d : Delivery) : Phase → Nat
  | .upload => d.uploadAttemptCount
  | .send => d.attemptCount

def nextPhase (d : Delivery) : Phase := if d.hasMedia && !d.mediaUploaded then .upload else .send

/-- The part of `_deliver_one` before the call, which is committed first. -/
def startAttempt (d : Delivery) : Delivery :=
  match nextPhase d with
  | .upload => { d with status := .uploading, uploadAttemptCount := d.uploadAttemptCount + 1 }
  | .send => { d with status := .sending, attemptCount := d.attemptCount + 1 }

def Delivery.called (d : Delivery) (phase : Phase) (o : Outcome) (status : Status) : Delivery :=
  { d with status := status, calls := d.calls ++ [(phase, o)] }

/-- The part of `_deliver_one` after the call. -/
def finishAttempt (S : Service) (phase : Phase) (o : Outcome) (d : Delivery) : Delivery :=
  match o, phase with
  | .answered, .upload => { d.called phase o .uploaded with mediaUploaded := true }
  | .answered, .send => d.called phase o .accepted
  | .unknown, .upload | .cancelled, .upload => d.called phase o .queued
  | .unknown, .send | .cancelled, .send => d.called phase o .ambiguous
  | .refused, _ => d.called phase o (if S.maxAttempts ≤ d.count phase then .deadLetter else .retryWait)
  | .failed, _ => d.called phase o .deadLetter
  | .lost, _ => d

/-- What `recover_on_startup` does to a row. -/
def recover (d : Delivery) : Delivery :=
  match d.status with
  | .sending => d.called .send .lost .ambiguous
  | .uploading => d.called .upload .lost .queued
  | _ => d

/-- The task that has the lock of the recipient, and the call it waits for. -/
structure Run where
  target : Text
  current : Text
  calling : Option Phase

structure Outbox where
  rows : List Delivery
  running : Option Run

/-- The row that `_deliver_recipient_through` turns to. -/
def nextDelivery (target : Text) (rows : List Delivery) : Option Text :=
  match rows.find? (fun d => d.deliveryId = target) with
  | none => none
  | some t =>
    let earlier := rows.takeWhile (fun d => d.deliveryId ≠ target)
    if t.status ∈ terminalStatuses then none
    else if (earlier.find? (fun d => d.status ≠ .accepted)).any (fun b => b.status ∈ [.ambiguous, .deadLetter]) then none
    else ((earlier ++ [t]).find? (fun d => d.status ∈ pendingStatuses)).map Delivery.deliveryId

def turnTo (target : Text) (rows : List Delivery) : Option Run :=
  (nextDelivery target rows).map (fun id => ⟨target, id, none⟩)

def modify (id : Text) (f : Delivery → Delivery) (rows : List Delivery) : List Delivery :=
  rows.map (fun d => if d.deliveryId = id then f d else d)

/-- What follows the writing of a row: another attempt, the next row, or nothing. -/
def proceed (target current : Text) (rows : List Delivery) : Option Run :=
  match (rows.find? (fun d => d.deliveryId = current)).map Delivery.status with
  | some .uploaded | some .retryWait => some ⟨target, current, none⟩
  | some .accepted => turnTo target rows
  | _ => none

inductive Event where
  | enqueue (deliveryId : Text) (hasMedia : Bool)
  | deliver (target : Text)
  | attempt
  /-- The task ends between two attempts. -/
  | abandon
  | outcome (o : Outcome)
  | restart

def newDelivery (deliveryId : Text) (hasMedia : Bool) : Delivery := ⟨deliveryId, hasMedia, false, .queued, 0, 0, []⟩

def next (S : Service) (u : Outbox) : Event → Option Outbox
  | .enqueue deliveryId hasMedia =>
    some (if deliveryId ∈ u.rows.map Delivery.deliveryId then u
      else { u with rows := u.rows ++ [newDelivery deliveryId hasMedia] })
  | .deliver target =>
    match u.running with
    | some _ => none
    | none => some { u with running := turnTo target u.rows }
  | .attempt =>
    match u.running with
    | some ⟨target, current, none⟩ =>
      match u.rows.find? (fun d => d.deliveryId = current) with
      | none => none
      | some d =>
        if d.status ∈ terminalStatuses then some { u with running := proceed target current u.rows }
        else if nextPhase d = .upload ∧ !S.hasUploader then
          some ⟨modify current (fun d => { startAttempt d with status := .deadLetter }) u.rows, none⟩
        else some ⟨modify current startAttempt u.rows, some ⟨target, current, some (nextPhase d)⟩⟩
    | _ => none
  | .abandon =>
    match u.running with
    | some ⟨_, _, none⟩ => some { u with running := none }
    | _ => none
  | .outcome o =>
    match u.running with
    | some ⟨target, current, some phase⟩ =>
      let rows := modify current (finishAttempt S phase o) u.rows
      some ⟨rows, proceed target current rows⟩
    | _ => none
  | .restart => some ⟨u.rows.map recover, none⟩

variable {S : Service} {d : Delivery} {u v : Outbox} {rows : List Delivery} {target id : Text}

def Delivery.made (d : Delivery) (phase : Phase) : Nat := d.calls.countP (fun c => c.1 = phase)

def openOutcomes : List Outcome := [.unknown, .cancelled, .lost]

def Delivery.openUploads (d : Delivery) : Nat := d.calls.countP (fun c => c.1 = .upload && c.2 ∈ openOutcomes)

/-- The calls that were made, also the one that is not over. -/
def Delivery.attempts (d : Delivery) (phase : Phase) : Nat := d.made phase + if d.status = phase.status then 1 else 0

/-- Calls are counted before they are made, and a row that waits has one left. -/
structure Kept (S : Service) (d : Delivery) : Prop where
  counted : ∀ phase, d.attempts phase ≤ d.count phase
  sends : d.attemptCount ≤ S.maxAttempts
  sendLeft : d.status ∈ .uploading :: pendingStatuses → d.attemptCount < S.maxAttempts
  uploads : d.uploadAttemptCount ≤ S.maxAttempts + d.openUploads
  uploadLeft : d.status ∈ .sending :: pendingStatuses → d.mediaUploaded = false →
    d.uploadAttemptCount < S.maxAttempts + d.openUploads

theorem kept_new (S : Service) (id : Text) (hasMedia : Bool) : Kept S (newDelivery id hasMedia) where
  counted phase := by cases phase <;> simp [newDelivery, Delivery.attempts, Delivery.made, Delivery.count, Phase.status]
  sends := Nat.zero_le _
  sendLeft _ := S.positive
  uploads := Nat.zero_le _
  uploadLeft _ _ := Nat.lt_of_lt_of_le S.positive (Nat.le_add_right _ _)

theorem Kept.made_le (h : Kept S d) (phase : Phase) : d.made phase ≤ d.count phase :=
  (Nat.le_add_right _ _).trans (h.counted phase)

theorem kept_startAttempt (h : Kept S d) (hd : d.status ∈ pendingStatuses) : Kept S (startAttempt d) := by
  have hleft := h.sendLeft (List.mem_cons_of_mem _ hd)
  have hsends := h.made_le .send
  have huploads := h.made_le .upload
  unfold startAttempt
  cases hphase : nextPhase d with
  | upload =>
    have hmedia : d.mediaUploaded = false := by
      by_contra hm
      simp [nextPhase, Bool.not_eq_false _ ▸ hm] at hphase
    refine ⟨fun phase => ?_, h.sends, fun _ => hleft,
      h.uploadLeft (List.mem_cons_of_mem _ hd) hmedia,
      fun hs => absurd (show Status.uploading ∈ .sending :: pendingStatuses from hs) (by decide)⟩
    cases phase with
    | upload => exact Nat.succ_le_succ huploads
    | send => exact hsends
  | send =>
    refine ⟨fun phase => ?_, hleft,
      fun hs => absurd (show Status.sending ∈ .uploading :: pendingStatuses from hs) (by decide), h.uploads,
      fun _ => h.uploadLeft (List.mem_cons_of_mem _ hd)⟩
    cases phase with
    | upload => exact huploads
    | send => exact Nat.succ_le_succ hsends

theorem made_called (d : Delivery) (p phase : Phase) (o : Outcome) (s : Status) :
    (d.called p o s).made phase = d.made phase + if p = phase then 1 else 0 := by
  simp [Delivery.made, Delivery.called, List.countP_cons]

theorem openUploads_called (d : Delivery) (p : Phase) (o : Outcome) (s : Status) :
    (d.called p o s).openUploads = d.openUploads + if p = .upload ∧ o ∈ openOutcomes then 1 else 0 := by
  simp [Delivery.openUploads, Delivery.called, List.countP_cons]

/-- A call that is over leaves what it was counted for. -/
theorem kept_called {p : Phase} {o : Outcome} {s : Status} {uploaded : Bool} (h : Kept S d) (hd : d.status = p.status)
    (hs : s ≠ .uploading ∧ s ≠ .sending) (hsend : s ∈ pendingStatuses → p = .send → d.attemptCount < S.maxAttempts)
    (hupload : s ∈ pendingStatuses → uploaded = false → p = .upload ∧ o ∈ openOutcomes ∨
      d.uploadAttemptCount < S.maxAttempts + d.openUploads) : Kept S { d.called p o s with mediaUploaded := uploaded } := by
  have hopen := openUploads_called d p o s
  have hidle (phase : Phase) : s ≠ phase.status := by
    cases phase with
    | upload => exact hs.1
    | send => exact hs.2
  constructor
  · intro phase
    change (d.called p o s).made phase + (if s = phase.status then 1 else 0) ≤ d.count phase
    have hcounted := h.counted phase
    rw [Delivery.attempts] at hcounted
    rw [made_called, if_neg (hidle phase)]
    by_cases hp : p = phase
    · subst hp
      rw [if_pos hd] at hcounted
      rwa [if_pos rfl]
    · rw [if_neg hp]
      exact h.made_le phase
  · exact h.sends
  · intro hpending
    obtain heq | hpending := List.mem_cons.mp hpending
    · exact absurd heq hs.1
    · cases p with
      | upload => exact h.sendLeft (hd ▸ List.mem_cons_self)
      | send => exact hsend hpending rfl
  · change d.uploadAttemptCount ≤ S.maxAttempts + (d.called p o s).openUploads
    have := h.uploads
    omega
  · intro hpending hmedia
    change d.uploadAttemptCount < S.maxAttempts + (d.called p o s).openUploads
    have := h.uploads
    obtain ⟨hp, ho⟩ | hlt := hupload ((List.mem_cons.mp hpending).resolve_left hs.2) hmedia
    · rw [hopen, if_pos ⟨hp, ho⟩]
      omega
    · omega

theorem kept_finishAttempt {p : Phase} {o : Outcome} (h : Kept S d) (hd : d.status = p.status) :
    Kept S (finishAttempt S p o d) := by
  cases o with
  | lost => cases p <;> exact h
  | failed => cases p <;> exact kept_called h hd (by decide) nofun nofun
  | answered =>
    cases p with
    | upload => exact kept_called h hd (by decide) nofun nofun
    | send => exact kept_called h hd (by decide) nofun nofun
  | refused =>
    have hrefused : finishAttempt S p .refused d =
        d.called p .refused (if S.maxAttempts ≤ d.count p then .deadLetter else .retryWait) := by cases p <;> rfl
    rw [hrefused]
    split
    · exact kept_called h hd (by decide) nofun nofun
    · next hcount =>
      refine kept_called h hd (by decide) (fun _ hp => ?_) (fun _ hmedia => ?_)
      · subst hp
        exact not_le.mp hcount
      · cases p with
        | upload => exact .inr (Nat.lt_add_right _ (not_le.mp hcount))
        | send => exact .inr (h.uploadLeft (hd ▸ List.mem_cons_self) hmedia)
  | unknown =>
    cases p with
    | upload => exact kept_called h hd (by decide) nofun (fun _ _ => .inl ⟨rfl, by decide⟩)
    | send => exact kept_called h hd (by decide) nofun nofun
  | cancelled =>
    cases p with
    | upload => exact kept_called h hd (by decide) nofun (fun _ _ => .inl ⟨rfl, by decide⟩)
    | send => exact kept_called h hd (by decide) nofun nofun

theorem kept_recover (h : Kept S d) : Kept S (recover d) := by
  unfold recover
  split
  · next hs => exact kept_called h hs (by decide) nofun nofun
  · next hs => exact kept_called h hs (by decide) nofun (fun _ _ => .inl ⟨rfl, by decide⟩)
  · exact h

theorem startAttempt_deliveryId (d : Delivery) : (startAttempt d).deliveryId = d.deliveryId := by
  unfold startAttempt
  cases nextPhase d <;> rfl

theorem finishAttempt_deliveryId (S : Service) (p : Phase) (o : Outcome) (d : Delivery) :
    (finishAttempt S p o d).deliveryId = d.deliveryId := by
  cases o <;> cases p <;> rfl

theorem recover_deliveryId (d : Delivery) : (recover d).deliveryId = d.deliveryId := by
  unfold recover
  split <;> rfl

variable {f : Delivery → Delivery}

theorem map_modify (hf : ∀ d, (f d).deliveryId = d.deliveryId) (rows : List Delivery) :
    (modify id f rows).map Delivery.deliveryId = rows.map Delivery.deliveryId := by
  rw [modify, List.map_map]
  refine List.map_congr_left (fun d _ => ?_)
  by_cases hd : d.deliveryId = id <;> simp [hd, hf]

theorem mem_modify {e : Delivery} (h : e ∈ modify id f rows) :
    e ∈ rows ∧ e.deliveryId ≠ id ∨ ∃ d ∈ rows, d.deliveryId = id ∧ e = f d := by
  obtain ⟨d, hd, rfl⟩ := List.mem_map.mp h
  by_cases hid : d.deliveryId = id
  · exact .inr ⟨d, hd, hid, if_pos hid⟩
  · rw [if_neg hid]
    exact .inl ⟨hd, hid⟩

def awaited : Option Phase → List Status
  | none => pendingStatuses
  | some p => [p.status]

def Turned (rows : List Delivery) (running : Option Run) : Prop :=
  ∀ r, running = some r → ∃ d ∈ rows, d.deliveryId = r.current ∧ d.status ∈ awaited r.calling

theorem turnTo_pending : Turned rows (turnTo target rows) := by
  intro r h
  obtain ⟨id, hid, rfl⟩ := Option.map_eq_some_iff.mp h
  unfold nextDelivery at hid
  split at hid
  · cases hid
  · next t ht =>
    dsimp only at hid
    split at hid
    · cases hid
    split at hid
    · cases hid
    obtain ⟨d, hd, hdid⟩ := Option.map_eq_some_iff.mp hid
    have hpending := List.find?_some hd
    refine ⟨d, ?_, hdid, of_decide_eq_true hpending⟩
    cases List.mem_append.mp (List.mem_of_find?_eq_some hd) with
    | inl hearlier => exact (List.takeWhile_sublist _).subset hearlier
    | inr hlast => exact List.mem_singleton.mp hlast ▸ List.mem_of_find?_eq_some ht

theorem proceed_pending {current : Text} : Turned rows (proceed target current rows) := by
  intro r h
  unfold proceed at h
  have hfound {s : Status} (hs : (rows.find? (fun d => d.deliveryId = current)).map Delivery.status = some s)
      (hpending : s ∈ pendingStatuses) : ∃ d ∈ rows, d.deliveryId = current ∧ d.status ∈ pendingStatuses := by
    obtain ⟨d, hd, rfl⟩ := Option.map_eq_some_iff.mp hs
    have hid := List.find?_some hd
    exact ⟨d, List.mem_of_find?_eq_some hd, of_decide_eq_true hid, hpending⟩
  split at h
  · next hs =>
    cases h
    exact hfound hs (by decide)
  · next hs =>
    cases h
    exact hfound hs (by decide)
  · exact turnTo_pending r h
  · cases h

structure Sound (S : Service) (u : Outbox) : Prop where
  distinct : (u.rows.map Delivery.deliveryId).Nodup
  kept : ∀ d ∈ u.rows, Kept S d
  turned : Turned u.rows u.running

theorem Sound.awaits {r : Run} (hs : Sound S u) (hr : u.running = some r) (hd : d ∈ u.rows) (hid : d.deliveryId = r.current) :
    d.status ∈ awaited r.calling := by
  obtain ⟨e, he, heid, hstatus⟩ := hs.turned r hr
  rw [List.inj_on_of_nodup_map hs.distinct hd he (hid.trans heid.symm)]
  exact hstatus

theorem kept_unsent (h : Kept S d) (hd : d.status ∈ pendingStatuses) :
    Kept S { startAttempt d with status := .deadLetter } := by
  have hstart := kept_startAttempt h hd
  refine ⟨fun phase => ?_, hstart.sends, fun hs => absurd (show Status.deadLetter ∈ .uploading :: pendingStatuses from hs)
    (by decide), hstart.uploads, fun hs => absurd (show Status.deadLetter ∈ .sending :: pendingStatuses from hs) (by decide)⟩
  have hidle : Status.deadLetter ≠ phase.status := by cases phase <;> decide
  exact (Nat.add_le_add_left ((if_neg hidle).trans_le (Nat.zero_le _)) _).trans (hstart.counted phase)

theorem startAttempt_status (d : Delivery) : (startAttempt d).status = (nextPhase d).status := by
  unfold startAttempt
  cases nextPhase d <;> rfl

inductive Rewritten (S : Service) (u : Outbox) : List Delivery → Prop
  | same : Rewritten S u u.rows
  | added {id : Text} {hasMedia : Bool} (hnew : id ∉ u.rows.map Delivery.deliveryId) :
    Rewritten S u (u.rows ++ [newDelivery id hasMedia])
  | written {r : Run} {f : Delivery → Delivery} (hrun : u.running = some r) (hid : ∀ d, (f d).deliveryId = d.deliveryId)
    (hkept : ∀ d, Kept S d → d.status ∈ awaited r.calling → Kept S (f d)) : Rewritten S u (modify r.current f u.rows)
  | recovered : Rewritten S u (u.rows.map recover)

theorem next_cases {e : Event} (hs : Sound S u) (h : next S u e = some v) :
    Turned v.rows v.running ∧ Rewritten S u v.rows := by
  cases e with
  | enqueue newId hasMedia =>
    cases h
    split
    · exact ⟨hs.turned, .same⟩
    · next hnew =>
      refine ⟨fun r hr => ?_, .added hnew⟩
      obtain ⟨d, hd, hstatus⟩ := hs.turned r hr
      exact ⟨d, List.mem_append_left _ hd, hstatus⟩
  | deliver target =>
    dsimp only [next] at h
    split at h
    · cases h
    · cases h
      exact ⟨turnTo_pending, .same⟩
  | attempt =>
    dsimp only [next] at h
    split at h
    · next target current hrun =>
      split at h
      · cases h
      · next d hd =>
        have hid := List.find?_some hd
        split at h
        · cases h
          exact ⟨proceed_pending, .same⟩
        · split at h
          · cases h
            exact ⟨nofun, .written hrun startAttempt_deliveryId (fun _ => kept_unsent)⟩
          · cases h
            refine ⟨fun r hr => ?_, .written hrun startAttempt_deliveryId (fun _ => kept_startAttempt)⟩
            cases hr
            refine ⟨startAttempt d, ?_, (startAttempt_deliveryId d).trans (of_decide_eq_true hid), ?_⟩
            · exact List.mem_map.mpr ⟨d, List.mem_of_find?_eq_some hd, if_pos (of_decide_eq_true hid)⟩
            · exact startAttempt_status d ▸ List.mem_singleton_self _
    · cases h
  | abandon =>
    dsimp only [next] at h
    split at h
    · cases h
      exact ⟨nofun, .same⟩
    · cases h
  | outcome o =>
    dsimp only [next] at h
    split at h
    · next target current phase hrun =>
      cases h
      refine ⟨proceed_pending, .written hrun (finishAttempt_deliveryId S phase o) (fun d hd hstatus => ?_)⟩
      exact kept_finishAttempt hd (List.mem_singleton.mp hstatus)
    · cases h
  | restart =>
    cases h
    exact ⟨nofun, .recovered⟩

theorem sound_next {e : Event} (hs : Sound S u) (h : next S u e = some v) : Sound S v := by
  obtain ⟨newRows, running⟩ := v
  obtain ⟨hturned, hrows⟩ := next_cases hs h
  suffices hsuff : (newRows.map Delivery.deliveryId).Nodup ∧ ∀ d ∈ newRows, Kept S d from ⟨hsuff.1, hsuff.2, hturned⟩
  clear h hturned
  cases hrows with
  | same => exact ⟨hs.distinct, hs.kept⟩
  | @added newId hasMedia hnew =>
    constructor
    · change ((u.rows ++ [newDelivery newId hasMedia]).map Delivery.deliveryId).Nodup
      rw [List.map_append, List.nodup_append]
      refine ⟨hs.distinct, List.nodup_singleton _, fun x hx y hy hxy => hnew ?_⟩
      rw [← show y = newId from List.mem_singleton.mp hy, ← hxy]
      exact hx
    · intro d hd
      cases List.mem_append.mp hd with
      | inl hd => exact hs.kept d hd
      | inr hd => exact List.mem_singleton.mp hd ▸ kept_new S newId hasMedia
  | written hrun hid hkept =>
    refine ⟨map_modify hid u.rows ▸ hs.distinct, fun e he => ?_⟩
    obtain ⟨he, -⟩ | ⟨d, hd, hcurrent, rfl⟩ := mem_modify he
    · exact hs.kept e he
    · exact hkept d (hs.kept d hd) (hs.awaits hrun hd hcurrent)
  | recovered =>
    refine ⟨?_, fun d hd => ?_⟩
    · rw [List.map_map]
      exact (List.map_congr_left (fun d _ => recover_deliveryId d) : _ = u.rows.map Delivery.deliveryId) ▸ hs.distinct
    · obtain ⟨e, he, rfl⟩ := List.mem_map.mp hd
      exact kept_recover (hs.kept e he)

/-- A row at its end stays as it is; one whose last attempt is refused comes to its end. -/
def EndsExhausted (S : Service) (u : Outbox) (e : Event) : Prop :=
  ∀ v, next S u e = some v → (∀ d ∈ u.rows, d.status ∈ terminalStatuses → d ∈ v.rows) ∧
    ∀ target current phase, e = .outcome .refused → u.running = some ⟨target, current, some phase⟩ →
      ∀ d ∈ u.rows, d.deliveryId = current → S.maxAttempts ≤ d.count phase →
        d.called phase .refused .deadLetter ∈ v.rows

theorem not_terminal_awaited (calling : Option Phase) : ∀ s ∈ awaited calling, s ∉ terminalStatuses := by
  cases calling with
  | none => decide
  | some p => cases p <;> decide

theorem endsExhausted (hs : Sound S u) (e : Event) : EndsExhausted S u e := by
  intro v h
  constructor
  · intro d hd hterminal
    obtain ⟨newRows, running⟩ := v
    obtain ⟨-, hrows⟩ := next_cases hs h
    clear h
    cases hrows with
    | same => exact hd
    | added _ => exact List.mem_append_left _ hd
    | @written r f hrun _ _ =>
      refine List.mem_map.mpr ⟨d, hd, if_neg (fun hid => ?_)⟩
      exact not_terminal_awaited r.calling _ (hs.awaits hrun hd hid) hterminal
    | recovered =>
      refine List.mem_map.mpr ⟨d, hd, ?_⟩
      unfold recover
      split
      · next hstatus => exact absurd hterminal (hstatus ▸ by decide)
      · next hstatus => exact absurd hterminal (hstatus ▸ by decide)
      · rfl
  · intro target current phase he hrun d hd hid hcount
    subst he
    rw [next, hrun] at h
    cases h
    refine List.mem_map.mpr ⟨d, hd, ?_⟩
    rw [if_pos hid, finishAttempt, if_pos hcount]

/-- What is attempted for a delivery: sends keep to the limit, as do uploads without an unknown
end. -/
structure Bounded (S : Service) (d : Delivery) : Prop where
  sends : d.attempts .send ≤ S.maxAttempts
  uploads : d.attempts .upload ≤ S.maxAttempts + d.openUploads
  exhausted : d.status ∈ pendingStatuses → d.attemptCount < S.maxAttempts

theorem attempts_bounded (S : Service) (events : List Event) :
    (∀ u, exec (next S) ⟨[], none⟩ events = some u → ∀ d ∈ u.rows, Bounded S d) ∧
    Along (next S) (EndsExhausted S) ⟨[], none⟩ events := by
  have hempty : Sound S ⟨[], none⟩ := ⟨List.nodup_nil, nofun, nofun⟩
  constructor
  · intro u hu d hd
    have hs := exec_invariant (next S) (fun _ _ _ _ hs ht => sound_next hs ht) hempty (along_true (next S) _ events) hu
    have hk := hs.kept d hd
    exact ⟨(hk.counted .send).trans hk.sends, (hk.counted .upload).trans hk.uploads,
      fun hp => hk.sendLeft (List.mem_cons_of_mem _ hp)⟩
  · exact along_of_invariant (next S) (fun _ e hs _ => endsExhausted hs e) (fun _ _ _ _ hs ht => sound_next hs ht) hempty
      (along_true (next S) _ events)

/-- A picture whose upload times out is uploaded again with the next delivery, though one attempt is allowed. -/
theorem upload_attempted_twice : ∃ u, exec (next ⟨1, true, le_refl 1⟩) ⟨[], none⟩
    [.enqueue "picture".toList true, .deliver "picture".toList, .attempt, .outcome .unknown,
      .deliver "picture".toList, .attempt] = some u ∧ ∃ d ∈ u.rows, d.attempts .upload = 2 :=
  ⟨_, rfl, _, List.mem_singleton_self _, rfl⟩

end Kirara.QQBotDeliveries
