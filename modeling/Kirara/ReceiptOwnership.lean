import Kirara.InboundReceipts
import Kirara.Schedules

namespace Kirara.ReceiptOwnership

open Kirara.Channels Kirara.Dicts Kirara.InboundReceipts Kirara.Schedules

variable {ι : Type} [DecidableEq ι]

/-- For each key the handlers that claimed it since the last recovery and have not reported. -/
structure Observed (ι : Type) where
  table : Table
  claimers : ReceiptKey → List ι

inductive Call where
  | claim (eventKey chatKey : Text) (payload : Payload)
  | complete (eventKey : Text)
  | retry (eventKey : Text)
  | recoverOnStartup
  deriving DecidableEq

/-- A call by a handler. Calls do not overlap: each holds its service's lock. -/
structure Turn (ι : Type) where
  handler : ι
  service : InboundReceiptService
  call : Call
  fault : Option Fault
  deriving DecidableEq

def Turn.note (l : Turn ι) (eventKey : Text) (f : List ι → List ι) (claimers : ReceiptKey → List ι) :
    ReceiptKey → List ι :=
  match normalizeEventKey eventKey with
  | .error _ => claimers
  | .ok value => Function.update claimers (l.service.key value) (f (claimers (l.service.key value)))

def next (w : Observed ι) (l : Turn ι) : Option (Observed ι) :=
  match l.call with
  | .claim eventKey chatKey payload =>
    match l.service.claim l.fault w.table eventKey chatKey payload with
    | (.ok true, t) => some ⟨t, l.note eventKey (l.handler :: ·) w.claimers⟩
    | (_, t) => some ⟨t, w.claimers⟩
  -- A handler that reports is done with the event, also when the report is lost.
  | .complete eventKey =>
    some ⟨(l.service.complete l.fault w.table eventKey).2, l.note eventKey (·.filter (· ≠ l.handler)) w.claimers⟩
  | .retry eventKey =>
    some ⟨(l.service.retry l.fault w.table eventKey).2, l.note eventKey (·.filter (· ≠ l.handler)) w.claimers⟩
  | .recoverOnStartup =>
    match l.service.recoverOnStartup l.fault w.table with
    | (.ok _, t) => some ⟨t, fun k => if l.service.owns k then [] else w.claimers k⟩
    | (.error _, t) => some ⟨t, w.claimers⟩

def start : Observed ι := ⟨.empty, fun _ => []⟩

def Claims (w : Observed ι) (l : Turn ι) (k : ReceiptKey) : Prop :=
  match l.call with
  | .claim eventKey chatKey payload =>
    (normalizeEventKey eventKey).map l.service.key = .ok k ∧
      (l.service.claim l.fault w.table eventKey chatKey payload).1 = .ok true
  | .complete _ | .retry _ | .recoverOnStartup => False

def Completed (t : Table) (k : ReceiptKey) : Prop := ∃ item, t.get k = some item ∧ item.status = .completed

def Erased (t : Table) : Prop := ∀ k item, t.get k = some item → item.status = .completed → item.payloadJson = none

/-- What is completed is final, and nothing of its payload is left. -/
structure Final (w : Observed ι) (l : Turn ι) (v : Observed ι) : Prop where
  stays : ∀ k, Completed w.table k → Completed v.table k
  refused : ∀ k, Completed w.table k → ¬ Claims w l k
  erased : Erased v.table

/-- No event has two claimers at work, and what is completed is final. -/
def Sound (w : Observed ι) (l : Turn ι) : Prop :=
  ∀ v, next w l = some v → (∀ k, (v.claimers k).length ≤ 1) ∧ Final w l v

/-- A retry gives an event back only if no other handler is at work on it. -/
def Owned (w : Observed ι) (l : Turn ι) : Prop :=
  match l.call with
  | .retry eventKey =>
    l.fault = none → ∀ value item, normalizeEventKey eventKey = .ok value →
      w.table.get (l.service.key value) = some item → item.status ≠ .completed →
        ∀ h ∈ w.claimers (l.service.key value), h = l.handler
  | .claim .. | .complete _ | .recoverOnStartup => True

section Final

variable {w v : Observed ι} {l : Turn ι} {t : Table} {k key : ReceiptKey} {row : InboundReceipt}

theorem completed_set (h : Completed t k) (hrow : row.status = .completed ∨ ¬ Completed t key) :
    Completed (t.set key row) k := by
  obtain ⟨item, hitem, hs⟩ := h
  by_cases hk : k = key
  · subst hk
    cases hrow with
    | inl hrow => exact ⟨row, Dict.get_set_self, hrow⟩
    | inr hrow => exact absurd ⟨item, hitem, hs⟩ hrow
  · exact ⟨item, by rw [Dict.get_set_of_ne hk, hitem], hs⟩

theorem erased_set (h : Erased t) (hrow : row.status = .completed → row.payloadJson = none) :
    Erased (t.set key row) := by
  intro k item hitem hs
  rw [Dict.get_set] at hitem
  split at hitem
  · cases hitem
    exact hrow hs
  · exact h k item hitem hs

theorem not_completed {item : InboundReceipt} (hitem : t.get k = some item) (hs : item.status ≠ .completed) :
    ¬ Completed t k := by
  intro ⟨other, hother, hcompleted⟩
  cases hitem.symm.trans hother
  exact hs hcompleted

theorem final_claim {eventKey chatKey : Text} {payload : Payload} (hcall : l.call = .claim eventKey chatKey payload)
    (hw : Erased w.table) (h : next w l = some v) : Final w l v := by
  generalize hr : l.service.claim l.fault w.table eventKey chatKey payload = r
  obtain ⟨answer, t⟩ := r
  have ht : v.table = t := by
    simp only [next, hcall, hr] at h
    split at h
    all_goals
      cases h
      simp_all
  cases claim_cases hr with
  | inl hsame =>
    obtain ⟨hne, rfl⟩ := hsame
    refine ⟨fun k hk => ht ▸ hk, fun k _ hc => ?_, ht ▸ hw⟩
    simp only [Claims, hcall, hr] at hc
    exact hne hc.2
  | inr hnew =>
    obtain ⟨value, row, hv, -, hopen, hrow, rfl⟩ := hnew
    have hfree : ¬ Completed w.table (l.service.key value) := by
      intro ⟨item, hitem, hs⟩
      rw [hopen item hitem] at hs
      exact nomatch hs
    refine ⟨fun k hk => ht ▸ completed_set hk (.inr hfree), fun k hk hc => ?_, ht ▸ erased_set hw ?_⟩
    · simp only [Claims, hcall, hv, Except.map] at hc
      cases hc.1
      exact hfree hk
    · intro hs
      rw [hrow] at hs
      exact nomatch hs

theorem final_step (hw : Erased w.table) (h : next w l = some v) : Final w l v := by
  cases hcall : l.call with
  | claim eventKey chatKey payload => exact final_claim hcall hw h
  | complete eventKey =>
    have hnone : ∀ k, ¬ Claims w l k := fun k hc => by simp [Claims, hcall] at hc
    generalize hr : l.service.complete l.fault w.table eventKey = r
    simp only [next, hcall, hr] at h
    cases h
    cases complete_cases hr with
    | inl hsame => exact ⟨fun k hk => hsame ▸ hk, fun k _ => hnone k, hsame ▸ hw⟩
    | inr hset =>
      obtain ⟨value, item, -, -, ht⟩ := hset
      exact ⟨fun k hk => ht ▸ completed_set hk (.inl rfl), fun k _ => hnone k, ht ▸ erased_set hw (fun _ => rfl)⟩
  | retry eventKey =>
    have hnone : ∀ k, ¬ Claims w l k := fun k hc => by simp [Claims, hcall] at hc
    generalize hr : l.service.retry l.fault w.table eventKey = r
    simp only [next, hcall, hr] at h
    cases h
    cases retry_cases hr with
    | inl hsame => exact ⟨fun k hk => hsame ▸ hk, fun k _ => hnone k, hsame ▸ hw⟩
    | inr hset =>
      obtain ⟨value, item, -, -, hitem, hs, ht⟩ := hset
      refine ⟨fun k hk => ht ▸ completed_set hk (.inr (not_completed hitem hs)), fun k _ => hnone k, ?_⟩
      exact ht ▸ erased_set hw nofun
  | recoverOnStartup =>
    have hnone : ∀ k, ¬ Claims w l k := fun k hc => by simp [Claims, hcall] at hc
    generalize hr : l.service.recoverOnStartup l.fault w.table = r
    obtain ⟨answer, t⟩ := r
    have ht : v.table = t := by
      simp only [next, hcall, hr] at h
      split at h
      all_goals
        cases h
        simp_all
    cases recover_cases hr with
    | inl hsame =>
      obtain ⟨-, rfl⟩ := hsame
      exact ⟨fun k hk => ht ▸ hk, fun k _ => hnone k, ht ▸ hw⟩
    | inr hopened =>
      obtain ⟨-, hget⟩ := hopened
      refine ⟨fun k ⟨item, hitem, hs⟩ => ⟨item, ?_, hs⟩, fun k _ => hnone k, fun k item hitem hs => ?_⟩
      · rw [ht, hget, hitem, Option.map_some, if_neg (by simp [InboundReceiptService.interrupted, hs])]
      · rw [ht, hget, Option.map_eq_some_iff] at hitem
        obtain ⟨old, hold, hitem⟩ := hitem
        split at hitem
        · cases hitem
          exact nomatch hs
        · exact hw k item (hitem ▸ hold) hs

end Final

variable {w v : Observed ι} {l : Turn ι} {t u : Table} {k key : ReceiptKey} {row : InboundReceipt} {handlers : List ι}

/-- One handler at most is at work, on a row that no claim takes. -/
def Held (t : Table) (k : ReceiptKey) (handlers : List ι) : Prop :=
  handlers = [] ∨ ∃ h, handlers = [h] ∧ ∃ item, t.get k = some item ∧ item.status ≠ .retryable

def Exclusive (w : Observed ι) : Prop := ∀ k, Held w.table k (w.claimers k)

omit [DecidableEq ι] in
theorem Held.length_le (h : Held t k handlers) : handlers.length ≤ 1 := by
  cases h with
  | inl h => simp [h]
  | inr h =>
    obtain ⟨a, ha, -⟩ := h
    simp [ha]

omit [DecidableEq ι] in
theorem Held.filter (h : Held t k handlers) (p : ι → Bool) : Held t k (handlers.filter p) := by
  cases h with
  | inl h => exact .inl (by rw [h, List.filter_nil])
  | inr h =>
    obtain ⟨a, rfl, hrow⟩ := h
    by_cases hp : p a = true
    · exact .inr ⟨a, List.filter_cons_of_pos hp, hrow⟩
    · exact .inl (List.filter_cons_of_neg hp)

omit [DecidableEq ι] in
theorem Held.congr (h : Held t k handlers) (hget : u.get k = t.get k) : Held u k handlers := by
  unfold Held at h ⊢
  rwa [hget]

omit [DecidableEq ι] in
theorem Held.set (h : Held t k handlers) (hrow : row.status ≠ .retryable) : Held (t.set key row) k handlers := by
  by_cases hk : k = key
  · subst hk
    cases h with
    | inl h => exact .inl h
    | inr h =>
      obtain ⟨a, ha, -⟩ := h
      exact .inr ⟨a, ha, row, Dict.get_set_self, hrow⟩
  · exact h.congr (Dict.get_set_of_ne hk)

omit [DecidableEq ι] in
theorem Held.eq_nil (h : Held t k handlers) (hopen : ∀ item, t.get k = some item → item.status = .retryable) :
    handlers = [] := by
  cases h with
  | inl h => exact h
  | inr h =>
    obtain ⟨_, -, item, hitem, hs⟩ := h
    exact absurd (hopen item hitem) hs

variable {eventKey value : Text} {f : List ι → List ι} {claimers : ReceiptKey → List ι}

omit [DecidableEq ι] in
theorem note_key (hv : normalizeEventKey eventKey = .ok value) :
    l.note eventKey f claimers (l.service.key value) = f (claimers (l.service.key value)) := by
  simp [Turn.note, hv]

omit [DecidableEq ι] in
theorem note_of_ne (hv : normalizeEventKey eventKey = .ok value) (hk : k ≠ l.service.key value) :
    l.note eventKey f claimers k = claimers k := by
  simp [Turn.note, hv, hk]

theorem held_report (h : Held t k (claimers k)) :
    Held t k (l.note eventKey (·.filter (· ≠ l.handler)) claimers k) := by
  cases hv : normalizeEventKey eventKey with
  | error e => simpa [Turn.note, hv] using h
  | ok value =>
    by_cases hk : k = l.service.key value
    · subst hk
      rw [note_key hv]
      exact h.filter _
    · rwa [note_of_ne hv hk]

theorem exclusive_step (hw : Exclusive w) (howned : Owned w l) (h : next w l = some v) : Exclusive v := by
  cases hcall : l.call with
  | claim eventKey chatKey payload =>
    generalize hr : l.service.claim l.fault w.table eventKey chatKey payload = r
    obtain ⟨answer, t⟩ := r
    simp only [next, hcall, hr] at h
    cases claim_cases hr with
    | inl hsame =>
      obtain ⟨hne, rfl⟩ := hsame
      split at h
      · next heq =>
        cases heq
        exact absurd rfl hne
      · cases h
        simp_all [Exclusive]
    | inr hnew =>
      obtain ⟨value, row, hv, rfl, hopen, hrow, rfl⟩ := hnew
      cases h
      intro k
      by_cases hk : k = l.service.key value
      · subst hk
        refine .inr ⟨l.handler, ?_, row, Dict.get_set_self, by simp [hrow]⟩
        change l.note eventKey (l.handler :: ·) w.claimers (l.service.key value) = [l.handler]
        rw [note_key hv, (hw _).eq_nil hopen]
      · change Held _ k (l.note eventKey _ w.claimers k)
        rw [note_of_ne hv hk]
        exact (hw k).congr (Dict.get_set_of_ne hk)
  | complete eventKey =>
    generalize hr : l.service.complete l.fault w.table eventKey = r
    simp only [next, hcall, hr] at h
    cases h
    intro k
    have hreport : Held w.table k (l.note eventKey (·.filter (· ≠ l.handler)) w.claimers k) := held_report (hw k)
    cases complete_cases hr with
    | inl hsame => exact hsame ▸ hreport
    | inr hset =>
      obtain ⟨value, item, -, -, ht⟩ := hset
      exact ht ▸ hreport.set nofun
  | retry eventKey =>
    generalize hr : l.service.retry l.fault w.table eventKey = r
    simp only [next, hcall, hr] at h
    cases h
    intro k
    have hreport : Held w.table k (l.note eventKey (·.filter (· ≠ l.handler)) w.claimers k) := held_report (hw k)
    cases retry_cases hr with
    | inl hsame => exact hsame ▸ hreport
    | inr hset =>
      obtain ⟨value, item, hfault, hv, hitem, hs, ht⟩ := hset
      by_cases hk : k = l.service.key value
      · subst hk
        -- Nobody but the handler itself is at work, and it is done with this call.
        simp only [Owned, hcall] at howned
        refine .inl ?_
        change l.note eventKey _ w.claimers (l.service.key value) = []
        rw [note_key hv, List.filter_eq_nil_iff]
        intro a ha
        simpa using howned hfault value item hv hitem hs a ha
      · exact hreport.congr (by rw [ht, Dict.get_set_of_ne hk])
  | recoverOnStartup =>
    generalize hr : l.service.recoverOnStartup l.fault w.table = r
    obtain ⟨answer, t⟩ := r
    simp only [next, hcall, hr] at h
    cases recover_cases hr with
    | inl hsame =>
      obtain ⟨⟨e, rfl⟩, rfl⟩ := hsame
      cases h
      exact hw
    | inr hopened =>
      obtain ⟨⟨n, rfl⟩, hget⟩ := hopened
      cases h
      intro k
      dsimp only
      split
      · exact .inl rfl
      · next hk =>
        refine (hw k).congr ?_
        rw [hget]
        simp [InboundReceiptService.interrupted, hk]

/-- Where only the handler at work gives an event back, an event has one claimer at a time. -/
theorem one_claimer (turns : List (Turn ι)) (h : Along next Owned start turns) : Along next Sound start turns := by
  apply along_of_invariant next (p := Owned) (I := fun w => Exclusive w ∧ Erased w.table)
  · exact fun w l hw howned v hv => ⟨fun k => (exclusive_step hw.1 howned hv k).length_le, final_step hw.2 hv⟩
  · exact fun w l v howned hw hv => ⟨exclusive_step hw.1 howned hv, (final_step hw.2 hv).erased⟩
  · exact ⟨fun _ => .inl rfl, nofun⟩
  · exact h

def oneBot : InboundReceiptService := ⟨['o'], ['1']⟩

def turn (handler : Nat) (call : Call) : Turn Nat := ⟨handler, oneBot, call, none⟩

/-- The first handler is still at work when its service restarts, and gives the event back after
the second has claimed it. -/
def overtaken : List (Turn Nat) :=
  [turn 1 (.claim ['e'] [] .absent), turn 0 .recoverOnStartup, turn 2 (.claim ['e'] [] .absent),
    turn 1 (.retry ['e']), turn 3 (.claim ['e'] [] .absent)]

theorem retried_one_claimer : Along next Sound start
    [turn 1 (.claim ['e'] [] .absent), turn 1 (.retry ['e']), turn 2 (.claim ['e'] [] .absent), turn 2 (.complete ['e'])] := by
  refine one_claimer _ ⟨trivial, fun t ht => ⟨?_, fun _ _ => ⟨trivial, fun _ _ => ⟨trivial, fun _ _ => trivial⟩⟩⟩⟩
  cases ht
  intro _ value item hv _ _ h hh
  cases hv
  exact List.mem_singleton.mp hh

/-- Then two handlers that claimed it after the restart are at work on one event. -/
theorem stale_retry_doubles : ¬ Along next Sound start overtaken := by
  intro h
  have hsplit : Along next Sound start (overtaken.take 4 ++ overtaken.drop 4) := h
  obtain ⟨hsound, -⟩ := along_append next hsplit rfl
  have htwo := (hsound _ rfl).1 (oneBot.key ['e'])
  exact absurd htwo (by decide)

end Kirara.ReceiptOwnership
