import Kirara.Outboxes

namespace Kirara.OutboxLocks

open Kirara.Rosters Kirara.Outboxes

set_option linter.unusedSectionVars false

variable {ι δ ρ S : Type} [DecidableEq ι] [DecidableEq δ] [LinearOrder ρ] [DecidableEq S]

def uses (l : ℕ) (q : ι × Task δ ρ S) : Bool := q.2.lock = l

def holds (l : ℕ) (q : ι × Task δ ρ S) : Bool := uses l q && q.2.phase.holding

/-- Every call uses the lock that its service's dictionary has for the recipient. -/
structure LockInv (σ : Outbox ι δ ρ S) : Prop where
  distinct : Distinct σ.tasks
  users : ∀ l, σ.users l = σ.tasks.countP (uses l)
  locked : ∀ l, (σ.locked l).toNat = σ.tasks.countP (holds l)
  registered : ∀ q ∈ σ.tasks, σ.recipientLocks q.2.service q.2.recipientKey = some q.2.lock
  created : ∀ s key l, σ.recipientLocks s key = some l → l < σ.created

variable {σ : Outbox ι δ ρ S} {t : ι} {x : Task δ ρ S} {q q' : ι × Task δ ρ S}

theorem setEntry_apply (s s' : S) (key key' : ρ) (entry : Option ℕ) (dict : S → ρ → Option ℕ) :
    setEntry s key entry dict s' key' =
      if s' = s ∧ key' = key then entry else dict s' key' := by
  unfold setEntry
  by_cases hs : s' = s
  · by_cases hk : key' = key
    · simp [hs, hk]
    · simp [hs, hk]
  · simp [hs]

theorem lockInv_empty : LockInv (empty : Outbox ι δ ρ S) where
  distinct := List.nodup_nil
  users _ := rfl
  locked _ := rfl
  registered q hq := by cases hq
  created s key l h := by cases h

theorem eq_of_holding (h : LockInv σ) (hq : q ∈ σ.tasks) (hq' : q' ∈ σ.tasks)
    (hs : q.2.service = q'.2.service) (hk : q.2.recipientKey = q'.2.recipientKey)
    (hh : q.2.phase.holding = true) (hh' : q'.2.phase.holding = true) : q = q' := by
  have hlock : q'.2.lock = q.2.lock := by
    have hr := h.registered q' hq'
    rw [← hs, ← hk, h.registered q hq] at hr
    exact (Option.some.inj hr).symm
  have hle : σ.tasks.countP (holds q.2.lock) ≤ 1 := by
    rw [← h.locked]
    exact Bool.toNat_le _
  apply eq_of_countP_le_one hle hq hq'
  · simp [holds, uses, hh]
  · simp [holds, uses, hh', hlock]

theorem lockInv_register {s : S} {r : Delivery δ ρ S} (ht : t ∉ σ.tasks.map Prod.fst)
    (h : LockInv σ) : LockInv (register t s r σ) := by
  unfold register
  cases hl : σ.recipientLocks s r.recipientKey with
  | some l =>
    constructor
    · exact distinct_cons h.distinct ht
    · intro l'
      rw [List.countP_cons, ← h.users l']
      by_cases hll : l' = l
      · simp [hll, uses]
      · simp [hll, uses, Ne.symm hll]
    · intro l'
      rw [List.countP_cons, ← h.locked l']
      simp [holds, Phase.holding]
    · intro q hq
      cases List.mem_cons.mp hq with
      | inl hq => rwa [hq]
      | inr hq => exact h.registered q hq
    · exact h.created
  | none =>
    have hold : ∀ q ∈ σ.tasks, q.2.lock < σ.created :=
      fun q hq => h.created _ _ _ (h.registered q hq)
    have hnew : σ.tasks.countP (uses σ.created) = 0 := by
      rw [List.countP_eq_zero]
      intro q hq
      have hlt := hold q hq
      simp only [uses, decide_eq_true_iff]
      omega
    have hnew' : σ.tasks.countP (holds σ.created) = 0 := by
      rw [List.countP_eq_zero]
      intro q hq
      have hlt := hold q hq
      simp only [holds, uses, Bool.and_eq_true, decide_eq_true_iff]
      omega
    constructor
    · exact distinct_cons h.distinct ht
    · intro l'
      rw [List.countP_cons]
      by_cases hll : l' = σ.created
      · rw [hll, hnew]
        simp [uses]
      · rw [← h.users l']
        simp [hll, uses, Ne.symm hll]
    · intro l'
      rw [List.countP_cons]
      by_cases hll : l' = σ.created
      · rw [hll, hnew']
        simp [holds, Phase.holding]
      · rw [← h.locked l']
        simp [hll, holds, Phase.holding]
    · intro q hq
      dsimp only
      rw [setEntry_apply]
      cases List.mem_cons.mp hq with
      | inl hq =>
        rw [hq]
        exact if_pos ⟨rfl, rfl⟩
      | inr hq =>
        rw [if_neg]
        · exact h.registered q hq
        · rintro ⟨hs, hk⟩
          have hr := h.registered q hq
          rw [hs, hk, hl] at hr
          cases hr
    · intro s' key' l' hl'
      dsimp only at hl'
      rw [setEntry_apply] at hl'
      dsimp only
      split at hl'
      · cases hl'
        omega
      · have hlt := h.created _ _ _ hl'
        omega

theorem lockInv_record {rows : List (Delivery δ ρ S)} {running : S → Bool} {invoked : List (S × δ)}
    {settled : List δ} (h : LockInv σ) :
    LockInv { σ with rows := rows, running := running, invoked := invoked, settled := settled } :=
  ⟨h.distinct, h.users, h.locked, h.registered, h.created⟩

variable (hx : (t, x) ∈ σ.tasks)

include hx

theorem lockInv_leave (h : LockInv σ) : LockInv (leave t x σ) := by
  have huses := fun l => countP_remove (uses l) h.distinct hx
  have hholds := fun l => countP_remove (holds l) h.distinct hx
  have hself : uses x.lock (t, x) = true := by simp [uses]
  have hother : ∀ l, l ≠ x.lock → uses l (t, x) = false := by
    intro l hl
    simp [uses, Ne.symm hl]
  constructor
  · exact distinct_remove h.distinct
  · intro l
    have hl := huses l
    have hu := h.users l
    dsimp only [leave]
    by_cases hll : l = x.lock
    · rw [hll] at hl hu ⊢
      rw [hself] at hl
      rw [Function.update_self]
      simp only [Bool.toNat_true] at hl
      omega
    · rw [hother l hll] at hl
      rw [Function.update_of_ne hll]
      simp only [Bool.toNat_false] at hl
      omega
  · intro l
    have hl := hholds l
    have hu := h.locked l
    dsimp only [leave]
    by_cases hll : l = x.lock
    · rw [hll] at hl hu ⊢
      rw [Function.update_self]
      have hle := Bool.toNat_le (σ.locked x.lock)
      cases hh : x.phase.holding with
      | true =>
        have hc : holds x.lock (t, x) = true := by simp [holds, hself, hh]
        rw [hc, Bool.toNat_true] at hl
        simp only [Bool.not_true, Bool.and_false, Bool.toNat_false]
        omega
      | false =>
        have hc : holds x.lock (t, x) = false := by simp [holds, hh]
        rw [hc, Bool.toNat_false] at hl
        simp only [Bool.not_false, Bool.and_true]
        omega
    · have hc : holds l (t, x) = false := by simp [holds, hother l hll]
      rw [hc, Bool.toNat_false] at hl
      rw [Function.update_of_ne hll]
      omega
  · intro q hq
    have hmem := (mem_remove.mp hq).1
    have hr := h.registered q hmem
    dsimp only [leave]
    split
    · next hpop =>
      rw [setEntry_apply, if_neg]
      · exact hr
      · rintro ⟨hs, hk⟩
        rw [hs, hk, h.registered (t, x) hx] at hr
        -- the other call would still be a user of the lock that is thrown away
        have hpos : 0 < (remove t σ.tasks).countP (uses x.lock) :=
          List.countP_pos_iff.mpr ⟨q, hq, decide_eq_true (Option.some.inj hr).symm⟩
        have hl := huses x.lock
        have hu := h.users x.lock
        rw [hself, Bool.toNat_true] at hl
        omega
    · exact hr
  · intro s key l hl
    dsimp only [leave] at hl ⊢
    split at hl
    · rw [setEntry_apply] at hl
      split at hl
      · cases hl
      · exact h.created _ _ _ hl
    · exact h.created _ _ _ hl

theorem lockInv_replace {phase : Phase δ} (hh : phase.holding = x.phase.holding) (h : LockInv σ) :
    LockInv { σ with tasks := replace t { x with phase := phase } σ.tasks } := by
  constructor
  · exact distinct_replace h.distinct
  · intro l
    have hl := countP_replace (x := { x with phase := phase }) (uses l) h.distinct hx
    have hu := h.users l
    have hsame : uses l (t, { x with phase := phase }) = uses l (t, x) := rfl
    rw [hsame] at hl
    dsimp only
    omega
  · intro l
    have hl := countP_replace (x := { x with phase := phase }) (holds l) h.distinct hx
    have hu := h.locked l
    have hsame : holds l (t, { x with phase := phase }) = holds l (t, x) := by
      simp [holds, uses, hh]
    rw [hsame] at hl
    dsimp only
    omega
  · intro q hq
    cases mem_replace hq with
    | inl hq =>
      rw [hq]
      exact h.registered (t, x) hx
    | inr hq => exact h.registered q hq.1
  · exact h.created

theorem lockInv_acquire (hw : x.phase = .waiting)
    (hfree : σ.locked x.lock = false) (h : LockInv σ) : LockInv { σ with
      tasks := replace t { x with phase := .looking } σ.tasks
      locked := Function.update σ.locked x.lock true } := by
  constructor
  · exact distinct_replace h.distinct
  · intro l
    have hl := countP_replace (x := { x with phase := .looking }) (uses l) h.distinct hx
    have hu := h.users l
    have hsame : uses l (t, { x with phase := .looking }) = uses l (t, x) := rfl
    rw [hsame] at hl
    dsimp only
    omega
  · intro l
    have hl := countP_replace (x := { x with phase := .looking }) (holds l) h.distinct hx
    have hu := h.locked l
    have hbefore : holds l (t, x) = false := by simp [holds, hw, Phase.holding]
    rw [hbefore, Bool.toNat_false] at hl
    dsimp only
    by_cases hll : l = x.lock
    · rw [hll] at hl hu ⊢
      rw [hfree, Bool.toNat_false] at hu
      have hafter : holds x.lock (t, { x with phase := .looking }) = true := by
        simp [holds, uses, Phase.holding]
      rw [hafter, Bool.toNat_true] at hl
      rw [Function.update_self, Bool.toNat_true]
      omega
    · have hafter : holds l (t, { x with phase := .looking }) = false := by
        simp [holds, uses, Ne.symm hll]
      rw [hafter, Bool.toNat_false] at hl
      rw [Function.update_of_ne hll]
      omega
  · intro q hq
    cases mem_replace hq with
    | inl hq =>
      rw [hq]
      exact h.registered (t, x) hx
    | inr hq => exact h.registered q hq.1
  · exact h.created

theorem lockInv_perform {e : Effect δ ρ S}
    (hh : ∀ phase, e.phase = some phase → phase.holding = x.phase.holding) (h : LockInv σ) :
    LockInv (perform t x e σ) := by
  unfold perform
  cases he : e.phase with
  | some phase => exact lockInv_record (lockInv_replace hx (hh phase he) h)
  | none => exact lockInv_leave hx (lockInv_record h)

omit hx

theorem lockInv_crash : LockInv (crash σ) where
  distinct := List.nodup_nil
  users _ := rfl
  locked _ := rfl
  registered q hq := by cases hq
  created s key l h := by cases h

end Kirara.OutboxLocks

namespace Kirara.OutboxSteps

open Kirara.Rosters Kirara.Outboxes Kirara.OutboxLocks

set_option linter.unusedSectionVars false

variable {ι δ ρ S : Type} [DecidableEq ι] [DecidableEq δ] [LinearOrder ρ] [DecidableEq S]
variable {p : Platform} {limits : Limits S} {rows : List (Delivery δ ρ S)} {d : δ}
  {r : Delivery δ ρ S} {x : Task δ ρ S} {phase : Phase δ} {a : Act} {e : Effect δ ρ S}

theorem mem_of_get (h : get rows d = some r) : r ∈ rows ∧ r.deliveryId = d :=
  ⟨List.mem_of_find?_eq_some h, by simpa using List.find?_some h⟩

theorem not_mem_of_get (h : get rows d = none) : ∀ r ∈ rows, r.deliveryId ≠ d := by
  intro r hr hd
  have hnone := List.find?_eq_none.mp h r hr
  exact hnone (decide_eq_true hd)

variable {f : Delivery δ ρ S → Delivery δ ρ S}

theorem mem_update (h : r ∈ update d f rows) :
    (∃ r₀ ∈ rows, r₀.deliveryId = d ∧ r = f r₀) ∨ r ∈ rows ∧ r.deliveryId ≠ d := by
  obtain ⟨r₀, hr₀, rfl⟩ := List.mem_map.mp h
  by_cases hd : r₀.deliveryId = d
  · rw [if_pos hd]
    exact Or.inl ⟨r₀, hr₀, hd, rfl⟩
  · rw [if_neg hd]
    exact Or.inr ⟨hr₀, hd⟩

theorem mem_update_of_ne (h : r ∈ rows) (hd : r.deliveryId ≠ d) : r ∈ update d f rows :=
  List.mem_map.mpr ⟨r, h, if_neg hd⟩

theorem mem_update_self (h : r ∈ rows) (hd : r.deliveryId = d) : f r ∈ update d f rows :=
  List.mem_map.mpr ⟨r, h, if_pos hd⟩

theorem update_id : update d id rows = rows := by
  conv_rhs => rw [← List.map_id rows]
  apply List.map_congr_left
  intro r _
  split <;> rfl

theorem mem_enqueue {s : S} {key : ρ} (h : r ∈ enqueue rows s d key) :
    r ∈ rows ∨ get rows d = none ∧ r = ⟨d, s, key, nextSequence rows key, .queued, 0⟩ := by
  unfold enqueue at h
  split at h
  · exact Or.inl h
  · next hnone => exact (List.mem_append.mp h).imp id (fun h => ⟨hnone, List.mem_singleton.mp h⟩)

theorem mem_enqueue_of_mem {s : S} {key : ρ} (h : r ∈ rows) : r ∈ enqueue rows s d key := by
  unfold enqueue
  split
  · exact h
  · exact List.mem_append_left _ h

theorem lt_nextSequence (h : r ∈ rows) : r.recipientSequence < nextSequence rows r.recipientKey := by
  have hmax : ∀ l : List ℕ, ∀ n ∈ l, n ≤ l.foldr max 0 := by
    intro l
    induction l with
    | nil => exact fun n hn => by cases hn
    | cons m l ih =>
      intro n hn
      rw [List.foldr_cons]
      cases List.mem_cons.mp hn with
      | inl hn =>
        rw [hn]
        exact le_max_left _ _
      | inr hn => exact le_max_of_le_right (ih n hn)
  apply Nat.lt_succ_of_le
  apply hmax
  apply List.mem_map_of_mem
  exact List.mem_filter.mpr ⟨h, decide_eq_true rfl⟩

/-- What one segment of a call can do: to the table, to the call, to the records. -/
inductive Acts (p : Platform) (limits : Limits S) (rows : List (Delivery δ ρ S)) (x : Task δ ρ S) :
    Phase δ → Act → Effect δ ρ S → Prop
  | looked : Acts p limits rows x .looking .look
      ⟨rows, (selected rows x.target x.recipientKey).map (fun r => atFirst p r.deliveryId),
        none, none⟩
  | gone {d : δ} {phase : Phase δ} {a : Act} (hrow : phase.row = some d)
      (hattempt : phase.attempt = none) : Acts p limits rows x phase a ⟨rows, none, none, none⟩
  | found {d : δ} {phase : Phase δ} {a : Act} {r : Delivery δ ρ S} (hrow : phase.row = some d)
      (hattempt : phase.attempt = none) (hget : get rows d = some r) : Acts p limits rows x phase a
        ⟨rows, afterResult r.status, none, none⟩
  | goesOn {d : δ} {phase phase' : Phase δ} {a : Act} (hrow : phase.row = some d)
      (hattempt : phase.attempt = none) (hrow' : phase'.row = some d)
      (hattempt' : phase'.attempt = none) :
      Acts p limits rows x phase a ⟨rows, some phase', none, none⟩
  | claims {d : δ} {r : Delivery δ ρ S} (hget : get rows d = some r) :
      Acts p limits rows x (.claiming d) .claim
        ⟨update d startSending rows, some (.claimed d (r.attemptCount + 1)), none, none⟩
  | invokes {d : δ} {n : ℕ} : Acts p limits rows x (.claimed d n) .invoke
      ⟨rows, some (.inFlight d n), some d, none⟩
  | replies {d : δ} {n : ℕ} {o : Reply} : Acts p limits rows x (.inFlight d n) (.reply o)
      ⟨rows, some (.marking d n (p.verdict o)), none, if p.mayHaveArrived o then some d else none⟩
  | marks {d : δ} {n : ℕ} {v : Verdict} {delayed : Bool} {status : Status}
      (hs : marked (limits.maxAttempts x.service) n v = status) :
      Acts p limits rows x (.marking d n v) (.mark delayed)
        ⟨update d (setStatus status) rows, if status = .retryWait
          then some (afterRefusal p delayed d) else afterResult status, none, none⟩
  | fails {d : δ} {n : ℕ} {v : Verdict} :
      Acts p limits rows x (.marking d n v) .writeFails ⟨rows, none, none, none⟩

theorem acts_of_act (h : act p limits rows x phase a = some e) : Acts p limits rows x phase a e := by
  unfold act at h
  split at h
  · cases h
    exact .looked
  · next d delayed =>
    split at h
    · cases h
      exact .gone (d := d) rfl rfl
    · next r hget =>
      split at h
      · cases h
        exact .found rfl rfl hget
      split at h
      · cases h
        exact .goesOn (d := d) rfl rfl rfl rfl
      · cases h
        exact .goesOn (d := d) rfl rfl rfl rfl
  · next d =>
    cases h
    exact .goesOn (d := d) rfl rfl rfl rfl
  · next d =>
    cases h
    exact .gone (d := d) rfl rfl
  · next d =>
    split at h
    · cases h
      exact .gone (d := d) rfl rfl
    · next r hget =>
      split at h
      · cases h
        exact .found rfl rfl hget
      · cases h
        exact .claims hget
  · next d =>
    cases h
    exact .gone (d := d) rfl rfl
  · cases h
    exact .invokes
  · cases h
    exact .replies
  · cases h
    exact .marks rfl
  · cases h
    exact .fails
  · cases h

theorem atFirst_phase : (atFirst p d).row = some d ∧ (atFirst p d).attempt = none ∧
    (atFirst p d).holding = true := by
  unfold atFirst
  split <;> exact ⟨rfl, rfl, rfl⟩

theorem afterRefusal_phase {delayed : Bool} : (afterRefusal p delayed d).row = some d ∧
    (afterRefusal p delayed d).attempt = none ∧ (afterRefusal p delayed d).holding = true := by
  unfold afterRefusal
  split
  · exact ⟨rfl, rfl, rfl⟩
  split <;> exact ⟨rfl, rfl, rfl⟩

theorem afterResult_phase {status : Status} {phase : Phase δ}
    (h : afterResult status = some phase) : phase = .looking := by
  unfold afterResult at h
  split at h
  · exact (Option.some.inj h).symm
  · cases h

theorem holding_of_row {phase : Phase δ} (h : phase.row = some d) : phase.holding = true := by
  cases phase <;> first | rfl | cases h

theorem attempt_of_row_none {phase : Phase δ} (h : phase.row = none) : phase.attempt = none := by
  cases phase <;> first | rfl | cases h

theorem holding_of_acts (h : Acts p limits rows x phase a e) :
    phase.holding = true ∧ ∀ phase', e.phase = some phase' → phase'.holding = true := by
  cases h with
  | looked =>
    refine ⟨rfl, fun phase' h => ?_⟩
    obtain ⟨r, -, rfl⟩ := Option.map_eq_some_iff.mp h
    exact atFirst_phase.2.2
  | gone hrow => exact ⟨holding_of_row hrow, fun _ h => by cases h⟩
  | found hrow => exact ⟨holding_of_row hrow, fun _ h => by rw [afterResult_phase h]; rfl⟩
  | goesOn hrow _ hrow' =>
    refine ⟨holding_of_row hrow, fun phase' h => ?_⟩
    cases h
    exact holding_of_row hrow'
  | claims =>
    refine ⟨rfl, fun phase' h => ?_⟩
    cases h
    rfl
  | invokes =>
    refine ⟨rfl, fun phase' h => ?_⟩
    cases h
    rfl
  | replies =>
    refine ⟨rfl, fun phase' h => ?_⟩
    cases h
    rfl
  | marks =>
    refine ⟨rfl, fun phase' h => ?_⟩
    dsimp only at h
    split at h
    · cases h
      exact afterRefusal_phase.2.2
    · rw [afterResult_phase h]
      rfl
  | fails => exact ⟨rfl, fun _ h => by cases h⟩

variable {σ σ' : Outbox ι δ ρ S} {a : Label ι δ ρ S}

/-- What a step can be, with the condition it is taken under. -/
inductive Steps (p : Platform) (limits : Limits S) (σ : Outbox ι δ ρ S) :
    Label ι δ ρ S → Outbox ι δ ρ S → Prop
  | enqueue {s : S} {d : δ} {key : ρ} (hrun : σ.running s = true) :
      Steps p limits σ (.enqueue s d key) { σ with rows := enqueue σ.rows s d key }
  | deliver {t : ι} {s : S} {d : δ} (hrun : σ.running s = true)
      (ht : t ∉ σ.tasks.map Prod.fst) : Steps p limits σ (.deliver t s d) (deliver t s d σ)
  | resume {s : S} {ts : List ι} (hrun : σ.running s = true)
      (hnodup : (ts ++ σ.tasks.map Prod.fst).Nodup)
      (hlen : ts.length = (pendingDeliveryIds p s σ.rows).length) : Steps p limits σ (.resume s ts)
        ((ts.zip (pendingDeliveryIds p s σ.rows)).foldl (fun σ q => deliver q.1 s q.2 σ) σ)
  | acquire {t : ι} {x : Task δ ρ S} (hx : lookup t σ.tasks = some x) (hw : x.phase = .waiting)
      (hfree : σ.locked x.lock = false) : Steps p limits σ (.acquire t) { σ with
        tasks := replace t { x with phase := .looking } σ.tasks
        locked := Function.update σ.locked x.lock true }
  | act {t : ι} {x : Task δ ρ S} {a : Act} {e : Effect δ ρ S} (hx : lookup t σ.tasks = some x)
      (he : act p limits σ.rows x x.phase a = some e) :
      Steps p limits σ (.act t a) (perform t x e σ)
  | leave {t : ι} {x : Task δ ρ S} (hx : lookup t σ.tasks = some x) (hw : x.phase = .waiting) :
      Steps p limits σ (.leave t) (leave t x σ)
  | crash : Steps p limits σ .crash (crash σ)
  | recover {s : S} (hrun : σ.running s = false) : Steps p limits σ (.recover s) { σ with
      rows := recoverOnStartup p s σ.rows
      running := Function.update σ.running s true }

theorem steps_of_next (h : next p limits σ a = some σ') : Steps p limits σ a σ' := by
  cases a with
  | enqueue s d key =>
    simp only [next] at h
    split at h
    · next hrun =>
      cases h
      exact .enqueue hrun
    · cases h
  | deliver t s d =>
    simp only [next] at h
    split at h
    · next hc =>
      cases h
      exact .deliver hc.1 hc.2
    · cases h
  | resume s ts =>
    simp only [next] at h
    split at h
    · next hc =>
      cases h
      exact .resume hc.1 hc.2.1 hc.2.2
    · cases h
  | acquire t =>
    obtain ⟨x, hx, h⟩ := Option.bind_eq_some_iff.mp h
    split at h
    · next hc =>
      cases h
      exact .acquire hx hc.1 hc.2
    · cases h
  | act t a =>
    obtain ⟨x, hx, h⟩ := Option.bind_eq_some_iff.mp h
    obtain ⟨e, he, rfl⟩ := Option.map_eq_some_iff.mp h
    exact .act hx he
  | leave t =>
    obtain ⟨x, hx, h⟩ := Option.bind_eq_some_iff.mp h
    split at h
    · next hw =>
      cases h
      exact .leave hx hw
    · cases h
  | crash =>
    cases h
    exact .crash
  | recover s =>
    simp only [next] at h
    split at h
    · cases h
    · next hrun =>
      cases h
      exact .recover (by simpa using hrun)

end Kirara.OutboxSteps
