import Kirara.ConfirmSteps
import Kirara.Rosters

namespace Kirara.ConfirmOnce

open Kirara.Channels Kirara.Confirmations Kirara.ConfirmRuns Kirara.ConfirmSteps Kirara.Schedules

variable {κ π ξ δ : Type}

/-- The stored call of `id` reaches the tools at most once, by a caller that found the record
waiting. -/
structure ExecutedOnce (id : Text) (s : System κ π ξ δ) : Prop where
  owned : (s.owners.filter (fun o => o.confirmationId = id)).length ≤ 1
  handed : (s.handed.filter (fun h => h.confirmationId = id)).length ≤ 1
  waiting : ∀ o ∈ s.owners, o.confirmationId = id → o.found = some .awaitingConfirmation

def FindsNoExecution (st : Settings δ) (id : Text) (s : System κ π ξ δ) : Step κ π ξ → Prop
  | .claim _ _ id' sessionKey _ _ => id' = id → ¬ FoundExecuting st s.file id sessionKey
  | _ => True

section Governance

variable {st : Settings δ} {s t : System κ π ξ δ} {id : Text}

def OwnedBy (s : System κ π ξ δ) (id : Text) (k : κ) : Prop :=
  ∃ o ∈ s.owners, o.confirmationId = id ∧ o.caller = k

/-- What is known of one confirmation as long as no claim finds it in execution. -/
structure Governed (id : Text) (s : System κ π ξ δ) : Prop where
  owned : (s.owners.filter (fun o => o.confirmationId = id)).length ≤ 1
  waiting : ∀ o ∈ s.owners, o.confirmationId = id → o.found = some .awaitingConfirmation
  claimed : ∀ k, OwnedBy s id k → Claimed s.file id
  before : ∀ k c, s.callers k = some c → c.confirmationId = id → c.phase.beforeTool = true →
    OwnedBy s id k ∧ ∀ h ∈ s.handed, h.caller ≠ k
  handedBy : ∀ h ∈ s.handed, h.confirmationId = id → OwnedBy s id h.caller
  known : ∀ h ∈ s.handed, (s.callers h.caller).isSome = true
  distinct : ((s.handed.filter (fun h => h.confirmationId = id)).map Handover.caller).Nodup

theorem governed_start (file : StoreFile ξ δ) (pending : π → Text → Option ξ) :
    Governed id (start file pending : System κ π ξ δ) := by
  refine ⟨by simp [start], by simp [start], ?_, ?_, by simp [start], by simp [start],
    by simp [start]⟩
  · rintro k ⟨o, ho, -⟩
    cases ho
  · intro k c hc
    cases hc

theorem ownedBy_unique (hg : Governed id s) {k k' : κ} (hk : OwnedBy s id k)
    (hk' : OwnedBy s id k') : k = k' := by
  obtain ⟨o, ho, hoi, rfl⟩ := hk
  obtain ⟨o', ho', hoi', rfl⟩ := hk'
  have hle : s.owners.countP (fun o => o.confirmationId = id) ≤ 1 := by
    rw [List.countP_eq_length_filter]
    exact hg.owned
  rw [Rosters.eq_of_countP_le_one hle ho ho' (decide_eq_true hoi) (decide_eq_true hoi')]

theorem executedOnce_of_governed (hg : Governed id s) : ExecutedOnce id s := by
  refine ⟨hg.owned, ?_, hg.waiting⟩
  cases hl : s.handed.filter (fun h => h.confirmationId = id) with
  | nil => simp
  | cons h hs =>
    have hmem : ∀ g ∈ h :: hs, OwnedBy s id g.caller := fun g hgm => by
      rw [← hl] at hgm
      obtain ⟨hgs, hgi⟩ := List.mem_filter.mp hgm
      exact hg.handedBy g hgs (by simpa using hgi)
    have hrep : (h :: hs).map Handover.caller = List.replicate (h :: hs).length h.caller := by
      refine List.eq_replicate_iff.mpr ⟨by simp, fun k hk => ?_⟩
      obtain ⟨g, hgm, rfl⟩ := List.mem_map.mp hk
      exact ownedBy_unique hg (hmem g hgm) (hmem h List.mem_cons_self)
    have hnd := hg.distinct
    rw [hl, hrep, List.nodup_replicate] at hnd
    exact hnd

theorem ownedBy_congr (h : t.owners = s.owners) (k : κ) : OwnedBy t id k ↔ OwnedBy s id k := by
  rw [OwnedBy, h, OwnedBy]

theorem governed_advances (hg : Governed id s) (h : Advances s t) : Governed id t := by
  refine ⟨?_, ?_, ?_, ?_, ?_, ?_, ?_⟩
  · rw [h.owners]
    exact hg.owned
  · rw [h.owners]
    exact hg.waiting
  · intro k hk
    exact h.claimed id (hg.claimed k ((ownedBy_congr h.owners k).mp hk))
  · intro k c' hc' hid hb
    obtain ⟨c, hc, hci, hcb⟩ := h.before k c' hc' hb
    obtain ⟨ho, hn⟩ := hg.before k c hc (hci.trans hid) hcb
    rw [h.handed]
    exact ⟨(ownedBy_congr h.owners k).mpr ho, hn⟩
  · intro g hgm hgi
    rw [h.handed] at hgm
    exact (ownedBy_congr h.owners _).mpr (hg.handedBy g hgm hgi)
  · intro g hgm
    rw [h.handed] at hgm
    exact h.callers _ (hg.known g hgm)
  · rw [h.handed]
    exact hg.distinct

theorem governed_claims (hg : Governed id s) {k : κ} {id' key : Text}
    (hok : id' = id → ¬ FoundExecuting st s.file id key) (h : Claims st s t k id' key) : Governed id t := by
  have hwait : id' = id → storedStatus s.file id' = some .awaitingConfirmation := by
    rintro rfl
    exact h.found.resolve_right (fun hx => hok rfl hx.2)
  -- the record was waiting, so nobody owned it
  have hnone : id' = id → s.owners.filter (fun o => o.confirmationId = id) = [] := by
    rintro rfl
    refine List.filter_eq_nil_iff.mpr (fun o ho hoi => ?_)
    obtain ⟨s', hs', hne⟩ := hg.claimed o.caller ⟨o, ho, by simpa using hoi, rfl⟩
    rw [hwait rfl, Option.some.injEq] at hs'
    exact hne hs'.symm
  have hkeep : ∀ j, OwnedBy s id j → OwnedBy t id j := by
    rintro j ⟨o, ho, hoi⟩
    exact ⟨o, by rw [h.owners]; exact List.mem_cons_of_mem _ ho, hoi⟩
  have hfresh : ∀ g ∈ s.handed, g.caller ≠ k := by
    rintro g hgm rfl
    have hkn := hg.known g hgm
    rw [h.fresh] at hkn
    cases hkn
  refine ⟨?_, ?_, ?_, ?_, ?_, ?_, ?_⟩
  · rw [h.owners, List.filter_cons]
    by_cases hid : id' = id
    · simp [hid, hnone hid]
    · simpa [hid] using hg.owned
  · intro o ho hoi
    rw [h.owners] at ho
    cases List.mem_cons.mp ho with
    | inl he =>
      rw [he] at hoi ⊢
      exact hwait hoi
    | inr hm => exact hg.waiting o hm hoi
  · rintro j ⟨o, ho, hoi, rfl⟩
    rw [h.owners] at ho
    cases List.mem_cons.mp ho with
    | inl he =>
      rw [he] at hoi
      exact hoi ▸ h.executing
    | inr hm => exact h.claimed id (hg.claimed o.caller ⟨o, hm, hoi, rfl⟩)
  · intro j c hc hci hb
    rw [h.handed]
    by_cases hj : j = k
    · rw [hj] at hc ⊢
      obtain ⟨c', hc', hid⟩ := h.caller
      rw [hc', Option.some.injEq] at hc
      rw [← hc] at hci
      exact ⟨⟨_, by rw [h.owners]; exact List.mem_cons_self, hid.symm.trans hci, rfl⟩, hfresh⟩
    · rw [h.others j hj] at hc
      obtain ⟨ho, hn⟩ := hg.before j c hc hci hb
      exact ⟨hkeep j ho, hn⟩
  · intro g hgm hgi
    rw [h.handed] at hgm
    exact hkeep _ (hg.handedBy g hgm hgi)
  · intro g hgm
    rw [h.handed] at hgm
    rw [h.others _ (hfresh g hgm)]
    exact hg.known g hgm
  · rw [h.handed]
    exact hg.distinct

theorem governed_hands (hg : Governed id s) {k : κ} {id' : Text} (h : Hands s t k id') : Governed id t := by
  obtain ⟨call, hcall⟩ := h.handed
  obtain ⟨c, hc, hci, hcb⟩ := h.caller
  obtain ⟨d, hd, hdb⟩ := h.after
  refine ⟨?_, ?_, ?_, ?_, ?_, ?_, ?_⟩
  · rw [h.owners]
    exact hg.owned
  · rw [h.owners]
    exact hg.waiting
  · intro j hj
    exact h.claimed id (hg.claimed j ((ownedBy_congr h.owners j).mp hj))
  · intro j e he hei hb
    have hj : j ≠ k := by
      rintro rfl
      rw [hd, Option.some.injEq] at he
      rw [← he, hdb] at hb
      cases hb
    rw [h.others j hj] at he
    obtain ⟨ho, hn⟩ := hg.before j e he hei hb
    refine ⟨(ownedBy_congr h.owners j).mpr ho, fun g hgm => ?_⟩
    rw [hcall] at hgm
    cases List.mem_cons.mp hgm with
    | inl hgk =>
      rw [hgk]
      exact Ne.symm hj
    | inr hgm => exact hn g hgm
  · intro g hgm hgi
    rw [hcall] at hgm
    refine (ownedBy_congr h.owners _).mpr ?_
    cases List.mem_cons.mp hgm with
    | inl hgk =>
      rw [hgk] at hgi ⊢
      exact (hg.before k c hc (hci.trans hgi) hcb).1
    | inr hgm => exact hg.handedBy g hgm hgi
  · intro g hgm
    rw [hcall] at hgm
    by_cases hgk : g.caller = k
    · rw [hgk, hd]
      rfl
    · rw [h.others _ hgk]
      cases List.mem_cons.mp hgm with
      | inl he => exact absurd (congrArg Handover.caller he) hgk
      | inr hgm => exact hg.known g hgm
  · rw [hcall, List.filter_cons]
    by_cases hid : id' = id
    · have hn := (hg.before k c hc (hci.trans hid) hcb).2
      rw [if_pos (by simpa using hid), List.map_cons, List.nodup_cons]
      refine ⟨fun hm => ?_, hg.distinct⟩
      obtain ⟨g, hgm, hgk⟩ := List.mem_map.mp hm
      exact hn g (List.mem_of_mem_filter hgm) hgk
    · rw [if_neg (by simpa using hid)]
      exact hg.distinct

end Governance

section Runs

variable [DecidableEq κ] [DecidableEq π] [DecidableEq δ] {st : Settings δ}
  {s t : System κ π ξ δ} {id : Text}

theorem governed_next {l : Step κ π ξ} (hok : FindsNoExecution st id s l) (hg : Governed id s)
    (h : next st s l = some t) : Governed id t := by
  obtain ⟨k, p, id', key, freshId, now, rfl, hc⟩ | ⟨k, id', hh⟩ | ha := next_cases h
  · refine governed_claims hg (fun hid => ?_) hc
    have hnot := hok hid
    exact hnot
  · exact governed_hands hg hh
  · exact governed_advances hg ha

theorem owners_mono {l : Step κ π ξ} (h : next st s l = some t) {o : Ownership κ}
    (ho : o ∈ s.owners) : o ∈ t.owners := by
  obtain ⟨k, p, id', key, freshId, now, -, hc⟩ | ⟨k, id', hh⟩ | ha := next_cases h
  · rw [hc.owners]
    exact List.mem_cons_of_mem _ ho
  · rwa [hh.owners]
  · rwa [ha.owners]

variable {ls : List (Step κ π ξ)}

theorem owners_exec (h : exec (next st) s ls = some t) {o : Ownership κ} (ho : o ∈ s.owners) : o ∈ t.owners :=
  exec_invariant (next st) (I := fun u => o ∈ u.owners)
    (fun _ _ _ _ hu hn => owners_mono hn hu) ho (along_true (next st) s ls) h

theorem claimPending_of_foundExecuting {key : Text} {file : StoreFile ξ δ}
    (h : FoundExecuting st file id key) (now : Int) (freshId : Text) :
    ∃ c file', claimPending st now freshId id key file = .ok (.status .executing, some c, file') := by
  obtain ⟨item, c, rfl, hi, hd, hs⟩ := h
  have hl : loadConfirmationPayload st now (.items item) =
      .ok (fun id => (item id).map (upgradeConfirmation st now)) := rfl
  have hc : (item id).map (upgradeConfirmation st now) = some c := by rw [hi]; rfl
  cases hb : backfill freshId id c (fun id => (item id).map (upgradeConfirmation st now))
      (.items item) with
  | mk c' rest =>
  obtain ⟨records', file'⟩ := rest
  have hspec := backfill_spec hl hc freshId
  rw [hb] at hspec
  obtain ⟨hs', hd', -⟩ := hspec
  refine ⟨c', file', ?_⟩
  have hstatus : c'.status = .executing := hs'.trans hs
  have hdigest : c'.sessionDigest = st.digest key := hd'.trans hd
  unfold claimPending
  rw [hl]
  simp only [bind, Except.bind, hc, hb, hdigest, hstatus]
  simp

theorem owner_of_foundExecuting {k : κ} {p : π} {key freshId : Text} {now : Int}
    (hf : FoundExecuting st s.file id key) (h : next st s (.claim k p id key freshId now) = some t) :
    ∃ o ∈ t.owners, o.confirmationId = id ∧ o.found = some .executing := by
  obtain ⟨c, file', hc⟩ := claimPending_of_foundExecuting hf now freshId
  simp only [next] at h
  split at h
  · cases h
  cases h
  refine ⟨⟨k, id, storedStatus s.file id⟩, ?_, rfl, storedStatus_of_foundExecuting hf⟩
  simp [claim, hc]

theorem along_of_executedOnce (h : exec (next st) s ls = some t)
    (ht : ExecutedOnce id t) : Along (next st) (FindsNoExecution st id) s ls := by
  induction ls generalizing s with
  | nil => trivial
  | cons l ls ih =>
    obtain ⟨u, hu, hrun⟩ := (exec_cons (next st)).mp h
    refine ⟨?_, fun v hv => ?_⟩
    · cases l with
      | claim k p id' key freshId now =>
        rintro rfl hf
        obtain ⟨o, ho, hoi, hfound⟩ := owner_of_foundExecuting hf hu
        have hw := ht.waiting o (owners_exec hrun ho) hoi
        rw [hfound] at hw
        cases hw
      | suspend => trivial
      | fetch => trivial
      | authorize => trivial
      | finish => trivial
      | resume => trivial
      | fail => trivial
      | cancel => trivial
      | restart => trivial
    · rw [hu, Option.some.injEq] at hv
      exact hv ▸ ih hrun

/-- However many callers, processes and restarts there are, the stored call is
owned and executed once exactly when no claim finds its record in execution. -/
theorem executedOnce_iff (st : Settings δ) (id : Text) (file : StoreFile ξ δ)
    (pending : π → Text → Option ξ) (ls : List (Step κ π ξ)) (s : System κ π ξ δ)
    (h : exec (next st) (start file pending) ls = some s) :
    ExecutedOnce id s ↔ Along (next st) (FindsNoExecution st id) (start file pending) ls := by
  refine ⟨along_of_executedOnce h, fun hok => executedOnce_of_governed ?_⟩
  exact exec_invariant (next st) (fun _ _ _ hl hg hn => governed_next hl hg hn)
    (governed_start file pending) hok h

end Runs

def sampleSettings : Settings Text := ⟨fun t => t, 900, by decide⟩

def call : Text := "c".toList

/-- One process: the second click comes while the tool of the first one runs. -/
def doubleClick : List (Step ℕ ℕ Unit) :=
  [.suspend 0 call "s".toList none () none 0, .claim 0 0 call "s".toList "t".toList 1,
    .fetch 0 none none 1, .authorize 0 (.proceed ()) none 1,
    .claim 1 0 call "s".toList "t".toList 2, .fetch 1 none none 2,
    .authorize 1 (.proceed ()) none 2]

def afterDoubleClick : System ℕ ℕ Unit Text :=
  (exec (next sampleSettings) (start .absent (fun _ _ => none)) doubleClick).get (by decide +kernel)

theorem executedOnce_iff_doubleClick : ExecutedOnce call afterDoubleClick ↔
    Along (next sampleSettings) (FindsNoExecution sampleSettings call)
      (start .absent (fun _ _ => none)) doubleClick :=
  executedOnce_iff sampleSettings call .absent (fun _ _ => none) doubleClick afterDoubleClick
    (Option.some_get _).symm

/-- Both clicks own the execution, and the tool runs twice. -/
theorem second_click_executes_again :
    ¬ ExecutedOnce call afterDoubleClick ∧ afterDoubleClick.handed.length = 2 := by
  refine ⟨fun h => ?_, by decide +kernel⟩
  have hh := h.handed
  revert hh
  decide +kernel

end Kirara.ConfirmOnce
