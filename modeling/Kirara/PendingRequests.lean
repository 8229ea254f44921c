import Kirara.Dicts
import Kirara.Schedules

namespace Kirara.PendingRequests

open Kirara.Dicts Kirara.Schedules

/-- Where the thread of an attempt has got to. -/
inductive Phase where
  | waiting
  | registered
  | ended
  deriving DecidableEq

/-- One attempt at a request. `closed` says that its response has been closed. -/
structure Attempt (κ : Type) where
  request : κ
  phase : Phase
  closed : Bool
  abandoned : Bool

/-- The pending responses, by `id(request)`, and the attempts as they were started. -/
structure Adapter (κ : Type) where
  pendingResponses : Dict κ Nat
  attempts : List (Attempt κ)
  current : κ → Option Nat

variable {κ : Type}

def Attempt.close (a : Attempt κ) : Attempt κ := { a with closed := true }

def Attempt.abandon (a : Attempt κ) : Attempt κ := { a with abandoned := true }

def Attempt.over (a : Attempt κ) : Bool := a.phase = .ended || a.abandoned

/-- The response is registered, and the upstream goes on. -/
def Attempt.live (a : Attempt κ) : Bool := a.phase = .registered && !a.closed

def empty : Adapter κ := ⟨Dict.empty, [], fun _ => none⟩

variable [DecidableEq κ]

def cancelPendingRequest (k : κ) (s : Adapter κ) : Adapter κ :=
  match s.pendingResponses.get k with
  | none => s
  | some i =>
    { s with
      pendingResponses := s.pendingResponses.pop k
      attempts := s.attempts.modify i Attempt.close }

omit [DecidableEq κ] in
def cancelAllPendingRequests (s : Adapter κ) : Adapter κ :=
  { s with
    pendingResponses := Dict.empty
    attempts := s.attempts.mapIdx (fun i a =>
      if i ∈ s.pendingResponses.values then a.close else a) }

def Adapter.setPhase (s : Adapter κ) (i : Nat) (p : Phase) : Adapter κ :=
  { s with attempts := s.attempts.modify i (fun a => { a with phase := p }) }

inductive Label (κ : Type) where
  | start (k : κ)
  | respond (i : Nat)
  | finish (i : Nat)
  | fail (i : Nat)
  | cancel (k : κ)
  | cancelAll

/-- An attempt starts when the one before has ended or was given up. -/
def start (k : κ) (s : Adapter κ) : Adapter κ :=
  { s with
    attempts := s.attempts ++ [⟨k, .waiting, false, false⟩]
    current := Function.update s.current k (some s.attempts.length) }

def Adapter.mayStart (s : Adapter κ) (k : κ) : Bool :=
  (s.current k).all (fun c => s.attempts[c]?.any Attempt.over)

def Adapter.at (s : Adapter κ) (i : Nat) (p : Phase) : Option (Attempt κ) :=
  s.attempts[i]?.filter (fun a => a.phase = p)

def giveUp (k : κ) (s : Adapter κ) : Adapter κ :=
  match s.current k with
  | none => s
  | some c => { s with attempts := s.attempts.modify c Attempt.abandon }

/-- `_track_response` takes away what is registered when the thread leaves. -/
def next (s : Adapter κ) : Label κ → Option (Adapter κ)
  | .start k => if s.mayStart k then some (start k s) else none
  | .respond i =>
    (s.at i .waiting).map (fun a =>
      { s.setPhase i .registered with pendingResponses := s.pendingResponses.set a.request i })
  | .finish i =>
    (s.at i .registered).map (fun a =>
      { s.setPhase i .ended with pendingResponses := s.pendingResponses.pop a.request })
  | .fail i => (s.at i .waiting).map (fun _ => s.setPhase i .ended)
  | .cancel k => some (giveUp k (cancelPendingRequest k s))
  | .cancelAll => some (cancelAllPendingRequests s)

/-- A cancel closes every response that is registered for the request. -/
def Cancels (s : Adapter κ) : Prop :=
  ∀ (i : Nat) (a : Attempt κ), s.attempts[i]? = some a → a.phase = .registered →
    ∃ b : Attempt κ, (cancelPendingRequest a.request s).attempts[i]? = some b ∧ b.closed = true

/-- All attempts can be cancelled, and the end of one leaves newer registrations. -/
def Keeps (s : Adapter κ) (l : Label κ) : Prop :=
  ∀ t, next s l = some t → Cancels t ∧ ∀ i, l = .finish i →
    ∀ k j, i < j → s.pendingResponses.get k = some j → t.pendingResponses.get k = some j

/-- A response is registered where none is, and a thread leaves its own at most. -/
def Careful (s : Adapter κ) : Label κ → Prop
  | .respond i => ∀ a ∈ s.at i .waiting, s.pendingResponses.get a.request = none
  | .finish i => ∀ a ∈ s.at i .registered, ∀ j ∈ s.pendingResponses.get a.request, j = i
  | _ => True

def Covered (s : Adapter κ) : Prop :=
  ∀ (i : Nat) (a : Attempt κ), s.attempts[i]? = some a → a.live = true → s.pendingResponses.get a.request = some i

structure Sound (s : Adapter κ) : Prop where
  entry : ∀ k i, s.pendingResponses.get k = some i →
    ∃ a : Attempt κ, s.attempts[i]? = some a ∧ a.request = k ∧ a.live = true
  fresh : ∀ (i : Nat) (a : Attempt κ), s.attempts[i]? = some a → a.phase = .waiting → a.closed = false

section Attempts

variable {s t : Adapter κ} {k : κ} {i j : Nat} {a b : Attempt κ} {l : Label κ} {p : Phase}

omit [DecidableEq κ] in
theorem live_iff : a.live = true ↔ a.phase = .registered ∧ a.closed = false := by
  simp [Attempt.live]

omit [DecidableEq κ] in
theorem at_eq_some : s.at i p = some a ↔ s.attempts[i]? = some a ∧ a.phase = p := by
  simp [Adapter.at, Option.filter_eq_some_iff]

theorem modify_cases {α : Type} {f : α → α} {l : List α} {b : α} (h : (l.modify i f)[j]? = some b) :
    (i = j ∧ ∃ a, l[i]? = some a ∧ b = f a) ∨ i ≠ j ∧ l[j]? = some b := by
  rw [List.getElem?_modify] at h
  obtain ⟨a, ha, rfl⟩ := Option.map_eq_some_iff.mp h
  by_cases hij : i = j
  · exact .inl ⟨hij, a, hij ▸ ha, if_pos hij⟩
  · exact .inr ⟨hij, by rw [ha, if_neg hij]⟩

omit [DecidableEq κ] in
theorem setPhase_cases (h : (s.setPhase i p).attempts[j]? = some b) :
    (i = j ∧ ∃ a, s.attempts[i]? = some a ∧ b = { a with phase := p }) ∨
      i ≠ j ∧ s.attempts[j]? = some b :=
  modify_cases h

theorem cancel_cases (h : (cancelPendingRequest k s).attempts[j]? = some b) :
    (s.pendingResponses.get k = some j ∧ ∃ a, s.attempts[j]? = some a ∧ b = a.close) ∨
      s.pendingResponses.get k ≠ some j ∧ s.attempts[j]? = some b := by
  unfold cancelPendingRequest at h
  split at h
  · next hk => exact .inr ⟨by simp [hk], h⟩
  · next i hk =>
    cases modify_cases h with
    | inl hi =>
      obtain ⟨rfl, ha⟩ := hi
      exact .inl ⟨hk, ha⟩
    | inr hi => exact .inr ⟨fun hj => hi.1 (Option.some.inj (hk.symm.trans hj)), hi.2⟩

theorem get_cancel {m : κ} : (cancelPendingRequest k s).pendingResponses.get m =
    if m = k then none else s.pendingResponses.get m := by
  unfold cancelPendingRequest
  split
  · next hk =>
    split
    · next hm => rw [hm, hk]
    · rfl
  · exact Dict.get_pop

theorem exists_cancelled (h : s.attempts[i]? = some a) :
    ∃ b, (cancelPendingRequest k s).attempts[i]? = some b := by
  unfold cancelPendingRequest
  split
  · exact ⟨a, h⟩
  · rw [List.getElem?_modify, h]
    exact ⟨_, rfl⟩

omit [DecidableEq κ] in
theorem cancelAll_cases (h : (cancelAllPendingRequests s).attempts[j]? = some b) :
    (j ∈ s.pendingResponses.values ∧ ∃ a, s.attempts[j]? = some a ∧ b = a.close) ∨
      j ∉ s.pendingResponses.values ∧ s.attempts[j]? = some b := by
  rw [cancelAllPendingRequests, List.getElem?_mapIdx] at h
  obtain ⟨a, ha, rfl⟩ := Option.map_eq_some_iff.mp h
  by_cases hj : j ∈ s.pendingResponses.values
  · exact .inl ⟨hj, a, ha, if_pos hj⟩
  · exact .inr ⟨hj, by rw [ha, if_neg hj]⟩

omit [DecidableEq κ] in
theorem pendingResponses_giveUp : (giveUp k s).pendingResponses = s.pendingResponses := by
  unfold giveUp
  split
  · rfl
  · rfl

omit [DecidableEq κ] in
theorem giveUp_cases (h : (giveUp k s).attempts[j]? = some b) :
    ∃ a, s.attempts[j]? = some a ∧ (b = a ∨ b = a.abandon) := by
  unfold giveUp at h
  split at h
  · exact ⟨b, h, .inl rfl⟩
  cases modify_cases h with
  | inl hi =>
    obtain ⟨rfl, a, ha, hb⟩ := hi
    exact ⟨a, ha, .inr hb⟩
  | inr hi => exact ⟨b, hi.2, .inl rfl⟩

theorem start_cases (h : (start k s).attempts[j]? = some b) :
    s.attempts[j]? = some b ∨ b.phase = .waiting ∧ b.closed = false := by
  rw [start, List.getElem?_append] at h
  split at h
  · exact .inl h
  · obtain rfl := List.mem_singleton.mp (List.mem_of_getElem? h)
    exact .inr ⟨rfl, rfl⟩

theorem cancels_iff : Cancels s ↔ Covered s := by
  constructor
  · intro h i a ha hlive
    obtain ⟨hphase, hclosed⟩ := live_iff.mp hlive
    obtain ⟨b, hb, hbc⟩ := h i a ha hphase
    cases cancel_cases hb with
    | inl hc => exact hc.1
    | inr hc =>
      rw [ha] at hc
      cases hc.2
      rw [hbc] at hclosed
      cases hclosed
  · intro h i a ha hphase
    obtain ⟨b, hb⟩ := exists_cancelled ha
    refine ⟨b, hb, ?_⟩
    cases cancel_cases hb with
    | inl hc =>
      obtain ⟨-, d, -, rfl⟩ := hc
      rfl
    | inr hc =>
      rw [ha] at hc
      cases hc.2
      by_contra hclosed
      exact hc.1 (h i a ha (live_iff.mpr ⟨hphase, eq_false_of_ne_true hclosed⟩))

end Attempts

variable {s t : Adapter κ} {k : κ} {i j : Nat} {a b : Attempt κ} {l : Label κ}

theorem covered_cancel (hs : Covered s) : Covered (cancelPendingRequest k s) := by
  intro j b hb hlive
  obtain ⟨-, c, -, rfl⟩ | ⟨hne, hb⟩ := cancel_cases hb
  · cases (live_iff.mp hlive).2
  · have hreg := hs j b hb hlive
    have hk : b.request ≠ k := by
      intro hsame
      rw [hsame] at hreg
      exact hne hreg
    rw [get_cancel, if_neg hk, hreg]

theorem covered_giveUp (hs : Covered s) : Covered (giveUp k s) := by
  intro j b hb hlive
  rw [pendingResponses_giveUp]
  obtain ⟨a, ha, rfl | rfl⟩ := giveUp_cases hb
  · exact hs j b ha hlive
  · exact hs j a ha hlive

theorem covered_next (hs : Covered s) (hok : Careful s l) (h : next s l = some t) : Covered t := by
  intro j b hb hlive
  have hopen := live_iff.mp hlive
  cases l with
  | start k =>
    cases (Option.ite_none_right_eq_some.mp h).2
    cases start_cases hb with
    | inl hb => exact hs j b hb hlive
    | inr hb =>
      rw [hb.1] at hopen
      cases hopen.1
  | respond i =>
    obtain ⟨a, ha, rfl⟩ := Option.map_eq_some_iff.mp h
    change (s.pendingResponses.set a.request i).get b.request = some j
    obtain ⟨rfl, d, hd, rfl⟩ | ⟨-, hb⟩ := setPhase_cases hb
    · rw [(at_eq_some.mp ha).1] at hd
      cases hd
      exact Dict.get_set_self
    · have hreg := hs j b hb hlive
      have hne : b.request ≠ a.request := by
        intro hsame
        rw [hsame, hok a ha] at hreg
        cases hreg
      rw [Dict.get_set_of_ne hne, hreg]
  | finish i =>
    obtain ⟨a, ha, rfl⟩ := Option.map_eq_some_iff.mp h
    change (s.pendingResponses.pop a.request).get b.request = some j
    obtain ⟨-, d, -, rfl⟩ | ⟨hij, hb⟩ := setPhase_cases hb
    · cases hopen.1
    · have hreg := hs j b hb hlive
      have hne : b.request ≠ a.request :=
        fun hsame => hij (hok a ha j (hsame ▸ hreg)).symm
      rw [Dict.get_pop_of_ne hne, hreg]
  | fail i =>
    obtain ⟨a, ha, rfl⟩ := Option.map_eq_some_iff.mp h
    obtain ⟨-, d, -, rfl⟩ | ⟨-, hb⟩ := setPhase_cases hb
    · cases hopen.1
    · exact hs j b hb hlive
  | cancel k =>
    cases h
    exact covered_giveUp (covered_cancel hs) j b hb hlive
  | cancelAll =>
    cases h
    obtain ⟨-, d, -, rfl⟩ | ⟨hj, hb⟩ := cancelAll_cases hb
    · cases hopen.2
    · exact absurd (Dict.mem_values_iff.mpr ⟨b.request, hs j b hb hlive⟩) hj

variable (hs : Sound s)

include hs

theorem not_waiting (h : s.pendingResponses.get k = some j)
    (hb : s.attempts[j]? = some b) : b.phase ≠ .waiting := by
  obtain ⟨a, ha, -, hlive⟩ := hs.entry k j h
  rw [hb] at ha
  cases ha
  rw [(live_iff.mp hlive).1]
  decide

theorem sound_start : Sound (start k s) where
  entry := fun m i h => by
    obtain ⟨a, ha, hr, hlive⟩ := hs.entry m i h
    exact ⟨a, by rw [start, List.getElem?_append_left (List.getElem?_eq_some_iff.mp ha).1, ha],
      hr, hlive⟩
  fresh := fun i b hb hphase => (start_cases hb).elim (fun hb => hs.fresh i b hb hphase) And.right

theorem sound_respond (ha : s.at i .waiting = some a) : Sound { s.setPhase i .registered with
      pendingResponses := s.pendingResponses.set a.request i } where
  entry := fun m j h => by
    obtain ⟨hi, hphase⟩ := at_eq_some.mp ha
    change (s.pendingResponses.set a.request i).get m = some j at h
    rw [Dict.get_set] at h
    split at h
    · next hm =>
      cases h
      exact ⟨{ a with phase := .registered }, by simp [Adapter.setPhase, hi], hm.symm,
        live_iff.mpr ⟨rfl, hs.fresh i a hi hphase⟩⟩
    · obtain ⟨b, hb, hr, hlive⟩ := hs.entry m j h
      have hij : i ≠ j := fun hij => not_waiting hs h (hij ▸ hi) hphase
      exact ⟨b, by simp [Adapter.setPhase, hij, hb], hr, hlive⟩
  fresh := fun j b hb hphase => by
    obtain ⟨-, d, -, rfl⟩ | ⟨-, hb⟩ := setPhase_cases hb
    · cases hphase
    · exact hs.fresh j b hb hphase

theorem sound_leave {m : Dict κ Nat}
    (hm : ∀ k j, m.get k = some j → s.pendingResponses.get k = some j ∧ j ≠ i) :
    Sound { s.setPhase i .ended with pendingResponses := m } where
  entry := fun k j h => by
    obtain ⟨hreg, hji⟩ := hm k j h
    obtain ⟨b, hb, hr, hlive⟩ := hs.entry k j hreg
    exact ⟨b, by simp [Adapter.setPhase, hji.symm, hb], hr, hlive⟩
  fresh := fun j b hb hphase => by
    obtain ⟨-, d, -, rfl⟩ | ⟨-, hb⟩ := setPhase_cases hb
    · cases hphase
    · exact hs.fresh j b hb hphase

theorem sound_cancel : Sound (cancelPendingRequest k s) where
  entry := fun m j h => by
    rw [get_cancel] at h
    split at h
    · cases h
    · next hmk =>
      obtain ⟨a, ha, hr, hlive⟩ := hs.entry m j h
      obtain ⟨b, hb⟩ := exists_cancelled (k := k) ha
      obtain ⟨hreg, -⟩ | ⟨-, hb'⟩ := cancel_cases hb
      · obtain ⟨c, hc, hck, -⟩ := hs.entry k j hreg
        rw [ha] at hc
        cases hc
        exact absurd (hr.symm.trans hck) hmk
      · rw [ha] at hb'
        cases hb'
        exact ⟨a, hb, hr, hlive⟩
  fresh := fun j b hb hphase => by
    obtain ⟨hreg, c, hc, rfl⟩ | ⟨-, hb⟩ := cancel_cases hb
    · exact (not_waiting hs hreg hc hphase).elim
    · exact hs.fresh j b hb hphase

theorem sound_giveUp : Sound (giveUp k s) where
  entry := fun m j h => by
    rw [pendingResponses_giveUp] at h
    obtain ⟨a, ha, hr, hlive⟩ := hs.entry m j h
    unfold giveUp
    split
    · exact ⟨a, ha, hr, hlive⟩
    · next c _ =>
      by_cases hcj : c = j
      · exact ⟨a.abandon, by simp [hcj, ha], hr, hlive⟩
      · exact ⟨a, by simp [hcj, ha], hr, hlive⟩
  fresh := fun j b hb hphase => by
    obtain ⟨a, ha, rfl | rfl⟩ := giveUp_cases hb
    · exact hs.fresh j b ha hphase
    · exact hs.fresh j a ha hphase

theorem sound_cancelAll : Sound (cancelAllPendingRequests s) where
  entry := fun m j h => by cases h
  fresh := fun j b hb hphase => by
    obtain ⟨hj, c, hc, rfl⟩ | ⟨-, hb⟩ := cancelAll_cases hb
    · obtain ⟨k, hreg⟩ := Dict.mem_values_iff.mp hj
      exact (not_waiting hs hreg hc hphase).elim
    · exact hs.fresh j b hb hphase

theorem sound_next (h : next s l = some t) : Sound t := by
  cases l with
  | start k =>
    cases (Option.ite_none_right_eq_some.mp h).2
    exact sound_start hs
  | respond i =>
    obtain ⟨a, ha, rfl⟩ := Option.map_eq_some_iff.mp h
    exact sound_respond hs ha
  | finish i =>
    obtain ⟨a, ha, rfl⟩ := Option.map_eq_some_iff.mp h
    refine sound_leave hs (fun k j hj => ?_)
    rw [Dict.get_pop] at hj
    split at hj
    · cases hj
    · next hk =>
      refine ⟨hj, fun hji => hk ?_⟩
      obtain ⟨b, hb, hr, -⟩ := hs.entry k j hj
      rw [hji, (at_eq_some.mp ha).1] at hb
      cases hb
      exact hr.symm
  | fail i =>
    obtain ⟨a, ha, rfl⟩ := Option.map_eq_some_iff.mp h
    obtain ⟨hi, hphase⟩ := at_eq_some.mp ha
    exact sound_leave hs (fun k j hj =>
      ⟨hj, fun hji => not_waiting hs hj (hji ▸ hi) hphase⟩)
  | cancel k =>
    cases h
    exact sound_giveUp (sound_cancel hs)
  | cancelAll =>
    cases h
    exact sound_cancelAll hs

omit hs

theorem keeps_of_careful (hs : Covered s) (hok : Careful s l) : Keeps s l := by
  intro t ht
  refine ⟨cancels_iff.mpr (covered_next hs hok ht), fun i hl k j hij hj => ?_⟩
  subst hl
  obtain ⟨a, ha, rfl⟩ := Option.map_eq_some_iff.mp ht
  have hne : k ≠ a.request := by
    intro hk
    have hji := hok a ha j (hk ▸ hj)
    omega
  exact (Dict.get_pop_of_ne hne).trans hj

theorem careful_of_keeps (hs : Sound s) (h : Keeps s l) : Careful s l := by
  cases l with
  | respond i =>
    intro a ha
    obtain ⟨hcancels, -⟩ := h _ (by rw [next, ha]; rfl)
    obtain ⟨hi, hphase⟩ := at_eq_some.mp ha
    by_contra hsome
    obtain ⟨j, hj⟩ := Option.ne_none_iff_exists'.mp hsome
    obtain ⟨b, hb, hr, hlive⟩ := hs.entry a.request j hj
    have hij : i ≠ j := fun hij => not_waiting hs hj (hij ▸ hi) hphase
    have hget := cancels_iff.mp hcancels j b (by simp [Adapter.setPhase, hij, hb]) hlive
    change (s.pendingResponses.set a.request i).get b.request = some j at hget
    rw [hr, Dict.get_set_self] at hget
    exact hij (Option.some.inj hget)
  | finish i =>
    intro a ha j hj
    obtain ⟨hcancels, -⟩ := h _ (by rw [next, ha]; rfl)
    obtain ⟨b, hb, hr, hlive⟩ := hs.entry a.request j hj
    by_contra hji
    have hij : i ≠ j := Ne.symm hji
    have hget := cancels_iff.mp hcancels j b (by simp [Adapter.setPhase, hij, hb]) hlive
    change (s.pendingResponses.pop a.request).get b.request = some j at hget
    rw [hr, Dict.get_pop_self] at hget
    cases hget
  | start k => trivial
  | fail i => trivial
  | cancel k => trivial
  | cancelAll => trivial

theorem covered_empty : Covered (empty : Adapter κ) := fun i a h => by cases h

theorem sound_empty : Sound (empty : Adapter κ) where
  entry := fun k i h => by cases h
  fresh := fun i a h => by cases h

/-- The attempts of a run can be cancelled and do not undo each other's registrations just in
case each step is careful. -/
theorem attempts_cancellable_iff (labels : List (Label κ)) :
    Along next Keeps (empty : Adapter κ) labels ↔ Along next Careful empty labels := by
  constructor
  · intro h
    exact along_of_invariant next (I := Sound) (fun _ _ hs => careful_of_keeps hs)
      (fun _ _ _ _ hs => sound_next hs) sound_empty h
  · intro h
    exact along_of_invariant next (I := Covered) (fun _ _ hs => keeps_of_careful hs)
      (fun _ _ _ hok hs => covered_next hs hok) covered_empty h

/-- An attempt is given up, the retry registers, and then the first thread leaves. -/
def slowThread : List (Label Unit) :=
  [.start (), .respond 0, .cancel (), .start (), .respond 1, .finish 0]

/-- The response of the retry is not registered, and a cancel leaves it running. -/
theorem slowThread_not_cancellable : ¬ Along next Keeps empty slowThread ∧
      (exec next empty slowThread).map (fun s =>
        (s.current (), s.attempts.map Attempt.phase,
          (cancelPendingRequest () s).attempts.map Attempt.closed)) =
        some (some 1, [.ended, .registered], [true, false]) := by
  refine ⟨fun h => ?_, by decide⟩
  obtain ⟨-, hends⟩ := ((((((h.2 _ rfl).2 _ rfl).2 _ rfl).2 _ rfl).2 _ rfl).1 _ rfl)
  cases hends 0 rfl () 1 (by decide) rfl

end Kirara.PendingRequests
