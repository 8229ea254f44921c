import Mathlib.Data.List.Basic

namespace Kirara.CrashHoare

variable {σ φ ε α β : Type}

/-- What befalls one operation; `φ` describes what one that is cut off leaves. -/
inductive Fault (φ ε : Type) where
  | proceed
  | raise (e : ε) (left : φ)
  | crash (left : φ)

inductive Outcome (ε α : Type) where
  | returned (a : α)
  | raised (e : ε)
  | crashed

/-- A program on a durable state. It consumes one fault for each operation. -/
def Proc (σ φ ε α : Type) : Type := σ → List (Fault φ ε) → Outcome ε α × σ × List (Fault φ ε)

def Proc.bind (p : Proc σ φ ε α) (f : α → Proc σ φ ε β) : Proc σ φ ε β := fun s fs =>
  match p s fs with
  | (.returned a, t, gs) => f a t gs
  | (.raised e, t, gs) => (.raised e, t, gs)
  | (.crashed, t, gs) => (.crashed, t, gs)

instance : Monad (Proc σ φ ε) where
  pure a := fun s fs => (.returned a, s, fs)
  bind := Proc.bind

def readState : Proc σ φ ε σ := fun s fs => (.returned s, s, fs)

def raise (e : ε) : Proc σ φ ε α := fun s fs => (.raised e, s, fs)

/-- One operation that may be cut off half way. -/
def perform (act : σ → σ) (cut : φ → σ → σ) : Proc σ φ ε Unit := fun s fs =>
  match fs with
  | [] => (.returned (), act s, [])
  | .proceed :: gs => (.returned (), act s, gs)
  | .raise e left :: gs => (.raised e, cut left s, gs)
  | .crash left :: gs => (.crashed, cut left s, gs)

/-- One operation that happens as a whole or not at all. -/
def atomically (act : σ → σ) : Proc σ φ ε Unit := perform act (fun _ => id)

/-- A change of the state nothing can go wrong in. -/
def note (act : σ → σ) : Proc σ φ ε Unit := fun s fs => (.returned (), act s, fs)

def attempt (p : Proc σ φ ε α) (handler : ε → Proc σ φ ε α) : Proc σ φ ε α := fun s fs =>
  match p s fs with
  | (.returned a, t, gs) => (.returned a, t, gs)
  | (.raised e, t, gs) => handler e t gs
  | (.crashed, t, gs) => (.crashed, t, gs)

def forEach (f : β → Proc σ φ ε Unit) : List β → Proc σ φ ε Unit
  | [] => pure ()
  | b :: bs => do
    f b
    forEach f bs

def Outcome.Meets (o : Outcome ε α) (Q : α → Prop) (R : ε → Prop) (C : Prop) : Prop :=
  match o with
  | .returned a => Q a
  | .raised e => R e
  | .crashed => C

/-- Started in `P`, the program returns with `Q`, raises with `R` or crashes with `C`. -/
def Triple (calm : Prop) (P : σ → Prop) (p : Proc σ φ ε α) (Q : α → σ → Prop)
    (R : ε → σ → Prop) (C : σ → Prop) : Prop :=
  ∀ s fs, P s → (calm → fs = []) →
    (p s fs).1.Meets (fun a => Q a (p s fs).2.1) (fun e => R e (p s fs).2.1) (C (p s fs).2.1) ∧
      (calm → (p s fs).2.2 = [])

namespace Triple

variable {calm : Prop} {P P' : σ → Prop} {p : Proc σ φ ε α} {Q Q' : α → σ → Prop}
  {R R' : ε → σ → Prop} {C C' : σ → Prop}

theorem consequence (h : Triple calm P' p Q' R' C') (hP : ∀ s, P s → P' s)
    (hQ : ∀ a s, Q' a s → Q a s) (hR : ∀ e s, R' e s → R e s) (hC : ∀ s, C' s → C s) :
    Triple calm P p Q R C := by
  intro s fs hs hcalm
  obtain ⟨hm, hf⟩ := h s fs (hP s hs) hcalm
  refine ⟨?_, hf⟩
  cases ho : (p s fs).1 with
  | returned a =>
    rw [ho] at hm
    exact hQ a _ hm
  | raised e =>
    rw [ho] at hm
    exact hR e _ hm
  | crashed =>
    rw [ho] at hm
    exact hC _ hm

theorem strengthen (h : Triple calm P' p Q R C) (hP : ∀ s, P s → P' s) : Triple calm P p Q R C :=
  h.consequence hP (fun _ _ h => h) (fun _ _ h => h) (fun _ h => h)

theorem weaken (h : Triple calm P p Q' R C) (hQ : ∀ a s, Q' a s → Q a s) : Triple calm P p Q R C :=
  h.consequence (fun _ h => h) hQ (fun _ _ h => h) (fun _ h => h)

theorem assume {A : Prop} (hA : ∀ s, P s → A) (h : A → Triple calm P p Q R C) : Triple calm P p Q R C := by
  intro s fs hs hcalm
  exact h (hA s hs) s fs hs hcalm

theorem some_ {ι : Type} {P : ι → σ → Prop} (h : ∀ i, Triple calm (P i) p Q R C) :
    Triple calm (fun s => ∃ i, P i s) p Q R C := by
  rintro s fs ⟨i, hs⟩ hcalm
  exact h i s fs hs hcalm

theorem either (h : Triple calm P p Q R C) (h' : Triple calm P' p Q R C) :
    Triple calm (fun s => P s ∨ P' s) p Q R C := by
  intro s fs hs hcalm
  cases hs with
  | inl hs => exact h s fs hs hcalm
  | inr hs => exact h' s fs hs hcalm

theorem pure {a : α} (h : ∀ s, P s → Q a s) : Triple calm P (Pure.pure a : Proc σ φ ε α) Q R C := by
  intro s fs hs hcalm
  exact ⟨h s hs, hcalm⟩

theorem raise {e : ε} (h : ∀ s, P s → R e s) : Triple calm P (CrashHoare.raise e : Proc σ φ ε α) Q R C := by
  intro s fs hs hcalm
  exact ⟨h s hs, hcalm⟩

theorem bind {q : Proc σ φ ε β} {f : β → Proc σ φ ε α} {M : β → σ → Prop}
    (hq : Triple calm P q M R C) (hf : ∀ b, Triple calm (M b) (f b) Q R C) : Triple calm P (q >>= f) Q R C := by
  intro s fs hs hcalm
  obtain ⟨hm, hg⟩ := hq s fs hs hcalm
  have hb : (q >>= f) s fs = Proc.bind q f s fs := rfl
  rw [hb]
  unfold Proc.bind
  cases ho : q s fs with
  | mk o rest =>
  obtain ⟨t, gs⟩ := rest
  rw [ho] at hm hg
  cases o with
  | returned b => exact hf b t gs hm hg
  | raised e => exact ⟨hm, hg⟩
  | crashed => exact ⟨hm, hg⟩

theorem then_ {q : Proc σ φ ε Unit} {f : Unit → Proc σ φ ε α} {M : σ → Prop}
    (hq : Triple calm P q (fun _ => M) R C) (hf : Triple calm M (f ()) Q R C) : Triple calm P (q >>= f) Q R C :=
  bind hq (fun _ => hf)

theorem readState {f : σ → Proc σ φ ε α} (hf : ∀ w, P w → Triple calm (fun s => s = w) (f w) Q R C) :
    Triple calm P (CrashHoare.readState >>= f) Q R C := by
  intro s fs hs hcalm
  exact hf s hs s fs rfl hcalm

variable {act : σ → σ}

theorem perform {cut : φ → σ → σ} {Q : Unit → σ → Prop}
    (hq : ∀ s, P s → Q () (act s)) (hr : ∀ s left e, ¬ calm → P s → R e (cut left s))
    (hc : ∀ s left, ¬ calm → P s → C (cut left s)) : Triple calm P (CrashHoare.perform act cut) Q R C := by
  intro s fs hs hcalm
  cases fs with
  | nil => exact ⟨hq s hs, fun _ => rfl⟩
  | cons f gs =>
    have hnot : ¬ calm := fun h => by cases hcalm h
    cases f with
    | proceed => exact ⟨hq s hs, fun h => absurd h hnot⟩
    | raise e left => exact ⟨hr s left e hnot hs, fun h => absurd h hnot⟩
    | crash left => exact ⟨hc s left hnot hs, fun h => absurd h hnot⟩

theorem atomically {Q : Unit → σ → Prop} (hq : ∀ s, P s → Q () (act s))
    (hr : ∀ s e, ¬ calm → P s → R e s) (hc : ∀ s, ¬ calm → P s → C s) :
    Triple calm P (CrashHoare.atomically act : Proc σ φ ε Unit) Q R C :=
  perform hq (fun s _ e => hr s e) (fun s _ => hc s)

/-! Often it makes no difference whether a program raises or is cut off. -/

variable {E E' : σ → Prop}

theorem exits (h : Triple calm P p Q (fun _ => E') E') (hE : ∀ s, E' s → E s) :
    Triple calm P p Q (fun _ => E) E :=
  h.consequence (fun _ h => h) (fun _ _ h => h) (fun _ => hE) hE

theorem perform_exits {cut : φ → σ → σ} {Q : Unit → σ → Prop}
    (hq : ∀ s, P s → Q () (act s)) (he : ∀ s left, ¬ calm → P s → E (cut left s)) :
    Triple calm P (CrashHoare.perform act cut : Proc σ φ ε Unit) Q (fun _ => E) E :=
  perform hq (fun s left _ => he s left) he

theorem atomically_exits {Q : Unit → σ → Prop} (hq : ∀ s, P s → Q () (act s)) (he : ∀ s, ¬ calm → P s → E s) :
    Triple calm P (CrashHoare.atomically act : Proc σ φ ε Unit) Q (fun _ => E) E :=
  perform_exits hq (fun s _ => he s)

theorem note {Q : Unit → σ → Prop} (hq : ∀ s, P s → Q () (act s)) :
    Triple calm P (CrashHoare.note act : Proc σ φ ε Unit) Q R C := by
  intro s fs hs hcalm
  exact ⟨hq s hs, hcalm⟩

theorem attempt {handler : ε → Proc σ φ ε α} {M : ε → σ → Prop} (hp : Triple calm P p Q M C)
    (hh : ∀ e, Triple calm (M e) (handler e) Q R C) : Triple calm P (CrashHoare.attempt p handler) Q R C := by
  intro s fs hs hcalm
  obtain ⟨hm, hg⟩ := hp s fs hs hcalm
  unfold CrashHoare.attempt
  cases ho : p s fs with
  | mk o rest =>
  obtain ⟨t, gs⟩ := rest
  rw [ho] at hm hg
  cases o with
  | returned a => exact ⟨hm, hg⟩
  | raised e => exact hh e t gs hm hg
  | crashed => exact ⟨hm, hg⟩

theorem forEach {f : β → Proc σ φ ε Unit} (I : List β → σ → Prop) (l : List β)
    (h : ∀ done b rest, l = done ++ b :: rest → Triple calm (I done) (f b) (fun _ => I (done ++ [b])) R C) :
    Triple calm (I []) (CrashHoare.forEach f l) (fun _ => I l) R C := by
  suffices hs : ∀ done rest, l = done ++ rest →
      Triple calm (I done) (CrashHoare.forEach f rest) (fun _ => I l) R C from hs [] l rfl
  intro done rest hl
  induction rest generalizing done with
  | nil =>
    rw [List.append_nil] at hl
    exact pure (fun s hs => hl ▸ hs)
  | cons b rest ih =>
    exact then_ (h done b rest hl) (ih (done ++ [b]) (by rw [hl, List.append_assoc]; rfl))

theorem ends {I : σ → Prop} (h : Triple False P p (fun _ => I) (fun _ => I) I) {s : σ} (hs : P s)
    (fs : List (Fault φ ε)) : I (p s fs).2.1 := by
  have hm := (h s fs hs False.elim).1
  cases ho : (p s fs).1 with
  | returned a =>
    rw [ho] at hm
    exact hm
  | raised e =>
    rw [ho] at hm
    exact hm
  | crashed =>
    rw [ho] at hm
    exact hm

theorem returns (h : Triple True P p Q (fun _ _ => False) (fun _ => False)) {s : σ} (hs : P s) :
    ∃ a, (p s []).1 = .returned a ∧ Q a (p s []).2.1 := by
  have hm := (h s [] hs (fun _ => rfl)).1
  cases ho : (p s []).1 with
  | returned a =>
    rw [ho] at hm
    exact ⟨a, rfl, hm⟩
  | raised e =>
    rw [ho] at hm
    exact hm.elim
  | crashed =>
    rw [ho] at hm
    exact hm.elim

end Triple

end Kirara.CrashHoare
