import Mathlib.Data.Multiset.DershowitzManna
import Mathlib.Order.WellFounded

namespace Kirara.Schedules

variable {σ α : Type*} (next : σ → α → Option σ)

/-- A label that is not enabled where it is issued makes the whole run undefined. -/
def exec : σ → List α → Option σ
  | s, [] => some s
  | s, a :: as => (next s a).bind (fun t => exec t as)

/-- Every step of the run meets `ok` in the state it is taken from. -/
def Along (ok : σ → α → Prop) : σ → List α → Prop
  | _, [] => True
  | s, a :: as => ok s a ∧ ∀ t, next s a = some t → Along ok t as

instance decidableAlong {ok : σ → α → Prop} [∀ s a, Decidable (ok s a)] :
    ∀ s as, Decidable (Along next ok s as)
  | _, [] => isTrue trivial
  | s, a :: as =>
    match h : next s a with
    | none => decidable_of_iff (ok s a) (by simp [Along, h])
    | some t =>
      have : Decidable (Along next ok t as) := decidableAlong t as
      decidable_of_iff (ok s a ∧ Along next ok t as) (by simp [Along, h])

variable {as : List α}

theorem exec_cons {s u : σ} {a : α} :
    exec next s (a :: as) = some u ↔ ∃ t, next s a = some t ∧ exec next t as = some u := by
  simp only [exec, Option.bind_eq_some_iff]

theorem along_true (s : σ) (as : List α) : Along next (fun _ _ => True) s as := by
  induction as generalizing s with
  | nil => trivial
  | cons a as ih => exact ⟨trivial, fun t _ => ih t⟩

variable {p q : σ → α → Prop}

theorem along_mono (hpq : ∀ s a, p s a → q s a) {s : σ} (h : Along next p s as) : Along next q s as := by
  induction as generalizing s with
  | nil => trivial
  | cons a as ih => exact ⟨hpq s a h.1, fun t ht => ih (h.2 t ht)⟩

variable {ok : σ → α → Prop}

theorem along_append {before after : List α} {s t : σ}
    (h : Along next ok s (before ++ after)) (ht : exec next s before = some t) : Along next ok t after := by
  induction before generalizing s with
  | nil =>
    cases ht
    exact h
  | cons a before ih =>
    obtain ⟨v, hv, ht⟩ := (exec_cons next).mp ht
    exact ih (h.2 v hv) ht

variable {I : σ → Prop}

theorem along_of_invariant
    (hpq : ∀ s a, I s → p s a → q s a) (hstep : ∀ s a t, p s a → I s → next s a = some t → I t)
    {s : σ} (hs : I s) (h : Along next p s as) : Along next q s as := by
  induction as generalizing s with
  | nil => trivial
  | cons a as ih =>
    exact ⟨hpq s a hs h.1, fun t ht => ih (hstep s a t h.1 hs ht) (h.2 t ht)⟩

theorem exec_history {I : List α → σ → Prop}
    (hstep : ∀ h s a t, ok s a → I h s → next s a = some t → I (h ++ [a]) t)
    {h : List α} {s t : σ} (hs : I h s) (hok : Along next ok s as)
    (ht : exec next s as = some t) : I (h ++ as) t := by
  induction as generalizing h s with
  | nil =>
    cases ht
    simpa using hs
  | cons a as ih =>
    obtain ⟨v, hv, ht⟩ := (exec_cons next).mp ht
    have hi := ih (hstep h s a v hok.1 hs hv) (hok.2 v hv) ht
    simpa using hi

theorem along_iff_of_exec (hstep : ∀ s a t, I s → next s a = some t → (p s a ↔ q s a) ∧ (q s a → I t))
    {s u : σ} (hs : I s) (hu : exec next s as = some u) : Along next p s as ↔ Along next q s as := by
  induction as generalizing s with
  | nil => exact Iff.rfl
  | cons a as ih =>
    obtain ⟨t, ht, hu⟩ := (exec_cons next).mp hu
    obtain ⟨hpq, hkeep⟩ := hstep s a t hs ht
    have htail : q s a → (Along next p t as ↔ Along next q t as) := fun hq => ih (hkeep hq) hu
    constructor
    · intro ⟨hp, hrest⟩
      refine ⟨hpq.mp hp, fun v hv => ?_⟩
      cases hv.symm.trans ht
      exact (htail (hpq.mp hp)).mp (hrest t ht)
    · intro ⟨hq, hrest⟩
      refine ⟨hpq.mpr hq, fun v hv => ?_⟩
      cases hv.symm.trans ht
      exact (htail hq).mpr (hrest t ht)

theorem exec_invariant (hstep : ∀ s a t, ok s a → I s → next s a = some t → I t)
    {s t : σ} (hs : I s) (hok : Along next ok s as) (ht : exec next s as = some t) : I t :=
  exec_history next (I := fun _ => I) (fun _ s a t => hstep s a t) (h := []) hs hok ht

end Kirara.Schedules

namespace Kirara.Descents

section Work

variable {ι : Type} [Preorder ι] {m n k : Multiset ι} {x : ι}

open Multiset (IsDershowitzMannaLT)

theorem lt_add_right (h : IsDershowitzMannaLT m n) (k : Multiset ι) : IsDershowitzMannaLT (m + k) (n + k) := by
  obtain ⟨common, low, high, hne, hm, hn, hlt⟩ := h
  refine ⟨common + k, low, high, hne, ?_, ?_, hlt⟩
  · rw [hm, add_right_comm]
  · rw [hn, add_right_comm]

theorem lt_singleton (h : ∀ y ∈ m, y < x) : IsDershowitzMannaLT m {x} :=
  ⟨0, m, {x}, Multiset.singleton_ne_zero x, (zero_add m).symm, (zero_add _).symm,
    fun y hy => ⟨x, Multiset.mem_singleton_self x, h y hy⟩⟩

theorem singleton_lt {y : ι} (h : y < x) : IsDershowitzMannaLT ({y} : Multiset ι) {x} :=
  lt_singleton (fun _ hz => Multiset.mem_singleton.mp hz ▸ h)

theorem lt_of_add (hne : n ≠ 0) : IsDershowitzMannaLT m (n + m) :=
  ⟨m, 0, n, hne, (add_zero m).symm, add_comm n m, fun _ hy => (nomatch Multiset.notMem_zero _ hy)⟩

end Work

variable {σ ι : Type} [Preorder ι] [WellFoundedLT ι] (measure : σ → Multiset ι)

theorem no_infinite_run {step : σ → σ → Prop} {inv : σ → Prop} (hinv : ∀ s s', inv s → step s s' → inv s')
    (hlt : ∀ s s', inv s → step s s' → Multiset.IsDershowitzMannaLT (measure s') (measure s)) {f : ℕ → σ}
    (h0 : inv (f 0)) : ¬ ∀ n, step (f n) (f (n + 1)) := by
  intro hstep
  have hall : ∀ n, inv (f n) := by
    intro n
    induction n with
    | zero => exact h0
    | succ n ih => exact hinv _ _ ih (hstep n)
  have hwf : WellFounded (Multiset.IsDershowitzMannaLT : Multiset ι → Multiset ι → Prop) :=
    Multiset.wellFounded_isDershowitzMannaLT
  exact (wellFounded_iff_isEmpty_descending_chain.mp hwf).false
    ⟨fun n => measure (f n), fun n => hlt _ _ (hall n) (hstep n)⟩

end Kirara.Descents
