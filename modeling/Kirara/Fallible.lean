import Mathlib.Data.List.Forall2

namespace Kirara.Fallible

/-! How a computation that can fail comes to a result, or to an error. -/

variable {ε α β : Type} {f : α → Except ε β}

theorem bind_eq_ok {x : Except ε α} {b : β} : (x >>= f) = .ok b ↔ ∃ a, x = .ok a ∧ f a = .ok b := by
  cases x <;> simp [bind, Except.bind]

theorem of_bind_error {x : Except ε α} {e : ε} {p : Prop}
    (h : (x >>= f) = .error e) (hx : x = .error e → p) (hf : ∀ a, f a = .error e → p) : p := by
  cases x with
  | error y =>
    cases h
    exact hx rfl
  | ok a => exact hf a h

variable {e : Except ε α}

theorem map_ok {f : α → β} {b : β} (h : e.map f = .ok b) : ∃ a, e = .ok a ∧ b = f a := by
  cases e with
  | error x => cases h
  | ok a =>
    cases h
    exact ⟨a, rfl, rfl⟩

theorem map_ok_iff {f : α → β} : (∃ b, e.map f = .ok b) ↔ ∃ a, e = .ok a := by
  cases e with
  | error x => exact ⟨fun ⟨_, h⟩ => (nomatch h), fun ⟨_, h⟩ => (nomatch h)⟩
  | ok a => exact ⟨fun _ => ⟨a, rfl⟩, fun _ => ⟨f a, rfl⟩⟩

theorem map_error {f : α → β} {x : ε} (h : e.map f = .error x) : e = .error x := by
  cases e with
  | error y =>
    cases h
    rfl
  | ok a => cases h

theorem map_eq_ok {f : α → β} {b : β} : f <$> e = .ok b ↔ ∃ a, e = .ok a ∧ f a = b := by
  cases e with
  | error x => exact ⟨nofun, fun ⟨_, h, _⟩ => (nomatch h)⟩
  | ok a => simp [Functor.map, Except.map]

theorem some_map_eq_ok {ε α : Type} {e : Except ε α} {a : α} : some <$> e = .ok (some a) ↔ e = .ok a := by
  rw [map_eq_ok]
  exact ⟨fun ⟨_, h, hb⟩ => (Option.some.inj hb) ▸ h, fun h => ⟨a, h, rfl⟩⟩

theorem pure_eq_ok {ε α : Type} {a b : α} : (pure a : Except ε α) = .ok b ↔ a = b :=
  Except.ok.injEq a b ▸ Iff.rfl

theorem ite_error_eq_ok {ε α : Type} {c : Prop} [Decidable c] {e : ε} {x : Except ε α} {a : α} :
    (if c then .error e else x) = .ok a ↔ ¬ c ∧ x = .ok a := by
  by_cases h : c
  · simp [h]
  · simp [h]

theorem ite_throw_eq_ok {ε α : Type} {c : Prop} [Decidable c] {e : ε} {x : Except ε α} {a : α} :
    (if c then throw e else x) = .ok a ↔ ¬ c ∧ x = .ok a :=
  ite_error_eq_ok

variable {l : List α}

theorem forall₂_of_mapM {bs : List β} (h : l.mapM f = .ok bs) : List.Forall₂ (fun a b => f a = .ok b) l bs := by
  induction l generalizing bs with
  | nil =>
    rw [List.mapM_nil] at h
    cases h
    exact .nil
  | cons a l ih =>
    rw [List.mapM_cons] at h
    obtain ⟨b, hb, h⟩ := bind_eq_ok.mp h
    obtain ⟨rest, hrest, h⟩ := bind_eq_ok.mp h
    cases pure_eq_ok.mp h
    exact .cons hb (ih hrest)

theorem exists_of_forall₂ {α β : Type} {R : α → β → Prop} {l : List α} {bs : List β} (h : List.Forall₂ R l bs)
    {a : α} (ha : a ∈ l) : ∃ b ∈ bs, R a b := by
  induction h with
  | nil => cases ha
  | cons hb _ ih =>
    cases ha with
    | head => exact ⟨_, List.mem_cons_self, hb⟩
    | tail _ hm =>
      obtain ⟨c, hc, hr⟩ := ih hm
      exact ⟨c, List.mem_cons_of_mem _ hc, hr⟩

theorem mapM_eq_ok {g : α → β} (h : ∀ a ∈ l, f a = .ok (g a)) : l.mapM f = .ok (l.map g) := by
  induction l with
  | nil => rfl
  | cons a l ih =>
    rw [List.mapM_cons, h a List.mem_cons_self, ih (fun b hb => h b (List.mem_cons_of_mem a hb))]
    rfl

theorem mapM_forall₂_iff {R : α → β → Prop} :
    (∃ bs, l.mapM f = .ok bs ∧ List.Forall₂ R l bs) ↔ ∀ a ∈ l, ∃ b, f a = .ok b ∧ R a b := by
  constructor
  · intro h a ha
    obtain ⟨bs, hok, hrel⟩ := h
    have hboth : List.Forall₂ (fun a b => f a = .ok b ∧ R a b) l bs :=
      List.Forall₂.mp (fun _ _ hb hr => ⟨hb, hr⟩) (forall₂_of_mapM hok) hrel
    obtain ⟨b, -, hb⟩ := exists_of_forall₂ hboth ha
    exact ⟨b, hb⟩
  · intro h
    induction l with
    | nil => exact ⟨[], rfl, .nil⟩
    | cons a l ih =>
      obtain ⟨b, hb, hr⟩ := h a List.mem_cons_self
      obtain ⟨bs, hok, hrel⟩ := ih (fun c hc => h c (List.mem_cons_of_mem a hc))
      refine ⟨b :: bs, ?_, .cons hr hrel⟩
      rw [List.mapM_cons, hb, hok]
      rfl

end Kirara.Fallible
