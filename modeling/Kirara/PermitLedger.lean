import Mathlib.Data.List.Basic

namespace Kirara.PermitLedger

variable {ρ : Type*} [DecidableEq ρ]

/-- One line of a ledger of permits: a permit of `p` was taken or given back. -/
inductive Entry (ρ : Type*) where
  | taken (p : ρ)
  | given (p : ρ)
  deriving DecidableEq

def settle (p : ρ) : Option Nat → Entry ρ → Option Nat
  | none, _ => none
  | some n, .taken q => if q = p then some (n + 1) else some n
  | some 0, .given q => if q = p then none else some 0
  | some (n + 1), .given q => if q = p then some n else some (n + 1)

/-- There is no such number when a permit was given back that was not held. -/
def held (p : ρ) (es : List (Entry ρ)) : Option Nat := es.foldl (settle p) (some 0)

/-- Every permit taken is given back exactly once, and no other one is. -/
def Balanced (es : List (Entry ρ)) : Prop := ∀ p, held p es = some 0

variable (p : ρ)

theorem foldl_settle_none (es : List (Entry ρ)) : es.foldl (settle p) none = none := by
  induction es with
  | nil => rfl
  | cons e es ih => exact ih

theorem held_append (es fs : List (Entry ρ)) : held p (es ++ fs) = fs.foldl (settle p) (held p es) := by
  simp only [held, List.foldl_append]

theorem balanced_nil : Balanced ([] : List (Entry ρ)) := fun _ => rfl

theorem balanced_append_iff {es fs : List (Entry ρ)} (h : Balanced es) : Balanced (es ++ fs) ↔ Balanced fs := by
  simp only [Balanced, held_append, h _]
  rfl

variable {es : List (Entry ρ)}

theorem not_balanced_of_held_none {p : ρ} (h : held p es = none)
    (fs : List (Entry ρ)) : ¬ Balanced (es ++ fs) := by
  intro hb
  have hp := hb p
  rw [held_append, h, foldl_settle_none] at hp
  cases hp

/-- What one holder of `p` leaves behind who gives back `n` times. -/
def lease (p : ρ) (n : Nat) : List (Entry ρ) := .taken p :: List.replicate n (.given p)

theorem balanced_lease_one : Balanced (lease p 1) := by
  intro q
  by_cases h : p = q <;> simp [lease, held, settle, h]

theorem not_balanced_lease_zero : ¬ Balanced (lease p 0) := by
  intro h
  have hp := h p
  simp [lease, held, settle] at hp

theorem held_lease_many (n : Nat) : held p (lease p (n + 2)) = none := by
  have h : (List.replicate n (Entry.given p)).foldl (settle p) none = none :=
    foldl_settle_none p _
  simp [lease, held, settle, List.replicate_succ, h]

/-- A permit is on loan when it was taken and not given back afterwards. -/
def OnLoan (p : ρ) (es : List (Entry ρ)) : Prop :=
  ∃ pre post, es = pre ++ .taken p :: post ∧ .given p ∉ post

theorem foldl_settle_of_not_given {p : ρ} (h : .given p ∉ es) (n : Nat) :
    ∃ m, n ≤ m ∧ es.foldl (settle p) (some n) = some m := by
  induction es generalizing n with
  | nil => exact ⟨n, Nat.le_refl n, rfl⟩
  | cons e es ih =>
    have he := List.ne_of_not_mem_cons h
    have hes := List.not_mem_of_not_mem_cons h
    cases e with
    | taken q =>
      by_cases hq : q = p
      · obtain ⟨m, hm, hf⟩ := ih hes (n + 1)
        exact ⟨m, by omega, by simpa [settle, hq] using hf⟩
      · obtain ⟨m, hm, hf⟩ := ih hes n
        exact ⟨m, hm, by simpa [settle, hq] using hf⟩
    | given q =>
      have hq : q ≠ p := fun hqp => he (by rw [hqp])
      obtain ⟨m, hm, hf⟩ := ih hes n
      refine ⟨m, hm, ?_⟩
      cases n <;> simpa [settle, hq] using hf

theorem not_onLoan_of_balanced (h : Balanced es) (p : ρ) : ¬ OnLoan p es := by
  rintro ⟨pre, post, rfl, hpost⟩
  have hp := h p
  rw [held_append, List.foldl_cons] at hp
  cases hpre : held p pre with
  | none =>
    rw [hpre] at hp
    simp [settle, foldl_settle_none] at hp
  | some n =>
    obtain ⟨m, hm, hf⟩ := foldl_settle_of_not_given hpost (n + 1)
    have hs : settle p (some n) (.taken p) = some (n + 1) := by simp [settle]
    rw [hpre, hs, hf, Option.some.injEq] at hp
    omega

end Kirara.PermitLedger
