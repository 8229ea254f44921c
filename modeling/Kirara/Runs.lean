import Mathlib.Data.List.Basic

namespace Kirara.Runs

variable {α : Type} [DecidableEq α] {c : α}

/-- The longest runs of a letter, with `open_` of them read right before place `i`. -/
def runs (c : α) : Nat → Nat → List α → List (Nat × Nat)
  | i, open_, [] => if open_ = 0 then [] else [(i - open_, i)]
  | i, open_, d :: ds =>
    if d = c then runs c (i + 1) (open_ + 1) ds
    else (if open_ = 0 then [] else [(i - open_, i)]) ++ runs c (i + 1) 0 ds

theorem mem_runs {i k : Nat} {t before : List α} {run : Nat × Nat} (h : run ∈ runs c i k t)
    (hlen : before.length + k = i) (hlast : before.getLast? ≠ some c) :
    ∃ front back, before ++ (List.replicate k c ++ t) =
        front ++ (List.replicate (run.2 - run.1) c ++ back) ∧
      front.length = run.1 ∧ run.1 ≤ run.2 ∧ front.getLast? ≠ some c ∧ back.head? ≠ some c := by
  induction t generalizing i k before with
  | nil =>
    rw [runs] at h
    split at h
    · cases h
    · rw [List.mem_singleton.mp h]
      exact ⟨before, [], by simp [← hlen], by omega, by omega, hlast, nofun⟩
  | cons d ds ih =>
    rw [runs] at h
    split at h
    · next hd =>
      obtain ⟨front, back, heq, hrest⟩ := ih h (by omega) hlast
      refine ⟨front, back, ?_, hrest⟩
      rw [← heq, hd, List.replicate_succ', List.append_assoc, List.singleton_append]
    · next hd =>
      cases List.mem_append.mp h with
      | inl h =>
        split at h
        · cases h
        rw [List.mem_singleton.mp h]
        refine ⟨before, d :: ds, ?_, by omega, by omega, hlast, ?_⟩
        · rw [show i - (i - k) = k by omega]
        · rw [List.head?_cons]
          exact fun hs => hd (Option.some.inj hs)
      | inr h =>
        have hopen : (before ++ List.replicate k c ++ [d]).getLast? ≠ some c := by
          rw [List.getLast?_concat]
          exact fun hs => hd (Option.some.inj hs)
        obtain ⟨front, back, heq, hrest⟩ := ih h (by simp; omega) hopen
        refine ⟨front, back, ?_, hrest⟩
        rw [← heq]
        simp

theorem runs_concat {t : List α} (h : t.getLast? ≠ some c) (i k : Nat) (hk : t = [] → k = 0) :
    runs c i k (t ++ [c]) = runs c i k t ++ [(i + t.length, i + t.length + 1)] := by
  induction t generalizing i k with
  | nil => simp [runs, hk rfl]
  | cons d ds ih =>
    have hds : ds.getLast? ≠ some c := by
      cases ds with
      | nil => nofun
      | cons e es => rwa [List.getLast?_cons_cons] at h
    have hplace : i + 1 + ds.length = i + (d :: ds).length := by
      rw [List.length_cons]
      omega
    rw [List.cons_append, runs, runs]
    split
    · next hd =>
      have hne : ds ≠ [] := by
        intro hnil
        rw [hnil, hd] at h
        exact h rfl
      rw [ih hds _ _ (fun hnil => absurd hnil hne), hplace]
    · rw [ih hds _ _ (fun _ => rfl), hplace, List.append_assoc]

end Kirara.Runs
