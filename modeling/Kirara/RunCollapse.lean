import Mathlib.Data.List.TakeWhile

namespace Kirara.RunCollapse

variable {α : Type*} (keep : α → Bool) (mark : α)

/-- The flag says whether the item before belonged to such a run. -/
def substitute : Bool → List α → List α
  | _, [] => []
  | inRun, a :: as =>
    if keep a then a :: substitute false as
    else if inRun then substitute true as
    else mark :: substitute true as

/-- The front of a list that the first `n` items of its substitution stand for. -/
def kept : Bool → Nat → List α → List α
  | _, _, [] => []
  | inRun, n, a :: as =>
    if keep a then
      match n with
      | 0 => []
      | n + 1 => a :: kept false n as
    else if inRun then a :: kept true n as
    else
      match n with
      | 0 => []
      | n + 1 => a :: kept true n as

/-- A whole run, as it stands before `rest`, or the mark itself. -/
def Marked (run rest : List α) : Prop :=
  run = [mark] ∧ keep mark = true ∨
    run ≠ [] ∧ (∀ a ∈ run, keep a = false) ∧ ∀ a ∈ rest.head?, keep a = true

/-- Two lists that cannot be told apart when every run reads as one mark. -/
inductive Alike : List α → List α → Prop
  | nil : Alike [] []
  | same {a : α} {x y : List α} : keep a = true → Alike x y → Alike (a :: x) (a :: y)
  | runs {r s x y : List α} : Marked keep mark r x → Marked keep mark s y → Alike x y →
      Alike (r ++ x) (s ++ y)

attribute [grind =] substitute kept

variable {keep mark} {x : List α}

theorem substitute_of_head_kept (h : ∀ a ∈ x.head?, keep a = true) (b : Bool) :
    substitute keep mark b x = substitute keep mark false x := by
  cases x with
  | nil => rfl
  | cons a x =>
    have ha := h a rfl
    simp [substitute, ha]

theorem substitute_of_kept (h : ∀ a ∈ x, keep a = true) (b : Bool) : substitute keep mark b x = x := by
  induction x generalizing b with
  | nil => rfl
  | cons a x ih =>
    have ha := h a List.mem_cons_self
    have hx := ih (fun c hc => h c (List.mem_cons_of_mem a hc)) false
    simp [substitute, ha, hx]

theorem substitute_inRun {run : List α} (h : ∀ a ∈ run, keep a = false) (x : List α) :
    substitute keep mark true (run ++ x) = substitute keep mark true x := by
  induction run with
  | nil => rfl
  | cons a run ih =>
    have ha := h a List.mem_cons_self
    have hx := ih (fun c hc => h c (List.mem_cons_of_mem a hc))
    simpa [substitute, ha] using hx

theorem substitute_marked {run x : List α} (h : Marked keep mark run x) :
    substitute keep mark false (run ++ x) = mark :: substitute keep mark false x := by
  obtain ⟨rfl, hm⟩ | ⟨hne, hrun, hx⟩ := h
  · simp [substitute, hm]
  · obtain ⟨a, run, rfl⟩ := List.exists_cons_of_ne_nil hne
    have ha := hrun a List.mem_cons_self
    have hr : substitute keep mark true (run ++ x) = substitute keep mark true x :=
      substitute_inRun (fun c hc => hrun c (List.mem_cons_of_mem a hc)) x
    simp only [List.cons_append, substitute, ha, Bool.false_eq_true, if_false]
    rw [hr, substitute_of_head_kept hx]

theorem substitute_append_kept {a : α} (ha : keep a = true) (x y : List α) (b : Bool) :
    substitute keep mark b (x ++ a :: y) =
      substitute keep mark b x ++ a :: substitute keep mark false y := by
  induction x generalizing b with
  | nil => simp [substitute, ha]
  | cons c x ih =>
    simp only [List.cons_append, substitute]
    split
    · rw [ih, List.cons_append]
    split
    · exact ih true
    · rw [ih, List.cons_append]

theorem substitute_kept_append (h : ∀ a ∈ x, keep a = true) (y : List α) :
    substitute keep mark false (x ++ y) = x ++ substitute keep mark false y := by
  induction x with
  | nil => rfl
  | cons a x ih =>
    have ha := h a List.mem_cons_self
    have hx := ih (fun c hc => h c (List.mem_cons_of_mem a hc))
    simp [substitute, ha, hx]

theorem substitute_mem (hm : keep mark = true) {b : Bool} {a : α}
    (h : a ∈ substitute keep mark b x) : keep a = true := by
  induction x generalizing b with
  | nil => cases h
  | cons c x ih =>
    simp only [substitute] at h
    split at h
    · next hc =>
      obtain rfl | h := List.mem_cons.mp h
      · exact hc
      · exact ih h
    split at h
    · exact ih h
    obtain rfl | h := List.mem_cons.mp h
    · exact hm
    · exact ih h

theorem substitute_ne_nil (h : x ≠ []) : substitute keep mark false x ≠ [] := by
  obtain ⟨a, x, rfl⟩ := List.exists_cons_of_ne_nil h
  by_cases ha : keep a = true <;> simp [substitute, ha]

theorem substitute_kept (b : Bool) (n : Nat) (x : List α) :
    substitute keep mark b (kept keep b n x) = (substitute keep mark b x).take n := by
  induction x generalizing b n with
  | nil => simp [substitute, kept]
  | cons a x ih =>
    by_cases ha : keep a = true
    · cases n with
      | zero => simp [kept, substitute, ha]
      | succ n => simp [kept, substitute, ha, ih]
    · cases b with
      | true => simp [kept, substitute, ha, ih]
      | false =>
        cases n with
        | zero => simp [kept, substitute, ha]
        | succ n => simp [kept, substitute, ha, ih]

theorem substitute_cons {x out : List α} {a : α} (hx : substitute keep mark false x = a :: out) :
    ∃ run rest, x = run ++ rest ∧ run ≠ [] ∧ out = substitute keep mark false rest ∧
      (run = [a] ∧ keep a = true ∨ a = mark ∧ Marked keep mark run rest) := by
  cases x with
  | nil => cases hx
  | cons c x =>
    by_cases hc : keep c = true
    · simp only [substitute, hc, if_true, List.cons.injEq] at hx
      obtain ⟨rfl, rfl⟩ := hx
      exact ⟨[c], x, rfl, by simp, rfl, Or.inl ⟨rfl, hc⟩⟩
    · have hsplit := List.takeWhile_append_dropWhile (p := fun d => !keep d) (l := x)
      have hrun : ∀ d ∈ x.takeWhile (fun d => !keep d), keep d = false := fun d hd => by
        simpa using List.mem_takeWhile_imp hd
      have hrest : ∀ d ∈ (x.dropWhile (fun d => !keep d)).head?, keep d = true := fun d hd => by
        have hh := List.head?_dropWhile_not (fun d => !keep d) x
        rw [Option.mem_def.mp hd] at hh
        simpa using hh
      simp only [substitute, hc, Bool.false_eq_true, if_false, List.cons.injEq] at hx
      obtain ⟨rfl, rfl⟩ := hx
      refine ⟨c :: x.takeWhile (fun d => !keep d), x.dropWhile (fun d => !keep d), ?_, by simp, ?_,
        Or.inr ⟨rfl, Or.inr ⟨by simp, ?_, hrest⟩⟩⟩
      · rw [List.cons_append, hsplit]
      · have hin : substitute keep mark true (x.takeWhile (fun d => !keep d) ++
            x.dropWhile (fun d => !keep d)) = _ := substitute_inRun hrun _
        rw [hsplit, substitute_of_head_kept hrest] at hin
        exact hin
      · intro d hd
        obtain rfl | hd := List.mem_cons.mp hd
        · simpa using hc
        · exact hrun d hd

theorem substitute_eq_iff_alike {x y : List α} :
    substitute keep mark false x = substitute keep mark false y ↔ Alike keep mark x y := by
  constructor
  · intro h
    induction hn : substitute keep mark false x generalizing x y with
    | nil =>
      have hx : x = [] := by
        by_contra hx
        exact substitute_ne_nil hx hn
      have hy : y = [] := by
        by_contra hy
        exact substitute_ne_nil hy (h.symm.trans hn)
      rw [hx, hy]
      exact .nil
    | cons a out ih =>
      obtain ⟨r, x', rfl, -, hx, hr⟩ := substitute_cons hn
      obtain ⟨s, y', rfl, -, hy, hs⟩ := substitute_cons (h.symm.trans hn)
      have hout := ih (hx.symm.trans hy) hx.symm
      obtain ⟨rfl, ha⟩ | ⟨rfl, hr⟩ := hr
      · obtain ⟨rfl, -⟩ | ⟨rfl, hs⟩ := hs
        · exact .same ha hout
        · exact .runs (Or.inl ⟨rfl, ha⟩) hs hout
      · obtain ⟨rfl, ha⟩ | ⟨-, hs⟩ := hs
        · exact .runs hr (Or.inl ⟨rfl, ha⟩) hout
        · exact .runs hr hs hout
  · intro h
    induction h with
    | nil => rfl
    | same ha _ ih => simp [substitute, ha, ih]
    | runs hr hs _ ih => rw [substitute_marked hr, substitute_marked hs, ih]

end Kirara.RunCollapse
