import Mathlib.Algebra.Order.Ring.Int
import Mathlib.Data.List.Basic
import Mathlib.Data.List.Pairwise
import Mathlib.Data.Prod.Lex

namespace Kirara.StableSorts

variable {α τ : Type} [LinearOrder τ]

/-- The elements in the order of keys, those with one key as they were. -/
structure StablySorted (key : α → τ) (xs ys : List α) : Prop where
  sorted : ys.Pairwise (fun a b => key a ≤ key b)
  stable : ∀ k, ys.filter (fun a => key a = k) = xs.filter (fun a => key a = k)

def sortBy (key : α → τ) (xs : List α) : List α := xs.mergeSort (fun a b => key a ≤ key b)

variable {key : α → τ} {xs : List α}

theorem sortBy_perm : (sortBy key xs).Perm xs := List.mergeSort_perm xs _

theorem key_trans (a b c : α) (hab : decide (key a ≤ key b) = true) (hbc : decide (key b ≤ key c) = true) :
    decide (key a ≤ key c) = true := by
  simp only [decide_eq_true_eq] at hab hbc ⊢
  exact le_trans hab hbc

theorem key_total (a b : α) : (decide (key a ≤ key b) || decide (key b ≤ key a)) = true := by
  simpa using le_total (key a) (key b)

theorem stablySorted_sortBy (key : α → τ) (xs : List α) : StablySorted key xs (sortBy key xs) where
  sorted := by
    have h : (sortBy key xs).Pairwise (fun a b => decide (key a ≤ key b) = true) :=
      List.pairwise_mergeSort key_trans key_total xs
    simpa using h
  stable k := by
    -- the elements with one key are a sorted sublist, and such a one stays a sublist
    have hsorted : (xs.filter (fun a => key a = k)).Pairwise (fun a b => decide (key a ≤ key b) = true) := by
      apply List.pairwise_of_forall_mem_list
      intro a ha b hb
      simp only [List.mem_filter, decide_eq_true_eq] at ha hb ⊢
      exact le_of_eq (ha.2.trans hb.2.symm)
    have hsub := List.sublist_mergeSort key_trans key_total hsorted List.filter_sublist
    have hfilter := hsub.filter (fun a => key a = k)
    rw [List.filter_filter] at hfilter
    simp only [Bool.and_self] at hfilter
    exact (hfilter.eq_of_length ((sortBy_perm.filter _).length_eq.symm)).symm

theorem StablySorted.unique {ys zs : List α} (hy : StablySorted key xs ys) (hz : StablySorted key xs zs) : ys = zs := by
  have hfilter (k : τ) : ys.filter (fun a => key a = k) = zs.filter (fun a => key a = k) :=
    (hy.stable k).trans (hz.stable k).symm
  have hsorted := And.intro hy.sorted hz.sorted
  clear hy hz
  induction ys generalizing zs with
  | nil =>
    cases zs with
    | nil => rfl
    | cons z zs => simpa using hfilter (key z)
  | cons y ys ih =>
    cases zs with
    | nil => simpa using hfilter (key y)
    | cons z zs =>
      obtain ⟨hy, hz⟩ := hsorted
      have hmem {l m : List α} (h : ∀ k, l.filter (fun a => key a = k) = m.filter (fun a => key a = k)) {a : α}
          (ha : a ∈ l) : a ∈ m := by
        have hk : a ∈ l.filter (fun b => key b = key a) := List.mem_filter.mpr ⟨ha, by simp⟩
        rw [h] at hk
        exact (List.mem_filter.mp hk).1
      have hyz : key y ≤ key z := by
        cases List.mem_cons.mp (hmem (fun k => (hfilter k).symm) List.mem_cons_self) with
        | inl h => rw [h]
        | inr h => exact List.rel_of_pairwise_cons hy h
      have hzy : key z ≤ key y := by
        cases List.mem_cons.mp (hmem hfilter List.mem_cons_self) with
        | inl h => rw [h]
        | inr h => exact List.rel_of_pairwise_cons hz h
      have hkey : key y = key z := le_antisymm hyz hzy
      have hhead : y = z := by
        have h := hfilter (key z)
        rw [List.filter_cons_of_pos (by simpa using hkey), List.filter_cons_of_pos (by simp)] at h
        exact (List.cons.inj h).1
      subst hhead
      have htail (k : τ) : ys.filter (fun a => key a = k) = zs.filter (fun a => key a = k) := by
        have h := hfilter k
        by_cases hk : key y = k
        · rw [List.filter_cons_of_pos (by simpa using hk), List.filter_cons_of_pos (by simpa using hk)] at h
          exact (List.cons.inj h).2
        · rwa [List.filter_cons_of_neg (by simpa using hk), List.filter_cons_of_neg (by simpa using hk)] at h
      rw [ih htail ⟨hy.of_cons, hz.of_cons⟩]

theorem sortBy_eq {ys : List α} (h : StablySorted key xs ys) : sortBy key xs = ys :=
  (stablySorted_sortBy key xs).unique h

theorem sortBy_sorted (h : xs.Pairwise (fun a b => key a ≤ key b)) : sortBy key xs = xs :=
  sortBy_eq ⟨h, fun _ => rfl⟩

theorem sortBy_sortBy (key : α → τ) (xs : List α) : sortBy key (sortBy key xs) = sortBy key xs :=
  sortBy_sorted (stablySorted_sortBy key xs).sorted

theorem sortBy_middle {a : α} {xs ys : List α} (hx : ∀ b ∈ xs, key a < key b) (hy : ∀ b ∈ ys, key a ≤ key b) :
    sortBy key (xs ++ a :: ys) = a :: sortBy key (xs ++ ys) := by
  apply sortBy_eq
  obtain ⟨hsorted, hstable⟩ := stablySorted_sortBy key (xs ++ ys)
  constructor
  · refine List.pairwise_cons.mpr ⟨fun b hb => ?_, hsorted⟩
    cases List.mem_append.mp (sortBy_perm.mem_iff.mp hb) with
    | inl h => exact (hx b h).le
    | inr h => exact hy b h
  · intro k
    rw [List.filter_append]
    by_cases hk : key a = k
    · have hno : xs.filter (fun b => key b = k) = [] := by
        rw [List.filter_eq_nil_iff]
        intro b hb
        simpa [← hk] using (hx b hb).ne'
      rw [List.filter_cons_of_pos (by simpa using hk), List.filter_cons_of_pos (by simpa using hk), hstable,
        List.filter_append, hno]
      rfl
    · rw [List.filter_cons_of_neg (by simpa using hk), List.filter_cons_of_neg (by simpa using hk), hstable,
        List.filter_append]

theorem sortBy_first {a : α} {ys : List α} (h : ∀ b ∈ ys, key a ≤ key b) :
    sortBy key (a :: ys) = a :: sortBy key ys := by
  have hmiddle : sortBy key ([] ++ a :: ys) = a :: sortBy key ([] ++ ys) := sortBy_middle (by simp) h
  exact hmiddle

theorem sortBy_filter (p : α → Bool) : sortBy key (xs.filter p) = (sortBy key xs).filter p := by
  apply sortBy_eq
  obtain ⟨hsorted, hstable⟩ := stablySorted_sortBy key xs
  constructor
  · exact hsorted.filter p
  · intro k
    rw [List.filter_comm, hstable, List.filter_comm]

theorem sortBy_map {β : Type} {σ : Type} [LinearOrder σ] {f : β → α} {source : β → σ} {xs : List β}
    (h : ∀ a b, key (f a) ≤ key (f b) ↔ source a ≤ source b) :
    sortBy key (xs.map f) = (sortBy source xs).map f :=
  (List.map_mergeSort (fun a _ b _ => by simp [h])).symm

end Kirara.StableSorts

namespace Kirara.Rankings

open Kirara.StableSorts

/-! Lists in the order of a rank, those with one rank in the order of their positions, and ranks that
are raised until no two are the same. -/

section Ordering

variable {α τ : Type} [LinearOrder τ] {key key' : α → τ} {l l' : List α}

theorem eq_of_pairwise (hperm : l'.Perm l) (hl : l.Pairwise (fun a b => key a ≤ key b))
    (h : l'.Pairwise (fun a b => key a < key b)) : l = l' := by
  have hne : l'.Pairwise (fun a b => key a ≠ key b) := h.imp ne_of_lt
  refine List.Perm.eq_of_pairwise (fun a b ha hb hab hba => ?_) hl (h.imp le_of_lt) hperm.symm
  by_contra hab'
  have : Std.Symm (fun a b => key a ≠ key b) := ⟨fun _ _ hxy => hxy.symm⟩
  exact hne.forall (hperm.mem_iff.mpr ha) hb hab' (le_antisymm hab hba)

theorem sortBy_of_pairwise (hperm : l'.Perm l) (h : l'.Pairwise (fun a b => key a < key b)) : sortBy key l = l' :=
  eq_of_pairwise (hperm.trans sortBy_perm.symm) (stablySorted_sortBy key l).sorted h

theorem sortBy_eq_sortBy_iff (h : l.Pairwise (fun a b => key' a ≠ key' b)) :
    sortBy key' l = sortBy key l ↔ (sortBy key l).Pairwise (fun a b => key' a < key' b) := by
  constructor
  · intro heq
    rw [← heq]
    have hsorted := (stablySorted_sortBy key' l).sorted
    have hne : (sortBy key' l).Pairwise (fun a b => key' a ≠ key' b) :=
      (sortBy_perm.pairwise_iff (fun hab => hab.symm)).mpr h
    exact hsorted.imp₂ (fun _ _ hle hn => lt_of_le_of_ne hle hn) hne
  · exact fun hpairwise => sortBy_of_pairwise sortBy_perm hpairwise

end Ordering

section Seats

variable {α : Type} (rank : α → ℤ)

def seatKey (x : α × ℕ) : ℤ ×ₗ ℕ := toLex (rank x.1, x.2)

variable {rank} {x y : α × ℕ}

theorem seatKey_lt : seatKey rank x < seatKey rank y ↔ rank x.1 < rank y.1 ∨ rank x.1 = rank y.1 ∧ x.2 < y.2 :=
  Prod.Lex.toLex_lt_toLex

theorem seatKey_le : seatKey rank x ≤ seatKey rank y ↔ rank x.1 < rank y.1 ∨ rank x.1 = rank y.1 ∧ x.2 ≤ y.2 :=
  Prod.Lex.toLex_le_toLex

theorem seatKey_ne (h : x.2 ≠ y.2) : seatKey rank x ≠ seatKey rank y :=
  fun he => h (congrArg (fun k => (ofLex k).2) he)

end Seats

/-- Each number is raised above the one before. -/
def climbFrom : Option ℤ → List ℤ → List ℤ
  | _, [] => []
  | none, v :: vs => v :: climbFrom (some v) vs
  | some last, v :: vs => max v (last + 1) :: climbFrom (some (max v (last + 1))) vs

def climb (l : List ℤ) : List ℤ := climbFrom none l

theorem length_climbFrom (last : Option ℤ) (l : List ℤ) : (climbFrom last l).length = l.length := by
  induction l generalizing last with
  | nil => cases last <;> rfl
  | cons v vs ih => cases last <;> simp [climbFrom, ih]

theorem lt_climbFrom (a : ℤ) (l : List ℤ) : ∀ c ∈ climbFrom (some a) l, a < c := by
  induction l generalizing a with
  | nil => exact fun c hc => (nomatch hc)
  | cons v vs ih =>
    rw [climbFrom, List.forall_mem_cons]
    have hfirst : a < max v (a + 1) := lt_of_lt_of_le (lt_add_one a) (le_max_right v (a + 1))
    exact ⟨hfirst, fun c hc => hfirst.trans (ih _ c hc)⟩

theorem climb_pairwise (last : Option ℤ) (l : List ℤ) : (climbFrom last l).Pairwise (· < ·) := by
  induction l generalizing last with
  | nil => cases last <;> exact List.Pairwise.nil
  | cons v vs ih => cases last <;> exact List.pairwise_cons.mpr ⟨lt_climbFrom _ vs, ih _⟩

variable {l : List ℤ}

theorem climbFrom_eq_self {last : Option ℤ} (hlast : ∀ a ∈ last, ∀ v ∈ l, a < v) (h : l.Pairwise (· < ·)) :
    climbFrom last l = l := by
  induction l generalizing last with
  | nil => cases last <;> rfl
  | cons v vs ih =>
    obtain ⟨hv, hvs⟩ := List.pairwise_cons.mp h
    have hrest : climbFrom (some v) vs = vs := ih (fun a ha => Option.some.inj ha ▸ hv) hvs
    cases last with
    | none => rw [climbFrom, hrest]
    | some a =>
      have hmax : max v (a + 1) = v := max_eq_left (hlast a rfl v List.mem_cons_self)
      rw [climbFrom, hmax, hrest]

theorem forall_getElem?_cons {P : ℕ → ℤ → Prop} {v : ℤ} {vs : List ℤ} : (∀ j p, (v :: vs)[j]? = some p → P j p) ↔
    P 0 v ∧ ∀ j p, vs[j]? = some p → P (j + 1) p := by
  constructor
  · exact fun h => ⟨h 0 v rfl, fun j p hp => h (j + 1) p hp⟩
  · intro ⟨hzero, hsucc⟩ j p hp
    cases j with
    | zero => exact Option.some.inj hp ▸ hzero
    | succ j => exact hsucc j p hp

theorem climbFrom_lt_iff {last : Option ℤ} {i : ℕ} {c : ℤ} (h : (climbFrom last l)[i]? = some c) (k : ℤ) :
    c < k ↔ (∀ a ∈ last, a + 1 + i < k) ∧ ∀ j p, l[j]? = some p → j ≤ i → p + (i - j : ℤ) < k := by
  induction l generalizing last i with
  | nil => cases last <;> simp [climbFrom] at h
  | cons v vs ih =>
    rw [forall_getElem?_cons]
    cases i with
    | zero =>
      cases last with
      | none =>
        cases h
        simp
      | some a =>
        cases h
        simp [and_comm]
    | succ i =>
      cases last with
      | none =>
        rw [ih h]
        simp only [Option.mem_def, Option.some.injEq, forall_eq', reduceCtorEq, false_implies, implies_true, true_and,
          Nat.zero_le, Nat.cast_succ, Nat.cast_zero, Nat.add_le_add_iff_right, add_sub_add_right_eq_sub, forall_const]
        refine and_congr_left (fun _ => ?_)
        omega
      | some a =>
        rw [ih h]
        simp only [Option.mem_def, Option.some.injEq, forall_eq', Nat.zero_le, Nat.cast_succ, Nat.cast_zero,
          Nat.add_le_add_iff_right, add_sub_add_right_eq_sub, forall_const, ← and_assoc]
        refine and_congr_left (fun _ => ?_)
        omega

theorem le_climb {i : ℕ} {p c : ℤ} (hp : l[i]? = some p) (h : (climb l)[i]? = some c) : p ≤ c := by
  have hpushed := ((climbFrom_lt_iff h (c + 1)).mp (lt_add_one c)).2 i p hp (Nat.le_refl i)
  omega

end Kirara.Rankings
