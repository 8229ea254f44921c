import Kirara.Channels
import Mathlib.Data.List.Lex

namespace Kirara.DottedNumbers

open Kirara.Channels

def decimal (t : Text) : Nat := t.foldl (fun n c => 10 * n + (c.toNat - 48)) 0

def dotted (t : Text) : List Nat := (t.splitOn '.').map decimal

def cut (c : Char) (t : Text) : Text × Option Text :=
  (t.takeWhile (· ≠ c), (t.dropWhile (· ≠ c)).tail?)

variable {c d : Char} {t : Text}

theorem cut_eq (c : Char) (t : Text) :
    cut c t = (t, none) ∧ c ∉ t ∨ ∃ s r, t = s ++ c :: r ∧ c ∉ s ∧ cut c t = (s, some r) := by
  have hsplit := List.takeWhile_append_dropWhile (p := (· ≠ c)) (l := t)
  have hbefore : c ∉ t.takeWhile (· ≠ c) := fun h => by simpa using List.mem_takeWhile_imp h
  cases hrest : t.dropWhile (· ≠ c) with
  | nil =>
    rw [hrest, List.append_nil] at hsplit
    refine .inl ⟨?_, hsplit ▸ hbefore⟩
    rw [cut, hrest, hsplit]
    rfl
  | cons d r =>
    have hd : d = c := by
      have hhead := List.head?_dropWhile_not (· ≠ c) t
      rw [hrest] at hhead
      simpa using hhead
    subst hd
    refine .inr ⟨t.takeWhile (· ≠ d), r, ?_, hbefore, ?_⟩
    · rw [← hrest, hsplit]
    · rw [cut, hrest]
      rfl

theorem mem_cut (h : d ∈ t) : d = c ∨ d ∈ (cut c t).1 ∨ ∃ r, (cut c t).2 = some r ∧ d ∈ r := by
  cases cut_eq c t with
  | inl hnone =>
    rw [hnone.1]
    exact .inr (.inl h)
  | inr hsome =>
    obtain ⟨s, r, rfl, _, hcut⟩ := hsome
    rw [hcut]
    cases List.mem_append.mp h with
    | inl hs => exact .inr (.inl hs)
    | inr hr =>
      cases List.mem_cons.mp hr with
      | inl he => exact .inl he
      | inr hr => exact .inr (.inr ⟨r, rfl, hr⟩)

theorem cut_of_not_mem (h : c ∉ t) : cut c t = (t, none) := by
  cases cut_eq c t with
  | inl hnone => exact hnone.1
  | inr hsome =>
    obtain ⟨s, r, rfl, _, _⟩ := hsome
    exact absurd (List.mem_append_right s List.mem_cons_self) h

theorem cut_append {s r : Text} (h : c ∉ s) : cut c (s ++ c :: r) = (s, some r) := by
  have hall : ∀ d ∈ s, decide (d ≠ c) = true := fun d hd => decide_eq_true (fun he => h (he ▸ hd))
  rw [cut, List.takeWhile_append_of_pos hall, List.dropWhile_append_of_pos hall,
    List.takeWhile_cons_of_neg (by simp), List.dropWhile_cons_of_neg (by simp), List.append_nil]
  rfl

theorem cut_map {f : Char → Char} (hf : ∀ d, f d = c ↔ d = c) (t : Text) :
    cut c (t.map f) = ((cut c t).1.map f, (cut c t).2.map (List.map f)) := by
  have hmem : ∀ s : Text, c ∉ s → c ∉ s.map f := by
    intro s hs hc
    obtain ⟨d, hd, he⟩ := List.mem_map.mp hc
    exact hs ((hf d).mp he ▸ hd)
  cases cut_eq c t with
  | inl hnone => rw [hnone.1, cut_of_not_mem (hmem t hnone.2)]; rfl
  | inr hsome =>
    obtain ⟨s, r, rfl, hs, hcut⟩ := hsome
    rw [hcut, List.map_append, List.map_cons, (hf c).mpr rfl, cut_append (hmem s hs)]
    rfl

theorem mem_splitOn (h : c ∈ t) : c = d ∨ ∃ p ∈ t.splitOn d, c ∈ p := by
  induction t with
  | nil => cases h
  | cons a t ih =>
    rw [List.splitOn_cons_eq_if_modifyHead]
    by_cases ha : a = d
    · subst ha
      rw [if_pos (beq_self_eq_true a)]
      cases List.mem_cons.mp h with
      | inl he => exact .inl he
      | inr hm => exact (ih hm).imp_right (fun ⟨p, hp, hc⟩ => ⟨p, List.mem_cons_of_mem _ hp, hc⟩)
    · rw [if_neg (by simpa using ha)]
      cases hsplit : t.splitOn d with
      | nil => exact absurd hsplit (List.splitOn_ne_nil d t)
      | cons q qs =>
        rw [hsplit] at ih
        rw [List.modifyHead_cons]
        cases List.mem_cons.mp h with
        | inl he => exact .inr ⟨a :: q, List.mem_cons_self, he ▸ List.mem_cons_self⟩
        | inr hm =>
          refine (ih hm).imp_right (fun ⟨p, hp, hc⟩ => ?_)
          cases List.mem_cons.mp hp with
          | inl he => exact ⟨a :: q, List.mem_cons_self, List.mem_cons_of_mem _ (he ▸ hc)⟩
          | inr hq => exact ⟨p, List.mem_cons_of_mem _ hq, hc⟩

def trimZeros : List Nat → List Nat
  | [] => []
  | n :: ns => if n = 0 ∧ trimZeros ns = [] then [] else n :: trimZeros ns

theorem trimZeros_lt_iff {a b : List Nat} (h : a.length = b.length) : trimZeros a < trimZeros b ↔ a < b := by
  induction a generalizing b with
  | nil =>
    cases b with
    | nil => exact Iff.rfl
    | cons n b => cases h
  | cons m a ih =>
    cases b with
    | nil => cases h
    | cons n b =>
      have ih := ih (Nat.succ.inj h)
      have hnil : ∀ l : List Nat, ¬ l < [] := fun l => List.not_lt_nil l
      have hcons : ∀ (x : Nat) (l : List Nat), [] < x :: l := fun x l => List.nil_lt_cons x l
      rw [List.cons_lt_cons_iff, ← ih]
      by_cases hm : m = 0 ∧ trimZeros a = []
      · by_cases hn : n = 0 ∧ trimZeros b = []
        · simp [trimZeros, hm, hn]
        · rw [trimZeros, trimZeros, if_pos hm, if_neg hn, hm.1, hm.2]
          refine iff_of_true (hcons n _) ?_
          cases hb : trimZeros b with
          | nil => exact .inl (Nat.pos_of_ne_zero (fun he => hn ⟨he, hb⟩))
          | cons x l => exact (Nat.eq_zero_or_pos n).elim (fun he => .inr ⟨he.symm, hcons x l⟩) .inl
      · by_cases hn : n = 0 ∧ trimZeros b = []
        · rw [trimZeros, trimZeros, if_neg hm, if_pos hn, hn.1, hn.2]
          exact iff_of_false (hnil _) (fun h => h.elim (Nat.not_lt_zero m) (fun h => hnil _ h.2))
        · rw [trimZeros, trimZeros, if_neg hm, if_neg hn, List.cons_lt_cons_iff]

theorem trimZeros_eq_iff {a b : List Nat} (h : a.length = b.length) : trimZeros a = trimZeros b ↔ a = b := by
  refine ⟨fun he => ?_, fun he => he ▸ rfl⟩
  have hab := trimZeros_lt_iff h
  have hba := trimZeros_lt_iff h.symm
  rw [he] at hab hba
  exact le_antisymm (not_lt.mp (fun hlt => lt_irrefl _ (hba.mpr hlt)))
    (not_lt.mp (fun hlt => lt_irrefl _ (hab.mpr hlt)))

end Kirara.DottedNumbers
