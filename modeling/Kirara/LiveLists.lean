import Mathlib.Data.List.Dedup

namespace Kirara.LiveLists

/-! Going over a list by position while elements are appended to it and taken out of it. -/

variable {α : Type} [DecidableEq α] {l : List α} {y : α} {pos : ℕ}

omit [DecidableEq α] in
theorem sublist_drop_append {rest : List α} (h : rest.Sublist (l.drop pos)) : rest.Sublist ((l ++ [y]).drop pos) := by
  rw [List.drop_append]
  exact h.trans (List.sublist_append_left _ _)

theorem drop_erase_of_passed (h : y ∈ l.take pos) : (l.erase y).drop pos = (l.drop pos).tail := by
  by_cases hlen : pos ≤ l.length
  · have htake : ((l.take pos).erase y).length = pos - 1 := by
      rw [List.length_erase_of_mem h, List.length_take_of_le hlen]
    have hpos : 0 < pos := by
      rw [Nat.pos_iff_ne_zero]
      rintro rfl
      cases h
    have hsplit : l.erase y = (l.take pos).erase y ++ l.drop pos := by
      conv_lhs => rw [← List.take_append_drop pos l]
      exact List.erase_append_left _ h
    rw [hsplit, List.drop_append, htake, List.drop_of_length_le (by omega), List.nil_append,
      show pos - (pos - 1) = 1 by omega, List.drop_one]
  · have hle := List.erase_sublist (a := y) (l := l) |>.length_le
    rw [List.drop_of_length_le (by omega), List.drop_of_length_le (by omega)]
    rfl

theorem drop_erase_of_waiting (h : y ∉ l.take pos) : (l.erase y).drop pos = (l.drop pos).erase y := by
  by_cases hlen : pos ≤ l.length
  · have hsplit : l.erase y = l.take pos ++ (l.drop pos).erase y := by
      conv_lhs => rw [← List.take_append_drop pos l]
      exact List.erase_append_right _ h
    have htake := List.length_take_of_le hlen
    rw [hsplit, List.drop_append, htake, Nat.sub_self, List.drop_zero, List.drop_of_length_le (Nat.le_of_eq htake),
      List.nil_append]
  · have hle := List.erase_sublist (a := y) (l := l) |>.length_le
    rw [List.drop_of_length_le (by omega), List.drop_of_length_le (by omega)]
    rfl

theorem filter_ne_sublist_erase (l : List α) (y : α) : (l.filter (fun x => x ≠ y)).Sublist (l.erase y) := by
  induction l with
  | nil => exact List.Sublist.refl _
  | cons x l ih =>
    by_cases hx : x = y
    · subst hx
      rw [List.filter_cons_of_neg (by simp), List.erase_cons_head]
      exact List.filter_sublist
    · rw [List.filter_cons_of_pos (by simpa using hx), List.erase_cons_tail (by simpa using hx)]
      exact ih.cons_cons x

def firsts (l : List α) : List α := l.reverse.dedup.reverse

theorem firsts_sublist (l : List α) : (firsts l).Sublist l := by
  have h := (List.dedup_sublist l.reverse).reverse
  rwa [List.reverse_reverse] at h

theorem nodup_firsts (l : List α) : (firsts l).Nodup := List.nodup_reverse.mpr (List.nodup_dedup _)

@[simp] theorem mem_firsts : y ∈ firsts l ↔ y ∈ l := by simp [firsts]

end Kirara.LiveLists
