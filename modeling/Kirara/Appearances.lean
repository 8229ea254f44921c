import Mathlib.Data.List.Basic

namespace Kirara.Appearances

variable {α : Type}

/-- Texts one after another in lines, each within one line. -/
inductive Appear : List (List α) → List (List α) → Prop where
  | nil (lines : List (List α)) : Appear [] lines
  | here {texts lines : List (List α)} (before text after : List α)
      (rest : Appear texts (after :: lines)) :
      Appear (text :: texts) ((before ++ (text ++ after)) :: lines)
  | skip {texts lines : List (List α)} (line : List α) (rest : Appear texts lines) :
      Appear texts (line :: lines)

variable {texts more lines others : List (List α)} {line : List α}

theorem Appear.skips (h : Appear texts others) (lines : List (List α)) : Appear texts (lines ++ others) := by
  induction lines with
  | nil => exact h
  | cons line lines ih => exact .skip line ih

theorem Appear.append (h : Appear texts lines) (h' : Appear more others) :
    Appear (texts ++ more) (lines ++ others) := by
  induction h with
  | nil lines => exact h'.skips lines
  | here before text after _ ih => exact .here before text after ih
  | skip line _ ih => exact .skip line ih

theorem Appear.prepend (h : Appear texts (line :: lines)) (front : List α) :
    Appear texts ((front ++ line) :: lines) := by
  cases h with
  | nil => exact .nil _
  | here before text after rest =>
    rw [← List.append_assoc]
    exact .here (front ++ before) text after rest
  | skip _ rest => exact .skip _ rest

theorem Appear.extend_line (h : Appear texts (line :: lines)) (back : List α) :
    Appear texts ((line ++ back) :: lines) := by
  generalize hall : line :: lines = all at h
  induction h generalizing line lines with
  | nil => exact .nil _
  | here before text after _ ih =>
    obtain ⟨rfl, rfl⟩ := List.cons_eq_cons.mp hall
    rw [List.append_assoc, List.append_assoc]
    exact .here before text (after ++ back) (ih rfl)
  | skip _ rest _ =>
    obtain ⟨rfl, rfl⟩ := List.cons_eq_cons.mp hall
    exact .skip _ rest

theorem Appear.sublist (h : Appear texts lines) (hsub : more.Sublist texts) : Appear more lines := by
  induction h generalizing more with
  | nil =>
    rw [List.sublist_nil.mp hsub]
    exact .nil _
  | here before text after _ ih =>
    cases hsub with
    | cons _ hsub => exact ((ih hsub).prepend text).prepend before
    | cons_cons _ hsub => exact .here before text after (ih hsub)
  | skip line _ ih => exact .skip line (ih hsub)

theorem Appear.mem {text : List α} (h : Appear texts lines) (ht : text ∈ texts) :
    ∃ line ∈ lines, text <:+: line := by
  induction h with
  | nil => cases ht
  | here before head after _ ih =>
    cases List.mem_cons.mp ht with
    | inl hhead =>
      refine ⟨_, List.mem_cons_self, before, after, ?_⟩
      rw [hhead, List.append_assoc]
    | inr htail =>
      obtain ⟨line, hline, hpart⟩ := ih htail
      cases List.mem_cons.mp hline with
      | inl heq =>
        refine ⟨_, List.mem_cons_self, hpart.trans ?_⟩
        rw [heq, ← List.append_assoc]
        exact (List.suffix_append (before ++ head) after).isInfix
      | inr hmem => exact ⟨line, List.mem_cons_of_mem _ hmem, hpart⟩
  | skip line _ ih =>
    obtain ⟨found, hfound, hpart⟩ := ih ht
    exact ⟨found, List.mem_cons_of_mem line hfound, hpart⟩

end Kirara.Appearances
