import Mathlib.Algebra.Order.BigOperators.Group.List
import Mathlib.Tactic.Linarith

namespace Kirara.SendPacings

structure SendPacing where
  enabled : Bool
  perCharacterSeconds : ℚ
  minimumSeconds : ℚ
  jitterSeconds : ℚ
  maximumSeconds : ℚ
  maximumTotalSeconds : ℚ

def SendPacing.seconds (p : SendPacing) : List (String × ℚ) :=
  [("per_character_seconds", p.perCharacterSeconds), ("minimum_seconds", p.minimumSeconds),
    ("jitter_seconds", p.jitterSeconds), ("maximum_seconds", p.maximumSeconds),
    ("maximum_total_seconds", p.maximumTotalSeconds)]

/-- The error of `__post_init__`. -/
def SendPacing.postInit (p : SendPacing) : Option String :=
  match p.seconds.find? (fun field => field.2 < 0) with
  | some field => some (field.1 ++ " cannot be negative")
  | none => if p.maximumSeconds < p.minimumSeconds then some "maximum_seconds cannot be below minimum_seconds" else none

abbrev Accepted := {p : SendPacing // p.postInit = none}

/-- What `random.uniform` can return. -/
abbrev SendPacing.Jitter (p : SendPacing) := Set.Icc (-p.jitterSeconds) p.jitterSeconds

def gapCount (_pageIndex pageCount : Option ℤ) : ℤ :=
  match pageCount with
  | none => 1
  | some n => max 1 (n - 1)

def lengthTerm (p : SendPacing) (textLength : ℤ) (pageIndex pageCount : Option ℤ) : ℚ :=
  min ((max 0 textLength : ℤ) * p.perCharacterSeconds) (p.maximumTotalSeconds / gapCount pageIndex pageCount)

def resolvePacingDelay (p : SendPacing) (textLength : ℤ) (pageIndex pageCount : Option ℤ) (jitter : p.Jitter) : ℚ :=
  if !p.enabled then 0
  else
    let deterministic := min (p.minimumSeconds + lengthTerm p textLength pageIndex pageCount) p.maximumSeconds
    if p.jitterSeconds = 0 then deterministic
    else min (max (deterministic + jitter) p.minimumSeconds) p.maximumSeconds

def waitBeforePage (p : SendPacing) (pageIndex textLength : ℤ) (pageCount : Option ℤ) (jitter : p.Jitter) : ℚ :=
  if pageIndex ≤ 0 then 0
  else
    let delay := resolvePacingDelay p textLength (some pageIndex) pageCount jitter
    if delay ≤ 0 then 0 else delay

def waitFloor (p : SendPacing) : ℚ := min (p.minimumSeconds + p.jitterSeconds) p.maximumSeconds

def totalWaitBound (p : SendPacing) (pageCount : ℤ) : ℚ :=
  if !p.enabled then 0
  else
    let gaps := max 0 (pageCount - 1)
    if gaps = 0 then 0 else gaps * waitFloor p + p.maximumTotalSeconds

structure Page (p : SendPacing) where
  textLength : ℤ
  jitter : p.Jitter
  /-- A page that is not accepted ends the reply. -/
  accepted : Bool

/-- The waits of `_send_message_unlocked` and `_send_via_outbox` from a page on. -/
def waitsFrom (p : SendPacing) (pageCount pageIndex : ℕ) : List (Page p) → List ℚ
  | [] => []
  | page :: rest =>
    waitBeforePage p pageIndex page.textLength (some pageCount) page.jitter ::
      if page.accepted then waitsFrom p pageCount (pageIndex + 1) rest else []

def waits (p : SendPacing) (pages : List (Page p)) : List ℚ := waitsFrom p pages.length 0 pages

variable {p : SendPacing}

theorem seconds_nonneg (h : p.postInit = none) : 0 ≤ p.perCharacterSeconds ∧ 0 ≤ p.minimumSeconds ∧
    0 ≤ p.jitterSeconds ∧ 0 ≤ p.maximumSeconds ∧ 0 ≤ p.maximumTotalSeconds := by
  unfold SendPacing.postInit at h
  split at h
  · cases h
  · next hnone => simpa [SendPacing.seconds] using hnone

theorem gapCount_pos (pageIndex pageCount : Option ℤ) : 0 < gapCount pageIndex pageCount := by
  cases pageCount with
  | none => exact one_pos
  | some n => exact lt_of_lt_of_le one_pos (le_max_left 1 (n - 1))

variable (h : p.postInit = none)

include h

theorem lengthTerm_nonneg (n : ℤ) (i c : Option ℤ) : 0 ≤ lengthTerm p n i c := by
  obtain ⟨hchar, -, -, -, htotal⟩ := seconds_nonneg h
  apply le_min
  · exact mul_nonneg (Int.cast_nonneg (le_max_left 0 n)) hchar
  · exact div_nonneg htotal (Int.cast_nonneg (gapCount_pos i c).le)

theorem delay_mem (n : ℤ) (i c : Option ℤ) (jitter : p.Jitter) :
    0 ≤ resolvePacingDelay p n i c jitter ∧ resolvePacingDelay p n i c jitter ≤ p.maximumSeconds := by
  obtain ⟨-, hminimum, -, hmaximum, -⟩ := seconds_nonneg h
  unfold resolvePacingDelay
  split
  · exact ⟨le_refl 0, hmaximum⟩
  dsimp only
  split
  · exact ⟨le_min (add_nonneg hminimum (lengthTerm_nonneg h n i c)) hmaximum, min_le_right _ _⟩
  · exact ⟨le_min (hminimum.trans (le_max_right _ _)) hmaximum, min_le_right _ _⟩

/-- What is added to the floor of a gap is at most its share of the budget. -/
theorem delay_le (henabled : p.enabled = true) (n : ℤ) (i c : Option ℤ) (jitter : p.Jitter) :
    resolvePacingDelay p n i c jitter ≤ waitFloor p + p.maximumTotalSeconds / gapCount i c := by
  obtain ⟨-, -, hjitter, -, -⟩ := seconds_nonneg h
  have hterm := lengthTerm_nonneg h n i c
  have hdraw := jitter.2.2
  apply le_trans _ (add_le_add_right (min_le_right ((max 0 n : ℤ) * p.perCharacterSeconds) _) (waitFloor p))
  change _ ≤ waitFloor p + lengthTerm p n i c
  simp only [resolvePacingDelay, henabled, Bool.not_true, Bool.false_eq_true, if_false, waitFloor]
  rw [← min_add_add_right (p.minimumSeconds + p.jitterSeconds)]
  split
  · apply min_le_min <;> linarith
  refine min_le_min (max_le ?_ (by linarith)) (by linarith)
  have := min_le_left (p.minimumSeconds + lengthTerm p n i c) p.maximumSeconds
  linarith

theorem waitBeforePage_eq {i : ℤ} (n : ℤ) (c : Option ℤ) (jitter : p.Jitter) :
    waitBeforePage p i n c jitter = if i ≤ 0 then 0 else resolvePacingDelay p n (some i) c jitter := by
  unfold waitBeforePage
  split
  · rfl
  have := (delay_mem h n (some i) c jitter).1
  dsimp only
  split
  · next hle => exact le_antisymm this hle
  · rfl

omit h

variable {pageCount : ℕ}

theorem mem_waitsFrom {w : ℚ} (pages : List (Page p)) (i : ℕ) (hw : w ∈ waitsFrom p pageCount i pages) :
    ∃ (j : ℕ) (page : Page p), w = waitBeforePage p j page.textLength (some pageCount) page.jitter := by
  induction pages generalizing i with
  | nil => cases hw
  | cons page rest ih =>
    cases List.mem_cons.mp hw with
    | inl hw => exact ⟨i, page, hw⟩
    | inr hw =>
      split at hw
      · exact ih (i + 1) hw
      · cases hw

theorem length_waitsFrom (pages : List (Page p)) (i : ℕ) : (waitsFrom p pageCount i pages).length ≤ pages.length := by
  induction pages generalizing i with
  | nil => exact Nat.zero_le _
  | cons page rest ih =>
    apply Nat.succ_le_succ
    split
    · exact ih (i + 1)
    · exact Nat.zero_le _

theorem totalWaitBound_nonneg (h : p.postInit = none) (c : ℤ) : 0 ≤ totalWaitBound p c := by
  obtain ⟨-, hminimum, hjitter, hmaximum, htotal⟩ := seconds_nonneg h
  unfold totalWaitBound
  split
  · exact le_refl 0
  dsimp only
  split
  · exact le_refl 0
  · have hfloor : 0 ≤ waitFloor p := le_min (add_nonneg hminimum hjitter) hmaximum
    exact add_nonneg (mul_nonneg (Int.cast_nonneg (le_max_left 0 _)) hfloor) htotal

/-- A gap takes at most its part of the bound. -/
theorem wait_le (h : p.postInit = none) {gaps : ℕ} (hgaps : 0 < gaps) (i n : ℤ) (jitter : p.Jitter) :
    waitBeforePage p i n (some (gaps + 1 : ℕ)) jitter ≤ totalWaitBound p (gaps + 1 : ℕ) / gaps := by
  have hpos : (0 : ℚ) < gaps := Nat.cast_pos.mpr hgaps
  have hbound := div_nonneg (totalWaitBound_nonneg h (gaps + 1 : ℕ)) hpos.le
  rw [waitBeforePage_eq h]
  split
  · exact hbound
  cases henabled : p.enabled with
  | false =>
    rw [resolvePacingDelay, henabled]
    exact hbound
  | true =>
    apply (delay_le h henabled n (some i) _ jitter).trans
    have hone : max 1 ((gaps : ℤ) + 1 - 1) = gaps := by omega
    have hzero : max 0 ((gaps : ℤ) + 1 - 1) = gaps := by omega
    have hne : (gaps : ℤ) ≠ 0 := Int.natCast_ne_zero.mpr hgaps.ne'
    simp only [gapCount, totalWaitBound, henabled, Bool.not_true, Bool.false_eq_true, if_false, Nat.cast_add, Nat.cast_one,
      hone, hzero, hne, Int.cast_natCast]
    rw [add_div, mul_div_cancel_left₀ _ hpos.ne']

theorem sum_waitsFrom_le (h : p.postInit = none) (pages : List (Page p)) (i : ℕ) :
    (waitsFrom p (pages.length + 1) i pages).sum ≤ totalWaitBound p (pages.length + 1 : ℕ) := by
  have hbound := totalWaitBound_nonneg h (pages.length + 1 : ℕ)
  obtain hzero | hpos := Nat.eq_zero_or_pos pages.length
  · rw [List.length_eq_zero_iff.mp hzero] at hbound ⊢
    exact hbound
  · have hgap : ∀ w ∈ waitsFrom p (pages.length + 1) i pages,
        w ≤ totalWaitBound p (pages.length + 1 : ℕ) / pages.length := by
      intro w hw
      obtain ⟨j, page, rfl⟩ := mem_waitsFrom pages i hw
      exact wait_le h hpos j page.textLength page.jitter
    have hcast : (0 : ℚ) < pages.length := Nat.cast_pos.mpr hpos
    calc (waitsFrom p (pages.length + 1) i pages).sum
        ≤ (waitsFrom p (pages.length + 1) i pages).length • (totalWaitBound p (pages.length + 1 : ℕ) / pages.length) :=
          List.sum_le_card_nsmul _ _ hgap
      _ ≤ pages.length • (totalWaitBound p (pages.length + 1 : ℕ) / pages.length) :=
          nsmul_le_nsmul_left (div_nonneg hbound hcast.le) (length_waitsFrom pages i)
      _ = totalWaitBound p (pages.length + 1 : ℕ) := by rw [nsmul_eq_mul, mul_div_cancel₀ _ hcast.ne']

theorem reply_paced (p : Accepted) (pages : List (Page p)) :
    (waits p pages).sum ≤ totalWaitBound p pages.length ∧
      (∀ w ∈ waits p pages, 0 ≤ w ∧ w ≤ p.1.maximumSeconds) ∧ ∀ w ∈ (waits p pages).head?, w = 0 := by
  obtain ⟨p, h⟩ := p
  refine ⟨?_, fun w hw => ?_, fun w hw => ?_⟩
  · cases pages with
    | nil => exact totalWaitBound_nonneg h 0
    | cons page rest =>
      have hfirst : (waits p (page :: rest)).sum =
          0 + (if page.accepted then waitsFrom p (rest.length + 1) 1 rest else []).sum := List.sum_cons
      rw [hfirst, zero_add]
      split
      · exact sum_waitsFrom_le h rest 1
      · exact totalWaitBound_nonneg h (rest.length + 1 : ℕ)
  · obtain ⟨i, page, rfl⟩ := mem_waitsFrom pages 0 hw
    rw [waitBeforePage_eq h]
    split
    · exact ⟨le_refl 0, (seconds_nonneg h).2.2.2.1⟩
    · exact delay_mem h page.textLength _ _ page.jitter
  · cases pages with
    | nil => cases hw
    | cons page rest => exact (Option.some.inj hw).symm

end Kirara.SendPacings
