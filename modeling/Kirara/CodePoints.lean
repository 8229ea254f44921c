import Mathlib.Algebra.Order.Ring.Nat
import Mathlib.Data.List.DropRight
import Mathlib.Order.Fin.Basic

namespace Kirara.CodePoints

/-- A character of a Python `str`, which may be half of a surrogate pair. -/
abbrev CodePoint := Fin 0x110000

abbrev Str := List CodePoint

theorem toNat_lt (c : Char) : c.toNat < 0x110000 := by
  have h : c.toNat < 0xd800 ∨ 0xdfff < c.toNat ∧ c.toNat < 0x110000 := c.valid
  omega

def cp (c : Char) : CodePoint := ⟨c.toNat, toNat_lt c⟩

def lit (s : String) : Str := s.toList.map cp

def digits (n : Nat) : Str := (Nat.toDigits 10 n).map cp

def isSpace (c : CodePoint) : Bool :=
  (0x9 ≤ c.val && c.val ≤ 0xd) || (0x1c ≤ c.val && c.val ≤ 0x20) || c.val == 0x85 ||
  c.val == 0xa0 || c.val == 0x1680 || (0x2000 ≤ c.val && c.val ≤ 0x200a) || c.val == 0x2028 ||
  c.val == 0x2029 || c.val == 0x202f || c.val == 0x205f || c.val == 0x3000

/-- The characters at which `str.splitlines` ends a line. -/
def isLineBreak (c : CodePoint) : Bool :=
  (0xa ≤ c.val && c.val ≤ 0xd) || (0x1c ≤ c.val && c.val ≤ 0x1e) || c.val == 0x85 ||
  c.val == 0x2028 || c.val == 0x2029

variable {c : CodePoint}

theorem isSpace_of_isLineBreak (h : isLineBreak c = true) : isSpace c = true := by
  simp only [isLineBreak, isSpace, Bool.or_eq_true, Bool.and_eq_true, decide_eq_true_eq, beq_iff_eq] at h ⊢
  omega

def newline : CodePoint := cp '\n'

def carriageReturn : CodePoint := cp '\r'

/-- `str.splitlines(keepends=True)`. -/
def splitLines : Str → List Str
  | [] => []
  | c :: cs =>
    if isLineBreak c && !(c == carriageReturn && cs.head? == some newline) then
      [c] :: splitLines cs
    else
      match splitLines cs with
      | [] => [[c]]
      | l :: ls => (c :: l) :: ls

theorem splitLines_flatten (t : Str) : (splitLines t).flatten = t := by
  induction t with
  | nil => rfl
  | cons c cs ih =>
    unfold splitLines
    split
    · rw [List.flatten_cons, ih]
      rfl
    · split
      · next hs =>
        rw [hs] at ih
        rw [← ih]
        rfl
      · next l ls hs =>
        rw [hs] at ih
        rw [← ih]
        rfl

theorem splitLines_ne_nil {t l : Str} (h : l ∈ splitLines t) : l ≠ [] := by
  induction t generalizing l with
  | nil => cases h
  | cons c cs ih =>
    unfold splitLines at h
    split at h
    · cases List.mem_cons.mp h with
      | inl h =>
        rw [h]
        exact List.cons_ne_nil _ _
      | inr h => exact ih h
    · split at h
      · rw [List.mem_singleton.mp h]
        exact List.cons_ne_nil _ _
      · next m ls hs =>
        cases List.mem_cons.mp h with
        | inl h =>
          rw [h]
          exact List.cons_ne_nil _ _
        | inr h => exact ih (hs ▸ List.mem_cons_of_mem _ h)

/-- `line.rstrip("\r\n")`. -/
def stripLineEnd (line : Str) : Str :=
  line.rdropWhile (fun c => c == newline || c == carriageReturn)

/-- `sep.join(lines)`. -/
def join (sep : Str) (lines : List Str) : Str := sep.intercalate lines

def startsWith (t start : Str) : Bool := start.isPrefixOf t

/-- How the length of a text is counted: in bytes of UTF-8, or in characters. -/
inductive Measure where
  | utf8
  | characters
  deriving DecidableEq, Repr

def utf8Size (c : CodePoint) : Nat :=
  if c.val < 0x80 then 1 else if c.val < 0x800 then 2 else if c.val < 0x10000 then 3 else 4

def Measure.char : Measure → CodePoint → Nat
  | .utf8, c => utf8Size c
  | .characters, _ => 1

def Measure.of (m : Measure) (t : Str) : Nat := (t.map m.char).sum

def isSurrogate (c : CodePoint) : Bool := 0xd800 ≤ c.val && c.val ≤ 0xdfff

variable {m : Measure}

@[simp] theorem Measure.of_nil : m.of [] = 0 := rfl

variable {t : Str}

@[simp] theorem Measure.of_cons : m.of (c :: t) = m.char c + m.of t := rfl

@[simp] theorem Measure.of_append {s t : Str} : m.of (s ++ t) = m.of s + m.of t := by
  simp [Measure.of]

theorem Measure.char_le : m.char c ≤ 4 := by
  cases m with
  | utf8 =>
    simp only [Measure.char, utf8Size]
    split
    · omega
    split
    · omega
    split
    · omega
    · omega
  | characters => exact (by decide : 1 ≤ 4)

theorem Measure.char_le_of (h : c ∈ t) : m.char c ≤ m.of t := by
  induction t with
  | nil => cases h
  | cons d ds ih =>
    rw [Measure.of_cons]
    cases List.mem_cons.mp h with
    | inl h => exact h ▸ Nat.le_add_right _ _
    | inr h => exact Nat.le_trans (ih h) (Nat.le_add_left _ _)

theorem Measure.of_take_le {i j : Nat} (h : i ≤ j) : m.of (t.take i) ≤ m.of (t.take j) := by
  have hsplit := List.take_append_drop i (t.take j)
  rw [List.take_take, Nat.min_eq_left h] at hsplit
  calc m.of (t.take i) ≤ m.of (t.take i) + m.of ((t.take j).drop i) := Nat.le_add_right _ _
    _ = m.of (t.take i ++ (t.take j).drop i) := Measure.of_append.symm
    _ = m.of (t.take j) := by rw [hsplit]

def visible (t : Str) : Str := t.filter (fun c => !isSpace c)

@[simp] theorem visible_nil : visible [] = [] := rfl

@[simp] theorem visible_append {s t : Str} : visible (s ++ t) = visible s ++ visible t := by
  simp [visible]

theorem visible_eq_nil (h : ∀ c ∈ t, isSpace c = true) : visible t = [] := by
  rw [visible, List.filter_eq_nil_iff]
  intro c hc
  rw [h c hc]
  decide

theorem visible_flatten {ts : List Str} : visible ts.flatten = (ts.map visible).flatten := by
  induction ts with
  | nil => rfl
  | cons t ts ih => rw [List.flatten_cons, visible_append, ih, List.map_cons, List.flatten_cons]

theorem visible_stripLineEnd (line : Str) : visible (stripLineEnd line) = visible line := by
  have hsplit : stripLineEnd line ++
      line.rtakeWhile (fun c => c == newline || c == carriageReturn) = line :=
    List.rdropWhile_append_rtakeWhile
  have hblank : visible (line.rtakeWhile (fun c => c == newline || c == carriageReturn)) = [] := by
    apply visible_eq_nil
    intro c hc
    have hend := List.mem_rtakeWhile_imp hc
    rw [Bool.or_eq_true, beq_iff_eq, beq_iff_eq] at hend
    cases hend with
    | inl h =>
      rw [h]
      decide
    | inr h =>
      rw [h]
      decide
  calc visible (stripLineEnd line)
      = visible (stripLineEnd line ++ line.rtakeWhile
          (fun c => c == newline || c == carriageReturn)) := by
        rw [visible_append, hblank, List.append_nil]
    _ = visible line := by rw [hsplit]

theorem visible_join {sep : Str} (hs : visible sep = []) (lines : List Str) :
    visible (join sep lines) = (lines.map visible).flatten := by
  unfold join
  induction lines with
  | nil => rfl
  | cons l ls ih =>
    cases ls with
    | nil => simp [List.intercalate]
    | cons k ks =>
      rw [List.intercalate_cons_cons, visible_append, visible_append, hs, ih]
      simp

end Kirara.CodePoints
