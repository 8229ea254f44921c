import Kirara.RunCollapse
import Mathlib.Algebra.Order.Ring.Nat
import Mathlib.Data.Char
import Mathlib.Data.List.DropRight
import Mathlib.Data.List.Infix

namespace Kirara.Channels

open Kirara.RunCollapse

abbrev Text := List Char

-- a property of the characters of a text is decided on the text, not on all the characters there are
instance (priority := 1100) decidableForallMem {α : Type} (p : α → Prop) [DecidablePred p] (l : List α) :
    Decidable (∀ a ∈ l, p a) :=
  List.decidableBAll p l

instance (priority := 1100) decidableExistsMem {α : Type} (p : α → Prop) [DecidablePred p] (l : List α) :
    Decidable (∃ a ∈ l, p a) :=
  List.decidableBEx p l

instance (priority := 1100) decidableMem {α : Type} [DecidableEq α] (t : List α) (l : List (List α)) :
    Decidable (t ∈ l) :=
  List.instDecidableMemOfLawfulBEq t l

instance (priority := 1100) decidableMemPair {α β : Type} [DecidableEq α] [DecidableEq β] (p : α × β)
    (l : List (α × β)) : Decidable (p ∈ l) :=
  List.instDecidableMemOfLawfulBEq p l

/-- The characters `str.strip` removes. -/
def isSpace (c : Char) : Bool :=
  (9 ≤ c.toNat && c.toNat ≤ 13) || (28 ≤ c.toNat && c.toNat ≤ 32) ||
    (0x2000 ≤ c.toNat && c.toNat ≤ 0x200a) ||
    c.toNat ∈ [0x85, 0xa0, 0x1680, 0x2028, 0x2029, 0x202f, 0x205f, 0x3000]

def strip (t : Text) : Text := (t.dropWhile isSpace).rdropWhile isSpace

/-- The characters of `_IDENTIFIER_PATTERN`. -/
def identifierChar (c : Char) : Bool := c.isAlphanum || c ∈ ['.', '_', ':', '@', '/', '-']

variable {t : Text}

theorem legible_of_all (h : t.all identifierChar = true) : ∀ c ∈ t, identifierChar c = true :=
  List.all_eq_true.mp h

/-- What `_clean_identifier` returns. -/
@[ext] structure Identifier where
  text : Text
  nonempty : text ≠ []
  bounded : text.length ≤ 256
  legible : ∀ c ∈ text, identifierChar c = true

def unknown : Identifier := ⟨"unknown".toList, by decide, by decide, legible_of_all (by decide)⟩

def defaultScope : Identifier := ⟨"default".toList, by decide, by decide, legible_of_all (by decide)⟩

def unknownSender : Identifier := ⟨"unknown-sender".toList, by decide, by decide, legible_of_all (by decide)⟩

def unknownGroup : Identifier := ⟨"unknown-group".toList, by decide, by decide, legible_of_all (by decide)⟩

def cleanText (value : Option Text) (fallback : Text) : Text :=
  match value with
  | none => fallback
  | some value =>
    let text := strip value
    if text = [] then fallback
    else
      let text := if text.all identifierChar then text
        else substitute identifierChar '_' false text
      if text.take 256 = [] then fallback else text.take 256

def present (value : Option Text) (fallback : Text) : Text :=
  match value with
  | none => fallback
  | some value => if strip value = [] then fallback else strip value

variable {c : Char}

theorem ascii_induction {P : Char → Prop} (h : ∀ n < 128, P (Char.ofNat n)) (hc : c.toNat < 128) : P c := by
  have hn := h c.toNat hc
  rwa [Char.ofNat_toNat] at hn

theorem toLower_toLower (c : Char) : c.toLower.toLower = c.toLower := by
  by_cases h : c.toNat < 128
  · have hall : ∀ n < 128, (Char.ofNat n).toLower.toLower = (Char.ofNat n).toLower := by decide +kernel
    exact ascii_induction (P := fun c => c.toLower.toLower = c.toLower) hall h
  · have hsame : c.toLower = c := dif_neg (fun hc => h (Nat.lt_of_le_of_lt (UInt32.le_iff_toNat_le.mp hc.2) (by decide)))
    rw [hsame, hsame]

theorem isAlphanum_iff : c.isAlphanum = true ↔ (c.isUpper = true ∨ c.isLower = true) ∨ c.isDigit = true := by
  change (c.isUpper || c.isLower || c.isDigit) = true ↔ _
  simp only [Bool.or_eq_true]

theorem isAlphanum_ascii (h : c.isAlphanum = true) : c.toNat < 128 := by
  change (decide (c.val ≥ 'A'.val ∧ c.val ≤ 'Z'.val) || (c.val ≥ 'a'.val && c.val ≤ 'z'.val) ||
    (c.val ≥ '0'.val && c.val ≤ '9'.val)) = true at h
  simp only [Bool.or_eq_true, Bool.and_eq_true, decide_eq_true_eq, UInt32.le_iff_toNat_le, ge_iff_le] at h
  have hval : c.toNat = c.val.toNat := rfl
  have hz : 'z'.val.toNat = 122 := rfl
  have hZ : 'Z'.val.toNat = 90 := rfl
  have hd : '9'.val.toNat = 57 := rfl
  omega

theorem identifierChar_ascii (h : identifierChar c = true) : c.toNat < 128 := by
  rw [identifierChar, Bool.or_eq_true, decide_eq_true_eq] at h
  cases h with
  | inl h => exact isAlphanum_ascii h
  | inr h =>
    revert c
    simp

theorem not_isSpace_of_identifierChar (h : identifierChar c = true) : isSpace c = false := by
  have hall : ∀ n < 128, identifierChar (Char.ofNat n) = true → isSpace (Char.ofNat n) = false := by
    decide +kernel
  exact ascii_induction (P := fun c => identifierChar c = true → isSpace c = false) hall
    (identifierChar_ascii h) h

theorem identifierChar_toLower (h : identifierChar c = true) : identifierChar c.toLower = true := by
  have hall : ∀ n < 128, identifierChar (Char.ofNat n) = true →
      identifierChar (Char.ofNat n).toLower = true := by
    decide +kernel
  exact ascii_induction (P := fun c => identifierChar c = true → identifierChar c.toLower = true)
    hall (identifierChar_ascii h) h

theorem strip_eq_self (h : ∀ c ∈ t, isSpace c = false) : strip t = t := by
  have hs : ∀ c ∈ t, ¬ isSpace c = true := fun c hc => by simp [h c hc]
  have hd : t.dropWhile isSpace = t := by
    cases t with
    | nil => rfl
    | cons c t => exact List.dropWhile_cons_of_neg (hs c List.mem_cons_self)
  rw [strip, hd, List.rdropWhile_eq_self_iff]
  exact fun hne => hs _ (List.getLast_mem hne)

theorem strip_of_legible (h : ∀ c ∈ t, identifierChar c = true) : strip t = t :=
  strip_eq_self (fun c hc => not_isSpace_of_identifierChar (h c hc))

theorem strip_eq_nil_iff : strip t = [] ↔ ∀ c ∈ t, isSpace c = true := by
  rw [strip, List.rdropWhile_eq_nil_iff]
  refine ⟨fun h c hc => ?_, fun h c hc => h c ((List.dropWhile_suffix isSpace).subset hc)⟩
  rw [← List.takeWhile_append_dropWhile (p := isSpace) (l := t), List.mem_append] at hc
  exact hc.elim List.mem_takeWhile_imp (h c)

theorem strip_strip (t : Text) : strip (strip t) = strip t := by
  have hhead : (strip t).dropWhile isSpace = strip t := by
    cases hs : strip t with
    | nil => rfl
    | cons c u =>
      have hc : c ∈ (t.dropWhile isSpace).head? := by
        obtain ⟨v, hv⟩ := List.rdropWhile_prefix isSpace (t.dropWhile isSpace)
        have hu : (t.dropWhile isSpace).rdropWhile isSpace = c :: u := hs
        rw [← hv, hu]
        rfl
      have hn := List.head?_dropWhile_not isSpace t
      rw [Option.mem_def.mp hc] at hn
      exact List.dropWhile_cons_of_neg (by simpa using hn)
  rw [strip, hhead]
  exact List.rdropWhile_idempotent isSpace (t.dropWhile isSpace)

variable (value : Option Text) (fallback : Identifier)

theorem cleanText_eq : cleanText value fallback.text =
      (substitute identifierChar '_' false (present value fallback.text)).take 256 := by
  have hf : fallback.text =
      (substitute identifierChar '_' false fallback.text).take 256 := by
    rw [substitute_of_kept fallback.legible, List.take_of_length_le fallback.bounded]
  cases value with
  | none => exact hf
  | some value =>
    by_cases hs : strip value = []
    · simpa [cleanText, present, hs] using hf
    have hne : substitute identifierChar '_' false (strip value) ≠ [] := substitute_ne_nil hs
    by_cases ha : (strip value).all identifierChar = true
    · have hkept : substitute identifierChar '_' false (strip value) = strip value :=
        substitute_of_kept (by simpa using ha) false
      simp [cleanText, present, hs, ha, hkept]
    · simp [cleanText, present, hs, ha, hne]

theorem present_ne_nil : present value fallback.text ≠ [] := by
  cases value with
  | none => exact fallback.nonempty
  | some value =>
    by_cases hs : strip value = []
    · simpa [present, hs] using fallback.nonempty
    · simp [present, hs]

def cleanIdentifier (value : Option Text) (fallback : Identifier) : Identifier where
  text := cleanText value fallback.text
  nonempty := by
    rw [cleanText_eq]
    have hne : substitute identifierChar '_' false (present value fallback.text) ≠ [] :=
      substitute_ne_nil (present_ne_nil value fallback)
    simpa using hne
  bounded := by
    rw [cleanText_eq]
    exact List.length_take_le 256 _
  legible c hc := by
    rw [cleanText_eq] at hc
    exact substitute_mem (by decide) (List.mem_of_mem_take hc)

theorem cleanIdentifier_text : (cleanIdentifier value fallback).text =
      (substitute identifierChar '_' false (present value fallback.text)).take 256 :=
  cleanText_eq value fallback

theorem cleanIdentifier_legible (hn : t ≠ []) (hl : ∀ c ∈ t, identifierChar c = true)
    (fallback : Identifier) : (cleanIdentifier (some t) fallback).text = t.take 256 := by
  rw [cleanIdentifier_text]
  simp [present, strip_of_legible hl, hn, substitute_of_kept hl]

@[simp] theorem cleanIdentifier_self (i fallback : Identifier) :
    cleanIdentifier (some i.text) fallback = i := by
  apply Identifier.ext
  rw [cleanIdentifier_legible i.nonempty i.legible, List.take_of_length_le i.bounded]

def Identifier.lower (i : Identifier) : Identifier where
  text := i.text.map Char.toLower
  nonempty := by simpa using i.nonempty
  bounded := by simpa using i.bounded
  legible c hc := by
    obtain ⟨d, hd, rfl⟩ := List.mem_map.mp hc
    exact identifierChar_toLower (i.legible d hd)

end Kirara.Channels
