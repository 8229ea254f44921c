import Kirara.ChannelContexts
import Kirara.CodePoints
import Kirara.StableSorts
import Mathlib.Data.List.Lex

namespace Kirara.JsonTexts

open Kirara.Channels Kirara.SessionIsolation Kirara.StableSorts

def hexValue (c : Char) : Nat := "0123456789abcdef".toList.idxOf c

theorem hexValue_digit : ∀ n < 16, hexValue (lowerHexDigit n) = n := by decide

def readHex : Text → Option (Nat × Text)
  | a :: b :: c :: d :: rest => some (((hexValue a * 16 + hexValue b) * 16 + hexValue c) * 16 + hexValue d, rest)
  | _ => none

def hexDigits (n : Nat) : Text := (unicodeEscape n).drop 2

theorem unicodeEscape_append (n : Nat) (rest : Text) : unicodeEscape n ++ rest = '\\' :: 'u' :: (hexDigits n ++ rest) := rfl

theorem readHex_digits {n : Nat} (h : n < 65536) (rest : Text) : readHex (hexDigits n ++ rest) = some (n, rest) := by
  have hd : ∀ k, hexValue (lowerHexDigit (k % 16)) = k % 16 := fun k => hexValue_digit _ (Nat.mod_lt k (by decide))
  change some (((hexValue (lowerHexDigit (n / 4096 % 16)) * 16 + hexValue (lowerHexDigit (n / 256 % 16))) * 16 +
    hexValue (lowerHexDigit (n / 16 % 16))) * 16 + hexValue (lowerHexDigit (n % 16)), rest) = _
  rw [hd, hd, hd, hd]
  congr 2
  omega

/-- What follows `\u`: a character, or the first of two surrogates. -/
def readUnicode (t : Text) : Option (Char × Text) :=
  match readHex t with
  | none => none
  | some (n, rest) =>
    if 0xd800 ≤ n ∧ n < 0xdc00 then
      (readHex (rest.drop 2)).map (fun p => (Char.ofNat (0x10000 + (n - 0xd800) * 1024 + (p.1 - 0xdc00)), p.2))
    else some (Char.ofNat n, rest)

def readEscape : Text → Option (Char × Text)
  | [] => none
  | c :: rest =>
    if c = 'u' then readUnicode rest
    else if c = 'n' then some ('\n', rest)
    else if c = 'r' then some ('\r', rest)
    else if c = 't' then some ('\t', rest)
    else if c = 'f' then some (Char.ofNat 12, rest)
    else if c = 'b' then some (Char.ofNat 8, rest)
    else some (c, rest)

def readChar : Text → Option (Char × Text)
  | [] => none
  | c :: rest => if c = '\\' then readEscape rest else some (c, rest)

theorem readChar_unicode (t : Text) : readChar ('\\' :: 'u' :: t) = readUnicode t := rfl

theorem readUnicode_basic {n : Nat} (h : n < 65536) (hn : ¬ (0xd800 ≤ n ∧ n < 0xdc00)) (rest : Text) :
    readUnicode (hexDigits n ++ rest) = some (Char.ofNat n, rest) := by
  rw [readUnicode, readHex_digits h]
  exact if_neg hn

theorem readUnicode_pair {n m : Nat} (hn : 0xd800 ≤ n ∧ n < 0xdc00) (hm : m < 65536) (rest : Text) :
    readUnicode (hexDigits n ++ (unicodeEscape m ++ rest)) =
      some (Char.ofNat (0x10000 + (n - 0xd800) * 1024 + (m - 0xdc00)), rest) := by
  have hlt : n < 65536 := by omega
  rw [readUnicode, readHex_digits hlt, unicodeEscape_append]
  dsimp only
  rw [if_pos hn, List.drop_succ_cons, List.drop_succ_cons, List.drop_zero, readHex_digits hm, Option.map_some]

theorem char_eq {c : Char} {n : Nat} (h : c.toNat = n) : Char.ofNat n = c := by
  rw [← h, Char.ofNat_toNat]

theorem not_surrogate (c : Char) : ¬ (0xd800 ≤ c.toNat ∧ c.toNat < 0xdc00) := by
  have h := c.valid
  intro hc
  have hv : c.toNat < 0xd800 ∨ 0xdfff < c.toNat ∧ c.toNat < 0x110000 := h
  omega

theorem readChar_escape (c : Char) (rest : Text) : readChar (jsonEscapeChar c ++ rest) = some (c, rest) := by
  unfold jsonEscapeChar
  split
  · next h => rw [h]; rfl
  split
  · next h => rw [h]; rfl
  split
  · next h => rw [h]; rfl
  split
  · next h => rw [h]; rfl
  split
  · next h => rw [h]; rfl
  split
  · next h =>
    rw [← char_eq h]
    rfl
  split
  · next h =>
    rw [← char_eq h]
    rfl
  next hbackslash _ _ _ _ _ =>
  split
  · change (if c = '\\' then _ else _) = _
    rw [if_neg hbackslash]
    rfl
  split
  · next h => rw [unicodeEscape_append, readChar_unicode, readUnicode_basic h (not_surrogate c), Char.ofNat_toNat]
  · next h =>
    have hlt := CodePoints.toNat_lt c
    have hc : c.toNat = 0x10000 + (0xd800 + (c.toNat - 0x10000) / 1024 - 0xd800) * 1024 +
        (0xdc00 + (c.toNat - 0x10000) % 1024 - 0xdc00) := by omega
    rw [List.append_assoc, unicodeEscape_append, readChar_unicode, readUnicode_pair (by omega) (by omega), char_eq hc]

variable {x y : Text}

theorem escape_ne_quote (c : Char) : jsonEscapeChar c ++ x ≠ '"' :: y := by
  intro h
  have hread := readChar_escape c x
  rw [h] at hread
  obtain ⟨hc, -⟩ : '"' = c ∧ y = x := by simpa [readChar] using hread
  rw [← hc] at h
  cases h

theorem jsonString_inj {t u x y : Text} (h : jsonString t ++ x = jsonString u ++ y) : t = u ∧ x = y := by
  rw [jsonString, jsonString, List.cons_append, List.cons_append, List.cons.injEq, List.append_assoc, List.append_assoc] at h
  obtain ⟨-, h⟩ := h
  induction t generalizing u with
  | nil =>
    cases u with
    | nil => exact ⟨rfl, (List.cons.inj h).2⟩
    | cons c u =>
      rw [List.flatMap_cons, List.append_assoc] at h
      exact absurd h.symm (escape_ne_quote c)
  | cons c t ih =>
    cases u with
    | nil =>
      rw [List.flatMap_cons, List.append_assoc] at h
      exact absurd h (escape_ne_quote c)
    | cons d u =>
      rw [List.flatMap_cons, List.flatMap_cons, List.append_assoc, List.append_assoc] at h
      have hread := readChar_escape c (t.flatMap jsonEscapeChar ++ (['"'] ++ x))
      rw [h, readChar_escape] at hread
      obtain ⟨hc, hrest⟩ := Prod.mk.inj (Option.some.inj hread)
      obtain ⟨ht, hxy⟩ := ih hrest.symm
      exact ⟨by rw [hc, ht], hxy⟩

def plainChar (c : Char) : Bool := c.isAlphanum || c = '+' || c = '-' || c = '.'

/-- `null`, `true`, `false` or a number, by its text. -/
structure Scalar where
  text : Text
  nonempty : text ≠ []
  plain : ∀ c ∈ text, plainChar c = true

inductive Value where
  | scalar (s : Scalar)
  | text (t : Text)
  | array (items : List Value)
  | object (fields : List (Text × Value))

mutual

def write : Value → Text
  | .scalar s => s.text
  | .text t => jsonString t
  | .array items => '[' :: writeArray items
  | .object fields => '\x7b' :: writeObject fields

def writeArray : List Value → Text
  | [] => [']']
  | v :: vs => write v ++ writeItems vs

def writeItems : List Value → Text
  | [] => [']']
  | v :: vs => ',' :: ' ' :: (write v ++ writeItems vs)

def writeObject : List (Text × Value) → Text
  | [] => ['\x7d']
  | (k, v) :: fields => jsonString k ++ (':' :: ' ' :: (write v ++ writeFields fields))

def writeFields : List (Text × Value) → Text
  | [] => ['\x7d']
  | (k, v) :: fields => ',' :: ' ' :: (jsonString k ++ (':' :: ' ' :: (write v ++ writeFields fields)))

end

/-- What cannot belong to a number that ends before it. -/
def Closed (t : Text) : Prop := ∀ c ∈ t.head?, plainChar c = false

def opening (c : Char) : Bool := plainChar c || c = '"' || c = '[' || c = '\x7b'

theorem Scalar.head (s : Scalar) : ∃ c rest, s.text = c :: rest ∧ plainChar c = true := by
  cases h : s.text with
  | nil => exact absurd h s.nonempty
  | cons c rest => exact ⟨c, rest, rfl, s.plain c (h ▸ List.mem_cons_self)⟩

theorem write_head (v : Value) : ∃ c rest, write v = c :: rest ∧ opening c = true := by
  cases v with
  | scalar s =>
    obtain ⟨c, rest, hs, hc⟩ := s.head
    exact ⟨c, rest, by rw [write, hs], by rw [opening, hc]; rfl⟩
  | text t => exact ⟨'"', _, by rw [write, jsonString], rfl⟩
  | array items => exact ⟨'[', _, by rw [write], rfl⟩
  | object fields => exact ⟨'\x7b', _, by rw [write], rfl⟩

theorem write_ne {v : Value} {c : Char} (hc : opening c = false) : write v ++ x ≠ c :: y := by
  obtain ⟨d, rest, hv, hd⟩ := write_head v
  rw [hv]
  intro h
  rw [(List.cons.inj h).1, hc] at hd
  cases hd

theorem scalar_inj {s s' : Scalar} (hx : Closed x) (hy : Closed y) (h : s.text ++ x = s'.text ++ y) :
    s = s' ∧ x = y := by
  have htake {s : Scalar} {x : Text} (hx : Closed x) : (s.text ++ x).takeWhile plainChar = s.text := by
    rw [List.takeWhile_append_of_pos s.plain]
    cases x with
    | nil => rw [List.takeWhile_nil, List.append_nil]
    | cons c x => rw [List.takeWhile_cons_of_neg (by rw [hx c rfl]; decide), List.append_nil]
  have htext : s.text = s'.text := by rw [← htake hx, h, htake hy]
  refine ⟨?_, ?_⟩
  · cases s
    cases s'
    cases htext
    rfl
  · rw [htext] at h
    exact List.append_cancel_left h

theorem scalar_ne {s : Scalar} {c : Char} (hc : plainChar c = false) : s.text ++ x ≠ c :: y := by
  obtain ⟨d, rest, hs, hd⟩ := s.head
  rw [hs]
  intro h
  rw [(List.cons.inj h).1, hc] at hd
  cases hd

theorem closed_items (vs : List Value) (x : Text) : Closed (writeItems vs ++ x) := by
  cases vs with
  | nil => exact fun c hc => Option.some.inj hc ▸ rfl
  | cons v vs => exact fun c hc => Option.some.inj hc ▸ rfl

theorem closed_fields (fields : List (Text × Value)) (x : Text) : Closed (writeFields fields ++ x) := by
  cases fields with
  | nil => exact fun c hc => Option.some.inj hc ▸ rfl
  | cons p fields => exact fun c hc => Option.some.inj hc ▸ rfl

mutual

theorem write_inj : ∀ (a b : Value) {x y : Text}, Closed x → Closed y → write a ++ x = write b ++ y → a = b ∧ x = y
  | .scalar s, .scalar s', x, y, hx, hy, h => by
    obtain ⟨hs, hxy⟩ := scalar_inj hx hy h
    exact ⟨by rw [hs], hxy⟩
  | .scalar s, .text t, x, y, hx, hy, h => absurd h (scalar_ne rfl)
  | .scalar s, .array items, x, y, hx, hy, h => absurd h (scalar_ne rfl)
  | .scalar s, .object fields, x, y, hx, hy, h => absurd h (scalar_ne rfl)
  | .text t, .scalar s, x, y, hx, hy, h => absurd h.symm (scalar_ne rfl)
  | .array items, .scalar s, x, y, hx, hy, h => absurd h.symm (scalar_ne rfl)
  | .object fields, .scalar s, x, y, hx, hy, h => absurd h.symm (scalar_ne rfl)
  | .text t, .text u, x, y, hx, hy, h => by
    obtain ⟨ht, hxy⟩ := jsonString_inj h
    exact ⟨by rw [ht], hxy⟩
  | .array vs, .array ws, x, y, hx, hy, h => by
    obtain ⟨hitems, hxy⟩ := writeArray_inj vs ws (List.cons.inj h).2
    exact ⟨by rw [hitems], hxy⟩
  | .object fs, .object gs, x, y, hx, hy, h => by
    obtain ⟨hfields, hxy⟩ := writeObject_inj fs gs (List.cons.inj h).2
    exact ⟨by rw [hfields], hxy⟩
  | .text t, .array items, x, y, hx, hy, h => (nomatch h)
  | .text t, .object fields, x, y, hx, hy, h => (nomatch h)
  | .array items, .text t, x, y, hx, hy, h => (nomatch h)
  | .array items, .object fields, x, y, hx, hy, h => (nomatch h)
  | .object fields, .text t, x, y, hx, hy, h => (nomatch h)
  | .object fields, .array items, x, y, hx, hy, h => (nomatch h)

theorem writeArray_inj : ∀ (vs ws : List Value) {x y : Text}, writeArray vs ++ x = writeArray ws ++ y → vs = ws ∧ x = y
  | [], [], x, y, h => ⟨rfl, (List.cons.inj h).2⟩
  | [], w :: ws, x, y, h => absurd ((List.append_assoc ..).symm.trans h.symm) (write_ne rfl)
  | v :: vs, [], x, y, h => absurd ((List.append_assoc ..).symm.trans h) (write_ne rfl)
  | v :: vs, w :: ws, x, y, h => by
    rw [writeArray, writeArray, List.append_assoc, List.append_assoc] at h
    obtain ⟨hv, hrest⟩ := write_inj v w (closed_items vs x) (closed_items ws y) h
    obtain ⟨hvs, hxy⟩ := writeItems_inj vs ws hrest
    exact ⟨by rw [hv, hvs], hxy⟩

theorem writeItems_inj : ∀ (vs ws : List Value) {x y : Text}, writeItems vs ++ x = writeItems ws ++ y → vs = ws ∧ x = y
  | [], [], x, y, h => ⟨rfl, (List.cons.inj h).2⟩
  | [], w :: ws, x, y, h => (nomatch h)
  | v :: vs, [], x, y, h => (nomatch h)
  | v :: vs, w :: ws, x, y, h => by
    rw [writeItems, writeItems, List.cons_append, List.cons_append, List.cons_append, List.cons_append, List.append_assoc,
      List.append_assoc] at h
    obtain ⟨hv, hrest⟩ := write_inj v w (closed_items vs x) (closed_items ws y) (List.cons.inj (List.cons.inj h).2).2
    obtain ⟨hvs, hxy⟩ := writeItems_inj vs ws hrest
    exact ⟨by rw [hv, hvs], hxy⟩

theorem writeObject_inj : ∀ (fs gs : List (Text × Value)) {x y : Text},
    writeObject fs ++ x = writeObject gs ++ y → fs = gs ∧ x = y
  | [], [], x, y, h => ⟨rfl, (List.cons.inj h).2⟩
  | [], (k, w) :: gs, x, y, h => (nomatch h)
  | (k, v) :: fs, [], x, y, h => (nomatch h)
  | (k, v) :: fs, (l, w) :: gs, x, y, h => by
    rw [writeObject, writeObject, List.append_assoc, List.append_assoc] at h
    obtain ⟨hk, h⟩ := jsonString_inj h
    have h : write v ++ writeFields fs ++ x = write w ++ writeFields gs ++ y := (List.cons.inj (List.cons.inj h).2).2
    rw [List.append_assoc, List.append_assoc] at h
    obtain ⟨hv, hrest⟩ := write_inj v w (closed_fields fs x) (closed_fields gs y) h
    obtain ⟨hfs, hxy⟩ := writeFields_inj fs gs hrest
    exact ⟨by rw [hk, hv, hfs], hxy⟩

theorem writeFields_inj : ∀ (fs gs : List (Text × Value)) {x y : Text},
    writeFields fs ++ x = writeFields gs ++ y → fs = gs ∧ x = y
  | [], [], x, y, h => ⟨rfl, (List.cons.inj h).2⟩
  | [], (k, w) :: gs, x, y, h => (nomatch h)
  | (k, v) :: fs, [], x, y, h => (nomatch h)
  | (k, v) :: fs, (l, w) :: gs, x, y, h => by
    rw [writeFields, writeFields, List.cons_append, List.cons_append, List.cons_append, List.cons_append, List.append_assoc,
      List.append_assoc] at h
    obtain ⟨hk, h⟩ := jsonString_inj (List.cons.inj (List.cons.inj h).2).2
    have h : write v ++ writeFields fs ++ x = write w ++ writeFields gs ++ y := (List.cons.inj (List.cons.inj h).2).2
    rw [List.append_assoc, List.append_assoc] at h
    obtain ⟨hv, hrest⟩ := write_inj v w (closed_fields fs x) (closed_fields gs y) h
    obtain ⟨hfs, hxy⟩ := writeFields_inj fs gs hrest
    exact ⟨by rw [hk, hv, hfs], hxy⟩

end

mutual

def sorted : Value → Value
  | .scalar s => .scalar s
  | .text t => .text t
  | .array items => .array (sortedItems items)
  | .object fields => .object (sortBy Prod.fst (sortedFields fields))

def sortedItems : List Value → List Value
  | [] => []
  | v :: vs => sorted v :: sortedItems vs

def sortedFields : List (Text × Value) → List (Text × Value)
  | [] => []
  | (k, v) :: fields => (k, sorted v) :: sortedFields fields

end

/-- `json.dumps` with `sort_keys=True`. -/
def dumps (v : Value) : Text := write (sorted v)

theorem dumps_eq_iff {a b : Value} : dumps a = dumps b ↔ sorted a = sorted b := by
  constructor
  · intro h
    have hclosed : Closed [] := fun c hc => (nomatch hc)
    have happend : write (sorted a) ++ [] = write (sorted b) ++ [] := by
      rw [List.append_nil, List.append_nil]
      exact h
    exact (write_inj (sorted a) (sorted b) hclosed hclosed happend).1
  · intro h
    rw [dumps, h, dumps]

end Kirara.JsonTexts
