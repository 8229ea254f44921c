import Kirara.ConfigValues
import Kirara.CredentialKeys
import Kirara.TextRewriting

namespace Kirara.TraceRedaction

open Kirara.Channels Kirara.ConfigValues Kirara.CredentialKeys Kirara.TextRewriting

/-- Letters as `re.IGNORECASE` compares them: the `I`s of Turkish, the long `s` and the Kelvin
sign stand for ASCII letters. -/
def foldCase (c : Char) : Char :=
  if c.toNat = 0x130 ∨ c.toNat = 0x131 then 'i'
  else if c.toNat = 0x17f then 's'
  else if c.toNat = 0x212a then 'k'
  else c.toLower

def run (f : Char → Bool) : Text → Option Text
  | [] => none
  | c :: t => if f c then some ((c :: t).dropWhile f) else none

/-- `[:=]`. -/
def isSep (c : Char) : Bool := c = ':' || c = '='

/-- `[^,;\s]`. -/
def valueChar (c : Char) : Bool := c ≠ ',' && c ≠ ';' && !isSpace c

def schemes : List Text := texts ["bearer", "basic"]

/-- `(?:(?:bearer|basic)\s+)?[^,;\s]+`. -/
def valueTail (t : Text) : Option Text :=
  (schemes.findSome? (fun scheme =>
    if Begins foldCase scheme t then (run isSpace (t.drop scheme.length)).bind (run valueChar)
    else none)).or (run valueChar t)

/-- No class meets the one behind it, so that a greedy run is never taken back. -/
def inlineTail (t : Text) : Option Text :=
  match t.dropWhile isSpace with
  | [] => none
  | c :: u => if isSep c then valueTail (u.dropWhile isSpace) else none

/-- `[A-Za-z0-9._~+/=-]`. -/
def authChar (c : Char) : Bool :=
  (foldCase c).isAlphanum || c ∈ ['.', '_', '~', '+', '/', '=', '-']

/-- What follows the scheme in `_AUTH_SCHEME_PATTERN`. -/
def authTail (t : Text) : Option Text := (run isSpace t).bind (run authChar)

variable {t rest : Text}

theorem run_suffix {f : Char → Bool} (h : run f t = some rest) : rest <:+ t := by
  cases t with
  | nil => cases h
  | cons c t =>
    rw [run, Option.ite_none_right_eq_some] at h
    cases h.2
    exact List.dropWhile_suffix f

theorem run_bind_suffix {f g : Char → Bool} (h : (run f t).bind (run g) = some rest) : rest <:+ t := by
  obtain ⟨u, hu, hrest⟩ := Option.bind_eq_some_iff.mp h
  exact (run_suffix hrest).trans (run_suffix hu)

theorem valueTail_suffix (h : valueTail t = some rest) : rest <:+ t := by
  obtain h | ⟨-, h⟩ := Option.or_eq_some_iff.mp h
  · obtain ⟨scheme, -, hs⟩ := List.exists_of_findSome?_eq_some h
    rw [Option.ite_none_right_eq_some] at hs
    exact (run_bind_suffix hs.2).trans (List.drop_suffix _ _)
  · exact run_suffix h

theorem inlineTail_suffix (t rest : Text) (h : inlineTail t = some rest) : rest <:+ t := by
  unfold inlineTail at h
  split at h
  · cases h
  · next c u hu =>
    rw [Option.ite_none_right_eq_some] at h
    have hcu : c :: u <:+ t := hu ▸ List.dropWhile_suffix isSpace
    exact ((valueTail_suffix h.2).trans (List.dropWhile_suffix _)).trans
      ((List.suffix_cons c u).trans hcu)

/-- `_INLINE_SECRET_PATTERN.sub(r"\1=[redacted]", value)`. -/
def inlineRule : Rule where
  leads := texts ["authorization", "x-api-key", "api-key", "api_key", "api key", "apikey", "token",
    "cookie", "password", "secret", "credential"]
  tail := inlineTail
  mark := "=[redacted]".toList
  leads_ne_nil := by decide
  tail_suffix := inlineTail_suffix

/-- `_AUTH_SCHEME_PATTERN.sub(r"\1 [redacted]", value)`. -/
def authRule : Rule where
  leads := schemes
  tail := authTail
  mark := " [redacted]".toList
  leads_ne_nil := by decide
  tail_suffix := fun _ _ => run_bind_suffix

variable {α : Type} (word : Char → Bool)

/-- `word` says what `\b` counts among the characters of a word. -/
def redactText (t : Text) : Text :=
  authRule.rewrite foldCase word none 0 (inlineRule.rewrite foldCase word none 0 t)

mutual

/-- `_redact_trace_value`. Tuples come out as lists. -/
def redactTraceValue : Value α → Text → Value α
  | .atom a, key => if isCredentialKey key then .text "[redacted]".toList else .atom a
  | .text t, key => if isCredentialKey key then .text "[redacted]".toList else .text (redactText word t)
  | .list items, key =>
    if isCredentialKey key then .text "[redacted]".toList else .list (redactTraceItems items key)
  | .tuple items, key =>
    if isCredentialKey key then .text "[redacted]".toList else .list (redactTraceItems items key)
  | .dict entries, key =>
    if isCredentialKey key then .text "[redacted]".toList else .dict (redactTraceEntries entries)

def redactTraceItems : List (Value α) → Text → List (Value α)
  | [], _ => []
  | v :: vs, key => redactTraceValue v key :: redactTraceItems vs key

def redactTraceEntries : List (Text × Value α) → List (Text × Value α)
  | [] => []
  | (key, child) :: es => (key, redactTraceValue child key) :: redactTraceEntries es

end

end Kirara.TraceRedaction
