import Kirara.Channels

namespace Kirara.CredentialKeys

open Kirara.Channels Kirara.RunCollapse

def texts (names : List String) : List Text := names.map String.toList

def credentialParts : List Text :=
  texts ["authorization", "cookie", "credential", "credentials", "passwd", "password", "secret",
    "token", "apikey", "signature"]

def keyQualifiers : List Text :=
  texts ["access", "api", "app", "auth", "bearer", "client", "encryption", "master", "private",
    "publishable", "refresh", "secret", "session", "signing", "subscription"]

def nonCredentialKeyNames : List Text :=
  texts ["max_tokens", "prompt_tokens", "completion_tokens", "total_tokens", "cached_tokens",
    "cache_write_tokens", "reasoning_tokens", "input_tokens", "output_tokens", "token_count",
    "tokens"]

/-- A boundary `_CAMEL_BOUNDARY` finds between two characters. -/
def camelBoundary (c d : Char) : Bool := (c.isLower || c.isDigit) && d.isUpper

/-- `_CAMEL_BOUNDARY.sub(r"\1_\2", key)`. The capital of a match cannot begin another one. -/
def splitCamel : Text → Text
  | [] => []
  | [c] => [c]
  | c :: d :: t => if camelBoundary c d then c :: '_' :: splitCamel (d :: t) else c :: splitCamel (d :: t)

/-- `str.strip("_")`. -/
def stripUnderscores (t : Text) : Text := (t.dropWhile (· = '_')).rdropWhile (· = '_')

def normalizeCredentialKey (key : Text) : Text :=
  (stripUnderscores (substitute Char.isAlphanum '_' false (splitCamel key))).map Char.toLower

def nonemptyParts (normalized : Text) : List Text := (normalized.splitOn '_').filter (· ≠ [])

def credentialKeyParts (key : Text) : List Text := nonemptyParts (normalizeCredentialKey key)

def hasCredentialParts (parts : List Text) : Bool :=
  parts.any (· ∈ credentialParts) ||
    ("key".toList ∈ parts && parts.any (· ∈ keyQualifiers)) ||
    (parts.getLast? = some "id".toList && 1 < parts.length &&
      parts.head?.any (· ∈ texts ["access", "secret", "signing"]))

def isCredentialKey (key : Text) : Bool :=
  let normalized := normalizeCredentialKey key
  if normalized = [] ∨ normalized ∈ nonCredentialKeyNames then false
  else hasCredentialParts (nonemptyParts normalized)

def alnumRuns (t : Text) : List Text := (t.splitOnP (fun c => !c.isAlphanum)).filter (· ≠ [])

def joined (parts : List Text) : Text := ['_'].intercalate parts

def formsCredential (words : List Text) : Bool :=
  words ≠ [] && joined words ∉ nonCredentialKeyNames && hasCredentialParts words

variable {c d : Char} {s t w : Text}

theorem alnumRuns_cons_of_not (h : c.isAlphanum = false) : alnumRuns (c :: t) = alnumRuns t := by
  simp [alnumRuns, List.splitOnP_cons_eq_if_modifyHead, h]

theorem alnumRuns_append_cons (h : c.isAlphanum = false) :
    alnumRuns (s ++ c :: t) = alnumRuns s ++ alnumRuns t := by
  rw [alnumRuns, List.splitOnP_append_cons _ _ (by simp [h]), List.filter_append]
  rfl

theorem alnumRuns_of_alnum (h : ∀ c ∈ w, c.isAlphanum = true) (hw : w ≠ []) : alnumRuns w = [w] := by
  rw [alnumRuns, List.splitOnP_eq_singleton (fun c hc => by simp [h c hc])]
  simp [hw]

theorem alnumRuns_run (h : ∀ c ∈ w, c.isAlphanum = true) (hw : w ≠ [])
    (ht : ∀ c ∈ t.head?, c.isAlphanum = false) : alnumRuns (w ++ t) = w :: alnumRuns t := by
  cases t with
  | nil => rw [List.append_nil, alnumRuns_of_alnum h hw]; rfl
  | cons c t =>
    rw [alnumRuns_append_cons (ht c rfl), alnumRuns_of_alnum h hw,
      alnumRuns_cons_of_not (ht c rfl), List.singleton_append]

theorem exists_run (hc : c.isAlphanum = true) (t : Text) :
    ∃ w u, c :: t = w ++ u ∧ w ≠ [] ∧ (∀ d ∈ w, d.isAlphanum = true) ∧
      (∀ d ∈ u.head?, d.isAlphanum = false) := by
  refine ⟨(c :: t).takeWhile Char.isAlphanum, (c :: t).dropWhile Char.isAlphanum,
    List.takeWhile_append_dropWhile.symm, by simp [hc], fun d hd => List.mem_takeWhile_imp hd,
    fun d hd => ?_⟩
  have hd' := List.head?_dropWhile_not Char.isAlphanum (c :: t)
  rw [Option.mem_def.mp hd] at hd'
  exact hd'

theorem run_induction {P : Text → Prop} (nil : P []) (skip : ∀ c t, c.isAlphanum = false → P t → P (c :: t))
    (run : ∀ w t, w ≠ [] → (∀ c ∈ w, c.isAlphanum = true) →
      (∀ c ∈ t.head?, c.isAlphanum = false) → P t → P (w ++ t)) (t : Text) : P t := by
  induction hn : t.length using Nat.strong_induction_on generalizing t with
  | _ n ih =>
  cases t with
  | nil => exact nil
  | cons c t =>
    cases hc : c.isAlphanum with
    | false => exact skip c t hc (ih _ (by simp [← hn]) t rfl)
    | true =>
      obtain ⟨w, u, ht, hw, hall, hhead⟩ := exists_run hc t
      have hlen : u.length < n := by
        have hpos := List.length_pos_iff.mpr hw
        rw [← hn, ht, List.length_append]
        omega
      rw [ht]
      exact run w u hw hall hhead (ih _ hlen u rfl)

@[simp] theorem joined_nil : joined [] = [] := rfl

@[simp] theorem joined_singleton : joined [w] = w := List.intercalate_singleton

variable {ws : List Text}

theorem joined_cons (h : ws ≠ []) : joined (w :: ws) = w ++ '_' :: joined ws := by
  rw [joined, List.intercalate_cons_of_ne_nil h]
  simp [joined]

theorem substitute_true (t : Text) : ∃ trail, (trail = [] ∨ alnumRuns t ≠ [] ∧ trail = ['_']) ∧
      substitute Char.isAlphanum '_' true t = joined (alnumRuns t) ++ trail := by
  induction t using run_induction with
  | nil => exact ⟨[], .inl rfl, rfl⟩
  | skip c t hc ih =>
    rw [alnumRuns_cons_of_not hc]
    simpa [substitute, hc] using ih
  | run w t hw hall hhead ih =>
    have hkept : ∀ c ∈ (w ++ t).head?, c.isAlphanum = true := by
      rw [List.head?_append_of_ne_nil w hw]
      exact fun c hc => hall c (List.mem_of_mem_head? hc)
    rw [alnumRuns_run hall hw hhead, substitute_of_head_kept hkept, substitute_kept_append hall]
    cases t with
    | nil => exact ⟨[], .inl rfl, by simp [substitute, alnumRuns]⟩
    | cons c t =>
      have hc := hhead c rfl
      obtain ⟨trail, htrail, hs⟩ := ih
      have hcons : substitute Char.isAlphanum '_' false (c :: t) =
          '_' :: substitute Char.isAlphanum '_' true (c :: t) := by simp [substitute, hc]
      rw [hcons, hs]
      by_cases hr : alnumRuns (c :: t) = []
      · refine ⟨['_'], .inr ⟨List.cons_ne_nil _ _, rfl⟩, ?_⟩
        rw [hr, htrail.resolve_right (fun h => h.1 hr), joined_singleton, joined_nil]
        rfl
      · refine ⟨trail, htrail.imp_right (fun h => ⟨List.cons_ne_nil _ _, h.2⟩), ?_⟩
        rw [joined_cons hr, List.append_assoc, List.cons_append]

theorem substitute_false (t : Text) : ∃ lead trail, (lead = [] ∨ lead = ['_']) ∧ (trail = [] ∨ trail = ['_']) ∧
      substitute Char.isAlphanum '_' false t = lead ++ joined (alnumRuns t) ++ trail := by
  obtain ⟨trail, htrail, hs⟩ := substitute_true t
  have ht := htrail.imp_right And.right
  cases t with
  | nil => exact ⟨[], trail, .inl rfl, ht, hs⟩
  | cons c t =>
    cases hc : c.isAlphanum with
    | true =>
      rw [substitute_of_head_kept (by simp [hc])] at hs
      exact ⟨[], trail, .inl rfl, ht, hs⟩
    | false =>
      refine ⟨['_'], trail, .inr rfl, ht, ?_⟩
      rw [List.append_assoc, ← hs]
      simp [substitute, hc]

theorem ne_underscore (h : c.isAlphanum = true) : c ≠ '_' := by
  rintro rfl
  cases h

theorem joined_head (h : ∀ w ∈ ws, w ≠ [] ∧ ∀ c ∈ w, c.isAlphanum = true) :
    ∀ c ∈ (joined ws).head?, c ≠ '_' := by
  cases ws with
  | nil => exact fun c hc => (nomatch hc)
  | cons w ws =>
    obtain ⟨hw, hall⟩ := h w List.mem_cons_self
    intro c hc
    by_cases hws : ws = []
    · rw [hws, joined_singleton] at hc
      exact ne_underscore (hall c (List.mem_of_mem_head? hc))
    · rw [joined_cons hws, List.head?_append_of_ne_nil w hw] at hc
      exact ne_underscore (hall c (List.mem_of_mem_head? hc))

theorem joined_getLast (h : ∀ w ∈ ws, w ≠ [] ∧ ∀ c ∈ w, c.isAlphanum = true) :
    ∀ c ∈ (joined ws).getLast?, c ≠ '_' := by
  induction ws with
  | nil => exact fun c hc => (nomatch hc)
  | cons w ws ih =>
    obtain ⟨hw, hall⟩ := h w List.mem_cons_self
    have hrest := fun v hv => h v (List.mem_cons_of_mem w hv)
    by_cases hws : ws = []
    · rw [hws, joined_singleton]
      exact fun c hc => ne_underscore (hall c (List.mem_of_getLast? hc))
    · have hne : joined ws ≠ [] := by
        obtain ⟨v, vs, rfl⟩ := List.exists_cons_of_ne_nil hws
        have hv := (hrest v List.mem_cons_self).1
        by_cases hvs : vs = []
        · simpa [hvs] using hv
        · simp [joined_cons hvs]
      rw [joined_cons hws, List.getLast?_append_of_ne_nil _ (List.cons_ne_nil _ _),
        List.getLast?_cons_of_ne_nil hne]
      exact ih hrest

theorem stripUnderscores_padded {lead trail x : Text} (hl : lead = [] ∨ lead = ['_'])
    (ht : trail = [] ∨ trail = ['_']) (hhead : ∀ c ∈ x.head?, c ≠ '_')
    (hlast : ∀ c ∈ x.getLast?, c ≠ '_') : stripUnderscores (lead ++ x ++ trail) = x := by
  by_cases hx : x = []
  · subst hx
    obtain rfl | rfl := hl
    · obtain rfl | rfl := ht <;> rfl
    · obtain rfl | rfl := ht <;> rfl
  · have hdrop : (lead ++ x ++ trail).dropWhile (· = '_') = x ++ trail := by
      obtain ⟨c, y, rfl⟩ := List.exists_cons_of_ne_nil hx
      have hc : c ≠ '_' := hhead c rfl
      obtain rfl | rfl := hl
      · simp [hc]
      · simp [hc]
    have hkeep : x.rdropWhile (· = '_') = x := by
      rw [List.rdropWhile_eq_self_iff]
      intro hne
      simpa using hlast _ (List.getLast?_eq_getLast_of_ne_nil hne)
    rw [stripUnderscores, hdrop]
    obtain rfl | rfl := ht
    · rw [List.append_nil, hkeep]
    · rw [List.rdropWhile_concat_pos _ _ _ (by simp), hkeep]

theorem mem_alnumRuns (t : Text) : ∀ w ∈ alnumRuns t, w ≠ [] ∧ ∀ c ∈ w, c.isAlphanum = true := by
  induction t using run_induction with
  | nil =>
    intro w hw
    simp [alnumRuns] at hw
  | skip c t hc ih => rwa [alnumRuns_cons_of_not hc]
  | run w t hw hall hhead ih =>
    rw [alnumRuns_run hall hw hhead]
    intro v hv
    cases List.mem_cons.mp hv with
    | inl hv => exact hv ▸ ⟨hw, hall⟩
    | inr hv => exact ih v hv

theorem stripped_substitute (t : Text) :
    stripUnderscores (substitute Char.isAlphanum '_' false t) = joined (alnumRuns t) := by
  obtain ⟨lead, trail, hl, ht, hs⟩ := substitute_false t
  rw [hs]
  exact stripUnderscores_padded hl ht (joined_head (mem_alnumRuns t))
    (joined_getLast (mem_alnumRuns t))

theorem isAlphanum_toLower (h : c.isAlphanum = true) : c.toLower.isAlphanum = true := by
  have hall : ∀ n < 128, (Char.ofNat n).isAlphanum = true →
      (Char.ofNat n).toLower.isAlphanum = true := by
    decide +kernel
  exact ascii_induction (P := fun c => c.isAlphanum = true → c.toLower.isAlphanum = true) hall
    (isAlphanum_ascii h) h

theorem map_joined (f : Char → Char) (hf : f '_' = '_') (ws : List Text) :
    (joined ws).map f = joined (ws.map (List.map f)) := by
  induction ws with
  | nil => rfl
  | cons w ws ih =>
    by_cases hws : ws = []
    · simp [hws]
    · rw [joined_cons hws, List.map_append, List.map_cons, hf, ih, List.map_cons,
        joined_cons (by simpa using hws)]

theorem normalizeCredentialKey_eq (key : Text) : normalizeCredentialKey key =
      joined ((alnumRuns (splitCamel key)).map (List.map Char.toLower)) := by
  rw [normalizeCredentialKey, stripped_substitute, map_joined _ rfl]

theorem nonemptyParts_joined (h : ∀ w ∈ ws, w ≠ [] ∧ ∀ c ∈ w, c.isAlphanum = true) :
    nonemptyParts (joined ws) = ws := by
  by_cases hws : ws = []
  · subst hws
    rfl
  · rw [nonemptyParts, joined, List.splitOn_intercalate _ _ hws, List.filter_eq_self]
    · intro w hw
      simpa using (h w hw).1
    · intro w hw hm
      exact ne_underscore ((h w hw).2 _ hm) rfl

theorem credentialKeyParts_eq (key : Text) :
    credentialKeyParts key = (alnumRuns (splitCamel key)).map (List.map Char.toLower) := by
  rw [credentialKeyParts, normalizeCredentialKey_eq]
  apply nonemptyParts_joined
  intro w hw
  obtain ⟨v, hv, rfl⟩ := List.mem_map.mp hw
  obtain ⟨hne, hall⟩ := mem_alnumRuns _ v hv
  refine ⟨by simpa using hne, fun c hc => ?_⟩
  obtain ⟨d, hd, rfl⟩ := List.mem_map.mp hc
  exact isAlphanum_toLower (hall d hd)

theorem joined_eq_nil_iff (h : ∀ w ∈ ws, w ≠ []) : joined ws = [] ↔ ws = [] := by
  cases ws with
  | nil => simp
  | cons w ws =>
    have hw := h w List.mem_cons_self
    by_cases hws : ws = []
    · simp [hws, hw]
    · simp [joined_cons hws]

theorem isCredentialKey_eq (key : Text) : isCredentialKey key = formsCredential (credentialKeyParts key) := by
  have hparts : ∀ w ∈ credentialKeyParts key, w ≠ [] := by
    intro w hw
    simpa using (List.mem_filter.mp hw).2
  have hnorm : normalizeCredentialKey key = joined (credentialKeyParts key) := by
    rw [credentialKeyParts_eq, normalizeCredentialKey_eq]
  have hempty : normalizeCredentialKey key = [] ↔ credentialKeyParts key = [] := by
    rw [hnorm, joined_eq_nil_iff hparts]
  have hfold : nonemptyParts (normalizeCredentialKey key) = credentialKeyParts key := rfl
  unfold isCredentialKey formsCredential
  rw [← hnorm]
  dsimp only
  rw [hfold]
  by_cases hp : credentialKeyParts key = []
  · simp [hp, hempty.mpr hp]
  by_cases hn : normalizeCredentialKey key ∈ nonCredentialKeyNames
  · simp [hn]
  · simp [hp, hn, mt hempty.mp hp]

end Kirara.CredentialKeys
