import Kirara.KeySpellings
import Kirara.RedactionPasses
import Kirara.SecretRestoration

namespace Kirara.CredentialExposure

open Kirara.Channels Kirara.ConfigValues Kirara.CredentialKeys Kirara.KeySpellings Kirara.Rosters
open Kirara.RedactionPasses Kirara.SecretRestoration Kirara.TraceRedaction

variable {α : Type}

/-- A redaction marks what is under credential keys, and may rewrite other texts. -/
structure Redaction (α : Type) where
  apply : Value α → Value α
  mark : Text
  rewrite : Text → Text
  sequence : List (Value α) → Value α
  atom_eq : ∀ a, apply (.atom a) = .atom a
  text_eq : ∀ t, apply (.text t) = .text (rewrite t)
  list_eq : ∀ items, apply (.list items) = .list (items.map apply)
  tuple_eq : ∀ items, apply (.tuple items) = sequence (items.map apply)
  dict_eq : ∀ entries, apply (.dict entries) =
    .dict (entries.map (fun e => (e.1, if isCredentialKey e.1 then .text mark else apply e.2)))
  rewrite_twice : ∀ t, rewrite (rewrite t) = rewrite t
  sequence_cases : sequence = .tuple ∨ sequence = .list

/-- `_redact_sensitive_config`, for `GET /llm/backends` and the exports. -/
def configRedaction (α : Type) : Redaction α where
  apply := redactSensitiveConfig
  mark := []
  rewrite := id
  sequence := .tuple
  atom_eq := fun _ => rfl
  text_eq := fun _ => rfl
  list_eq := fun items => by rw [redactSensitiveConfig, redactItems_eq]
  tuple_eq := fun items => by rw [redactSensitiveConfig, redactItems_eq]
  dict_eq := fun entries => by rw [redactSensitiveConfig, redactEntries_eq]; rfl
  rewrite_twice := fun _ => rfl
  sequence_cases := .inl rfl

variable {word : Char → Bool}

theorem redactTraceItems_eq (items : List (Value α)) (key : Text) :
    redactTraceItems word items key = items.map (fun v => redactTraceValue word v key) := by
  induction items with
  | nil => rfl
  | cons v vs ih => rw [redactTraceItems, ih, List.map_cons]

theorem redactTraceEntries_eq (entries : List (Text × Value α)) : redactTraceEntries word entries =
    entries.map (fun e => (e.1, redactTraceValue word e.2 e.1)) := by
  induction entries with
  | nil => rfl
  | cons e es ih => rw [redactTraceEntries, ih, List.map_cons]

theorem isCredentialKey_nil : isCredentialKey [] = false := rfl

theorem redactTraceValue_credential {key : Text} (h : isCredentialKey key = true) (v : Value α) :
    redactTraceValue word v key = .text "[redacted]".toList := by
  cases v with
  | atom a => rw [redactTraceValue, h, if_pos rfl]
  | text t => rw [redactTraceValue, h, if_pos rfl]
  | list items => rw [redactTraceValue, h, if_pos rfl]
  | tuple items => rw [redactTraceValue, h, if_pos rfl]
  | dict entries => rw [redactTraceValue, h, if_pos rfl]

theorem redactTraceValue_plain {key : Text} (h : isCredentialKey key = false) (v : Value α) :
    redactTraceValue word v key = redactTraceValue word v [] := by
  induction v using value_induction with
  | atom a => rw [redactTraceValue, redactTraceValue, h, isCredentialKey_nil]
  | text t => rw [redactTraceValue, redactTraceValue, h, isCredentialKey_nil]
  | dict entries ih => rw [redactTraceValue, redactTraceValue, h, isCredentialKey_nil]
  | list items ih =>
    rw [redactTraceValue, redactTraceValue, h, isCredentialKey_nil, redactTraceItems_eq,
      redactTraceItems_eq, List.map_congr_left ih]
  | tuple items ih =>
    rw [redactTraceValue, redactTraceValue, h, isCredentialKey_nil, redactTraceItems_eq,
      redactTraceItems_eq, List.map_congr_left ih]

theorem redactTraceValue_under (key : Text) (v : Value α) : redactTraceValue word v key =
    if isCredentialKey key then .text "[redacted]".toList else redactTraceValue word v [] := by
  cases h : isCredentialKey key with
  | true => rw [if_pos rfl, redactTraceValue_credential h]
  | false => rw [if_neg Bool.false_ne_true, redactTraceValue_plain h]

theorem not_isCredentialKey_nil : ¬ isCredentialKey [] = true := Bool.false_ne_true

/-- `_redact_trace_value`, as it is called from outside. -/
def traceRedaction (α : Type) (word : Char → Bool) : Redaction α where
  apply := fun v => redactTraceValue word v []
  mark := "[redacted]".toList
  rewrite := redactText word
  sequence := .list
  atom_eq := fun _ => by rw [redactTraceValue, if_neg not_isCredentialKey_nil]
  text_eq := fun _ => by rw [redactTraceValue, if_neg not_isCredentialKey_nil]
  list_eq := fun items => by
    rw [redactTraceValue, if_neg not_isCredentialKey_nil, redactTraceItems_eq]
  tuple_eq := fun items => by
    rw [redactTraceValue, if_neg not_isCredentialKey_nil, redactTraceItems_eq]
  dict_eq := fun entries => by
    rw [redactTraceValue, if_neg not_isCredentialKey_nil, redactTraceEntries_eq]
    exact congrArg Value.dict (List.map_congr_left (fun e _ =>
      congrArg (Prod.mk e.1) (redactTraceValue_under e.1 e.2)))
  rewrite_twice := redactText_twice
  sequence_cases := .inr rfl

section Properties

variable (K : Text → Prop)

mutual

/-- The two values differ only in what is stored under keys of the kind `K`. -/
def AgreeOff : Value α → Value α → Prop
  | .atom a, .atom b => a = b
  | .text s, .text t => s = t
  | .list vs, .list ws => ItemsAgree vs ws
  | .tuple vs, .tuple ws => ItemsAgree vs ws
  | .dict es, .dict fs => EntriesAgree es fs
  | _, _ => False

def ItemsAgree : List (Value α) → List (Value α) → Prop
  | [], [] => True
  | v :: vs, w :: ws => AgreeOff v w ∧ ItemsAgree vs ws
  | _, _ => False

def EntriesAgree : List (Text × Value α) → List (Text × Value α) → Prop
  | [], [] => True
  | (key, v) :: es, (key', w) :: fs => key = key' ∧ (K key ∨ AgreeOff v w) ∧ EntriesAgree es fs
  | _, _ => False

end

def follow : List Step → Value α → Option (Value α)
  | [], v => some v
  | .key name :: path, .dict entries => (lookup name entries).bind (follow path)
  | .index i :: path, .list items => items[i]?.bind (follow path)
  | .index i :: path, .tuple items => items[i]?.bind (follow path)
  | _ :: _, _ => none

inductive Kind (α : Type) where
  | atom (a : α)
  | text
  | sequence (length : Nat)
  | dict (keys : List Text)

def kind : Value α → Kind α
  | .atom a => .atom a
  | .text _ => .text
  | .list items => .sequence items.length
  | .tuple items => .sequence items.length
  | .dict entries => .dict (entries.map Prod.fst)

def Through (path : List Step) : Prop := ∀ name, .key name ∈ path → K name

end Properties

variable {r : Redaction α} {K : Text → Prop}

theorem map_apply_agree {vs ws : List (Value α)} (h : ItemsAgree K vs ws)
    (hv : ∀ v ∈ vs, ∀ w, AgreeOff K v w → r.apply v = r.apply w) : vs.map r.apply = ws.map r.apply := by
  induction vs generalizing ws with
  | nil =>
    cases ws with
    | nil => rfl
    | cons w ws => exact h.elim
  | cons v vs ih =>
    cases ws with
    | nil => exact h.elim
    | cons w ws =>
      rw [List.map_cons, List.map_cons, hv v List.mem_cons_self w h.1,
        ih h.2 (fun u hu => hv u (List.mem_cons_of_mem v hu))]

def Redaction.entry (r : Redaction α) (e : Text × Value α) : Text × Value α :=
  (e.1, if isCredentialKey e.1 then .text r.mark else r.apply e.2)

theorem map_entry_agree (hK : ∀ key, K key → isCredentialKey key = true)
    {es fs : List (Text × Value α)} (h : EntriesAgree K es fs)
    (hv : ∀ e ∈ es, ∀ w, AgreeOff K e.2 w → r.apply e.2 = r.apply w) : es.map r.entry = fs.map r.entry := by
  induction es generalizing fs with
  | nil =>
    cases fs with
    | nil => rfl
    | cons f fs => exact h.elim
  | cons e es ih =>
    cases fs with
    | nil => exact h.elim
    | cons f fs =>
      obtain ⟨hkey, hvalue, hrest⟩ := h
      have hentry : r.entry e = r.entry f := by
        cases hvalue with
        | inl hk => rw [Redaction.entry, Redaction.entry, ← hkey, hK _ hk, if_pos rfl, if_pos rfl]
        | inr hw => rw [Redaction.entry, Redaction.entry, hkey, hv e List.mem_cons_self f.2 hw]
      rw [List.map_cons, List.map_cons, hentry, ih hrest (fun e he => hv e (List.mem_cons_of_mem _ he))]

theorem Redaction.dict_map (r : Redaction α) (entries : List (Text × Value α)) :
    r.apply (.dict entries) = .dict (entries.map r.entry) := r.dict_eq entries

theorem apply_agree (hK : ∀ key, K key → isCredentialKey key = true) {v w : Value α}
    (h : AgreeOff K v w) : r.apply v = r.apply w := by
  induction v using value_induction generalizing w with
  | atom a =>
    cases w with
    | atom b => exact congrArg (fun a => r.apply (.atom a)) h
    | _ => exact h.elim
  | text t =>
    cases w with
    | text u => exact congrArg (fun t => r.apply (.text t)) h
    | _ => exact h.elim
  | list items ih =>
    cases w with
    | list ws => rw [r.list_eq, r.list_eq, map_apply_agree h (fun v hv w => ih v hv)]
    | _ => exact h.elim
  | tuple items ih =>
    cases w with
    | tuple ws => rw [r.tuple_eq, r.tuple_eq, map_apply_agree h (fun v hv w => ih v hv)]
    | _ => exact h.elim
  | dict entries ih =>
    cases w with
    | dict fs => rw [r.dict_map, r.dict_map, map_entry_agree hK h (fun e he w => ih e he)]
    | _ => exact h.elim

theorem map_map_twice {β : Type} {f : β → β} {l : List β} (h : ∀ b ∈ l, f (f b) = f b) :
    (l.map f).map f = l.map f := by
  rw [List.map_map]
  exact List.map_congr_left h

theorem apply_twice (v : Value α) : r.apply (r.apply v) = r.apply v := by
  induction v using value_induction with
  | atom a => rw [r.atom_eq, r.atom_eq]
  | text t => rw [r.text_eq, r.text_eq, r.rewrite_twice]
  | list items ih => rw [r.list_eq, r.list_eq, map_map_twice ih]
  | tuple items ih =>
    rw [r.tuple_eq]
    cases r.sequence_cases with
    | inl h =>
      have hseq := r.tuple_eq (items.map r.apply)
      rw [map_map_twice ih] at hseq
      rw [h] at hseq ⊢
      exact hseq
    | inr h => rw [h, r.list_eq, map_map_twice ih]
  | dict entries ih =>
    have hentry : ∀ e ∈ entries, r.entry (r.entry e) = r.entry e := by
      intro e he
      cases hk : isCredentialKey e.1 with
      | true => simp [Redaction.entry, hk]
      | false => simp [Redaction.entry, hk, ih e he]
    rw [r.dict_map, r.dict_map, map_map_twice hentry]

theorem kind_apply (v : Value α) : kind (r.apply v) = kind v := by
  cases v with
  | atom a => rw [r.atom_eq]
  | text t => rw [r.text_eq]; rfl
  | list items => rw [r.list_eq, kind, kind, List.length_map]
  | tuple items =>
    rw [r.tuple_eq]
    cases r.sequence_cases with
    | inl h => rw [h, kind, kind, List.length_map]
    | inr h => rw [h, kind, kind, List.length_map]
  | dict entries =>
    rw [r.dict_map, kind, kind, List.map_map]
    rfl

theorem lookup_entry {name : Text} (hn : isCredentialKey name = false) (entries : List (Text × Value α)) :
    lookup name (entries.map r.entry) = (lookup name entries).map r.apply := by
  induction entries with
  | nil => rfl
  | cons e es ih =>
    by_cases he : e.1 = name
    · simp [lookup, Redaction.entry, he, hn]
    · simpa [lookup, Redaction.entry, he] using ih

theorem follow_apply (hK : ∀ key, K key → isCredentialKey key = false) {path : List Step}
    (hp : Through K path) (v : Value α) : (follow path (r.apply v)).map kind = (follow path v).map kind := by
  induction path generalizing v with
  | nil => exact congrArg some (kind_apply v)
  | cons s path ih =>
    have hi := ih (fun name hname => hp name (List.mem_cons_of_mem s hname))
    have hitems (items : List (Value α)) (i : Nat) :
        ((items.map r.apply)[i]?.bind (follow path)).map kind =
          (items[i]?.bind (follow path)).map kind := by
      rw [List.getElem?_map]
      cases items[i]? with
      | none => rfl
      | some v => exact hi v
    cases s with
    | index i =>
      cases v with
      | atom a => rw [r.atom_eq]
      | text t => rw [r.text_eq]; rfl
      | list items => rw [r.list_eq]; exact hitems items i
      | tuple items =>
        rw [r.tuple_eq]
        cases r.sequence_cases with
        | inl h => rw [h]; exact hitems items i
        | inr h => rw [h]; exact hitems items i
      | dict entries => rw [r.dict_map]; rfl
    | key name =>
      cases v with
      | atom a => rw [r.atom_eq]
      | text t => rw [r.text_eq]; rfl
      | list items => rw [r.list_eq]; rfl
      | tuple items =>
        rw [r.tuple_eq]
        cases r.sequence_cases with
        | inl h => rw [h]; rfl
        | inr h => rw [h]; rfl
      | dict entries =>
        have hname := hK name (hp name List.mem_cons_self)
        rw [r.dict_map, follow, follow, lookup_entry hname]
        cases lookup name entries with
        | none => rfl
        | some v => exact hi v

variable (S : Set Spelling)

/-- A key some spelling of a credential name gives. -/
def SecretKey (key : Text) : Prop := ∃ s ∈ S, s.key = key ∧ formsCredential s.name = true

def OtherKey (key : Text) : Prop := ∃ s ∈ S, s.key = key ∧ formsCredential s.name = false

/-- Each spelling gets the verdict of the same name in snake case. -/
def OneVerdict : Prop := ∀ s ∈ S, isCredentialKey s.key = isCredentialKey s.snake.key

structure Redaction.Guards (r : Redaction α) : Prop where
  hides : ∀ v w, AgreeOff (SecretKey S) v w → r.apply v = r.apply w
  keeps : ∀ path, Through (OtherKey S) path →
    ∀ v, (follow path (r.apply v)).map kind = (follow path v).map kind
  twice : ∀ v, r.apply (r.apply v) = r.apply v

/-- The splitter sees the words of a spelling as a credential just in case they form one. -/
def Seen : Prop := ∀ s ∈ S, formsCredential s.seen = formsCredential s.name

variable {S}

theorem oneVerdict_iff : OneVerdict S ↔ Seen S := by
  have hs (s : Spelling) : isCredentialKey s.key = isCredentialKey s.snake.key ↔
      formsCredential s.seen = formsCredential s.name := by
    rw [isCredentialKey_key, isCredentialKey_snake]
  exact forall_congr' (fun s => imp_congr_right (fun _ => hs s))

theorem hides_iff (r : Redaction α) : (∀ v w, AgreeOff (SecretKey S) v w → r.apply v = r.apply w) ↔
      ∀ s ∈ S, formsCredential s.name = true → formsCredential s.seen = true := by
  constructor
  · intro h s hs hname
    have hagree : AgreeOff (SecretKey S) (.dict [(s.key, (.list [] : Value α))])
        (.dict [(s.key, .list [.list []])]) := ⟨rfl, .inl ⟨s, hs, rfl, hname⟩, trivial⟩
    have heq := h _ _ hagree
    by_contra hseen
    rw [← isCredentialKey_key] at hseen
    simp [r.dict_map, Redaction.entry, hseen, r.list_eq] at heq
  · intro h v w hvw
    refine apply_agree (fun key hkey => ?_) hvw
    obtain ⟨s, hs, rfl, hname⟩ := hkey
    rw [isCredentialKey_key, h s hs hname]

theorem guards_of_seen (h : Seen S) (r : Redaction α) : r.Guards S where
  hides := (hides_iff r).mpr (fun s hs hname => (h s hs).trans hname)
  keeps := by
    intro path hp v
    refine follow_apply (fun key hkey => ?_) hp v
    obtain ⟨s, hs, rfl, hname⟩ := hkey
    rw [isCredentialKey_key, h s hs, hname]
  twice := apply_twice

/-- The redactions hold what they promise on a set of spellings just in case the splitter
sees the words of each as well as it has to. -/
theorem credentials_guarded_iff (word : Char → Bool) (S : Set Spelling) :
    (OneVerdict S ∧ (traceRedaction α word).Guards S ∧ (configRedaction α).Guards S) ↔
      ∀ s ∈ S, formsCredential s.seen = formsCredential s.name :=
  ⟨fun h => oneVerdict_iff.mp h.1,
    fun h => ⟨oneVerdict_iff.mpr h, guards_of_seen h _, guards_of_seen h _⟩⟩

def apiSecret : Spelling where
  style := .pascal
  words := [(⟨"api".toList, by decide, List.all_eq_true.mp (by decide)⟩, .upper),
    (⟨"secret".toList, by decide, List.all_eq_true.mp (by decide)⟩, .capital)]
  nonempty := by decide
  wellCased := by
    rintro w hw
    cases hw with
    | head => decide
    | tail _ hw =>
      cases hw with
      | head => decide
      | tail _ hw => cases hw

/-- The acronym and the word behind it are read as one word, and what is stored under the
key is written out as it is. -/
theorem apiSecret_exposed : apiSecret.key = "APISecret".toList ∧ isCredentialKey apiSecret.snake.key = true ∧
      isCredentialKey apiSecret.key = false ∧
      redactSensitiveConfig (.dict [(apiSecret.key, (.text "s3cr3t".toList : Value Unit))]) =
        .dict [(apiSecret.key, .text "s3cr3t".toList)] ∧
      redactTraceValue Char.isAlphanum
        (.dict [(apiSecret.key, (.text "s3cr3t".toList : Value Unit))]) [] =
        .dict [(apiSecret.key, .text "s3cr3t".toList)] := by
  refine ⟨by decide, by decide +kernel, by decide +kernel, by rfl, by rfl⟩

end Kirara.CredentialExposure
