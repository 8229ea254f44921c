import Kirara.ConfigValues
import Kirara.CredentialKeys
import Kirara.Dicts

namespace Kirara.SecretRestoration

open Kirara.Channels Kirara.ConfigValues Kirara.CredentialKeys Kirara.Rosters Kirara.Dicts

variable {α : Type}

mutual

def redactSensitiveConfig : Value α → Value α
  | .atom a => .atom a
  | .text t => .text t
  | .list items => .list (redactItems items)
  | .tuple items => .tuple (redactItems items)
  | .dict entries => .dict (redactEntries entries)

def redactItems : List (Value α) → List (Value α)
  | [] => []
  | v :: vs => redactSensitiveConfig v :: redactItems vs

def redactEntries : List (Text × Value α) → List (Text × Value α)
  | [] => []
  | (key, item) :: es =>
    (key, if isCredentialKey key then .text [] else redactSensitiveConfig item) :: redactEntries es

end

def isBlank : Value α → Bool
  | .text [] => true
  | _ => false

mutual

/-- `_restore_unchanged_secrets`. A key that is missing reads as no value. -/
def restoreUnchangedSecrets : Value α → Option (Value α) → Value α
  | .dict submitted, some (.dict current) => .dict (restoreEntries current submitted)
  | .dict submitted, _ => .dict submitted
  | .atom a, _ => .atom a
  | .text t, _ => .text t
  | .list items, _ => .list items
  | .tuple items, _ => .tuple items

def restoreEntries (current : List (Text × Value α)) :
    List (Text × Value α) → List (Text × Value α)
  | [] => []
  | (key, value) :: es =>
    let restored := match lookup key current with
      | some old =>
        if isCredentialKey key && isBlank value then old
        else restoreUnchangedSecrets value (some old)
      | none => restoreUnchangedSecrets value none
    (key, restored) :: restoreEntries current es

end

mutual

def KeysDistinct : Value α → Prop
  | .atom _ => True
  | .text _ => True
  | .list items => ItemsDistinct items
  | .tuple items => ItemsDistinct items
  | .dict entries => Distinct entries ∧ EntriesDistinct entries

def ItemsDistinct : List (Value α) → Prop
  | [] => True
  | v :: vs => KeysDistinct v ∧ ItemsDistinct vs

def EntriesDistinct : List (Text × Value α) → Prop
  | [] => True
  | (_, v) :: es => KeysDistinct v ∧ EntriesDistinct es

end

/-- A configuration value as dicts can hold it. -/
structure Config (α : Type) where
  value : Value α
  keysDistinct : KeysDistinct value

mutual

/-- Nothing is stored under a credential key. -/
def Plain : Value α → Prop
  | .atom _ => True
  | .text _ => True
  | .list items => ItemsPlain items
  | .tuple items => ItemsPlain items
  | .dict entries => EntriesPlain entries

def ItemsPlain : List (Value α) → Prop
  | [] => True
  | v :: vs => Plain v ∧ ItemsPlain vs

def EntriesPlain : List (Text × Value α) → Prop
  | [] => True
  | (key, v) :: es => isCredentialKey key = false ∧ Plain v ∧ EntriesPlain es

end

inductive Step where
  | key (name : Text)
  | index (i : Nat)

def modify (f : Value α → Value α) : List Step → Value α → Value α
  | [], v => f v
  | .key key :: path, .dict entries =>
    .dict (entries.map (fun e => if e.1 = key then (e.1, modify f path e.2) else e))
  | .index i :: path, .list items => .list (items.modify i (modify f path))
  | .index i :: path, .tuple items => .tuple (items.modify i (modify f path))
  | _ :: _, v => v

inductive Change (α : Type) where
  | put (u : Value α)
  | setKey (key : Text) (u : Value α)
  | removeKey (key : Text)
  | insert (i : Nat) (u : Value α)
  | removeAt (i : Nat)

def setEntry (key : Text) (u : Value α) (entries : List (Text × Value α)) :
    List (Text × Value α) :=
  if key ∈ entries.map Prod.fst then replace key u entries else entries ++ [(key, u)]

def Change.apply : Change α → Value α → Value α
  | .put u, _ => u
  | .setKey key u, .dict entries => .dict (setEntry key u entries)
  | .removeKey key, .dict entries => .dict (remove key entries)
  | .insert i u, .list items => .list (items.take i ++ u :: items.drop i)
  | .removeAt i, .list items => .list (items.take i ++ items.drop (i + 1))
  | _, v => v

def Step.Plain : Step → Prop
  | .key name => isCredentialKey name = false
  | .index _ => True

def Change.Plain : Change α → Prop
  | .put u => SecretRestoration.Plain u
  | .setKey key u => isCredentialKey key = false ∧ SecretRestoration.Plain u
  | .removeKey key => isCredentialKey key = false
  | .insert _ u => SecretRestoration.Plain u
  | .removeAt _ => True

structure Edit (α : Type) where
  path : List Step
  change : Change α
  plainPath : ∀ s ∈ path, s.Plain
  plainChange : change.Plain

def Edit.apply (e : Edit α) : Value α → Value α := modify e.change.apply e.path

def applyEdits (edits : List (Edit α)) (v : Value α) : Value α := edits.foldl (fun v e => e.apply v) v

mutual

/-- No list or tuple under plain keys holds a credential that is not blank. -/
def SequencesClean : Value α → Prop
  | .atom _ => True
  | .text _ => True
  | .list items => redactItems items = items
  | .tuple items => redactItems items = items
  | .dict entries => EntriesClean entries

def EntriesClean : List (Text × Value α) → Prop
  | [] => True
  | (key, v) :: es => (isCredentialKey key = false → SequencesClean v) ∧ EntriesClean es

end

theorem redactItems_eq (items : List (Value α)) : redactItems items = items.map redactSensitiveConfig := by
  induction items with
  | nil => rfl
  | cons v vs ih => rw [redactItems, ih, List.map_cons]

def redactEntry (e : Text × Value α) : Text × Value α :=
  (e.1, if isCredentialKey e.1 then .text [] else redactSensitiveConfig e.2)

theorem redactEntries_eq (entries : List (Text × Value α)) :
    redactEntries entries = entries.map redactEntry := by
  induction entries with
  | nil => rfl
  | cons e es ih => rw [redactEntries, ih, List.map_cons, redactEntry]

theorem itemsPlain_iff {items : List (Value α)} : ItemsPlain items ↔ ∀ v ∈ items, Plain v := by
  induction items with
  | nil => simp [ItemsPlain]
  | cons v vs ih => simp [ItemsPlain, ih]

variable {entries : List (Text × Value α)}

theorem entriesPlain_iff : EntriesPlain entries ↔ ∀ e ∈ entries, isCredentialKey e.1 = false ∧ Plain e.2 := by
  induction entries with
  | nil => simp [EntriesPlain]
  | cons e es ih => simp [EntriesPlain, ih, and_assoc]

theorem entriesDistinct_iff : EntriesDistinct entries ↔ ∀ e ∈ entries, KeysDistinct e.2 := by
  induction entries with
  | nil => simp [EntriesDistinct]
  | cons e es ih => simp [EntriesDistinct, ih]

theorem entriesClean_iff : EntriesClean entries ↔
      ∀ e ∈ entries, isCredentialKey e.1 = false → SequencesClean e.2 := by
  induction entries with
  | nil => simp [EntriesClean]
  | cons e es ih => simp [EntriesClean, ih]

variable {v : Value α}

theorem redact_plain (h : Plain v) : redactSensitiveConfig v = v := by
  induction v using value_induction with
  | atom a => rfl
  | text t => rfl
  | list items ih =>
    have hall := itemsPlain_iff.mp h
    rw [redactSensitiveConfig, redactItems_eq, List.map_congr_left (fun v hv => ih v hv (hall v hv)),
      List.map_id']
  | tuple items ih =>
    have hall := itemsPlain_iff.mp h
    rw [redactSensitiveConfig, redactItems_eq, List.map_congr_left (fun v hv => ih v hv (hall v hv)),
      List.map_id']
  | dict entries ih =>
    have hall := entriesPlain_iff.mp h
    have hentry : ∀ e ∈ entries, redactEntry e = e := by
      intro e he
      rw [redactEntry, (hall e he).1, if_neg Bool.false_ne_true, ih e he (hall e he).2]
    rw [redactSensitiveConfig, redactEntries_eq, List.map_congr_left hentry, List.map_id']

theorem map_modify_of_comm {f g : Value α → Value α} {r : Value α → Value α}
    (h : ∀ v, r (f v) = g (r v)) (items : List (Value α)) (i : Nat) :
    (items.modify i f).map r = (items.map r).modify i g := by
  induction items generalizing i with
  | nil => simp
  | cons v vs ih =>
    cases i with
    | zero => simp [h]
    | succ i => simp [ih]

variable {f : Value α → Value α}

theorem redact_modify (hf : ∀ v, redactSensitiveConfig (f v) = f (redactSensitiveConfig v)) {path : List Step}
    (hp : ∀ s ∈ path, s.Plain) (v : Value α) :
    redactSensitiveConfig (modify f path v) = modify f path (redactSensitiveConfig v) := by
  induction path generalizing v with
  | nil => exact hf v
  | cons s path ih =>
    have hi := ih (fun s hs => hp s (List.mem_cons_of_mem _ hs))
    cases s with
    | index i =>
      cases v with
      | list items =>
        simp only [modify, redactSensitiveConfig, redactItems_eq, map_modify_of_comm hi]
      | tuple items =>
        simp only [modify, redactSensitiveConfig, redactItems_eq, map_modify_of_comm hi]
      | _ => rfl
    | key name =>
      cases v with
      | dict entries =>
        have hname : isCredentialKey name = false := hp (.key name) List.mem_cons_self
        simp only [modify, redactSensitiveConfig, redactEntries_eq, List.map_map]
        congr 1
        apply List.map_congr_left
        intro e _
        by_cases he : e.1 = name
        · simp [redactEntry, he, hname, hi]
        · simp [redactEntry, he]
      | _ => rfl

theorem redact_change {c : Change α} (hc : c.Plain) (v : Value α) :
    redactSensitiveConfig (c.apply v) = c.apply (redactSensitiveConfig v) := by
  cases c with
  | put u => exact redact_plain hc
  | setKey key u =>
    have hu : redactEntry (key, u) = (key, u) := by
      simp [redactEntry, hc.1, redact_plain hc.2]
    cases v with
    | dict entries =>
      simp only [Change.apply, redactSensitiveConfig, redactEntries_eq, setEntry]
      have hkeys : (entries.map redactEntry).map Prod.fst = entries.map Prod.fst := by
        rw [List.map_map]
        rfl
      rw [hkeys]
      split
      · simp only [replace, List.map_map]
        congr 1
        apply List.map_congr_left
        intro e _
        by_cases he : e.1 = key
        · simp [he, redactEntry, hc.1, redact_plain hc.2]
        · simp [he, redactEntry]
      · rw [List.map_append, List.map_singleton, hu]
    | _ => rfl
  | removeKey key =>
    cases v with
    | dict entries =>
      simp only [Change.apply, redactSensitiveConfig, redactEntries_eq, remove, List.filter_map]
      rfl
    | _ => rfl
  | insert i u =>
    cases v with
    | list items =>
      simp only [Change.apply, redactSensitiveConfig, redactItems_eq, List.map_append,
        List.map_cons, List.map_take, List.map_drop, redact_plain (v := u) hc]
    | _ => rfl
  | removeAt i =>
    cases v with
    | list items =>
      simp only [Change.apply, redactSensitiveConfig, redactItems_eq, List.map_append,
        List.map_take, List.map_drop]
    | _ => rfl

theorem redact_applyEdits (edits : List (Edit α)) (v : Value α) :
    redactSensitiveConfig (applyEdits edits v) = applyEdits edits (redactSensitiveConfig v) := by
  induction edits generalizing v with
  | nil => rfl
  | cons e es ih =>
    have he := redact_modify (redact_change e.plainChange) e.plainPath v
    rw [applyEdits, List.foldl_cons, ← applyEdits, ih, Edit.apply, he]
    rfl

def dictEntries : Option (Value α) → List (Text × Value α)
  | some (.dict entries) => entries
  | _ => []

mutual

/-- The credentials plain keys lead to are those the current value has there. -/
def Inherits : Value α → Option (Value α) → Prop
  | .dict entries, current => EntriesInherit (dictEntries current) entries
  | .atom _, _ => True
  | .text _, _ => True
  | .list _, _ => True
  | .tuple _, _ => True

def EntriesInherit (current : List (Text × Value α)) : List (Text × Value α) → Prop
  | [] => True
  | (key, v) :: es =>
    (if isCredentialKey key = true then lookup key current = some v
      else Inherits v (lookup key current)) ∧ EntriesInherit current es

end

def EntryInherits (current : List (Text × Value α)) (e : Text × Value α) : Prop :=
  if isCredentialKey e.1 = true then lookup e.1 current = some e.2
  else Inherits e.2 (lookup e.1 current)

theorem entriesInherit_iff {current entries : List (Text × Value α)} :
    EntriesInherit current entries ↔ ∀ e ∈ entries, EntryInherits current e := by
  induction entries with
  | nil => simp [EntriesInherit]
  | cons e es ih => simp [EntriesInherit, EntryInherits, ih]

theorem inherits_plain (h : Plain v) (current : Option (Value α)) : Inherits v current := by
  induction v using value_induction generalizing current with
  | dict entries ih =>
    apply entriesInherit_iff.mpr
    intro e he
    obtain ⟨hkey, hv⟩ := entriesPlain_iff.mp h e he
    rw [EntryInherits, hkey, if_neg Bool.false_ne_true]
    exact ih e he hv _
  | _ => trivial

theorem lookup_of_mem (h : Distinct entries) {e : Text × Value α}
    (he : e ∈ entries) : lookup e.1 entries = some e.2 :=
  (Dict.get_eq_some_iff (d := ⟨entries, h⟩)).mpr he

theorem inherits_self (h : KeysDistinct v) : Inherits v (some v) := by
  induction v using value_induction with
  | dict entries ih =>
    apply entriesInherit_iff.mpr
    intro e he
    have hl := lookup_of_mem h.1 he
    unfold EntryInherits dictEntries
    split
    · exact hl
    · rw [hl]
      exact ih e he (entriesDistinct_iff.mp h.2 e he)
  | _ => trivial

variable {current : Option (Value α)}

theorem inherits_modify (hf : ∀ v current, Inherits v current → Inherits (f v) current) {path : List Step}
    (hp : ∀ s ∈ path, s.Plain) (h : Inherits v current) : Inherits (modify f path v) current := by
  induction path generalizing v current with
  | nil => exact hf v current h
  | cons s path ih =>
    have hi {v : Value α} {current : Option (Value α)} (h : Inherits v current) :=
      ih (fun s hs => hp s (List.mem_cons_of_mem _ hs)) h
    cases s with
    | index i =>
      cases v with
      | dict entries => exact h
      | _ => trivial
    | key name =>
      cases v with
      | dict entries =>
        have hname : isCredentialKey name = false := hp (.key name) List.mem_cons_self
        apply entriesInherit_iff.mpr
        intro e he
        obtain ⟨d, hd, rfl⟩ := List.mem_map.mp he
        have hentry := entriesInherit_iff.mp h d hd
        by_cases hk : d.1 = name
        · rw [if_pos hk]
          rw [EntryInherits, hk, hname, if_neg Bool.false_ne_true] at hentry ⊢
          exact hi hentry
        · rwa [if_neg hk]
      | _ => trivial

theorem inherits_change {c : Change α} (hc : c.Plain) (v : Value α) (current : Option (Value α))
    (h : Inherits v current) : Inherits (c.apply v) current := by
  have hput {key : Text} {u : Value α} (hk : isCredentialKey key = false) (hu : Plain u) :
      EntryInherits (dictEntries current) (key, u) := by
    rw [EntryInherits, hk, if_neg Bool.false_ne_true]
    exact inherits_plain hu _
  cases c with
  | put u => exact inherits_plain hc current
  | setKey key u =>
    cases v with
    | dict entries =>
      have hall := entriesInherit_iff.mp h
      apply entriesInherit_iff.mpr
      intro e he
      unfold setEntry at he
      split at he
      · cases mem_replace he with
        | inl he => exact he ▸ hput hc.1 hc.2
        | inr he => exact hall e he.1
      · cases List.mem_append.mp he with
        | inl he => exact hall e he
        | inr he => exact List.mem_singleton.mp he ▸ hput hc.1 hc.2
    | _ => exact h
  | removeKey key =>
    cases v with
    | dict entries =>
      have hall := entriesInherit_iff.mp h
      exact entriesInherit_iff.mpr (fun e he => hall e (mem_remove.mp he).1)
    | _ => exact h
  | insert i u => cases v <;> exact h
  | removeAt i => cases v <;> exact h

theorem inherits_applyEdits (h : Inherits v current)
    (edits : List (Edit α)) : Inherits (applyEdits edits v) current := by
  induction edits generalizing v with
  | nil => exact h
  | cons e es ih => exact ih (inherits_modify (inherits_change e.plainChange) e.plainPath h)

theorem restore_none (v : Value α) : restoreUnchangedSecrets v none = v := by
  cases v <;> rfl

def restoreEntry (current : List (Text × Value α)) (e : Text × Value α) : Text × Value α :=
  (e.1, match lookup e.1 current with
    | some old =>
      if isCredentialKey e.1 && isBlank e.2 then old else restoreUnchangedSecrets e.2 (some old)
    | none => restoreUnchangedSecrets e.2 none)

theorem restoreEntries_eq (current entries : List (Text × Value α)) :
    restoreEntries current entries = entries.map (restoreEntry current) := by
  induction entries with
  | nil => rfl
  | cons e es ih =>
    rw [restoreEntries, ih, List.map_cons]
    rfl

theorem restore_dict (entries : List (Text × Value α)) (current : Option (Value α)) :
    restoreUnchangedSecrets (.dict entries) current =
      .dict (entries.map (restoreEntry (dictEntries current))) := by
  have hnone : entries.map (restoreEntry []) = entries := by
    conv_rhs => rw [← List.map_id entries]
    apply List.map_congr_left
    intro e _
    rw [restoreEntry, show lookup e.1 ([] : List (Text × Value α)) = none from rfl]
    dsimp only
    rw [restore_none, id_eq]
  cases current with
  | none => exact congrArg Value.dict hnone.symm
  | some c =>
    cases c with
    | dict fields => rw [restoreUnchangedSecrets, restoreEntries_eq, dictEntries]
    | _ => exact congrArg Value.dict hnone.symm

theorem map_eq_self_iff {β : Type} {f : β → β} {l : List β} : l.map f = l ↔ ∀ b ∈ l, f b = b := by
  induction l with
  | nil => simp
  | cons b l ih => simp [ih]

theorem restoreEntry_redactEntry {current : List (Text × Value α)} {e : Text × Value α}
    (h : EntryInherits current e) : restoreEntry current (redactEntry e) = e ↔
      (isCredentialKey e.1 = false →
        restoreUnchangedSecrets (redactSensitiveConfig e.2) (lookup e.1 current) = e.2) := by
  unfold EntryInherits at h
  cases hk : isCredentialKey e.1 with
  | true =>
    rw [hk, if_pos rfl] at h
    simp [restoreEntry, redactEntry, hk, h, isBlank]
  | false =>
    cases hl : lookup e.1 current with
    | none => simp [restoreEntry, redactEntry, hk, hl, Prod.ext_iff]
    | some old => simp [restoreEntry, redactEntry, hk, hl, Prod.ext_iff]

theorem restore_redact_iff (h : Inherits v current) :
    restoreUnchangedSecrets (redactSensitiveConfig v) current = v ↔ SequencesClean v := by
  induction v using value_induction generalizing current with
  | atom a => exact ⟨fun _ => trivial, fun _ => rfl⟩
  | text t => exact ⟨fun _ => trivial, fun _ => rfl⟩
  | list items ih =>
    rw [redactSensitiveConfig, restoreUnchangedSecrets, Value.list.injEq]
    rfl
  | tuple items ih =>
    rw [redactSensitiveConfig, restoreUnchangedSecrets, Value.tuple.injEq]
    rfl
  | dict entries ih =>
    have hall := entriesInherit_iff.mp h
    rw [redactSensitiveConfig, redactEntries_eq, restore_dict, List.map_map, Value.dict.injEq,
      map_eq_self_iff, SequencesClean, entriesClean_iff]
    refine forall₂_congr (fun e he => ?_)
    rw [Function.comp_apply, restoreEntry_redactEntry (hall e he)]
    refine imp_congr_right (fun hk => ?_)
    have hentry := hall e he
    rw [EntryInherits, hk, if_neg Bool.false_ne_true] at hentry
    exact ih e he hentry

/-- Restoring the edited redacted form gives the edited configuration exactly where no list or
tuple holds a credential. -/
theorem restore_edited_iff (c : Config α) (edits : List (Edit α)) :
    restoreUnchangedSecrets (applyEdits edits (redactSensitiveConfig c.value)) (some c.value) =
      applyEdits edits c.value ↔ SequencesClean (applyEdits edits c.value) := by
  rw [← redact_applyEdits]
  exact restore_redact_iff (inherits_applyEdits (inherits_self c.keysDistinct) edits)

def accounts : Config Nat where
  value := .dict [("accounts".toList, .list [.dict [("api_key".toList, .text "sk-1".toList)]])]
  keysDistinct := by
    refine ⟨List.nodup_singleton _, ⟨⟨List.nodup_singleton _, trivial, trivial⟩, trivial⟩, trivial⟩

theorem accounts_lose_key :
    restoreUnchangedSecrets (redactSensitiveConfig accounts.value) (some accounts.value) =
        .dict [("accounts".toList, .list [.dict [("api_key".toList, .text [])]])] ∧
      restoreUnchangedSecrets (redactSensitiveConfig accounts.value) (some accounts.value) ≠
        accounts.value := by
  have hlost : restoreUnchangedSecrets (redactSensitiveConfig accounts.value) (some accounts.value) =
      .dict [("accounts".toList, .list [.dict [("api_key".toList, .text [])]])] := by
    rfl
  refine ⟨hlost, fun h => ?_⟩
  rw [hlost] at h
  simp [accounts] at h

end Kirara.SecretRestoration
