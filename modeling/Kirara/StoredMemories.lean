import Kirara.Dicts
import Kirara.MemoryFiles
import Kirara.Schedules
import Kirara.StableSorts

namespace Kirara.StoredMemories

open Kirara.Channels Kirara.Dicts Kirara.MemoryFiles Kirara.Schedules Kirara.StableSorts

structure MemoryEntry (τ : Type) where
  sender : ChatSender
  content : Text
  timestamp : τ
  mediaIds : List Text
  deriving DecidableEq

/-- A scope gives a key and tells whose entries a query sees. -/
structure Scope where
  getScopeKey : ChatSender → Text
  isInScope : ChatSender → ChatSender → Bool

def builtin (scope : MemoryScope) : Scope := ⟨MemoryFiles.getScopeKey scope, MemoryFiles.isInScope scope⟩

/-- The cache of the manager, and what was last saved for a key. -/
structure Manager (τ : Type) where
  memories : Dict Text (List (MemoryEntry τ))
  saved : Text → List (MemoryEntry τ)

/-- The media whose references cannot be registered, or not removed. -/
structure World where
  registerFails : Text → Bool
  removeFails : Text → Bool

inductive Reply (τ : Type) where
  | raised
  | done
  | found (entries : List (MemoryEntry τ))

variable {τ : Type}

/-- `entries[-count:]`. -/
def lastEntries (count : Nat) (entries : List (MemoryEntry τ)) : List (MemoryEntry τ) :=
  if count = 0 then entries else entries.drop (entries.length - count)

/-- `entries[:-count]`. -/
def firstEntries (count : Nat) (entries : List (MemoryEntry τ)) : List (MemoryEntry τ) :=
  if count = 0 then [] else entries.take (entries.length - count)

/-- `_scope_key`. -/
def Scope.key (scope : Scope) (sender : ChatSender) (extraIdentifier : Option Text) : Text :=
  prefixed extraIdentifier (scope.getScopeKey sender)

def Manager.entries (σ : Manager τ) (key : Text) : List (MemoryEntry τ) :=
  (σ.memories.get key).getD (σ.saved key)

def Manager.keep (σ : Manager τ) (key : Text) (entries : List (MemoryEntry τ)) : Manager τ :=
  { σ with memories := σ.memories.set key entries }

def Manager.save (σ : Manager τ) (key : Text) (entries : List (MemoryEntry τ)) : Manager τ :=
  { σ.keep key entries with saved := Function.update σ.saved key entries }

/-- The media that `_remove_media_references` removes. -/
def removedMedia (removed unremoved : List (MemoryEntry τ)) : List Text :=
  (removed.flatMap MemoryEntry.mediaIds).filter (fun id => id ∉ unremoved.flatMap MemoryEntry.mediaIds)

def store (maxEntries : Nat) (w : World) (scope : Scope) (entry : MemoryEntry τ) (extraIdentifier : Option Text)
    (σ : Manager τ) : Reply τ × Manager τ :=
  let key := scope.key entry.sender extraIdentifier
  let entries := σ.entries key ++ [entry]
  if entry.mediaIds.any w.registerFails then (.raised, σ.keep key entries)
  else if maxEntries < entries.length then
    let unremoved := lastEntries maxEntries entries
    if (removedMedia (firstEntries maxEntries entries) unremoved).any w.removeFails then
      (.raised, σ.keep key entries)
    else (.done, σ.save key unremoved)
  else (.done, σ.save key entries)

def clearMemory (w : World) (scope : Scope) (sender : ChatSender) (extraIdentifier : Option Text)
    (σ : Manager τ) : Reply τ × Manager τ :=
  let key := scope.key sender extraIdentifier
  match σ.memories.get key with
  | none => (.done, σ)
  | some entries =>
    if (removedMedia entries []).any w.removeFails then (.raised, σ) else (.done, σ.save key [])

/-- `shutdown`: what is in the cache is saved. -/
def saveAll (memories : Dict Text (List (MemoryEntry τ))) (saved : Text → List (MemoryEntry τ)) :
    Text → List (MemoryEntry τ) :=
  memories.entries.foldl (fun saved e => Function.update saved e.1 e.2) saved

def restart (σ : Manager τ) : Manager τ := ⟨.empty, saveAll σ.memories σ.saved⟩

variable [LinearOrder τ]

def query (scope : Scope) (sender : ChatSender) (extraIdentifier : Option Text) (σ : Manager τ) :
    Reply τ × Manager τ :=
  let key := scope.key sender extraIdentifier
  let relevant := (σ.entries key).filter (fun entry => scope.isInScope entry.sender sender)
  (.found (sortBy MemoryEntry.timestamp relevant), σ.keep key (σ.entries key))

inductive Operation (τ : Type) where
  | store (world : World) (scope : Scope) (entry : MemoryEntry τ) (extraIdentifier : Option Text)
  | query (scope : Scope) (sender : ChatSender) (extraIdentifier : Option Text)
  | clear (world : World) (scope : Scope) (sender : ChatSender) (extraIdentifier : Option Text)
  | restart

def perform (maxEntries : Nat) (operation : Operation τ) (σ : Manager τ) : Reply τ × Manager τ :=
  match operation with
  | .store w scope entry extraIdentifier => store maxEntries w scope entry extraIdentifier σ
  | .query scope sender extraIdentifier => query scope sender extraIdentifier σ
  | .clear w scope sender extraIdentifier => clearMemory w scope sender extraIdentifier σ
  | .restart => (.done, restart σ)

abbrev Memories (τ : Type) := Text → List (MemoryEntry τ)

def Memories.after (maxEntries : Nat) (m : Memories τ) (operation : Operation τ) (reply : Reply τ) : Memories τ :=
  match operation, reply with
  | _, .raised => m
  | .store _ scope entry extraIdentifier, _ =>
    let key := scope.key entry.sender extraIdentifier
    Function.update m key ((m key ++ [entry]).drop ((m key).length + 1 - maxEntries))
  | .clear _ scope sender extraIdentifier, _ => Function.update m (scope.key sender extraIdentifier) []
  | _, _ => m

/-- A query finds the entries of its scope in the order of their times. -/
def Answers (m : Memories τ) (operation : Operation τ) (reply : Reply τ) : Prop :=
  match operation with
  | .query scope sender extraIdentifier => ∃ entries, reply = .found entries ∧
    StablySorted MemoryEntry.timestamp
      ((m (scope.key sender extraIdentifier)).filter (fun entry => scope.isInScope entry.sender sender)) entries
  | _ => True

structure Pair (τ : Type) where
  manager : Manager τ
  map : Memories τ

def next (maxEntries : Nat) (p : Pair τ) (operation : Operation τ) : Option (Pair τ) :=
  let (reply, manager) := perform maxEntries operation p.manager
  some ⟨manager, p.map.after maxEntries operation reply⟩

def Keeps (maxEntries : Nat) (p : Pair τ) (operation : Operation τ) : Prop :=
  Answers p.map operation (perform maxEntries operation p.manager).1 ∧
    (perform maxEntries operation p.manager).2.entries =
      p.map.after maxEntries operation (perform maxEntries operation p.manager).1

/-- No reference of a stored entry fails, and a scope that is cleared is in the cache or empty. -/
def Careful (maxEntries : Nat) (p : Pair τ) (operation : Operation τ) : Prop :=
  match operation with
  | .store w scope entry extraIdentifier =>
    let entries := p.manager.entries (scope.key entry.sender extraIdentifier) ++ [entry]
    (∀ id ∈ entry.mediaIds, w.registerFails id = false) ∧
      (maxEntries < entries.length →
        ∀ id ∈ removedMedia (firstEntries maxEntries entries) (lastEntries maxEntries entries), w.removeFails id = false)
  | .clear _ scope sender extraIdentifier =>
    (p.manager.memories.get (scope.key sender extraIdentifier)).isSome ∨
      p.manager.saved (scope.key sender extraIdentifier) = []
  | _ => True

def started (saved : Memories τ) : Pair τ := ⟨⟨.empty, saved⟩, saved⟩

section Entries

omit [LinearOrder τ]

variable {σ : Manager τ} {key : Text} {entries : List (MemoryEntry τ)}

@[simp] theorem entries_keep : (σ.keep key entries).entries = Function.update σ.entries key entries := by
  funext k
  unfold Manager.entries Manager.keep
  by_cases h : k = key
  · simp [h]
  · simp [h]

@[simp] theorem entries_save : (σ.save key entries).entries = Function.update σ.entries key entries := by
  funext k
  unfold Manager.entries Manager.save Manager.keep
  by_cases h : k = key
  · simp [h]
  · simp [h]

theorem saveAll_apply (memories : Dict Text (List (MemoryEntry τ))) (saved : Memories τ) :
    saveAll memories saved key = (memories.get key).getD (saved key) :=
  Dict.foldl_update_apply memories saved

@[simp] theorem entries_restart : (restart σ).entries = σ.entries := by
  funext k
  exact saveAll_apply σ.memories σ.saved

end Entries

variable {maxEntries : Nat} {p : Pair τ} {operation : Operation τ}

omit [LinearOrder τ] in
theorem lastEntries_eq (hpos : 0 < maxEntries) (entries : List (MemoryEntry τ)) :
    lastEntries maxEntries entries = entries.drop (entries.length - maxEntries) :=
  if_neg (Nat.ne_of_gt hpos)

omit [LinearOrder τ] in
theorem update_append_ne (m : Memories τ) (key : Text) (entry : MemoryEntry τ) :
    Function.update m key (m key ++ [entry]) ≠ m := by
  intro h
  have hkey := congrFun h key
  rw [Function.update_self] at hkey
  simp at hkey

theorem keeps_store_iff (hpos : 0 < maxEntries) (hp : p.manager.entries = p.map) (w : World) (scope : Scope)
    (entry : MemoryEntry τ) (extra : Option Text) :
    Keeps maxEntries p (.store w scope entry extra) ↔ Careful maxEntries p (.store w scope entry extra) := by
  have hraised : ∀ {key : Text}, p.map ≠ Function.update p.map key (p.map key ++ [entry]) :=
    fun h => update_append_ne _ _ _ h.symm
  unfold Keeps Careful Answers Memories.after perform store
  dsimp only
  rw [hp]
  split
  · next hany =>
    obtain ⟨id, hid, hfails⟩ := List.any_eq_true.mp hany
    simp only [entries_keep, hp, true_and]
    refine iff_of_false (fun h => hraised h.symm) (fun h => ?_)
    rw [h.1 id hid] at hfails
    cases hfails
  · next hnone =>
    have hregisters : ∀ id ∈ entry.mediaIds, w.registerFails id = false := by simpa using hnone
    split
    · next hlong =>
      split
      · next hany =>
        obtain ⟨id, hid, hfails⟩ := List.any_eq_true.mp hany
        simp only [entries_keep, hp, true_and]
        refine iff_of_false (fun h => hraised h.symm) (fun h => ?_)
        rw [h.2 hlong id hid] at hfails
        cases hfails
      · next hremoves =>
        refine iff_of_true ⟨trivial, ?_⟩ ⟨hregisters, fun _ => by simpa using hremoves⟩
        rw [entries_save, hp, lastEntries_eq hpos]
        simp
    · next hshort =>
      refine iff_of_true ⟨trivial, ?_⟩ ⟨hregisters, fun hlong => absurd hlong hshort⟩
      have hdrop : (p.map (scope.key entry.sender extra)).length + 1 - maxEntries = 0 := by
        simp at hshort
        omega
      rw [entries_save, hp]
      dsimp only
      rw [hdrop, List.drop_zero]

theorem keeps_clear_iff (hp : p.manager.entries = p.map) (w : World) (scope : Scope) (sender : ChatSender)
    (extra : Option Text) :
    Keeps maxEntries p (.clear w scope sender extra) ↔ Careful maxEntries p (.clear w scope sender extra) := by
  have hkey := congrFun hp (scope.key sender extra)
  unfold Keeps Careful Answers Memories.after perform clearMemory
  dsimp only
  rw [true_and]
  unfold Manager.entries at hkey
  cases hcached : p.manager.memories.get (scope.key sender extra) with
  | none =>
    rw [hcached, Option.getD_none] at hkey
    simp only [hp, hkey, Option.isSome_none, Bool.false_eq_true, false_or]
    constructor
    · intro h
      rw [h, Function.update_self]
    · intro h
      rw [← h, Function.update_eq_self]
  | some entries =>
    refine iff_of_true ?_ (.inl rfl)
    dsimp only
    split
    · exact hp
    · dsimp only
      rw [entries_save, hp]

theorem keeps_query (hp : p.manager.entries = p.map) (scope : Scope) (sender : ChatSender) (extra : Option Text) :
    Keeps maxEntries p (.query scope sender extra) := by
  unfold Keeps Answers Memories.after perform query
  dsimp only
  rw [entries_keep, Function.update_eq_self, hp]
  exact ⟨⟨_, rfl, stablySorted_sortBy _ _⟩, rfl⟩

theorem keeps_iff_careful (hpos : 0 < maxEntries) (hp : p.manager.entries = p.map) (operation : Operation τ) :
    Keeps maxEntries p operation ↔ Careful maxEntries p operation := by
  cases operation with
  | store w scope entry extra => exact keeps_store_iff hpos hp w scope entry extra
  | query scope sender extra => exact iff_of_true (keeps_query hp scope sender extra) trivial
  | clear w scope sender extra => exact keeps_clear_iff hp w scope sender extra
  | restart => exact iff_of_true ⟨trivial, entries_restart.trans hp⟩ trivial

theorem entries_next {q : Pair τ} (hk : Keeps maxEntries p operation) (hq : next maxEntries p operation = some q) :
    q.manager.entries = q.map := by
  cases hq
  exact hk.2

/-- From any saved entries, the manager behaves as the map of the last entries all along a run
just in case no reference of a stored entry fails and every cleared scope is in the cache or
empty. -/
theorem behaves_as_map_iff (maxEntries : Nat) (hpos : 0 < maxEntries) (saved : Memories τ)
    (operations : List (Operation τ)) : Along (next maxEntries) (Keeps maxEntries) (started saved) operations ↔
      Along (next maxEntries) (Careful maxEntries) (started saved) operations := by
  have hstart : (started saved).manager.entries = (started saved).map := rfl
  constructor
  · apply along_of_invariant (next maxEntries) (I := fun p => p.manager.entries = p.map) _ _ hstart
    · intro p operation hp hk
      exact (keeps_iff_careful hpos hp operation).mp hk
    · intro p operation q hk _ hq
      exact entries_next hk hq
  · apply along_of_invariant (next maxEntries) (I := fun p => p.manager.entries = p.map) _ _ hstart
    · intro p operation hp hc
      exact (keeps_iff_careful hpos hp operation).mpr hc
    · intro p operation q hc hp hq
      exact entries_next ((keeps_iff_careful hpos hp operation).mpr hc) hq

def ann : ChatSender := ⟨"ann".toList, .c2c, none⟩

def remark : MemoryEntry Nat := ⟨ann, "hello".toList, 1, []⟩

def calm : World := ⟨fun _ => false, fun _ => false⟩

def clearedAfterRestart : List (Operation Nat) :=
  [.store calm (builtin .member) remark none, .restart, .clear calm (builtin .member) ann none]

theorem behaves_clearedAfterRestart : Along (next 2) (Keeps 2) (started (fun _ => [])) clearedAfterRestart ↔
      Along (next 2) (Careful 2) (started (fun _ => [])) clearedAfterRestart :=
  behaves_as_map_iff 2 (by decide) (fun _ => []) clearedAfterRestart

/-- The remark is found after it was cleared. -/
theorem cleared_remark_found : ∃ p, exec (next 2) (started (fun _ => [])) clearedAfterRestart = some p ∧
    p.map ((builtin .member).key ann none) = [] ∧
    p.manager.entries ((builtin .member).key ann none) = [remark] ∧
    ¬ Along (next 2) (Keeps 2) (started (fun _ => [])) clearedAfterRestart := by
  have hfound : ∃ p, exec (next 2) (started (fun _ => [])) clearedAfterRestart = some p ∧
      p.map ((builtin .member).key ann none) = [] ∧
      p.manager.entries ((builtin .member).key ann none) = [remark] :=
    ⟨_, rfl, by decide +kernel, by decide +kernel⟩
  obtain ⟨p, hp, hmap, hentries⟩ := hfound
  refine ⟨p, hp, hmap, hentries, fun h => ?_⟩
  have hinvariant := exec_invariant (next 2) (I := fun p => p.manager.entries = p.map)
    (fun _ _ _ hk _ hq => entries_next hk hq) rfl h hp
  rw [hinvariant, hmap] at hentries
  cases hentries

end Kirara.StoredMemories
