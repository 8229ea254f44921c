import Kirara.StoredMemories
import Mathlib.Data.Finset.Union

namespace Kirara.SharedMedia

open Kirara.Channels Kirara.Dicts Kirara.Schedules Kirara.StoredMemories
open Kirara.MemoryFiles (ChatSender)

inductive Failure where
  | valueError (message : Text)
  deriving DecidableEq

structure MediaMetadata where
  format : Text
  references : Finset Text
  deriving DecidableEq

/-- The metadata of the media, and their files, by media id and format. -/
structure MediaManager where
  metadataCache : Dict Text MediaMetadata
  files : Finset (Text × Text)

variable (m : MediaManager)

def notFound (mediaId : Text) : Failure := .valueError ("Media not found: ".toList ++ mediaId)

def saveMetadata (mediaId : Text) (metadata : MediaMetadata) : MediaManager :=
  { m with metadataCache := m.metadataCache.set mediaId metadata }

def addReference (mediaId referenceId : Text) : Except Failure MediaManager :=
  match m.metadataCache.get mediaId with
  | none => .error (notFound mediaId)
  | some metadata =>
    .ok (saveMetadata m mediaId { metadata with references := insert referenceId metadata.references })

def deleteMedia (mediaId : Text) : MediaManager :=
  match m.metadataCache.get mediaId with
  | none => m
  | some metadata => {
      metadataCache := m.metadataCache.pop mediaId
      files := if metadata.format = [] then m.files else m.files.erase (mediaId, metadata.format) }

def removeReference (mediaId referenceId : Text) : Except Failure MediaManager :=
  match m.metadataCache.get mediaId with
  | none => .error (notFound mediaId)
  | some metadata =>
    if referenceId ∈ metadata.references then
      let remaining := metadata.references.erase referenceId
      let saved := saveMetadata m mediaId { metadata with references := remaining }
      .ok (if remaining = ∅ then deleteMedia saved mediaId else saved)
    else .ok m

/-- The manager, and the reference ids given for a medium and not removed since. -/
structure Owned where
  manager : MediaManager
  owners : Finset (Text × Text)

section Owners

variable (o : Owned)

def Owned.add (mediaId referenceId : Text) : Except Failure Owned :=
  match addReference o.manager mediaId referenceId with
  | .error e => .error e
  | .ok manager => .ok ⟨manager, insert (mediaId, referenceId) o.owners⟩

def Owned.remove (mediaId referenceId : Text) : Except Failure Owned :=
  match removeReference o.manager mediaId referenceId with
  | .error e => .error e
  | .ok manager => .ok ⟨manager, o.owners.erase (mediaId, referenceId)⟩

def Owned.grant (mediaId : Text) (reference : Option Text) : Owned :=
  match reference with
  | none => o
  | some referenceId => { o with owners := insert (mediaId, referenceId) o.owners }

def fullReferenceKey (provider key : Text) : Text := provider ++ ':' :: key

/-- `register_reference` of the carrier. -/
def Owned.registerReference (mediaId provider key : Text) : Except Failure Owned :=
  if (o.manager.metadataCache.get mediaId).isNone then .error (.valueError ("媒体不存在: ".toList ++ mediaId))
  else o.add mediaId (fullReferenceKey provider key)

/-- `remove_reference` of the carrier. -/
def Owned.dropReference (mediaId provider key : Text) : Except Failure Owned :=
  if (o.manager.metadataCache.get mediaId).isNone then .ok o
  else o.remove mediaId (fullReferenceKey provider key)

end Owners

section Registration

variable {δ : Type}

/-- The arguments of `register_media`, with the data that it has read. -/
structure Registration (δ : Type) where
  data : δ
  /-- Empty where none is given. -/
  format : Text
  typed : Bool
  reference : Option Text

/-- A registration between its two looks at the metadata. -/
structure Pending where
  mediaId : Text
  format : Text
  reference : Option Text
  opened : Bool

def chooseFormat (detect : δ → Except Failure Text) (r : Registration δ) : Except Failure Text :=
  if r.typed && r.format ≠ [] then .ok r.format
  else do
    let detected ← detect r.data
    let format := if r.format = [] then detected else r.format
    if format = [] then throw (.valueError "No format detected".toList) else return format

def referenceSet (reference : Option Text) : Finset Text :=
  match reference with
  | none => ∅
  | some referenceId => if referenceId = [] then ∅ else {referenceId}

end Registration

/-- The media, the registrations that are under way, and the memories. -/
structure World (τ : Type) where
  media : Owned
  pending : Dict ℕ Pending
  memory : Manager τ

section Calls

variable {δ τ : Type} (w : World τ)

/-- The first look of `register_media`, which registers for known content. -/
def look (sha1 : δ → Text) (detect : δ → Except Failure Text) (call : ℕ) (r : Registration δ) : World τ :=
  let mediaId := sha1 r.data
  if (w.media.manager.metadataCache.get mediaId).isSome then
    { w with media := w.media.grant mediaId r.reference }
  else
    match chooseFormat detect r with
    | .error _ => w
    | .ok format => { w with pending := w.pending.set call ⟨mediaId, format, r.reference, false⟩ }

def openFile (call : ℕ) : World τ :=
  match w.pending.get call with
  | none => w
  | some p =>
    let manager := { w.media.manager with files := insert (p.mediaId, p.format) w.media.manager.files }
    { w with
      media := { w.media with manager := manager }
      pending := w.pending.set call { p with opened := true } }

/-- The file is written, and `register_media` saves the metadata and returns. -/
def finish (call : ℕ) : World τ :=
  match w.pending.get call with
  | none => w
  | some p =>
    if p.opened then
      let manager := saveMetadata w.media.manager p.mediaId ⟨p.format, referenceSet p.reference⟩
      { w with
        media := { w.media with manager := manager }.grant p.mediaId p.reference
        pending := w.pending.pop call }
    else w

def abort (call : ℕ) : World τ := { w with pending := w.pending.pop call }

/-- A call on the manager, which changes nothing when it raises. -/
def attempt (result : Except Failure Owned) : World τ :=
  match result with
  | .error _ => w
  | .ok media => { w with media := media }

end Calls

section Memory

variable {τ : Type}

def provider : Text := "memory".toList

/-- The first medium that is not there makes the call raise. -/
def registerMediaReference (key : Text) : List Text → Owned → Bool × Owned
  | [], o => (true, o)
  | mediaId :: rest, o =>
    match o.registerReference mediaId provider key with
    | .error _ => (false, o)
    | .ok o => registerMediaReference key rest o

def removeMediaReferences (key : Text) : List Text → Owned → Bool × Owned
  | [], o => (true, o)
  | mediaId :: rest, o =>
    match o.dropReference mediaId provider key with
    | .error _ => (false, o)
    | .ok o => removeMediaReferences key rest o

def store (maxEntries : Nat) (scope : Scope) (entry : MemoryEntry τ) (extraIdentifier : Option Text) (w : World τ) :
    World τ :=
  let key := scope.key entry.sender extraIdentifier
  let entries := w.memory.entries key ++ [entry]
  match registerMediaReference key entry.mediaIds w.media with
  | (false, media) => { w with media := media, memory := w.memory.keep key entries }
  | (true, media) =>
    if maxEntries < entries.length then
      let unremoved := lastEntries maxEntries entries
      match removeMediaReferences key (removedMedia (firstEntries maxEntries entries) unremoved) media with
      | (false, media) => { w with media := media, memory := w.memory.keep key entries }
      | (true, media) => { w with media := media, memory := w.memory.save key unremoved }
    else { w with media := media, memory := w.memory.save key entries }

def clearMemory (scope : Scope) (sender : ChatSender) (extraIdentifier : Option Text) (w : World τ) : World τ :=
  let key := scope.key sender extraIdentifier
  match w.memory.memories.get key with
  | none => w
  | some entries =>
    match removeMediaReferences key (removedMedia entries []) w.media with
    | (false, media) => { w with media := media }
    | (true, media) => { w with media := media, memory := w.memory.save key [] }

end Memory

section Runs

variable {δ τ : Type}

/-- What runs without an await in between. -/
inductive Step (δ τ : Type) where
  | look (call : ℕ) (r : Registration δ)
  | openFile (call : ℕ)
  | finish (call : ℕ)
  | abort (call : ℕ)
  | addReference (mediaId referenceId : Text)
  | removeReference (mediaId referenceId : Text)
  | store (scope : Scope) (entry : MemoryEntry τ) (extraIdentifier : Option Text)
  | clear (scope : Scope) (sender : ChatSender) (extraIdentifier : Option Text)

structure Setting (δ : Type) where
  sha1 : δ → Text
  detect : δ → Except Failure Text
  maxEntries : Nat

def next (S : Setting δ) (w : World τ) (step : Step δ τ) : Option (World τ) :=
  match step with
  | .look call r => some (look w S.sha1 S.detect call r)
  | .openFile call => some (openFile w call)
  | .finish call => some (finish w call)
  | .abort call => some (abort w call)
  | .addReference mediaId referenceId => some (attempt w (w.media.add mediaId referenceId))
  | .removeReference mediaId referenceId => some (attempt w (w.media.remove mediaId referenceId))
  | .store scope entry extraIdentifier => some (store S.maxEntries scope entry extraIdentifier w)
  | .clear scope sender extraIdentifier => some (clearMemory scope sender extraIdentifier w)

/-- Each reference that is recorded counts as given. -/
def started (library : Dict Text MediaMetadata) (saved : Text → List (MemoryEntry τ)) : World τ where
  media := {
    manager := ⟨library, (library.entries.map (fun e => (e.1, e.2.format))).toFinset⟩
    owners := library.entries.toFinset.biUnion (fun e => e.2.references.image (fun r => (e.1, r))) }
  pending := .empty
  memory := ⟨.empty, saved⟩

/-- Media that some reference id is given for are there, and so are their files. -/
def Kept (o : Owned) : Prop :=
  ∀ p ∈ o.owners, ∃ metadata, o.manager.metadataCache.get p.1 = some metadata ∧
    (p.1, metadata.format) ∈ o.manager.files

/-- What is known is recorded, and saving overwrites no other reference. -/
def Careful (S : Setting δ) (w : World τ) : Step δ τ → Prop
  | .look _ r => ∀ metadata ∈ w.media.manager.metadataCache.get (S.sha1 r.data),
    ∀ referenceId ∈ r.reference, referenceId ∈ metadata.references
  | .finish call => ∀ p ∈ w.pending.get call, p.opened = true →
    (p.mediaId, p.format) ∈ w.media.manager.files ∧ p.reference ≠ some [] ∧
      ∀ metadata ∈ w.media.manager.metadataCache.get p.mediaId, metadata.references ⊆ referenceSet p.reference
  | _ => True

instance {S : Setting δ} {w : World τ} : ∀ step : Step δ τ, Decidable (Careful S w step)
  | .look _ r => inferInstanceAs (Decidable (∀ metadata ∈ w.media.manager.metadataCache.get (S.sha1 r.data),
      ∀ referenceId ∈ r.reference, referenceId ∈ metadata.references))
  | .finish call => inferInstanceAs (Decidable (∀ p ∈ w.pending.get call, p.opened = true →
      (p.mediaId, p.format) ∈ w.media.manager.files ∧ p.reference ≠ some [] ∧
        ∀ metadata ∈ w.media.manager.metadataCache.get p.mediaId, metadata.references ⊆ referenceSet p.reference))
  | .openFile _ | .abort _ | .addReference _ _ | .removeReference _ _ | .store _ _ _ | .clear _ _ _ => isTrue trivial

end Runs

/-- Every medium has its file, and every reference id that was given is recorded. -/
structure Sound (o : Owned) : Prop where
  filed : ∀ id metadata, o.manager.metadataCache.get id = some metadata → (id, metadata.format) ∈ o.manager.files
  recorded : ∀ p ∈ o.owners, ∃ metadata, o.manager.metadataCache.get p.1 = some metadata ∧ p.2 ∈ metadata.references

theorem kept_of_sound {o : Owned} (h : Sound o) : Kept o := by
  intro p hp
  obtain ⟨metadata, hget, _⟩ := h.recorded p hp
  exact ⟨metadata, hget, h.filed p.1 metadata hget⟩

variable {o t : Owned} {mediaId referenceId : Text} {metadata : MediaMetadata}

variable (h : Sound o)

include h

theorem sound_grant {reference : Option Text} (hr : ∀ referenceId, reference = some referenceId →
      ∃ metadata, o.manager.metadataCache.get mediaId = some metadata ∧ referenceId ∈ metadata.references) :
    Sound (o.grant mediaId reference) := by
  cases reference with
  | none => exact h
  | some referenceId =>
    refine ⟨h.filed, fun p hp => ?_⟩
    cases Finset.mem_insert.mp hp with
    | inl he =>
      subst he
      exact hr referenceId rfl
    | inr ho => exact h.recorded p ho

theorem sound_save {owners : Finset (Text × Text)} (hf : (mediaId, metadata.format) ∈ o.manager.files)
    (ho : ∀ p ∈ owners, p ∈ o.owners ∨ p.1 = mediaId) (hr : ∀ r, (mediaId, r) ∈ owners → r ∈ metadata.references) :
    Sound ⟨saveMetadata o.manager mediaId metadata, owners⟩ := by
  constructor
  · intro id saved hget
    rw [saveMetadata, Dict.get_set] at hget
    split at hget
    · next he =>
      cases hget
      exact he ▸ hf
    · exact h.filed id saved hget
  · intro p hp
    rw [saveMetadata]
    by_cases he : p.1 = mediaId
    · exact ⟨metadata, by simp [he], hr p.2 (he ▸ hp)⟩
    · obtain ⟨old, hget, hmem⟩ := h.recorded p ((ho p hp).resolve_right he)
      exact ⟨old, by rw [Dict.get_set_of_ne he, hget], hmem⟩

theorem sound_delete (hno : ∀ r, (mediaId, r) ∉ o.owners) :
    Sound ⟨deleteMedia o.manager mediaId, o.owners⟩ := by
  unfold deleteMedia
  split
  · exact h
  · next metadata hget =>
    constructor
    · intro id other hother
      rw [Dict.get_pop] at hother
      split at hother
      · cases hother
      · next hne =>
        have hfile := h.filed id other hother
        dsimp only
        split
        · exact hfile
        · exact Finset.mem_erase.mpr ⟨fun he => hne (congrArg Prod.fst he), hfile⟩
    · intro p hp
      have hne : p.1 ≠ mediaId := fun he => hno p.2 (he ▸ hp)
      obtain ⟨old, hold, hmem⟩ := h.recorded p hp
      exact ⟨old, (Dict.get_pop_of_ne hne).trans hold, hmem⟩

theorem sound_add (ht : o.add mediaId referenceId = .ok t) : Sound t := by
  unfold Owned.add addReference at ht
  cases hget : o.manager.metadataCache.get mediaId with
  | none => simp [hget] at ht
  | some metadata =>
    simp only [hget, Except.ok.injEq] at ht
    subst ht
    refine sound_save h (h.filed mediaId metadata hget) ?_ ?_
    · intro p hp
      exact (Finset.mem_insert.mp hp).symm.imp id (fun he => congrArg Prod.fst he)
    · intro r hr
      cases Finset.mem_insert.mp hr with
      | inl he =>
        cases he
        exact Finset.mem_insert_self _ _
      | inr ho =>
        obtain ⟨old, hold, hmem⟩ := h.recorded _ ho
        cases hold.symm.trans hget
        exact Finset.mem_insert_of_mem hmem

theorem sound_remove (ht : o.remove mediaId referenceId = .ok t) : Sound t := by
  unfold Owned.remove removeReference at ht
  cases hget : o.manager.metadataCache.get mediaId with
  | none => simp [hget] at ht
  | some metadata =>
    have hrecorded : ∀ r, (mediaId, r) ∈ o.owners.erase (mediaId, referenceId) →
        r ∈ metadata.references.erase referenceId := by
      intro r hr
      obtain ⟨hne, ho⟩ := Finset.mem_erase.mp hr
      obtain ⟨old, hold, hmem⟩ := h.recorded _ ho
      cases hold.symm.trans hget
      exact Finset.mem_erase.mpr ⟨fun he => hne (he ▸ rfl), hmem⟩
    by_cases hm : referenceId ∈ metadata.references
    · have hsaved : Sound ⟨saveMetadata o.manager mediaId
          { metadata with references := metadata.references.erase referenceId },
          o.owners.erase (mediaId, referenceId)⟩ :=
        sound_save h (h.filed mediaId metadata hget) (fun p hp => .inl (Finset.mem_of_mem_erase hp)) hrecorded
      simp only [hget, hm, if_true, Except.ok.injEq] at ht
      subst ht
      split
      · next hempty =>
        refine sound_delete hsaved (fun r hr => ?_)
        have hmem := hrecorded r hr
        rw [hempty] at hmem
        exact Finset.notMem_empty r hmem
      · exact hsaved
    · simp only [hget, hm, if_false, Except.ok.injEq] at ht
      subst ht
      exact ⟨h.filed, fun p hp => h.recorded p (Finset.mem_of_mem_erase hp)⟩

theorem sound_registerReference {name key : Text} (ht : o.registerReference mediaId name key = .ok t) :
    Sound t := by
  unfold Owned.registerReference at ht
  split at ht
  · cases ht
  · exact sound_add h ht

theorem sound_dropReference {name key : Text} (ht : o.dropReference mediaId name key = .ok t) : Sound t := by
  unfold Owned.dropReference at ht
  split at ht
  · cases ht
    exact h
  · exact sound_remove h ht

theorem sound_registerMediaReference {key : Text} {ids : List Text} {done : Bool}
    (ht : registerMediaReference key ids o = (done, t)) : Sound t := by
  induction ids generalizing o with
  | nil =>
    cases ht
    exact h
  | cons id ids ih =>
    rw [registerMediaReference] at ht
    split at ht
    · cases ht
      exact h
    · next u hu => exact ih (sound_registerReference h hu) ht

theorem sound_removeMediaReferences {key : Text} {ids : List Text} {done : Bool}
    (ht : removeMediaReferences key ids o = (done, t)) : Sound t := by
  induction ids generalizing o with
  | nil =>
    cases ht
    exact h
  | cons id ids ih =>
    rw [removeMediaReferences] at ht
    split at ht
    · cases ht
      exact h
    · next u hu => exact ih (sound_dropReference h hu) ht

omit h

section Steps

variable {δ τ : Type} {S : Setting δ} {w u : World τ}

theorem attempt_sound {result : Except Failure Owned} (h : Sound w.media) (hr : ∀ t, result = .ok t → Sound t) :
    Sound (attempt w result).media := by
  unfold attempt
  split
  · exact h
  · next t => exact hr t rfl

theorem look_sound {call : ℕ} {r : Registration δ} (h : Sound w.media) (hok : Careful (τ := τ) S w (.look call r)) :
    Sound (look w S.sha1 S.detect call r).media := by
  unfold look
  dsimp only
  split
  · next hsome =>
    obtain ⟨metadata, hget⟩ := Option.isSome_iff_exists.mp hsome
    exact sound_grant h (fun referenceId hr => ⟨metadata, hget, hok metadata hget referenceId hr⟩)
  · split
    · exact h
    · exact h

theorem openFile_sound {call : ℕ} (h : Sound w.media) : Sound (openFile w call).media := by
  unfold openFile
  split
  · exact h
  · exact ⟨fun id metadata hget => Finset.mem_insert_of_mem (h.filed id metadata hget), h.recorded⟩

theorem finish_sound {call : ℕ} (h : Sound w.media) (hok : Careful (δ := δ) S w (.finish call)) :
    Sound (finish w call).media := by
  unfold finish
  split
  · exact h
  · next p hp =>
    split
    · next ho =>
      obtain ⟨hfile, hnonempty, hkeep⟩ := hok p hp ho
      have hsaved : Sound ⟨saveMetadata w.media.manager p.mediaId ⟨p.format, referenceSet p.reference⟩,
          w.media.owners⟩ := by
        refine sound_save h hfile (fun p hp => .inl hp) (fun r hr => ?_)
        obtain ⟨old, hold, hmem⟩ := h.recorded _ hr
        exact hkeep old hold hmem
      refine sound_grant hsaved (fun referenceId hr => ⟨_, Dict.get_set_self, ?_⟩)
      rw [hr, referenceSet, if_neg (fun he => hnonempty (hr.trans (congrArg some he)))]
      exact Finset.mem_singleton_self _
    · exact h

variable {extraIdentifier : Option Text}

theorem store_sound {maxEntries : Nat} {scope : Scope} {entry : MemoryEntry τ}
    (h : Sound w.media) : Sound (store maxEntries scope entry extraIdentifier w).media := by
  unfold store
  dsimp only
  split
  · next hm => exact sound_registerMediaReference h hm
  · next hm =>
    have hregistered := sound_registerMediaReference h hm
    split
    · split
      · next hr => exact sound_removeMediaReferences hregistered hr
      · next hr => exact sound_removeMediaReferences hregistered hr
    · exact hregistered

theorem clearMemory_sound {scope : Scope} {sender : ChatSender}
    (h : Sound w.media) : Sound (clearMemory scope sender extraIdentifier w).media := by
  unfold clearMemory
  dsimp only
  split
  · exact h
  split
  · next hr => exact sound_removeMediaReferences h hr
  · next hr => exact sound_removeMediaReferences h hr

theorem next_sound {step : Step δ τ} (hok : Careful S w step) (h : Sound w.media) (hu : next S w step = some u) :
    Sound u.media := by
  cases step with
  | look call r =>
    cases hu
    exact look_sound h hok
  | openFile call =>
    cases hu
    exact openFile_sound h
  | finish call =>
    cases hu
    exact finish_sound h hok
  | abort call =>
    cases hu
    exact h
  | addReference mediaId referenceId =>
    cases hu
    exact attempt_sound h (fun _ => sound_add h)
  | removeReference mediaId referenceId =>
    cases hu
    exact attempt_sound h (fun _ => sound_remove h)
  | store scope entry extraIdentifier =>
    cases hu
    exact store_sound h
  | clear scope sender extraIdentifier =>
    cases hu
    exact clearMemory_sound h

theorem started_sound (library : Dict Text MediaMetadata) (saved : Text → List (MemoryEntry τ)) :
    Sound (started library saved).media := by
  constructor
  · intro id metadata hget
    exact List.mem_toFinset.mpr (List.mem_map.mpr ⟨(id, metadata), Dict.get_eq_some_iff.mp hget, rfl⟩)
  · intro p hp
    obtain ⟨e, he, hp⟩ := Finset.mem_biUnion.mp hp
    obtain ⟨r, hr, rfl⟩ := Finset.mem_image.mp hp
    exact ⟨e.2, Dict.get_eq_some_iff.mpr (List.mem_toFinset.mp he), hr⟩

end Steps

variable {δ τ : Type}

/-- Where the steps are careful, no medium or file that some reference id is given for is lost. -/
theorem media_kept (S : Setting δ) (library : Dict Text MediaMetadata) (saved : Text → List (MemoryEntry τ))
    (steps : List (Step δ τ)) (w : World τ) (hok : Along (next S) (Careful S) (started library saved) steps)
    (hw : exec (next S) (started library saved) steps = some w) : Kept w.media :=
  kept_of_sound (exec_invariant (next S) (I := fun w => Sound w.media) (fun _ _ _ => next_sound)
    (started_sound library saved) hok hw)

def hashed : Setting Text where
  sha1 := fun _ => "c22b5f9178342609428d6f51b2c5af4c0bde6a42".toList
  detect := fun _ => .ok "plain".toList
  maxEntries := 100

def greeting : Text := hashed.sha1 "hi".toList

def registration (owner : String) : Registration Text := ⟨"hi".toList, [], false, some owner.toList⟩

def empty : World ℕ := started .empty (fun _ => [])

def handedOn : List (Step Text ℕ) :=
  [.look 0 (registration "a"), .openFile 0, .finish 0, .addReference greeting "b".toList,
    .removeReference greeting "a".toList]

theorem media_kept_handedOn : ∃ w, exec (next hashed) empty handedOn = some w ∧ w.media.owners.Nonempty ∧
    Kept w.media :=
  ⟨_, rfl, ⟨(greeting, "b".toList), by decide +kernel⟩,
    media_kept hashed .empty (fun _ => []) handedOn _ (by decide +kernel) rfl⟩

def knownContent : List (Step Text ℕ) :=
  [.look 0 (registration "a"), .openFile 0, .finish 0, .look 1 (registration "b"),
    .removeReference greeting "a".toList]

/-- Both registrations look before one of them has saved. -/
def raced : List (Step Text ℕ) :=
  [.look 0 (registration "a"), .look 1 (registration "b"), .openFile 0, .openFile 1, .finish 0, .finish 1,
    .removeReference greeting "b".toList]

/-- The file of both registrations is deleted while the second one has not saved. -/
def deletedMeanwhile : List (Step Text ℕ) :=
  [.look 0 (registration "a"), .look 1 (registration "b"), .openFile 0, .openFile 1, .finish 0,
    .removeReference greeting "a".toList, .finish 1]

theorem not_kept_of_lost {o : Owned} {p : Text × Text} (hp : p ∈ o.owners)
    (h : ((o.manager.metadataCache.get p.1).filter (fun metadata => (p.1, metadata.format) ∈ o.manager.files)).isNone) :
    ¬ Kept o := by
  intro hk
  obtain ⟨metadata, hget, hfile⟩ := hk p hp
  simp [hget, Option.filter, hfile] at h

/-- In each of the runs an owner releases its reference and the file another owner refers to is
gone. -/
theorem media_lost : (∃ w, exec (next hashed) empty knownContent = some w ∧ ¬ Kept w.media) ∧
    (∃ w, exec (next hashed) empty raced = some w ∧ ¬ Kept w.media) ∧
    ∃ w, exec (next hashed) empty deletedMeanwhile = some w ∧ ¬ Kept w.media := by
  refine ⟨⟨_, rfl, ?_⟩, ⟨_, rfl, ?_⟩, ⟨_, rfl, ?_⟩⟩
  · exact not_kept_of_lost (p := (greeting, "b".toList)) (by decide +kernel) (by decide +kernel)
  · exact not_kept_of_lost (p := (greeting, "a".toList)) (by decide +kernel) (by decide +kernel)
  · exact not_kept_of_lost (p := (greeting, "b".toList)) (by decide +kernel) (by decide +kernel)

end Kirara.SharedMedia
