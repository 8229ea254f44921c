import Kirara.SharedMedia

namespace Kirara.MediaCarriers

open Kirara.Channels Kirara.Dicts Kirara.Schedules
open Kirara.SharedMedia (MediaManager MediaMetadata Failure fullReferenceKey saveMetadata deleteMedia)

/-- The manager, and the provider and the medium that the index has for a full key. -/
structure MediaCarrierService where
  mediaManager : MediaManager
  referenceIndex : Text → Option (Text × Text)

/-- What stands before the first colon, where there is one. -/
def providerName (referenceKey : Text) : Option Text :=
  if ':' ∈ referenceKey then some (referenceKey.takeWhile (· ≠ ':')) else none

def indexReferences (index : Text → Option (Text × Text)) (e : Text × MediaMetadata) : Text → Option (Text × Text) :=
  fun referenceKey =>
    if referenceKey ∈ e.2.references then
      match providerName referenceKey with
      | some provider => some (provider, e.1)
      | none => index referenceKey
    else index referenceKey

def buildReferenceIndex (m : MediaManager) : Text → Option (Text × Text) :=
  m.metadataCache.entries.foldl indexReferences (fun _ => none)

def started (m : MediaManager) : MediaCarrierService := ⟨m, buildReferenceIndex m⟩

section Operations

variable (s : MediaCarrierService)

def cached (mediaId : Text) : Prop := (s.mediaManager.metadataCache.get mediaId).isSome

instance (mediaId : Text) : Decidable (cached s mediaId) :=
  inferInstanceAs (Decidable ((s.mediaManager.metadataCache.get mediaId).isSome = true))

def registerReference (mediaId provider referenceKey : Text) : Except Failure MediaCarrierService :=
  if cached s mediaId then
    let key := fullReferenceKey provider referenceKey
    match SharedMedia.addReference s.mediaManager mediaId key with
    | .error e => .error e
    | .ok m => .ok ⟨m, Function.update s.referenceIndex key (some (provider, mediaId))⟩
  else .error (.valueError ("媒体不存在: ".toList ++ mediaId))

def release (mediaId key : Text) : Except Failure MediaCarrierService :=
  match SharedMedia.removeReference s.mediaManager mediaId key with
  | .error e => .error e
  | .ok m => .ok ⟨m, Function.update s.referenceIndex key none⟩

def removeReference (mediaId provider referenceKey : Text) : Except Failure MediaCarrierService :=
  if cached s mediaId then release s mediaId (fullReferenceKey provider referenceKey) else .ok s

def getMediaByReference (provider referenceKey : Text) : List Text :=
  match s.referenceIndex (fullReferenceKey provider referenceKey) with
  | none => []
  | some (_, mediaId) => if cached s mediaId then [mediaId] else []

end Operations

def Orphaned (providers : Finset Text) (referenceKey : Text) : Prop :=
  ∃ provider ∈ providerName referenceKey, provider ∉ providers

instance (providers : Finset Text) (referenceKey : Text) : Decidable (Orphaned providers referenceKey) :=
  inferInstanceAs (Decidable (∃ provider ∈ providerName referenceKey, provider ∉ providers))

def releaseAll (mediaId : Text) : List Text → MediaCarrierService → Except Failure MediaCarrierService
  | [], s => .ok s
  | key :: keys, s =>
    match release s mediaId key with
    | .error e => .error e
    | .ok s => releaseAll mediaId keys s

def releaseOrphaned (orders : Text → List Text) :
    List (Text × MediaMetadata) → MediaCarrierService → Except Failure MediaCarrierService
  | [], s => .ok s
  | e :: rest, s =>
    match releaseAll e.1 (orders e.1) s with
    | .error e => .error e
    | .ok s => releaseOrphaned orders rest s

/-- The orders are ways to go through the sets of orphaned references. -/
def Enumerates (providers : Finset Text) (orders : Text → List Text) (entries : List (Text × MediaMetadata)) : Prop :=
  ∀ e ∈ entries, (orders e.1).Nodup ∧ (orders e.1).toFinset = e.2.references.filter (Orphaned providers)

instance (providers : Finset Text) (orders : Text → List Text) (entries : List (Text × MediaMetadata)) :
    Decidable (Enumerates providers orders entries) :=
  inferInstanceAs (Decidable (∀ e ∈ entries,
    (orders e.1).Nodup ∧ (orders e.1).toFinset = e.2.references.filter (Orphaned providers)))

inductive Call where
  | registerReference (mediaId provider referenceKey : Text)
  | removeReference (mediaId provider referenceKey : Text)
  | cleanupOrphanedReferences (providers : Finset Text) (orders : Text → List Text)
  /-- A service on a manager that has loaded what is stored. -/
  | rebuild (library : Dict Text MediaMetadata)
  /-- New content, without a reference. -/
  | registerMedia (mediaId format : Text)

/-- A call that raises is taken as one that changes nothing. -/
def attempt (s : MediaCarrierService) (result : Except Failure MediaCarrierService) : MediaCarrierService :=
  match result with
  | .error _ => s
  | .ok t => t

def registerMedia (s : MediaCarrierService) (mediaId format : Text) : MediaCarrierService :=
  if cached s mediaId then s
  else
    let stored := { s.mediaManager with files := insert (mediaId, format) s.mediaManager.files }
    { s with mediaManager := saveMetadata stored mediaId ⟨format, ∅⟩ }

def next (s : MediaCarrierService) : Call → Option MediaCarrierService
  | .registerReference mediaId provider referenceKey =>
    some (attempt s (registerReference s mediaId provider referenceKey))
  | .removeReference mediaId provider referenceKey =>
    some (attempt s (removeReference s mediaId provider referenceKey))
  | .cleanupOrphanedReferences providers orders =>
    if Enumerates providers orders s.mediaManager.metadataCache.entries then
      some (attempt s (releaseOrphaned orders s.mediaManager.metadataCache.entries s))
    else none
  | .rebuild library =>
    if library.entries.Perm s.mediaManager.metadataCache.entries then
      some (started { s.mediaManager with metadataCache := library })
    else none
  | .registerMedia mediaId format => some (registerMedia s mediaId format)

def Holds (m : MediaManager) (key mediaId : Text) : Prop :=
  ∃ metadata, m.metadataCache.get mediaId = some metadata ∧ key ∈ metadata.references

/-- The media that are returned are those whose metadata has the reference. -/
def Agrees (s : MediaCarrierService) : Prop :=
  ∀ provider referenceKey mediaId, mediaId ∈ getMediaByReference s provider referenceKey ↔
    Holds s.mediaManager (fullReferenceKey provider referenceKey) mediaId

/-- No two media have a reference of some provider in common. -/
def Unshared (m : MediaManager) : Prop :=
  ∀ e ∈ m.metadataCache.entries, ∀ f ∈ m.metadataCache.entries, ∀ key ∈ e.2.references,
    ':' ∈ key → key ∈ f.2.references → e.1 = f.1

instance (m : MediaManager) : Decidable (Unshared m) :=
  inferInstanceAs (Decidable (∀ e ∈ m.metadataCache.entries, ∀ f ∈ m.metadataCache.entries, ∀ key ∈ e.2.references,
    ':' ∈ key → key ∈ f.2.references → e.1 = f.1))

def Alone (m : MediaManager) (mediaId key : Text) : Prop :=
  ∀ e ∈ m.metadataCache.entries, key ∈ e.2.references → e.1 = mediaId

instance (m : MediaManager) (mediaId key : Text) : Decidable (Alone m mediaId key) :=
  inferInstanceAs (Decidable (∀ e ∈ m.metadataCache.entries, key ∈ e.2.references → e.1 = mediaId))

def Careful (s : MediaCarrierService) : Call → Prop
  | .registerReference mediaId provider referenceKey | .removeReference mediaId provider referenceKey =>
    cached s mediaId → Alone s.mediaManager mediaId (fullReferenceKey provider referenceKey)
  | _ => True

instance (s : MediaCarrierService) : ∀ call, Decidable (Careful s call)
  | .registerReference mediaId provider referenceKey | .removeReference mediaId provider referenceKey =>
    inferInstanceAs (Decidable (cached s mediaId →
      Alone s.mediaManager mediaId (fullReferenceKey provider referenceKey)))
  | .cleanupOrphanedReferences _ _ | .rebuild _ | .registerMedia _ _ => isTrue trivial

section Metadata

variable {m n : MediaManager} {mediaId key : Text}

theorem holds_iff_of_get {metadata : MediaMetadata} (h : m.metadataCache.get mediaId = some metadata) :
    Holds m key mediaId ↔ key ∈ metadata.references := by
  simp [Holds, h]

theorem holds_iff_mem : Holds m key mediaId ↔ ∃ e ∈ m.metadataCache.entries, e.1 = mediaId ∧ key ∈ e.2.references := by
  constructor
  · intro ⟨metadata, hget, hkey⟩
    exact ⟨(mediaId, metadata), Dict.get_eq_some_iff.mp hget, rfl, hkey⟩
  · intro ⟨e, he, hid, hkey⟩
    exact ⟨e.2, Dict.get_eq_some_iff.mpr (hid ▸ he), hkey⟩

theorem alone_iff : Alone m mediaId key ↔ ∀ other, Holds m key other → other = mediaId := by
  simp only [holds_iff_mem]
  constructor
  · intro h other ⟨e, he, hid, hkey⟩
    exact hid ▸ h e he hkey
  · exact fun h e he hkey => h e.1 ⟨e, he, rfl, hkey⟩

theorem unshared_iff :
    Unshared m ↔ ∀ key first second, ':' ∈ key → Holds m key first → Holds m key second → first = second := by
  simp only [holds_iff_mem]
  constructor
  · intro h key first second hcolon ⟨e, he, hfirst, hkey⟩ ⟨f, hf, hsecond, hkey'⟩
    rw [← hfirst, ← hsecond]
    exact h e he f hf key hkey hcolon hkey'
  · exact fun h e he f hf key hkey hcolon hkey' =>
      h key e.1 f.1 hcolon ⟨e, he, rfl, hkey⟩ ⟨f, hf, rfl, hkey'⟩

theorem holds_perm {library : Dict Text MediaMetadata} (h : library.entries.Perm m.metadataCache.entries)
    {other : Text} : Holds { m with metadataCache := library } key other ↔ Holds m key other := by
  simp only [holds_iff_mem, h.mem_iff]

variable {k id : Text}

theorem holds_saveMetadata {metadata : MediaMetadata} : Holds (saveMetadata m mediaId metadata) k id ↔
      if id = mediaId then k ∈ metadata.references else Holds m k id := by
  unfold Holds saveMetadata
  dsimp only
  rw [Dict.get_set]
  split <;> simp

theorem holds_addReference (h : SharedMedia.addReference m mediaId key = .ok n) :
    Holds n k id ↔ Holds m k id ∨ k = key ∧ id = mediaId := by
  unfold SharedMedia.addReference at h
  cases hget : m.metadataCache.get mediaId with
  | none => simp [hget] at h
  | some metadata =>
    simp only [hget, Except.ok.injEq] at h
    subst h
    rw [holds_saveMetadata]
    split
    · next hid =>
      rw [hid, holds_iff_of_get hget, Finset.mem_insert]
      simp [or_comm]
    · next hid => simp [hid]

theorem holds_deleteMedia : Holds (deleteMedia m mediaId) k id ↔ Holds m k id ∧ id ≠ mediaId := by
  unfold deleteMedia
  split
  · next hget =>
    refine ⟨fun h => ⟨h, fun hid => ?_⟩, fun h => h.1⟩
    obtain ⟨metadata, hsome, _⟩ := h
    rw [hid, hget] at hsome
    cases hsome
  · unfold Holds
    dsimp only
    rw [Dict.get_pop]
    split
    · next hid => simp [hid]
    · next hid => simp [hid]

theorem holds_removeReference (h : SharedMedia.removeReference m mediaId key = .ok n) :
    Holds n k id ↔ Holds m k id ∧ ¬ (k = key ∧ id = mediaId) := by
  unfold SharedMedia.removeReference at h
  cases hget : m.metadataCache.get mediaId with
  | none => simp [hget] at h
  | some metadata =>
    simp only [hget] at h
    split at h
    · next hmem =>
      have hsaved : ∀ {k id : Text}, Holds (saveMetadata m mediaId
          { metadata with references := metadata.references.erase key }) k id ↔
          Holds m k id ∧ ¬ (k = key ∧ id = mediaId) := by
        intro k id
        rw [holds_saveMetadata]
        split
        · next hid =>
          rw [hid, holds_iff_of_get hget, Finset.mem_erase]
          simp [and_comm]
        · next hid => simp [hid]
      simp only [Except.ok.injEq] at h
      subst h
      split
      · next hempty =>
        rw [holds_deleteMedia, hsaved, and_iff_left_iff_imp]
        intro ⟨hk, hne⟩ hid
        rw [hid, holds_iff_of_get hget] at hk
        have : k ∈ metadata.references.erase key := Finset.mem_erase.mpr ⟨fun he => hne ⟨he, hid⟩, hk⟩
        rw [hempty] at this
        exact Finset.notMem_empty k this
      · exact hsaved
    · next hmem =>
      cases h
      refine ⟨fun hk => ⟨hk, fun ⟨he, hid⟩ => hmem ?_⟩, fun hk => hk.1⟩
      rw [he, hid, holds_iff_of_get hget] at hk
      exact hk

end Metadata

section Agreement

variable {s t : MediaCarrierService}

/-- The index has exactly the references with a colon, each with its medium. -/
def Indexed (s : MediaCarrierService) : Prop :=
  ∀ key mediaId, (∃ provider, s.referenceIndex key = some (provider, mediaId)) ↔
    ':' ∈ key ∧ Holds s.mediaManager key mediaId

theorem colon_mem_fullReferenceKey (provider referenceKey : Text) : ':' ∈ fullReferenceKey provider referenceKey := by
  simp [fullReferenceKey]

theorem exists_fullReferenceKey {key : Text} (h : ':' ∈ key) :
    ∃ provider referenceKey, key = fullReferenceKey provider referenceKey := by
  obtain ⟨provider, referenceKey, he⟩ := List.append_of_mem h
  exact ⟨provider, referenceKey, he⟩

theorem cached_of_holds {key mediaId : Text} (h : Holds s.mediaManager key mediaId) : cached s mediaId := by
  obtain ⟨metadata, hget, _⟩ := h
  simp [cached, hget]

theorem mem_getMediaByReference {provider referenceKey mediaId : Text} :
    mediaId ∈ getMediaByReference s provider referenceKey ↔
      (∃ name, s.referenceIndex (fullReferenceKey provider referenceKey) = some (name, mediaId)) ∧ cached s mediaId := by
  unfold getMediaByReference
  split
  · next hnone => simp [hnone]
  · next name id hsome =>
    simp only [hsome, Option.some.injEq, Prod.mk.injEq, exists_eq_left']
    split
    · next hc =>
      rw [List.mem_singleton]
      exact ⟨fun he => ⟨he.symm, he ▸ hc⟩, fun ⟨he, _⟩ => he.symm⟩
    · next hc =>
      exact ⟨fun he => absurd he List.not_mem_nil, fun ⟨he, hm⟩ => absurd (he ▸ hm) hc⟩

theorem agrees_of_indexed (h : Indexed s) : Agrees s := by
  intro provider referenceKey mediaId
  rw [mem_getMediaByReference, h]
  exact ⟨fun hm => hm.1.2, fun hm => ⟨⟨colon_mem_fullReferenceKey _ _, hm⟩, cached_of_holds hm⟩⟩

theorem unshared_of_agrees (h : Agrees s) : Unshared s.mediaManager := by
  refine unshared_iff.mpr (fun key first second hcolon hfirst hsecond => ?_)
  obtain ⟨provider, referenceKey, rfl⟩ := exists_fullReferenceKey hcolon
  obtain ⟨⟨_, hone⟩, _⟩ := mem_getMediaByReference.mp ((h provider referenceKey first).mpr hfirst)
  obtain ⟨⟨_, htwo⟩, _⟩ := mem_getMediaByReference.mp ((h provider referenceKey second).mpr hsecond)
  cases hone.symm.trans htwo
  rfl

theorem alone_of_indexed {key mediaId : Text} (h : Indexed s) (hcolon : ':' ∈ key)
    (hholds : Holds s.mediaManager key mediaId) : Alone s.mediaManager mediaId key :=
  alone_iff.mpr (fun other hother =>
    unshared_iff.mp (unshared_of_agrees (agrees_of_indexed h)) key other mediaId hcolon hother hholds)

end Agreement

variable {m : MediaManager}

theorem exists_providerName {key : Text} (h : ':' ∈ key) : ∃ provider, providerName key = some provider := by
  simp [providerName, h]

theorem colon_mem_of_providerName {key provider : Text} (h : providerName key = some provider) : ':' ∈ key := by
  unfold providerName at h
  split at h
  · next hcolon => exact hcolon
  · cases h

variable {entries : List (Text × MediaMetadata)}

theorem foldl_indexReferences_some {index : Text → Option (Text × Text)}
    {key provider mediaId : Text} (h : entries.foldl indexReferences index key = some (provider, mediaId)) :
    (':' ∈ key ∧ ∃ e ∈ entries, e.1 = mediaId ∧ key ∈ e.2.references) ∨ index key = some (provider, mediaId) := by
  induction entries generalizing index with
  | nil => exact .inr h
  | cons e entries ih =>
    cases ih h with
    | inl hlater =>
      obtain ⟨hcolon, f, hf, hid, hkey⟩ := hlater
      exact .inl ⟨hcolon, f, List.mem_cons_of_mem e hf, hid, hkey⟩
    | inr hnow =>
      unfold indexReferences at hnow
      split at hnow
      · next hkey =>
        split at hnow
        · next name hname =>
          cases hnow
          exact .inl ⟨colon_mem_of_providerName hname, e, List.mem_cons_self, rfl, hkey⟩
        · exact .inr hnow
      · exact .inr hnow

theorem foldl_indexReferences_isSome (index : Text → Option (Text × Text))
    {key : Text} (hcolon : ':' ∈ key) (h : (∃ e ∈ entries, key ∈ e.2.references) ∨ (index key).isSome) :
    (entries.foldl indexReferences index key).isSome := by
  induction entries generalizing index with
  | nil => exact h.resolve_left (by simp)
  | cons e entries ih =>
    apply ih
    obtain ⟨provider, hprovider⟩ := exists_providerName hcolon
    by_cases hkey : key ∈ e.2.references
    · exact .inr (by simp [indexReferences, hkey, hprovider])
    cases h with
    | inl hheld =>
      obtain ⟨f, hf, hmem⟩ := hheld
      cases List.mem_cons.mp hf with
      | inl he => exact absurd (he ▸ hmem) hkey
      | inr hf => exact .inl ⟨f, hf, hmem⟩
    | inr hsome => exact .inr (by simpa [indexReferences, hkey] using hsome)

theorem indexed_started (h : Unshared m) : Indexed (started m) := by
  intro key mediaId
  constructor
  · intro ⟨provider, hsome⟩
    cases foldl_indexReferences_some hsome with
    | inl hfrom => exact ⟨hfrom.1, holds_iff_mem.mpr hfrom.2⟩
    | inr hnone => cases hnone
  · intro ⟨hcolon, hholds⟩
    obtain ⟨e, he, _, hkey⟩ := holds_iff_mem.mp hholds
    obtain ⟨⟨provider, other⟩, hsome⟩ :=
      Option.isSome_iff_exists.mp (foldl_indexReferences_isSome (fun _ => none) hcolon (.inl ⟨e, he, hkey⟩))
    cases foldl_indexReferences_some hsome with
    | inl hfrom =>
      have hsame := unshared_iff.mp h key mediaId other hcolon hholds (holds_iff_mem.mpr hfrom.2)
      exact ⟨provider, hsame ▸ hsome⟩
    | inr hnone => cases hnone

theorem agrees_started_iff : Agrees (started m) ↔ Unshared m :=
  ⟨unshared_of_agrees, fun h => agrees_of_indexed (indexed_started h)⟩

variable {s t : MediaCarrierService} {mediaId provider referenceKey key : Text}

theorem addReference_ok {m : MediaManager} (key : Text) (h : (m.metadataCache.get mediaId).isSome) :
    ∃ n, SharedMedia.addReference m mediaId key = .ok n := by
  obtain ⟨metadata, hget⟩ := Option.isSome_iff_exists.mp h
  simp [SharedMedia.addReference, hget]

theorem removeReference_ok {m : MediaManager} (key : Text) (h : (m.metadataCache.get mediaId).isSome) :
    ∃ n, SharedMedia.removeReference m mediaId key = .ok n := by
  obtain ⟨metadata, hget⟩ := Option.isSome_iff_exists.mp h
  unfold SharedMedia.removeReference
  simp only [hget]
  split <;> exact ⟨_, rfl⟩

theorem release_ok (key : Text) (h : cached s mediaId) :
    ∃ m, release s mediaId key = .ok ⟨m, Function.update s.referenceIndex key none⟩ ∧
    ∀ k id, Holds m k id ↔ Holds s.mediaManager k id ∧ ¬ (k = key ∧ id = mediaId) := by
  obtain ⟨m, hm⟩ := removeReference_ok key h
  exact ⟨m, by rw [release, hm], fun k id => holds_removeReference hm⟩

theorem indexed_release {m : MediaManager} (h : Indexed s) (hcolon : ':' ∈ key)
    (halone : Alone s.mediaManager mediaId key)
    (hm : ∀ k id, Holds m k id ↔ Holds s.mediaManager k id ∧ ¬ (k = key ∧ id = mediaId)) :
    Indexed ⟨m, Function.update s.referenceIndex key none⟩ := by
  intro k id
  dsimp only
  rw [hm]
  by_cases hk : k = key
  · subst hk
    simp only [Function.update_self, reduceCtorEq, exists_false, false_iff, true_and]
    exact fun hheld => hheld.2.2 (alone_iff.mp halone id hheld.2.1)
  · rw [Function.update_of_ne hk, h]
    simp [hk]

theorem alone_of_agrees_release {m : MediaManager}
    (h : Agrees ⟨m, Function.update s.referenceIndex (fullReferenceKey provider referenceKey) none⟩)
    (hm : ∀ k id, Holds m k id ↔
      Holds s.mediaManager k id ∧ ¬ (k = fullReferenceKey provider referenceKey ∧ id = mediaId)) :
    Alone s.mediaManager mediaId (fullReferenceKey provider referenceKey) := by
  refine alone_iff.mpr (fun other hother => ?_)
  by_contra hne
  have hfound := (h provider referenceKey other).mpr ((hm _ other).mpr ⟨hother, fun he => hne he.2⟩)
  obtain ⟨⟨name, hsome⟩, _⟩ := mem_getMediaByReference.mp hfound
  simp only [Function.update_self] at hsome
  cases hsome

theorem indexed_enter {m : MediaManager} (h : Indexed s) (hcolon : ':' ∈ key)
    (halone : Alone s.mediaManager mediaId key)
    (hm : ∀ k id, Holds m k id ↔ Holds s.mediaManager k id ∨ k = key ∧ id = mediaId) :
    Indexed ⟨m, Function.update s.referenceIndex key (some (provider, mediaId))⟩ := by
  intro k id
  dsimp only
  rw [hm]
  by_cases hk : k = key
  · subst hk
    simp only [Function.update_self, Option.some.injEq, Prod.mk.injEq, exists_eq_left', hcolon, true_and]
    constructor
    · exact fun he => .inr he.symm
    · exact fun hheld => hheld.elim (fun hother => (alone_iff.mp halone id hother).symm) Eq.symm
  · rw [Function.update_of_ne hk, h]
    simp [hk]

theorem alone_of_agrees_enter {m : MediaManager}
    (h : Agrees ⟨m, Function.update s.referenceIndex (fullReferenceKey provider referenceKey)
      (some (provider, mediaId))⟩)
    (hm : ∀ k id, Holds m k id ↔
      Holds s.mediaManager k id ∨ k = fullReferenceKey provider referenceKey ∧ id = mediaId) :
    Alone s.mediaManager mediaId (fullReferenceKey provider referenceKey) := by
  refine alone_iff.mpr (fun other hother => ?_)
  have hfound := (h provider referenceKey other).mpr ((hm _ other).mpr (.inl hother))
  obtain ⟨⟨name, hsome⟩, _⟩ := mem_getMediaByReference.mp hfound
  simp only [Function.update_self] at hsome
  cases hsome
  rfl

theorem releaseAll_indexed {keys : List Text} (h : Indexed s) (hnodup : keys.Nodup)
    (hkeys : ∀ key ∈ keys, ':' ∈ key ∧ Holds s.mediaManager key mediaId) :
    ∃ t, releaseAll mediaId keys s = .ok t ∧ Indexed t ∧
      ∀ k id, Holds t.mediaManager k id ↔ Holds s.mediaManager k id ∧ ¬ (k ∈ keys ∧ id = mediaId) := by
  induction keys generalizing s with
  | nil => exact ⟨s, rfl, h, by simp⟩
  | cons key keys ih =>
    obtain ⟨hfresh, hnodup⟩ := List.nodup_cons.mp hnodup
    obtain ⟨hcolon, hheld⟩ := hkeys key List.mem_cons_self
    obtain ⟨m, hrelease, hm⟩ := release_ok key (cached_of_holds hheld)
    have hnow := indexed_release h hcolon (alone_of_indexed h hcolon hheld) hm
    have hrest : ∀ k ∈ keys, ':' ∈ k ∧ Holds m k mediaId := fun k hk =>
      ⟨(hkeys k (List.mem_cons_of_mem key hk)).1,
        (hm k mediaId).mpr ⟨(hkeys k (List.mem_cons_of_mem key hk)).2, fun he => hfresh (he.1 ▸ hk)⟩⟩
    obtain ⟨t, ht, hindexed, hholds⟩ := ih hnow hnodup hrest
    refine ⟨t, by simp only [releaseAll, hrelease, ht], hindexed, fun k id => ?_⟩
    rw [hholds, hm, List.mem_cons]
    tauto

variable {orders : Text → List Text}

theorem releaseOrphaned_indexed (h : Indexed s) (hdistinct : (entries.map Prod.fst).Nodup)
    (hkeys : ∀ e ∈ entries, (orders e.1).Nodup ∧
      ∀ key ∈ orders e.1, ':' ∈ key ∧ Holds s.mediaManager key e.1) :
    ∃ t, releaseOrphaned orders entries s = .ok t ∧ Indexed t := by
  induction entries generalizing s with
  | nil => exact ⟨s, rfl, h⟩
  | cons e entries ih =>
    obtain ⟨hfresh, hdistinct⟩ := List.nodup_cons.mp hdistinct
    obtain ⟨hnodup, hheld⟩ := hkeys e List.mem_cons_self
    obtain ⟨t, ht, hindexed, hholds⟩ := releaseAll_indexed h hnodup hheld
    have hrest : ∀ f ∈ entries, (orders f.1).Nodup ∧ ∀ key ∈ orders f.1, ':' ∈ key ∧ Holds t.mediaManager key f.1 := by
      intro f hf
      obtain ⟨hnodup, hheld⟩ := hkeys f (List.mem_cons_of_mem e hf)
      refine ⟨hnodup, fun key hkey => ⟨(hheld key hkey).1, (hholds key f.1).mpr ⟨(hheld key hkey).2, ?_⟩⟩⟩
      exact fun he => hfresh (he.2 ▸ List.mem_map_of_mem hf)
    obtain ⟨u, hu, hindexed⟩ := ih hindexed hdistinct hrest
    exact ⟨u, by simp only [releaseOrphaned, ht, hu], hindexed⟩

theorem cleanup_indexed {providers : Finset Text} (h : Indexed s)
    (horders : Enumerates providers orders s.mediaManager.metadataCache.entries) :
    ∃ t, releaseOrphaned orders s.mediaManager.metadataCache.entries s = .ok t ∧ Indexed t := by
  refine releaseOrphaned_indexed h s.mediaManager.metadataCache.distinct (fun e he => ?_)
  obtain ⟨hnodup, hset⟩ := horders e he
  refine ⟨hnodup, fun key hkey => ?_⟩
  rw [← List.mem_toFinset, hset, Finset.mem_filter] at hkey
  obtain ⟨hmem, provider, hprovider, _⟩ := hkey
  exact ⟨colon_mem_of_providerName hprovider, holds_iff_mem.mpr ⟨e, he, rfl, hmem⟩⟩

theorem indexed_registerMedia {format : Text} (h : Indexed s) : Indexed (registerMedia s mediaId format) := by
  unfold registerMedia
  split
  · exact h
  · next hnew =>
    intro key id
    dsimp only
    rw [h, holds_saveMetadata]
    split
    · next hid =>
      subst hid
      refine and_congr_right (fun _ => ⟨fun hheld => absurd (cached_of_holds hheld) hnew, fun hmem => ?_⟩)
      exact absurd hmem (Finset.notMem_empty key)
    · exact Iff.rfl

theorem agrees_iff_of {p : Prop} (hkeep : p → Indexed t) (hneed : Agrees t → p) :
    (Agrees t ↔ p) ∧ (p → Indexed t) :=
  ⟨⟨hneed, fun hp => agrees_of_indexed (hkeep hp)⟩, hkeep⟩

variable (h : Indexed s)

include h

theorem registerReference_agrees_iff
    (ht : t = attempt s (registerReference s mediaId provider referenceKey)) :
    (Agrees t ↔ Careful s (.registerReference mediaId provider referenceKey)) ∧
      (Careful s (.registerReference mediaId provider referenceKey) → Indexed t) := by
  unfold registerReference at ht
  by_cases hc : cached s mediaId
  · obtain ⟨m, hadd⟩ := addReference_ok (fullReferenceKey provider referenceKey) hc
    simp only [hc, if_true, hadd, attempt] at ht
    subst ht
    refine agrees_iff_of (fun hok => ?_) (fun hagrees _ => ?_)
    · exact indexed_enter h (colon_mem_fullReferenceKey _ _) (hok hc) (fun _ _ => holds_addReference hadd)
    · exact alone_of_agrees_enter hagrees (fun _ _ => holds_addReference hadd)
  · simp only [hc, if_false, attempt] at ht
    subst ht
    exact agrees_iff_of (fun _ => h) (fun _ hcached => absurd hcached hc)

theorem removeReference_agrees_iff
    (ht : t = attempt s (removeReference s mediaId provider referenceKey)) :
    (Agrees t ↔ Careful s (.removeReference mediaId provider referenceKey)) ∧
      (Careful s (.removeReference mediaId provider referenceKey) → Indexed t) := by
  unfold removeReference at ht
  by_cases hc : cached s mediaId
  · obtain ⟨m, hrelease, hm⟩ := release_ok (fullReferenceKey provider referenceKey) hc
    simp only [hc, if_true, hrelease, attempt] at ht
    subst ht
    refine agrees_iff_of (fun hok => ?_) (fun hagrees _ => ?_)
    · exact indexed_release h (colon_mem_fullReferenceKey _ _) (hok hc) hm
    · exact alone_of_agrees_release hagrees hm
  · simp only [hc, if_false, attempt] at ht
    subst ht
    exact agrees_iff_of (fun _ => h) (fun _ hcached => absurd hcached hc)

theorem cleanup_next_indexed {providers : Finset Text}
    (ht : next s (.cleanupOrphanedReferences providers orders) = some t) : Indexed t := by
  rw [next] at ht
  split at ht
  · next horders =>
    obtain ⟨u, hu, hindexed⟩ := cleanup_indexed h horders
    cases ht
    rw [hu]
    exact hindexed
  · cases ht

theorem rebuild_indexed {library : Dict Text MediaMetadata}
    (ht : next s (.rebuild library) = some t) : Indexed t := by
  rw [next] at ht
  split at ht
  · next hperm =>
    cases ht
    refine indexed_started (unshared_iff.mpr (fun key first second hcolon hfirst hsecond => ?_))
    exact unshared_iff.mp (unshared_of_agrees (agrees_of_indexed h)) key first second hcolon
      ((holds_perm hperm).mp hfirst) ((holds_perm hperm).mp hsecond)
  · cases ht

theorem next_agrees_iff {call : Call} (ht : next s call = some t) :
    (Agrees t ↔ Careful s call) ∧ (Careful s call → Indexed t) := by
  cases call with
  | registerReference mediaId provider referenceKey => exact registerReference_agrees_iff h (Option.some.inj ht).symm
  | removeReference mediaId provider referenceKey => exact removeReference_agrees_iff h (Option.some.inj ht).symm
  | cleanupOrphanedReferences providers orders =>
    exact agrees_iff_of (fun _ => cleanup_next_indexed h ht) (fun _ => trivial)
  | rebuild library => exact agrees_iff_of (fun _ => rebuild_indexed h ht) (fun _ => trivial)
  | registerMedia mediaId format =>
    cases ht
    exact agrees_iff_of (fun _ => indexed_registerMedia h) (fun _ => trivial)

omit h

/-- Index and metadata agree at the start and after every call exactly when the media share no
reference at the start and every call is careful. -/
theorem references_agree_iff (m : MediaManager) (calls : List Call) (s : MediaCarrierService)
    (hs : exec next (started m) calls = some s) :
    (Agrees (started m) ∧ Along next (fun s call => ∀ t, next s call = some t → Agrees t) (started m) calls) ↔
      Unshared m ∧ Along next Careful (started m) calls := by
  rw [agrees_started_iff]
  refine and_congr_right (fun hm => along_iff_of_exec next (I := Indexed) (fun s call t h ht => ?_)
    (indexed_started hm) hs)
  obtain ⟨hagrees, hkeep⟩ := next_agrees_iff h ht
  refine ⟨?_, hkeep⟩
  rw [← hagrees]
  refine ⟨fun hafter => hafter t ht, fun hafter u hu => ?_⟩
  cases ht.symm.trans hu
  exact hafter

def pictures : MediaManager where
  metadataCache := (Dict.empty.set "cat".toList ⟨"png".toList, ∅⟩).set "dog".toList ⟨"png".toList, ∅⟩
  files := {("cat".toList, "png".toList), ("dog".toList, "png".toList)}

def oneOwnerEach : List Call :=
  [.registerReference "cat".toList "memory".toList "group".toList,
    .registerReference "dog".toList "memory".toList "private".toList,
    .removeReference "cat".toList "memory".toList "group".toList,
    .cleanupOrphanedReferences ∅ (fun _ => ["memory:private".toList])]

theorem references_agree_iff_oneOwnerEach : ∃ s, exec next (started pictures) oneOwnerEach = some s ∧
    Agrees (started pictures) ∧
      Along next (fun s call => ∀ t, next s call = some t → Agrees t) (started pictures) oneOwnerEach :=
  ⟨_, rfl, (references_agree_iff pictures oneOwnerEach _ rfl).mpr (by decide +kernel)⟩

def oneMemory : List Call :=
  [.registerReference "cat".toList "memory".toList "group".toList,
    .registerReference "dog".toList "memory".toList "group".toList]

/-- The first picture of the memory is not returned. -/
theorem references_disagree : ∃ s, exec next (started pictures) oneMemory = some s ∧
    getMediaByReference s "memory".toList "group".toList = ["dog".toList] ∧
    Holds s.mediaManager "memory:group".toList "cat".toList ∧ ¬ Agrees s := by
  refine ⟨_, rfl, by decide +kernel, ⟨⟨"png".toList, {"memory:group".toList}⟩, by decide +kernel⟩, fun h => ?_⟩
  have hfound := (h "memory".toList "group".toList "cat".toList).mpr
    ⟨⟨"png".toList, {"memory:group".toList}⟩, by decide +kernel⟩
  revert hfound
  decide +kernel

end Kirara.MediaCarriers
