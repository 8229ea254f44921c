import Kirara.PriceSyncs

namespace Kirara.PriceSyncEffects

open Kirara.Channels Kirara.Dicts Kirara.Dicts.Dict Kirara.Pricing Kirara.PriceCatalogs Kirara.PriceInvariants
open Kirara.PriceSyncs
open Kirara.PriceInterleavings (addToMapping_eq_ok)

section Entries

variable {decimalOf : Text → Option Decimal} {document : UpstreamDocument} {only : Option (List Text)}
  {e : UpstreamPriceEntry}

theorem parseModel_eq {providerId modelId : Text} {model : ModelNode}
    (h : parseModel decimalOf providerId modelId model = some e) :
    e.pair = (providerId, modelId) ∧ e.key = providerId ++ '/' :: modelId := by
  unfold parseModel at h
  split at h
  · cases h
  split at h
  · cases h
  · cases h
    exact ⟨rfl, rfl⟩

theorem mem_parseProvider {providerId : Text} {provider : ProviderNode}
    (h : e ∈ parseProvider decimalOf providerId provider) :
    e.provider = providerId ∧ e.key = e.provider ++ '/' :: e.model := by
  unfold parseProvider at h
  split at h
  · cases h
  obtain ⟨m, _, hm⟩ := List.mem_filterMap.mp h
  obtain ⟨node, _, hnode⟩ := Option.bind_eq_some_iff.mp hm
  obtain ⟨hpair, hkey⟩ := parseModel_eq hnode
  obtain ⟨hprovider, hmodel⟩ := Prod.mk.inj hpair
  exact ⟨hprovider, by rw [hkey, hprovider, hmodel]⟩

theorem pairwise_parseProvider (providerId : Text) (provider : ProviderNode) :
    (parseProvider decimalOf providerId provider).Pairwise (fun e f => e.pair ≠ f.pair) := by
  unfold parseProvider
  split
  · exact List.Pairwise.nil
  · next models _ =>
    have hmodels : models.entries.Pairwise (fun m n => m.1 ≠ n.1) := List.pairwise_map.mp models.distinct
    refine hmodels.filterMap _ (fun m n hne e he f hf => ?_)
    obtain ⟨_, _, he⟩ := Option.bind_eq_some_iff.mp he
    obtain ⟨_, _, hf⟩ := Option.bind_eq_some_iff.mp hf
    rw [(parseModel_eq he).1, (parseModel_eq hf).1]
    exact fun h => hne (Prod.mk.inj h).2

theorem mem_parseUpstreamCatalog (h : e ∈ parseUpstreamCatalog decimalOf document) :
    ∃ providerId provider, e ∈ parseProvider decimalOf providerId provider := by
  cases document with
  | none => cases h
  | some providers =>
    obtain ⟨p, _, hp⟩ := List.mem_flatMap.mp h
    cases hprovider : p.2 with
    | none =>
      rw [hprovider] at hp
      cases hp
    | some provider =>
      rw [hprovider] at hp
      exact ⟨p.1, provider, hp⟩

theorem pairwise_parseUpstreamCatalog :
    (parseUpstreamCatalog decimalOf document).Pairwise (fun e f => e.pair ≠ f.pair) := by
  cases document with
  | none => exact List.Pairwise.nil
  | some providers =>
    have hproviders : providers.entries.Pairwise (fun p q => p.1 ≠ q.1) := List.pairwise_map.mp providers.distinct
    have hprovider : ∀ {p : Text × Option ProviderNode} {e : UpstreamPriceEntry},
        e ∈ (p.2.map (parseProvider decimalOf p.1)).getD [] → e.provider = p.1 := by
      intro p e he
      cases hnode : p.2 with
      | none =>
        rw [hnode] at he
        cases he
      | some provider =>
        rw [hnode] at he
        exact (mem_parseProvider he).1
    refine List.pairwise_flatMap.mpr ⟨fun p _ => ?_, hproviders.imp (fun hne e he f hf h => hne ?_)⟩
    · cases p.2 with
      | none => exact List.Pairwise.nil
      | some provider => exact pairwise_parseProvider p.1 provider
    · rw [← hprovider he, ← hprovider hf]
      exact (Prod.mk.inj h).1

theorem wanted_sublist (es : List UpstreamPriceEntry) : (wanted only es).Sublist es := by
  cases only with
  | none => exact List.Sublist.refl es
  | some keys => exact List.filter_sublist

theorem key_of_wanted (h : e ∈ wanted only (parseUpstreamCatalog decimalOf document)) :
    e.key = e.provider ++ '/' :: e.model := by
  obtain ⟨_, _, hp⟩ := mem_parseUpstreamCatalog ((wanted_sublist _).subset h)
  exact (mem_parseProvider hp).2

theorem pairwise_wanted :
    (wanted only (parseUpstreamCatalog decimalOf document)).Pairwise (fun e f => e.pair ≠ f.pair) :=
  pairwise_parseUpstreamCatalog.sublist (wanted_sublist _)

/-- A slash of the one pair stands where the provider of the other ends. -/
def Straddles (e f : UpstreamPriceEntry) : Prop :=
  ∃ x, f.provider = e.provider ++ '/' :: x ∧ e.model = x ++ '/' :: f.model

theorem joined_eq_iff {p m q n : Text} : p ++ '/' :: m = q ++ '/' :: n ↔
    (p = q ∧ m = n) ∨ (∃ x, q = p ++ '/' :: x ∧ m = x ++ '/' :: n) ∨ ∃ x, p = q ++ '/' :: x ∧ n = x ++ '/' :: m := by
  constructor
  · intro h
    cases List.append_eq_append_iff.mp h with
    | inl hlong =>
      obtain ⟨front, hq, hm⟩ := hlong
      cases front with
      | nil => exact .inl ⟨by rw [hq, List.append_nil], (List.cons.inj hm).2⟩
      | cons c x =>
        obtain ⟨rfl, hrest⟩ := List.cons.inj hm
        exact .inr (.inl ⟨x, hq, hrest⟩)
    | inr hshort =>
      obtain ⟨front, hp, hn⟩ := hshort
      cases front with
      | nil => exact .inl ⟨by rw [hp, List.append_nil], (List.cons.inj hn).2.symm⟩
      | cons c x =>
        obtain ⟨rfl, hrest⟩ := List.cons.inj hn
        exact .inr (.inr ⟨x, hp, hrest⟩)
  · intro h
    obtain ⟨rfl, rfl⟩ | ⟨x, rfl, rfl⟩ | ⟨x, rfl, rfl⟩ := h
    · rfl
    · simp
    · simp

theorem versionId_inj {f : UpstreamPriceEntry} : e.versionId = f.versionId ↔ e.key = f.key :=
  ⟨fun h => List.append_cancel_left h, fun h => by rw [UpstreamPriceEntry.versionId, h]; rfl⟩

theorem same_id_iff {f : UpstreamPriceEntry} (he : e.key = e.provider ++ '/' :: e.model)
    (hf : f.key = f.provider ++ '/' :: f.model) :
    e.versionId = f.versionId ↔ e.pair = f.pair ∨ Straddles e f ∨ Straddles f e := by
  rw [versionId_inj, he, hf, joined_eq_iff]
  have hpair : e.pair = f.pair ↔ e.provider = f.provider ∧ e.model = f.model := Prod.ext_iff
  rw [hpair, Straddles, Straddles]

end Entries

section Steps

variable {currency : Text} {existing : Dict Text PriceVersion} {run : Run} {e : UpstreamPriceEntry} {s t : Progress}
  {v : PriceVersion}

variable (existing) in
/-- An entry that is not kept by hand and whose price is not there. -/
def Wants (e : UpstreamPriceEntry) : Prop :=
  e.pair ∉ manualKeys existing ∧ ∀ current, existing.get e.versionId = some current → isSamePrice current e = false

instance (e : UpstreamPriceEntry) : Decidable (Wants existing e) :=
  decidable_of_iff (e.pair ∉ manualKeys existing ∧
      (existing.get e.versionId).all (fun current => isSamePrice current e = false))
    (and_congr_right (fun _ => by simp [Option.all_eq_true]))

variable (currency existing run) in
/-- An entry at which a `ValidationError` is raised. -/
def Raises (e : UpstreamPriceEntry) : Prop := Wants existing e ∧ versionOf currency run.syncedAt e = none

instance (e : UpstreamPriceEntry) : Decidable (Raises currency existing run e) :=
  inferInstanceAs (Decidable (_ ∧ _))

theorem not_wants_iff : ¬ Wants existing e ↔
    e.pair ∈ manualKeys existing ∨ (existing.get e.versionId).any (fun current => isSamePrice current e) = true := by
  rw [Wants, not_and_or, not_not]
  refine or_congr_right ?_
  cases existing.get e.versionId <;> simp

theorem versionOf_eq_some (h : versionOf currency run.syncedAt e = some v) :
    v.versionId = e.versionId ∧ slot v = (e.provider, e.model, run.syncedAt) ∧ isSamePrice v e = true := by
  unfold versionOf at h
  split at h
  · cases h
  · cases h
    exact ⟨rfl, rfl, by simp [isSamePrice, sameNumber]⟩

theorem applyEntry_versions : (applyEntry currency existing run e s).map Progress.versions =
    if Wants existing e then
      (versionOf currency run.syncedAt e).map (fun v =>
        match written existing s.versions v with
        | .error _ => s.versions
        | .ok versions => if run.commits e then versions else s.versions)
    else some s.versions := by
  unfold applyEntry
  by_cases hmanual : e.pair ∈ manualKeys existing
  · rw [if_pos hmanual, if_neg (fun h => h.1 hmanual)]
    rfl
  · rw [if_neg hmanual]
    by_cases hsame : (existing.get e.versionId).any (fun current => isSamePrice current e) = true
    · rw [if_pos hsame, if_neg (not_wants_iff.mpr (.inr hsame))]
      rfl
    · rw [if_neg hsame, if_pos (not_not.mp (fun h => (not_wants_iff.mp h).elim hmanual hsame))]
      cases versionOf currency run.syncedAt e with
      | none => rfl
      | some v =>
        rw [Option.map_some]
        dsimp only
        cases written existing s.versions v with
        | error error => rfl
        | ok versions =>
          dsimp only
          split <;> rfl

theorem applyEntry_some (h : applyEntry currency existing run e s = some t) : some t.versions =
    if Wants existing e then
      (versionOf currency run.syncedAt e).map (fun v =>
        match written existing s.versions v with
        | .error _ => s.versions
        | .ok versions => if run.commits e then versions else s.versions)
    else some s.versions := by
  rw [← applyEntry_versions, h, Option.map_some]

theorem applyEntry_eq_none : applyEntry currency existing run e s = none ↔ Raises currency existing run e := by
  rw [← Option.map_eq_none_iff (f := Progress.versions), applyEntry_versions, Raises]
  by_cases h : Wants existing e
  · rw [if_pos h, Option.map_eq_none_iff]
    exact (and_iff_right h).symm
  · rw [if_neg h]
    exact iff_of_false nofun (fun hr => h hr.1)

variable {versions new : Dict Text PriceVersion}

theorem get_written (h : written existing versions v = .ok new) :
    ∀ id, new.get id = if id = v.versionId then some v else versions.get id := by
  intro id
  unfold written at h
  split at h
  · rw [(addToMapping_ok h).2.2, get_set]
  unfold updateMapping at h
  split at h
  · rw [(addToMapping_ok h).2.2, get_set, get_pop]
    split <;> rfl
  · cases h

theorem valid_written (hv : Valid versions) (h : written existing versions v = .ok new) : Valid new := by
  unfold written at h
  split at h
  · exact valid_add hv h
  unfold updateMapping at h
  split at h
  · exact valid_add (valid_pop hv _) h
  · cases h

theorem written_ok {versions : Dict Text PriceVersion} (hid : versions.get v.versionId = existing.get v.versionId)
    (hslot : ∀ w ∈ versions.values, slot w ≠ slot v) : ∃ new, written existing versions v = .ok new := by
  unfold written
  cases h : existing.get v.versionId with
  | none =>
    have hnew : v.versionId ∉ versions.keys := by
      rw [← isSome_get_iff, hid, h]
      exact Bool.false_ne_true
    exact ⟨_, addToMapping_eq_ok hnew hslot⟩
  | some current =>
    have hold : v.versionId ∈ versions.keys := by
      rw [← isSome_get_iff, hid, h]
      rfl
    have hnew : v.versionId ∉ (versions.pop v.versionId).keys := fun hm => (mem_keys_pop.mp hm).2 rfl
    have hfree : ∀ w ∈ (versions.pop v.versionId).values, slot w ≠ slot v := by
      intro w hw
      obtain ⟨l, hl⟩ := mem_values_iff.mp hw
      rw [get_pop] at hl
      split at hl
      · cases hl
      · exact hslot w (mem_values_iff.mpr ⟨l, hl⟩)
    dsimp only
    rw [updateMapping, if_pos hold]
    exact ⟨_, addToMapping_eq_ok hnew hfree⟩

theorem applyEntry_frame (h : applyEntry currency existing run e s = some t) :
    (∀ id, id ≠ e.versionId → t.versions.get id = s.versions.get id) ∧ (Valid s.versions → Valid t.versions) := by
  have hversions := applyEntry_some h
  by_cases hw : Wants existing e
  · rw [if_pos hw] at hversions
    obtain ⟨v, hv, hstep⟩ := Option.map_eq_some_iff.mp hversions.symm
    obtain ⟨hid, _, _⟩ := versionOf_eq_some hv
    cases hwritten : written existing s.versions v with
    | error error =>
      rw [hwritten] at hstep
      exact hstep ▸ ⟨fun _ _ => rfl, fun hs => hs⟩
    | ok new =>
      rw [hwritten] at hstep
      dsimp only at hstep
      split at hstep
      · rw [← hstep]
        refine ⟨fun id hne => ?_, fun hs => valid_written hs hwritten⟩
        rw [get_written hwritten, if_neg (hid ▸ hne)]
      · exact hstep ▸ ⟨fun _ _ => rfl, fun hs => hs⟩
  · rw [if_neg hw] at hversions
    rw [Option.some.inj hversions]
    exact ⟨fun _ _ => rfl, fun hs => hs⟩

theorem applyEntry_get (h : applyEntry currency existing run e s = some t)
    (hid : s.versions.get e.versionId = existing.get e.versionId)
    (hslot : ∀ w ∈ s.versions.values, slot w ≠ (e.provider, e.model, run.syncedAt)) :
    t.versions.get e.versionId =
      if Wants existing e ∧ run.commits e = true then versionOf currency run.syncedAt e else s.versions.get e.versionId := by
  have hversions := applyEntry_some h
  by_cases hw : Wants existing e
  · rw [if_pos hw] at hversions
    obtain ⟨v, hv, hstep⟩ := Option.map_eq_some_iff.mp hversions.symm
    obtain ⟨hvid, hvslot, _⟩ := versionOf_eq_some hv
    obtain ⟨new, hwritten⟩ := written_ok (hvid ▸ hid) (hvslot ▸ hslot)
    rw [hwritten] at hstep
    dsimp only at hstep
    by_cases hcommits : run.commits e = true
    · rw [if_pos hcommits] at hstep
      rw [if_pos ⟨hw, hcommits⟩, ← hstep, get_written hwritten, if_pos hvid.symm, hv]
    · rw [if_neg hcommits] at hstep
      rw [if_neg (fun hboth => hcommits hboth.2), hstep]
  · rw [if_neg hw] at hversions
    rw [if_neg (fun hboth => hw hboth.1), Option.some.inj hversions]

end Steps

section Loops

variable {currency : Text} {existing : Dict Text PriceVersion} {run : Run} {es : List UpstreamPriceEntry} {s : Progress}

variable (currency existing run) in
/-- The entries before the first one that raises. -/
def reached (es : List UpstreamPriceEntry) : List UpstreamPriceEntry :=
  es.takeWhile (fun e => ¬ Raises currency existing run e)

theorem mem_of_reached {e : UpstreamPriceEntry} (h : e ∈ reached currency existing run es) : e ∈ es :=
  (List.takeWhile_sublist _).subset h

theorem not_raises_of_reached {e : UpstreamPriceEntry} (h : e ∈ reached currency existing run es) :
    ¬ Raises currency existing run e := by
  simpa using List.mem_takeWhile_imp h

theorem applyEntries_frame : (∀ id, (∀ e ∈ es, e.versionId ≠ id) →
      (applyEntries currency existing run es s).2.versions.get id = s.versions.get id) ∧
    (Valid s.versions → Valid (applyEntries currency existing run es s).2.versions) := by
  induction es generalizing s with
  | nil => exact ⟨fun _ _ => rfl, fun hs => hs⟩
  | cons e es ih =>
    unfold applyEntries
    cases h : applyEntry currency existing run e s with
    | none => exact ⟨fun _ _ => rfl, fun hs => hs⟩
    | some t =>
      obtain ⟨hframe, hvalid⟩ := applyEntry_frame h
      obtain ⟨hrest, hrestValid⟩ := ih (s := t)
      refine ⟨fun id hid => ?_, fun hs => hrestValid (hvalid hs)⟩
      exact (hrest id (fun f hf => hid f (List.mem_cons_of_mem e hf))).trans
        (hframe id (Ne.symm (hid e List.mem_cons_self)))

theorem applyEntries_still (h : ∀ e ∈ reached currency existing run es, ¬ Wants existing e) :
    (applyEntries currency existing run es s).2.versions = s.versions := by
  induction es generalizing s with
  | nil => rfl
  | cons e es ih =>
    unfold applyEntries
    cases hstep : applyEntry currency existing run e s with
    | none => rfl
    | some t =>
      have hraises : ¬ Raises currency existing run e := fun hr => by
        rw [applyEntry_eq_none.mpr hr] at hstep
        cases hstep
      have hreached : reached currency existing run (e :: es) = e :: reached currency existing run es :=
        List.takeWhile_cons_of_pos (by simpa using hraises)
      rw [hreached] at h
      have hversions := applyEntry_some hstep
      rw [if_neg (h e List.mem_cons_self)] at hversions
      exact (ih (fun f hf => h f (List.mem_cons_of_mem e hf))).trans (Option.some.inj hversions)

/-- Entries with ids and pairs of their own, in a catalog the sync has not changed for them. -/
structure Ready (existing : Dict Text PriceVersion) (run : Run) (es : List UpstreamPriceEntry)
    (versions : Dict Text PriceVersion) : Prop where
  ids : es.Pairwise (fun e f => e.versionId ≠ f.versionId)
  pairs : es.Pairwise (fun e f => e.pair ≠ f.pair)
  found : ∀ e ∈ es, versions.get e.versionId = existing.get e.versionId
  free : ∀ e ∈ es, ∀ w ∈ versions.values, slot w ≠ (e.provider, e.model, run.syncedAt)

theorem applyEntries_get (h : Ready existing run es s.versions) : ∀ e ∈ es,
    (applyEntries currency existing run es s).2.versions.get e.versionId =
      if e ∈ reached currency existing run es ∧ Wants existing e ∧ run.commits e = true then
        versionOf currency run.syncedAt e
      else s.versions.get e.versionId := by
  induction es generalizing s with
  | nil => exact fun _ h => (nomatch h)
  | cons e es ih =>
    obtain ⟨hids, hpairs, hfound, hfree⟩ := h
    obtain ⟨hid, hids⟩ := List.pairwise_cons.mp hids
    obtain ⟨hpair, hpairs⟩ := List.pairwise_cons.mp hpairs
    have hne : ∀ f ∈ es, f ≠ e := fun f hf he => hid f hf (he ▸ rfl)
    unfold applyEntries
    cases hstep : applyEntry currency existing run e s with
    | none =>
      have hreached : reached currency existing run (e :: es) = [] :=
        List.takeWhile_cons_of_neg (by simpa using applyEntry_eq_none.mp hstep)
      intro f hf
      rw [hreached, if_neg (fun hboth => nomatch hboth.1)]
    | some t =>
      have hraises : ¬ Raises currency existing run e := fun hr => by
        rw [applyEntry_eq_none.mpr hr] at hstep
        cases hstep
      have hreached : reached currency existing run (e :: es) = e :: reached currency existing run es :=
        List.takeWhile_cons_of_pos (by simpa using hraises)
      obtain ⟨hframe, _⟩ := applyEntry_frame hstep
      have hget := applyEntry_get hstep (hfound e List.mem_cons_self) (hfree e List.mem_cons_self)
      have hready : Ready existing run es t.versions := by
        refine ⟨hids, hpairs, fun f hf => ?_, fun f hf w hw => ?_⟩
        · rw [hframe f.versionId (Ne.symm (hid f hf)), hfound f (List.mem_cons_of_mem e hf)]
        · have hold : w ∈ s.versions.values → slot w ≠ (f.provider, f.model, run.syncedAt) :=
            hfree f (List.mem_cons_of_mem e hf) w
          obtain ⟨l, hl⟩ := mem_values_iff.mp hw
          by_cases hle : l = e.versionId
          · rw [hle, hget] at hl
            split at hl
            · rw [(versionOf_eq_some hl).2.1]
              intro hslot
              exact hpair f hf (by simpa [UpstreamPriceEntry.pair] using hslot)
            · exact hold (mem_values_iff.mpr ⟨_, hl⟩)
          · rw [hframe l hle] at hl
            exact hold (mem_values_iff.mpr ⟨l, hl⟩)
      intro f hf
      rw [hreached]
      cases List.mem_cons.mp hf with
      | inl he =>
        subst he
        rw [applyEntries_frame.1 f.versionId (fun g hg => Ne.symm (hid g hg)), hget]
        simp
      | inr hm =>
        rw [ih hready f hm, hframe f.versionId (Ne.symm (hid f hm))]
        simp [hne f hm]

theorem existingOf_valid {versions : Dict Text PriceVersion} (h : Valid versions) : existingOf versions = versions := by
  have hkeyed : versions.values.foldl (fun d v => d.set v.versionId v) (Dict.empty : Dict Text PriceVersion) =
      versions.entries.foldl (fun d p => d.set p.1 p.2) .empty := by
    rw [Dict.values, List.foldl_map]
    refine List.foldl_ext _ _ _ (fun d p hp => ?_)
    rw [h.keyed p hp]
  refine Dict.ext ?_
  rw [existingOf, byId, hkeyed, foldl_set_entries (by exact versions.distinct)]
  rfl

theorem resolve_congr {d d' : Dict Text PriceVersion} {t : Int} (hd : Valid d) (hd' : Valid d')
    (h : ∀ v, v.effectiveFrom ≤ t → (v ∈ d'.values ↔ v ∈ d.values)) (p m : Text) :
    resolve d'.values p m t = resolve d.values p m t := by
  have hfound : ∀ v, resolve d'.values p m t = .ok v ↔ resolve d.values p m t = .ok v := by
    intro v
    rw [(priced_of_valid hd).found, (priced_of_valid hd').found]
    constructor
    · intro ⟨hv, hmatch, hlatest⟩
      exact ⟨(h v hmatch.2.2).mp hv, hmatch, fun w hw hm => hlatest w ((h w hm.2.2).mpr hw) hm⟩
    · intro ⟨hv, hmatch, hlatest⟩
      exact ⟨(h v hmatch.2.2).mpr hv, hmatch, fun w hw hm => hlatest w ((h w hm.2.2).mp hw) hm⟩
  cases hr : resolve d.values p m t with
  | ok v => exact (hfound v).mpr hr
  | error error =>
    cases resolve_error hr
    cases hr' : resolve d'.values p m t with
    | ok v => exact absurd ((hfound v).mp hr') (by rw [hr]; nofun)
    | error error =>
      cases resolve_error hr'
      rfl

end Loops

section Effects

variable (currency : Text) (decimalOf : Text → Option Decimal) (document : UpstreamDocument) (only : Option (List Text))
  (run : Run) (d : Dict Text PriceVersion)

def entries : List UpstreamPriceEntry := wanted only (parseUpstreamCatalog decimalOf document)

def synced : Dict Text PriceVersion := (sync currency decimalOf document only run d).2.versions

/-- What a sync promises of users' prices, of a second sync and of the past. -/
structure Harmless : Prop where
  manual : ∀ id v, d.get id = some v → isManual v = true → (synced currency decimalOf document only run d).get id = some v
  settled : ∀ later, run.syncedAt < later.syncedAt →
    synced currency decimalOf document only later (synced currency decimalOf document only run d) =
      synced currency decimalOf document only run d
  distinct : ∀ e ∈ entries decimalOf document only, ∀ f ∈ entries decimalOf document only,
    e.versionId = f.versionId → e.pair = f.pair
  own : ∀ e ∈ entries decimalOf document only, ∀ v, d.get e.versionId = some v → (v.provider, v.model) = e.pair
  past : ∀ p m t, t < run.syncedAt →
    resolve (synced currency decimalOf document only run d).values p m t = resolve d.values p m t

/-- The document brings new prices only, which can be written, and joins no two pairs to one key. -/
structure Additive : Prop where
  apart : ∀ e ∈ entries decimalOf document only, ∀ f ∈ entries decimalOf document only, ¬ Straddles e f
  own : ∀ e ∈ entries decimalOf document only, ∀ v, d.get e.versionId = some v → (v.provider, v.model) = e.pair
  unchanged : ∀ e ∈ reached currency d run (entries decimalOf document only), e.pair ∉ manualKeys d →
    ∀ v, d.get e.versionId = some v → isSamePrice v e = true
  committed : ∀ e ∈ reached currency d run (entries decimalOf document only), e.pair ∉ manualKeys d →
    d.get e.versionId = none → run.commits e = true

variable {currency decimalOf document only run d}

theorem synced_eq (hd : Valid d) : synced currency decimalOf document only run d =
    (applyEntries currency d run (entries decimalOf document only) ⟨d, ⟨0, 0, 0, []⟩⟩).2.versions := by
  rw [synced, sync, existingOf_valid hd]
  rfl

theorem valid_synced (hd : Valid d) : Valid (synced currency decimalOf document only run d) :=
  synced_eq hd ▸ applyEntries_frame.2 hd

theorem ready_entries (hT : ∀ v ∈ d.values, v.effectiveFrom < run.syncedAt)
    (hids : ∀ e ∈ entries decimalOf document only, ∀ f ∈ entries decimalOf document only,
      e.versionId = f.versionId → e.pair = f.pair) : Ready d run (entries decimalOf document only) d where
  ids := pairwise_wanted.imp_of_mem (fun he hf hne h => hne (hids _ he _ hf h))
  pairs := pairwise_wanted
  found _ _ := rfl
  free e _ w hw hslot := by
    have htime : w.effectiveFrom = run.syncedAt := (Prod.mk.inj (Prod.mk.inj hslot).2).2
    exact absurd (hT w hw) (by omega)

variable {e : UpstreamPriceEntry}

theorem get_synced (hd : Valid d) (hready : Ready d run (entries decimalOf document only) d)
    (he : e ∈ entries decimalOf document only) :
    (synced currency decimalOf document only run d).get e.versionId =
      if e ∈ reached currency d run (entries decimalOf document only) ∧ Wants d e ∧ run.commits e = true then
        versionOf currency run.syncedAt e
      else d.get e.versionId := by
  rw [synced_eq hd]
  exact applyEntries_get hready e he

theorem get_synced_of_ne (hd : Valid d) {id : Text} (h : ∀ e ∈ entries decimalOf document only, e.versionId ≠ id) :
    (synced currency decimalOf document only run d).get id = d.get id := by
  rw [synced_eq hd]
  exact applyEntries_frame.1 id h

variable {v : PriceVersion}

theorem not_manual (h : v.versionId = e.versionId) : isManual v = false := by
  rw [isManual, h, UpstreamPriceEntry.versionId, List.isPrefixOf_iff_prefix.mpr (List.prefix_append _ _)]
  rfl

theorem manual_kept (hd : Valid d) {id : Text} (h : d.get id = some v) (hm : isManual v = true) :
    (synced currency decimalOf document only run d).get id = some v := by
  rw [get_synced_of_ne hd, h]
  intro e _ he
  have hid : v.versionId = id := hd.keyed _ (get_eq_some_iff.mp h)
  rw [not_manual (hid.trans he.symm)] at hm
  cases hm

theorem mem_manualKeys_iff {pair : Text × Text} :
    pair ∈ manualKeys d ↔ ∃ id v, d.get id = some v ∧ isManual v = true ∧ (v.provider, v.model) = pair := by
  rw [manualKeys, List.mem_map]
  constructor
  · intro ⟨v, hv, hpair⟩
    obtain ⟨hmem, hm⟩ := List.mem_filter.mp hv
    obtain ⟨id, hid⟩ := mem_values_iff.mp hmem
    exact ⟨id, v, hid, hm, hpair⟩
  · intro ⟨id, v, hid, hm, hpair⟩
    exact ⟨v, List.mem_filter.mpr ⟨mem_values_iff.mpr ⟨id, hid⟩, hm⟩, hpair⟩

theorem get_synced_cases (hd : Valid d) (hready : Ready d run (entries decimalOf document only) d) {id : Text}
    (h : (synced currency decimalOf document only run d).get id = some v) :
    d.get id = some v ∨ ∃ e ∈ entries decimalOf document only, id = e.versionId ∧ Wants d e ∧
      versionOf currency run.syncedAt e = some v := by
  by_cases hmem : ∃ e ∈ entries decimalOf document only, id = e.versionId
  · obtain ⟨e, he, rfl⟩ := hmem
    rw [get_synced hd hready he] at h
    split at h
    · next hwritten => exact .inr ⟨e, he, rfl, hwritten.2.1, h⟩
    · exact .inl h
  · rw [get_synced_of_ne hd (fun e he heq => hmem ⟨e, he, heq.symm⟩)] at h
    exact .inl h

theorem manualKeys_synced (hd : Valid d) (hready : Ready d run (entries decimalOf document only) d) {pair : Text × Text} :
    pair ∈ manualKeys (synced currency decimalOf document only run d) ↔ pair ∈ manualKeys d := by
  rw [mem_manualKeys_iff, mem_manualKeys_iff]
  constructor
  · intro ⟨id, v, hid, hm, hpair⟩
    refine ⟨id, v, (get_synced_cases hd hready hid).resolve_right (fun ⟨e, _, _, _, hv⟩ => ?_), hm, hpair⟩
    rw [not_manual (versionOf_eq_some hv).1] at hm
    cases hm
  · intro ⟨id, v, hid, hm, hpair⟩
    exact ⟨id, v, manual_kept hd hid hm, hm, hpair⟩

theorem versionOf_eq_none (t u : Int) : versionOf currency t e = none ↔ versionOf currency u e = none := by
  unfold versionOf
  split
  · exact Iff.rfl
  · exact iff_of_false nofun nofun

variable (hd : Valid d)

include hd

theorem wants_synced (hready : Ready d run (entries decimalOf document only) d)
    (he : e ∈ entries decimalOf document only) : Wants (synced currency decimalOf document only run d) e ↔
      Wants d e ∧ ¬ (e ∈ reached currency d run (entries decimalOf document only) ∧ run.commits e = true) := by
  rw [Wants, manualKeys_synced hd hready, get_synced hd hready he]
  by_cases hw : Wants d e
  · by_cases hwritten : e ∈ reached currency d run (entries decimalOf document only) ∧ run.commits e = true
    · rw [if_pos ⟨hwritten.1, hw, hwritten.2⟩]
      refine iff_of_false (fun h => ?_) (fun h => h.2 hwritten)
      have hraises := not_raises_of_reached hwritten.1
      obtain ⟨v, hv⟩ := Option.ne_none_iff_exists'.mp (fun hnone => hraises ⟨hw, hnone⟩)
      exact absurd (versionOf_eq_some hv).2.2 (by rw [h.2 v hv]; exact Bool.false_ne_true)
    · rw [if_neg (fun h => hwritten ⟨h.1, h.2.2⟩)]
      exact iff_of_true hw ⟨hw, hwritten⟩
  · rw [if_neg (fun h => hw h.2.1)]
    exact iff_of_false hw (fun h => hw h.1)

theorem reached_synced (hready : Ready d run (entries decimalOf document only) d) (later : Run) :
    reached currency (synced currency decimalOf document only run d) later (entries decimalOf document only) =
      reached currency d run (entries decimalOf document only) := by
  have hraises : ∀ e ∈ entries decimalOf document only,
      (Raises currency (synced currency decimalOf document only run d) later e ↔ Raises currency d run e) := by
    intro e he
    rw [Raises, Raises, wants_synced hd hready he, versionOf_eq_none later.syncedAt run.syncedAt]
    constructor
    · exact fun h => ⟨h.1.1, h.2⟩
    · intro h
      refine ⟨⟨h.1, fun hwritten => ?_⟩, h.2⟩
      exact not_raises_of_reached hwritten.1 h
  have hcongr : ∀ (es : List UpstreamPriceEntry) (p q : UpstreamPriceEntry → Bool), (∀ e ∈ es, p e = q e) →
      es.takeWhile p = es.takeWhile q := by
    intro es p q hpq
    induction es with
    | nil => rfl
    | cons e es ih =>
      rw [List.takeWhile_cons, List.takeWhile_cons, hpq e List.mem_cons_self,
        ih (fun f hf => hpq f (List.mem_cons_of_mem e hf))]
  exact hcongr _ _ _ (fun e he => decide_eq_decide.mpr (not_congr (hraises e he)))

theorem before_later (hready : Ready d run (entries decimalOf document only) d)
    (hT : ∀ v ∈ d.values, v.effectiveFrom < run.syncedAt) {later : Run} (hlater : run.syncedAt < later.syncedAt) :
    ∀ v ∈ (synced currency decimalOf document only run d).values, v.effectiveFrom < later.syncedAt := by
  intro v hv
  obtain ⟨id, hid⟩ := mem_values_iff.mp hv
  cases get_synced_cases hd hready hid with
  | inl hold => exact (hT v (mem_values_iff.mpr ⟨id, hold⟩)).trans hlater
  | inr hnew =>
    obtain ⟨e, _, _, _, hversion⟩ := hnew
    have hslot := (versionOf_eq_some hversion).2.1
    have htime : v.effectiveFrom = run.syncedAt := (Prod.mk.inj (Prod.mk.inj hslot).2).2
    omega

theorem commits_of_settled (hT : ∀ v ∈ d.values, v.effectiveFrom < run.syncedAt)
    (h : Harmless currency decimalOf document only run d)
    (he : e ∈ reached currency d run (entries decimalOf document only)) (hw : Wants d e) : run.commits e = true := by
  by_contra hcommits
  have hready := ready_entries hT h.distinct
  have hmem : e ∈ entries decimalOf document only := mem_of_reached he
  let later : Run := ⟨run.syncedAt + 1, fun _ => true⟩
  have hlater : run.syncedAt < later.syncedAt := by
    change run.syncedAt < run.syncedAt + 1
    omega
  have hd' : Valid (synced currency decimalOf document only run d) := valid_synced hd
  have hready' : Ready (synced currency decimalOf document only run d) later (entries decimalOf document only)
      (synced currency decimalOf document only run d) :=
    ready_entries (before_later hd hready hT hlater) h.distinct
  have hw' : Wants (synced currency decimalOf document only run d) e :=
    (wants_synced hd hready hmem).mpr ⟨hw, fun hwritten => hcommits hwritten.2⟩
  have hraises := not_raises_of_reached he
  obtain ⟨v, hv⟩ := Option.ne_none_iff_exists'.mp
    (fun hnone => hraises ⟨hw, (versionOf_eq_none later.syncedAt run.syncedAt).mp hnone⟩)
  have hget := @get_synced currency _ _ _ _ _ e hd' hready' hmem
  rw [if_pos ⟨by rw [reached_synced hd hready]; exact he, hw', rfl⟩, h.settled later hlater, hv,
    get_synced hd hready hmem, if_neg (fun hwritten => hcommits hwritten.2.2)] at hget
  have hold := hT v (mem_values_iff.mpr ⟨_, hget⟩)
  have hslot := (versionOf_eq_some hv).2.1
  have htime : v.effectiveFrom = later.syncedAt := (Prod.mk.inj (Prod.mk.inj hslot).2).2
  omega

theorem same_of_past (hT : ∀ v ∈ d.values, v.effectiveFrom < run.syncedAt)
    (h : Harmless currency decimalOf document only run d)
    (he : e ∈ reached currency d run (entries decimalOf document only)) (hw : Wants d e) : d.get e.versionId = none := by
  rw [Option.eq_none_iff_forall_ne_some]
  intro v hv
  have hready := ready_entries hT h.distinct
  have hmem : e ∈ entries decimalOf document only := mem_of_reached he
  have hvmem : v ∈ d.values := mem_values_iff.mpr ⟨_, hv⟩
  have hold : resolve d.values v.provider v.model v.effectiveFrom = .ok v :=
    ((priced_of_valid hd).found _ _ _ v).mpr ⟨hvmem, ⟨rfl, rfl, le_refl _⟩, fun w _ hm => hm.2.2⟩
  rw [← h.past _ _ _ (hT v hvmem)] at hold
  obtain ⟨id, hid⟩ := mem_values_iff.mp (resolve_mem hold).1
  have hkey : v.versionId = id := (valid_synced hd).keyed _ (get_eq_some_iff.mp hid)
  have hvid : v.versionId = e.versionId := hd.keyed _ (get_eq_some_iff.mp hv)
  rw [← hkey, hvid, get_synced hd hready hmem, if_pos ⟨he, hw, commits_of_settled hd hT h he hw⟩] at hid
  have hslot := (versionOf_eq_some hid).2.1
  have htime : v.effectiveFrom = run.syncedAt := (Prod.mk.inj (Prod.mk.inj hslot).2).2
  exact absurd (hT v hvmem) (by omega)

theorem additive_of_harmless (hT : ∀ v ∈ d.values, v.effectiveFrom < run.syncedAt)
    (h : Harmless currency decimalOf document only run d) : Additive currency decimalOf document only run d where
  apart e he f hf hs := by
    have hpair := h.distinct e he f hf ((same_id_iff (key_of_wanted he) (key_of_wanted hf)).mpr (.inr (.inl hs)))
    obtain ⟨x, hprovider, _⟩ := hs
    have hlength := congrArg List.length ((Prod.mk.inj hpair).1.trans hprovider)
    rw [List.length_append, List.length_cons] at hlength
    omega
  own := h.own
  unchanged e he hmanual v hv := by
    by_contra hne
    have hw : Wants d e := by
      refine ⟨hmanual, fun current hc => ?_⟩
      cases hv.symm.trans hc
      exact Bool.not_eq_true _ ▸ hne
    rw [same_of_past hd hT h he hw] at hv
    cases hv
  committed e he hmanual hnone := commits_of_settled hd hT h he ⟨hmanual, fun current hc => by
    rw [hnone] at hc
    cases hc⟩

omit hd

theorem distinct_of_additive (h : Additive currency decimalOf document only run d) :
    ∀ e ∈ entries decimalOf document only, ∀ f ∈ entries decimalOf document only,
      e.versionId = f.versionId → e.pair = f.pair := by
  intro e he f hf hid
  obtain hpair | hs | hs := (same_id_iff (key_of_wanted he) (key_of_wanted hf)).mp hid
  · exact hpair
  · exact absurd hs (h.apart e he f hf)
  · exact absurd hs (h.apart f hf e he)

theorem wants_of_additive (h : Additive currency decimalOf document only run d)
    (he : e ∈ reached currency d run (entries decimalOf document only)) (hw : Wants d e) :
    d.get e.versionId = none ∧ run.commits e = true := by
  have hnone : d.get e.versionId = none := by
    rw [Option.eq_none_iff_forall_ne_some]
    intro v hv
    exact absurd (h.unchanged e he hw.1 v hv) (by rw [hw.2 v hv]; exact Bool.false_ne_true)
  exact ⟨hnone, h.committed e he hw.1 hnone⟩

theorem harmless_of_additive (hd : Valid d) (hT : ∀ v ∈ d.values, v.effectiveFrom < run.syncedAt)
    (h : Additive currency decimalOf document only run d) : Harmless currency decimalOf document only run d := by
  have hready := ready_entries hT (distinct_of_additive h)
  refine ⟨fun id v hv hm => manual_kept hd hv hm, fun later hlater => ?_, distinct_of_additive h, h.own,
    fun p m t ht => resolve_congr hd (valid_synced hd) (fun v hvt => ?_) p m⟩
  · rw [synced_eq (valid_synced hd)]
    refine applyEntries_still (fun e he hw => ?_)
    rw [reached_synced hd hready] at he
    have hmem : e ∈ entries decimalOf document only := mem_of_reached he
    obtain ⟨hold, hnot⟩ := (wants_synced hd hready hmem).mp hw
    exact hnot ⟨he, (wants_of_additive h he hold).2⟩
  · constructor
    · intro hv
      obtain ⟨id, hid⟩ := mem_values_iff.mp hv
      refine mem_values_iff.mpr ⟨id, (get_synced_cases hd hready hid).resolve_right (fun ⟨e, _, _, _, hversion⟩ => ?_)⟩
      have hslot := (versionOf_eq_some hversion).2.1
      have htime : v.effectiveFrom = run.syncedAt := (Prod.mk.inj (Prod.mk.inj hslot).2).2
      omega
    · intro hv
      obtain ⟨id, hid⟩ := mem_values_iff.mp hv
      refine mem_values_iff.mpr ⟨id, ?_⟩
      by_cases hmem : ∃ e ∈ entries decimalOf document only, e.versionId = id
      · obtain ⟨e, he, rfl⟩ := hmem
        rw [get_synced hd hready he, if_neg, hid]
        intro hwritten
        rw [(wants_of_additive h hwritten.1 hwritten.2.1).1] at hid
        cases hid
      · rw [get_synced_of_ne hd (fun e he heq => hmem ⟨e, he, heq⟩), hid]

end Effects

def sampleDecimal (t : Text) : Option Decimal :=
  if t ≠ [] ∧ t.all Char.isDigit then some ⟨Nat.ofDigitChars 10 t 0, 0⟩ else none

def sampleModel (price : String) : Option ModelNode :=
  some ⟨some ⟨some (.printed price.toList), none, none, none⟩, none⟩

def sampleDocument (price : String) : UpstreamDocument :=
  some ⟨[("a".toList, some ⟨some ⟨[("m".toList, sampleModel price)], List.nodup_singleton _⟩⟩)], List.nodup_singleton _⟩

/-- Two pairs with the key `a/b/c`. -/
def straddlingDocument : UpstreamDocument :=
  some ⟨[("a".toList, some ⟨some ⟨[("b/c".toList, sampleModel "1")], List.nodup_singleton _⟩⟩),
      ("a/b".toList, some ⟨some ⟨[("c".toList, sampleModel "2")], List.nodup_singleton _⟩⟩)],
    by unfold Rosters.Distinct; decide⟩

def runAt (time : Int) : Run := ⟨time, fun _ => true⟩

def usd : Text := "USD".toList

def firstSync : Dict Text PriceVersion := synced usd sampleDecimal (sampleDocument "1") none (runAt 10) .empty

def resolvedAt (d : Dict Text PriceVersion) (time : Int) : Option (Text × Int) :=
  ((resolve d.values "a".toList "m".toList time).toOption).map (fun v => (v.versionId, v.inputPerMillion.coefficient))

/-- The pairs and the prices under the ids of a catalog. -/
def contents (d : Dict Text PriceVersion) : List (Text × Text × Text × Int) :=
  d.values.map (fun v => (v.versionId, v.provider, v.model, v.inputPerMillion.coefficient))

end Kirara.PriceSyncEffects
