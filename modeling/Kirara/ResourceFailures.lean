import Kirara.ResourceAgreement

namespace Kirara.ResourceFailures

open Kirara.Channels Kirara.Dicts Kirara.ResourceLifecycle Kirara.ConfirmedPermissions
open Kirara.ResourceAgreement

variable {κ : Type} {P : Platform} {w : World} {s t u : State κ}

structure Same (s t : State κ) : Prop where
  registry : t.registry.get = s.registry.get
  file : t.file.get = s.file.get
  installed : t.installed.get = s.installed.get

theorem same_refl (s : State κ) : Same s s := ⟨rfl, rfl, rfl⟩

variable {current : Resource}

theorem same_of_backup (h : backupVersion w current s = .ok t) : Same s t := by
  obtain ⟨hregistry, hfile, hinstalled, _⟩ := backupVersion_spec h
  exact ⟨congrArg _ hregistry, congrArg _ hfile, congrArg _ hinstalled⟩

theorem same_iff_of_backup (h : backupVersion w current s = .ok t) : Same s u ↔ Same t u := by
  have hs := same_of_backup h
  constructor
  · intro ⟨hregistry, hfile, hinstalled⟩
    exact ⟨hregistry.trans hs.registry.symm, hfile.trans hs.file.symm, hinstalled.trans hs.installed.symm⟩
  · intro ⟨hregistry, hfile, hinstalled⟩
    exact ⟨hregistry.trans hs.registry, hfile.trans hs.file, hinstalled.trans hs.installed⟩

variable {α β : Type} [DecidableEq α] {d : Dict α β} {k : α} {v : β}

theorem get_set_eq_iff : (d.set k v).get = d.get ↔ d.get k = some v := by
  constructor
  · intro h
    rw [← h, Dict.get_set_self]
  · intro h
    funext l
    rw [Dict.get_set]
    split
    · next he => rw [he, h]
    · rfl

theorem get_pop_eq_iff : (d.pop k).get = d.get ↔ d.get k = none := by
  constructor
  · intro h
    rw [← h, Dict.get_pop_self]
  · intro h
    funext l
    rw [Dict.get_pop]
    split
    · next he => rw [he, h]
    · rfl

theorem get_set_pop_eq_iff : ((d.set k v).pop k).get = d.get ↔ d.get k = none := by
  have h : ((d.set k v).pop k).get = (d.pop k).get := by
    funext l
    rw [Dict.get_pop, Dict.get_pop, Dict.get_set]
    grind
  rw [h, get_pop_eq_iff]

theorem get_filter_eq_iff {f : α × β → Bool} :
    (d.filter f).get = d.get ↔ ∀ k v, d.get k = some v → f (k, v) = true := by
  constructor
  · intro h k v hv
    rw [← h] at hv
    exact (Dict.get_filter_eq_some_iff.mp hv).2
  · intro h
    funext k
    apply Option.ext
    intro v
    rw [Dict.get_filter_eq_some_iff]
    exact ⟨fun hv => hv.1, fun hv => ⟨hv, h k v hv⟩⟩

def Copies (w : World) (current : Resource) (s : State κ) : Prop := ∃ t, backupVersion w current s = .ok t

def Recordable (P : Platform) (source : Text) : Prop := (sanitizeSource P source).isSome

/-- What a call destroys or writes before a failing step was not there, or is there again. -/
def Intact (P : Platform) (s : State κ) (c : Call κ) : Prop :=
  match c.operation with
  | .restoreVersion id version confirmed => ∀ current record,
    checkRestore id version confirmed s = .ok (current, record) → Copies c.world current s →
    c.world.fails .write = false → Recordable P record.source ∨
      { restoredResource current record with updatedAt := c.world.now } = current
  | .remove id confirmed => ∀ current, s.registry.get id = some current → confirmed = true →
    Copies c.world current s →
    (c.world.fails .write = true → ∀ version, s.installed.get (id, version) = none) ∧
      (c.world.fails .write = false → Recordable P current.source)
  | .restoreBackup backupId confirmed => ∀ b, checkBackup c.world backupId confirmed s = .ok b →
    ((c.world.fails .replace = true ∨ c.world.fails .write = true) →
      s.installed.get (b.resourceId, b.version) = none) ∧
    (c.world.fails .replace = false ∧ c.world.fails .write = false → Recordable P b.resource.source ∨
      s.registry.get b.resourceId = some (b.restored c.world) ∧
        s.installed.get (b.resourceId, b.version) = some b.package)
  | _ => True

def Covered : Operation κ → Prop
  | .install _ | .update _ _ | .restoreVersion _ _ _ | .restoreBackup _ _ | .remove _ _ => True
  | .enable _ _ | .disable _ | .deleteBackup _ _ => False

variable {r : Resource} {e : Failure}

theorem same_publish {package : Package κ} (hfree : s.installed.get package.key = none)
    (h : (publish w package r s).1 = .error e) : Same s (publish w package r s).2 := by
  unfold publish at h ⊢
  dsimp only at h ⊢
  split at h
  · next hreplace =>
    rw [if_pos hreplace]
    exact same_refl s
  · next hreplace =>
    split at h
    · next hwrite =>
      rw [if_neg hreplace, if_pos hwrite]
      exact ⟨rfl, rfl, get_set_pop_eq_iff.mpr hfree⟩
    · cases h

theorem error_of_audited {m : Manifest} {out : Except Failure Unit × State κ}
    (h : (audited P m out).1 = .error e) : ∃ e, out.1 = .error e := by
  cases hout : out.1 with
  | ok u =>
    have hok := (audited_ok_iff (P := P) m out).mpr hout
    cases hok.symm.trans h
  | error e => exact ⟨e, rfl⟩

variable {archive : Except Failure (Package κ)}

theorem same_install
    (h : (installArchive P w archive s).1 = .error e) : Same s (installArchive P w archive s).2 := by
  cases archive with
  | error e => exact same_refl s
  | ok package =>
    obtain ⟨e, h⟩ := error_of_audited h
    rw [installArchive, audited_snd]
    unfold installPackage at h ⊢
    split
    · exact same_refl s
    · next hnew =>
      rw [if_neg hnew] at h
      cases hstage : stage w package s with
      | error e => exact same_refl s
      | ok v =>
        cases hr : newResource P w package.manifest with
        | error e => exact same_refl s
        | ok r =>
          simp only [hstage, hr] at h
          exact same_publish (stage_ok hstage) h

theorem same_update {expected : Option Text} (h : (updateArchive P w archive expected s).1 = .error e) :
    Same s (updateArchive P w archive expected s).2 := by
  cases archive with
  | error e => exact same_refl s
  | ok package =>
    obtain ⟨e, h⟩ := error_of_audited h
    rw [updateArchive, audited_snd]
    unfold updatePackage at h ⊢
    cases hc : checkUpdate P package.manifest expected s with
    | error e => exact same_refl s
    | ok current =>
      cases hb : backupVersion w current s with
      | error e =>
        simp only [hb]
        exact same_refl s
      | ok t =>
        simp only [hc, hb] at h ⊢
        rw [same_iff_of_backup hb]
        cases hstage : stage w package t with
        | error e => exact same_refl t
        | ok v =>
          cases hr : updatedResource P w current package.manifest with
          | error e => exact same_refl t
          | ok r =>
            simp only [hstage, hr] at h
            exact same_publish (stage_ok hstage) h

theorem same_commit_iff (hfile : s.file = s.registry) :
    Same s (s.commit r) ↔ s.registry.get r.resourceId = some r := by
  constructor
  · intro h
    exact get_set_eq_iff.mp h.registry
  · intro h
    have hset := get_set_eq_iff.mpr h
    exact ⟨hset, hset.trans (congrArg _ hfile.symm), rfl⟩

theorem error_of_updateState (h : (updateState P w r s).1 = .error e) :
    w.fails .write = true ∧ (updateState P w r s).2 = s ∨
      w.fails .write = false ∧ ¬ Recordable P r.source ∧
        (updateState P w r s).2 = s.commit { r with updatedAt := w.now } := by
  unfold updateState at h ⊢
  split at h
  · next hwrite =>
    rw [if_pos hwrite]
    exact .inl ⟨hwrite, rfl⟩
  · next hwrite =>
    rw [if_neg hwrite]
    unfold auditRecord at h
    dsimp only at h
    split at h
    · cases h
    · next hsource => exact .inr ⟨by simpa using hwrite, hsource, rfl⟩

variable {confirmed : Bool}

theorem same_restoreVersion_iff (hs : WellKept s) (hfile : s.file = s.registry) {id version : Text}
    (h : (restoreVersion P w id version confirmed s).1 = .error e) :
    Same s (restoreVersion P w id version confirmed s).2 ↔
      Intact P s ⟨.restoreVersion id version confirmed, w⟩ := by
  unfold restoreVersion at h ⊢
  unfold Intact
  cases hc : checkRestore id version confirmed s with
  | error e => exact iff_of_true (same_refl s) (fun _ _ hfound => (nomatch hc.symm.trans hfound))
  | ok found =>
    obtain ⟨current, record⟩ := found
    obtain ⟨hr, _, _⟩ := checkRestore_spec hc
    have hown : s.registry.get current.resourceId = some current := by rwa [(hs.records id current hr).2]
    cases hb : backupVersion w current s with
    | error e =>
      simp only [hb]
      refine iff_of_true (same_refl s) (fun _ _ hfound hcopies => ?_)
      cases hc.symm.trans hfound
      obtain ⟨t, ht⟩ := hcopies
      cases hb.symm.trans ht
    | ok t =>
      obtain ⟨hregistry, hbackupFile, _, _⟩ := backupVersion_spec hb
      simp only [hc, hb] at h ⊢
      rw [same_iff_of_backup hb]
      cases error_of_updateState h with
      | inl hwrite =>
        rw [hwrite.2]
        exact iff_of_true (same_refl t) (fun _ _ _ _ hok => (nomatch hwrite.1.symm.trans hok))
      | inr haudit =>
        obtain ⟨hwrite, hsource, hstate⟩ := haudit
        rw [hstate, same_commit_iff (by rw [hregistry, hbackupFile, hfile]), hregistry]
        have hsource : ¬ Recordable P record.source := hsource
        constructor
        · intro hnew _ _ hfound _ _
          cases hfound
          exact .inr (Option.some.inj (hnew.symm.trans hown))
        · intro hsame
          have hnew := (hsame current record rfl ⟨t, hb⟩ hwrite).resolve_left hsource
          exact hown.trans (congrArg some hnew.symm)

theorem same_remove_iff {id : Text} (h : (remove P w id confirmed s).1 = .error e) :
    Same s (remove P w id confirmed s).2 ↔ Intact P s ⟨.remove id confirmed, w⟩ := by
  unfold remove requireResource at h ⊢
  unfold Intact
  cases hr : s.registry.get id with
  | none => exact iff_of_true (same_refl s) (fun _ hfound => (nomatch hr.symm.trans hfound))
  | some current =>
    cases confirmed with
    | false => exact iff_of_true (same_refl s) (fun _ _ hconfirmed => (nomatch hconfirmed))
    | true =>
      cases hb : backupVersion w current s with
      | error e =>
        simp only [hb]
        refine iff_of_true (same_refl s) (fun _ hfound _ hcopies => ?_)
        cases hr.symm.trans hfound
        obtain ⟨t, ht⟩ := hcopies
        cases hb.symm.trans ht
      | ok t =>
        obtain ⟨hregistry, _, hinstalled, _⟩ := backupVersion_spec hb
        simp only [hr, hb, Bool.not_true, Bool.false_eq_true, if_false] at h ⊢
        rw [same_iff_of_backup hb]
        split at h
        · next hwrite =>
          rw [if_pos hwrite]
          constructor
          · intro hsame _ hfound _ _
            cases hfound
            refine ⟨fun _ version => Option.eq_none_iff_forall_ne_some.mpr (fun package hp => ?_), by simp [hwrite]⟩
            rw [← hinstalled] at hp
            have hkept := get_filter_eq_iff.mp hsame.installed _ _ hp
            simp at hkept
          · intro hintact
            have hgone := (hintact current rfl trivial ⟨t, hb⟩).1 hwrite
            refine ⟨rfl, rfl, get_filter_eq_iff.mpr (fun key package hp => ?_)⟩
            rw [hinstalled] at hp
            obtain ⟨id', version⟩ := key
            have hne : id' ≠ id := fun he => by
              rw [he, hgone version] at hp
              cases hp
            simpa using hne
        · next hwrite =>
          rw [if_neg hwrite]
          have hsource : ¬ Recordable P current.source := by
            unfold auditRecord at h
            split at h
            · cases h
            · assumption
          constructor
          · intro hsame
            have hkept := get_pop_eq_iff.mp hsame.registry
            rw [hregistry, hr] at hkept
            cases hkept
          · intro hintact
            exact absurd ((hintact current rfl trivial ⟨t, hb⟩).2 (by simpa using hwrite)) hsource

theorem same_restoreBackup_iff (hfile : s.file = s.registry) {backupId : Text}
    (h : (restoreBackup P w backupId confirmed s).1 = .error e) :
    Same s (restoreBackup P w backupId confirmed s).2 ↔ Intact P s ⟨.restoreBackup backupId confirmed, w⟩ := by
  unfold restoreBackup at h ⊢
  unfold Intact
  cases hc : checkBackup w backupId confirmed s with
  | error e => exact iff_of_true (same_refl s) (fun _ hfound => (nomatch hc.symm.trans hfound))
  | ok b =>
    simp only [hc] at h ⊢
    split at h
    · next hreplace =>
      rw [if_pos hreplace]
      constructor
      · intro hsame _ hfound
        cases hfound
        exact ⟨fun _ => get_pop_eq_iff.mp hsame.installed, by simp [hreplace]⟩
      · intro hintact
        exact ⟨rfl, rfl, get_pop_eq_iff.mpr ((hintact b rfl).1 (.inl hreplace))⟩
    · next hreplace =>
      rw [if_neg hreplace]
      split at h
      · next hwrite =>
        rw [if_pos hwrite]
        constructor
        · intro hsame _ hfound
          cases hfound
          exact ⟨fun _ => get_set_pop_eq_iff.mp hsame.installed, by simp [hwrite]⟩
        · intro hintact
          exact ⟨rfl, rfl, get_set_pop_eq_iff.mpr ((hintact b rfl).1 (.inr hwrite))⟩
      · next hwrite =>
        rw [if_neg hwrite]
        have hsource : ¬ Recordable P b.resource.source := by
          unfold auditRecord at h
          split at h
          · cases h
          · assumption
        have hsteps : w.fails .replace = false ∧ w.fails .write = false := by simpa using And.intro hreplace hwrite
        constructor
        · intro hsame _ hfound
          cases hfound
          refine ⟨by simp [hsteps], fun _ => .inr ⟨?_, get_set_eq_iff.mp hsame.installed⟩⟩
          exact get_set_eq_iff.mp hsame.registry
        · intro hintact
          obtain ⟨hrecord, hpackage⟩ := ((hintact b rfl).2 hsteps).resolve_left hsource
          have hset := get_set_eq_iff.mpr hrecord
          exact ⟨hset, hset.trans (congrArg _ hfile.symm), get_set_eq_iff.mpr hpackage⟩

variable (P)

def reached (calls : List (Call κ)) : State κ := calls.foldl (fun s c => (perform P c s).2) emptyState

structure Recorded (s : State κ) : Prop where
  kept : WellKept s
  file : s.file = s.registry

variable {P}

variable (hs : s.file = s.registry)

include hs

theorem file_publish {package : Package κ} :
    (publish w package r s).2.file = (publish w package r s).2.registry := by
  unfold publish State.commit
  dsimp only
  split
  · exact hs
  split
  · exact hs
  · rfl

theorem file_updateState : (updateState P w r s).2.file = (updateState P w r s).2.registry := by
  unfold updateState State.commit
  split
  · exact hs
  · rfl

theorem file_backup (h : backupVersion w current s = .ok t) : t.file = t.registry := by
  obtain ⟨hregistry, hfile, _, _⟩ := backupVersion_spec h
  rw [hregistry, hfile, hs]

theorem file_perform (c : Call κ) : (perform P c s).2.file = (perform P c s).2.registry := by
  obtain ⟨operation, w⟩ := c
  cases operation with
  | install archive =>
    cases archive with
    | error e => exact hs
    | ok package =>
      simp only [perform, installArchive, audited_snd, installPackage]
      split
      · exact hs
      split
      · exact hs
      split
      · exact hs
      · exact file_publish hs
  | update archive expected =>
    cases archive with
    | error e => exact hs
    | ok package =>
      simp only [perform, updateArchive, audited_snd, updatePackage]
      split
      · exact hs
      split
      · exact hs
      · next hb =>
        split
        · exact file_backup hs hb
        split
        · exact file_backup hs hb
        · exact file_publish (file_backup hs hb)
  | enable id confirmed =>
    simp only [perform, enable]
    split
    · exact hs
    split
    · exact hs
    split
    · exact hs
    · exact file_updateState hs
  | disable id =>
    simp only [perform, disable]
    split
    · exact hs
    split
    · exact hs
    · exact file_updateState hs
  | restoreVersion id version confirmed =>
    simp only [perform, restoreVersion]
    split
    · exact hs
    split
    · exact hs
    · next hb => exact file_updateState (file_backup hs hb)
  | remove id confirmed =>
    simp only [perform, remove]
    split
    · exact hs
    split
    · exact hs
    split
    · exact hs
    · next hb =>
      have hbackup := file_backup hs hb
      split
      · exact hbackup
      · rfl
  | deleteBackup id confirmed =>
    simp only [perform, deleteBackup]
    split
    · exact hs
    split
    · exact hs
    · exact hs
  | restoreBackup id confirmed =>
    simp only [perform, restoreBackup]
    split
    · exact hs
    split
    · exact hs
    split
    · exact hs
    · rfl

omit hs

theorem recorded_reached (calls : List (Call κ)) : Recorded (reached P calls) := by
  have hrun : ∀ s : State κ, Recorded s → Recorded (calls.foldl (fun s c => (perform P c s).2) s) := by
    induction calls with
    | nil => exact fun s hs => hs
    | cons c calls ih => exact fun s hs => ih _ ⟨wellKept_perform hs.kept c, file_perform hs.file c⟩
  exact hrun _ ⟨wellKept_empty, rfl⟩

def restoredNote : List (Call Unit) :=
  [installNote, smoothly "backup-1" (.remove "note".toList true),
    smoothly "backup-2" (.restoreBackup "backup-1".toList true)]

/-- The backup is restored once more, and the registry cannot be written. -/
def restoreAgain : Call Unit where
  operation := .restoreBackup "backup-1".toList true
  world := ⟨"backup-3".toList, "later".toList, fun step => step = .write⟩

end Kirara.ResourceFailures
