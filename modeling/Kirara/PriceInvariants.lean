import Kirara.PriceCatalogs

namespace Kirara.PriceInvariants

open Kirara.Channels Kirara.Dicts Kirara.Dicts.Dict Kirara.Fallible Kirara.Pricing Kirara.PriceCatalogs
open Kirara.Schedules Kirara.TransactionOutcomes

section Versions

variable {δ : Type} [DecidableEq δ] {d e : Dict Text PriceVersion} {v w : PriceVersion}

def slot (v : PriceVersion) : Text × Text × Int := (v.provider, v.model, v.effectiveFrom)

structure Valid (d : Dict Text PriceVersion) : Prop where
  keyed : ∀ p ∈ d.entries, p.2.versionId = p.1
  slots : (d.values.map slot).Nodup

theorem valid_empty : Valid .empty := ⟨fun _ h => (nomatch h), List.nodup_nil⟩

theorem addToMapping_ok (h : addToMapping d v = .ok e) :
    v.versionId ∉ d.keys ∧ (∀ w ∈ d.values, slot w ≠ slot v) ∧ e = d.set v.versionId v := by
  unfold addToMapping at h
  split at h
  · cases h
  · next hnew =>
    split at h
    · cases h
    · next hslot =>
      cases h
      refine ⟨hnew, fun w hw heq => hslot (List.any_eq_true.mpr ⟨w, hw, ?_⟩), rfl⟩
      obtain ⟨hp, hm, ht⟩ : w.provider = v.provider ∧ w.model = v.model ∧ w.effectiveFrom = v.effectiveFrom := by
        simpa [slot] using heq
      simp [hp, hm, ht]

theorem valid_add (hd : Valid d) (h : addToMapping d v = .ok e) : Valid e := by
  obtain ⟨hnew, hslot, rfl⟩ := addToMapping_ok h
  have hentries : (d.set v.versionId v).entries = d.entries ++ [(v.versionId, v)] := set_entries_of_not_mem hnew
  constructor
  · intro p hp
    rw [hentries, List.mem_append, List.mem_singleton] at hp
    cases hp with
    | inl hp => exact hd.keyed p hp
    | inr hp => rw [hp]
  · have hvalues : (d.set v.versionId v).values = d.values ++ [v] := by
      rw [Dict.values, hentries, List.map_append]
      rfl
    rw [hvalues, List.map_append, List.nodup_append]
    refine ⟨hd.slots, List.nodup_singleton _, fun a ha b hb hab => ?_⟩
    obtain ⟨w, hw, rfl⟩ := List.mem_map.mp ha
    exact hslot w hw (hab.trans (List.mem_singleton.mp hb))

theorem valid_pop (hd : Valid d) (k : Text) : Valid (d.pop k) := by
  have hsub : (d.pop k).entries.Sublist d.entries := List.filter_sublist
  exact ⟨fun p hp => hd.keyed p (hsub.subset hp), (hd.slots.sublist ((hsub.map Prod.snd).map slot))⟩

variable {vs : List PriceVersion}

theorem valid_addAll (hd : Valid d) (h : addAll d vs = .ok e) : Valid e := by
  induction vs generalizing d with
  | nil =>
    cases h
    exact hd
  | cons v vs ih =>
    rw [addAll, List.foldlM_cons] at h
    obtain ⟨c, hc, h⟩ := bind_eq_ok.mp h
    exact ih (valid_add hd hc) h

theorem valid_parseVersions {raw : List (Option PriceVersion)} (hd : Valid d)
    (h : parseVersions raw d = .ok vs) : Valid (vs.foldl (fun d v => d.set v.versionId v) d) := by
  induction raw generalizing d vs with
  | nil =>
    cases h
    exact hd
  | cons r raw ih =>
    cases r with
    | none => cases h
    | some v =>
      unfold parseVersions at h
      obtain ⟨c, hc, h⟩ := bind_eq_ok.mp h
      obtain ⟨rest, hrest, h⟩ := bind_eq_ok.mp h
      cases h
      have hset := (addToMapping_ok hc).2.2
      rw [List.foldl_cons, ← hset]
      exact ih (valid_add hd hc) hrest

theorem parseDocument_versions {document : PriceDocument δ} {n : Int}
    (h : parseDocument document = .ok (vs, n)) : ∃ raw, document.versions = some raw ∧ parseVersions raw .empty = .ok vs := by
  unfold parseDocument at h
  obtain ⟨-, h⟩ := ite_error_eq_ok.mp h
  split at h
  · cases h
  · next raw hraw =>
    obtain ⟨revision, -, h⟩ := bind_eq_ok.mp h
    obtain ⟨-, -, h⟩ := bind_eq_ok.mp h
    obtain ⟨parsed, hparsed, h⟩ := bind_eq_ok.mp h
    cases h
    exact ⟨raw, hraw, hparsed⟩

theorem valid_byId {document : PriceDocument δ} {n : Int}
    (h : parseDocument document = .ok (vs, n)) : Valid (byId vs) := by
  obtain ⟨raw, -, hraw⟩ := parseDocument_versions h
  exact valid_parseVersions valid_empty hraw

end Versions

section Operations

variable {δ π : Type} [DecidableEq δ] {hash : Hash δ} {c : PriceCatalog δ π} {versions : Dict Text PriceVersion}
  {expectedRevision : Option Int} {files : Files δ}

def Sound : Request δ π → Prop
  | .finished c => Valid c.versions
  | .locked _ inside => ∀ files plan, inside files = .ok plan → Valid plan.memory.versions

theorem commitInside_ok {plan : Plan δ π} (h : commitInside hash c versions expectedRevision files = .ok plan) :
    ∃ current n, readDocument (files .catalog) = .ok current ∧
      checkCurrent c (some current) expectedRevision = .ok () ∧ revisionOf current 0 = .ok n ∧
      plan = ⟨{ c with versions := versions, revision := n + 1, integrity := some (hash (n + 1) versions.values) },
        some (persisted files (document hash versions.values (n + 1)) true), false⟩ := by
  obtain ⟨current, hcurrent, h⟩ := bind_eq_ok.mp h
  obtain ⟨_, hcheck, h⟩ := bind_eq_ok.mp h
  obtain ⟨n, hn, h⟩ := bind_eq_ok.mp h
  cases h
  exact ⟨current, n, hcurrent, hcheck, hn, rfl⟩

theorem sound_commitVersions {r : Request δ π} (hv : Valid versions)
    (h : commitVersions hash c versions expectedRevision = .ok r) : Sound r := by
  unfold commitVersions at h
  split at h
  · split at h
    · cases h
      exact hv
    · cases h
  · cases h
    intro files plan hplan
    obtain ⟨_, _, -, -, -, rfl⟩ := commitInside_ok hplan
    exact hv

theorem refreshInside_ok {plan : Plan δ π} (h : refreshInside c files = .ok plan) :
    ∃ d vs n, readDocument (files .catalog) = .ok d ∧ parseDocument d = .ok (vs, n) ∧
      plan = ⟨{ c with versions := byId vs, revision := n, integrity := rememberedIntegrity d }, none, false⟩ := by
  obtain ⟨d, hd, h⟩ := bind_eq_ok.mp h
  obtain ⟨⟨vs, n⟩, hparsed, h⟩ := bind_eq_ok.mp h
  cases h
  exact ⟨d, vs, n, hd, hparsed, rfl⟩

theorem restoreInside_ok {target : π} {selected : PriceFile} {plan : Plan δ π}
    (h : restoreInside hash c target selected expectedRevision files = .ok plan) :
    ∃ source vs m n current, readDocument (files selected) = .ok source ∧ parseDocument source = .ok (vs, m) ∧
      currentDocument files = .ok current ∧ currentRevision c current = .ok n ∧
      checkCurrent c current expectedRevision = .ok () ∧
      plan = ⟨⟨byId vs, some target, n + 1, some (hash (n + 1) vs)⟩,
        some (persisted files (document hash vs (n + 1)) current.isSome),
        current.isNone && selected = .legacyBackup⟩ := by
  unfold restoreInside at h
  obtain ⟨source, hsource, h⟩ := bind_eq_ok.mp h
  obtain ⟨current, hcurrent, h⟩ := bind_eq_ok.mp h
  obtain ⟨n, hn, h⟩ := bind_eq_ok.mp h
  obtain ⟨_, hcheck, h⟩ := bind_eq_ok.mp h
  obtain ⟨⟨vs, m⟩, hparsed, h⟩ := bind_eq_ok.mp h
  cases h
  exact ⟨source, vs, m, n, current, hsource, hparsed, hcurrent, hn, hcheck, rfl⟩

theorem sound_request {seen : π → Files δ} {op : Operation δ π} {r : Request δ π} (hc : Valid c.versions)
    (h : request hash seen c op = .ok r) : Sound r := by
  cases op with
  | add v expectedRevision =>
    obtain ⟨versions, hversions, h⟩ := bind_eq_ok.mp h
    exact sound_commitVersions (valid_add hc hversions) h
  | update v expectedRevision =>
    dsimp only [request] at h
    split at h
    · obtain ⟨versions, hversions, h⟩ := bind_eq_ok.mp h
      exact sound_commitVersions (valid_add (valid_pop hc _) hversions) h
    · cases h
  | remove versionId expectedRevision =>
    dsimp only [request] at h
    split at h
    · exact sound_commitVersions (valid_pop hc _) h
    · cases h
  | importDocument payload expectedRevision =>
    obtain ⟨d, -, h⟩ := bind_eq_ok.mp h
    obtain ⟨⟨vs, n⟩, -, h⟩ := bind_eq_ok.mp h
    obtain ⟨versions, hversions, h⟩ := bind_eq_ok.mp h
    exact sound_commitVersions (valid_addAll hc hversions) h
  | restoreBackup path generation expectedRevision =>
    dsimp only [request] at h
    split at h
    · cases h
    obtain ⟨selected, -, h⟩ := bind_eq_ok.mp h
    cases h
    intro files plan hplan
    obtain ⟨source, vs, m, n, current, -, hparsed, -, -, -, rfl⟩ := restoreInside_ok hplan
    exact valid_byId hparsed
  | refresh =>
    dsimp only [request] at h
    split at h
    · cases h
    cases h
    intro files plan hplan
    obtain ⟨d, vs, n, -, hparsed, rfl⟩ := refreshInside_ok hplan
    exact valid_byId hparsed

variable [DecidableEq π] {env : Steps} {s t : Store δ π} {op : Operation δ π} {target : π} {plan : Plan δ π}

omit [DecidableEq δ] in
theorem valid_carryOut (hs : Valid s.catalog.versions) (hplan : Valid plan.memory.versions) :
    Valid (carryOut env s target files plan).2.catalog.versions := by
  unfold carryOut
  split
  · exact hplan
  dsimp only
  split
  · split
    · split
      · exact hplan
      · exact hs
    · exact hplan
  · exact hs

theorem valid_perform (hs : Valid s.catalog.versions) : Valid (perform hash env op s).2.catalog.versions := by
  unfold perform
  cases hr : request hash (fun p => (s.disk p).files) s.catalog op with
  | error e => exact hs
  | ok r =>
    have hsound := sound_request hs hr
    cases r with
    | finished c => exact hsound
    | locked target inside =>
      dsimp only
      split
      · exact hs
      split
      · exact hs
      cases hplan : inside (s.disk target).settled with
      | error e => exact hs
      | ok plan => exact valid_carryOut hs (hsound _ plan hplan)

end Operations

section Resolution

variable {d : Dict Text PriceVersion} {p m : Text} {t : Int} {v : PriceVersion}

def Matches (p m : Text) (t : Int) (v : PriceVersion) : Prop :=
  v.provider = p ∧ v.model = m ∧ v.effectiveFrom ≤ t

structure Priced (d : Dict Text PriceVersion) : Prop where
  ids : (d.values.map PriceVersion.versionId).Nodup
  slots : (d.values.map slot).Nodup
  found : ∀ p m t v, resolve d.values p m t = .ok v ↔
    v ∈ d.values ∧ Matches p m t v ∧ ∀ w ∈ d.values, Matches p m t w → w.effectiveFrom ≤ v.effectiveFrom
  missing : ∀ p m t, resolve d.values p m t = .error .lookupError ↔ ∀ v ∈ d.values, ¬ Matches p m t v

theorem le_latest (vs : List PriceVersion) (v : PriceVersion) : ∀ w ∈ v :: vs, w.effectiveFrom ≤
      (vs.foldl (fun best v => if best.effectiveFrom < v.effectiveFrom then v else best) v).effectiveFrom := by
  induction vs generalizing v with
  | nil =>
    intro w hw
    rw [List.mem_singleton.mp hw]
    exact le_refl _
  | cons x vs ih =>
    have hstart : v.effectiveFrom ≤ (if v.effectiveFrom < x.effectiveFrom then x else v).effectiveFrom ∧
        x.effectiveFrom ≤ (if v.effectiveFrom < x.effectiveFrom then x else v).effectiveFrom := by
      split
      · next h => exact ⟨h.le, le_refl _⟩
      · next h => exact ⟨le_refl _, not_lt.mp h⟩
    have hbest := ih (if v.effectiveFrom < x.effectiveFrom then x else v) _ List.mem_cons_self
    intro w hw
    rw [List.foldl_cons]
    obtain rfl | hw := List.mem_cons.mp hw
    · exact hstart.1.trans hbest
    · obtain rfl | hw := List.mem_cons.mp hw
      · exact hstart.2.trans hbest
      · exact ih _ w (List.mem_cons_of_mem _ hw)

variable {vs : List PriceVersion}

theorem mem_matches : v ∈ vs.filter (fun v => v.provider = p && v.model = m &&
    v.effectiveFrom ≤ t) ↔ v ∈ vs ∧ Matches p m t v := by
  rw [List.mem_filter]
  simp [Matches, and_assoc]

theorem resolve_latest (h : resolve vs p m t = .ok v) :
    ∀ w ∈ vs, Matches p m t w → w.effectiveFrom ≤ v.effectiveFrom := by
  intro w hw hmatch
  have hmem := mem_matches.mpr ⟨hw, hmatch⟩
  unfold resolve at h
  split at h
  · cases h
  · next first rest hf =>
    cases h
    rw [hf] at hmem
    exact le_latest rest first w hmem

theorem resolve_missing : resolve vs p m t = .error .lookupError ↔ ∀ v ∈ vs, ¬ Matches p m t v := by
  unfold resolve
  split
  · next hf =>
    refine ⟨fun _ v hv hmatch => ?_, fun _ => rfl⟩
    have hmem := mem_matches.mpr ⟨hv, hmatch⟩
    rw [hf] at hmem
    cases hmem
  · next first rest hf =>
    refine ⟨nofun, fun h => ?_⟩
    have hfirst := mem_matches.mp (hf ▸ List.mem_cons_self : first ∈ vs.filter _)
    exact absurd hfirst.2 (h first hfirst.1)

theorem resolve_of_latest (hs : (d.values.map slot).Nodup) (hv : v ∈ d.values) (hmatch : Matches p m t v)
    (hlatest : ∀ w ∈ d.values, Matches p m t w → w.effectiveFrom ≤ v.effectiveFrom) : resolve d.values p m t = .ok v := by
  cases h : resolve d.values p m t with
  | error e =>
    cases resolve_error h
    exact absurd hmatch (resolve_missing.mp h v hv)
  | ok w =>
    obtain ⟨hw, hp, hm, ht⟩ := resolve_mem h
    have heq : w.effectiveFrom = v.effectiveFrom :=
      le_antisymm (hlatest w hw ⟨hp, hm, ht⟩) (resolve_latest h v hv hmatch)
    have hslot : slot w = slot v := by
      rw [slot, slot, hp, hm, heq, hmatch.1, hmatch.2.1]
    rw [List.inj_on_of_nodup_map hs hw hv hslot]

theorem priced_of_valid (h : Valid d) : Priced d where
  ids := by
    have hids : d.values.map PriceVersion.versionId = d.entries.map Prod.fst := by
      rw [Dict.values, List.map_map]
      exact List.map_congr_left (fun e he => h.keyed e he)
    rw [hids]
    exact d.distinct
  slots := h.slots
  found p m t v := by
    constructor
    · intro hv
      obtain ⟨hmem, hmatch⟩ := resolve_mem hv
      exact ⟨hmem, hmatch, resolve_latest hv⟩
    · rintro ⟨hv, hmatch, hlatest⟩
      exact resolve_of_latest h.slots hv hmatch hlatest
  missing p m t := resolve_missing

end Resolution

section Runs

variable {δ π : Type} [DecidableEq δ] [DecidableEq π] (hash : Hash δ)

abbrev Label (δ π : Type) := Operation δ π × Steps

def next (s : Store δ π) (l : Label δ π) : Option (Store δ π) := some (perform hash l.2 l.1 s).2

def planned (s : Store δ π) (l : Label δ π) : Option (Plan δ π) :=
  match request hash (fun p => (s.disk p).files) s.catalog l.1 with
  | .ok (.locked target inside) => if l.2.locks then (inside (s.disk target).settled).toOption else none
  | _ => none

/-- A transaction that raises is undone, and a legacy backup that has to go can. -/
def Settles (env : Steps) (plan : Plan δ π) : Bool :=
  plan.write.isNone ||
    match env.publish with
    | .done => !plan.dropsLegacy || env.unlinks
    | .undone => true
    | .left _ _ => false

def Undoes (s : Store δ π) (l : Label δ π) : Prop := ∀ plan ∈ planned hash s l, Settles l.2 plan

instance (s : Store δ π) (l : Label δ π) : Decidable (Undoes hash s l) :=
  inferInstanceAs (Decidable (∀ plan ∈ planned hash s l, Settles l.2 plan))

/-- An operation that raises leaves memory and files as they were. -/
def RaisesUnchanged (s : Store δ π) (l : Label δ π) : Prop :=
  (perform hash l.2 l.1 s).1.isSome → (perform hash l.2 l.1 s).2 = s

def Quiet (s : Store δ π) : Prop := ∀ p, (s.disk p).pending = none

inductive Opened : Store δ π → Prop where
  | constructed (versions : List PriceVersion) (c : PriceCatalog δ π) (disk : π → Files δ)
      (h : construct versions = .ok c) : Opened ⟨c, fun p => ⟨disk p, none⟩⟩
  | loaded (target : π) (c : PriceCatalog δ π) (disk : π → Files δ) (h : loadLocked target (disk target) = .ok c) :
      Opened ⟨c, fun p => ⟨disk p, none⟩⟩

variable {hash} {s t : Store δ π} {l : Label δ π} {target : π} {plan : Plan δ π}

omit [DecidableEq π] in
theorem valid_opened (h : Opened s) : Valid s.catalog.versions ∧ Quiet s := by
  cases h with
  | constructed versions c disk h =>
    obtain ⟨d, hd, h⟩ := bind_eq_ok.mp h
    cases h
    exact ⟨valid_addAll valid_empty hd, fun _ => rfl⟩
  | loaded target c disk h =>
    obtain ⟨document, -, h⟩ := bind_eq_ok.mp h
    obtain ⟨⟨vs, n⟩, -, h⟩ := bind_eq_ok.mp h
    obtain ⟨d, hd, h⟩ := bind_eq_ok.mp h
    cases h
    exact ⟨valid_addAll valid_empty hd, fun _ => rfl⟩

omit [DecidableEq δ] in
theorem setDisk_same (hq : Quiet s) : s.setDisk target ⟨(s.disk target).settled, none⟩ = s := by
  have hsame : (⟨(s.disk target).settled, none⟩ : Disk PriceFile (Content δ)) = s.disk target := by
    have hp := hq target
    cases hd : s.disk target with
    | mk files pending =>
      rw [hd] at hp
      cases hp
      rfl
  unfold Store.setDisk
  rw [hsame, Function.update_eq_self]

omit [DecidableEq δ] in
theorem quiet_setDisk (hq : Quiet s) {d : Disk PriceFile (Content δ)} (hd : d.pending = none) :
    Quiet (s.setDisk target d) := by
  intro p
  change (Function.update s.disk target d p).pending = none
  by_cases hp : p = target
  · rw [hp, Function.update_self, hd]
  · rw [Function.update_of_ne hp, hq p]

omit [DecidableEq δ] in
theorem carryOut_settles (hq : Quiet s) {env : Steps} (h : Settles env plan) :
    Quiet (carryOut env s target (s.disk target).settled plan).2 ∧
    ((carryOut env s target (s.disk target).settled plan).1.isSome →
      (carryOut env s target (s.disk target).settled plan).2 = s) := by
  unfold carryOut
  cases hwrite : plan.write with
  | none => exact ⟨quiet_setDisk hq rfl, nofun⟩
  | some new =>
    unfold Settles at h
    rw [hwrite, Option.isNone_some, Bool.false_or] at h
    dsimp only
    cases hp : env.publish with
    | done =>
      rw [hp] at h
      dsimp only
      cases hdrop : plan.dropsLegacy with
      | false => exact ⟨quiet_setDisk hq rfl, nofun⟩
      | true =>
        rw [hdrop, Bool.not_true, Bool.false_or] at h
        rw [if_pos rfl, if_pos h]
        exact ⟨quiet_setDisk hq rfl, nofun⟩
    | undone => exact ⟨quiet_setDisk hq rfl, fun _ => setDisk_same hq⟩
    | left published forward =>
      rw [hp] at h
      cases h

theorem undoes_step (hq : Quiet s) (h : Undoes hash s l) : Quiet (perform hash l.2 l.1 s).2 ∧ RaisesUnchanged hash s l := by
  obtain ⟨op, env⟩ := l
  unfold Undoes planned at h
  unfold RaisesUnchanged perform
  cases hr : request hash (fun p => (s.disk p).files) s.catalog op with
  | error e => exact ⟨hq, fun _ => rfl⟩
  | ok r =>
    cases r with
    | finished c => exact ⟨hq, nofun⟩
    | locked target inside =>
      rw [hr] at h
      dsimp only at h ⊢
      cases hlocks : env.locks with
      | false => exact ⟨hq, fun _ => rfl⟩
      | true =>
        rw [hlocks, if_pos rfl] at h
        rw [Bool.not_true, if_neg Bool.false_ne_true, hq target]
        dsimp only
        cases hplan : inside (s.disk target).settled with
        | error e => exact ⟨quiet_setDisk hq rfl, fun _ => setDisk_same hq⟩
        | ok plan =>
          rw [hplan] at h
          exact carryOut_settles hq (h plan rfl)

/-- Every reached catalog is priced without ambiguity, and where transactions that raise are
undone, an operation that raises changes nothing. -/
theorem catalog_kept (hs : Opened s) (labels : List (Label δ π)) :
    (∀ u, exec (next hash) s labels = some u → Priced u.catalog.versions) ∧
    (Along (next hash) (Undoes hash) s labels → Along (next hash) (RaisesUnchanged hash) s labels) := by
  obtain ⟨hvalid, hq⟩ := valid_opened hs
  constructor
  · intro u hu
    refine priced_of_valid (exec_invariant (next hash) (I := fun s => Valid s.catalog.versions) (fun s l t _ hv ht => ?_)
      hvalid (along_true (next hash) s labels) hu)
    cases ht
    exact valid_perform hv
  · intro h
    refine along_of_invariant (next hash) (I := Quiet) (fun s l hq hok => (undoes_step hq hok).2) (fun s l t hok hq ht => ?_)
      hq h
    cases ht
    exact (undoes_step hq hok).1

end Runs

def sampleHash : Hash Int := fun n _ => n

def price (id : String) (effectiveFrom : Int) : PriceVersion :=
  ⟨id.toList, "openai".toList, "gpt".toList, effectiveFrom, "USD".toList, ⟨1, 0⟩, ⟨2, 0⟩, ⟨0, 0⟩, ⟨0, 0⟩⟩

def empty (δ π : Type) : PriceCatalog δ π := ⟨.empty, none, 0, none⟩

def legacyBackup : Files Int
  | .legacyBackup => some (some ⟨some priceCatalogSchema, some 1, some 1, none, some [some (price "a" 0)], none, 0⟩)
  | _ => none

def onlyBackup : Store Int Unit := ⟨empty Int Unit, fun _ => ⟨legacyBackup, none⟩⟩

theorem onlyBackup_opened : Opened onlyBackup := .constructed [] (empty Int Unit) (fun _ => legacyBackup) rfl

def steps (unlinks : Bool) : Steps := ⟨true, none, .done, unlinks⟩

/-- The restored file is in place when the backup cannot be removed; the catalog stays empty. -/
theorem restore_raises_after_writing :
    Opened onlyBackup ∧ ¬ Along (next sampleHash) (RaisesUnchanged sampleHash) onlyBackup
      [(.restoreBackup (some ()) none none, steps false)] := by
  refine ⟨onlyBackup_opened, fun h => ?_⟩
  have hsame := congrArg (fun s => ((s.disk ()).files .catalog).isSome) (h.1 (by decide +kernel))
  exact absurd hsame (by decide +kernel)

/-- The restored catalog takes a second version, and refuses a third for the same time. -/
def restoredAndEdited : List (Label Int Unit) :=
  [(.restoreBackup (some ()) none none, steps true), (.add (price "b" 5) none, steps true),
    (.add (price "c" 5) none, steps true)]

theorem restored_and_edited :
    (∀ u, exec (next sampleHash) onlyBackup restoredAndEdited = some u → Priced u.catalog.versions) ∧
    Along (next sampleHash) (RaisesUnchanged sampleHash) onlyBackup restoredAndEdited :=
  have h := catalog_kept onlyBackup_opened restoredAndEdited
  ⟨h.1, h.2 (by decide +kernel)⟩

end Kirara.PriceInvariants
