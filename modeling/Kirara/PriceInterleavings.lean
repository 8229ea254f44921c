import Kirara.PriceInvariants

namespace Kirara.PriceInterleavings

open Kirara.Channels Kirara.Dicts Kirara.Dicts.Dict Kirara.Fallible Kirara.Pricing Kirara.PriceCatalogs
open Kirara.PriceInvariants Kirara.Schedules Kirara.TransactionOutcomes

variable {δ : Type} [DecidableEq δ]

structure Pair (δ : Type) where
  first : PriceCatalog δ Unit
  second : PriceCatalog δ Unit
  disk : Disk PriceFile (Content δ)

inductive Instance where
  | first
  | second
  deriving DecidableEq

def Pair.catalog (p : Pair δ) : Instance → PriceCatalog δ Unit
  | .first => p.first
  | .second => p.second

def Pair.store (p : Pair δ) (i : Instance) : Store δ Unit := ⟨p.catalog i, fun _ => p.disk⟩

def Pair.put (p : Pair δ) (s : Store δ Unit) : Instance → Pair δ
  | .first => ⟨s.catalog, p.second, s.disk ()⟩
  | .second => ⟨p.first, s.catalog, s.disk ()⟩

structure Turn (δ : Type) where
  instance' : Instance
  operation : Operation δ Unit
  steps : Steps

def next (hash : Hash δ) (p : Pair δ) (l : Turn δ) : Option (Pair δ) :=
  some (p.put (perform hash l.steps l.operation (p.store l.instance')).2 l.instance')

def committed (disk : Disk PriceFile (Content δ)) : List PriceVersion :=
  match readDocument (disk.settled .catalog) with
  | .error _ => []
  | .ok d =>
    match parseDocument d with
    | .error _ => []
    | .ok (versions, _) => versions

def Removes (c : PriceCatalog δ Unit) (v : PriceVersion) : Operation δ Unit → Prop
  | .add _ _ | .importDocument _ _ | .refresh => False
  | .update w _ => v.versionId = w.versionId
  | .remove versionId _ => v.versionId = versionId
  | .restoreBackup _ _ _ => v ∈ c.versions.values

/-- The documents on disk stay, or the new one has every committed version that is not to be
removed. -/
def Lossless (hash : Hash δ) (p : Pair δ) (l : Turn δ) : Prop :=
  ∀ q, next hash p l = some q → q.disk.settled = p.disk.settled ∨
    ∀ v ∈ committed p.disk, v ∈ committed q.disk ∨ Removes (p.catalog l.instance') v l.operation

def asked : Operation δ Unit → Option Int
  | .add _ e | .update _ e | .remove _ e | .importDocument _ e | .restoreBackup _ _ e => e
  | .refresh => none

/-- A catalog without a digest writes over none, or asks for another revision. -/
def Compares (p : Pair δ) (l : Turn δ) : Prop :=
  (p.catalog l.instance').integrity = none → ∀ d, readDocument (p.disk.settled .catalog) = .ok d →
    d.integrity.join = none ∨ l.operation = .refresh ∨ ∀ n, revisionOf d 0 = .ok n → ¬ (asked l.operation).all (· = n)

/-- No two documents with different versions or revisions have the same digest. -/
structure CollisionFree (hash : Hash δ) (d₀ : PriceDocument δ) : Prop where
  injective : ∀ n m vs ws, hash n vs = hash m ws → n = m ∧ vs = ws
  apart : ∀ n vs, hash n vs = d₀.computed → parseDocument d₀ = .ok (vs, n)

theorem parseVersions_values {vs : List PriceVersion} {seen d : Dict Text PriceVersion} (h : addAll seen vs = .ok d) :
    parseVersions (vs.map some) seen = .ok vs := by
  induction vs generalizing seen with
  | nil => rfl
  | cons v vs ih =>
    rw [addAll, List.foldlM_cons] at h
    obtain ⟨c, hc, h⟩ := bind_eq_ok.mp h
    rw [List.map_cons, parseVersions, hc]
    change (do return v :: (← parseVersions (vs.map some) c) : Except CatalogError _) = _
    rw [ih h]
    rfl

theorem addToMapping_eq_ok {d : Dict Text PriceVersion} {v : PriceVersion} (hid : v.versionId ∉ d.keys)
    (hslot : ∀ w ∈ d.values, slot w ≠ slot v) : addToMapping d v = .ok (d.set v.versionId v) := by
  unfold addToMapping
  rw [if_neg hid, if_neg]
  intro hany
  obtain ⟨w, hw, heq⟩ := List.any_eq_true.mp hany
  simp only [Bool.and_eq_true, decide_eq_true_eq] at heq
  exact hslot w hw (by rw [slot, slot, heq.1.1, heq.1.2, heq.2])

theorem addAll_entries {l : List (Text × PriceVersion)} {d e : Dict Text PriceVersion} (he : e.entries = d.entries ++ l)
    (hv : Valid e) : addAll d (l.map Prod.snd) = .ok e := by
  induction l generalizing d with
  | nil =>
    rw [List.append_nil] at he
    rw [Dict.ext he]
    rfl
  | cons x l ih =>
    have hx : x.2.versionId = x.1 := hv.keyed x (by rw [he]; simp)
    have hdistinct := e.distinct
    rw [he, Rosters.Distinct, List.map_append, List.map_cons] at hdistinct
    have hid : x.2.versionId ∉ d.keys := by
      rw [hx]
      exact fun hm => (List.nodup_append.mp hdistinct).2.2 _ hm _ List.mem_cons_self rfl
    have hslot : ∀ w ∈ d.values, slot w ≠ slot x.2 := by
      have hslots := hv.slots
      rw [Dict.values, he, List.map_append, List.map_append, List.map_cons, List.map_cons] at hslots
      exact fun w hw heq => (List.nodup_append.mp hslots).2.2 _ (List.mem_map_of_mem hw) _ List.mem_cons_self heq
    have hnext : e.entries = (d.set x.2.versionId x.2).entries ++ l := by
      rw [set_entries_of_not_mem hid, he, hx, List.append_assoc]
      rfl
    rw [List.map_cons, addAll, List.foldlM_cons, addToMapping_eq_ok hid hslot]
    exact ih hnext

theorem addAll_values {d : Dict Text PriceVersion} (hd : Valid d) : addAll .empty d.values = .ok d :=
  addAll_entries rfl hd

theorem parse_document {hash : Hash δ} {vs : List PriceVersion} {n : Int} {d : Dict Text PriceVersion} (hn : 0 ≤ n)
    (h : addAll .empty vs = .ok d) : parseDocument (document hash vs n) = .ok (vs, n) := by
  have hrevision : documentRevision (document hash vs n) = .ok n := if_neg (not_lt.mpr hn)
  have hintegrity : checkIntegrity (document hash vs n) = .ok () := if_pos rfl
  have hschema : ¬ ((document hash vs n).schema ≠ some priceCatalogSchema ∨ (document hash vs n).schemaVersion ≠ some 1 ∨
      (document hash vs n).formatVersion ≠ some 1) := by simp [document]
  unfold parseDocument
  rw [if_neg hschema]
  change (do
    let revision ← documentRevision (document hash vs n)
    checkIntegrity (document hash vs n)
    let versions ← parseVersions (vs.map some) .empty
    return (versions, revision) : Except CatalogError _) = _
  rw [hrevision, hintegrity, parseVersions_values h]
  rfl

theorem parse_fields {d : PriceDocument δ} {vs : List PriceVersion} {n : Int} (h : parseDocument d = .ok (vs, n)) :
    0 ≤ n ∧ (∀ x, d.integrity = some x → x = some d.computed) ∧
      (∀ m, revisionOf d m = .ok n ∨ revisionOf d m = .ok m ∧ n = 0) := by
  unfold parseDocument at h
  obtain ⟨-, h⟩ := ite_error_eq_ok.mp h
  split at h
  · cases h
  · next raw hraw =>
    obtain ⟨revision, hrevision, h⟩ := bind_eq_ok.mp h
    obtain ⟨_, hintegrity, h⟩ := bind_eq_ok.mp h
    obtain ⟨parsed, hparsed, h⟩ := bind_eq_ok.mp h
    cases h
    refine ⟨?_, fun x hx => ?_, fun m => ?_⟩
    · unfold documentRevision at hrevision
      split at hrevision
      · cases hrevision
        exact le_refl _
      · cases hrevision
      · obtain ⟨hn, hrevision⟩ := ite_error_eq_ok.mp hrevision
        cases hrevision
        exact not_lt.mp hn
    · unfold checkIntegrity at hintegrity
      rw [hx] at hintegrity
      cases x with
      | none => cases hintegrity
      | some h =>
        by_cases heq : h = d.computed
        · rw [heq]
        · cases (if_neg heq).symm.trans hintegrity
    · unfold documentRevision at hrevision
      unfold revisionOf
      split at hrevision
      · next hnone =>
        cases hrevision
        rw [hnone]
        exact .inr ⟨rfl, rfl⟩
      · cases hrevision
      · next k hk =>
        obtain ⟨-, hrevision⟩ := ite_error_eq_ok.mp hrevision
        cases hrevision
        rw [hk]
        exact .inl rfl

theorem values_parseVersions {raw : List (Option PriceVersion)} {vs : List PriceVersion} {seen : Dict Text PriceVersion}
    (h : parseVersions raw seen = .ok vs) :
    (vs.foldl (fun d v => d.set v.versionId v) seen).values = seen.values ++ vs := by
  induction raw generalizing seen vs with
  | nil =>
    cases h
    exact (List.append_nil _).symm
  | cons r raw ih =>
    cases r with
    | none => cases h
    | some v =>
      unfold parseVersions at h
      obtain ⟨c, hc, h⟩ := bind_eq_ok.mp h
      obtain ⟨rest, hrest, h⟩ := bind_eq_ok.mp h
      cases h
      obtain ⟨hid, -, rfl⟩ := addToMapping_ok hc
      rw [List.foldl_cons, ih hrest, Dict.values, set_entries_of_not_mem hid, List.map_append, List.append_assoc]
      rfl

theorem values_byId {d : PriceDocument δ} {vs : List PriceVersion} {n : Int} (h : parseDocument d = .ok (vs, n)) :
    (byId vs).values = vs := by
  obtain ⟨raw, -, hraw⟩ := parseDocument_versions h
  exact values_parseVersions hraw

section Writes

variable {hash : Hash δ} {c : PriceCatalog δ Unit} {d d₀ : PriceDocument δ} {vs ws : List PriceVersion} {n m : Int}
  {h : δ} {files : Files δ} {op : Operation δ Unit}

/-- A digest that was remembered together with a revision and versions. -/
def Stamp (hash : Hash δ) (d₀ : PriceDocument δ) (h : δ) (n : Int) (vs : List PriceVersion) : Prop :=
  h = hash n vs ∨ d₀.integrity = some (some h) ∧ parseDocument d₀ = .ok (vs, n)

theorem stamp_unique (hfree : CollisionFree hash d₀) (hv : Stamp hash d₀ h n vs) (hw : Stamp hash d₀ h m ws) :
    n = m ∧ vs = ws := by
  have hdoc : ∀ {k xs ys l}, h = hash k xs → d₀.integrity = some (some h) → parseDocument d₀ = .ok (ys, l) →
      k = l ∧ xs = ys := by
    intro k xs ys l hh hd hparse
    have hcomputed := (parse_fields hparse).2.1 _ hd
    have heq : hash k xs = d₀.computed := by
      rw [← hh]
      exact Option.some_inj.mp hcomputed
    cases (hfree.apart k xs heq).symm.trans hparse
    exact ⟨rfl, rfl⟩
  obtain hv | ⟨hd, hparse⟩ := hv
  · obtain hw | ⟨hd, hparse⟩ := hw
    · exact hfree.injective _ _ _ _ (hv.symm.trans hw)
    · exact hdoc hv hd hparse
  · obtain hw | ⟨-, hparse'⟩ := hw
    · obtain ⟨rfl, rfl⟩ := hdoc hw hd hparse
      exact ⟨rfl, rfl⟩
    · cases hparse.symm.trans hparse'
      exact ⟨rfl, rfl⟩

/-- What a catalog opened on the file remembers of what it has read or written. -/
structure Remembers (hash : Hash δ) (d₀ : PriceDocument δ) (c : PriceCatalog δ Unit) : Prop where
  bound : c.path = some ()
  valid : Valid c.versions
  fresh : c.integrity = none → d₀.integrity.join = none ∧ parseDocument d₀ = .ok (c.versions.values, c.revision)
  stamped : ∀ h, c.integrity = some h → Stamp hash d₀ h c.revision c.versions.values

/-- The document on disk: the first one, or one that a catalog wrote. -/
structure Current (hash : Hash δ) (d₀ d : PriceDocument δ) (vs : List PriceVersion) (n : Int) : Prop where
  parses : parseDocument d = .ok (vs, n)
  written : d = d₀ ∨ d = document hash vs n

theorem current_stamp (hd : Current hash d₀ d vs n) (hh : d.integrity = some (some h)) : Stamp hash d₀ h n vs := by
  obtain ⟨hparse, rfl | rfl⟩ := hd
  · exact .inr ⟨hh, hparse⟩
  · cases hh
    exact .inl rfl

variable {expectedRevision : Option Int}

theorem holds_of_checked (hfree : CollisionFree hash d₀) (hc : Remembers hash d₀ c) (hd : Current hash d₀ d vs n)
    (hcheck : checkCurrent c (some d) expectedRevision = .ok ())
    (hcompares : c.integrity = none → d.integrity.join = none ∨
      ∀ n, revisionOf d 0 = .ok n → ¬ expectedRevision.all (· = n)) : c.versions.values = vs ∧ c.revision = n := by
  obtain ⟨k, hk, hcheck⟩ := bind_eq_ok.mp hcheck
  obtain ⟨hall, hcheck⟩ := ite_throw_eq_ok.mp hcheck
  cases hi : c.integrity with
  | none =>
    obtain ⟨-, hparse⟩ := hc.fresh hi
    have hjoin : d.integrity.join = none :=
      (hcompares hi).resolve_right (fun hne => hne k hk (by simpa using hall))
    obtain ⟨hparse', rfl | rfl⟩ := hd
    · cases hparse.symm.trans hparse'
      exact ⟨rfl, rfl⟩
    · cases hjoin
  | some h =>
    have hsame : d.integrity = some (some h) := by
      by_contra hne
      rw [hc.bound, hi, Option.isSome_some, Option.any_some, decide_eq_true hne] at hcheck
      cases hcheck
    have heq := stamp_unique hfree (hc.stamped h hi) (current_stamp hd hsame)
    exact ⟨heq.2, heq.1⟩

theorem addToMapping_values {ds es : Dict Text PriceVersion} {v : PriceVersion} (h : addToMapping ds v = .ok es) :
    es.values = ds.values ++ [v] := by
  obtain ⟨hnew, -, rfl⟩ := addToMapping_ok h
  rw [Dict.values, set_entries_of_not_mem hnew, List.map_append]
  rfl

theorem addAll_append {ds es : Dict Text PriceVersion} (h : addAll ds vs = .ok es) : es.values = ds.values ++ vs := by
  induction vs generalizing ds with
  | nil =>
    cases h
    exact (List.append_nil _).symm
  | cons w vs ih =>
    rw [addAll, List.foldlM_cons] at h
    obtain ⟨e, he, h⟩ := bind_eq_ok.mp h
    rw [ih h, addToMapping_values he, List.append_assoc]
    rfl

variable {ds : Dict Text PriceVersion}

theorem pop_keeps (hds : Valid ds) (k : Text) : ∀ v ∈ ds.values, v ∈ (ds.pop k).values ∨ v.versionId = k := by
  intro v hv
  obtain ⟨l, hl⟩ := mem_values_iff.mp hv
  by_cases heq : l = k
  · exact .inr ((hds.keyed _ (get_eq_some_iff.mp hl)).trans heq)
  · exact .inl (mem_values_iff.mpr ⟨l, by rw [get_pop_of_ne heq, hl]⟩)

structure Writes (hash : Hash δ) (c : PriceCatalog δ Unit) (op : Operation δ Unit) (d : PriceDocument δ)
    (files : Files δ) (n : Int) (plan : Plan δ Unit) (ws : Dict Text PriceVersion) : Prop where
  valid : Valid ws
  checked : checkCurrent c (some d) (asked op) = .ok ()
  kept : ∀ v ∈ c.versions.values, v ∈ ws.values ∨ Removes c v op
  memory : plan.memory = ⟨ws, some (), n + 1, some (hash (n + 1) ws.values)⟩
  write : ∃ backup, plan.write = some (persisted files (document hash ws.values (n + 1)) backup)
  legacy : plan.dropsLegacy = false

structure Reads (c : PriceCatalog δ Unit) (d : PriceDocument δ) (vs : List PriceVersion) (n : Int)
    (plan : Plan δ Unit) : Prop where
  memory : plan.memory = ⟨byId vs, some (), n, rememberedIntegrity d⟩
  write : plan.write = none

theorem commit_writes {plan : Plan δ Unit}
    (hbound : c.path = some ()) (hd : readDocument (files .catalog) = .ok d) (hparse : parseDocument d = .ok (vs, n))
    (hvalid : Valid ds) (hkept : ∀ v ∈ c.versions.values, v ∈ ds.values ∨ Removes c v op)
    (h : commitInside hash c ds (asked op) files = .ok plan) : Writes hash c op d files n plan ds := by
  obtain ⟨current, m, hcurrent, hcheck, hm, rfl⟩ := commitInside_ok h
  cases hcurrent.symm.trans hd
  have hmn : m = n := by
    obtain hr | ⟨hr, h0⟩ := (parse_fields hparse).2.2 0
    · exact Except.ok.inj (hm.symm.trans hr)
    · rw [h0]
      exact Except.ok.inj (hm.symm.trans hr)
  rw [hmn]
  exact ⟨hvalid, hcheck, hkept, by rw [hbound], ⟨true, rfl⟩, rfl⟩

theorem locked_commit {r : Request δ Unit}
    (hbound : c.path = some ()) (h : commitVersions hash c ds expectedRevision = .ok r) :
    r = .locked () (commitInside hash c ds expectedRevision) := by
  unfold commitVersions at h
  rw [hbound] at h
  cases h
  rfl

def Commits (hash : Hash δ) (c : PriceCatalog δ Unit) (op : Operation δ Unit) (r : Request δ Unit) : Prop :=
  op ≠ .refresh ∧ ∃ ds, r = .locked () (commitInside hash c ds (asked op)) ∧ Valid ds ∧
    ∀ v ∈ c.versions.values, v ∈ ds.values ∨ Removes c v op

theorem request_cases {seen : Unit → Files δ} {r : Request δ Unit} (hc : Remembers hash d₀ c)
    (h : request hash seen c op = .ok r) :
    Commits hash c op r ∨ (∃ path generation expectedRevision selected, op = .restoreBackup path generation expectedRevision ∧
      r = .locked () (restoreInside hash c () selected expectedRevision)) ∨
    (op = .refresh ∧ r = .locked () (refreshInside c)) := by
  cases op with
  | add v expectedRevision =>
    obtain ⟨ds, hds, h⟩ := bind_eq_ok.mp h
    refine .inl ⟨nofun, ds, locked_commit hc.bound h, valid_add hc.valid hds, fun w hw => .inl ?_⟩
    rw [addToMapping_values hds]
    exact List.mem_append_left _ hw
  | update v expectedRevision =>
    dsimp only [request] at h
    split at h
    · obtain ⟨ds, hds, h⟩ := bind_eq_ok.mp h
      refine .inl ⟨nofun, ds, locked_commit hc.bound h, valid_add (valid_pop hc.valid _) hds, fun w hw => ?_⟩
      rw [addToMapping_values hds]
      exact (pop_keeps hc.valid _ w hw).imp_left (List.mem_append_left _)
    · cases h
  | remove versionId expectedRevision =>
    dsimp only [request] at h
    split at h
    · exact .inl ⟨nofun, _, locked_commit hc.bound h, valid_pop hc.valid _, pop_keeps hc.valid _⟩
    · cases h
  | importDocument payload expectedRevision =>
    obtain ⟨d, -, h⟩ := bind_eq_ok.mp h
    obtain ⟨⟨vs, n⟩, -, h⟩ := bind_eq_ok.mp h
    obtain ⟨ds, hds, h⟩ := bind_eq_ok.mp h
    exact .inl ⟨nofun, ds, locked_commit hc.bound h, valid_addAll hc.valid hds,
      fun w hw => .inl (by rw [addAll_append hds]; exact List.mem_append_left _ hw)⟩
  | restoreBackup path generation expectedRevision =>
    dsimp only [request] at h
    split at h
    · cases h
    obtain ⟨selected, -, h⟩ := bind_eq_ok.mp h
    cases h
    exact .inr (.inl ⟨path, generation, expectedRevision, selected, rfl, rfl⟩)
  | refresh =>
    dsimp only [request] at h
    rw [hc.bound] at h
    cases h
    exact .inr (.inr ⟨rfl, rfl⟩)

omit [DecidableEq δ] in
theorem current_eq (h : readDocument (files .catalog) = .ok d) : currentDocument files = .ok (some d) := by
  unfold currentDocument
  cases hf : files .catalog with
  | none =>
    rw [hf] at h
    cases h
  | some content =>
    rw [hf] at h
    dsimp only
    rw [h]
    rfl

theorem plan_cases (hfree : CollisionFree hash d₀) {seen : Unit → Files δ} {target : Unit}
    {inside : Files δ → Except CatalogError (Plan δ Unit)} {plan : Plan δ Unit} (hc : Remembers hash d₀ c)
    (hr : request hash seen c op = .ok (.locked target inside)) (hread : readDocument (files .catalog) = .ok d)
    (hd : Current hash d₀ d vs n) (hcompares : c.integrity = none → d.integrity.join = none ∨ op = .refresh ∨
      ∀ n, revisionOf d 0 = .ok n → ¬ (asked op).all (· = n)) (hplan : inside files = .ok plan) :
    Reads c d vs n plan ∨ ∃ ws, Writes hash c op d files n plan ws ∧ c.versions.values = vs := by
  have hholds (hop : op ≠ .refresh) (hcheck : checkCurrent c (some d) (asked op) = .ok ()) :
      c.versions.values = vs ∧ c.revision = n :=
    holds_of_checked hfree hc hd hcheck (fun hi => (hcompares hi).imp_right (fun h => h.resolve_left hop))
  obtain ⟨hop, ds, hr', hds, hkept⟩ | ⟨path, generation, e, selected, rfl, hr'⟩ | ⟨rfl, hr'⟩ := request_cases hc hr
  · cases hr'
    have hw := commit_writes hc.bound hread hd.parses hds hkept hplan
    exact .inr ⟨ds, hw, (hholds hop hw.checked).1⟩
  · cases hr'
    obtain ⟨source, ws, k, m, current, -, hsource, hcurrent, hm, hcheck, rfl⟩ := restoreInside_ok hplan
    cases (current_eq hread).symm.trans hcurrent
    obtain ⟨hvalues, hrevision⟩ := hholds nofun hcheck
    have hmn : m = n := by
      obtain hn | ⟨hn, -⟩ := (parse_fields hd.parses).2.2 c.revision
      · exact Except.ok.inj (hm.symm.trans hn)
      · exact (Except.ok.inj (hm.symm.trans hn)).trans hrevision
    rw [hmn]
    have hws := values_byId hsource
    exact .inr ⟨byId ws, ⟨valid_byId hsource, hcheck, fun v hv => .inr hv, by rw [hws], ⟨true, by rw [hws]; rfl⟩,
      rfl⟩, hvalues⟩
  · cases hr'
    obtain ⟨d', vs', n', hd', hparse, rfl⟩ := refreshInside_ok hplan
    cases hd'.symm.trans hread
    cases hparse.symm.trans hd.parses
    exact .inl ⟨by rw [hc.bound], rfl⟩

end Writes

variable {hash : Hash δ} {p q : Pair δ} {l : Turn δ} {d d₀ : PriceDocument δ} {vs : List PriceVersion} {n : Int}
  {s : Store δ Unit} {env : Steps} {files : Files δ} {plan : Plan δ Unit} {op : Operation δ Unit}

/-- What holds between the operations of a run. -/
structure Known (hash : Hash δ) (d₀ : PriceDocument δ) (p : Pair δ) : Prop where
  remembers : ∀ i, Remembers hash d₀ (p.catalog i)
  disk : ∃ d, readDocument (p.disk.settled .catalog) = .ok d ∧ ∃ vs n, Current hash d₀ d vs n

theorem committed_eq {disk : Disk PriceFile (Content δ)} (hread : readDocument (disk.settled .catalog) = .ok d)
    (hd : Current hash d₀ d vs n) : committed disk = vs := by
  unfold committed
  rw [hread]
  dsimp only
  rw [hd.parses]

theorem committed_congr {disk disk' : Disk PriceFile (Content δ)} (h : disk'.settled = disk.settled) :
    committed disk' = committed disk := by
  rw [committed, committed, h]

/-- What an operation on the file leaves to its instance. -/
structure Continues (hash : Hash δ) (d₀ : PriceDocument δ) (s : Store δ Unit) (op : Operation δ Unit)
    (t : Store δ Unit) : Prop where
  remembers : Remembers hash d₀ t.catalog
  disk : ∃ d, readDocument ((t.disk ()).settled .catalog) = .ok d ∧ ∃ vs n, Current hash d₀ d vs n
  lossless : (t.disk ()).settled = (s.disk ()).settled ∨
    ∀ v ∈ committed (s.disk ()), v ∈ committed (t.disk ()) ∨ Removes s.catalog v op

theorem continues_same {t : Store δ Unit} (hc : Remembers hash d₀ t.catalog)
    (hread : readDocument ((s.disk ()).settled .catalog) = .ok d) (hd : Current hash d₀ d vs n)
    (h : (t.disk ()).settled = (s.disk ()).settled) : Continues hash d₀ s op t :=
  ⟨hc, ⟨d, by rw [h]; exact hread, vs, n, hd⟩, .inl h⟩

variable {c : PriceCatalog δ Unit}

theorem remembers_read (hd : Current hash d₀ d vs n) (h : Reads c d vs n plan) :
    Remembers hash d₀ plan.memory := by
  have hvalues := values_byId hd.parses
  rw [h.memory]
  refine ⟨rfl, valid_byId hd.parses, fun hi => ?_, fun x hx => ?_⟩
  · obtain ⟨hparse, rfl | rfl⟩ := hd
    · exact ⟨hi, by rw [hvalues]; exact hparse⟩
    · cases hi
  · rw [hvalues]
    exact current_stamp hd (Option.join_eq_some_iff.mp hx)

variable {ws : Dict Text PriceVersion}

theorem remembers_written (h : Writes hash c op d files n plan ws) : Remembers hash d₀ plan.memory := by
  rw [h.memory]
  refine ⟨rfl, h.valid, nofun, fun x hx => ?_⟩
  cases hx
  exact .inl rfl

theorem current_written (hash : Hash δ) (d₀ : PriceDocument δ) (hn : 0 ≤ n) (hws : Valid ws) :
    Current hash d₀ (document hash ws.values (n + 1)) ws.values (n + 1) :=
  ⟨parse_document (by omega) (addAll_values hws), .inr rfl⟩

omit [DecidableEq δ] in
theorem setDisk_disk (s : Store δ Unit) (target : Unit) (d : Disk PriceFile (Content δ)) :
    (s.setDisk target d).disk () = d := by
  change Function.update s.disk () d () = d
  rw [Function.update_self]

omit [DecidableEq δ] in
theorem carryOut_reads (h : plan.write = none) :
    (carryOut env s () files plan).2 = ⟨plan.memory, fun _ => ⟨files, none⟩⟩ := by
  unfold carryOut Store.setDisk
  rw [h]
  dsimp only
  congr 1

omit [DecidableEq δ] in
theorem carryOut_writes (s : Store δ Unit) (env : Steps) (files : Files δ) {new : Files δ} (h : plan.write = some new) (hlegacy : plan.dropsLegacy = false) :
    let t := (carryOut env s () files plan).2
    (t.catalog = plan.memory ∨ t.catalog = s.catalog) ∧ ((t.disk ()).settled = files ∨ (t.disk ()).settled = new) := by
  unfold carryOut
  rw [h, hlegacy]
  have hpublish := settled_publish files new env.publish
  rw [← setDisk_disk s () (TransactionOutcomes.publish files new env.publish)] at hpublish
  cases hp : env.publish with
  | done =>
    rw [hp] at hpublish
    dsimp only
    rw [if_neg Bool.false_ne_true]
    exact ⟨.inl rfl, hpublish⟩
  | undone =>
    rw [hp] at hpublish
    exact ⟨.inr rfl, hpublish⟩
  | left published forward =>
    rw [hp] at hpublish
    exact ⟨.inr rfl, hpublish⟩

theorem carryOut_continues (hc : Remembers hash d₀ s.catalog)
    (hread : readDocument ((s.disk ()).settled .catalog) = .ok d) (hd : Current hash d₀ d vs n)
    (hplan : Reads s.catalog d vs n plan ∨
      ∃ ws, Writes hash s.catalog op d (s.disk ()).settled n plan ws ∧ s.catalog.versions.values = vs) :
    Continues hash d₀ s op (carryOut env s () (s.disk ()).settled plan).2 := by
  obtain hreads | ⟨ws, hwrites, hvalues⟩ := hplan
  · rw [carryOut_reads hreads.write]
    exact continues_same (remembers_read hd hreads) hread hd rfl
  · obtain ⟨backup, hwrite⟩ := hwrites.write
    obtain ⟨hcatalog, hdisk⟩ := carryOut_writes s env (s.disk ()).settled hwrite hwrites.legacy
    generalize (carryOut env s () (s.disk ()).settled plan).2 = t at hcatalog hdisk
    have hremembers : Remembers hash d₀ t.catalog := by
      obtain h | h := hcatalog
      · rw [h]
        exact remembers_written hwrites
      · rw [h]
        exact hc
    obtain hsame | hnew := hdisk
    · exact continues_same hremembers hread hd hsame
    · have hread' : readDocument ((t.disk ()).settled .catalog) = .ok (document hash ws.values (n + 1)) := by
        rw [hnew]
        rfl
      have hd' := current_written hash d₀ (parse_fields hd.parses).1 hwrites.valid
      refine ⟨hremembers, ⟨_, hread', _, _, hd'⟩, .inr ?_⟩
      rw [committed_eq hread hd, committed_eq hread' hd', ← hvalues]
      exact hwrites.kept

theorem perform_continues (s : Store δ Unit) (env : Steps) (hfree : CollisionFree hash d₀) (hc : Remembers hash d₀ s.catalog)
    (hread : readDocument ((s.disk ()).settled .catalog) = .ok d) (hd : Current hash d₀ d vs n)
    (hcompares : s.catalog.integrity = none → d.integrity.join = none ∨ op = .refresh ∨
      ∀ n, revisionOf d 0 = .ok n → ¬ (asked op).all (· = n)) :
    Continues hash d₀ s op (perform hash env op s).2 := by
  have hsame : Continues hash d₀ s op s := continues_same hc hread hd rfl
  unfold perform
  cases hr : request hash (fun p => (s.disk p).files) s.catalog op with
  | error e => exact hsame
  | ok r =>
    cases r with
    | finished c =>
      obtain ⟨-, ds, hr', -⟩ | ⟨path, generation, e, selected, -, hr'⟩ | ⟨-, hr'⟩ := request_cases hc hr
      · cases hr'
      · cases hr'
      · cases hr'
    | locked target inside =>
      dsimp only
      split
      · exact hsame
      split
      · next later moved hlater hmoved =>
        refine continues_same hc hread hd ?_
        rw [setDisk_disk, Disk.settled, Disk.settled, hlater]
        rfl
      · cases hplan : inside (s.disk target).settled with
        | error e =>
          refine continues_same hc hread hd ?_
          dsimp only
          rw [setDisk_disk, settled_recover]
        | ok plan => exact carryOut_continues hc hread hd (plan_cases hfree hc hr hread hd hcompares hplan)

theorem known_step (hfree : CollisionFree hash d₀) (hp : Known hash d₀ p) (hl : Compares p l)
    (hq : next hash p l = some q) : Known hash d₀ q ∧ (q.disk.settled = p.disk.settled ∨
      ∀ v ∈ committed p.disk, v ∈ committed q.disk ∨ Removes (p.catalog l.instance') v l.operation) := by
  obtain ⟨d, hread, vs, n, hd⟩ := hp.disk
  cases hq
  have h := perform_continues (p.store l.instance') l.steps hfree (hp.remembers l.instance') hread hd
    (fun hi => hl hi d hread)
  generalize (perform hash l.steps l.operation (p.store l.instance')).2 = t at h
  cases hi : l.instance' with
  | first =>
    rw [hi] at h
    refine ⟨⟨fun j => ?_, h.disk⟩, h.lossless⟩
    cases j with
    | first => exact h.remembers
    | second => exact hp.remembers .second
  | second =>
    rw [hi] at h
    refine ⟨⟨fun j => ?_, h.disk⟩, h.lossless⟩
    cases j with
    | first => exact hp.remembers .first
    | second => exact h.remembers

theorem known_loaded (hash : Hash δ) (hload : loadLocked () files = .ok c) :
    ∃ d₀, readDocument (files .catalog) = .ok d₀ ∧ Known hash d₀ ⟨c, c, ⟨files, none⟩⟩ := by
  obtain ⟨d₀, hread, h⟩ := bind_eq_ok.mp hload
  obtain ⟨⟨vs, n⟩, hparse, h⟩ := bind_eq_ok.mp h
  obtain ⟨ds, hds, h⟩ := bind_eq_ok.mp h
  cases h
  have hvalues : ds.values = vs := addAll_append hds
  have hremembers : Remembers hash d₀ ⟨ds, some (), n, rememberedIntegrity d₀⟩ := by
    refine ⟨rfl, valid_addAll valid_empty hds, fun hi => ⟨hi, by rw [hvalues]; exact hparse⟩, fun x hx => .inr ?_⟩
    rw [hvalues]
    exact ⟨Option.join_eq_some_iff.mp hx, hparse⟩
  exact ⟨d₀, hread, ⟨fun i => by cases i <;> exact hremembers, ⟨d₀, hread, vs, n, hparse, .inl rfl⟩⟩⟩

/-- Where catalogs compare digests before they write, no committed version is lost. -/
theorem nothing_lost {c : PriceCatalog δ Unit} (hload : loadLocked () files = .ok c)
    (hfree : ∀ d₀, readDocument (files .catalog) = .ok d₀ → CollisionFree hash d₀) (turns : List (Turn δ))
    (h : Along (next hash) Compares ⟨c, c, ⟨files, none⟩⟩ turns) :
    Along (next hash) (Lossless hash) ⟨c, c, ⟨files, none⟩⟩ turns := by
  obtain ⟨d₀, hread, hknown⟩ := known_loaded hash hload
  have hd₀ := hfree d₀ hread
  exact along_of_invariant (next hash) (I := Known hash d₀) (fun p l hp hl q hq => (known_step hd₀ hp hl hq).2)
    (fun p l q hl hp hq => (known_step hd₀ hp hl hq).1) hknown h

deriving instance DecidableEq for PriceVersion

abbrev Digest := Int × List PriceVersion

def fullDigest : Hash Digest := fun n vs => (n, vs)

def onDisk (d : PriceDocument Digest) : Files Digest
  | .catalog => some (some d)
  | _ => none

def signed : PriceDocument Digest := document fullDigest [price "a" 0] 1

def unsigned : PriceDocument Digest := { signed with integrity := none }

def opened (d : PriceDocument Digest) : PriceCatalog Digest Unit := ⟨byId [price "a" 0], some (), 1, d.integrity.join⟩

theorem collisionFree_fullDigest {d : PriceDocument Digest} (h : d.computed = (1, [price "a" 0]))
    (hparse : parseDocument d = .ok ([price "a" 0], 1)) : CollisionFree fullDigest d where
  injective n m vs ws heq := ⟨congrArg Prod.fst heq, congrArg Prod.snd heq⟩
  apart n vs heq := by
    rw [h] at heq
    cases heq
    exact hparse

def turn (i : Instance) (op : Operation Digest Unit) : Turn Digest := ⟨i, op, steps true⟩

/-- The second instance refreshes after a conflict, and adds its version to the first's. -/
def refreshed : List (Turn Digest) :=
  [turn .first (.add (price "b" 1) none), turn .second (.add (price "c" 2) none), turn .second .refresh,
    turn .second (.add (price "c" 2) none)]

def bothAdd : List (Turn Digest) :=
  [turn .first (.add (price "b" 1) none), turn .second (.add (price "c" 2) none)]

theorem refreshed_lossless :
    Along (next fullDigest) (Lossless fullDigest) ⟨opened signed, opened signed, ⟨onDisk signed, none⟩⟩ refreshed := by
  refine nothing_lost rfl (fun d hd => ?_) refreshed ?_
  · cases hd
    exact collisionFree_fullDigest rfl rfl
  · have hdigests : Along (next fullDigest) (fun p l => (p.catalog l.instance').integrity ≠ none)
        ⟨opened signed, opened signed, ⟨onDisk signed, none⟩⟩ refreshed := by decide +kernel
    exact along_mono (next fullDigest) (fun p l hne hnone => absurd hnone hne) hdigests

/-- The version that the first instance committed is gone. -/
theorem both_add_loses :
    loadLocked () (onDisk unsigned) = .ok (opened unsigned) ∧ CollisionFree fullDigest unsigned ∧
    ¬ Along (next fullDigest) (Lossless fullDigest) ⟨opened unsigned, opened unsigned, ⟨onDisk unsigned, none⟩⟩ bothAdd := by
  refine ⟨rfl, collisionFree_fullDigest rfl rfl, fun h => ?_⟩
  obtain hsame | hkept := (h.2 _ rfl).1 _ rfl
  · exact absurd (committed_congr hsame) (by decide +kernel)
  · exact (hkept (price "b" 1) (by decide +kernel)).elim (fun hb => absurd hb (by decide +kernel)) id

end Kirara.PriceInterleavings
