import Kirara.PriceInterleavings

namespace Kirara.PriceSyncs

open Kirara.Channels Kirara.Dicts Kirara.Dicts.Dict Kirara.Pricing Kirara.PriceCatalogs Kirara.PriceInvariants
open Kirara.PriceInterleavings (addToMapping_eq_ok)

/-- A member of `cost`, with what `str` makes of a number or a text. -/
inductive PriceValue where
  | bool
  | printed (t : Text)
  | other

/-- Missing members, `None` and members of an unexpected type are all nothing. -/
structure CostNode where
  input : Option PriceValue
  output : Option PriceValue
  cacheRead : Option PriceValue
  cacheWrite : Option PriceValue

structure ModelNode where
  cost : Option CostNode
  name : Option Text

structure ProviderNode where
  models : Option (Dict Text (Option ModelNode))

abbrev UpstreamDocument := Option (Dict Text (Option ProviderNode))

structure UpstreamPriceEntry where
  key : Text
  provider : Text
  model : Text
  displayName : Option Text
  inputPerMillion : Decimal
  outputPerMillion : Decimal
  cacheReadPerMillion : Decimal
  cacheWritePerMillion : Decimal
  deriving DecidableEq

def upstreamVersionPrefix : Text := "upstream:".toList

def UpstreamPriceEntry.versionId (e : UpstreamPriceEntry) : Text := upstreamVersionPrefix ++ e.key

def UpstreamPriceEntry.pair (e : UpstreamPriceEntry) : Text × Text := (e.provider, e.model)

-- `Decimal(text)`, where it is a finite number
variable (decimalOf : Text → Option Decimal)

def asDecimal : Option PriceValue → Option Decimal
  | some (.printed t) => (decimalOf t).filter (fun d => 0 ≤ d.coefficient)
  | _ => none

/-- `d or Decimal("0")`. -/
def orZero (d : Option Decimal) : Decimal := (d.filter (fun d => d.coefficient ≠ 0)).getD ⟨0, 0⟩

def parseModel (providerId modelId : Text) (model : ModelNode) : Option UpstreamPriceEntry :=
  match model.cost with
  | none => none
  | some cost =>
    if asDecimal decimalOf cost.input = none ∧ asDecimal decimalOf cost.output = none then none
    else some {
      key := providerId ++ '/' :: modelId
      provider := providerId
      model := modelId
      displayName := (model.name.map strip).filter (· ≠ [])
      inputPerMillion := orZero (asDecimal decimalOf cost.input)
      outputPerMillion := orZero (asDecimal decimalOf cost.output)
      cacheReadPerMillion := orZero (asDecimal decimalOf cost.cacheRead)
      cacheWritePerMillion := orZero (asDecimal decimalOf cost.cacheWrite) }

def parseProvider (providerId : Text) (provider : ProviderNode) : List UpstreamPriceEntry :=
  match provider.models with
  | none => []
  | some models => models.entries.filterMap (fun m => m.2.bind (parseModel decimalOf providerId m.1))

def parseUpstreamCatalog : UpstreamDocument → List UpstreamPriceEntry
  | none => []
  | some providers => providers.entries.flatMap (fun p => (p.2.map (parseProvider decimalOf p.1)).getD [])

/-- `Decimal.__eq__`. -/
def sameNumber (x y : Decimal) : Bool :=
  let e := min x.exponent y.exponent
  x.coefficient * 10 ^ (x.exponent - e).toNat = y.coefficient * 10 ^ (y.exponent - e).toNat

def isSamePrice (version : PriceVersion) (e : UpstreamPriceEntry) : Bool :=
  sameNumber version.inputPerMillion e.inputPerMillion && sameNumber version.outputPerMillion e.outputPerMillion &&
    sameNumber version.cacheReadPerMillion e.cacheReadPerMillion &&
    sameNumber version.cacheWritePerMillion e.cacheWritePerMillion

structure PriceSyncReport where
  imported : Nat
  unchanged : Nat
  skippedManual : Nat
  changedModels : List Text
  deriving DecidableEq

/-- The catalog and the report as the loop of `_apply` goes on. -/
structure Progress where
  versions : Dict Text PriceVersion
  report : PriceSyncReport

/-- One sync: its time, and which of its writes in `_commit_versions` go through. -/
structure Run where
  syncedAt : Int
  commits : UpstreamPriceEntry → Bool

/-- `existing`. -/
def existingOf (versions : Dict Text PriceVersion) : Dict Text PriceVersion := byId versions.values

def isManual (v : PriceVersion) : Bool := !upstreamVersionPrefix.isPrefixOf v.versionId

def manualKeys (existing : Dict Text PriceVersion) : List (Text × Text) :=
  (existing.values.filter isManual).map (fun v => (v.provider, v.model))

variable (currency : Text)

def versionOf (syncedAt : Int) (e : UpstreamPriceEntry) : Option PriceVersion :=
  if e.provider = [] ∨ e.model = [] ∨ e.displayName.any (fun n => 200 < n.length) ∨ currency.length ≠ 3 then none
  else some {
    versionId := e.versionId
    provider := e.provider
    model := e.model
    effectiveFrom := syncedAt
    currency := currency
    inputPerMillion := e.inputPerMillion
    outputPerMillion := e.outputPerMillion
    cacheReadPerMillion := e.cacheReadPerMillion
    cacheWritePerMillion := e.cacheWritePerMillion }

/-- The mapping that `update` commits. -/
def updateMapping (versions : Dict Text PriceVersion) (v : PriceVersion) : Except CatalogError (Dict Text PriceVersion) :=
  if v.versionId ∈ versions.keys then addToMapping (versions.pop v.versionId) v else .error .keyError

/-- `add` for a new version, and `update` for one that is there. -/
def written (existing versions : Dict Text PriceVersion) (v : PriceVersion) : Except CatalogError (Dict Text PriceVersion) :=
  match existing.get v.versionId with
  | none => addToMapping versions v
  | some _ => updateMapping versions v

/-- A pass of the loop of `_apply`, nothing where a version does not validate. -/
def applyEntry (existing : Dict Text PriceVersion) (run : Run) (e : UpstreamPriceEntry) (s : Progress) : Option Progress :=
  if e.pair ∈ manualKeys existing then some { s with report.skippedManual := s.report.skippedManual + 1 }
  else if (existing.get e.versionId).any (fun current => isSamePrice current e) then
    some { s with report.unchanged := s.report.unchanged + 1 }
  else
    match versionOf currency run.syncedAt e with
    | none => none
    | some v =>
      match written existing s.versions v with
      | .error _ => some s
      | .ok versions =>
        if run.commits e then some ⟨versions, { s.report with
          imported := s.report.imported + 1
          changedModels := s.report.changedModels ++ [e.key] }⟩
        else some s

/-- The loop of `_apply`, and whether a `ValidationError` ends it. -/
def applyEntries (existing : Dict Text PriceVersion) (run : Run) : List UpstreamPriceEntry → Progress → Bool × Progress
  | [], s => (false, s)
  | e :: es, s =>
    match applyEntry currency existing run e s with
    | none => (true, s)
    | some s => applyEntries existing run es s

def wanted (only : Option (List Text)) (es : List UpstreamPriceEntry) : List UpstreamPriceEntry :=
  match only with
  | none => es
  | some keys => es.filter (fun e => e.key ∈ keys)

/-- `sync`, from the document on. -/
def sync (decimalOf : Text → Option Decimal) (document : UpstreamDocument) (only : Option (List Text)) (run : Run)
    (versions : Dict Text PriceVersion) : Bool × Progress :=
  applyEntries currency (existingOf versions) run (wanted only (parseUpstreamCatalog decimalOf document))
    ⟨versions, ⟨0, 0, 0, []⟩⟩

variable {δ π : Type} [DecidableEq δ] [DecidableEq π] {hash : Hash δ} {env : Steps} {s : Store δ π} {v : PriceVersion}
  {updated : Except CatalogError (Dict Text PriceVersion)}

def Commits (hash : Hash δ) (s : Store δ π) (op : Operation δ π) (updated : Except CatalogError (Dict Text PriceVersion)) :
    Prop :=
  request hash (fun p => (s.disk p).files) s.catalog op = updated.bind (fun ds => commitVersions hash s.catalog ds none)

omit [DecidableEq π] in
theorem commits_add : Commits hash s (.add v none) (addToMapping s.catalog.versions v) := rfl

omit [DecidableEq π] in
theorem commits_update : Commits hash s (.update v none) (updateMapping s.catalog.versions v) := by
  unfold Commits updateMapping
  change (if v.versionId ∈ s.catalog.versions.keys then _ else _) = _
  by_cases h : v.versionId ∈ s.catalog.versions.keys
  · rw [if_pos h, if_pos h]
    rfl
  · rw [if_neg h, if_neg h]
    rfl

omit [DecidableEq δ] in
theorem carryOut_versions (env : Steps) (s : Store δ π) (target : π) (files : Files δ) (plan : Plan δ π) :
    ((carryOut env s target files plan).1 = none ∧
        (carryOut env s target files plan).2.catalog.versions = plan.memory.versions) ∨
      ((carryOut env s target files plan).1 ≠ none ∧
        (carryOut env s target files plan).2.catalog.versions = s.catalog.versions) := by
  unfold carryOut
  split
  · exact .inl ⟨rfl, rfl⟩
  dsimp only
  split
  · split
    · split
      · exact .inl ⟨rfl, rfl⟩
      · exact .inr ⟨nofun, rfl⟩
    · exact .inl ⟨rfl, rfl⟩
  · exact .inr ⟨nofun, rfl⟩

theorem perform_commits {op : Operation δ π} (h : Commits hash s op updated) :
    ((perform hash env op s).1 = none ∧ ∃ ds, updated = .ok ds ∧ (perform hash env op s).2.catalog.versions = ds) ∨
      ((perform hash env op s).1 ≠ none ∧ (perform hash env op s).2.catalog.versions = s.catalog.versions) := by
  unfold perform
  rw [h]
  cases updated with
  | error e => exact .inr ⟨nofun, rfl⟩
  | ok ds =>
    dsimp only [Except.bind]
    cases hc : commitVersions hash s.catalog ds none with
    | error e => exact .inr ⟨nofun, rfl⟩
    | ok r =>
      unfold commitVersions at hc
      split at hc
      · split at hc
        · cases hc
          exact .inl ⟨rfl, ds, rfl, rfl⟩
        · cases hc
      · cases hc
        dsimp only
        split
        · exact .inr ⟨nofun, rfl⟩
        split
        · exact .inr ⟨nofun, rfl⟩
        split
        · exact .inr ⟨nofun, rfl⟩
        · next plan hplan =>
          obtain ⟨_, _, _, _, _, rfl⟩ := commitInside_ok hplan
          obtain ⟨hnone, hversions⟩ | hsome := carryOut_versions env s _ _ _
          · exact .inl ⟨hnone, ds, rfl, hversions⟩
          · exact .inr hsome

end Kirara.PriceSyncs
