import Kirara.Channels
import Kirara.Fallible
import Mathlib.Data.Nat.Log

namespace Kirara.Pricing

open Kirara.Channels Kirara.Fallible

/-- A finite `decimal.Decimal`. -/
structure Decimal where
  coefficient : Int
  exponent : Int
  deriving DecidableEq

def precision : Nat := 28

def digits (n : Nat) : Nat := if n = 0 then 1 else Nat.log 10 n + 1

/-- `n / d`, rounded to the nearest integer, and to the even one of two. -/
def divHalfEven (n d : Nat) : Nat :=
  if 2 * (n % d) < d then n / d
  else if 2 * (n % d) = d then n / d + (n / d) % 2
  else n / d + 1

def dropDigits (k : Nat) (c : Int) : Int := c.sign * divHalfEven c.natAbs (10 ^ k)

/-- An exact result rounded. A carry into one more digit is a zero more at the end. -/
def Decimal.round (x : Decimal) : Decimal :=
  let excess := digits x.coefficient.natAbs - precision
  let y : Decimal := ⟨dropDigits excess x.coefficient, x.exponent + excess⟩
  if precision < digits y.coefficient.natAbs then ⟨y.coefficient / 10, y.exponent + 1⟩ else y

def Decimal.mul (x y : Decimal) : Decimal :=
  Decimal.round ⟨x.coefficient * y.coefficient, x.exponent + y.exponent⟩

def Decimal.add (x y : Decimal) : Decimal :=
  let e := min x.exponent y.exponent
  Decimal.round ⟨x.coefficient * 10 ^ (x.exponent - e).toNat + y.coefficient * 10 ^ (y.exponent - e).toNat, e⟩

/-- `x / Decimal("1000000")`. -/
def Decimal.perMillion (x : Decimal) : Decimal := ⟨x.coefficient, x.exponent - 6⟩

inductive PricingError where
  | lookupError
  | valueError
  | invalidOperation
  deriving DecidableEq

def Decimal.scaled (x : Decimal) : Int :=
  if 0 ≤ x.exponent + 8 then x.coefficient * 10 ^ (x.exponent + 8).toNat
  else dropDigits (-(x.exponent + 8)).toNat x.coefficient

/-- `x.quantize(Decimal("0.00000001"))`, which raises where the precision is too low. -/
def Decimal.quantize (x : Decimal) : Except PricingError Decimal :=
  if precision < digits x.scaled.natAbs then .error .invalidOperation else .ok ⟨x.scaled, -8⟩

inductive UsageSource where
  | provider
  | providerPartial
  | estimated
  | unknown
  deriving DecidableEq

structure Usage where
  completionTokens : Option Int
  promptTokens : Option Int
  totalTokens : Option Int
  cachedTokens : Option Int
  cacheWriteTokens : Option Int
  source : UsageSource
  deriving DecidableEq

structure PriceVersion where
  versionId : Text
  provider : Text
  model : Text
  effectiveFrom : Int
  currency : Text
  inputPerMillion : Decimal
  outputPerMillion : Decimal
  cacheReadPerMillion : Decimal
  cacheWritePerMillion : Decimal

structure CostSnapshot where
  priceVersionId : Text
  provider : Text
  model : Text
  currency : Text
  pricedAt : Int
  inputTokens : Option Int
  outputTokens : Option Int
  cacheReadTokens : Option Int
  cacheWriteTokens : Option Int
  inputCost : Option Decimal
  outputCost : Option Decimal
  cacheReadCost : Option Decimal
  cacheWriteCost : Option Decimal
  totalCost : Option Decimal
  usageSource : UsageSource
  deriving DecidableEq

/-- `PriceCatalog.resolve`. No two versions of a model start at the same time. -/
def resolve (catalog : List PriceVersion) (provider model : Text) (requestedAt : Int) :
    Except PricingError PriceVersion :=
  match catalog.filter (fun v => v.provider = provider && v.model = model &&
      v.effectiveFrom ≤ requestedAt) with
  | [] => .error .lookupError
  | first :: rest =>
    .ok (rest.foldl (fun best v => if best.effectiveFrom < v.effectiveFrom then v else best) first)

def inputTokens (usage : Usage) : Option Int :=
  usage.promptTokens.map (fun n =>
    max 0 (n - (usage.cachedTokens.getD 0 + usage.cacheWriteTokens.getD 0)))

def cost (tokens : Option Int) (rate : Decimal) : Except PricingError (Option Decimal) :=
  match tokens with
  | none => .ok none
  | some n => ((Decimal.mul ⟨n, 0⟩ rate).perMillion.quantize).map some

def calculateCostSnapshot (usage : Usage) (price : PriceVersion) (requestedAt : Int)
    (provider model : Text) : Except PricingError CostSnapshot := do
  if (if provider = [] then price.provider else provider) ≠ price.provider ∨
      (if model = [] then price.model else model) ≠ price.model then
    throw .valueError
  let inputCost ← cost (inputTokens usage) price.inputPerMillion
  let outputCost ← cost usage.completionTokens price.outputPerMillion
  let cacheReadCost ← cost usage.cachedTokens price.cacheReadPerMillion
  let cacheWriteCost ← cost usage.cacheWriteTokens price.cacheWritePerMillion
  let priced := [inputCost, outputCost, cacheReadCost, cacheWriteCost].filterMap id
  return {
    priceVersionId := price.versionId
    provider := price.provider
    model := price.model
    currency := price.currency
    pricedAt := requestedAt
    inputTokens := inputTokens usage
    outputTokens := usage.completionTokens
    cacheReadTokens := usage.cachedTokens
    cacheWriteTokens := usage.cacheWriteTokens
    inputCost := inputCost
    outputCost := outputCost
    cacheReadCost := cacheReadCost
    cacheWriteCost := cacheWriteCost
    totalCost := if priced = [] then none else some (priced.foldl Decimal.add ⟨0, 0⟩)
    usageSource := usage.source }

def Fits (tokens : Option Int) (rate : Decimal) : Prop :=
  ∀ n, tokens = some n → digits (Decimal.mul ⟨n, 0⟩ rate).perMillion.scaled.natAbs ≤ precision

structure PriceVersion.Covers (price : PriceVersion) (usage : Usage) : Prop where
  input : Fits (inputTokens usage) price.inputPerMillion
  output : Fits usage.completionTokens price.outputPerMillion
  cacheRead : Fits usage.cachedTokens price.cacheReadPerMillion
  cacheWrite : Fits usage.cacheWriteTokens price.cacheWritePerMillion

theorem quantize_ok_iff {x : Decimal} : (∃ y, x.quantize = .ok y) ↔ digits x.scaled.natAbs ≤ precision := by
  unfold Decimal.quantize
  split
  · next h => exact ⟨fun ⟨_, hy⟩ => (nomatch hy), fun hle => absurd h (by omega)⟩
  · next h => exact ⟨fun _ => by omega, fun _ => ⟨_, rfl⟩⟩

variable {e : PricingError}

theorem quantize_error {x : Decimal} (h : x.quantize = .error e) : e = .invalidOperation := by
  unfold Decimal.quantize at h
  split at h
  · cases h
    rfl
  · cases h

theorem cost_ok_iff {tokens : Option Int} {rate : Decimal} :
    (∃ c, cost tokens rate = .ok c) ↔ Fits tokens rate := by
  cases tokens with
  | none => exact ⟨fun _ n hn => (nomatch hn), fun _ => ⟨none, rfl⟩⟩
  | some n =>
    have hcost : cost (some n) rate = ((Decimal.mul ⟨n, 0⟩ rate).perMillion.quantize).map some := rfl
    rw [hcost, map_ok_iff, quantize_ok_iff]
    constructor
    · intro h m hm
      cases hm
      exact h
    · intro h
      exact h n rfl

theorem cost_error {tokens : Option Int} {rate : Decimal}
    (h : cost tokens rate = .error e) : e = .invalidOperation := by
  cases tokens with
  | none => cases h
  | some n => exact quantize_error (map_error h)

variable {catalog : List PriceVersion}

theorem resolve_mem {provider model : Text} {t : Int}
    {price : PriceVersion} (h : resolve catalog provider model t = .ok price) :
    price ∈ catalog ∧ price.provider = provider ∧ price.model = model ∧ price.effectiveFrom ≤ t := by
  have hfold : ∀ (vs : List PriceVersion) (v : PriceVersion),
      vs.foldl (fun best v => if best.effectiveFrom < v.effectiveFrom then v else best) v ∈ v :: vs := by
    intro vs
    induction vs with
    | nil => exact fun v => List.mem_singleton_self v
    | cons w vs ih =>
      intro v
      obtain hv | hv := List.mem_cons.mp (ih (if v.effectiveFrom < w.effectiveFrom then w else v))
      · rw [List.foldl_cons, hv]
        split <;> simp
      · exact List.mem_cons_of_mem _ (List.mem_cons_of_mem _ hv)
  unfold resolve at h
  split at h
  · cases h
  · next first rest hf =>
    cases h
    have hmem := hfold rest first
    rw [← hf] at hmem
    simpa [and_assoc] using hmem

theorem resolve_error {provider model : Text} {t : Int}
    (h : resolve catalog provider model t = .error e) : e = .lookupError := by
  unfold resolve at h
  split at h
  · cases h
    rfl
  · cases h

variable {usage : Usage} {price : PriceVersion} {t : Int}

theorem calculateCostSnapshot_ok_iff :
    (∃ c, calculateCostSnapshot usage price t price.provider price.model = .ok c) ↔
      price.Covers usage := by
  constructor
  · intro ⟨c, hc⟩
    simp only [calculateCostSnapshot, ite_self, ne_eq, not_true_eq_false, or_self, if_false] at hc
    obtain ⟨a, ha, hc⟩ := bind_eq_ok.mp hc
    obtain ⟨b, hb, hc⟩ := bind_eq_ok.mp hc
    obtain ⟨x, hx, hc⟩ := bind_eq_ok.mp hc
    obtain ⟨y, hy, hc⟩ := bind_eq_ok.mp hc
    exact ⟨cost_ok_iff.mp ⟨a, ha⟩, cost_ok_iff.mp ⟨b, hb⟩, cost_ok_iff.mp ⟨x, hx⟩, cost_ok_iff.mp ⟨y, hy⟩⟩
  · intro h
    obtain ⟨a, ha⟩ := cost_ok_iff.mpr h.input
    obtain ⟨b, hb⟩ := cost_ok_iff.mpr h.output
    obtain ⟨x, hx⟩ := cost_ok_iff.mpr h.cacheRead
    obtain ⟨y, hy⟩ := cost_ok_iff.mpr h.cacheWrite
    simp only [calculateCostSnapshot, ite_self, ne_eq, not_true_eq_false, or_self, if_false, ha, hb, hx, hy]
    exact ⟨_, rfl⟩

theorem calculateCostSnapshot_error
    (h : calculateCostSnapshot usage price t price.provider price.model = .error e) :
    e = .invalidOperation := by
  simp only [calculateCostSnapshot, ite_self, ne_eq, not_true_eq_false, or_self, if_false] at h
  refine of_bind_error h cost_error (fun _ h => ?_)
  refine of_bind_error h cost_error (fun _ h => ?_)
  refine of_bind_error h cost_error (fun _ h => ?_)
  exact of_bind_error h cost_error (fun _ h => (nomatch h))

end Kirara.Pricing
