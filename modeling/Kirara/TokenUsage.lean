import Kirara.Overrides
import Kirara.Pricing

namespace Kirara.TokenUsage

open Kirara.Channels Kirara.Overrides Kirara.Pricing

/-- What the estimator reads of a content part. -/
inductive Part where
  | text (t : Text)
  | image
  | other (t : Option Text)
  deriving DecidableEq

structure Message (δ : Type) where
  role : Text
  content : List Part
  toolCalls : Option (List δ)
  finishReason : Option Text

structure Response (δ : Type) where
  model : Option Text
  usage : Option Usage
  message : Message δ

/-- The ranges of `_CJK_PATTERN`. -/
def cjkRanges : List (Nat × Nat) :=
  [(0x1100, 0x115f), (0x2e80, 0xa4cf), (0xac00, 0xd7a3), (0xf900, 0xfaff), (0xfe30, 0xfe4f),
    (0xff00, 0xff60), (0xffe0, 0xffe6)]

def isCjk (c : Char) : Bool := cjkRanges.any (fun r => r.1 ≤ c.toNat && c.toNat ≤ r.2)

/-- `estimate_text_tokens`, counted in quarters of a token. -/
def estimateTextTokens (t : Text) : Nat :=
  if t = [] then 0
  else
    let other := t.countP (fun c => !isSpace c && !isCjk c && !c.isAlphanum)
    max 1 (divHalfEven (4 * t.countP isCjk + t.countP Char.isAlphanum + 4 * other) 4)

def Part.tokens : Part → Nat
  | .text t => estimateTextTokens t
  | .image => 85
  | .other t => (t.map estimateTextTokens).getD 0

def estimateMessageTokens (contents : List (List Part)) : Nat :=
  (contents.map (fun parts =>
    let body := (parts.map Part.tokens).sum
    if body = 0 then 0 else 4 + body)).sum

def reported (n : Nat) : Option Int := if n = 0 then none else some n

def estimateUsage (requestContents : List (List Part)) (responseContent : List Part) : Option Usage :=
  let promptTokens := estimateMessageTokens requestContents
  let completionTokens := estimateMessageTokens [responseContent]
  if promptTokens = 0 ∧ completionTokens = 0 then none
  else
    some {
      completionTokens := reported completionTokens
      promptTokens := reported promptTokens
      totalTokens := reported (promptTokens + completionTokens)
      cachedTokens := none
      cacheWriteTokens := none
      source := .estimated }

variable {δ : Type}

def markProviderUsage (r : Response δ) : Response δ :=
  match r.usage with
  | none => r
  | some usage =>
    let fields := [usage.promptTokens, usage.completionTokens, usage.totalTokens,
      usage.cachedTokens, usage.cacheWriteTokens]
    if usage.source ≠ .unknown ∨ fields.all Option.isNone then r
    else
      { r with
        usage := some { usage with
          source := if fields.all Option.isSome then .provider else .providerPartial } }

def attachEstimatedUsage (requestContents : List (List Part)) (r : Response δ) : Response δ :=
  match r.usage with
  | some _ => r
  | none =>
    match estimateUsage requestContents r.message.content with
    | none => r
    | some usage => { r with usage := some usage }

def combineStreamResponses (requestModel : Option Text) : List (Response δ) → Response δ
  | [] => ⟨requestModel, none, ⟨"assistant".toList, [], none, none⟩⟩
  | [r] => r
  | r :: s :: rs =>
    let all := r :: s :: rs
    let calls := all.flatMap (fun x => x.message.toolCalls.getD [])
    { model := all.foldl (fun m x => if x.model.any (· ≠ []) then x.model else m) requestModel
      usage := all.foldl (fun u x => x.usage.or u) none
      message := {
        role := ((r :: s :: rs).getLast (List.cons_ne_nil r _)).message.role
        content := all.flatMap (fun x => x.message.content)
        toolCalls := if calls.isEmpty then none else some calls
        finishReason := all.foldl (fun f x =>
          if x.message.finishReason.any (· ≠ []) then x.message.finishReason else f) none } }

/-- `_USAGE_COUNT_FIELDS`. -/
inductive CountField where
  | promptTokens
  | completionTokens
  | totalTokens
  | cachedTokens
  | cacheWriteTokens
  deriving DecidableEq

def count (u : Usage) : CountField → Option Int
  | .promptTokens => u.promptTokens
  | .completionTokens => u.completionTokens
  | .totalTokens => u.totalTokens
  | .cachedTokens => u.cachedTokens
  | .cacheWriteTokens => u.cacheWriteTokens

def mergeUsage (accumulated incoming : Usage) : Usage where
  completionTokens := incoming.completionTokens.or accumulated.completionTokens
  promptTokens := incoming.promptTokens.or accumulated.promptTokens
  totalTokens := incoming.totalTokens.or accumulated.totalTokens
  cachedTokens := incoming.cachedTokens.or accumulated.cachedTokens
  cacheWriteTokens := incoming.cacheWriteTokens.or accumulated.cacheWriteTokens
  source := if incoming.source ≠ .unknown then incoming.source else accumulated.source

def mergeStreamUsage (accumulated incoming : Option Usage) : Option Usage :=
  match incoming with
  | none => accumulated
  | some incoming =>
    match accumulated with
    | none => some incoming
    | some accumulated => some (mergeUsage accumulated incoming)

def aggregatedUsage (chunks : List (Response δ)) : Option Usage :=
  chunks.foldl (fun usage chunk => mergeStreamUsage usage chunk.usage) none

def billedUsage (requestModel : Option Text) (chunks : List (Response δ)) : Option Usage :=
  (combineStreamResponses requestModel chunks).usage

def knownSource (u : Usage) : Option UsageSource := if u.source = .unknown then none else some u.source

theorem mergeStreamUsage_eq (x y : Option Usage) : mergeStreamUsage x y = Option.merge mergeUsage x y := by
  cases x <;> cases y <;> rfl

theorem aggregatedUsage_eq (chunks : List (Response δ)) :
    aggregatedUsage chunks = merged mergeUsage (chunks.map Response.usage) := by
  simp only [aggregatedUsage, merged, List.foldl_map, mergeStreamUsage_eq]

theorem billedUsage_eq (requestModel : Option Text) (chunks : List (Response δ)) :
    billedUsage requestModel chunks = latest (chunks.map Response.usage) := by
  cases chunks with
  | nil => rfl
  | cons r rest =>
    cases rest with
    | nil => exact (Option.or_none).symm
    | cons s rest => simp only [billedUsage, combineStreamResponses, latest, List.foldl_map]

@[simp] theorem count_mergeUsage (x y : Usage) (f : CountField) :
    count (mergeUsage x y) f = (count y f).or (count x f) := by
  cases f <;> rfl

@[simp] theorem knownSource_mergeUsage (x y : Usage) :
    knownSource (mergeUsage x y) = (knownSource y).or (knownSource x) := by
  by_cases h : y.source = .unknown
  · simp [knownSource, mergeUsage, h]
  · simp [knownSource, mergeUsage, h]

theorem usage_ext {x y : Usage} (hcount : ∀ f, count x f = count y f) (hsource : knownSource x = knownSource y) :
    x = y := by
  have hprompt := hcount .promptTokens
  have hcompletion := hcount .completionTokens
  have htotal := hcount .totalTokens
  have hcached := hcount .cachedTokens
  have hwrite := hcount .cacheWriteTokens
  obtain ⟨_, _, _, _, _, sx⟩ := x
  obtain ⟨_, _, _, _, _, sy⟩ := y
  cases sx <;> cases sy <;> simp_all [count, knownSource]

theorem overriding_mergeUsage : Overriding mergeUsage := by
  have hview : Function.Injective (fun u : Usage => (count u, knownSource u)) := by
    intro x y h
    exact usage_ext (congrFun (congrArg Prod.fst h)) (congrArg Prod.snd h)
  apply (overriding_or.pi.prod overriding_or).of_injective hview
  intro x y
  apply Prod.ext
  · exact funext (count_mergeUsage x y)
  · exact knownSource_mergeUsage x y

/-- A report speaks of everything that an earlier one speaks of. -/
structure Supersedes (later earlier : Usage) : Prop where
  counts : ∀ f, count later f = none → count earlier f = none
  source : later.source = .unknown → earlier.source = .unknown

theorem knownSource_eq_none {u : Usage} : knownSource u = none ↔ u.source = .unknown := by
  simp [knownSource]

theorem mergeUsage_eq_self_iff {x y : Usage} : mergeUsage x y = y ↔ Supersedes y x := by
  constructor
  · intro h
    have hcount (f : CountField) : (count y f).or (count x f) = count y f := by
      rw [← count_mergeUsage, h]
    have hsource : (knownSource y).or (knownSource x) = knownSource y := by
      rw [← knownSource_mergeUsage, h]
    rw [or_eq_self_iff, knownSource_eq_none, knownSource_eq_none] at hsource
    exact ⟨fun f => or_eq_self_iff.mp (hcount f), hsource⟩
  · intro h
    have hsource := h.source
    rw [← knownSource_eq_none, ← knownSource_eq_none, ← or_eq_self_iff] at hsource
    apply usage_ext
    · intro f
      rw [count_mergeUsage, or_eq_self_iff]
      exact h.counts f
    · rw [knownSource_mergeUsage, hsource]

/-- The last chunk with a usage speaks of all that earlier ones speak of. -/
def LastSaysAll (chunks : List (Response δ)) : Prop :=
  ∀ before last after u, chunks = before ++ last :: after → last.usage = some u →
    (∀ chunk ∈ after, chunk.usage = none) → ∀ chunk ∈ before, ∀ v, chunk.usage = some v → Supersedes u v

/-- What the runtime aggregates is billed exactly when the last report says all. -/
theorem aggregated_eq_billed_iff (requestModel : Option Text) (chunks : List (Response δ)) :
    aggregatedUsage chunks = billedUsage requestModel chunks ↔ LastSaysAll chunks := by
  rw [aggregatedUsage_eq, billedUsage_eq, merged_eq_latest_iff overriding_mergeUsage]
  constructor
  · intro h before last after u hchunks hlast hafter chunk hchunk v hv
    subst hchunks
    rw [← mergeUsage_eq_self_iff]
    apply h (before.map Response.usage) (after.map Response.usage) u
    · simp [hlast]
    · simpa using hafter
    · exact List.mem_map.mpr ⟨chunk, hchunk, hv⟩
  · intro h before after u hchunks hafter v hv
    obtain ⟨front, rest, hsplit, hfront, hrest⟩ := List.map_eq_append_iff.mp hchunks
    obtain ⟨last, back, hcons, hlast, hback⟩ := List.map_eq_cons_iff.mp hrest
    subst hfront hback hcons
    obtain ⟨chunk, hchunk, hv⟩ := List.mem_map.mp hv
    rw [mergeUsage_eq_self_iff]
    exact h front last back u hsplit hlast (by simpa using hafter) chunk hchunk v hv

def noUsage : Usage := ⟨none, none, none, none, none, .unknown⟩

def chunkWith (u : Usage) : Response Unit := ⟨none, some u, ⟨"assistant".toList, [], none, none⟩⟩

/-- Prompt tokens come with the first chunk, completion tokens with the last. -/
def splitReport : List (Response Unit) :=
  [chunkWith { noUsage with promptTokens := some 1200, source := .providerPartial },
    chunkWith { noUsage with completionTokens := some 340, totalTokens := some 1540, source := .providerPartial }]

theorem split_report_billed_short : aggregatedUsage splitReport =
        some ⟨some 340, some 1200, some 1540, none, none, .providerPartial⟩ ∧
      billedUsage none splitReport = some ⟨some 340, none, some 1540, none, none, .providerPartial⟩ ∧
      aggregatedUsage splitReport ≠ billedUsage none splitReport := by
  decide

end Kirara.TokenUsage
