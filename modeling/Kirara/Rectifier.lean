import Kirara.Channels
import Kirara.Rosters
import Mathlib.Data.Rat.Defs

namespace Kirara.Rectifier

open Kirara.Channels Kirara.Rosters

/-- A value of a request body. A float has a value where it is finite; the order of keys is left
open. -/
inductive Json where
  | null
  | bool (b : Bool)
  | int (n : Int)
  | float (x : Option ℚ)
  | text (t : Text)
  | list (items : List Json)
  | dict (fields : String → Option Json)

abbrev Body := String → Option Json

def fields (entries : List (String × Json)) : Body := fun key => lookup key entries

def set (d : Body) (key : String) (v : Json) : Body := Function.update d key (some v)

def pop (d : Body) (key : String) : Body := Function.update d key none

/-- `isinstance(value, int)`, which booleans are as well. -/
def asInt : Json → Option Int
  | .bool b => some b.toNat
  | .int n => some n
  | _ => none

def equalsInt (v : Json) (n : Int) : Bool :=
  match v with
  | .float x => x = some (n : ℚ)
  | v => asInt v = some n

def isText (v : Option Json) (t : String) : Bool :=
  match v with
  | some (.text u) => u = t.toList
  | _ => false

def isUnhashable : Json → Bool
  | .list _ | .dict _ => true
  | _ => false

def inDict (f : Body → Body) : Json → Json
  | .dict d => .dict (f d)
  | v => v

def inItems (f : Json → Option Json) : Json → Json
  | .list vs => .list (vs.filterMap f)
  | v => v

def modify (key : String) (f : Json → Json) (d : Body) : Body := Function.update d key ((d key).map f)

def items (key : String) (d : Body) : List Json :=
  match d key with
  | some (.list vs) => vs
  | _ => []

def dicts (vs : List Json) : List Body :=
  vs.filterMap fun v =>
    match v with
    | .dict d => some d
    | _ => none

inductive Kind where
  | thinkingSignature
  | thinkingBudget
  | mediaFallback
  | thinkingUnsupported
  | reasoningEffortUnsupported
  deriving DecidableEq

structure RectifyRecord where
  kind : Kind
  applied : Bool
  details : Body

def untouched (kind : Kind) : RectifyRecord := ⟨kind, false, fields []⟩

def rectifiedThinkingBudget : Int := 32000

def rectifiedMaxTokens : Int := 64000

def rectifiedGeminiThinkingBudget : Int := 8192

def rectifiedGeminiMaxOutputTokens : Int := 16384

def unsupportedImagePlaceholder : Text := "[Unsupported Image]".toList

def isThinking (block : Body) : Bool := isText (block "type") "thinking"

def isRedactedThinking (block : Body) : Bool := isText (block "type") "redacted_thinking"

def keptBlock : Json → Option Json
  | .dict block => if isThinking block || isRedactedThinking block then none else some (.dict (pop block "signature"))
  | v => some v

def rectifyThinkingSignature (body : Body) : Body × RectifyRecord :=
  match body "messages" with
  | some (.list messages) =>
    let blocks := dicts ((dicts messages).flatMap (items "content"))
    let thinking := blocks.countP isThinking
    let redacted := blocks.countP isRedactedThinking
    let signature := blocks.countP fun block =>
      !(isThinking block || isRedactedThinking block) && (block "signature").isSome
    (set body "messages" (.list (messages.map (inDict (modify "content" (inItems keptBlock))))),
      { kind := .thinkingSignature
        applied := thinking + redacted + signature ≠ 0
        details := fields [("removed_thinking_blocks", .int thinking),
          ("removed_redacted_thinking_blocks", .int redacted), ("removed_signature_fields", .int signature)] })
  | _ => (body, untouched .thinkingSignature)

/-- The maximum that was found stays where it is above the budget. -/
structure Limit where
  budget : Int
  least : Int
  found : Option Json

def Limit.kept (l : Limit) : Bool := (l.found.bind asInt).any (l.budget < ·)

def Limit.after (l : Limit) : Option Json := if l.kept then l.found else some (.int l.least)

def Limit.unchanged (l : Limit) : Bool := l.kept || l.found.any (equalsInt · l.least)

/-- The values before and after under the names of a record, `None` where missing. -/
def summary (names : List String) (before after : List (Option Json)) : Body :=
  let entries := fun (vs : List (Option Json)) => Json.dict (fields (names.zip (vs.map (·.getD .null))))
  fields [("before", entries before), ("after", entries after)]

def rectifyThinkingBudget (body : Body) : Body × RectifyRecord :=
  let thinking : Body :=
    match body "thinking" with
    | some (.dict thinking) => thinking
    | _ => fields []
  if isText (thinking "type") "adaptive" then
    (body, { untouched .thinkingBudget with details := fields [("skipped", .text "adaptive".toList)] })
  else
    let limit : Limit := ⟨rectifiedThinkingBudget, rectifiedMaxTokens, body "max_tokens"⟩
    let after : Body := fields [("type", .text "enabled".toList), ("budget_tokens", .int rectifiedThinkingBudget)]
    (Function.update (set body "thinking" (.dict after)) "max_tokens" limit.after,
      { kind := .thinkingBudget
        applied := !(limit.unchanged && isText (thinking "type") "enabled" &&
          (thinking "budget_tokens").any (equalsInt · rectifiedThinkingBudget))
        details := summary ["max_tokens", "thinking_type", "budget_tokens"]
          [limit.found, thinking "type", thinking "budget_tokens"]
          [limit.after, after "type", after "budget_tokens"] })

/-- The images in the lists under `inner`, in the dicts under `outer`, give way to a text that
shows. -/
def replaceImages (outer inner : String) (isImage : Body → Bool) (placeholder : Body) (body : Body) :
    Body × RectifyRecord :=
  match body outer with
  | some (.list contents) =>
    let replaced := (dicts ((dicts contents).flatMap (items inner))).countP isImage
    let shown := fun v => some (inDict (fun part => if isImage part then placeholder else part) v)
    (set body outer (.list (contents.map (inDict (modify inner (inItems shown))))),
      { kind := .mediaFallback
        applied := replaced ≠ 0
        details := fields [("replaced_images", .int replaced)] })
  | _ => (body, untouched .mediaFallback)

def isImageBlock (block : Body) : Bool := isText (block "type") "image" || isText (block "type") "image_url"

def textPart : Body := fields [("text", .text unsupportedImagePlaceholder)]

def textBlock : Body := set textPart "type" (.text "text".toList)

/-- A type that cannot be looked up in a set is a `TypeError`. -/
def rectifyMedia (body : Body) : Option (Body × RectifyRecord) :=
  let blocks := dicts ((dicts (items "messages" body)).flatMap (items "content"))
  if blocks.any fun block => (block "type").any isUnhashable then none
  else some (replaceImages "messages" "content" isImageBlock textBlock body)

/-- What is taken out of a dict goes into the record under a name of its own. -/
def dropKey (kind : Kind) (key detail : String) (d : Body) : Body × RectifyRecord :=
  match d key with
  | none => (d, untouched kind)
  | some removed => (pop d key, { kind := kind, applied := true, details := fields [(detail, removed)] })

def rectifyReasoningEffort : Body → Body × RectifyRecord :=
  dropKey .reasoningEffortUnsupported "reasoning_effort" "removed_reasoning_effort"

inductive Shape where
  | messages
  | gemini
  | ollama

def detectPayloadShape (body : Body) : Shape :=
  match body "contents", body "messages", body "options", body "think" with
  | some (.list _), _, _, _ => .gemini
  | _, some (.list _), some (.dict _), _ => .ollama
  | _, some (.list _), _, some _ => .ollama
  | _, _, _, _ => .messages

def isImagePart (part : Body) : Bool := (part "inline_data").isSome || (part "inlineData").isSome

def rectifyGeminiMedia : Body → Body × RectifyRecord := replaceImages "contents" "parts" isImagePart textPart

def rectifyGeminiThinkingUnsupported (body : Body) : Body × RectifyRecord :=
  match body "generationConfig" with
  | some (.dict generation) =>
    let (generation, record) := dropKey .thinkingUnsupported "thinkingConfig" "removed_thinking_config" generation
    (set body "generationConfig" (.dict generation), record)
  | _ => (body, untouched .thinkingUnsupported)

def rectifyGeminiThinkingBudget (body : Body) : Body × RectifyRecord :=
  match body "generationConfig" with
  | some (.dict generation) =>
    match generation "thinkingConfig" with
    | some (.dict thinking) =>
      let limit : Limit := ⟨rectifiedGeminiThinkingBudget, rectifiedGeminiMaxOutputTokens, generation "maxOutputTokens"⟩
      let after := set thinking "thinkingBudget" (.int rectifiedGeminiThinkingBudget)
      (set body "generationConfig"
          (.dict (Function.update (set generation "thinkingConfig" (.dict after)) "maxOutputTokens" limit.after)),
        { kind := .thinkingBudget
          applied :=
            !(limit.unchanged && (thinking "thinkingBudget").any (equalsInt · rectifiedGeminiThinkingBudget))
          details := summary ["thinkingBudget", "maxOutputTokens"] [thinking "thinkingBudget", limit.found]
            [after "thinkingBudget", limit.after] })
    | _ => (body, untouched .thinkingBudget)
  | _ => (body, untouched .thinkingBudget)

def announced : Option Json → Text
  | some (.text (c :: text)) => c :: text ++ '\n' :: unsupportedImagePlaceholder
  | _ => unsupportedImagePlaceholder

def withoutImages (message : Body) : Body :=
  match items "images" message with
  | [] => message
  | _ => set (pop message "images") "content" (.text (announced (message "content")))

def rectifyOllamaMedia (body : Body) : Body × RectifyRecord :=
  match body "messages" with
  | some (.list messages) =>
    let replaced := ((dicts messages).flatMap (items "images")).length
    (set body "messages" (.list (messages.map (inDict withoutImages))),
      { kind := .mediaFallback
        applied := replaced ≠ 0
        details := fields [("replaced_images", .int replaced)] })
  | _ => (body, untouched .mediaFallback)

def rectifyOllamaThinkingUnsupported : Body → Body × RectifyRecord :=
  dropKey .thinkingUnsupported "think" "removed_think"

/-- A shape's rule for a kind, where there is one. A rule without a result has raised. -/
def shapeRule : Shape → Kind → Option (Body → Option (Body × RectifyRecord))
  | .messages, .thinkingSignature => some (some ∘ rectifyThinkingSignature)
  | .messages, .thinkingBudget => some (some ∘ rectifyThinkingBudget)
  | .messages, .mediaFallback => some rectifyMedia
  | .messages, .reasoningEffortUnsupported => some (some ∘ rectifyReasoningEffort)
  | .gemini, .thinkingBudget => some (some ∘ rectifyGeminiThinkingBudget)
  | .gemini, .thinkingUnsupported => some (some ∘ rectifyGeminiThinkingUnsupported)
  | .gemini, .mediaFallback => some (some ∘ rectifyGeminiMedia)
  | .ollama, .thinkingUnsupported => some (some ∘ rectifyOllamaThinkingUnsupported)
  | .ollama, .mediaFallback => some (some ∘ rectifyOllamaMedia)
  | _, _ => none

def ruleOrder : List Kind :=
  [.thinkingSignature, .thinkingBudget, .mediaFallback, .thinkingUnsupported, .reasoningEffortUnsupported]

structure RectifierConfig where
  enabled : Bool := true
  request : Kind → Bool := fun _ => true

def RectifierConfig.allows (config : RectifierConfig) (kind : Kind) : Bool := config.enabled && config.request kind

/-- A rejection as texts: that of an exception may come with that of a response. -/
inductive Rejection where
  | missing
  | text (t : Text)
  | exception (message : Text) (response : Option Text)

variable (casefold : Text → Text)

def errorText : Rejection → Text
  | .missing => []
  | .text t => casefold t
  | .exception message none => casefold message
  | .exception message (some response) => casefold (message ++ ' ' :: response)

def mentions (markers : List String) (t : Text) : Bool := markers.any fun marker => marker.toList <:+: t

def budgetMarkers : List String := ["budget_tokens", "thinking_budget", "thinkingbudget"]

def unrecognizedMarkers : List String :=
  ["unrecognized", "unsupported", "not supported", "does not support", "unknown", "unexpected", "extra inputs",
    "additional propert"]

def unsupportedMarkers : List String :=
  ["not support", "unsupported", "does not support", "invalid", "cannot process", "no support"]

def detects (kind : Kind) (error : Rejection) (config : RectifierConfig) : Bool :=
  let t := errorText casefold error
  config.allows kind &&
    match kind with
    | .thinkingSignature => mentions ["signature"] t && mentions ["thinking"] t
    | .thinkingBudget => mentions budgetMarkers t
    | .mediaFallback => mentions ["image", "multimodal", "vision"] t && mentions unsupportedMarkers t
    | .thinkingUnsupported =>
      !mentions budgetMarkers t && mentions ["thinking", "think"] t && mentions unrecognizedMarkers t
    | .reasoningEffortUnsupported => mentions ["reasoning_effort"] t && mentions unrecognizedMarkers t

/-- The bodies there are, by address. A deep copy is one more, which shares nothing. -/
structure Heap where
  bodies : Nat → Body
  next : Nat

def Heap.write (h : Heap) (a : Nat) (body : Body) : Heap := { h with bodies := Function.update h.bodies a body }

def Heap.deepcopy (h : Heap) (a : Nat) : Heap := { h.write h.next (h.bodies a) with next := h.next + 1 }

variable (config : RectifierConfig) (body : Nat) (error : Rejection) (applied : List Kind)

/-- Each rule works on a copy of its own. There is no result where a rule raises. -/
def tryRules (shape : Shape) : List Kind → Heap → Option (Option (Nat × RectifyRecord)) × Heap
  | [], h => (some none, h)
  | kind :: kinds, h =>
    match shapeRule shape kind with
    | none => tryRules shape kinds h
    | some rule =>
      if kind ∈ applied ∨ detects casefold kind error config = false then tryRules shape kinds h
      else
        let candidate := h.next
        let h := h.deepcopy body
        match rule (h.bodies candidate) with
        | none => (none, h)
        | some (rectified, record) =>
          let h := h.write candidate rectified
          if record.applied then (some (some (candidate, record)), h) else tryRules shape kinds h

def rectifyRequest (config : Option RectifierConfig) (h : Heap) : Option (Option (Nat × RectifyRecord)) × Heap :=
  let config := config.getD {}
  if config.enabled then tryRules casefold config body error applied (detectPayloadShape (h.bodies body)) ruleOrder h
  else (some none, h)

/-- What the adapters do: the rectified body replaces the rejected one until none is made. Given
are the rejections; the result says whether the next one would be raised. -/
def retry (config : Option RectifierConfig) : List Rejection → List Kind → Nat → Heap → List RectifyRecord × Bool × Heap
  | [], _, _, h => ([], false, h)
  | error :: errors, applied, body, h =>
    match rectifyRequest casefold body error applied config h with
    | (some (some (rectified, record)), h) =>
      let (records, raised) := retry config errors (record.kind :: applied) rectified h
      (record :: records, raised)
    | (_, h) => ([], true, h)

end Kirara.Rectifier
