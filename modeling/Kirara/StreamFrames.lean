import Kirara.AgentLoop
import Kirara.Dicts
import Mathlib.Data.List.Sort

namespace Kirara.StreamFrames

open Kirara.Channels Kirara.AgentMessages Kirara.AgentLoop Kirara.Dicts

/-- What `json.loads` makes of a text. -/
inductive Loaded (κ : Type) where
  | invalid
  | null
  | object (a : Arguments κ)
  | other

structure RawCall where
  id : Option Text
  name : Text
  arguments : Option Text

/-- The message of a completion, as the provider gives it in one piece. -/
structure Body where
  content : Option Text
  refusal : Text
  toolCalls : List RawCall

structure Delta where
  index : Option Int
  id : Text
  name : Text
  arguments : Text

/-- What is read of a chunk. An empty text stands for one that is missing. -/
structure Chunk where
  text : Text
  toolCalls : List Delta
  finishReason : Option Text
  usage : Bool

/-- A line of the stream: one without a chunk, the end, an error, or a chunk. -/
inductive Frame where
  | skipped
  | done
  | error
  | chunk (c : Chunk)

structure Slot where
  id : Option Text
  name : Option Text
  arguments : Text
  deriving DecidableEq

variable {κ : Type}

section Parsing

variable (loads : Text → Loaded κ)

def Loaded.field : Loaded κ → Option (Option (Arguments κ))
  | .invalid => none
  | .null => some none
  | .object a => some (some a)
  | .other => none

def toolCallContent (call : RawCall) : Option (AgentMessages.Part κ) :=
  (loads (call.arguments.getD "\x7b\x7d".toList)).field.map (fun parameters =>
    .toolCall call.id call.name (parameters.getD []))

/-- `resolve_tool_calls_from_response`, for one call. -/
def resolveToolCall (call : RawCall) : Option (ToolCall κ) :=
  match call.arguments with
  | none => some ⟨call.id, some ⟨some call.name, none⟩⟩
  | some raw => (loads raw).field.map (fun arguments => ⟨call.id, some ⟨some call.name, arguments⟩⟩)

def Body.text (body : Body) : Text := body.content.getD body.refusal

/-- `chat`, where the provider answers with the message. -/
def chat (body : Body) : Option (Response κ) :=
  if body.toolCalls.isEmpty then
    if strip body.text = [] then none else some ⟨[.text body.text], none⟩
  else do
    let content ← body.toolCalls.mapM (toolCallContent loads)
    let toolCalls ← body.toolCalls.mapM (resolveToolCall loads)
    return ⟨content, some toolCalls⟩

/-- The arguments of the call are read without an error. -/
def RawCall.Readable (call : RawCall) : Prop :=
  (toolCallContent loads call).isSome ∧ (resolveToolCall loads call).isSome

variable {α β : Type}

theorem isSome_mapM (f : α → Option β) (l : List α) : (l.mapM f).isSome ↔ ∀ a ∈ l, (f a).isSome := by
  induction l with
  | nil => simp
  | cons a l ih =>
    have hrest : (l.mapM f).isSome = true ↔ ∃ r, l.mapM f = some r := Option.isSome_iff_exists
    rw [List.forall_mem_cons, ← ih, hrest, List.mapM_cons]
    cases f a with
    | none => simp
    | some b => simp [Option.isSome_iff_exists, Option.bind_eq_some_iff]

theorem length_mapM {f : α → Option β} {l : List α} {r : List β} (h : l.mapM f = some r) :
    r.length = l.length := by
  induction l generalizing r with
  | nil =>
    cases h
    rfl
  | cons a l ih =>
    rw [List.mapM_cons] at h
    obtain ⟨b, _, h⟩ := Option.bind_eq_some_iff.mp h
    obtain ⟨bs, hbs, h⟩ := Option.bind_eq_some_iff.mp h
    cases h
    exact congrArg Nat.succ (ih hbs)

variable {body : Body}

theorem chat_text (h : body.toolCalls = []) :
    chat loads body = if strip body.text = [] then none else some ⟨[.text body.text], none⟩ := by
  rw [chat, h, List.isEmpty_nil, if_pos rfl]

theorem chat_calls (h : body.toolCalls ≠ []) :
    (chat loads body).isSome ↔ ∀ call ∈ body.toolCalls, call.Readable loads := by
  have hempty : ¬ body.toolCalls.isEmpty = true := by simpa using h
  rw [chat, if_neg hempty]
  constructor
  · intro hs
    obtain ⟨r, hr⟩ := Option.isSome_iff_exists.mp hs
    obtain ⟨content, hcontent, hr⟩ := Option.bind_eq_some_iff.mp hr
    obtain ⟨toolCalls, hcalls, _⟩ := Option.bind_eq_some_iff.mp hr
    have hc := (isSome_mapM _ _).mp (Option.isSome_of_eq_some hcontent)
    have ht := (isSome_mapM _ _).mp (Option.isSome_of_eq_some hcalls)
    exact fun call hm => ⟨hc call hm, ht call hm⟩
  · intro hall
    obtain ⟨content, hcontent⟩ := Option.isSome_iff_exists.mp
      ((isSome_mapM _ _).mpr (fun call hm => (hall call hm).1))
    obtain ⟨toolCalls, hcalls⟩ := Option.isSome_iff_exists.mp
      ((isSome_mapM _ _).mpr (fun call hm => (hall call hm).2))
    rw [hcontent, hcalls]
    rfl

def partText : AgentMessages.Part κ → Text
  | .text t => t
  | _ => []

def isToolCall : AgentMessages.Part κ → Bool
  | .toolCall _ _ _ => true
  | _ => false

theorem mem_mapM {f : α → Option β} {l : List α} {r : List β} (h : l.mapM f = some r)
    {b : β} (hb : b ∈ r) : ∃ a ∈ l, f a = some b := by
  induction l generalizing r with
  | nil =>
    cases h
    cases hb
  | cons a l ih =>
    rw [List.mapM_cons] at h
    obtain ⟨c, hc, h⟩ := Option.bind_eq_some_iff.mp h
    obtain ⟨cs, hcs, h⟩ := Option.bind_eq_some_iff.mp h
    cases h
    cases List.mem_cons.mp hb with
    | inl he => exact ⟨a, List.mem_cons_self, he ▸ hc⟩
    | inr hm =>
      obtain ⟨x, hx, hf⟩ := ih hcs hm
      exact ⟨x, List.mem_cons_of_mem _ hx, hf⟩

theorem chat_spec {r : Response κ} (h : body.toolCalls ≠ []) (hr : chat loads body = some r) :
    (∀ p ∈ r.content, isToolCall p = true) ∧ r.toolCalls.getD [] ≠ [] := by
  have hempty : ¬ body.toolCalls.isEmpty = true := by simpa using h
  rw [chat, if_neg hempty] at hr
  obtain ⟨content, hcontent, hr⟩ := Option.bind_eq_some_iff.mp hr
  obtain ⟨toolCalls, hcalls, hr⟩ := Option.bind_eq_some_iff.mp hr
  cases hr
  refine ⟨fun p hp => ?_, fun hnil => h ?_⟩
  · obtain ⟨call, _, hcall⟩ := mem_mapM hcontent hp
    obtain ⟨parameters, _, rfl⟩ := Option.map_eq_some_iff.mp hcall
    rfl
  · have hlen := length_mapM hcalls
    have hnil : toolCalls = [] := hnil
    rw [hnil] at hlen
    exact List.length_eq_zero_iff.mp hlen.symm

end Parsing

def Slot.empty : Slot := ⟨none, none, []⟩

def Slot.add (d : Delta) (slot : Slot) : Slot where
  id := if d.id = [] then slot.id else some d.id
  name := if d.name = [] then slot.name else some d.name
  arguments := slot.arguments ++ d.arguments

/-- `accumulate_stream_tool_calls`. An item without a usable index is skipped. -/
def accumulateStreamToolCalls (state : Dict Int Slot) (deltas : List Delta) : Dict Int Slot :=
  deltas.foldl (fun state d =>
    match d.index with
    | none => state
    | some index => state.set index (((state.get index).getD .empty).add d)) state

/-- The calls that have arrived, by their indices. -/
def sortedSlots (state : Dict Int Slot) : List Slot :=
  (state.entries.insertionSort (fun a b => a.1 ≤ b.1)).map Prod.snd

variable (loads : Text → Loaded κ)

def streamParameters (raw : Text) : Arguments κ :=
  let raw := if raw = [] then "\x7b\x7d".toList else raw
  if strip raw = [] then []
  else
    match loads raw with
    | .object a => a
    | _ => []

def streamCall (slot : Slot) : Option (AgentMessages.Part κ) :=
  slot.name.map (fun name => .toolCall slot.id name (streamParameters loads slot.arguments))

/-- `resolve_stream_tool_calls`. A call without a name is dropped. -/
def resolveStreamToolCalls (state : Dict Int Slot) : List (AgentMessages.Part κ) :=
  (sortedSlots state).filterMap (streamCall loads)

def chunks : List Frame → Option (List Chunk)
  | [] => some []
  | .skipped :: frames => chunks frames
  | .done :: _ => some []
  | .error :: _ => none
  | .chunk c :: frames => (chunks frames).map (fun cs => c :: cs)

def delivered (state : Dict Int Slot) (c : Chunk) : List (AgentMessages.Part κ) :=
  (if c.text = [] then [] else [.text c.text]) ++
    (if c.finishReason.isSome then resolveStreamToolCalls loads state else [])

def Chunk.silent (c : Chunk) : Bool := c.text = [] && !c.usage && c.finishReason.isNone

def deliver : Dict Int Slot → List Chunk → List (List (AgentMessages.Part κ))
  | _, [] => []
  | state, c :: cs =>
    let state := accumulateStreamToolCalls state c.toolCalls
    if c.silent then deliver state cs else delivered loads state c :: deliver state cs

def streamChat (frames : List Frame) : Option (List (List (AgentMessages.Part κ))) :=
  (chunks frames).map (deliver loads .empty)

/-- What `_execute_model_streaming` makes of the contents: one text, then the calls. -/
def aggregate (contents : List (List (AgentMessages.Part κ))) : Response κ where
  content := .text (contents.flatten.flatMap partText) :: contents.flatten.filter isToolCall
  toolCalls := none

def executeModelStreaming (frames : List Frame) : Option (Response κ) :=
  (streamChat loads frames).map aggregate

def RawCall.slot (call : RawCall) : Slot where
  id := call.id.filter (· ≠ [])
  name := if call.name = [] then none else some call.name
  arguments := call.arguments.getD []

def accumulated (cs : List Chunk) : Dict Int Slot :=
  cs.foldl (fun state c => accumulateStreamToolCalls state c.toolCalls) .empty

/-- The chunks carry the message's text and calls, and one finishes after the last piece. -/
structure Cuts (body : Body) (cs : List Chunk) : Prop where
  text : cs.flatMap Chunk.text = body.content.getD []
  calls : sortedSlots (accumulated cs) = body.toolCalls.map RawCall.slot
  finished : ∃ front last back, cs = front ++ last :: back ∧ last.finishReason ≠ none ∧
    (∀ c ∈ front, c.finishReason = none) ∧ ∀ c ∈ back, c.finishReason = none ∧ c.toolCalls = []

variable {loads} {cs front back : List Chunk} {last : Chunk} {state : Dict Int Slot}

theorem silent_iff {c : Chunk} : c.silent = true ↔ c.text = [] ∧ c.usage = false ∧ c.finishReason = none := by
  simp [Chunk.silent, and_assoc]

theorem isToolCall_of_mem_resolve {p : AgentMessages.Part κ} (h : p ∈ resolveStreamToolCalls loads state) :
    isToolCall p = true := by
  obtain ⟨slot, _, hp⟩ := List.mem_filterMap.mp h
  obtain ⟨name, _, rfl⟩ := Option.map_eq_some_iff.mp hp
  rfl

theorem partText_resolve (state : Dict Int Slot) :
    (resolveStreamToolCalls loads state).flatMap partText = [] := by
  refine List.flatMap_eq_nil_iff.mpr (fun p hp => ?_)
  have hcall := isToolCall_of_mem_resolve hp
  cases p with
  | toolCall id name parameters => rfl
  | text t => cases hcall
  | image m => cases hcall
  | toolResult id name content e => cases hcall

theorem partText_delivered (state : Dict Int Slot) (c : Chunk) :
    (delivered loads state c).flatMap partText = c.text := by
  have hcalls : (if c.finishReason.isSome then resolveStreamToolCalls loads state else []).flatMap
      partText = [] := by
    split
    · exact partText_resolve state
    · rfl
  rw [delivered, List.flatMap_append, hcalls, List.append_nil]
  split
  · next h => exact h.symm
  · simp [partText]

theorem partText_deliver (state : Dict Int Slot) (cs : List Chunk) :
    (deliver loads state cs).flatten.flatMap partText = cs.flatMap Chunk.text := by
  induction cs generalizing state with
  | nil => rfl
  | cons c cs ih =>
    rw [deliver, List.flatMap_cons]
    split
    · next h => rw [ih, (silent_iff.mp h).1, List.nil_append]
    · rw [List.flatten_cons, List.flatMap_append, partText_delivered, ih]

theorem calls_delivered (state : Dict Int Slot) (c : Chunk) : (delivered loads state c).filter isToolCall =
      if c.finishReason.isSome then resolveStreamToolCalls loads state else [] := by
  have ht : (if c.text = [] then [] else [AgentMessages.Part.text c.text] : List (AgentMessages.Part κ)).filter isToolCall = [] := by
    split <;> rfl
  rw [delivered, List.filter_append, ht, List.nil_append]
  split
  · exact List.filter_eq_self.mpr (fun p hp => isToolCall_of_mem_resolve hp)
  · rfl

theorem calls_deliver_append (h : ∀ c ∈ front, c.finishReason = none) (state : Dict Int Slot)
    (cs : List Chunk) : (deliver loads state (front ++ cs)).flatten.filter isToolCall =
      (deliver loads (front.foldl (fun state c => accumulateStreamToolCalls state c.toolCalls) state)
        cs).flatten.filter isToolCall := by
  induction front generalizing state with
  | nil => rfl
  | cons c front ih =>
    obtain ⟨hc, hfront⟩ := List.forall_mem_cons.mp h
    rw [List.cons_append, deliver, List.foldl_cons]
    split
    · exact ih hfront _
    · rw [List.flatten_cons, List.filter_append, calls_delivered, hc]
      exact ih hfront _

theorem calls_deliver (h : ∀ c ∈ cs, c.finishReason = none) (state : Dict Int Slot) :
    (deliver loads state cs).flatten.filter isToolCall = [] := by
  rw [← List.append_nil cs, calls_deliver_append h]
  rfl

theorem accumulated_append_of_idle (h : ∀ c ∈ back, c.toolCalls = []) (state : Dict Int Slot) :
    back.foldl (fun state c => accumulateStreamToolCalls state c.toolCalls) state = state := by
  induction back with
  | nil => rfl
  | cons c back ih =>
    obtain ⟨hc, hback⟩ := List.forall_mem_cons.mp h
    rw [List.foldl_cons, hc]
    exact ih hback

theorem aggregate_deliver {body : Body} (h : Cuts body cs) : aggregate (deliver loads .empty cs) =
      ⟨.text (body.content.getD []) :: body.toolCalls.filterMap (fun call => streamCall loads call.slot),
        none⟩ := by
  have hcalls : (deliver loads .empty cs).flatten.filter isToolCall =
      resolveStreamToolCalls loads (accumulated cs) := by
    obtain ⟨front, last, back, rfl, hlast, hfront, hback⟩ := h.finished
    have hstate := accumulated_append_of_idle (fun c hc => (hback c hc).2)
      (accumulateStreamToolCalls (accumulated front) last.toolCalls)
    have hall : accumulated (front ++ last :: back) =
        accumulateStreamToolCalls (accumulated front) last.toolCalls := by
      rw [accumulated, List.foldl_append, List.foldl_cons]
      exact hstate
    have hloud : last.silent = false := by
      cases hf : last.finishReason with
      | none => exact absurd hf hlast
      | some r => simp [Chunk.silent, hf]
    rw [calls_deliver_append hfront, deliver, hloud, hall, if_neg Bool.false_ne_true, List.flatten_cons,
      List.filter_append, calls_delivered, calls_deliver (fun c hc => (hback c hc).1), List.append_nil,
      if_pos (Option.isSome_iff_ne_none.mpr hlast)]
    rfl
  rw [aggregate, partText_deliver, h.text, hcalls, resolveStreamToolCalls, h.calls, List.filterMap_map]
  rfl

end Kirara.StreamFrames
