import Kirara.AgentMessages
import Kirara.Fallible

namespace Kirara.ClaudeRequests

open Kirara.Channels Kirara.Fallible
open Kirara.AgentMessages (Role)

section Messages

/-- An item of a tool result; the conversion passes over all but texts and media. -/
inductive Item where
  | textContent (t : Text)
  | mediaContent (mediaId : Text)
  | other
  deriving DecidableEq

structure ToolResult where
  id : Option Text
  /-- What iterating over the content gives, where that is possible. -/
  content : Option (List Item)
  isError : Bool
  deriving DecidableEq

inductive Part (π : Type) where
  | text (t : Text)
  | image (mediaId : Text)
  | toolCall (id : Option Text) (name : Text) (parameters : Option π)
  | toolResult (result : ToolResult)
  deriving DecidableEq

variable {π : Type}

def Part.isToolCall : Part π → Bool
  | .toolCall _ _ _ => true
  | _ => false

def Part.isToolResult : Part π → Bool
  | .toolResult _ => true
  | _ => false

def checkContentType (role : Role) (content : List (Part π)) : Bool :=
  if role = .tool then content.all Part.isToolResult else content.all (fun part => !part.isToolResult)

structure Message (π : Type) where
  role : Role
  content : List (Part π)
  checked : checkContentType role content = true

structure Media (β : Type) where
  mediaType : Text
  mimeType : Text
  base64 : β
  deriving DecidableEq

end Messages

section Requests

variable {π β : Type}

inductive ResultBlock (β : Type) where
  | text (t : Text)
  | media (mediaType mimeType : Text) (data : β)
  deriving DecidableEq

/-- The content blocks of the provider's interface. -/
inductive Block (π β : Type) where
  | text (t : Text)
  | image (mimeType : Text) (data : β)
  | toolUse (id : Option Text) (name : Text) (input : Option π)
  | toolResult (toolUseId : Option Text) (content : List (ResultBlock β)) (isError : Bool)
  deriving DecidableEq

structure Entry (π β : Type) where
  role : Role
  content : List (Block π β)
  deriving DecidableEq

inductive Raised where
  | mediaNotFound (mediaId : Text)
  | notIterable
  deriving DecidableEq

def getMedia (media : Text → Option (Media β)) (mediaId : Text) : Except Raised (Media β) :=
  match media mediaId with
  | some m => .ok m
  | none => .error (.mediaNotFound mediaId)

/-- What the loop of `resolve_tool_result` appends for an item. -/
def resolveItem (media : Text → Option (Media β)) : Item → Except Raised (List (ResultBlock β))
  | .textContent t => .ok [.text t]
  | .mediaContent mediaId => do
    let m ← getMedia media mediaId
    .ok [.media m.mediaType m.mimeType m.base64]
  | .other => .ok []

def resolveToolResult (media : Text → Option (Media β)) (result : ToolResult) : Except Raised (Block π β) := do
  match result.content with
  | none => .error .notIterable
  | some items =>
    let blocks ← items.mapM (resolveItem media)
    .ok (.toolResult result.id blocks.flatten result.isError)

def convertPart (media : Text → Option (Media β)) : Part π → Except Raised (List (Block π β))
  | .text t => .ok [.text t]
  | .toolResult result => do
    let block ← resolveToolResult media result
    .ok [block]
  | .toolCall _ _ _ => .ok []
  | .image mediaId => do
    let m ← getMedia media mediaId
    .ok [.image m.mimeType m.base64]

def convertMessage (media : Text → Option (Media β)) (m : Message π) : Except Raised (Entry π β) := do
  let parts ← m.content.mapM (convertPart media)
  .ok ⟨if m.role = .tool then .user else m.role, parts.flatten⟩

/-- The messages that are sent; those of the system are sent beside them. -/
def spoken (messages : List (Message π)) : List (Message π) := messages.filter (fun m => m.role ≠ .system)

/-- `convert_llm_chat_message_to_claude_message`. -/
def convertMessages (media : Text → Option (Media β)) (messages : List (Message π)) : Except Raised (List (Entry π β)) :=
  (spoken messages).mapM (convertMessage media)

end Requests

variable {π β : Type}

inductive Says (media : Text → Option (Media β)) : Part π → Block π β → Prop
  | text (t : Text) : Says media (.text t) (.text t)
  | image {mediaId : Text} {m : Media β} (h : media mediaId = some m) : Says media (.image mediaId) (.image m.mimeType m.base64)
  | toolCall (id : Option Text) (name : Text) (parameters : Option π) :
      Says media (.toolCall id name parameters) (.toolUse id name parameters)
  | toolResult (result : ToolResult) (content : List (ResultBlock β)) :
      Says media (.toolResult result) (.toolResult result.id content result.isError)

def Answered (messages : List (Message π)) : Prop :=
  ∀ before m after, messages = before ++ m :: after → ∀ result, .toolResult result ∈ m.content →
    ∃ n ∈ before, n.role = .assistant ∧ ∃ name parameters, .toolCall result.id name parameters ∈ n.content

/-- A request that is well formed and in which nothing is lost. -/
structure Faithful (media : Text → Option (Media β)) (messages : List (Message π)) (body : List (Entry π β)) : Prop where
  paired : ∀ before e after, body = before ++ e :: after → ∀ id content isError, .toolResult id content isError ∈ e.content →
    ∃ f ∈ before, f.role = .assistant ∧ ∃ name input, .toolUse id name input ∈ f.content
  complete : List.Forall₂ (Says media) ((spoken messages).flatMap Message.content) (body.flatMap Entry.content)
  nonempty : ∀ e ∈ body, e.content ≠ []

variable {media : Text → Option (Media β)} {messages : List (Message π)} {body : List (Entry π β)}

theorem getMedia_eq_ok {mediaId : Text} {m : Media β} (h : getMedia media mediaId = .ok m) : media mediaId = some m := by
  unfold getMedia at h
  split at h
  · next n hn =>
    cases h
    exact hn
  · cases h

variable {blocks : List (Block π β)}

theorem convertPart_no_toolUse {part : Part π} (h : convertPart media part = .ok blocks) :
    ∀ id name input, .toolUse id name input ∉ blocks := by
  intro id name input hmem
  cases part with
  | text t =>
    cases h
    cases List.mem_singleton.mp hmem
  | image mediaId =>
    obtain ⟨m, _, h⟩ := bind_eq_ok.mp h
    cases h
    cases List.mem_singleton.mp hmem
  | toolCall callId callName parameters =>
    cases h
    cases hmem
  | toolResult result =>
    obtain ⟨block, hblock, h⟩ := bind_eq_ok.mp h
    cases h
    rw [List.mem_singleton] at hmem
    subst hmem
    unfold resolveToolResult at hblock
    split at hblock
    · cases hblock
    · obtain ⟨blocks, _, hblock⟩ := bind_eq_ok.mp hblock
      cases hblock

theorem convertPart_says {part : Part π} (h : convertPart media part = .ok blocks)
    (hcall : part.isToolCall = false) : ∃ block, blocks = [block] ∧ Says media part block := by
  cases part with
  | text t =>
    cases h
    exact ⟨_, rfl, .text t⟩
  | image mediaId =>
    obtain ⟨m, hm, h⟩ := bind_eq_ok.mp h
    cases h
    exact ⟨_, rfl, .image (getMedia_eq_ok hm)⟩
  | toolCall callId callName parameters => cases hcall
  | toolResult result =>
    obtain ⟨block, hblock, h⟩ := bind_eq_ok.mp h
    cases h
    unfold resolveToolResult at hblock
    split at hblock
    · cases hblock
    obtain ⟨blocks, _, hblock⟩ := bind_eq_ok.mp hblock
    cases hblock
    exact ⟨_, rfl, .toolResult result _⟩

theorem says_flatten {parts : List (Part π)} {blocks : List (List (Block π β))}
    (h : List.Forall₂ (fun part bs => convertPart media part = .ok bs) parts blocks)
    (hcalls : ∀ part ∈ parts, part.isToolCall = false) : List.Forall₂ (Says media) parts blocks.flatten := by
  induction h with
  | nil => exact .nil
  | cons hpart _ ih =>
    obtain ⟨block, rfl, hsays⟩ := convertPart_says hpart (hcalls _ List.mem_cons_self)
    exact .cons hsays (ih (fun part hp => hcalls part (List.mem_cons_of_mem _ hp)))

variable {e : Entry π β} {m : Message π}

variable (h : convertMessage media m = .ok e)

include h

theorem convertMessage_spec :
    ∃ blocks, List.Forall₂ (fun part bs => convertPart media part = .ok bs) m.content blocks ∧ e.content = blocks.flatten := by
  obtain ⟨blocks, hblocks, h⟩ := bind_eq_ok.mp h
  cases h
  exact ⟨blocks, forall₂_of_mapM hblocks, rfl⟩

theorem convertMessage_no_toolUse :
    ∀ id name input, .toolUse id name input ∉ e.content := by
  intro id name input hmem
  obtain ⟨blocks, hblocks, he⟩ := convertMessage_spec h
  rw [he, List.mem_flatten] at hmem
  obtain ⟨bs, hbs, hmem⟩ := hmem
  obtain ⟨part, _, hpart⟩ := exists_of_forall₂ hblocks.flip hbs
  exact convertPart_no_toolUse hpart id name input hmem

theorem convertMessage_nonempty
    (hcalls : ∀ part ∈ m.content, part.isToolCall = false) : e.content ≠ [] ↔ m.content ≠ [] := by
  obtain ⟨blocks, hblocks, he⟩ := convertMessage_spec h
  have hlength := (says_flatten hblocks hcalls).length_eq
  rw [he, ← List.length_pos_iff, ← List.length_pos_iff, hlength]

omit h

theorem no_results (h : Answered messages) (hcalls : ∀ m ∈ spoken messages, ∀ part ∈ m.content, part.isToolCall = false) :
    ∀ m ∈ messages, ∀ part ∈ m.content, part.isToolResult = false := by
  intro m hm part hp
  cases part with
  | toolResult result =>
    obtain ⟨before, after, hsplit⟩ := List.append_of_mem hm
    obtain ⟨n, hn, hrole, name, parameters, hcall⟩ := h before m after hsplit result hp
    have hspoken : n ∈ spoken messages :=
      List.mem_filter.mpr ⟨hsplit ▸ List.mem_append_left _ hn, by simp [hrole]⟩
    cases hcalls n hspoken _ hcall
  | text t => rfl
  | image mediaId => rfl
  | toolCall id name parameters => rfl

theorem says_messages {ms : List (Message π)} {es : List (Entry π β)}
    (h : List.Forall₂ (fun m e => convertMessage media m = .ok e) ms es)
    (hcalls : ∀ m ∈ ms, ∀ part ∈ m.content, part.isToolCall = false) :
    List.Forall₂ (Says media) (ms.flatMap Message.content) (es.flatMap Entry.content) := by
  induction h with
  | nil => exact .nil
  | cons hm _ ih =>
    obtain ⟨blocks, hblocks, he⟩ := convertMessage_spec hm
    rw [List.flatMap_cons, List.flatMap_cons, he]
    exact List.rel_append (says_flatten hblocks (hcalls _ List.mem_cons_self))
      (ih (fun m hm => hcalls m (List.mem_cons_of_mem _ hm)))

/-- A request is faithful when the history has no tool calls, thus no results, and no message
without parts. -/
theorem faithful_iff (h : Answered messages) (hbody : convertMessages media messages = .ok body) :
    Faithful media messages body ↔
      ∀ m ∈ spoken messages, m.content ≠ [] ∧ ∀ part ∈ m.content, part.isToolCall = false := by
  have hforall := forall₂_of_mapM hbody
  constructor
  · intro hfaithful
    have hcalls : ∀ m ∈ spoken messages, ∀ part ∈ m.content, part.isToolCall = false := by
      intro m hm part hp
      obtain ⟨block, hblock, hsays⟩ := exists_of_forall₂ hfaithful.complete (List.mem_flatMap.mpr ⟨m, hm, hp⟩)
      obtain ⟨e, he, hblock⟩ := List.mem_flatMap.mp hblock
      obtain ⟨n, _, hn⟩ := exists_of_forall₂ hforall.flip he
      cases hsays with
      | toolCall id name parameters => exact absurd hblock (convertMessage_no_toolUse hn id name parameters)
      | text t => rfl
      | image h => rfl
      | toolResult result content => rfl
    intro m hm
    obtain ⟨e, he, hm'⟩ := exists_of_forall₂ hforall hm
    exact ⟨(convertMessage_nonempty hm' (hcalls m hm)).mp (hfaithful.nonempty e he), hcalls m hm⟩
  · intro hclean
    have hcalls : ∀ m ∈ spoken messages, ∀ part ∈ m.content, part.isToolCall = false := fun m hm => (hclean m hm).2
    have hcomplete := says_messages hforall hcalls
    refine ⟨?_, hcomplete, ?_⟩
    · intro before e after hsplit id content isError hmem
      have he : e ∈ body := hsplit ▸ List.mem_append_right _ List.mem_cons_self
      obtain ⟨part, hp, hsays⟩ := exists_of_forall₂ hcomplete.flip (List.mem_flatMap.mpr ⟨e, he, hmem⟩)
      obtain ⟨m, hm, hp⟩ := List.mem_flatMap.mp hp
      have hno := no_results h hcalls m (List.mem_filter.mp hm).1 part hp
      cases hsays with
      | toolResult result content => cases hno
    · intro e he
      obtain ⟨m, hm, hm'⟩ := exists_of_forall₂ hforall.flip he
      exact (convertMessage_nonempty hm' (hcalls m hm)).mpr (hclean m hm).1

def greeting : List (Message Unit) := [⟨.user, [.text "hi".toList], rfl⟩, ⟨.assistant, [.text "hello".toList], rfl⟩]

theorem faithful_greeting : Faithful (β := Unit) (fun _ => none) greeting
    [⟨.user, [.text "hi".toList]⟩, ⟨.assistant, [.text "hello".toList]⟩] := by
  refine (faithful_iff ?_ rfl).mpr (by decide)
  intro before m after hsplit result hmem
  have hm : m ∈ greeting := hsplit ▸ List.mem_append_right _ List.mem_cons_self
  have hnone : ∀ m ∈ greeting, ∀ part ∈ m.content, part.isToolResult = false := by decide
  exact Bool.noConfusion (hnone m hm _ hmem)

def lookedUp : List (Message Unit) :=
  [⟨.assistant, [.toolCall (some ['1']) ['f'] none], rfl⟩, ⟨.tool, [.toolResult ⟨some ['1'], some [], false⟩], rfl⟩]

/-- The call is left out, and its result answers nothing. -/
theorem call_left_out : ¬ ∀ messages : List (Message Unit), Answered messages → ∀ body,
    convertMessages (β := Unit) (fun _ => none) messages = .ok body → Faithful (fun _ => none) messages body := by
  intro h
  have hanswered : Answered lookedUp := by
    intro before m after hsplit result hmem
    match before, hsplit with
    | [], hsplit =>
      cases hsplit
      cases List.mem_singleton.mp hmem
    | [n], hsplit =>
      cases hsplit
      cases List.mem_singleton.mp hmem
      exact ⟨_, List.mem_singleton_self _, rfl, ['f'], none, List.mem_singleton_self _⟩
    | _ :: _ :: before, hsplit =>
      have hlength := congrArg List.length hsplit
      simp [lookedUp] at hlength
  have hbody := (h lookedUp hanswered [⟨.assistant, []⟩, ⟨.user, [.toolResult (some ['1']) [] false]⟩] rfl).nonempty
  exact hbody ⟨.assistant, []⟩ List.mem_cons_self rfl

end Kirara.ClaudeRequests
