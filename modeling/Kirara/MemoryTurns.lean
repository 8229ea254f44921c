import Kirara.MemoryTags
import Kirara.StableSorts

namespace Kirara.MemoryTurns

open Kirara.Channels Kirara.MemoryTags Kirara.StableSorts

section Messages

/-- An element of an IM message, by its plain text where it is neither text nor medium. -/
inductive Element where
  | text (t : Text)
  | media (mediaId description : Text)
  | other (plain : Text)
  deriving DecidableEq

structure IMMessage where
  displayName : Text
  messageElements : List Element
  deriving DecidableEq

/-- The dict that is kept of an item of a tool result. -/
inductive StoredItem where
  | text (t : Text)
  | media (mediaId : Text)
  deriving DecidableEq

inductive ToolItem (δ : Type) where
  | textContent (t : Text)
  | mediaContent (mediaId mimeType : Text) (data : δ)
  | stored (item : StoredItem)
  deriving DecidableEq

structure ToolCall (π : Type) where
  id : Option Text
  name : Text
  parameters : Option π
  deriving DecidableEq

structure ToolResult (ι : Type) where
  id : Option Text
  name : Text
  isError : Bool
  content : List ι
  deriving DecidableEq

inductive Part (π δ : Type) where
  | text (t : Text)
  | image (mediaId : Text)
  | toolCall (call : ToolCall π)
  | toolResult (result : ToolResult (ToolItem δ))
  deriving DecidableEq

inductive Role where
  | system
  | user
  | assistant
  | tool
  deriving DecidableEq

structure ChatMessage (π δ : Type) where
  role : Role
  content : List (Part π δ)
  deriving DecidableEq

variable {π δ : Type}

def Part.isToolResult : Part π δ → Bool
  | .toolResult _ => true
  | _ => false

def Part.isTool : Part π δ → Bool
  | .toolCall _ | .toolResult _ => true
  | _ => false

def ChatMessage.checkContentType (m : ChatMessage π δ) : Bool :=
  if m.role = .tool then m.content.all Part.isToolResult else m.content.all (fun part => !part.isToolResult)

end Messages

section Composing

variable {π δ : Type}

structure Context (π : Type) where
  mediaIds : List Text
  toolCalls : List (ToolCall π)
  toolResults : List (ToolResult StoredItem)
  deriving DecidableEq

def collect (composed : List (Text × Context π)) : Text × Context π :=
  (composed.flatMap Prod.fst, {
    mediaIds := composed.flatMap (fun c => c.2.mediaIds)
    toolCalls := composed.flatMap (fun c => c.2.toolCalls)
    toolResults := composed.flatMap (fun c => c.2.toolResults) })

def noContext : Context π := ⟨[], [], []⟩

def mediaTag (mediaId description : Text) : Text :=
  createXmlTag "media_msg".toList [("id".toList, some mediaId), ("desc".toList, some description)]

def callTag (call : ToolCall π) : Text :=
  createXmlTag "function_call".toList [("id".toList, call.id), ("name".toList, some call.name)]

/-- `str` of a boolean. -/
def boolName (b : Bool) : Text := if b then "True".toList else "False".toList

def resultTag {ι : Type} (result : ToolResult ι) : Text :=
  createXmlTag "tool_result".toList
    [("id".toList, result.id), ("name".toList, some result.name), ("isError".toList, some (boolName result.isError))]

def processElement : Element → Text × Context π
  | .text t => (t ++ ['\n'], noContext)
  | .media mediaId description => (mediaTag mediaId description ++ ['\n'], ⟨[mediaId], [], []⟩)
  | .other plain => (plain ++ ['\n'], noContext)

def header (displayName : Text) : Text := displayName ++ " 说: \n".toList

def processIM (m : IMMessage) : Text × Context π :=
  collect ((header m.displayName, noContext) :: m.messageElements.map processElement)

def splitOnce (mark : Text) : Text → Option (Text × Text)
  | [] => none
  | c :: t =>
    if mark <+: c :: t then some ([], (c :: t).drop mark.length)
    else (splitOnce mark t).map (fun p => (c :: p.1, p.2))

def dropThinkPart (t : Text) : Text :=
  if "<think>".toList <+: t then
    match splitOnce "</think>".toList (t.drop 7) with
    | some (_, rest) => rest
    | none => t
  else t

def storeItem : ToolItem δ → Option StoredItem
  | .textContent t => some (.text t)
  | .mediaContent mediaId _ _ => some (.media mediaId)
  | .stored _ => none

def itemMedia : ToolItem δ → Option Text
  | .mediaContent mediaId _ _ => some mediaId
  | _ => none

def storeResult (result : ToolResult (ToolItem δ)) : ToolResult StoredItem :=
  ⟨result.id, result.name, result.isError, result.content.filterMap storeItem⟩

def processPart (describe : Text → Text) : Part π δ → Text × Context π
  | .text t => (dropThinkPart t ++ ['\n'], noContext)
  | .image mediaId => (mediaTag mediaId (describe mediaId) ++ ['\n'], ⟨[mediaId], [], []⟩)
  | .toolCall call => (callTag call ++ ['\n'], ⟨[], [call], []⟩)
  | .toolResult result =>
    (resultTag result ++ ['\n'], ⟨result.content.filterMap itemMedia, [], [storeResult result]⟩)

def marker : Text := "你回答:".toList

def resultText (describe : Text → Text) (m : ChatMessage π δ) : Text :=
  (m.content.filter Part.isTool).flatMap (fun part => (processPart describe part).1)

def tempText (describe : Text → Text) (m : ChatMessage π δ) : Text :=
  (m.content.filter (fun part => !part.isTool)).flatMap (fun part => (processPart describe part).1)

/-- The other parts come after the marker, unless they are line ends only. -/
def processChat (describe : Text → Text) (m : ChatMessage π δ) : Text × Context π :=
  let temp := tempText describe m
  (resultText describe m ++ if temp.all (· = '\n') then [] else marker ++ " \n".toList ++ temp,
    (collect (m.content.map (processPart describe))).2)

inductive Composable (π δ : Type) where
  | im (m : IMMessage)
  | chat (m : ChatMessage π δ)
  | plain (t : Text)
  deriving DecidableEq

def process (describe : Text → Text) : Composable π δ → Text × Context π
  | .im m => processIM m
  | .chat m => processChat describe m
  | .plain t => (t ++ ['\n'], noContext)

structure MemoryEntry (π : Type) where
  content : Text
  metadata : Context π

def compose (describe : Text → Text) (messages : List (Composable π δ)) : MemoryEntry π :=
  let composed := collect (messages.map (process describe))
  ⟨strip composed.1, composed.2⟩

end Composing

variable {π δ : Type} (letter : Char → Bool)

inductive Content (π : Type) where
  | text (t : Text)
  | media (mediaId : Text)
  | toolCall (call : ToolCall π)
  | toolResult (result : ToolResult StoredItem)
  deriving DecidableEq

structure ContentInfo (π : Type) where
  start : Nat
  content : Content π
  deriving DecidableEq

def textInfo (start : Nat) (t : Text) : List (ContentInfo π) :=
  if strip t = [] then [] else [⟨start, .text (strip t)⟩]

def textParts (t : Text) : Nat → List (Nat × Nat) → List (ContentInfo π)
  | pos, [] => if pos < t.length then textInfo pos (t.drop pos) else []
  | pos, (start, stop) :: tags =>
    (if pos < start then textInfo pos ((t.take start).drop pos) else []) ++ textParts t stop tags

def tagPositions (t : Text) : List (Nat × Nat) :=
  sortBy (fun p => toLex p) (tagNames.flatMap (fun name => (parseXmlTag name t).map Prod.snd))

def extractTexts (t : Text) : List (ContentInfo π) := textParts t 0 (tagPositions t)

def tagInfo (known : Text → Option (Content π)) (tag : Text × Nat × Nat) : Option (ContentInfo π) :=
  ((attributeOf letter "id".toList tag.1).bind known).map (fun content => ⟨tag.2.1, content⟩)

def extractTags (name : Text) (known : Text → Option (Content π)) (t : Text) : List (ContentInfo π) :=
  (parseXmlTag name t).filterMap (tagInfo letter known)

def knownMedia (metadata : Context π) (id : Text) : Option (Content π) :=
  if id ∈ metadata.mediaIds then some (.media id) else none

def knownCall (metadata : Context π) (id : Text) : Option (Content π) :=
  (metadata.toolCalls.find? (fun call => call.id = some id)).map .toolCall

def knownResult (metadata : Context π) (id : Text) : Option (Content π) :=
  (metadata.toolResults.find? (fun result => result.id = some id)).map .toolResult

def parseContent (t : Text) (metadata : Context π) : List (ContentInfo π) :=
  sortBy ContentInfo.start (extractTexts t ++ extractTags letter "media_msg".toList (knownMedia metadata) t ++
    extractTags letter "function_call".toList (knownCall metadata) t ++
    extractTags letter "tool_result".toList (knownResult metadata) t)

def flush (role : Role) (current : List (Part π δ)) : List (ChatMessage π δ) :=
  if current = [] then [] else [⟨role, current⟩]

/-- `to_llm_message`: tool calls and results are messages of their own. -/
def toLlmMessage (role : Role) : List (Part π δ) → List (Content π) → List (ChatMessage π δ)
  | current, [] => flush role current
  | current, .text t :: rest => toLlmMessage role (current ++ [.text t]) rest
  | current, .media mediaId :: rest => toLlmMessage role (current ++ [.image mediaId]) rest
  | current, .toolCall call :: rest => flush role current ++ ⟨.assistant, [.toolCall call]⟩ :: toLlmMessage role [] rest
  | current, .toolResult result :: rest =>
    let content := result.content.map ToolItem.stored
    flush role current ++ ⟨.tool, [.toolResult ⟨result.id, result.name, result.isError, content⟩]⟩ ::
      toLlmMessage role [] rest

def readSide (role : Role) (metadata : Context π) (t : Text) : List (ChatMessage π δ) :=
  if t = [] then [] else toLlmMessage role [] ((parseContent letter t metadata).map ContentInfo.content)

def processEntry (entry : MemoryEntry π) : List (ChatMessage π δ) :=
  match splitOnce marker entry.content with
  | some (user, assistant) =>
    readSide letter .user entry.metadata (strip user) ++ readSide letter .assistant entry.metadata (strip assistant)
  | none => readSide letter .user entry.metadata entry.content

/-- Whether the next message is merged into the current one. -/
def mergeable (m n : ChatMessage π δ) : Prop := m.role = n.role ∧ (m.role = .user ∨ m.role = .assistant)

instance (m n : ChatMessage π δ) : Decidable (mergeable m n) := inferInstanceAs (Decidable (_ ∧ _))

def mergeInto (current : ChatMessage π δ) : List (ChatMessage π δ) → List (ChatMessage π δ)
  | [] => [current]
  | next :: rest =>
    if mergeable current next then mergeInto ⟨current.role, current.content ++ next.content⟩ rest
    else current :: mergeInto next rest

/-- `_merge_adjacent_messages`. -/
def mergeAdjacent : List (ChatMessage π δ) → List (ChatMessage π δ)
  | [] => []
  | m :: rest => mergeInto m rest

def decompose (entries : List (MemoryEntry π)) : List (ChatMessage π δ) :=
  mergeAdjacent (entries.flatMap (processEntry letter))

end Kirara.MemoryTurns
