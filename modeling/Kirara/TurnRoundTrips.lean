import Kirara.MarkedTurns
import Mathlib.Data.List.Chain

namespace Kirara.TurnRoundTrips

open Kirara.Channels Kirara.MemoryTags Kirara.MemoryTurns Kirara.ParsedTurns Kirara.MarkedTurns Kirara.TurnChunks

section Seeing

variable {π δ : Type}

/-- What counts of a message, each with its role. Of a user's message only the media do. -/
inductive Seen (π δ : Type) where
  | text (t : Text)
  | media (mediaId : Text)
  | toolCall (call : ToolCall π)
  | toolResult (result : ToolResult (ToolItem δ))
  deriving DecidableEq

def seePart (role : Role) : Part π δ → List (Role × Seen π δ)
  | .text t => if role = .assistant then [(role, .text (strip t))] else []
  | .image mediaId => [(role, .media mediaId)]
  | .toolCall call => [(role, .toolCall call)]
  | .toolResult result => [(role, .toolResult result)]

def see (messages : List (ChatMessage π δ)) : List (Role × Seen π δ) :=
  messages.flatMap (fun m => m.content.flatMap (seePart m.role))

def restore (result : ToolResult StoredItem) : ToolResult (ToolItem δ) :=
  ⟨result.id, result.name, result.isError, result.content.map .stored⟩

def seeContent (role : Role) : Content π → List (Role × Seen π δ)
  | .text t => if role = .assistant then [(role, .text (strip t))] else []
  | .media mediaId => [(role, .media mediaId)]
  | .toolCall call => [(.assistant, .toolCall call)]
  | .toolResult result => [(.tool, .toolResult (restore result))]

theorem see_mergeInto (m : ChatMessage π δ) (messages : List (ChatMessage π δ)) :
    see (mergeInto m messages) = see (m :: messages) := by
  induction messages generalizing m with
  | nil => rfl
  | cons n messages ih =>
    rw [mergeInto]
    split
    · next h =>
      rw [ih]
      simp [see, h.1]
    · have hcons (ms : List (ChatMessage π δ)) : see (m :: ms) = m.content.flatMap (seePart m.role) ++ see ms := rfl
      rw [hcons, hcons, ih]

theorem see_mergeAdjacent (messages : List (ChatMessage π δ)) : see (mergeAdjacent messages) = see messages := by
  cases messages with
  | nil => rfl
  | cons m messages => exact see_mergeInto m messages

theorem see_flush (role : Role) (current : List (Part π δ)) :
    see (flush role current) = current.flatMap (seePart role) := by
  unfold flush
  split
  · next h => rw [h]; rfl
  · simp [see]

theorem see_append (ms ns : List (ChatMessage π δ)) : see (ms ++ ns) = see ms ++ see ns := List.flatMap_append

theorem see_toLlmMessage (role : Role) (current : List (Part π δ)) (contents : List (Content π)) :
    see (toLlmMessage role current contents) =
      current.flatMap (seePart role) ++ contents.flatMap (seeContent role) := by
  induction contents generalizing current with
  | nil => rw [toLlmMessage, see_flush, List.flatMap_nil, List.append_nil]
  | cons c contents ih =>
    cases c with
    | text t =>
      rw [toLlmMessage, ih]
      simp [seePart, seeContent]
    | media mediaId =>
      rw [toLlmMessage, ih]
      simp [seePart, seeContent]
    | toolCall call =>
      have hcons (ms : List (ChatMessage π δ)) :
          see (⟨.assistant, [.toolCall call]⟩ :: ms) = (.assistant, .toolCall call) :: see ms := rfl
      rw [toLlmMessage, see_append, see_flush, hcons, ih]
      rfl
    | toolResult result =>
      have hcons (ms : List (ChatMessage π δ)) : see (⟨.tool, [.toolResult (restore result)]⟩ :: ms) =
          (.tool, .toolResult (restore result)) :: see ms := rfl
      rw [toLlmMessage, see_append, see_flush]
      change _ ++ see (⟨.tool, [.toolResult (restore result)]⟩ :: toLlmMessage role [] contents) = _
      rw [hcons, ih]
      rfl

end Seeing

section Turns

variable {π δ : Type}

def textOfElement : Element → Option Text
  | .text t => some t
  | _ => none

def textOfPart : Part π δ → Option Text
  | .text t => some t
  | _ => none

def mediaOfElement : Element → Option Text
  | .media mediaId _ => some mediaId
  | _ => none

def callOfPart : Part π δ → Option (ToolCall π)
  | .toolCall call => some call
  | _ => none

def resultOfPart : Part π δ → Option (ToolResult (ToolItem δ))
  | .toolResult result => some result
  | _ => none

/-- What the assistant and its tools make of a message, texts without marker or opening bracket. -/
structure Turn (π δ : Type) where
  user : IMMessage
  messages : List (ChatMessage π δ)
  roles : ∀ m ∈ messages, m.role = .assistant ∨ m.role = .tool
  checked : ∀ m ∈ messages, m.checkContentType = true
  userTexts : ∀ t ∈ user.messageElements.filterMap textOfElement, '<' ∉ t ∧ ¬ marker <:+: t
  texts : ∀ m ∈ messages, ∀ t ∈ m.content.filterMap textOfPart, '<' ∉ t ∧ ¬ marker <:+: t

variable (turn : Turn π δ)

def Turn.composed (describe : Text → Text) : MemoryEntry π :=
  compose describe (.im turn.user :: turn.messages.map .chat)

def Turn.returned (letter : Char → Bool) (describe : Text → Text) : List (Role × Seen π δ) :=
  see (decompose letter [turn.composed describe])

def Turn.given : List (Role × Seen π δ) :=
  (turn.user.messageElements.filterMap mediaOfElement).map (fun mediaId => (.user, .media mediaId)) ++ see turn.messages

def Turn.calls : List (ToolCall π) := turn.messages.flatMap (fun m => m.content.filterMap callOfPart)

def Turn.results : List (ToolResult (ToolItem δ)) := turn.messages.flatMap (fun m => m.content.filterMap resultOfPart)

/-- Media, calls, results and the assistant's texts come back in their roles. -/
def Recovered (letter : Char → Bool) (describe : Text → Text) : Prop := turn.returned letter describe = turn.given

def Part.isText : Part π δ → Bool
  | .text _ => true
  | _ => false

def Part.identified : Part π δ → Bool
  | .toolCall call => call.id.isSome
  | .toolResult result => result.id.isSome
  | _ => true

def chats (m : ChatMessage π δ) : Bool := m.content.any (fun part => !part.isTool)

def untilMarker : List (ChatMessage π δ) → List (ChatMessage π δ)
  | [] => []
  | m :: messages => if chats m then [m] else m :: untilMarker messages

/-- When the parts of a turn can be told apart again. -/
structure Readable (describe : Text → Text) : Prop where
  user : CalmIM turn.user
  userUnbroken : ∀ e ∈ turn.user.messageElements, (mediaOfElement e).isSome → '\n' ∉ elementText e
  /-- One message at most comes after a marker of its own. -/
  once : (turn.messages.filter chats).length ≤ 1
  /-- In a message no text or image stands before a tool call. -/
  toolsFirst : ∀ m ∈ turn.messages, m.content.Pairwise (fun a b => a.isTool = false → b.isTool = false)
  /-- No two texts stand side by side. -/
  apart : ∀ m ∈ turn.messages, m.content.IsChain (fun a b => ¬ (Part.isText a = true ∧ Part.isText b = true))
  visible : ∀ m ∈ turn.messages, ∀ t ∈ m.content.filterMap textOfPart, strip t ≠ []
  unbroken : ∀ m ∈ turn.messages, ∀ part ∈ m.content, Part.isText part = false → '\n' ∉ partText describe part
  identified : ∀ m ∈ turn.messages, ∀ part ∈ m.content, Part.identified part = true
  unmarked : ∀ m ∈ untilMarker turn.messages, ∀ part ∈ m.content, part.isTool = true →
    ¬ marker <:+: partText describe part
  /-- An id is that of one tool call, and that of one result. -/
  callsApart : ∀ call ∈ turn.calls, turn.calls.find? (fun other => other.id = call.id) = some call
  resultsApart : ∀ result ∈ turn.results.map storeResult,
    (turn.results.map storeResult).find? (fun other => other.id = result.id) = some result

end Turns

section Metadata

variable {π δ : Type} {describe : Text → Text} {turn : Turn π δ}

theorem collect_metadata {α : Type} (l : List α) (f : α → Text × Context π) : (collect (l.map f)).2 =
    ⟨l.flatMap (fun a => (f a).2.mediaIds), l.flatMap (fun a => (f a).2.toolCalls),
      l.flatMap (fun a => (f a).2.toolResults)⟩ := by
  simp only [collect, List.flatMap_map]

theorem processIM_metadata (m : IMMessage) : (processIM m : Text × Context π).2 =
    ⟨m.messageElements.filterMap mediaOfElement, [], []⟩ := by
  have hmedia (e : Element) : (processElement e : Text × Context π).2 = ⟨(mediaOfElement e).toList, [], []⟩ := by
    cases e <;> rfl
  change ({ mediaIds := [] ++ (m.messageElements.map processElement).flatMap _,
            toolCalls := [] ++ (m.messageElements.map processElement).flatMap _,
            toolResults := [] ++ (m.messageElements.map processElement).flatMap _ } : Context π) = _
  simp only [List.flatMap_map, hmedia, List.nil_append]
  rw [List.filterMap_eq_flatMap_toList]
  simp

theorem processPart_toolCalls (part : Part π δ) :
    (processPart describe part).2.toolCalls = (callOfPart part).toList := by
  cases part <;> rfl

theorem processPart_toolResults (part : Part π δ) :
    (processPart describe part).2.toolResults = ((resultOfPart part).map storeResult).toList := by
  cases part <;> rfl

theorem processChat_toolCalls (m : ChatMessage π δ) :
    (processChat describe m).2.toolCalls = m.content.filterMap callOfPart := by
  rw [processChat, collect_metadata, List.filterMap_eq_flatMap_toList]
  exact List.flatMap_congr (fun part _ => processPart_toolCalls part)

theorem processChat_toolResults (m : ChatMessage π δ) :
    (processChat describe m).2.toolResults = (m.content.filterMap resultOfPart).map storeResult := by
  rw [processChat, collect_metadata, List.map_filterMap, List.filterMap_eq_flatMap_toList]
  exact List.flatMap_congr (fun part _ => processPart_toolResults part)

theorem composed_metadata : (turn.composed describe).metadata =
    ⟨turn.user.messageElements.filterMap mediaOfElement ++
      turn.messages.flatMap (fun m => (processChat describe m).2.mediaIds),
      turn.calls, turn.results.map storeResult⟩ := by
  rw [Turn.composed, compose, collect_metadata]
  simp only [List.flatMap_cons, List.flatMap_map, process, processIM_metadata, processChat_toolCalls,
    processChat_toolResults, List.nil_append, Turn.calls, Turn.results, List.map_flatMap]

theorem media_mem_of_element {mediaId description : Text} (h : .media mediaId description ∈ turn.user.messageElements) :
    mediaId ∈ (turn.composed describe).metadata.mediaIds := by
  rw [composed_metadata]
  exact List.mem_append_left _ (List.mem_filterMap.mpr ⟨_, h, rfl⟩)

theorem media_mem_of_part {m : ChatMessage π δ} {mediaId : Text} (hm : m ∈ turn.messages)
    (h : .image mediaId ∈ m.content) : mediaId ∈ (turn.composed describe).metadata.mediaIds := by
  rw [composed_metadata]
  refine List.mem_append_right _ (List.mem_flatMap.mpr ⟨m, hm, ?_⟩)
  rw [processChat, collect_metadata]
  exact List.mem_flatMap.mpr ⟨_, h, List.mem_singleton_self mediaId⟩

end Metadata

section Known

variable {π δ ι : Type} {metadata : Context π} {role : Role}

def StandsFor (metadata : Context π) (content : Content π) (c : Chunk) : Prop :=
  ∃ tag, c = .tag tag ∧ tag.content metadata = [content]

theorem standsFor_tagChunk {kind : Kind} {attrs : Attributes} (id : Text) {content : Content π} (h : Wellformed attrs)
    (hn : '\n' ∉ createXmlTag kind.name attrs)
    (hid : ((given attrs).reverse.find? (fun a => a.1 = "id".toList)).map Prod.snd = some id)
    (hknown : kind.known metadata id = some content) : StandsFor metadata content (tagChunk kind attrs h) := by
  have hn' : '\n' ∉ attrsStr attrs := fun hmem => hn (newline_mem_attrsStr hmem)
  refine ⟨⟨kind, attrs, h, hn'⟩, dif_neg hn', ?_⟩
  rw [Tag.content, Tag.id, hid, Option.bind_some, hknown, Option.toList_some]

theorem standsFor_media {mediaId description : Text} (hn : '\n' ∉ mediaTag mediaId description)
    (hmem : mediaId ∈ metadata.mediaIds) : StandsFor metadata (.media mediaId) (mediaChunk mediaId description) := by
  refine standsFor_tagChunk mediaId _ hn ?_ (if_pos hmem)
  simp

theorem standsFor_call {call : ToolCall π} (hn : '\n' ∉ callTag call) (hid : call.id.isSome = true)
    (hfind : metadata.toolCalls.find? (fun other => other.id = call.id) = some call) :
    StandsFor metadata (.toolCall call) (callChunk call) := by
  obtain ⟨id, hid⟩ := Option.isSome_iff_exists.mp hid
  rw [hid] at hfind
  refine standsFor_tagChunk id _ hn ?_ ?_
  · rw [hid]
    simp
  · change knownCall metadata id = _
    rw [knownCall, hfind, Option.map_some]

theorem standsFor_result {result : ToolResult (ToolItem δ)} (hn : '\n' ∉ resultTag result) (hid : result.id.isSome = true)
    (hfind : metadata.toolResults.find? (fun other => other.id = (storeResult result).id) = some (storeResult result)) :
    StandsFor metadata (.toolResult (storeResult result)) (resultChunk result) := by
  obtain ⟨id, hid⟩ := Option.isSome_iff_exists.mp hid
  have hid' : (storeResult result).id = some id := hid
  rw [hid'] at hfind
  refine standsFor_tagChunk id _ hn ?_ ?_
  · rw [hid]
    simp
  · change knownResult metadata id = _
    rw [knownResult, hfind, Option.map_some]

end Known

section Reading

variable {π δ : Type} {letter : Char → Bool} {describe : Text → Text} {metadata : Context π} {g : Text}

def seeChunk (metadata : Context π) (role : Role) : Chunk → List (Role × Seen π δ)
  | .gap _ => []
  | .tag tag => (tag.content metadata).flatMap (seeContent role)

theorem see_textContent_user (t : Text) : (textContent t).flatMap (seeContent (π := π) (δ := δ) .user) = [] := by
  unfold textContent
  split <;> rfl

theorem see_userChunks {cs : List Chunk} (hg : Inert g) (hcs : ∀ c ∈ cs, c.Quiet) :
    (readChunks letter metadata [] g cs).flatMap (seeContent (δ := δ) .user) = cs.flatMap (seeChunk metadata .user) := by
  induction cs generalizing g with
  | nil =>
    rw [readChunks, List.append_nil, readContents_inert hg, see_textContent_user]
    rfl
  | cons c cs ih =>
    have hrest : ∀ d ∈ cs, d.Quiet := fun d hd => hcs d (List.mem_cons_of_mem c hd)
    have hc := hcs c List.mem_cons_self
    cases c with
    | gap x =>
      rw [readChunks, ih (inert_append hg hc) hrest]
      rfl
    | tag tag =>
      rw [readChunks, List.flatMap_append, List.flatMap_append, see_textContent_user, ih inert_nil hrest]
      rfl

def place : Part π δ → Role × Seen π δ
  | .text t => (.assistant, .text (strip t))
  | .image mediaId => (.assistant, .media mediaId)
  | .toolCall call => (.assistant, .toolCall call)
  | .toolResult result => (.tool, .toolResult result)

def recorded : Part π δ → Part π δ
  | .toolResult result => .toolResult (restore (storeResult result))
  | part => part

def Legible (describe : Text → Text) (metadata : Context π) : Part π δ → Prop
  | .text t => '<' ∉ t ∧ strip t ≠ []
  | .image mediaId => StandsFor metadata (.media mediaId) (mediaChunk mediaId (describe mediaId))
  | .toolCall call => StandsFor metadata (.toolCall call) (callChunk call)
  | .toolResult result => StandsFor metadata (.toolResult (storeResult result)) (resultChunk result)

theorem see_tool {part : Part π δ} (role : Role) (htool : part.isTool = true) (h : Legible describe metadata part) :
    (partChunks describe part).flatMap (seeChunk metadata role) = [place (recorded part)] := by
  cases part with
  | text t => cases htool
  | image mediaId => cases htool
  | toolCall call =>
    obtain ⟨tag, htag, hcontent⟩ := h
    rw [partChunks, htag]
    change (tag.content metadata).flatMap (seeContent role) ++ [] = _
    rw [hcontent]
    rfl
  | toolResult result =>
    obtain ⟨tag, htag, hcontent⟩ := h
    rw [partChunks, htag]
    change (tag.content metadata).flatMap (seeContent role) ++ [] = _
    rw [hcontent]
    rfl

theorem see_element {e : Element} (h : ∀ mediaId ∈ mediaOfElement e, ∀ description,
    e = .media mediaId description → StandsFor metadata (.media mediaId) (mediaChunk mediaId description)) :
    (elementChunks e).flatMap (seeChunk (δ := δ) metadata .user) =
      (mediaOfElement e).toList.map (fun mediaId => (.user, .media mediaId)) := by
  cases e with
  | text t => rfl
  | media mediaId description =>
    obtain ⟨tag, htag, hcontent⟩ := h mediaId rfl description rfl
    rw [elementChunks, htag]
    change (tag.content metadata).flatMap (seeContent .user) ++ [] = _
    rw [hcontent]
    rfl
  | other plain => rfl

theorem dropThinkPart_of_no_open {t : Text} (h : '<' ∉ t) : dropThinkPart t = t := by
  rw [dropThinkPart, if_neg]
  exact fun hp => h (hp.subset (by decide))

theorem see_pending (g : Text) : (textContent g).flatMap (seeContent (π := π) (δ := δ) .assistant) =
    if strip g = [] then [] else [(.assistant, .text (strip g))] := by
  unfold textContent
  split
  · rfl
  · change [(Role.assistant, Seen.text (strip (strip g)))] = _
    rw [strip_strip]

theorem strip_of_blank (hg : ∀ c ∈ g, isSpace c = true) : strip g = [] := by
  have hstrip := strip_blank_append (t := []) hg
  rwa [List.append_nil] at hstrip

theorem strip_line {t : Text} (hg : ∀ c ∈ g, isSpace c = true) : strip (g ++ (t ++ ['\n'])) = strip t := by
  rw [strip_blank_append hg, strip_append_blank (rstrip_eq_nil_iff.mpr (by simp; decide))]

theorem see_assistantParts {parts : List (Part π δ)} (hg : Inert g) (hparts : ∀ part ∈ parts, Legible describe metadata part)
    (happart : parts.IsChain (fun a b => ¬ (Part.isText a = true ∧ Part.isText b = true)))
    (hfirst : (∀ c ∈ g, isSpace c = true) ∨ ∀ part ∈ parts.head?, Part.isText part = false) :
    (readChunks letter metadata [] g (parts.flatMap (partChunks describe))).flatMap (seeContent .assistant) =
      (textContent g).flatMap (seeContent .assistant) ++ parts.map (fun part => place (recorded part)) := by
  induction parts generalizing g with
  | nil =>
    rw [List.flatMap_nil, readChunks, List.append_nil, readContents_inert hg, List.map_nil, List.append_nil]
  | cons part parts ih =>
    have hpart := hparts part List.mem_cons_self
    have hrest : ∀ p ∈ parts, Legible describe metadata p := fun p hp => hparts p (List.mem_cons_of_mem part hp)
    obtain ⟨hhead, hchain⟩ := List.isChain_cons.mp happart
    have hline : (textContent ['\n']).flatMap (seeContent (π := π) (δ := δ) .assistant) = [] := rfl
    -- a part that is a tag: what waits in front is read, and after the tag a line end waits
    have htag (c : Chunk) (content : Content π) (hc : StandsFor metadata content c)
        (hchunks : partChunks describe part = [c, lineEnd])
        (hplace : seeContent .assistant content = [place (recorded part)]) :
        (readChunks letter metadata [] g ((part :: parts).flatMap (partChunks describe))).flatMap (seeContent .assistant) =
          (textContent g).flatMap (seeContent .assistant) ++ (part :: parts).map (fun part => place (recorded part)) := by
      obtain ⟨tag, rfl, hcontent⟩ := hc
      have hread := ih (g := ['\n']) (inert_of_blank (by decide)) hrest hchain (.inl (by decide))
      rw [List.flatMap_cons, hchunks]
      change (textContent g ++ tag.content metadata ++ readChunks letter metadata [] ['\n']
        (parts.flatMap (partChunks describe))).flatMap (seeContent .assistant) = _
      rw [List.flatMap_append, List.flatMap_append, hread, hline, hcontent, List.flatMap_singleton, hplace]
      simp
    cases part with
    | text t =>
      obtain ⟨hopen, hvisible⟩ := hpart
      have hblank : ∀ c ∈ g, isSpace c = true := by
        cases hfirst with
        | inl h => exact h
        | inr h => exact absurd (h _ rfl) (by simp [Part.isText])
      have hnothing : strip g = [] := strip_of_blank hblank
      have hnext : ∀ part ∈ parts.head?, Part.isText part = false :=
        fun part hp => Bool.eq_false_iff.mpr (fun h => hhead part hp ⟨rfl, h⟩)
      have hinert : Inert (g ++ (t ++ ['\n'])) := by
        refine inert_append hg (inert_of_no_open ?_)
        simp [hopen]
      rw [List.flatMap_cons, partChunks, dropThinkPart_of_no_open hopen]
      change (readChunks letter metadata [] (g ++ (t ++ ['\n'])) (parts.flatMap (partChunks describe))).flatMap _ = _
      rw [ih hinert hrest hchain (.inr hnext), see_pending, see_pending, strip_line hblank, if_neg hvisible,
        if_pos hnothing]
      rfl
    | image mediaId => exact htag _ _ hpart rfl rfl
    | toolCall call => exact htag _ _ hpart rfl rfl
    | toolResult result => exact htag _ _ hpart rfl rfl

end Reading

variable {π δ : Type} {letter : Char → Bool} {describe : Text → Text} {turn : Turn π δ}

def Turn.parts (turn : Turn π δ) : List (Part π δ) := turn.messages.flatMap ChatMessage.content

variable {m : ChatMessage π δ} {part : Part π δ}

theorem seePart_eq (hrole : m.role = .assistant ∨ m.role = .tool)
    (hchecked : m.checkContentType = true) (h : part ∈ m.content) : seePart m.role part = [place part] := by
  cases hrole with
  | inl hrole =>
    rw [ChatMessage.checkContentType, hrole, if_neg (by decide)] at hchecked
    have hpart := List.all_eq_true.mp hchecked part h
    rw [hrole]
    cases part with
    | text t => rfl
    | image mediaId => rfl
    | toolCall call => rfl
    | toolResult result => cases hpart
  | inr hrole =>
    rw [ChatMessage.checkContentType, hrole, if_pos rfl] at hchecked
    have hpart := List.all_eq_true.mp hchecked part h
    rw [hrole]
    cases part with
    | text t => cases hpart
    | image mediaId => cases hpart
    | toolCall call => cases hpart
    | toolResult result => rfl

theorem see_messages : see turn.messages = turn.parts.map place := by
  rw [see, Turn.parts, List.map_flatMap]
  refine List.flatMap_congr (fun m hm => ?_)
  rw [List.map_eq_flatMap]
  exact List.flatMap_congr (fun part hp => seePart_eq (turn.roles m hm) (turn.checked m hm) hp)

theorem legible (h : Readable turn describe) (hm : m ∈ turn.messages)
    (hp : part ∈ m.content) : Legible describe (turn.composed describe).metadata part := by
  have hid := h.identified m hm part hp
  have hmetadata : (turn.composed describe).metadata =
      ⟨turn.user.messageElements.filterMap mediaOfElement ++
        turn.messages.flatMap (fun m => (processChat describe m).2.mediaIds),
        turn.calls, turn.results.map storeResult⟩ := composed_metadata
  cases part with
  | text t =>
    have hmem : t ∈ m.content.filterMap textOfPart := List.mem_filterMap.mpr ⟨_, hp, rfl⟩
    exact ⟨(turn.texts m hm t hmem).1, h.visible m hm t hmem⟩
  | image mediaId => exact standsFor_media (h.unbroken m hm _ hp rfl) (media_mem_of_part hm hp)
  | toolCall call =>
    refine standsFor_call (h.unbroken m hm _ hp rfl) hid ?_
    rw [hmetadata]
    exact h.callsApart call (List.mem_flatMap.mpr ⟨m, hm, List.mem_filterMap.mpr ⟨_, hp, rfl⟩⟩)
  | toolResult result =>
    refine standsFor_result (h.unbroken m hm _ hp rfl) hid ?_
    rw [hmetadata]
    have hmem : result ∈ turn.results := List.mem_flatMap.mpr ⟨m, hm, List.mem_filterMap.mpr ⟨_, hp, rfl⟩⟩
    exact h.resultsApart _ (List.mem_map_of_mem hmem)

theorem see_imChunks (h : Readable turn describe) :
    (imChunks turn.user).flatMap (seeChunk (δ := δ) (turn.composed describe).metadata .user) =
      (turn.user.messageElements.filterMap mediaOfElement).map (fun mediaId => (.user, .media mediaId)) := by
  rw [imChunks, List.flatMap_cons, List.flatMap_assoc, List.filterMap_eq_flatMap_toList, List.map_flatMap]
  refine List.flatMap_congr (fun e he => see_element (fun mediaId _ description heq => ?_))
  subst heq
  exact standsFor_media (h.userUnbroken _ he rfl) (media_mem_of_element he)

variable {parts : List (Part π δ)} {metadata : Context π}

theorem see_tools (role : Role) (htools : ∀ part ∈ parts, part.isTool = true)
    (hparts : ∀ part ∈ parts, Legible describe metadata part) :
    (parts.flatMap (partChunks describe)).flatMap (seeChunk metadata role) =
      parts.map (fun part => place (recorded part)) := by
  rw [List.flatMap_assoc, List.map_eq_flatMap]
  exact List.flatMap_congr (fun part hp => see_tool role (htools part hp) (hparts part hp))

theorem quiet_parts (hparts : ∀ part ∈ parts, Legible describe metadata part) :
    ∀ c ∈ parts.flatMap (partChunks describe), c.Quiet := by
  intro c hc
  obtain ⟨part, hp, hc⟩ := List.mem_flatMap.mp hc
  have hlegible := hparts part hp
  cases part with
  | text t =>
    rw [List.mem_singleton.mp hc, dropThinkPart_of_no_open hlegible.1]
    exact inert_of_no_open (by simp [hlegible.1])
  | image mediaId =>
    have hquiet : ∀ c ∈ [mediaChunk mediaId (describe mediaId), lineEnd], c.Quiet := by
      simpa using ⟨tagChunk_quiet (wellformed_media mediaId (describe mediaId)), quiet_lineEnd⟩
    exact hquiet c hc
  | toolCall call => exact quiet_toolPart rfl c hc
  | toolResult result => exact quiet_toolPart rfl c hc

theorem unmarked_parts (h : ∀ part ∈ parts, ¬ marker <:+: partText describe part) :
    Unmarked ((parts.flatMap (partChunks describe)).flatMap Chunk.text) := by
  rw [parts_text]
  refine unmarked_flatMap (fun part hp => ?_)
  rw [processPart_eq]
  exact unmarked_line (h part hp)

theorem composed_eq : turn.composed describe =
    ⟨strip ((processIM turn.user : Text × Context π).1 ++ turn.messages.flatMap (fun m => (processChat describe m).1)),
      (turn.composed describe).metadata⟩ := by
  rw [Turn.composed, compose, collect]
  simp only [List.map_cons, List.flatMap_cons, List.map_map, List.flatMap_map, process, Function.comp_apply]

theorem isTool_of_not_chats (h : chats m = false) : ∀ part ∈ m.content, part.isTool = true := by
  intro part hp
  have hno := List.any_eq_false.mp h part hp
  simpa using hno

theorem processChat_of_not_chats (h : chats m = false) :
    (processChat describe m).1 = (m.content.flatMap (partChunks describe)).flatMap Chunk.text := by
  have htools := isTool_of_not_chats h
  have hfilter : m.content.filter (fun part => !part.isTool) = [] := by
    rw [List.filter_eq_nil_iff]
    exact fun part hp => by simp [htools part hp]
  have htemp : tempText describe m = [] := by rw [tempText, hfilter, List.flatMap_nil]
  rw [processChat, htemp, resultText, List.filter_eq_self.mpr htools, parts_text]
  exact List.append_nil _

theorem split_tools (h : parts.Pairwise (fun a b => a.isTool = false → b.isTool = false)) :
    parts = parts.filter Part.isTool ++ parts.filter (fun part => !part.isTool) := by
  induction parts with
  | nil => rfl
  | cons part parts ih =>
    obtain ⟨hpart, hrest⟩ := List.pairwise_cons.mp h
    cases htool : part.isTool with
    | true => simpa [htool] using ih hrest
    | false =>
      have hall : ∀ p ∈ parts, p.isTool = false := fun p hp => hpart p hp htool
      have htools : parts.filter Part.isTool = [] := List.filter_eq_nil_iff.mpr (fun p hp => by simp [hall p hp])
      have hothers : parts.filter (fun part => !part.isTool) = parts :=
        List.filter_eq_self.mpr (fun p hp => by simp [hall p hp])
      simp [htool, htools, hothers]

theorem processChat_of_chats (hchats : chats m = true)
    (hvisible : ∀ t ∈ m.content.filterMap textOfPart, '<' ∉ t ∧ strip t ≠ []) : (processChat describe m).1 =
      ((m.content.filter Part.isTool).flatMap (partChunks describe)).flatMap Chunk.text ++ (marker ++ (" \n".toList ++
        ((m.content.filter (fun part => !part.isTool)).flatMap (partChunks describe)).flatMap Chunk.text)) := by
  obtain ⟨part, hp, htool⟩ := List.any_eq_true.mp hchats
  have hmem : part ∈ m.content.filter (fun part => !part.isTool) := List.mem_filter.mpr ⟨hp, htool⟩
  have hseen : ∃ c ∈ (processPart describe part).1, c ≠ '\n' := by
    cases part with
    | text t =>
      obtain ⟨hopen, hstrip⟩ := hvisible t (List.mem_filterMap.mpr ⟨_, hp, rfl⟩)
      by_contra hno
      push Not at hno
      refine hstrip (strip_of_blank (fun c hc => ?_))
      have hc' := hno c (List.mem_append_left _ (by rwa [dropThinkPart_of_no_open hopen]))
      rw [hc']
      rfl
    | image mediaId => exact ⟨'<', by simp [processPart, mediaTag, createXmlTag], by decide⟩
    | toolCall call => cases htool
    | toolResult result => cases htool
  obtain ⟨c, hc, hne⟩ := hseen
  have htemp : ¬ (tempText describe m).all (· = '\n') = true := by
    rw [List.all_eq_true]
    intro hall
    have hall := hall c (List.mem_flatMap.mpr ⟨part, hmem, hc⟩)
    exact hne (of_decide_eq_true hall)
  rw [processChat]
  dsimp only
  rw [if_neg htemp, parts_text, parts_text, List.append_assoc]
  rfl

variable {messages : List (ChatMessage π δ)}

theorem untilMarker_of_none (h : ∀ m ∈ messages, chats m = false) : untilMarker messages = messages := by
  induction messages with
  | nil => rfl
  | cons m messages ih =>
    rw [untilMarker, if_neg (by simp [h m List.mem_cons_self]), ih (fun n hn => h n (List.mem_cons_of_mem m hn))]

theorem untilMarker_append {front back : List (ChatMessage π δ)}
    (h : ∀ m ∈ front, chats m = false) (hm : chats m = true) : untilMarker (front ++ m :: back) = front ++ [m] := by
  induction front with
  | nil => rw [List.nil_append, untilMarker, if_pos hm, List.nil_append]
  | cons n front ih =>
    rw [List.cons_append, untilMarker, if_neg (by simp [h n List.mem_cons_self]),
      ih (fun k hk => h k (List.mem_cons_of_mem n hk)), List.cons_append]

theorem split_chats (h : (messages.filter chats).length ≤ 1) :
    (∀ m ∈ messages, chats m = false) ∨ ∃ front m back, messages = front ++ m :: back ∧ chats m = true ∧
      (∀ m ∈ front, chats m = false) ∧ ∀ m ∈ back, chats m = false := by
  induction messages with
  | nil => exact .inl (fun m hm => (nomatch hm))
  | cons m messages ih =>
    cases hm : chats m with
    | true =>
      rw [List.filter_cons_of_pos hm, List.length_cons] at h
      have hrest : messages.filter chats = [] := List.length_eq_zero_iff.mp (by omega)
      refine .inr ⟨[], m, messages, rfl, hm, fun n hn => (nomatch hn), fun n hn => ?_⟩
      exact Bool.eq_false_iff.mpr (List.filter_eq_nil_iff.mp hrest n hn)
    | false =>
      rw [List.filter_cons_of_neg (by simp [hm])] at h
      cases ih h with
      | inl hall => exact .inl (by simpa [hm] using hall)
      | inr hsplit =>
        obtain ⟨front, n, back, rfl, hn, hfront, hback⟩ := hsplit
        exact .inr ⟨m :: front, n, back, rfl, hn, by simpa [hm] using hfront, hback⟩

theorem splitOnce_of_unmarked {t : Text} (h : Unmarked t) : splitOnce marker t = none := by
  have hsplit : splitOnce marker (t ++ []) = _ := splitOnce_unmarked h
  rwa [List.append_nil] at hsplit

theorem see_userSide (h : Readable turn describe) (htools : ∀ part ∈ parts, part.isTool = true)
    (hparts : ∀ part ∈ parts, Legible describe (turn.composed describe).metadata part) :
    (readContents letter (turn.composed describe).metadata
      ((processIM turn.user : Text × Context π).1 ++ (parts.flatMap (partChunks describe)).flatMap Chunk.text)).flatMap
        (seeContent .user) =
      (turn.user.messageElements.filterMap mediaOfElement).map (fun mediaId => (.user, .media mediaId)) ++
        parts.map (fun part => place (recorded part)) := by
  let cs := imChunks turn.user ++ parts.flatMap (partChunks describe)
  have hcs : ∀ c ∈ cs, c.Quiet := by
    intro c hc
    cases List.mem_append.mp hc with
    | inl hc => exact quiet_im h.user c hc
    | inr hc => exact quiet_parts hparts c hc
  have htext : (processIM turn.user : Text × Context π).1 ++ (parts.flatMap (partChunks describe)).flatMap Chunk.text =
      [] ++ cs.flatMap Chunk.text ++ [] := by
    rw [List.nil_append, List.append_nil, List.flatMap_append, imChunks_text]
  rw [htext, readContents_chunks inert_nil hcs, see_userChunks inert_nil hcs, List.flatMap_append, see_imChunks h,
    see_tools .user htools hparts]

theorem see_assistantSide (hparts : ∀ part ∈ parts, Legible describe metadata part)
    (happart : parts.IsChain (fun a b => ¬ (Part.isText a = true ∧ Part.isText b = true))) :
    (readContents letter metadata (" \n".toList ++ (parts.flatMap (partChunks describe)).flatMap Chunk.text)).flatMap
      (seeContent .assistant) = parts.map (fun part => place (recorded part)) := by
  have hblank : ∀ c ∈ (" \n".toList : Text), isSpace c = true := List.all_eq_true.mp (by decide)
  have hinert : Inert " \n".toList := inert_of_blank hblank
  have hread : readContents letter metadata (" \n".toList ++ (parts.flatMap (partChunks describe)).flatMap Chunk.text ++ []) =
      readChunks letter metadata [] " \n".toList (parts.flatMap (partChunks describe)) :=
    readContents_chunks hinert (quiet_parts hparts)
  rw [List.append_nil] at hread
  rw [hread, see_assistantParts hinert hparts happart (.inl hblank), see_pending, strip_of_blank hblank, if_pos rfl,
    List.nil_append]

theorem tool_not_text (htool : part.isTool = true) : Part.isText part ≠ true := by
  cases part with
  | text t => cases htool
  | image mediaId => exact Bool.false_ne_true
  | toolCall call => exact Bool.false_ne_true
  | toolResult result => exact Bool.false_ne_true

theorem tools_apart (htools : ∀ part ∈ parts, part.isTool = true) :
    parts.IsChain (fun a b => ¬ (Part.isText a = true ∧ Part.isText b = true)) := by
  exact List.Pairwise.isChain (List.pairwise_of_forall_mem_list (fun a ha b _ h => tool_not_text (htools a ha) h.1))

theorem toolMessages_text (hno : ∀ m ∈ messages, chats m = false) :
    messages.flatMap (fun m => (processChat describe m).1) =
      ((messages.flatMap ChatMessage.content).flatMap (partChunks describe)).flatMap Chunk.text := by
  rw [List.flatMap_assoc, List.flatMap_assoc]
  refine List.flatMap_congr (fun m hm => ?_)
  rw [processChat_of_not_chats (hno m hm), List.flatMap_assoc]

theorem toolMessages_tools (hno : ∀ m ∈ messages, chats m = false) :
    ∀ part ∈ messages.flatMap ChatMessage.content, part.isTool = true := by
  intro part hp
  obtain ⟨m, hm, hp⟩ := List.mem_flatMap.mp hp
  exact isTool_of_not_chats (hno m hm) part hp

variable (h : Readable turn describe)

include h

theorem parts_legible : ∀ part ∈ turn.parts, Legible describe (turn.composed describe).metadata part := by
  intro part hp
  obtain ⟨m, hm, hp⟩ := List.mem_flatMap.mp hp
  exact legible h hm hp

theorem returned_of_none (hno : ∀ m ∈ turn.messages, chats m = false) : turn.returned letter describe =
      (turn.user.messageElements.filterMap mediaOfElement).map (fun mediaId => (.user, .media mediaId)) ++
        turn.parts.map (fun part => place (recorded part)) := by
  have htools : ∀ part ∈ turn.parts, part.isTool = true := toolMessages_tools hno
  have hunmarked : Unmarked ((turn.parts.flatMap (partChunks describe)).flatMap Chunk.text) := by
    refine unmarked_parts (fun part hp => ?_)
    obtain ⟨m, hm, hp'⟩ := List.mem_flatMap.mp hp
    exact h.unmarked m (by rwa [untilMarker_of_none hno]) part hp' (htools part hp)
  have hfront := unmarked_im h.user
  rw [imChunks_text (π := π)] at hfront
  have hnone := splitOnce_of_unmarked (unmarked_append hfront hunmarked)
  have htext : turn.messages.flatMap (fun m => (processChat describe m).1) =
      (turn.parts.flatMap (partChunks describe)).flatMap Chunk.text := toolMessages_text hno
  rw [Turn.returned, decompose, see_mergeAdjacent, List.flatMap_singleton, composed_eq, processEntry_strip, htext, hnone]
  change see (toLlmMessage .user [] _) = _
  rw [see_toLlmMessage, List.flatMap_nil, List.nil_append]
  exact see_userSide h htools (parts_legible h)

theorem returned_of_one {before after : List (ChatMessage π δ)}
    (hmessages : turn.messages = before ++ m :: after) (hm : chats m = true) (hbefore : ∀ m ∈ before, chats m = false)
    (hafter : ∀ m ∈ after, chats m = false) : turn.returned letter describe =
      (turn.user.messageElements.filterMap mediaOfElement).map (fun mediaId => (.user, .media mediaId)) ++
        turn.parts.map (fun part => place (recorded part)) := by
  have hmem : m ∈ turn.messages := hmessages ▸ List.mem_append_right _ List.mem_cons_self
  let calls := before.flatMap ChatMessage.content ++ m.content.filter Part.isTool
  let chat := m.content.filter (fun part => !part.isTool) ++ after.flatMap ChatMessage.content
  have hcontent : m.content = m.content.filter Part.isTool ++ m.content.filter (fun part => !part.isTool) :=
    split_tools (h.toolsFirst m hmem)
  have hsplit : turn.parts = calls ++ chat := by
    rw [Turn.parts, hmessages, List.flatMap_append, List.flatMap_cons]
    conv_lhs => rw [hcontent]
    simp only [calls, chat, List.append_assoc]
  have hparts : ∀ part ∈ calls ++ chat, Legible describe (turn.composed describe).metadata part :=
    hsplit ▸ parts_legible h
  have hcalls : ∀ part ∈ calls, part.isTool = true := by
    intro part hp
    cases List.mem_append.mp hp with
    | inl hp => exact toolMessages_tools hbefore part hp
    | inr hp => exact (List.mem_filter.mp hp).2
  have hunmarked : Unmarked ((calls.flatMap (partChunks describe)).flatMap Chunk.text) := by
    refine unmarked_parts (fun part hp => ?_)
    have huntil : untilMarker turn.messages = before ++ [m] := by rw [hmessages, untilMarker_append hbefore hm]
    cases List.mem_append.mp hp with
    | inl hp' =>
      obtain ⟨n, hn, hp'⟩ := List.mem_flatMap.mp hp'
      exact h.unmarked n (by rw [huntil]; exact List.mem_append_left _ hn) part hp' (hcalls part hp)
    | inr hp' =>
      exact h.unmarked m (by rw [huntil]; simp) part (List.mem_filter.mp hp').1 (hcalls part hp)
  have happart : chat.IsChain (fun a b => ¬ (Part.isText a = true ∧ Part.isText b = true)) := by
    have hwhole := h.apart m hmem
    have htools := toolMessages_tools hafter
    rw [hcontent] at hwhole
    refine List.isChain_append.mpr ⟨(List.isChain_append.mp hwhole).2.1, tools_apart htools, ?_⟩
    intro a _ b hb hboth
    exact tool_not_text (htools b (List.mem_of_mem_head? hb)) hboth.2
  have htext : (processIM turn.user : Text × Context π).1 ++ turn.messages.flatMap (fun m => (processChat describe m).1) =
      ((processIM turn.user : Text × Context π).1 ++ (calls.flatMap (partChunks describe)).flatMap Chunk.text) ++
        (marker ++ (" \n".toList ++ (chat.flatMap (partChunks describe)).flatMap Chunk.text)) := by
    have hvisible : ∀ t ∈ m.content.filterMap textOfPart, '<' ∉ t ∧ strip t ≠ [] :=
      fun t ht => ⟨(turn.texts m hmem t ht).1, h.visible m hmem t ht⟩
    rw [hmessages, List.flatMap_append, List.flatMap_cons, toolMessages_text hbefore, toolMessages_text hafter,
      processChat_of_chats hm hvisible]
    simp only [calls, chat, List.flatMap_append, List.append_assoc]
  have hfront := unmarked_im h.user
  rw [imChunks_text (π := π)] at hfront
  rw [Turn.returned, decompose, see_mergeAdjacent, List.flatMap_singleton, composed_eq, processEntry_strip, htext,
    splitOnce_unmarked (unmarked_append hfront hunmarked), splitOnce_marker]
  have hmap : (calls ++ chat).map (fun part => place (recorded part)) =
      calls.map (fun part => place (recorded part)) ++ chat.map (fun part => place (recorded part)) := List.map_append
  change see (toLlmMessage .user [] (readContents letter (turn.composed describe).metadata (_ ++ [])) ++
    toLlmMessage .assistant [] (readContents letter _ (" \n".toList ++ _))) = _
  rw [List.append_nil, see_append, see_toLlmMessage, see_toLlmMessage, List.flatMap_nil, List.flatMap_nil, List.nil_append,
    List.nil_append, see_userSide h hcalls (fun part hp => hparts part (List.mem_append_left _ hp)),
    see_assistantSide (fun part hp => hparts part (List.mem_append_right _ hp)) happart, hsplit, hmap,
    List.append_assoc]

theorem returned_eq : turn.returned letter describe =
    (turn.user.messageElements.filterMap mediaOfElement).map (fun mediaId => (.user, .media mediaId)) ++
      turn.parts.map (fun part => place (recorded part)) := by
  cases split_chats h.once with
  | inl hno => exact returned_of_none h hno
  | inr hsplit =>
    obtain ⟨before, m, after, hmessages, hm, hbefore, hafter⟩ := hsplit
    exact returned_of_one h hmessages hm hbefore hafter

omit h

theorem restore_storeResult_iff {result : ToolResult (ToolItem δ)} :
    restore (storeResult result) = result ↔ result.content = [] := by
  obtain ⟨id, name, isError, content⟩ := result
  constructor
  · intro h
    have hcontent : (content.filterMap storeItem).map ToolItem.stored = content := congrArg ToolResult.content h
    have hnone : content.filterMap storeItem = [] := by
      rw [List.filterMap_eq_nil_iff]
      intro item hitem
      rw [← hcontent] at hitem
      obtain ⟨stored, _, rfl⟩ := List.mem_map.mp hitem
      rfl
    rw [hnone] at hcontent
    exact hcontent.symm
  · intro h
    have hcontent : content = [] := h
    subst hcontent
    rfl

/-- In a turn whose parts can be told apart, all comes back when no tool result has content:
content comes back as the dicts it is kept as. -/
theorem recovered_iff (h : Readable turn describe) :
    Recovered turn letter describe ↔ ∀ result ∈ turn.results, result.content = [] := by
  rw [Recovered, returned_eq h, Turn.given, see_messages, List.append_cancel_left_eq, List.map_inj_left]
  constructor
  · intro hall result hresult
    obtain ⟨m, hm, hp⟩ := List.mem_flatMap.mp hresult
    obtain ⟨part, hp, hpart⟩ := List.mem_filterMap.mp hp
    have hplace := hall part (List.mem_flatMap.mpr ⟨m, hm, hp⟩)
    cases part with
    | toolResult r =>
      cases hpart
      have hsame : restore (storeResult result) = result := by simpa [place, recorded] using hplace
      exact restore_storeResult_iff.mp hsame
    | text t => cases hpart
    | image mediaId => cases hpart
    | toolCall call => cases hpart
  · intro hall part hp
    obtain ⟨m, hm, hp⟩ := List.mem_flatMap.mp hp
    cases part with
    | toolResult r =>
      have hempty := hall r (List.mem_flatMap.mpr ⟨m, hm, List.mem_filterMap.mpr ⟨_, hp, rfl⟩⟩)
      have hsame : restore (storeResult r) = r := restore_storeResult_iff.mpr hempty
      rw [recorded, hsame]
    | text t => rfl
    | image mediaId => rfl
    | toolCall call => rfl

def weatherTurn (answer : List (Part Text Unit)) (h : answer = [.text "好的".toList, .toolCall ⟨some ['1'], ['f'], none⟩] ∨
    answer = [.toolCall ⟨some ['1'], ['f'], none⟩, .text "好的".toList]) : Turn Text Unit where
  user := ⟨['a'], [.text "天气".toList, .media ['m'] []]⟩
  messages := [⟨.assistant, answer⟩, ⟨.tool, [.toolResult ⟨some ['1'], ['f'], false, []⟩]⟩]
  roles := by simp
  checked := by cases h with
    | inl h => subst h; decide
    | inr h => subst h; decide
  userTexts := by decide
  texts := by cases h with
    | inl h => subst h; decide
    | inr h => subst h; decide

theorem readable_weatherTurn : Readable (weatherTurn _ (.inr rfl)) (fun t => t) where
  user := ⟨by decide, by decide, by decide, by decide⟩
  userUnbroken := by decide
  once := by decide
  toolsFirst := by decide
  apart := by decide
  visible := by decide
  unbroken := by decide
  identified := by decide
  unmarked := by decide
  callsApart := by decide
  resultsApart := by decide

theorem recovered_weatherTurn : Recovered (weatherTurn _ (.inr rfl)) (fun _ => false) (fun t => t) :=
  (recovered_iff readable_weatherTurn).mpr (by decide)

/-- A text in front of a tool call comes back behind it. -/
theorem text_before_call_lost : ¬ Recovered (weatherTurn _ (.inl rfl)) (fun _ => false) (fun t => t) := by
  have hsame : (weatherTurn _ (.inl rfl)).returned (fun _ => false) (fun t => t) =
      (weatherTurn _ (.inr rfl)).returned (fun _ => false) (fun t => t) := by
    have hcomposed : (weatherTurn _ (.inl rfl)).composed (fun t => t) = (weatherTurn _ (.inr rfl)).composed (fun t => t) := rfl
    rw [Turn.returned, hcomposed]
    rfl
  rw [Recovered, hsame, returned_eq readable_weatherTurn]
  decide

end Kirara.TurnRoundTrips
