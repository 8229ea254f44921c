import Kirara.ParsedTurns

namespace Kirara.MarkedTurns

open Kirara.Channels Kirara.MemoryTags Kirara.MemoryTurns Kirara.ParsedTurns

section Splitting

variable {m t u p q v : Text}

theorem splitOnce_eq_some (h : splitOnce m t = some (p, q)) :
    t = p ++ (m ++ q) ∧ ∀ v, v <:+ p → v ≠ [] → ¬ m <+: v ++ (m ++ q) := by
  induction t generalizing p with
  | nil => cases h
  | cons c t ih =>
    rw [splitOnce] at h
    split at h
    · next hp =>
      cases h
      obtain ⟨w, hw⟩ := hp
      refine ⟨?_, fun v hv hne => absurd (List.suffix_nil.mp hv) hne⟩
      rw [← hw, List.drop_left, List.nil_append]
    · next hno =>
      obtain ⟨r, hr, he⟩ := Option.map_eq_some_iff.mp h
      cases he
      obtain ⟨ht, hfirst⟩ := ih hr
      refine ⟨congrArg (List.cons c) ht, fun v hv hne => ?_⟩
      cases List.suffix_cons_iff.mp hv with
      | inl he =>
        rw [he, List.cons_append, ← ht]
        exact hno
      | inr hr => exact hfirst v hr hne

theorem splitOnce_of_first (hm : m ≠ []) (h : ∀ v, v <:+ p → v ≠ [] → ¬ m <+: v ++ (m ++ q)) :
    splitOnce m (p ++ (m ++ q)) = some (p, q) := by
  induction p with
  | nil =>
    obtain ⟨c, w, hw⟩ := List.exists_cons_of_ne_nil hm
    have hp : m <+: c :: (w ++ q) := hw ▸ List.prefix_append (c :: w) q
    rw [List.nil_append, hw, List.cons_append, splitOnce, ← hw, if_pos hp, hw]
    simp
  | cons c p ih =>
    have hno := h (c :: p) List.suffix_rfl (by simp)
    rw [List.cons_append] at hno ⊢
    rw [splitOnce, if_neg hno, ih (fun v hv => h v (hv.trans (List.suffix_cons c p)))]
    rfl

theorem splitOnce_eq_none_iff (hm : m ≠ []) : splitOnce m t = none ↔ ∀ v, v <:+ t → ¬ m <+: v := by
  induction t with
  | nil =>
    refine iff_of_true rfl (fun v hv hp => hm ?_)
    rw [List.suffix_nil.mp hv] at hp
    exact List.prefix_nil.mp hp
  | cons c t ih =>
    rw [splitOnce]
    split
    · next hp =>
      exact iff_of_false nofun (fun h => h (c :: t) List.suffix_rfl hp)
    · next hno =>
      rw [Option.map_eq_none_iff, ih]
      constructor
      · intro h v hv
        cases List.suffix_cons_iff.mp hv with
        | inl he => exact he ▸ hno
        | inr hr => exact h v hr
      · exact fun h v hv => h v (hv.trans (List.suffix_cons c t))

theorem splitOnce_strip (hstart : ∃ c ∈ m.head?, isSpace c = false) (hend : rstrip m = m) :
    splitOnce m (strip t) = (splitOnce m t).map (fun s => (s.1.dropWhile isSpace, rstrip s.2)) := by
  obtain ⟨c, hc, hvisible⟩ := hstart
  obtain ⟨w, hw⟩ : ∃ w, m = c :: w := by
    cases m with
    | nil => cases hc
    | cons d w => exact ⟨w, by rw [Option.some.inj hc]⟩
  have hm : m ≠ [] := by simp [hw]
  have hdrop (u : Text) : (m ++ u).dropWhile isSpace = m ++ u := by
    rw [hw]
    exact List.dropWhile_cons_of_neg (by simp [hvisible])
  cases hsplit : splitOnce m t with
  | some s =>
    obtain ⟨p, q⟩ := s
    obtain ⟨ht, hfirst⟩ := splitOnce_eq_some hsplit
    have hfront : t.dropWhile isSpace = p.dropWhile isSpace ++ (m ++ q) := by
      rw [ht, List.dropWhile_append, hdrop]
      split
      · next he => rw [List.isEmpty_iff.mp he, List.nil_append]
      · rfl
    have hback : rstrip (m ++ q) = m ++ rstrip q := by
      by_cases hq : rstrip q = []
      · rw [rstrip_append_blank hq, hend, hq, List.append_nil]
      · exact rstrip_append hq
    have hstrip : strip t = p.dropWhile isSpace ++ (m ++ rstrip q) := by
      rw [← hback]
      have hne : rstrip (m ++ q) ≠ [] := by simp [hback, hm]
      rw [← rstrip_append hne, ← hfront]
      rfl
    rw [hstrip]
    refine splitOnce_of_first hm (fun v hv hne hp => hfirst v (hv.trans (List.dropWhile_suffix _)) hne ?_)
    obtain ⟨x, hx, _⟩ := rstrip_split q
    refine hp.trans ⟨x, ?_⟩
    conv_rhs => rw [hx]
    simp
  | none =>
    rw [Option.map_none, splitOnce_eq_none_iff hm]
    intro v hv hp
    obtain ⟨x, hx, _⟩ := rstrip_split (t.dropWhile isSpace)
    have hsuffix : v ++ x <:+ t := by
      obtain ⟨y, hy⟩ := hv
      have hd : y ++ (v ++ x) = t.dropWhile isSpace := by
        rw [← List.append_assoc, hy]
        exact hx.symm
      exact (hd ▸ List.suffix_append y (v ++ x)).trans (List.dropWhile_suffix _)
    exact (splitOnce_eq_none_iff hm).mp hsplit _ hsuffix (hp.trans (List.prefix_append v x))

end Splitting

section Entries

variable {π δ : Type} {letter : Char → Bool} {metadata : Context π} {role : Role} {t : Text}

theorem strip_dropWhile : strip (t.dropWhile isSpace) = strip t := by
  rw [strip, strip, List.dropWhile_idempotent]

theorem strip_rstrip : strip (rstrip t) = strip t := by
  obtain ⟨w, ht, hw⟩ := rstrip_split t
  conv_rhs => rw [ht]
  exact (strip_append_blank hw).symm

theorem readSide_strip : readSide letter role metadata (strip t) =
    (toLlmMessage role [] (readContents letter metadata t) : List (ChatMessage π δ)) := by
  rw [readSide, ← contents_strip]
  split
  · next h =>
    have hnothing : contents letter metadata (strip t) = [] := by
      rw [h]
      simp [contents, parseContent, extractTexts, textParts, tagPositions, tagNames, extractTags, parseXmlTag, findFrom,
        StableSorts.sortBy]
    rw [hnothing]
    rfl
  · rfl

theorem processEntry_strip : processEntry letter ⟨strip t, metadata⟩ = match splitOnce marker t with
    | some (user, assistant) =>
      (toLlmMessage .user [] (readContents letter metadata user) ++
        toLlmMessage .assistant [] (readContents letter metadata assistant) : List (ChatMessage π δ))
    | none => toLlmMessage .user [] (readContents letter metadata t) := by
  have hsplit : splitOnce marker (strip t) =
      (splitOnce marker t).map (fun s => (s.1.dropWhile isSpace, rstrip s.2)) :=
    splitOnce_strip ⟨'你', rfl, by decide⟩ (by decide)
  rw [processEntry, hsplit]
  cases splitOnce marker t with
  | none => exact readSide_strip
  | some s =>
    change readSide letter .user metadata (strip (s.1.dropWhile isSpace)) ++
      readSide letter .assistant metadata (strip (rstrip s.2)) = _
    rw [strip_dropWhile, strip_rstrip, readSide_strip, readSide_strip]

end Entries

section Marks

variable {f g t u : Text}

/-- The marker does not start in the text, whatever follows it. -/
def Unmarked (t : Text) : Prop := ∀ v, v <:+ t → v ≠ [] → ∀ rest, ¬ marker <+: v ++ rest

theorem unmarked_nil : Unmarked [] := fun _ hv hne => absurd (List.suffix_nil.mp hv) hne

theorem suffix_append_cases {v : Text} (h : v <:+ f ++ g) : v <:+ g ∨ ∃ w, w ≠ [] ∧ w <:+ f ∧ v = w ++ g := by
  cases List.suffix_or_suffix_of_suffix h (List.suffix_append f g) with
  | inl hg => exact .inl hg
  | inr hg =>
    obtain ⟨w, rfl⟩ := hg
    by_cases hw : w = []
    · subst hw
      exact .inl List.suffix_rfl
    · obtain ⟨x, hx⟩ := h
      exact .inr ⟨w, hw, ⟨x, List.append_cancel_right (by rw [List.append_assoc, hx])⟩, rfl⟩

theorem unmarked_append (hf : Unmarked f) (hg : Unmarked g) : Unmarked (f ++ g) := by
  intro v hv hne rest
  cases suffix_append_cases hv with
  | inl h => exact hg v h hne rest
  | inr h =>
    obtain ⟨w, hw, hf', rfl⟩ := h
    rw [List.append_assoc]
    exact hf w hf' hw (g ++ rest)

theorem unmarked_of_no_start (h : '你' ∉ t) : Unmarked t := by
  intro v hv hne rest hp
  cases v with
  | nil => exact hne rfl
  | cons c v =>
    have hc : '你' = c := (List.cons_prefix_cons.mp hp).1
    exact h (hc ▸ hv.subset List.mem_cons_self)

theorem unmarked_of_separated {s : Text} (ht : ¬ marker <:+: t) (hs : '你' ∉ s) (hhead : ∃ c ∈ s.head?, c ∉ marker) :
    Unmarked (t ++ s) := by
  intro v hv hne rest hp
  cases suffix_append_cases hv with
  | inl h => exact unmarked_of_no_start hs v h hne rest hp
  | inr h =>
    obtain ⟨w, _, hw, rfl⟩ := h
    rw [List.append_assoc] at hp
    cases List.prefix_or_prefix_of_prefix hp (List.prefix_append w (s ++ rest)) with
    | inl h => exact ht (h.isInfix.trans hw.isInfix)
    | inr h =>
      obtain ⟨y, hy⟩ := h
      cases y with
      | nil =>
        rw [List.append_nil] at hy
        exact ht (hy ▸ hw.isInfix)
      | cons d y =>
        obtain ⟨c, hc, hno⟩ := hhead
        rw [← hy, List.prefix_append_right_inj] at hp
        cases s with
        | nil => cases hc
        | cons e s =>
          have hd : d = e := (List.cons_prefix_cons.mp hp).1
          have he : e = c := Option.some.inj hc
          exact hno (by rw [← hy, ← he, ← hd]; simp)

theorem splitOnce_unmarked (h : Unmarked f) :
    splitOnce marker (f ++ t) = (splitOnce marker t).map (fun s => (f ++ s.1, s.2)) := by
  induction f with
  | nil => cases hs : splitOnce marker t <;> simp [hs]
  | cons c f ih =>
    have hno := h (c :: f) List.suffix_rfl (by simp) t
    rw [List.cons_append] at hno ⊢
    rw [splitOnce, if_neg hno, ih (fun v hv => h v (hv.trans (List.suffix_cons c f))), Option.map_map]
    rfl

theorem splitOnce_marker : splitOnce marker (marker ++ t) = some ([], t) :=
  splitOnce_of_first (by decide) (fun _ hv hne => absurd (List.suffix_nil.mp hv) hne)

end Marks

/-- A composed text in pieces: those in which no tag starts, and tags. -/
inductive Chunk where
  | gap (g : Text)
  | tag (tag : Tag)

def Chunk.text : Chunk → Text
  | .gap g => g
  | .tag t => t.text

def Chunk.Quiet : Chunk → Prop
  | .gap g => Inert g
  | .tag _ => True

variable {π : Type} {letter : Char → Bool} {metadata : Context π} {g last : Text} {cs : List Chunk}

def readChunks (letter : Char → Bool) (metadata : Context π) (last : Text) : Text → List Chunk → List (Content π)
  | g, [] => readContents letter metadata (g ++ last)
  | g, .gap x :: cs => readChunks letter metadata last (g ++ x) cs
  | g, .tag tag :: cs => textContent g ++ tag.content metadata ++ readChunks letter metadata last [] cs

theorem readContents_chunks (hg : Inert g) (hcs : ∀ c ∈ cs, c.Quiet) :
    readContents letter metadata (g ++ cs.flatMap Chunk.text ++ last) = readChunks letter metadata last g cs := by
  induction cs generalizing g with
  | nil => rw [List.flatMap_nil, List.append_nil, readChunks]
  | cons c cs ih =>
    have hrest : ∀ d ∈ cs, d.Quiet := fun d hd => hcs d (List.mem_cons_of_mem c hd)
    have hc := hcs c List.mem_cons_self
    cases c with
    | gap x =>
      rw [readChunks, ← ih (inert_append hg hc) hrest, List.flatMap_cons, Chunk.text]
      simp only [List.append_assoc]
    | tag tag =>
      have hread := ih inert_nil hrest
      rw [List.nil_append] at hread
      rw [readChunks, ← hread, List.flatMap_cons, Chunk.text, ← readContents_tag hg]
      simp only [List.append_assoc]

/-- A tag, or what is written of it where a line end makes it none. -/
def tagChunk (kind : Kind) (attrs : Attributes) (h : Wellformed attrs) : Chunk :=
  if hn : '\n' ∈ attrsStr attrs then .gap (createXmlTag kind.name attrs) else .tag ⟨kind, attrs, h, hn⟩

theorem tagChunk_text {kind : Kind} {attrs : Attributes} (h : Wellformed attrs) :
    (tagChunk kind attrs h).text = createXmlTag kind.name attrs := by
  unfold tagChunk
  split <;> rfl

theorem tagChunk_quiet {kind : Kind} {attrs : Attributes} (h : Wellformed attrs) : (tagChunk kind attrs h).Quiet := by
  unfold tagChunk
  split
  · next hn => exact inert_broken h (name_mem kind) hn
  · trivial

end Kirara.MarkedTurns

namespace Kirara.TurnChunks

open Kirara.Channels Kirara.MemoryTags Kirara.MemoryTurns Kirara.ParsedTurns Kirara.MarkedTurns

variable {key value : Text} {attrs : Attributes}

@[simp] theorem given_none : given ((key, none) :: attrs) = given attrs := rfl

@[simp] theorem given_some : given ((key, some value) :: attrs) = (key, value) :: given attrs := rfl

@[simp] theorem given_nil : given [] = [] := rfl

theorem plainKeys_of_known {pairs : List (Text × Text)}
    (h : ∀ a ∈ pairs, a.1 ∈ ["id".toList, "name".toList, "desc".toList, "isError".toList]) : PlainKeys pairs := by
  have hknown : ∀ key ∈ ["id".toList, "name".toList, "desc".toList, "isError".toList],
      key ≠ [] ∧ ∀ c ∈ key, c.isAlphanum = true := by decide
  exact fun a ha => hknown a.1 (h a ha)

variable (mediaId description : Text)

theorem wellformed_media : Wellformed [("id".toList, some mediaId), ("desc".toList, some description)] :=
  ⟨plainKeys_of_known (by simp), by simp⟩

theorem wellformed_call (id : Option Text) (name : Text) : Wellformed [("id".toList, id), ("name".toList, some name)] := by
  cases id with
  | none => exact ⟨plainKeys_of_known (by simp), by simp⟩
  | some id => exact ⟨plainKeys_of_known (by simp), by simp⟩

theorem wellformed_result (id : Option Text) (name : Text) (isError : Bool) :
    Wellformed [("id".toList, id), ("name".toList, some name), ("isError".toList, some (boolName isError))] := by
  cases id with
  | none => exact ⟨plainKeys_of_known (by simp), by simp⟩
  | some id => exact ⟨plainKeys_of_known (by simp), by simp⟩

theorem newline_mem_attrsStr {kind : Kind} (h : '\n' ∈ attrsStr attrs) : '\n' ∈ createXmlTag kind.name attrs := by
  simp [createXmlTag, h]

section Pieces

variable {π δ ι : Type} (describe : Text → Text)

def mediaChunk (mediaId description : Text) : Chunk := tagChunk .media _ (wellformed_media mediaId description)

def callChunk (call : ToolCall π) : Chunk := tagChunk .call _ (wellformed_call call.id call.name)

def resultChunk (result : ToolResult ι) : Chunk :=
  tagChunk .result _ (wellformed_result result.id result.name result.isError)

def lineEnd : Chunk := .gap ['\n']

def elementChunks : Element → List Chunk
  | .text t => [.gap (t ++ ['\n'])]
  | .media mediaId description => [mediaChunk mediaId description, lineEnd]
  | .other plain => [.gap (plain ++ ['\n'])]

def imChunks (m : IMMessage) : List Chunk := .gap (header m.displayName) :: m.messageElements.flatMap elementChunks

def partChunks : Part π δ → List Chunk
  | .text t => [.gap (dropThinkPart t ++ ['\n'])]
  | .image mediaId => [mediaChunk mediaId (describe mediaId), lineEnd]
  | .toolCall call => [callChunk call, lineEnd]
  | .toolResult result => [resultChunk result, lineEnd]

def toolChunks (m : ChatMessage π δ) : List Chunk := (m.content.filter Part.isTool).flatMap (partChunks describe)

theorem mediaChunk_text :
    (mediaChunk mediaId description).text = mediaTag mediaId description := tagChunk_text _

theorem callChunk_text (call : ToolCall π) : (callChunk call).text = callTag call := tagChunk_text _

theorem resultChunk_text (result : ToolResult ι) : (resultChunk result).text = resultTag result := tagChunk_text _

theorem flatMap_line (c : Chunk) : [c, lineEnd].flatMap Chunk.text = c.text ++ ['\n'] := rfl

theorem flatMap_gap (t : Text) : [Chunk.gap t].flatMap Chunk.text = t := List.append_nil t

def elementText : Element → Text
  | .text t => t
  | .media mediaId description => mediaTag mediaId description
  | .other plain => plain

theorem elementChunks_text (e : Element) : (elementChunks e).flatMap Chunk.text = elementText e ++ ['\n'] := by
  cases e with
  | text t => exact flatMap_gap _
  | media mediaId description => rw [elementChunks, flatMap_line, mediaChunk_text, elementText]
  | other plain => exact flatMap_gap _

theorem processElement_eq (e : Element) : (processElement e : Text × Context π).1 = elementText e ++ ['\n'] := by
  cases e <;> rfl

theorem imChunks_text (m : IMMessage) : (imChunks m).flatMap Chunk.text = (processIM m : Text × Context π).1 := by
  have helements : (m.messageElements.flatMap elementChunks).flatMap Chunk.text =
      (m.messageElements.map (processElement (π := π))).flatMap Prod.fst := by
    rw [List.flatMap_assoc, List.flatMap_map]
    exact List.flatMap_congr (fun e _ => (elementChunks_text e).trans (processElement_eq e).symm)
  rw [imChunks, List.flatMap_cons, helements]
  rfl

theorem partChunks_text (part : Part π δ) :
    (partChunks describe part).flatMap Chunk.text = (processPart describe part).1 := by
  cases part with
  | text t => exact flatMap_gap _
  | image mediaId => rw [partChunks, flatMap_line, mediaChunk_text, processPart]
  | toolCall call => rw [partChunks, flatMap_line, callChunk_text, processPart]
  | toolResult result => rw [partChunks, flatMap_line, resultChunk_text, processPart]

theorem parts_text (parts : List (Part π δ)) : (parts.flatMap (partChunks describe)).flatMap Chunk.text =
    parts.flatMap (fun part => (processPart describe part).1) := by
  rw [List.flatMap_assoc]
  exact List.flatMap_congr (fun part _ => partChunks_text describe part)

end Pieces

variable {π δ : Type} {describe : Text → Text}

def partText (describe : Text → Text) : Part π δ → Text
  | .text t => dropThinkPart t
  | .image mediaId => mediaTag mediaId (describe mediaId)
  | .toolCall call => callTag call
  | .toolResult result => resultTag result

/-- No part of the message comes after the marker. -/
def Silent (describe : Text → Text) (m : ChatMessage π δ) : Prop := (tempText describe m).all (· = '\n') = true

instance (m : ChatMessage π δ) : Decidable (Silent describe m) := inferInstanceAs (Decidable (_ = true))

def PlainElement : Element → Prop
  | .text t | .other t => opening t = false
  | .media _ _ => True

instance : ∀ e : Element, Decidable (PlainElement e)
  | .text t | .other t => inferInstanceAs (Decidable (opening t = false))
  | .media _ _ => isTrue trivial

structure CalmIM (m : IMMessage) : Prop where
  name_plain : opening m.displayName = false
  name_unmarked : ¬ marker <:+: m.displayName
  plain : ∀ e ∈ m.messageElements, PlainElement e
  unmarked : ∀ e ∈ m.messageElements, ¬ marker <:+: elementText e

structure CalmChat (describe : Text → Text) (m : ChatMessage π δ) : Prop where
  silent : Silent describe m
  unmarked : ∀ part ∈ m.content, part.isTool = true → ¬ marker <:+: partText describe part

/-- What is composed has neither the marker nor the start of a tag in its texts. -/
def Calm (describe : Text → Text) : Composable π δ → Prop
  | .im m => CalmIM m
  | .chat m => CalmChat describe m
  | .plain t => opening t = false ∧ ¬ marker <:+: t

theorem processPart_eq (part : Part π δ) : (processPart describe part).1 = partText describe part ++ ['\n'] := by
  cases part <;> rfl

theorem unmarked_line {t : Text} (h : ¬ marker <:+: t) : Unmarked (t ++ ['\n']) :=
  unmarked_of_separated h (by decide) ⟨'\n', rfl, by decide⟩

theorem inert_line {t : Text} (h : opening t = false) : Inert (t ++ ['\n']) :=
  inert_of_plain h (by decide) ⟨'\n', rfl, by decide⟩

theorem unmarked_flatMap {α : Type} {l : List α} {f : α → Text} (h : ∀ a ∈ l, Unmarked (f a)) : Unmarked (l.flatMap f) := by
  induction l with
  | nil => exact unmarked_nil
  | cons a l ih =>
    exact unmarked_append (h a List.mem_cons_self) (ih (fun b hb => h b (List.mem_cons_of_mem a hb)))

theorem unmarked_elements {elements : List Element} (h : ∀ e ∈ elements, ¬ marker <:+: elementText e) :
    Unmarked ((elements.flatMap elementChunks).flatMap Chunk.text) := by
  rw [List.flatMap_assoc]
  refine unmarked_flatMap (fun e he => ?_)
  rw [elementChunks_text]
  exact unmarked_line (h e he)

theorem unmarked_im {m : IMMessage} (h : CalmIM m) : Unmarked ((imChunks m).flatMap Chunk.text) := by
  rw [imChunks, List.flatMap_cons]
  refine unmarked_append ?_ (unmarked_elements h.unmarked)
  exact unmarked_of_separated h.name_unmarked (by decide) ⟨' ', rfl, by decide⟩

theorem quiet_lineEnd : lineEnd.Quiet := inert_of_no_open (by decide)

theorem quiet_elementChunks {e : Element} (h : PlainElement e) : ∀ c ∈ elementChunks e, c.Quiet := by
  cases e with
  | text t => exact fun c hc => List.mem_singleton.mp hc ▸ inert_line h
  | media mediaId description =>
    simpa [elementChunks] using ⟨tagChunk_quiet (wellformed_media mediaId description), quiet_lineEnd⟩
  | other plain => exact fun c hc => List.mem_singleton.mp hc ▸ inert_line h

theorem quiet_im {m : IMMessage} (h : CalmIM m) : ∀ c ∈ imChunks m, c.Quiet := by
  intro c hc
  cases List.mem_cons.mp hc with
  | inl he =>
    subst he
    exact inert_of_plain h.name_plain (by decide) ⟨' ', rfl, by decide⟩
  | inr he =>
    obtain ⟨e, hm, hc⟩ := List.mem_flatMap.mp he
    exact quiet_elementChunks (h.plain e hm) c hc

theorem quiet_toolPart {part : Part π δ} (h : part.isTool = true) : ∀ c ∈ partChunks describe part, c.Quiet := by
  cases part with
  | text t => cases h
  | image mediaId => cases h
  | toolCall call => simpa [partChunks] using ⟨tagChunk_quiet (wellformed_call call.id call.name), quiet_lineEnd⟩
  | toolResult result =>
    simpa [partChunks] using ⟨tagChunk_quiet (wellformed_result result.id result.name result.isError), quiet_lineEnd⟩

theorem quiet_toolChunks (m : ChatMessage π δ) : ∀ c ∈ toolChunks describe m, c.Quiet := by
  intro c hc
  obtain ⟨part, hp, hc⟩ := List.mem_flatMap.mp hc
  exact quiet_toolPart (List.mem_filter.mp hp).2 c hc

theorem toolChunks_text (m : ChatMessage π δ) : (toolChunks describe m).flatMap Chunk.text = resultText describe m :=
  parts_text describe _

theorem unmarked_tools {m : ChatMessage π δ}
    (h : ∀ part ∈ m.content, part.isTool = true → ¬ marker <:+: partText describe part) :
    Unmarked ((toolChunks describe m).flatMap Chunk.text) := by
  rw [toolChunks_text, resultText]
  refine unmarked_flatMap (fun part hp => ?_)
  rw [processPart_eq]
  exact unmarked_line (h part (List.mem_filter.mp hp).1 (List.mem_filter.mp hp).2)

/-- The pieces of what stands in front of the marker. -/
def calmChunks (describe : Text → Text) : Composable π δ → List Chunk
  | .im m => imChunks m
  | .chat m => toolChunks describe m
  | .plain t => [.gap (t ++ ['\n'])]

variable {c : Composable π δ}

theorem calmChunks_text (h : Calm describe c) :
    (calmChunks describe c).flatMap Chunk.text = (process describe c).1 := by
  cases c with
  | im m => exact imChunks_text m
  | chat m =>
    have hsilent : (tempText describe m).all (· = '\n') = true := h.silent
    rw [calmChunks, process, toolChunks_text, processChat]
    dsimp only
    rw [if_pos hsilent, List.append_nil]
  | plain t => exact flatMap_gap _

theorem quiet_calmChunks (h : Calm describe c) : ∀ chunk ∈ calmChunks describe c, chunk.Quiet := by
  cases c with
  | im m => exact quiet_im h
  | chat m => exact quiet_toolChunks m
  | plain t => exact fun c hc => List.mem_singleton.mp hc ▸ inert_line h.1

theorem unmarked_calm (h : Calm describe c) : Unmarked ((calmChunks describe c).flatMap Chunk.text) := by
  cases c with
  | im m => exact unmarked_im h
  | chat m => exact unmarked_tools h.unmarked
  | plain t =>
    rw [calmChunks, flatMap_gap]
    exact unmarked_line h.2

end Kirara.TurnChunks
