import Kirara.MemoryTurns

namespace Kirara.ParsedTurns

open Kirara.Channels Kirara.MemoryTags Kirara.MemoryTurns Kirara.StableSorts

section Contents

variable {π : Type} {letter : Char → Bool} {metadata : Context π} {g t u : Text}

def textContent (t : Text) : List (Content π) := if strip t = [] then [] else [.text (strip t)]

def head (t : Text) : Text :=
  match tagPositions t with
  | [] => t
  | (start, _) :: _ => t.take start

def restTexts (t : Text) : List (ContentInfo π) :=
  match tagPositions t with
  | [] => []
  | (_, stop) :: tags => textParts t stop tags

theorem extractTexts_eq : extractTexts t = (textInfo 0 (head t) ++ restTexts t : List (ContentInfo π)) := by
  unfold extractTexts head restTexts
  cases tagPositions t with
  | nil =>
    rw [textParts, List.append_nil]
    split
    · rfl
    · next h =>
      have ht : t = [] := List.length_eq_zero_iff.mp (Nat.eq_zero_of_not_pos h)
      subst ht
      rfl
  | cons tag tags =>
    obtain ⟨start, stop⟩ := tag
    rw [textParts]
    dsimp only
    split
    · rfl
    · next h =>
      have hs : start = 0 := Nat.eq_zero_of_not_pos h
      subst hs
      rfl

def extractAll (letter : Char → Bool) (metadata : Context π) (t : Text) : List (ContentInfo π) :=
  extractTags letter "media_msg".toList (knownMedia metadata) t ++
    extractTags letter "function_call".toList (knownCall metadata) t ++
    extractTags letter "tool_result".toList (knownResult metadata) t

def contents (letter : Char → Bool) (metadata : Context π) (t : Text) : List (Content π) :=
  (parseContent letter t metadata).map ContentInfo.content

def restContents (letter : Char → Bool) (metadata : Context π) (t : Text) : List (Content π) :=
  (sortBy ContentInfo.start (restTexts t ++ extractAll letter metadata t)).map ContentInfo.content

theorem contents_eq : contents letter metadata t = textContent (head t) ++ restContents letter metadata t := by
  have hall : extractTexts t ++ extractTags letter "media_msg".toList (knownMedia metadata) t ++
      extractTags letter "function_call".toList (knownCall metadata) t ++
      extractTags letter "tool_result".toList (knownResult metadata) t =
      textInfo 0 (head t) ++ (restTexts t ++ extractAll letter metadata t) := by
    rw [extractTexts_eq, extractAll]
    simp only [List.append_assoc]
  rw [contents, parseContent, hall, textInfo, textContent]
  split
  · rfl
  let first : ContentInfo π := ⟨0, .text (strip (head t))⟩
  have hfirst : sortBy ContentInfo.start (first :: (restTexts t ++ extractAll letter metadata t)) =
      first :: sortBy ContentInfo.start (restTexts t ++ extractAll letter metadata t) :=
    sortBy_first (fun _ _ => Nat.zero_le _)
  rw [List.singleton_append, hfirst]
  rfl

end Contents

section Shifting

variable {π : Type} {letter : Char → Bool} {metadata : Context π} {g t : Text} {k : Nat}

def shiftTag (k : Nat) (tag : Nat × Nat) : Nat × Nat := (tag.1 + k, tag.2 + k)

def shiftInfo (k : Nat) (info : ContentInfo π) : ContentInfo π := ⟨info.start + k, info.content⟩

/-- In front of a text, the text adds no tag and hides none. -/
def Passes (g t : Text) : Prop :=
  ∀ name ∈ tagNames, parseXmlTag name (g ++ t) = (parseXmlTag name t).map (shift g.length)

theorem passes_of_inert (h : Inert g) (t : Text) : Passes g t := by
  intro name hname
  rw [parseXmlTag, findFrom_pass (fun v hv hne => h name hname v hv hne t), findFrom_shift]
  rfl

theorem sort_shift (tags : List (Nat × Nat)) :
    sortBy (fun p => toLex p) (tags.map (shiftTag k)) = (sortBy (fun p => toLex p) tags).map (shiftTag k) := by
  apply sortBy_map
  intro a b
  simp only [shiftTag, Prod.Lex.toLex_le_toLex]
  omega

theorem tagPositions_of_passes (h : Passes g t) : tagPositions (g ++ t) = (tagPositions t).map (shiftTag g.length) := by
  rw [tagPositions, tagPositions, ← sort_shift, List.map_flatMap]
  congr 1
  apply List.flatMap_congr
  intro name hname
  rw [h name hname, List.map_map, List.map_map]
  rfl

theorem textParts_shift {pos : Nat} {tags : List (Nat × Nat)} :
    textParts (g ++ t) (pos + g.length) (tags.map (shiftTag g.length)) =
      (textParts t pos tags).map (shiftInfo (π := π) g.length) := by
  have hinfo (start : Nat) (u : Text) :
      textInfo (start + g.length) u = (textInfo start u).map (shiftInfo (π := π) g.length) := by
    unfold textInfo
    split <;> rfl
  have hdrop (pos : Nat) : (g ++ t).drop (pos + g.length) = t.drop pos := by
    rw [Nat.add_comm, List.drop_length_add_append]
  have htake (pos : Nat) : (g ++ t).take (pos + g.length) = g ++ t.take pos := by
    rw [Nat.add_comm, List.take_length_add_append]
  induction tags generalizing pos with
  | nil =>
    simp only [List.map_nil, textParts, List.length_append, hdrop, hinfo]
    by_cases h : pos < t.length
    · rw [if_pos h, if_pos (by omega)]
    · rw [if_neg h, if_neg (by omega)]
      rfl
  | cons tag tags ih =>
    obtain ⟨start, stop⟩ := tag
    have hslice : ((g ++ t).take (start + g.length)).drop (pos + g.length) = (t.take start).drop pos := by
      rw [htake, Nat.add_comm pos, List.drop_length_add_append]
    rw [List.map_cons, shiftTag, textParts, textParts, ih, hslice, hinfo, List.map_append]
    congr 1
    by_cases h : pos < start
    · rw [if_pos h, if_pos (by omega)]
    · rw [if_neg h, if_neg (by omega)]
      rfl

theorem restTexts_of_passes (h : Passes g t) :
    restTexts (g ++ t) = (restTexts t).map (shiftInfo (π := π) g.length) := by
  rw [restTexts, restTexts, tagPositions_of_passes h]
  cases tagPositions t with
  | nil => rfl
  | cons tag tags => exact textParts_shift

theorem head_of_passes (h : Passes g t) : head (g ++ t) = g ++ head t := by
  rw [head, head, tagPositions_of_passes h]
  cases tagPositions t with
  | nil => rfl
  | cons tag tags =>
    change (g ++ t).take (tag.1 + g.length) = g ++ t.take tag.1
    rw [Nat.add_comm, List.take_length_add_append]

variable {known : Text → Option (Content π)}

theorem filterMap_shift (tags : List (Text × Nat × Nat)) :
    (tags.map (shift k)).filterMap (tagInfo letter known) = (tags.filterMap (tagInfo letter known)).map (shiftInfo k) := by
  rw [List.filterMap_map, List.map_filterMap]
  congr 1
  funext tag
  rw [Function.comp_apply, tagInfo, tagInfo, Option.map_map]
  rfl

theorem extractTags_of_passes {name : Text} (h : Passes g t) (hname : name ∈ tagNames) :
    extractTags letter name known (g ++ t) = (extractTags letter name known t).map (shiftInfo g.length) := by
  rw [extractTags, h name hname, filterMap_shift]
  rfl

theorem extractAll_of_passes (h : Passes g t) :
    extractAll letter metadata (g ++ t) = (extractAll letter metadata t).map (shiftInfo g.length) := by
  rw [extractAll, extractAll, extractTags_of_passes h (by decide), extractTags_of_passes h (by decide),
    extractTags_of_passes h (by decide), List.map_append, List.map_append]

variable (infos : List (ContentInfo π))

theorem sort_shiftInfo :
    sortBy ContentInfo.start (infos.map (shiftInfo k)) = (sortBy ContentInfo.start infos).map (shiftInfo k) :=
  sortBy_map (fun a b => by simp [shiftInfo])

theorem map_content_shift :
    (infos.map (shiftInfo k)).map ContentInfo.content = infos.map ContentInfo.content := by
  rw [List.map_map]
  rfl

theorem restContents_of_passes (h : Passes g t) :
    restContents letter metadata (g ++ t) = restContents letter metadata t := by
  rw [restContents, restContents, restTexts_of_passes h, extractAll_of_passes h, ← List.map_append, sort_shiftInfo,
    map_content_shift]

theorem contents_of_passes (h : Passes g t) :
    contents letter metadata (g ++ t) = textContent (g ++ head t) ++ restContents letter metadata t := by
  rw [contents_eq, head_of_passes h, restContents_of_passes h]

end Shifting

section Tags

variable {π : Type} {letter : Char → Bool} {metadata : Context π} {t : Text}

inductive Kind where
  | media
  | call
  | result
  deriving DecidableEq

def Kind.name : Kind → Text
  | .media => "media_msg".toList
  | .call => "function_call".toList
  | .result => "tool_result".toList

def Kind.known (metadata : Context π) : Kind → Text → Option (Content π)
  | .media => knownMedia metadata
  | .call => knownCall metadata
  | .result => knownResult metadata

structure Tag where
  kind : Kind
  attrs : Attributes
  wellformed : Wellformed attrs
  unbroken : '\n' ∉ attrsStr attrs

def Tag.text (tag : Tag) : Text := createXmlTag tag.kind.name tag.attrs

def Tag.id (tag : Tag) : Option Text := ((given tag.attrs).reverse.find? (fun a => a.1 = "id".toList)).map Prod.snd

def Tag.content (metadata : Context π) (tag : Tag) : List (Content π) :=
  (tag.id.bind (tag.kind.known metadata)).toList

theorem name_mem (kind : Kind) : kind.name ∈ tagNames := by
  cases kind <;> decide

theorem name_injective {k l : Kind} (h : k.name = l.name) : k = l := by
  cases k <;> cases l <;> first | rfl | exact absurd h (by decide)

variable (tag : Tag)

theorem length_text_pos : 0 < tag.text.length := by
  simp [Tag.text, createXmlTag]

theorem parseXmlTag_self : parseXmlTag tag.kind.name (tag.text ++ t) =
    (attrsStr tag.attrs, 0, tag.text.length) :: (parseXmlTag tag.kind.name t).map (shift tag.text.length) := by
  have hfind : findFrom tag.kind.name 0 0 (tag.text ++ t) = (attrsStr tag.attrs, 0, 0 + tag.text.length) ::
      findFrom tag.kind.name 0 (0 + tag.text.length) t := findFrom_self tag.wellformed tag.unbroken
  rw [parseXmlTag, hfind, findFrom_shift, Nat.zero_add]
  rfl

theorem parseXmlTag_other {kind : Kind} (hne : kind ≠ tag.kind) : parseXmlTag kind.name (tag.text ++ t) =
    (parseXmlTag kind.name t).map (shift tag.text.length) := by
  have hother : kind.name ≠ tag.kind.name := fun h => hne (name_injective h)
  rw [parseXmlTag, Tag.text, findFrom_other tag.wellformed (name_mem _) (name_mem _) hother, findFrom_shift]
  rfl

theorem tagPositions_tag : tagPositions (tag.text ++ t) =
    (0, tag.text.length) :: (tagPositions t).map (shiftTag tag.text.length) := by
  let moved (kind : Kind) : List (Nat × Nat) :=
    ((parseXmlTag kind.name t).map Prod.snd).map (shiftTag tag.text.length)
  have hmoved (kind : Kind) :
      ((parseXmlTag kind.name t).map (shift tag.text.length)).map Prod.snd = moved kind := by
    simp only [moved, List.map_map]
    rfl
  have hself : (parseXmlTag tag.kind.name (tag.text ++ t)).map Prod.snd = (0, tag.text.length) :: moved tag.kind := by
    rw [parseXmlTag_self, List.map_cons, hmoved]
  have hother (kind : Kind) (hne : kind ≠ tag.kind) :
      (parseXmlTag kind.name (tag.text ++ t)).map Prod.snd = moved kind := by
    rw [parseXmlTag_other tag hne, hmoved]
  -- the new position stands somewhere among positions that come after it
  have hsplit : ∃ xs ys, tagNames.flatMap (fun name => (parseXmlTag name (tag.text ++ t)).map Prod.snd) =
      xs ++ (0, tag.text.length) :: ys ∧
      xs ++ ys = (tagNames.flatMap (fun name => (parseXmlTag name t).map Prod.snd)).map (shiftTag tag.text.length) := by
    change ∃ xs ys, [Kind.media.name, Kind.call.name, Kind.result.name].flatMap _ = _ ∧ _ =
      ([Kind.media.name, Kind.call.name, Kind.result.name].flatMap _).map _
    simp only [List.flatMap_cons, List.flatMap_nil, List.append_nil, List.map_append]
    cases hkind : tag.kind with
    | media =>
      rw [hkind] at hself hother
      rw [hself, hother .call (by decide), hother .result (by decide)]
      exact ⟨[], _, rfl, rfl⟩
    | call =>
      rw [hkind] at hself hother
      rw [hself, hother .media (by decide), hother .result (by decide)]
      exact ⟨moved .media, _, rfl, rfl⟩
    | result =>
      rw [hkind] at hself hother
      rw [hself, hother .media (by decide), hother .call (by decide)]
      exact ⟨moved .media ++ moved .call, _, by rw [List.append_assoc], by rw [List.append_assoc]⟩
  obtain ⟨xs, ys, hxs, hys⟩ := hsplit
  have hlater : ∀ b ∈ xs ++ ys, toLex (0, tag.text.length) < toLex b := by
    intro b hb
    rw [hys] at hb
    obtain ⟨c, _, rfl⟩ := List.mem_map.mp hb
    have hpos := length_text_pos tag
    simp only [shiftTag, Prod.Lex.toLex_lt_toLex]
    omega
  rw [tagPositions, hxs, sortBy_middle (fun b hb => hlater b (List.mem_append_left ys hb))
    (fun b hb => (hlater b (List.mem_append_right xs hb)).le), hys, sort_shift]
  rfl

theorem head_tag : head (tag.text ++ t) = [] := by
  rw [head, tagPositions_tag]
  rfl

theorem restTexts_tag : restTexts (tag.text ++ t) = (extractTexts t).map (shiftInfo (π := π) tag.text.length) := by
  rw [restTexts, tagPositions_tag]
  have hshift : textParts (tag.text ++ t) (0 + tag.text.length) ((tagPositions t).map (shiftTag tag.text.length)) =
      (textParts t 0 (tagPositions t)).map (shiftInfo (π := π) tag.text.length) := textParts_shift
  rwa [Nat.zero_add] at hshift

theorem extract_self : extractTags letter tag.kind.name (tag.kind.known metadata) (tag.text ++ t) =
    (tag.content metadata).map (ContentInfo.mk 0) ++
      (extractTags letter tag.kind.name (tag.kind.known metadata) t).map (shiftInfo tag.text.length) := by
  have hid : attributeOf letter "id".toList (attrsStr tag.attrs) = tag.id :=
    attributeOf_attrsStr tag.wellformed tag.unbroken
  rw [extractTags, parseXmlTag_self, List.filterMap_cons, tagInfo, hid, Tag.content]
  cases tag.id.bind (tag.kind.known metadata) with
  | none => exact filterMap_shift _
  | some content => exact congrArg (List.cons _) (filterMap_shift _)

theorem extract_other {kind : Kind} (hne : kind ≠ tag.kind) :
    extractTags letter kind.name (kind.known metadata) (tag.text ++ t) =
      (extractTags letter kind.name (kind.known metadata) t).map (shiftInfo tag.text.length) := by
  rw [extractTags, parseXmlTag_other tag hne, filterMap_shift]
  rfl

theorem contents_tag : contents letter metadata (tag.text ++ t) = tag.content metadata ++ contents letter metadata t := by
  let moved (kind : Kind) : List (ContentInfo π) :=
    (extractTags letter kind.name (kind.known metadata) t).map (shiftInfo tag.text.length)
  let texts : List (ContentInfo π) := (extractTexts t).map (shiftInfo tag.text.length)
  have hself : extractTags letter tag.kind.name (tag.kind.known metadata) (tag.text ++ t) =
      (tag.content metadata).map (ContentInfo.mk 0) ++ moved tag.kind := extract_self tag
  have hother (kind : Kind) (hne : kind ≠ tag.kind) :
      extractTags letter kind.name (kind.known metadata) (tag.text ++ t) = moved kind := extract_other tag hne
  have hsplit : ∃ xs ys, restTexts (tag.text ++ t) ++ extractAll letter metadata (tag.text ++ t) =
      xs ++ (tag.content metadata).map (ContentInfo.mk 0) ++ ys ∧
      xs ++ ys = (extractTexts t ++ extractAll letter metadata t).map (shiftInfo tag.text.length) := by
    rw [restTexts_tag]
    change ∃ xs ys, texts ++ (extractTags letter Kind.media.name (Kind.media.known metadata) _ ++
      extractTags letter Kind.call.name (Kind.call.known metadata) _ ++
      extractTags letter Kind.result.name (Kind.result.known metadata) _) = _ ∧ _ = (_ ++ (
      extractTags letter Kind.media.name (Kind.media.known metadata) _ ++
      extractTags letter Kind.call.name (Kind.call.known metadata) _ ++
      extractTags letter Kind.result.name (Kind.result.known metadata) _)).map _
    simp only [List.map_append]
    cases hkind : tag.kind with
    | media =>
      rw [hkind] at hself hother
      rw [hself, hother .call (by decide), hother .result (by decide)]
      exact ⟨texts, moved .media ++ moved .call ++ moved .result, by simp, by simp [texts, moved]⟩
    | call =>
      rw [hkind] at hself hother
      rw [hself, hother .media (by decide), hother .result (by decide)]
      exact ⟨texts ++ moved .media, moved .call ++ moved .result, by simp, by simp [texts, moved]⟩
    | result =>
      rw [hkind] at hself hother
      rw [hself, hother .media (by decide), hother .call (by decide)]
      exact ⟨texts ++ moved .media ++ moved .call, moved .result, by simp, by simp [texts, moved]⟩
  obtain ⟨xs, ys, hxs, hys⟩ := hsplit
  have hsorted : sortBy ContentInfo.start (xs ++ (tag.content metadata).map (ContentInfo.mk 0) ++ ys) =
      (tag.content metadata).map (ContentInfo.mk 0) ++ sortBy ContentInfo.start (xs ++ ys) := by
    rw [Tag.content]
    cases tag.id.bind (tag.kind.known metadata) with
    | none => simp
    | some content =>
      have hlater : ∀ b ∈ xs, 0 < b.start := by
        intro b hb
        have hmem := List.mem_append_left ys hb
        rw [hys] at hmem
        obtain ⟨c, _, rfl⟩ := List.mem_map.mp hmem
        exact Nat.lt_of_lt_of_le (length_text_pos tag) (Nat.le_add_left _ _)
      let first : ContentInfo π := ⟨0, content⟩
      have hmiddle : sortBy ContentInfo.start (xs ++ first :: ys) = first :: sortBy ContentInfo.start (xs ++ ys) :=
        sortBy_middle hlater (fun _ _ => Nat.zero_le _)
      rw [List.append_assoc]
      exact hmiddle
  have hparse : parseContent letter t metadata =
      sortBy ContentInfo.start (extractTexts t ++ extractAll letter metadata t) := by
    rw [parseContent, extractAll]
    simp only [List.append_assoc]
  rw [contents_eq, head_tag, restContents, hxs, hsorted, hys, sort_shiftInfo, List.map_append, map_content_shift, contents,
    hparse, List.map_map]
  change [] ++ ((tag.content metadata).map id ++ _) = _
  rw [List.map_id]
  rfl

end Tags

variable {π : Type} {letter : Char → Bool} {metadata : Context π} {g t u : Text}

def rstrip (t : Text) : Text := t.rdropWhile isSpace

def readContents (letter : Char → Bool) (metadata : Context π) (t : Text) : List (Content π) :=
  contents letter metadata (rstrip t)

theorem rstrip_eq_nil_iff : rstrip t = [] ↔ ∀ c ∈ t, isSpace c = true := List.rdropWhile_eq_nil_iff

theorem rstrip_append (h : rstrip u ≠ []) : rstrip (t ++ u) = t ++ rstrip u := by
  have hne : u.reverse.dropWhile isSpace ≠ [] := fun he => h (by rw [rstrip, List.rdropWhile, he]; rfl)
  rw [rstrip, List.rdropWhile, List.reverse_append, List.dropWhile_append, if_neg (by simpa using hne),
    List.reverse_append, List.reverse_reverse]
  rfl

theorem rstrip_append_blank (h : rstrip u = []) : rstrip (t ++ u) = rstrip t := by
  have he : u.reverse.dropWhile isSpace = [] := List.reverse_eq_nil_iff.mp h
  rw [rstrip, List.rdropWhile, List.reverse_append, List.dropWhile_append, if_pos (by simp [he])]
  rfl

theorem strip_blank_append (h : ∀ c ∈ u, isSpace c = true) : strip (u ++ t) = strip t := by
  rw [strip, List.dropWhile_append_of_pos h]
  rfl

theorem strip_append_blank (h : rstrip u = []) : strip (t ++ u) = strip t := by
  rw [strip, strip, List.dropWhile_append]
  split
  · next he =>
    have hblank : u.dropWhile isSpace = [] := List.dropWhile_eq_nil_iff.mpr (rstrip_eq_nil_iff.mp h)
    rw [hblank, List.isEmpty_iff.mp he]
  · exact rstrip_append_blank h

theorem rstrip_split (t : Text) : ∃ w, t = rstrip t ++ w ∧ rstrip w = [] :=
  ⟨t.rtakeWhile isSpace, List.rdropWhile_append_rtakeWhile.symm,
    rstrip_eq_nil_iff.mpr (fun _ hc => List.mem_rtakeWhile_imp hc)⟩

theorem textContent_rstrip : textContent (rstrip t) = (textContent t : List (Content π)) := by
  obtain ⟨w, ht, hw⟩ := rstrip_split t
  have hstrip : strip t = strip (rstrip t) := by
    conv_lhs => rw [ht]
    exact strip_append_blank hw
  rw [textContent, textContent, hstrip]

variable (h : ∀ c ∈ u, isSpace c = true)

include h

theorem textContent_blank_append :
    textContent (u ++ t) = (textContent t : List (Content π)) := by
  rw [textContent, textContent, strip_blank_append h]

theorem inert_of_blank : Inert u :=
  inert_of_no_open (fun hm => absurd (h _ hm) (by decide))

theorem contents_blank_append :
    contents letter metadata (u ++ t) = contents letter metadata t := by
  rw [contents_of_passes (passes_of_inert (inert_of_blank h) t), textContent_blank_append h, contents_eq]

omit h

theorem contents_strip : contents letter metadata (strip t) = readContents letter metadata t := by
  have hsplit : t = t.takeWhile isSpace ++ t.dropWhile isSpace := List.takeWhile_append_dropWhile.symm
  have hblank : ∀ c ∈ t.takeWhile isSpace, isSpace c = true := fun c hc => List.mem_takeWhile_imp hc
  by_cases h : rstrip (t.dropWhile isSpace) = []
  · have hall : rstrip t = [] := by
      rw [hsplit, rstrip_append_blank h]
      exact rstrip_eq_nil_iff.mpr hblank
    rw [readContents, hall]
    exact congrArg _ h
  · have hstrip : rstrip t = t.takeWhile isSpace ++ strip t := by
      conv_lhs => rw [hsplit]
      exact rstrip_append h
    rw [readContents, hstrip, contents_blank_append hblank]

theorem readContents_inert (hg : Inert g) : readContents letter metadata g = textContent g := by
  obtain ⟨w, hsplit, _⟩ := rstrip_split g
  have hpasses : Passes (rstrip g) [] := by
    intro name hname
    rw [parseXmlTag, findFrom_pass]
    · rfl
    · intro v hv hne
      rw [List.append_nil]
      by_contra hmatch
      obtain ⟨p, hp⟩ := Option.ne_none_iff_exists'.mp hmatch
      have hsuffix : v ++ w <:+ g := by
        obtain ⟨x, hx⟩ := hv
        exact ⟨x, by rw [← List.append_assoc, hx, ← hsplit]⟩
      have hnone := hg name hname (v ++ w) hsuffix (by simp [hne]) []
      rw [List.append_nil, matchTag_append hp] at hnone
      cases hnone
  have hnothing : tagPositions [] = [] := by simp [tagPositions, parseXmlTag, findFrom, tagNames, sortBy]
  have hhead : head [] = [] := by rw [head, hnothing]
  have hrest : restContents letter metadata [] = [] := by
    simp [restContents, restTexts, hnothing, extractAll, extractTags, parseXmlTag, findFrom, sortBy]
  have hread : contents letter metadata (rstrip g ++ []) = _ := contents_of_passes hpasses
  rw [hhead, hrest, List.append_nil, List.append_nil, textContent_rstrip] at hread
  exact hread

theorem rstrip_tag (tag : Tag) : rstrip (g ++ tag.text ++ t) = g ++ tag.text ++ rstrip t := by
  have hend : ∃ v, tag.text = v ++ ['>'] :=
    ⟨'<' :: tag.kind.name ++ ' ' :: attrsStr tag.attrs ++ " /".toList, by simp [Tag.text, createXmlTag]⟩
  by_cases h : rstrip t = []
  · obtain ⟨v, hv⟩ := hend
    rw [rstrip_append_blank h, h, List.append_nil, hv, ← List.append_assoc]
    exact List.rdropWhile_concat_neg isSpace _ _ (by decide)
  · exact rstrip_append h

theorem readContents_tag (hg : Inert g) (tag : Tag) : readContents letter metadata (g ++ tag.text ++ t) =
    textContent g ++ tag.content metadata ++ readContents letter metadata t := by
  have hafter : contents letter metadata (tag.text ++ rstrip t) = restContents letter metadata (tag.text ++ rstrip t) := by
    rw [contents_eq, head_tag]
    rfl
  rw [readContents, rstrip_tag, List.append_assoc, contents_of_passes (passes_of_inert hg _), ← hafter, head_tag,
    List.append_nil, contents_tag, List.append_assoc]
  rfl

end Kirara.ParsedTurns
