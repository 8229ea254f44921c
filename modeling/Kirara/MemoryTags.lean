import Kirara.Channels

namespace Kirara.MemoryTags

open Kirara.Channels

/-- `str.replace`, over what is left after so many characters. -/
def replaceFrom (old new : Text) : Nat → Text → Text
  | _, [] => []
  | n + 1, _ :: t => replaceFrom old new n t
  | 0, c :: t =>
    if old <+: c :: t then new ++ replaceFrom old new (old.length - 1) t else c :: replaceFrom old new 0 t

def replaceAll (old new : String) (t : Text) : Text := replaceFrom old.toList new.toList 0 t

def escapeXmlAttr (t : Text) : Text :=
  replaceAll ">" "&gt;" (replaceAll "<" "&lt;" (replaceAll "\"" "&quot;" (replaceAll "&" "&amp;" t)))

def unescapeXmlAttr (t : Text) : Text :=
  replaceAll "&amp;" "&" (replaceAll "&gt;" ">" (replaceAll "&lt;" "<" (replaceAll "&quot;" "\"" t)))

section Tags

abbrev Attributes := List (Text × Option Text)

def writeAttribute (key value : Text) : Text := key ++ "=\"".toList ++ escapeXmlAttr value ++ ['"']

def attrsStr (attrs : Attributes) : Text :=
  [' '].intercalate (attrs.filterMap (fun a => a.2.map (writeAttribute a.1)))

/-- `create_xml_tag`, self-closing. -/
def createXmlTag (name : Text) (attrs : Attributes) : Text :=
  '<' :: name ++ ' ' :: attrsStr attrs ++ " />".toList

/-- `(.*?)\s*/>`: the group, and what follows the match. -/
def closeTag : Text → Option (Text × Text)
  | [] => none
  | c :: t =>
    if "/>".toList <+: (c :: t).dropWhile isSpace then some ([], ((c :: t).dropWhile isSpace).drop 2)
    else if c = '\n' then none
    else (closeTag t).map (fun p => (c :: p.1, p.2))

/-- `<name\s+(.*?)\s*/>` at the start of a text. -/
def matchTag (name t : Text) : Option (Text × Text) :=
  if '<' :: name <+: t then
    let rest := t.drop (name.length + 1)
    if rest.head?.any isSpace then closeTag (rest.dropWhile isSpace) else none
  else none

/-- `finditer`: the group of each match, with its start and its end. -/
def findFrom (name : Text) : Nat → Nat → Text → List (Text × Nat × Nat)
  | _, _, [] => []
  | n + 1, i, _ :: t => findFrom name n (i + 1) t
  | 0, i, c :: t =>
    match matchTag name (c :: t) with
    | none => findFrom name 0 (i + 1) t
    | some (group, rest) =>
      let length := (c :: t).length - rest.length
      (group, i, i + length) :: findFrom name (length - 1) (i + 1) t

/-- `(.*?)"`: the group, and what follows the match. -/
def closeQuote : Text → Option (Text × Text)
  | [] => none
  | c :: t =>
    if c = '"' then some ([], t)
    else if c = '\n' then none
    else (closeQuote t).map (fun p => (c :: p.1, p.2))

variable (letter : Char → Bool)

/-- `\w`. What is a letter beyond ASCII is a parameter. -/
def isWord (c : Char) : Bool := c.isAlphanum || c = '_' || (128 ≤ c.toNat && letter c)

/-- `(\w+)="(.*?)"` at the start of a text. -/
def matchAttribute (t : Text) : Option (Text × Text × Text) :=
  let name := t.takeWhile (isWord letter)
  let rest := t.dropWhile (isWord letter)
  if name ≠ [] ∧ "=\"".toList <+: rest then
    (closeQuote (rest.drop 2)).map (fun p => (name, p.1, p.2))
  else none

/-- `findall`. -/
def attributesFrom : Nat → Text → List (Text × Text)
  | _, [] => []
  | n + 1, _ :: t => attributesFrom n t
  | 0, c :: t =>
    match matchAttribute letter (c :: t) with
    | none => attributesFrom 0 t
    | some (name, value, rest) =>
      (name, unescapeXmlAttr value) :: attributesFrom ((c :: t).length - rest.length - 1) t

def attributeOf (key : Text) (group : Text) : Option Text :=
  (((attributesFrom letter 0 group).reverse.find? (fun a => a.1 = key)).map Prod.snd)

def parseXmlTag (name t : Text) : List (Text × Nat × Nat) := findFrom name 0 0 t

end Tags

section Escaping

variable {old new t u rest : Text} {c : Char} {n : Nat}

theorem replaceFrom_single : replaceFrom [c] new 0 t = t.flatMap (fun d => if d = c then new else [d]) := by
  induction t with
  | nil => rfl
  | cons d t ih =>
    rw [replaceFrom, List.flatMap_cons, ← ih]
    by_cases h : d = c
    · subst h
      simp
    · have hno : ¬ [c] <+: d :: t := fun hp => h (List.cons_prefix_cons.mp hp).1.symm
      simp [h, hno]

def escapeChar (c : Char) : Text :=
  if c = '&' then "&amp;".toList
  else if c = '"' then "&quot;".toList
  else if c = '<' then "&lt;".toList
  else if c = '>' then "&gt;".toList
  else [c]

theorem escapeXmlAttr_eq : escapeXmlAttr t = t.flatMap escapeChar := by
  have hamp (t : Text) : replaceAll "&" "&amp;" t = t.flatMap (fun d => if d = '&' then "&amp;".toList else [d]) :=
    replaceFrom_single
  have hquot (t : Text) : replaceAll "\"" "&quot;" t = t.flatMap (fun d => if d = '"' then "&quot;".toList else [d]) :=
    replaceFrom_single
  have hlt (t : Text) : replaceAll "<" "&lt;" t = t.flatMap (fun d => if d = '<' then "&lt;".toList else [d]) :=
    replaceFrom_single
  have hgt (t : Text) : replaceAll ">" "&gt;" t = t.flatMap (fun d => if d = '>' then "&gt;".toList else [d]) :=
    replaceFrom_single
  rw [escapeXmlAttr, hamp, hquot, hlt, hgt, List.flatMap_assoc, List.flatMap_assoc, List.flatMap_assoc]
  congr 1
  funext c
  unfold escapeChar
  split
  · rfl
  split
  · next hc =>
    subst hc
    rfl
  · next hquote =>
    split
    · next hc =>
      subst hc
      rfl
    · next hless =>
      rw [List.flatMap_singleton, if_neg hquote, List.flatMap_singleton, if_neg hless, List.flatMap_singleton]

theorem replaceFrom_skip (h : u.length = n) : replaceFrom old new n (u ++ rest) = replaceFrom old new 0 rest := by
  induction u generalizing n with
  | nil =>
    subst h
    rfl
  | cons c u ih =>
    subst h
    exact ih rfl

theorem replaceFrom_match (h : old ≠ []) :
    replaceFrom old new 0 (old ++ rest) = new ++ replaceFrom old new 0 rest := by
  cases old with
  | nil => exact absurd rfl h
  | cons c u =>
    have hp : c :: u <+: c :: (u ++ rest) := List.prefix_append (c :: u) rest
    rw [List.cons_append, replaceFrom, if_pos hp, replaceFrom_skip (by simp)]

theorem replaceFrom_pass (h : ∀ c ∈ u, old.head? ≠ some c) (hne : old ≠ []) :
    replaceFrom old new 0 (u ++ rest) = u ++ replaceFrom old new 0 rest := by
  induction u with
  | nil => rfl
  | cons c u ih =>
    have hno : ¬ old <+: c :: (u ++ rest) := by
      intro hp
      cases old with
      | nil => exact hne rfl
      | cons d old =>
        have hd := (List.cons_prefix_cons.mp hp).1
        exact h c List.mem_cons_self (congrArg some hd)
    rw [List.cons_append, replaceFrom, if_neg hno, ih (fun d hd => h d (List.mem_cons_of_mem c hd)), List.cons_append]

theorem replaceFrom_other (hno : ∀ rest, ¬ old <+: c :: u ++ rest) (h : ∀ d ∈ u, old.head? ≠ some d) (hne : old ≠ []) :
    replaceFrom old new 0 (c :: u ++ rest) = c :: u ++ replaceFrom old new 0 rest := by
  have hno' : ¬ old <+: c :: (u ++ rest) := hno rest
  rw [List.cons_append, replaceFrom, if_neg hno', replaceFrom_pass h hne, List.cons_append]

theorem replaceFrom_flatMap {e f : Char → Text}
    (h : ∀ c rest, replaceFrom old new 0 (e c ++ rest) = f c ++ replaceFrom old new 0 rest) :
    replaceFrom old new 0 (t.flatMap e) = t.flatMap f := by
  induction t with
  | nil => rfl
  | cons c t ih => rw [List.flatMap_cons, h, ih, List.flatMap_cons]

def specials : List Char := ['&', '"', '<', '>']

theorem entity_head : ∀ s ∈ specials, escapeChar s = '&' :: (escapeChar s).tail ∧ '&' ∉ (escapeChar s).tail := by
  decide

theorem entity_apart {s r : Char} (hs : s ∈ specials) (hr : r ∈ specials) (hne : s ≠ r) :
    ¬ escapeChar s <+: escapeChar r ++ rest := by
  have hall : ∀ s ∈ specials, ∀ r ∈ specials, s ≠ r →
      ¬ (escapeChar s <+: escapeChar r ∨ escapeChar r <+: escapeChar s) := by
    decide
  exact fun h => hall s hs r hr hne (List.prefix_or_prefix_of_prefix h (List.prefix_append _ rest))

/-- A character after some replacements back: those of `left` are still escaped. -/
def escapedIn (left : List Char) (c : Char) : Text := if c ∈ left then escapeChar c else [c]

theorem replaceFrom_entity {s : Char} {left : List Char} (hs : s ∈ specials) (hleft : left ⊆ specials)
    (hamp : '&' ∈ s :: left) (hnot : s ∉ left) :
    replaceFrom (escapeChar s) [s] 0 (t.flatMap (escapedIn (s :: left))) = t.flatMap (escapedIn left) := by
  obtain ⟨hhead, _⟩ := entity_head s hs
  have hne : escapeChar s ≠ [] := fun h => by simp [h] at hhead
  have hstart : (escapeChar s).head? = some '&' := by rw [hhead]; rfl
  apply replaceFrom_flatMap
  intro c rest
  by_cases hc : c = s
  · subst hc
    rw [escapedIn, escapedIn, if_pos List.mem_cons_self, if_neg hnot, replaceFrom_match hne]
  · by_cases hl : c ∈ left
    · obtain ⟨hsplit, htail⟩ := entity_head c (hleft hl)
      rw [escapedIn, escapedIn, if_pos (List.mem_cons_of_mem s hl), if_pos hl]
      have hno : ∀ rest, ¬ escapeChar s <+: '&' :: (escapeChar c).tail ++ rest := by
        intro rest
        rw [← hsplit]
        exact entity_apart hs (hleft hl) (Ne.symm hc)
      rw [hsplit]
      refine replaceFrom_other hno (fun d hd h => ?_) hne
      cases hstart.symm.trans h
      exact htail hd
    · rw [escapedIn, escapedIn, if_neg (fun h => (List.mem_cons.mp h).elim hc hl), if_neg hl]
      refine replaceFrom_pass (fun d hd h => ?_) hne
      cases hstart.symm.trans h
      rw [← List.mem_singleton.mp hd] at hc hl
      exact (List.mem_cons.mp hamp).elim hc hl

theorem unescape_escape (t : Text) : unescapeXmlAttr (escapeXmlAttr t) = t := by
  have hall : escapeChar = escapedIn ['"', '<', '>', '&'] := by
    funext c
    by_cases hc : c ∈ ['"', '<', '>', '&']
    · have hspecial : ∀ s ∈ ['"', '<', '>', '&'], escapeChar s = escapedIn ['"', '<', '>', '&'] s := by decide
      exact hspecial c hc
    · rw [escapedIn, if_neg hc]
      simp only [List.mem_cons, List.not_mem_nil, or_false, not_or] at hc
      simp only [escapeChar, hc, if_false]
  have hquot : replaceAll "&quot;" "\"" (t.flatMap (escapedIn ['"', '<', '>', '&'])) =
      t.flatMap (escapedIn ['<', '>', '&']) :=
    replaceFrom_entity (s := '"') (by decide) (by decide) (by decide) (by decide)
  have hlt : replaceAll "&lt;" "<" (t.flatMap (escapedIn ['<', '>', '&'])) = t.flatMap (escapedIn ['>', '&']) :=
    replaceFrom_entity (s := '<') (by decide) (by decide) (by decide) (by decide)
  have hgt : replaceAll "&gt;" ">" (t.flatMap (escapedIn ['>', '&'])) = t.flatMap (escapedIn ['&']) :=
    replaceFrom_entity (s := '>') (by decide) (by decide) (by decide) (by decide)
  have hamp : replaceAll "&amp;" "&" (t.flatMap (escapedIn ['&'])) = t.flatMap (escapedIn []) :=
    replaceFrom_entity (s := '&') (by decide) (by decide) (by decide) (by decide)
  rw [escapeXmlAttr_eq, hall, unescapeXmlAttr, hquot, hlt, hgt, hamp]
  exact List.flatMap_singleton' t

theorem mem_escapeXmlAttr (h : c ∈ escapeXmlAttr t) : c ≠ '"' ∧ c ≠ '<' ∧ c ≠ '>' := by
  rw [escapeXmlAttr_eq] at h
  obtain ⟨d, _, hd⟩ := List.mem_flatMap.mp h
  have hspecial : ∀ s ∈ specials, ∀ c ∈ escapeChar s, c ≠ '"' ∧ c ≠ '<' ∧ c ≠ '>' := by decide
  by_cases hs : d ∈ specials
  · exact hspecial d hs c hd
  simp only [specials, List.mem_cons, List.not_mem_nil, or_false, not_or] at hs
  simp only [escapeChar, hs, if_false, List.mem_singleton] at hd
  subst hd
  exact ⟨hs.2.1, hs.2.2.1, hs.2.2.2⟩

theorem newline_mem_escape : '\n' ∈ escapeXmlAttr t ↔ '\n' ∈ t := by
  rw [escapeXmlAttr_eq, List.mem_flatMap]
  have hspecial : ∀ s ∈ specials, '\n' ∉ escapeChar s := by decide
  constructor
  · intro ⟨d, hd, hn⟩
    by_cases hs : d ∈ specials
    · exact absurd hn (hspecial d hs)
    simp only [specials, List.mem_cons, List.not_mem_nil, or_false, not_or] at hs
    simp only [escapeChar, hs, if_false, List.mem_singleton] at hn
    exact hn ▸ hd
  · intro h
    exact ⟨'\n', h, by decide⟩

end Escaping

section Matches

variable {name group t u rest : Text} {c : Char}

theorem dropWhile_append_of_mem {p : Char → Bool} (hc : c ∈ t) (hp : p c = false) :
    (t ++ u).dropWhile p = t.dropWhile p ++ u ∧ t.dropWhile p ≠ [] := by
  have hne : t.dropWhile p ≠ [] := by
    intro he
    rw [List.dropWhile_eq_nil_iff] at he
    simp [he c hc] at hp
  refine ⟨?_, hne⟩
  rw [List.dropWhile_append, if_neg (by simpa using hne)]

/-- A group has no `>` and no blank at its end. -/
structure Grouped (t : Text) : Prop where
  no_close : '>' ∉ t
  ends : ∀ u, u <:+ t → u ≠ [] → ∃ c ∈ u, isSpace c = false

theorem Grouped.tail (h : Grouped (c :: t)) : Grouped t :=
  ⟨fun hm => h.no_close (List.mem_cons_of_mem c hm), fun u hu => h.ends u (hu.trans (List.suffix_cons c t))⟩

theorem not_close_of_grouped (h : Grouped t) (hne : t ≠ []) (rest : Text) :
    ¬ "/>".toList <+: (t ++ " />".toList ++ rest).dropWhile isSpace := by
  obtain ⟨c, hc, hs⟩ := h.ends t List.suffix_rfl hne
  obtain ⟨happend, hd⟩ := dropWhile_append_of_mem (u := " />".toList ++ rest) hc hs
  rw [List.append_assoc, happend]
  have hsub : ∀ d ∈ t.dropWhile isSpace, d ≠ '>' :=
    fun d hm he => h.no_close (he ▸ (List.dropWhile_suffix _).subset hm)
  intro hp
  match hm : t.dropWhile isSpace, hd with
  | [d], _ => simp [hm] at hp
  | d :: e :: v, _ =>
    rw [hm] at hp hsub
    have hsecond : '>' = e := by
      have hp' : ['/', '>'] <+: d :: e :: (v ++ (" />".toList ++ rest)) := hp
      exact (List.cons_prefix_cons.mp (List.cons_prefix_cons.mp hp').2).1
    exact hsub e (by simp) hsecond.symm

theorem closeTag_grouped (h : Grouped t) : closeTag (t ++ " />".toList ++ rest) =
    if '\n' ∈ t then none else some (t, rest) := by
  induction t with
  | nil => simp [closeTag, isSpace]
  | cons c t ih =>
    have hno := not_close_of_grouped h (by simp) rest
    simp only [List.cons_append] at hno ⊢
    rw [closeTag, if_neg hno]
    by_cases hc : c = '\n'
    · simp [hc]
    rw [if_neg hc, ih h.tail]
    by_cases hn : '\n' ∈ t
    · simp [hn]
    · simp [hn, Ne.symm hc]

theorem close_mem_of_closeTag {p : Text × Text} (h : closeTag t = some p) : '>' ∈ t := by
  induction t generalizing p with
  | nil => cases h
  | cons c t ih =>
    rw [closeTag] at h
    split at h
    · next hp => exact (List.dropWhile_suffix _).subset (hp.subset (by decide))
    split at h
    · cases h
    · obtain ⟨q, hq, _⟩ := Option.map_eq_some_iff.mp h
      exact List.mem_cons_of_mem c (ih hq)

theorem close_of_append (h : '>' ∈ t) (hp : "/>".toList <+: t ++ u) : "/>".toList <+: t := by
  change ['/', '>'] <+: t
  match t, h with
  | [c], h =>
    have hslash : '/' = c := (List.cons_prefix_cons.mp (show ['/', '>'] <+: c :: u from hp)).1
    rw [← hslash] at h
    exact absurd h (by decide)
  | c :: d :: v, _ =>
    obtain ⟨hc, hd⟩ := List.cons_prefix_cons.mp (show ['/', '>'] <+: c :: d :: (v ++ u) from hp)
    rw [← hc, ← (List.cons_prefix_cons.mp hd).1]
    exact List.prefix_append ['/', '>'] v

theorem closeTag_append (h : closeTag t = some (group, rest)) : closeTag (t ++ u) = some (group, rest ++ u) := by
  induction t generalizing group with
  | nil => cases h
  | cons c t ih =>
    rw [closeTag] at h
    -- something is left of the text, so that blanks are dropped from it alone
    have hvisible : ∃ d ∈ c :: t, isSpace d = false := by
      split at h
      · next hp => exact ⟨'/', (List.dropWhile_suffix _).subset (hp.subset (by decide)), by decide⟩
      split at h
      · cases h
      · obtain ⟨q, hq, _⟩ := Option.map_eq_some_iff.mp h
        exact ⟨'>', List.mem_cons_of_mem c (close_mem_of_closeTag hq), by decide⟩
    obtain ⟨d, hd, hs⟩ := hvisible
    obtain ⟨happend, hne⟩ := dropWhile_append_of_mem (u := u) hd hs
    simp only [List.cons_append] at happend ⊢
    rw [closeTag, happend]
    split at h
    · next hp =>
      cases h
      rw [if_pos (hp.trans (List.prefix_append _ u))]
      obtain ⟨v, hv⟩ := hp
      rw [← hv, List.append_assoc]
      rfl
    · next hno =>
      split at h
      · cases h
      · next hn =>
        obtain ⟨q, hq, he⟩ := Option.map_eq_some_iff.mp h
        cases he
        have hgt : '>' ∈ (c :: t).dropWhile isSpace := by
          have hmem : '>' ∈ c :: t := List.mem_cons_of_mem c (close_mem_of_closeTag hq)
          rw [← List.takeWhile_append_dropWhile (p := isSpace) (l := c :: t), List.mem_append] at hmem
          cases hmem with
          | inl hm => exact absurd (List.mem_takeWhile_imp hm) (by decide)
          | inr hm => exact hm
        have hlong : ¬ "/>".toList <+: (c :: t).dropWhile isSpace ++ u :=
          fun hp => hno (close_of_append hgt hp)
        rw [if_neg hlong, if_neg hn, ih hq]
        rfl

theorem drop_open (name t : Text) : ('<' :: name ++ t).drop (name.length + 1) = t := by
  simp

theorem matchTag_append (h : matchTag name t = some (group, rest)) :
    matchTag name (t ++ u) = some (group, rest ++ u) := by
  unfold matchTag at h ⊢
  split at h
  · next hp =>
    obtain ⟨v, rfl⟩ := hp
    rw [List.append_assoc, if_pos (List.prefix_append _ (v ++ u)), drop_open]
    rw [drop_open] at h
    dsimp only at h ⊢
    split at h
    · next hs =>
      have hgt : '>' ∈ v := (List.dropWhile_suffix _).subset (close_mem_of_closeTag h)
      have hhead : (v ++ u).head? = v.head? := by
        cases v with
        | nil => cases hgt
        | cons c v => rfl
      rw [hhead, if_pos hs, (dropWhile_append_of_mem hgt (by decide)).1]
      exact closeTag_append h
    · cases h
  · cases h

end Matches

section Writing

variable {letter : Char → Bool} {attrs : Attributes} {key value t u rest : Text} {c : Char} {n : Nat}
  {pairs : List (Text × Text)}

def given (attrs : Attributes) : List (Text × Text) := attrs.filterMap (fun a => a.2.map (fun v => (a.1, v)))

def written (pairs : List (Text × Text)) : Text := [' '].intercalate (pairs.map (fun a => writeAttribute a.1 a.2))

theorem attrsStr_eq : attrsStr attrs = written (given attrs) := by
  rw [attrsStr, given, written, List.map_filterMap]
  congr 2
  funext a
  cases a.2 <;> rfl

theorem written_cons {a b : Text × Text} :
    written (a :: b :: pairs) = writeAttribute a.1 a.2 ++ ' ' :: written (b :: pairs) := by
  simp [written, List.intercalate]

def PlainKeys (pairs : List (Text × Text)) : Prop := ∀ a ∈ pairs, a.1 ≠ [] ∧ ∀ c ∈ a.1, c.isAlphanum = true

theorem mem_writeAttribute (hk : ∀ c ∈ key, c.isAlphanum = true) (hc : c ∈ writeAttribute key value) :
    c ≠ '<' ∧ c ≠ '>' := by
  simp only [writeAttribute, List.mem_append, List.mem_singleton] at hc
  obtain ((hc | hc) | hc) | hc := hc
  · exact ⟨fun he => by simpa [he] using hk c hc, fun he => by simpa [he] using hk c hc⟩
  · revert c
    decide
  · exact (mem_escapeXmlAttr hc).2
  · subst hc
    decide

theorem mem_written (hk : PlainKeys pairs) (hc : c ∈ written pairs) : c ≠ '<' ∧ c ≠ '>' := by
  induction pairs with
  | nil => cases hc
  | cons a pairs ih =>
    have ha : ∀ c ∈ writeAttribute a.1 a.2, c ≠ '<' ∧ c ≠ '>' :=
      fun c => mem_writeAttribute (hk a List.mem_cons_self).2
    cases pairs with
    | nil => exact ha c (by simpa [written] using hc)
    | cons b pairs =>
      rw [written_cons, List.mem_append, List.mem_cons] at hc
      obtain hc | hc | hc := hc
      · exact ha c hc
      · subst hc
        decide
      · exact ih (fun d hd => hk d (List.mem_cons_of_mem a hd)) hc

theorem newline_mem_written (hk : PlainKeys pairs) : '\n' ∈ written pairs ↔ ∃ a ∈ pairs, '\n' ∈ a.2 := by
  have hwrite : ∀ a ∈ pairs, ('\n' ∈ writeAttribute a.1 a.2 ↔ '\n' ∈ a.2) := by
    intro a ha
    have hkey : '\n' ∉ a.1 := fun hm => by simpa using (hk a ha).2 _ hm
    simp [writeAttribute, hkey, newline_mem_escape]
  induction pairs with
  | nil => simp [written]
  | cons a pairs ih =>
    have ha := hwrite a List.mem_cons_self
    cases pairs with
    | nil => simpa [written] using ha
    | cons b pairs =>
      have hrest : '\n' ∈ written (b :: pairs) ↔ ∃ d ∈ b :: pairs, '\n' ∈ d.2 :=
        ih (fun d hd => hk d (List.mem_cons_of_mem a hd)) (fun d hd => hwrite d (List.mem_cons_of_mem a hd))
      rw [written_cons, List.mem_append, List.mem_cons, ha, hrest]
      simp

theorem written_ends (h : pairs ≠ []) : ∃ v, written pairs = v ++ ['"'] := by
  induction pairs with
  | nil => exact absurd rfl h
  | cons a pairs ih =>
    cases pairs with
    | nil => exact ⟨a.1 ++ "=\"".toList ++ escapeXmlAttr a.2, by simp [written, writeAttribute]⟩
    | cons b pairs =>
      obtain ⟨v, hv⟩ := ih (by simp)
      exact ⟨writeAttribute a.1 a.2 ++ ' ' :: v, by rw [written_cons, hv]; simp⟩

theorem grouped_written (hk : PlainKeys pairs) : Grouped (written pairs) := by
  refine ⟨fun h => (mem_written hk h).2 rfl, fun u hu hne => ?_⟩
  by_cases hp : pairs = []
  · subst hp
    exact absurd (List.suffix_nil.mp hu) hne
  · obtain ⟨v, hv⟩ := written_ends hp
    rw [hv] at hu
    obtain h | ⟨w, hw, _⟩ := List.suffix_concat_iff.mp hu
    · exact absurd h hne
    · exact ⟨'"', hw ▸ by simp, by decide⟩

theorem written_starts (hk : PlainKeys pairs) (h : pairs ≠ []) :
    ∃ c v, written pairs = c :: v ∧ isSpace c = false := by
  match pairs, h with
  | a :: rest, _ =>
    obtain ⟨hne, hplain⟩ := hk a List.mem_cons_self
    obtain ⟨c, key, hkey⟩ := List.exists_cons_of_ne_nil hne
    have hc : isSpace c = false :=
      not_isSpace_of_identifierChar (by simp [identifierChar, hplain c (hkey ▸ List.mem_cons_self)])
    cases rest with
    | nil => exact ⟨c, _, by simp [written, writeAttribute, hkey]; rfl, hc⟩
    | cons b rest => exact ⟨c, _, by rw [written_cons, writeAttribute, hkey]; rfl, hc⟩

theorem closeQuote_value (h : ∀ c ∈ t, c ≠ '"' ∧ c ≠ '\n') : closeQuote (t ++ '"' :: rest) = some (t, rest) := by
  induction t with
  | nil => rfl
  | cons c t ih =>
    obtain ⟨hq, hn⟩ := h c List.mem_cons_self
    rw [List.cons_append, closeQuote, if_neg hq, if_neg hn, ih (fun d hd => h d (List.mem_cons_of_mem c hd))]
    rfl

theorem matchAttribute_write (letter : Char → Bool) (rest : Text) (hne : key ≠ []) (hk : ∀ c ∈ key, c.isAlphanum = true) (hv : '\n' ∉ value) :
    matchAttribute letter (writeAttribute key value ++ rest) = some (key, escapeXmlAttr value, rest) := by
  have hword : ∀ c ∈ key, isWord letter c = true := fun c hc => by simp [isWord, hk c hc]
  have hequals : isWord letter '=' = false := rfl
  have hvalue : ∀ c ∈ escapeXmlAttr value, c ≠ '"' ∧ c ≠ '\n' :=
    fun c hc => ⟨(mem_escapeXmlAttr hc).1, fun he => hv (newline_mem_escape.mp (he ▸ hc))⟩
  have hsplit : writeAttribute key value ++ rest = key ++ '=' :: '"' :: (escapeXmlAttr value ++ '"' :: rest) := by
    simp [writeAttribute]
  have htake : (key ++ '=' :: '"' :: (escapeXmlAttr value ++ '"' :: rest)).takeWhile (isWord letter) = key := by
    rw [List.takeWhile_append_of_pos hword, List.takeWhile_cons_of_neg (by simp [hequals]), List.append_nil]
  have hdrop : (key ++ '=' :: '"' :: (escapeXmlAttr value ++ '"' :: rest)).dropWhile (isWord letter) =
      '=' :: '"' :: (escapeXmlAttr value ++ '"' :: rest) := by
    rw [List.dropWhile_append_of_pos hword, List.dropWhile_cons_of_neg (by simp [hequals])]
  have hprefix : "=\"".toList <+: '=' :: '"' :: (escapeXmlAttr value ++ '"' :: rest) :=
    List.prefix_append ['=', '"'] _
  rw [matchAttribute, hsplit, htake, hdrop, if_pos ⟨hne, hprefix⟩]
  change (closeQuote (escapeXmlAttr value ++ '"' :: rest)).map _ = _
  rw [closeQuote_value hvalue]
  rfl

theorem attributesFrom_skip (h : u.length = n) : attributesFrom letter n (u ++ rest) = attributesFrom letter 0 rest := by
  induction u generalizing n with
  | nil =>
    subst h
    rfl
  | cons c u ih =>
    subst h
    exact ih rfl

theorem attributesFrom_write (rest : Text) (hne : key ≠ []) (hk : ∀ c ∈ key, c.isAlphanum = true) (hv : '\n' ∉ value) :
    attributesFrom letter 0 (writeAttribute key value ++ rest) = (key, value) :: attributesFrom letter 0 rest := by
  have hmatch := matchAttribute_write letter rest hne hk hv
  obtain ⟨c, u, hw⟩ : ∃ c u, writeAttribute key value = c :: u := by
    obtain ⟨c, u, hkey⟩ := List.exists_cons_of_ne_nil hne
    exact ⟨c, _, by rw [writeAttribute, hkey]; rfl⟩
  rw [hw, List.cons_append] at hmatch ⊢
  rw [attributesFrom, hmatch]
  dsimp only
  rw [unescape_escape, attributesFrom_skip (by simp; omega)]

theorem attributesFrom_written (hk : PlainKeys pairs) (hv : ∀ a ∈ pairs, '\n' ∉ a.2) :
    attributesFrom letter 0 (written pairs) = pairs := by
  induction pairs with
  | nil => rfl
  | cons a pairs ih =>
    obtain ⟨hne, hplain⟩ := hk a List.mem_cons_self
    have hvalue := hv a List.mem_cons_self
    have hrest : attributesFrom letter 0 (written pairs) = pairs :=
      ih (fun d hd => hk d (List.mem_cons_of_mem a hd)) (fun d hd => hv d (List.mem_cons_of_mem a hd))
    cases pairs with
    | nil =>
      have happend : attributesFrom letter 0 (writeAttribute a.1 a.2 ++ []) = [a] :=
        attributesFrom_write [] hne hplain hvalue
      simpa [written] using happend
    | cons b pairs =>
      have hblank : ∀ t, attributesFrom letter 0 (' ' :: t) = attributesFrom letter 0 t := by
        intro t
        have hword : isWord letter ' ' = false := rfl
        simp [attributesFrom, matchAttribute, hword]
      rw [written_cons, attributesFrom_write _ hne hplain hvalue, hblank, hrest]

end Writing

variable {name other t u g rest group : Text} {attrs : Attributes} {i j n : Nat}

def shift (k : Nat) (found : Text × Nat × Nat) : Text × Nat × Nat := (found.1, found.2.1 + k, found.2.2 + k)

theorem findFrom_shift : findFrom name n (i + j) t = (findFrom name n i t).map (shift j) := by
  induction t generalizing n i with
  | nil =>
    cases n <;> rfl
  | cons c t ih =>
    have hnext (n : Nat) : findFrom name n (i + j + 1) t = (findFrom name n (i + 1) t).map (shift j) := by
      rw [← ih, Nat.add_right_comm]
    cases n with
    | succ n => exact hnext n
    | zero =>
      rw [findFrom, findFrom]
      split
      · exact hnext 0
      · next group rest hmatch =>
        dsimp only
        rw [List.map_cons, hnext, shift, Nat.add_right_comm i]

theorem findFrom_skip (h : u.length = n) : findFrom name n i (u ++ rest) = findFrom name 0 (i + n) rest := by
  induction u generalizing n i with
  | nil =>
    subst h
    rfl
  | cons c u ih =>
    subst h
    rw [List.cons_append, List.length_cons, findFrom, ih rfl]
    congr 1
    omega

theorem findFrom_pass (h : ∀ v, v <:+ g → v ≠ [] → matchTag name (v ++ rest) = none) :
    findFrom name 0 i (g ++ rest) = findFrom name 0 (i + g.length) rest := by
  induction g generalizing i with
  | nil => rfl
  | cons c g ih =>
    have hnone : matchTag name (c :: (g ++ rest)) = none := h (c :: g) List.suffix_rfl (by simp)
    rw [List.cons_append, findFrom, hnone]
    dsimp only
    rw [ih (fun v hv => h v (hv.trans (List.suffix_cons c g))), List.length_cons]
    congr 1
    omega

theorem findFrom_match (hne : u ≠ []) (h : matchTag name (u ++ rest) = some (group, rest)) :
    findFrom name 0 i (u ++ rest) = (group, i, i + u.length) :: findFrom name 0 (i + u.length) rest := by
  cases u with
  | nil => exact absurd rfl hne
  | cons c u =>
    have hlength : (c :: (u ++ rest)).length - rest.length = u.length + 1 := by simp; omega
    rw [List.cons_append] at h ⊢
    rw [findFrom, h]
    dsimp only
    rw [hlength, Nat.add_sub_cancel, findFrom_skip rfl, List.length_cons]
    congr 2
    omega

def tagNames : List Text := ["media_msg".toList, "function_call".toList, "tool_result".toList]

/-- No match starts in the text, whatever follows it. -/
def Inert (g : Text) : Prop :=
  ∀ name ∈ tagNames, ∀ v, v <:+ g → v ≠ [] → ∀ rest, matchTag name (v ++ rest) = none

theorem inert_nil : Inert [] := fun _ _ _ hv hne => absurd (List.suffix_nil.mp hv) hne

theorem inert_append (hg : Inert g) (ht : Inert t) : Inert (g ++ t) := by
  intro name hname v hv hne rest
  cases List.suffix_or_suffix_of_suffix hv (List.suffix_append g t) with
  | inl h => exact ht name hname v h hne rest
  | inr h =>
    obtain ⟨w, rfl⟩ := h
    have hw : w <:+ g := by
      obtain ⟨x, hx⟩ := hv
      exact ⟨x, List.append_cancel_right (by rw [List.append_assoc, hx])⟩
    by_cases he : w = []
    · subst he
      exact ht name hname t List.suffix_rfl hne rest
    · rw [List.append_assoc]
      exact hg name hname w hw he (t ++ rest)

theorem matchTag_eq_none_of_head (h : t.head? ≠ some '<') : matchTag name t = none := by
  rw [matchTag, if_neg]
  intro hp
  cases t with
  | nil => exact absurd (List.prefix_nil.mp hp) (by simp)
  | cons c t => exact h (congrArg some (List.cons_prefix_cons.mp hp).1.symm)

theorem inert_of_no_open (h : '<' ∉ g) : Inert g := by
  intro name _ v hv hne rest
  apply matchTag_eq_none_of_head
  cases v with
  | nil => exact absurd rfl hne
  | cons c v =>
    intro hc
    exact h (hv.subset (Option.some.inj hc ▸ List.mem_cons_self))

/-- Whether a tag could start in a text that a blank follows. -/
def opening (t : Text) : Bool :=
  t.tails.any (fun v => tagNames.any (fun name =>
    ('<' :: name).isPrefixOf v && (v.drop (name.length + 1)).head?.all isSpace))

theorem names_visible : ∀ name ∈ tagNames, ∀ c ∈ '<' :: name, isSpace c = false := by decide

theorem inert_of_plain {s : Text} (hopen : opening t = false) (hs : '<' ∉ s)
    (hblank : ∃ c ∈ s.head?, isSpace c = true) : Inert (t ++ s) := by
  intro name hname v hv hne rest
  cases List.suffix_or_suffix_of_suffix hv (List.suffix_append t s) with
  | inl h => exact inert_of_no_open hs name hname v h hne rest
  | inr h =>
    obtain ⟨w, rfl⟩ := h
    have hw : w <:+ t := by
      obtain ⟨x, hx⟩ := hv
      exact ⟨x, List.append_cancel_right (by rw [List.append_assoc, hx])⟩
    rw [matchTag]
    split
    · next hp =>
      rw [List.append_assoc] at hp
      have hprefix : '<' :: name <+: w := by
        cases List.prefix_or_prefix_of_prefix hp (List.prefix_append w (s ++ rest)) with
        | inl h => exact h
        | inr h =>
          obtain ⟨y, hy⟩ := h
          cases y with
          | nil => exact ⟨[], by rw [← hy]; simp⟩
          | cons d y =>
            obtain ⟨c, hc, hspace⟩ := hblank
            have hd : d = c := by
              rw [← hy, List.prefix_append_right_inj] at hp
              cases s with
              | nil => cases hc
              | cons e s =>
                rw [(List.cons_prefix_cons.mp hp).1]
                exact Option.some.inj hc
            have hvisible := names_visible name hname d (hy ▸ by simp)
            rw [hd, hspace] at hvisible
            cases hvisible
      obtain ⟨z, rfl⟩ := hprefix
      have hall := List.any_eq_false.mp hopen _ ((List.mem_tails _ _).mpr hw)
      have hno := List.any_eq_false.mp (Bool.eq_false_iff.mpr hall) name hname
      have hz : z.head?.all isSpace = false := by
        rw [drop_open] at hno
        have hpre : ('<' :: name).isPrefixOf ('<' :: name ++ z) = true :=
          List.isPrefixOf_iff_prefix.mpr (List.prefix_append _ z)
        simpa [hpre] using hno
      rw [List.append_assoc, List.append_assoc, drop_open]
      cases z with
      | nil => cases hz
      | cons d z =>
        have hd : isSpace d = false := by simpa using hz
        simp [hd]
    · rfl

structure Wellformed (attrs : Attributes) : Prop where
  keys : PlainKeys (given attrs)
  present : given attrs ≠ []

theorem matchTag_createXmlTag (hattrs : Wellformed attrs) : matchTag name (createXmlTag name attrs ++ rest) =
      if '\n' ∈ attrsStr attrs then none else some (attrsStr attrs, rest) := by
  obtain ⟨c, u, hstart, hc⟩ := written_starts hattrs.keys hattrs.present
  have hsplit : createXmlTag name attrs ++ rest =
      '<' :: name ++ (' ' :: (attrsStr attrs ++ " />".toList ++ rest)) := by
    simp [createXmlTag]
  have hblank : (' ' :: (attrsStr attrs ++ " />".toList ++ rest)).dropWhile isSpace =
      attrsStr attrs ++ " />".toList ++ rest := by
    rw [List.dropWhile_cons_of_pos (by decide), attrsStr_eq, hstart]
    exact List.dropWhile_cons_of_neg (by simp [hc])
  rw [matchTag, hsplit, if_pos (List.prefix_append _ _), drop_open]
  dsimp only
  have hspace : (' ' :: (attrsStr attrs ++ " />".toList ++ rest)).head?.any isSpace = true := by
    rw [List.head?_cons]
    decide
  rw [if_pos hspace, hblank]
  exact closeTag_grouped (attrsStr_eq ▸ grouped_written hattrs.keys)

theorem open_notMem_tail (hattrs : Wellformed attrs) (hname : '<' ∉ name) :
    '<' ∉ (createXmlTag name attrs).tail := by
  have hstr : '<' ∉ attrsStr attrs := fun h => (mem_written hattrs.keys (attrsStr_eq ▸ h)).1 rfl
  simp [createXmlTag, hname, hstr]

theorem matchTag_other (hname : name ∈ tagNames) (hother : other ∈ tagNames) (hne : other ≠ name) :
    matchTag other (createXmlTag name attrs ++ rest) = none := by
  rw [matchTag, if_neg]
  intro hp
  have hsplit : createXmlTag name attrs ++ rest = '<' :: (name ++ ' ' :: (attrsStr attrs ++ " />".toList ++ rest)) := by
    simp [createXmlTag]
  rw [hsplit] at hp
  have hp := (List.cons_prefix_cons.mp hp).2
  have hapart : ∀ name ∈ tagNames, ∀ other ∈ tagNames, other ≠ name → ¬ (other <+: name ∨ name <+: other) := by decide
  exact hapart name hname other hother hne (List.prefix_or_prefix_of_prefix hp (List.prefix_append name _))

variable (hattrs : Wellformed attrs)

include hattrs

theorem inert_broken (hname : name ∈ tagNames) (hn : '\n' ∈ attrsStr attrs) :
    Inert (createXmlTag name attrs) := by
  have hopen : '<' ∉ name := fun h => by
    have hall : ∀ name ∈ tagNames, '<' ∉ name := by decide
    exact hall name hname h
  intro other hother v hv hne rest
  have htail := open_notMem_tail hattrs hopen
  have hcons : createXmlTag name attrs = '<' :: (createXmlTag name attrs).tail := rfl
  rw [hcons] at hv
  cases List.suffix_cons_iff.mp hv with
  | inr h => exact inert_of_no_open htail other hother v h hne rest
  | inl h =>
    rw [h, ← hcons]
    by_cases ho : other = name
    · subst ho
      rw [matchTag_createXmlTag hattrs, if_pos hn]
    · exact matchTag_other hname hother ho

theorem findFrom_self (hn : '\n' ∉ attrsStr attrs) :
    findFrom name 0 i (createXmlTag name attrs ++ rest) =
      (attrsStr attrs, i, i + (createXmlTag name attrs).length) ::
        findFrom name 0 (i + (createXmlTag name attrs).length) rest :=
  findFrom_match (by simp [createXmlTag]) (by rw [matchTag_createXmlTag hattrs, if_neg hn])

theorem findFrom_other (hname : name ∈ tagNames) (hother : other ∈ tagNames)
    (hne : other ≠ name) : findFrom other 0 i (createXmlTag name attrs ++ rest) =
      findFrom other 0 (i + (createXmlTag name attrs).length) rest := by
  apply findFrom_pass
  intro v hv hv'
  have hopen : '<' ∉ name := fun h => by
    have hall : ∀ name ∈ tagNames, '<' ∉ name := by decide
    exact hall name hname h
  have hcons : createXmlTag name attrs = '<' :: (createXmlTag name attrs).tail := rfl
  rw [hcons] at hv
  cases List.suffix_cons_iff.mp hv with
  | inr h => exact inert_of_no_open (open_notMem_tail hattrs hopen) other hother v h hv' rest
  | inl h =>
    rw [h, ← hcons]
    exact matchTag_other hname hother hne

theorem attributeOf_attrsStr {letter : Char → Bool} {key : Text}
    (hn : '\n' ∉ attrsStr attrs) :
    attributeOf letter key (attrsStr attrs) = ((given attrs).reverse.find? (fun a => a.1 = key)).map Prod.snd := by
  rw [attrsStr_eq, newline_mem_written hattrs.keys] at hn
  have hread : attributesFrom letter 0 (written (given attrs)) = given attrs :=
    attributesFrom_written hattrs.keys (fun a ha h => hn ⟨a, ha, h⟩)
  rw [attributeOf, attrsStr_eq, hread]

end Kirara.MemoryTags
