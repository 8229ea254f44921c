import Kirara.Channels

namespace Kirara.MemoryFiles

open Kirara.Channels

inductive ChatType where
  | c2c
  | group
  deriving DecidableEq

structure ChatSender where
  userId : Text
  chatType : ChatType
  groupId : Option Text
  deriving DecidableEq

inductive MemoryScope where
  | member
  | group
  | global
  deriving DecidableEq

/-- What a format string makes of an identity that may be missing. -/
def formatted (id : Option Text) : Text := id.getD "None".toList

def getScopeKey (scope : MemoryScope) (sender : ChatSender) : Text :=
  match scope, sender.chatType with
  | .member, .group => "member:".toList ++ formatted sender.groupId ++ ':' :: sender.userId
  | .group, .group => "group:".toList ++ formatted sender.groupId
  | .member, .c2c => "c2c:".toList ++ sender.userId
  | .group, .c2c => "c2c:".toList ++ sender.userId
  | .global, _ => "global".toList

def isInScope (scope : MemoryScope) (target query : ChatSender) : Bool :=
  match scope with
  | .global => true
  | .member =>
    if target.chatType ≠ query.chatType then false
    else if target.chatType = .group then target.groupId = query.groupId && target.userId = query.userId
    else target.userId = query.userId
  | .group =>
    if target.chatType ≠ query.chatType then false
    else if target.chatType = .group then target.groupId = query.groupId
    else target.userId = query.userId

/-- Whose memory is stored, under which scope. -/
structure Owner where
  extraIdentifier : Option Text
  scope : MemoryScope
  sender : ChatSender
  deriving DecidableEq

def prefixed (extraIdentifier : Option Text) (key : Text) : Text :=
  match extraIdentifier with
  | none => key
  | some extra => extra ++ '-' :: key

def scopeKey (owner : Owner) : Text := prefixed owner.extraIdentifier (getScopeKey owner.scope owner.sender)

/-- `os.path.join`. An absolute name takes the place of the directory. -/
def joinPath (dir name : Text) : Text :=
  if name.head? = some '/' then name
  else if dir = [] ∨ dir.getLast? = some '/' then dir ++ name
  else dir ++ '/' :: name

def baseName (path : Text) : Text := path.rtakeWhile (· ≠ '/')

def flattened (key : Text) : Text := key.map (fun c => if c = ':' then '_' else c)

def getFilePath (dir key : Text) : Text := joinPath dir (flattened key ++ ".json".toList)

/-- What `save` writes to before the file is replaced. -/
def temporaryPath (dir key random : Text) : Text :=
  joinPath dir ('.' :: baseName (getFilePath dir key) ++ '-' :: random ++ ".tmp".toList)

def DirectlyInside (dir path : Text) : Prop :=
  ∃ name, '/' ∉ name ∧ name ∉ [[], ['.'], ['.', '.']] ∧ path = joinPath dir name

def Differ (p q : Owner) : Prop :=
  p.extraIdentifier ≠ q.extraIdentifier ∨ p.scope ≠ q.scope ∨ isInScope p.scope p.sender q.sender = false

/-- One private sender under two scopes, which have the same key for it. -/
def Twins (p q : Owner) : Prop :=
  p.extraIdentifier = q.extraIdentifier ∧ p.scope ≠ q.scope ∧ p.scope ≠ .global ∧ q.scope ≠ .global ∧
    p.sender.chatType = .c2c ∧ q.sender.chatType = .c2c ∧ p.sender.userId = q.sender.userId

/-- The identities of the owner are over an alphabet. The sender of a group has a group. -/
structure «Over» (alphabet : Char → Prop) (owner : Owner) : Prop where
  extra : ∀ extra, owner.extraIdentifier = some extra → ∀ c ∈ extra, alphabet c
  user : ∀ c ∈ owner.sender.userId, alphabet c
  grouped : owner.sender.chatType = .group → ∃ group, owner.sender.groupId = some group
  group : ∀ group, owner.sender.groupId = some group → ∀ c ∈ group, alphabet c

theorem joinPath_injective {dir a b : Text} (ha : '/' ∉ a) (hb : '/' ∉ b) (h : joinPath dir a = joinPath dir b) :
    a = b := by
  have hhead : ∀ {t : Text}, '/' ∉ t → t.head? ≠ some '/' := fun ht he => ht (List.mem_of_head? he)
  unfold joinPath at h
  rw [if_neg (hhead ha), if_neg (hhead hb)] at h
  split at h
  · exact List.append_cancel_left h
  · exact (List.cons.inj (List.append_cancel_left h)).2

theorem notMem_baseName (path : Text) : '/' ∉ baseName path := by
  intro h
  have hne := List.mem_rtakeWhile_imp h
  simp at hne

theorem directlyInside_join {dir name : Text} (h : '/' ∉ name) (hl : 2 < name.length) :
    DirectlyInside dir (joinPath dir name) := by
  refine ⟨name, h, fun hmem => ?_, rfl⟩
  simp only [List.mem_cons, List.not_mem_nil, or_false] at hmem
  obtain rfl | rfl | rfl := hmem <;> simp at hl

theorem notMem_flattened {key : Text} (h : '/' ∉ key) : '/' ∉ flattened key := by
  intro hmem
  obtain ⟨c, hc, he⟩ := List.mem_map.mp hmem
  split at he
  · cases he
  · exact h (he ▸ hc)

theorem directlyInside_getFilePath {dir key : Text} (h : '/' ∉ key) : DirectlyInside dir (getFilePath dir key) := by
  have hjson : '/' ∉ ".json".toList := by decide
  apply directlyInside_join
  · simp [notMem_flattened h]
  · simp

theorem directlyInside_temporaryPath {dir key random : Text} (h : '/' ∉ random) :
    DirectlyInside dir (temporaryPath dir key random) := by
  apply directlyInside_join
  · simp [notMem_baseName, h]
  · simp
    omega

section Keys

/-- The word a key has for its kind, and the identities it has. -/
def parts (owner : Owner) : Text × List Text :=
  match owner.scope, owner.sender.chatType with
  | .member, .group => ("member".toList, [formatted owner.sender.groupId, owner.sender.userId])
  | .group, .group => ("group".toList, [formatted owner.sender.groupId])
  | .member, .c2c => ("c2c".toList, [owner.sender.userId])
  | .group, .c2c => ("c2c".toList, [owner.sender.userId])
  | .global, _ => ("global".toList, [])

def fields (owner : Owner) : List Text :=
  prefixed owner.extraIdentifier (parts owner).1 :: (parts owner).2

theorem prefixed_append (extra : Option Text) (a b : Text) : prefixed extra (a ++ b) = prefixed extra a ++ b := by
  cases extra with
  | none => rfl
  | some e => simp [prefixed]

theorem scopeKey_eq (owner : Owner) : scopeKey owner = [':'].intercalate (fields owner) := by
  unfold scopeKey fields parts getScopeKey
  cases owner.scope <;> cases owner.sender.chatType <;>
    simp [List.intercalate, List.intersperse, ← prefixed_append]

theorem flattened_intercalate (ls : List Text) :
    flattened ([':'].intercalate ls) = ['_'].intercalate (ls.map flattened) := by
  induction ls with
  | nil => rfl
  | cons l ls ih =>
    cases ls with
    | nil => simp
    | cons m ls =>
      rw [List.map_cons, List.map_cons, List.intercalate_cons_cons, List.intercalate_cons_cons, ← List.map_cons, ← ih]
      simp [flattened]

theorem flattened_of_notMem {t : Text} (h : ':' ∉ t) : flattened t = t := by
  refine (List.map_congr_left (fun c hc => ?_)).trans (List.map_id t)
  have hne : c ≠ ':' := fun he => h (he ▸ hc)
  rw [if_neg hne, id]

variable {alphabet : Char → Prop} {p q owner : Owner}

theorem parts_cases (owner : Owner) :
    (parts owner).1 ∈ ["member".toList, "group".toList, "c2c".toList, "global".toList] ∧
      ∀ id ∈ (parts owner).2, id = owner.sender.userId ∨
        owner.sender.chatType = .group ∧ id = formatted owner.sender.groupId := by
  unfold parts
  cases owner.scope <;> cases owner.sender.chatType <;> simp

theorem notMem_fields (h : Over alphabet owner) {c : Char} (hc : ¬ alphabet c) (hs : c ∈ ['/', ':', '_']) :
    ∀ field ∈ fields owner, c ∉ field := by
  obtain ⟨hword, hids⟩ := parts_cases owner
  have hwords : ∀ c ∈ ['/', ':', '_'], c ≠ '-' ∧
      ∀ word ∈ ["member".toList, "group".toList, "c2c".toList, "global".toList], c ∉ word := by decide
  obtain ⟨hdash, hwords⟩ := hwords c hs
  intro field hf
  cases List.mem_cons.mp hf with
  | inl he =>
    rw [he]
    unfold prefixed
    split
    · exact hwords _ hword
    · next extra he =>
      have hextra : c ∉ extra := fun hm => hc (h.extra extra he c hm)
      simp [hextra, hdash, hwords _ hword]
  | inr hid =>
    cases hids field hid with
    | inl he => exact fun hm => hc (h.user c (he ▸ hm))
    | inr hg =>
      obtain ⟨group, he⟩ := h.grouped hg.1
      rw [hg.2, he]
      exact fun hm => hc (h.group group he c hm)

theorem rtakeWhile_prefixed (e : Option Text) {k : Text} (hk : '-' ∉ k) :
    (prefixed e k).rtakeWhile (· ≠ '-') = k := by
  have hall : ∀ c ∈ k.reverse, decide (c ≠ '-') = true := by
    intro c hc
    have hne : c ≠ '-' := fun he => hk (he ▸ List.mem_reverse.mp hc)
    simpa using hne
  cases e with
  | none =>
    rw [prefixed, List.rtakeWhile, List.takeWhile_eq_self_iff.mpr hall, List.reverse_reverse]
  | some extra =>
    rw [prefixed, List.rtakeWhile, List.reverse_append, List.reverse_cons, List.append_assoc,
      List.takeWhile_append_of_pos hall]
    simp

theorem prefixed_injective {e e' : Option Text} {k k' : Text} (hk : '-' ∉ k) (hk' : '-' ∉ k')
    (h : prefixed e k = prefixed e' k') : e = e' ∧ k = k' := by
  have hword : k = k' := by rw [← rtakeWhile_prefixed e hk, h, rtakeWhile_prefixed e' hk']
  subst hword
  refine ⟨?_, rfl⟩
  have hlength := congrArg List.length h
  cases e with
  | none =>
    cases e' with
    | none => rfl
    | some extra => simp [prefixed] at hlength; omega
  | some extra =>
    cases e' with
    | none => simp [prefixed] at hlength; omega
    | some extra' => rw [List.append_cancel_right h]

theorem twins_of_parts (hp : Over alphabet p) (hq : Over alphabet q) (hd : Differ p q)
    (he : p.extraIdentifier = q.extraIdentifier) (h : parts p = parts q) : Twins p q := by
  have hgp := hp.grouped
  have hgq := hq.grouped
  have hformatted : ∀ {g h : Option Text} {x y : Text}, g = some x → h = some y →
      formatted g = formatted h → g = h := by
    intro g h x y hx hy hxy
    rw [hx, hy] at hxy ⊢
    exact congrArg some hxy
  unfold Differ isInScope at hd
  unfold Twins
  unfold parts at h
  revert hd h hgp hgq
  cases p.scope <;> cases q.scope <;> cases p.sender.chatType <;> cases q.sender.chatType <;> simp [he]
  · exact fun hne hgroups husers x hx y hy => hne (hformatted hx hy hgroups) husers
  · exact fun hne hgroups x hx y hy => hne (hformatted hx hy hgroups)

theorem splitOn_flattened (h : Over alphabet owner) (hcolon : ¬ alphabet ':') (hline : ¬ alphabet '_') :
    (flattened (scopeKey owner)).splitOn '_' = fields owner := by
  have hfields : (fields owner).map flattened = fields owner := by
    refine (List.map_congr_left (fun field hf => ?_)).trans (List.map_id _)
    exact flattened_of_notMem (notMem_fields h hcolon (by decide) field hf)
  rw [scopeKey_eq, flattened_intercalate, hfields]
  exact List.splitOn_intercalate '_' (notMem_fields h hline (by decide)) (List.cons_ne_nil _ _)

theorem notMem_scopeKey (h : Over alphabet owner) (hslash : ¬ alphabet '/') : '/' ∉ scopeKey owner := by
  have hfields := notMem_fields h hslash (by decide)
  have hjoin : ∀ ls : List Text, (∀ l ∈ ls, '/' ∉ l) → '/' ∉ [':'].intercalate ls := by
    intro ls hls
    induction ls with
    | nil => exact List.not_mem_nil
    | cons l ls ih =>
      have hl := hls l List.mem_cons_self
      have hrest := ih (fun m hm => hls m (List.mem_cons_of_mem l hm))
      cases ls with
      | nil => simpa using hl
      | cons m ls =>
        rw [List.intercalate_cons_cons]
        simp [hl, hrest]
  rw [scopeKey_eq]
  exact hjoin _ hfields

end Keys

def Confined (dir : Text) (owner : Owner) : Prop :=
  DirectlyInside dir (getFilePath dir (scopeKey owner)) ∧
    ∀ random, '/' ∉ random → DirectlyInside dir (temporaryPath dir (scopeKey owner) random)

/-- Owners told apart have files of their own, but for one private sender under two scopes. -/
def Separate (dir : Text) (p q : Owner) : Prop :=
  Differ p q → (getFilePath dir (scopeKey p) ≠ getFilePath dir (scopeKey q) ↔ ¬ Twins p q)

variable {alphabet : Char → Prop} {dir : Text} {p q owner : Owner}

theorem confined_of_plain (h : Over alphabet owner) (hslash : ¬ alphabet '/') : Confined dir owner :=
  ⟨directlyInside_getFilePath (notMem_scopeKey h hslash), fun _ hr => directlyInside_temporaryPath hr⟩

theorem scopeKey_twins (h : Twins p q) : scopeKey p = scopeKey q := by
  obtain ⟨he, hne, hp, hq, hcp, hcq, hu⟩ := h
  have hkey : ∀ o : Owner, o.scope ≠ .global → o.sender.chatType = .c2c →
      getScopeKey o.scope o.sender = "c2c:".toList ++ o.sender.userId := by
    intro o ho hc
    unfold getScopeKey
    rw [hc]
    cases hs : o.scope with
    | global => exact absurd hs ho
    | member | group => rfl
  rw [scopeKey, scopeKey, he, hkey p hp hcp, hkey q hq hcq, hu]

theorem separate_of_plain (hp : Over alphabet p) (hq : Over alphabet q) (hslash : ¬ alphabet '/')
    (hcolon : ¬ alphabet ':') (hline : ¬ alphabet '_') : Separate dir p q := by
  refine fun hd => ⟨fun hne ht => hne (scopeKey_twins ht ▸ rfl), fun ht he => ?_⟩
  have hjson : '/' ∉ ".json".toList := by decide
  have hname : ∀ {o : Owner}, Over alphabet o → '/' ∉ flattened (scopeKey o) ++ ".json".toList := by
    intro o ho
    simp [notMem_flattened (notMem_scopeKey ho hslash)]
  have hkeys := List.append_cancel_right (joinPath_injective (hname hp) (hname hq) he)
  have hfields : fields p = fields q := by
    rw [← splitOn_flattened hp hcolon hline, hkeys, splitOn_flattened hq hcolon hline]
  have hdash : ∀ o : Owner, '-' ∉ (parts o).1 := by
    intro o
    have hwords : ∀ word ∈ ["member".toList, "group".toList, "c2c".toList, "global".toList], '-' ∉ word := by decide
    exact hwords _ (parts_cases o).1
  obtain ⟨hhead, htail⟩ := List.cons.inj hfields
  obtain ⟨hextra, hword⟩ := prefixed_injective (hdash p) (hdash q) hhead
  exact ht (twins_of_parts hp hq hd hextra (Prod.ext hword htail))

def groupOwner (scope : MemoryScope) (group user : Text) : Owner := ⟨none, scope, ⟨user, .group, some group⟩⟩

theorem over_groupOwner (scope : MemoryScope) {group user : Text} (hg : ∀ c ∈ group, alphabet c)
    (hu : ∀ c ∈ user, alphabet c) : Over alphabet (groupOwner scope group user) where
  extra _ he := (nomatch he)
  user := hu
  grouped _ := ⟨group, rfl⟩
  group _ he := Option.some.inj he ▸ hg

theorem shared_separator {c : Char} (hc : c = ':' ∨ c = '_') (dir : Text) :
    getFilePath dir (scopeKey (groupOwner .member [] [c])) = getFilePath dir (scopeKey (groupOwner .member [c] [])) := by
  have hkeys : ∀ c ∈ [':', '_'], flattened (scopeKey (groupOwner .member [] [c])) =
      flattened (scopeKey (groupOwner .member [c] [])) := by decide
  rw [getFilePath, getFilePath, hkeys c (by simpa using hc)]

theorem not_confined_slash (dir : Text) : ¬ Confined dir (groupOwner .group ['/'] []) := by
  intro h
  obtain ⟨name, hslash, _, he⟩ := h.1
  have hname : joinPath dir "group_/.json".toList = joinPath dir name := he
  have hhead : name.head? ≠ some '/' := fun hh => hslash (List.mem_of_head? hh)
  have hgroup : "group_/.json".toList.head? ≠ some '/' := by decide
  unfold joinPath at hname
  rw [if_neg hhead, if_neg hgroup] at hname
  have heq : "group_/.json".toList = name := by
    split at hname
    · exact List.append_cancel_left hname
    · exact (List.cons.inj (List.append_cancel_left hname)).2
  exact hslash (heq ▸ by decide)

end Kirara.MemoryFiles
