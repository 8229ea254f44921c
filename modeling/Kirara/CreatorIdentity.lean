import Kirara.ChannelContexts

namespace Kirara.CreatorIdentity

open Kirara.Channels Kirara.ChannelContexts Kirara.RunCollapse

/-- A channel identity declared to be the creator, as its validators leave it. -/
structure CreatorChannelIdentity where
  channelType : Text
  senderScope : Text
  accountScope : Option Text
  adapterInstance : Option Text
  allowGroupChat : Bool
  channelType_ne_nil : channelType ≠ []
  senderScope_ne_nil : senderScope ≠ []
  senderScope_stripped : strip senderScope = senderScope

def normalizeOptional (value : Option Text) : Option Text :=
  (value.map strip).filter (fun t => t ≠ [])

def CreatorChannelIdentity.validate (channelType senderScope : Text)
    (accountScope adapterInstance : Option Text) (allowGroupChat : Bool) :
    Except String CreatorChannelIdentity :=
  if hc : strip channelType ≠ [] then
    if hs : strip senderScope ≠ [] then
      .ok {
        channelType := strip channelType
        senderScope := strip senderScope
        accountScope := normalizeOptional accountScope
        adapterInstance := normalizeOptional adapterInstance
        allowGroupChat := allowGroupChat
        channelType_ne_nil := hc
        senderScope_ne_nil := hs
        senderScope_stripped := strip_strip senderScope }
    else .error "channel_type 与 sender_scope 不能为空"
  else .error "channel_type 与 sender_scope 不能为空"

structure RuntimePrincipal where
  subject : Text
  role : String
  scopes : List String
  isCreator : Bool

variable (lower : Text → Text)

/-- The comparisons of `_identity_matches` in their order. -/
def identityMatches (i : CreatorChannelIdentity) (c : ChannelContext) (isGroup : Bool) : Bool :=
  if isGroup && !i.allowGroupChat then false
  else if lower (strip i.channelType) ≠ c.channelType.text then false
  else if strip i.senderScope ≠ c.senderScope.text then false
  else if i.accountScope.any (fun t => strip t ≠ c.accountScope.text) then false
  else if i.adapterInstance.any (fun t => strip t ≠ c.adapterInstance.text) then false
  else true

def isGroup (c : ChannelContext) : Bool := groupPrefix.isPrefixOf c.conversationScope.text

def creatorSubject (subject : Option Text) : Option Text := subject.filter (fun t => strip t ≠ [])

def creatorPrincipal (identities : List CreatorChannelIdentity) (subject : Option Text)
    (c : ChannelContext) : Option RuntimePrincipal :=
  match identities.find? (fun i => identityMatches lower i c (isGroup c)) with
  | none => none
  | some _ => (creatorSubject subject).map (fun subject => ⟨subject, "admin", ["*"], true⟩)

/-- The principal of a dispatched message; one that the HTTP middleware has set is kept. -/
def dispatchPrincipal (current : Option RuntimePrincipal)
    (identities : List CreatorChannelIdentity) (subject : Option Text) (a : Adapter)
    (s : ChatSender) : Option RuntimePrincipal :=
  match current with
  | some principal => some principal
  | none => creatorPrincipal lower identities subject (fromMessage a s)

/-- Channel, account, instance and kind of chat are those the identity was declared for. -/
structure Covers (i : CreatorChannelIdentity) (a : Adapter) (s : ChatSender) : Prop where
  groupChat : s.chatType = .group → i.allowGroupChat = true
  channel : lower (strip i.channelType) = a.channel.text
  account : ∀ t ∈ i.accountScope, strip t = (fromMessage a s).accountScope.text
  adapter : ∀ t ∈ i.adapterInstance, strip t = a.instanceScope.text

/-- A raw sender id that consists of at most 256 identifier characters. -/
def Canonical (userId : Option Text) : Prop :=
  ∃ t, userId = some t ∧ t ≠ [] ∧ t.length ≤ 256 ∧ ∀ c ∈ t, identifierChar c = true

/-- The raw id reads as the legible `t` up to blanks, length and unusual characters. -/
def ReadsAs (userId : Option Text) (t : Text) : Prop :=
  (∀ c ∈ t, identifierChar c = true) ∧
    Alike identifierChar '_' t (kept identifierChar false 256 (present userId unknownSender.text))

/-- Only under the configured id is a sender taken for the creator or given a grant. -/
structure Sound (identities : List CreatorChannelIdentity) (subject : Option Text) (a : Adapter)
    (s : ChatSender) : Prop where
  comparison : ∀ i ∈ identities,
    identityMatches lower i (fromMessage a s) (isGroup (fromMessage a s)) = true →
      s.userId = some i.senderScope
  grant : (dispatchPrincipal lower none identities subject a s).isSome = true →
    ∃ i ∈ identities, Covers lower i a s ∧ s.userId = some i.senderScope

section Comparison

variable {lower} {a : Adapter} {s : ChatSender}

theorem isGroup_fromMessage : isGroup (fromMessage a s) = (s.chatType == .group) := by
  unfold isGroup
  rw [fromMessage_conversationScope, Bool.eq_iff_iff, List.isPrefixOf_iff_prefix]
  unfold conversation
  cases s.chatType with
  | group => simp [groupPrefix]
  | c2c => simp [groupPrefix, c2cPrefix]

theorem readsAs_iff (userId : Option Text) (t : Text) :
    ReadsAs userId t ↔ (cleanIdentifier userId unknownSender).text = t := by
  rw [ReadsAs, ← substitute_eq_iff_alike, substitute_kept, cleanIdentifier_text]
  constructor
  · rintro ⟨hl, h⟩
    rw [← h, substitute_of_kept hl]
  · intro h
    have hl : ∀ c ∈ t, identifierChar c = true := by
      rw [← h, ← cleanIdentifier_text]
      exact (cleanIdentifier userId unknownSender).legible
    exact ⟨hl, by rw [substitute_of_kept hl, h]⟩

theorem any_ne_eq_true_iff (o : Option Text) (u : Text) :
    o.any (fun t => strip t ≠ u) = true ↔ ¬ ∀ t ∈ o, strip t = u := by
  cases o <;> simp

theorem identityMatches_iff (i : CreatorChannelIdentity) :
    identityMatches lower i (fromMessage a s) (isGroup (fromMessage a s)) = true ↔
      Covers lower i a s ∧ ReadsAs s.userId i.senderScope := by
  rw [readsAs_iff, isGroup_fromMessage]
  unfold identityMatches
  rw [i.senderScope_stripped, fromMessage_channelType, fromMessage_senderScope, fromMessage_adapterInstance]
  have hgroup : (s.chatType == .group && !i.allowGroupChat) = true ↔
      ¬ (s.chatType = .group → i.allowGroupChat = true) := by
    cases s.chatType <;> simp
  constructor
  · intro h
    split_ifs at h with hg hc hs ha hi
    exact ⟨⟨not_not.mp (mt hgroup.mpr hg), not_not.mp hc, not_not.mp (mt (any_ne_eq_true_iff _ _).mpr ha),
      not_not.mp (mt (any_ne_eq_true_iff _ _).mpr hi)⟩, (not_not.mp hs).symm⟩
  · rintro ⟨⟨hg, hc, ha, hi⟩, hs⟩
    rw [if_neg (fun h => hgroup.mp h hg), if_neg (not_not.mpr hc), if_neg (not_not.mpr hs.symm),
      if_neg (fun h => (any_ne_eq_true_iff _ _).mp h ha),
      if_neg (fun h => (any_ne_eq_true_iff _ _).mp h hi)]

theorem grant_iff (identities : List CreatorChannelIdentity) (subject : Option Text) :
    (dispatchPrincipal lower none identities subject a s).isSome = true ↔
      (creatorSubject subject).isSome = true ∧
        ∃ i ∈ identities, Covers lower i a s ∧ ReadsAs s.userId i.senderScope := by
  simp only [← identityMatches_iff, ← List.find?_isSome]
  unfold dispatchPrincipal creatorPrincipal
  cases identities.find? _ <;> simp

theorem eq_of_readsAs {t : Text} (hu : Canonical s.userId) (h : ReadsAs s.userId t) : s.userId = some t := by
  obtain ⟨u, he, hne, hb, hl⟩ := hu
  rw [readsAs_iff, he, cleanIdentifier_legible hne hl, List.take_of_length_le hb] at h
  rw [he, h]

theorem canonical_of_readsAs {t : Text} (h : ReadsAs s.userId t) (he : s.userId = some t) :
    Canonical s.userId := by
  have hc := (readsAs_iff s.userId t).mp h
  refine ⟨t, he, ?_, ?_, h.1⟩
  · rw [← hc]
    exact (cleanIdentifier s.userId unknownSender).nonempty
  · rw [← hc]
    exact (cleanIdentifier s.userId unknownSender).bounded

/-- A sender is taken for the creator under a foreign id exactly when the own id
is no identifier and an identity that covers the message names what it reads as. -/
theorem sound_iff (lower : Text → Text) (identities : List CreatorChannelIdentity)
    (subject : Option Text) (a : Adapter) (s : ChatSender) : Sound lower identities subject a s ↔
      Canonical s.userId ∨
        ∀ i ∈ identities, Covers lower i a s → ¬ ReadsAs s.userId i.senderScope := by
  constructor
  · intro h
    by_cases hu : Canonical s.userId
    · exact Or.inl hu
    refine Or.inr (fun i hi hc hr => hu ?_)
    have he := h.comparison i hi ((identityMatches_iff i).mpr ⟨hc, hr⟩)
    exact canonical_of_readsAs hr he
  · intro h
    have hnamed : ∀ i ∈ identities, Covers lower i a s → ReadsAs s.userId i.senderScope →
        s.userId = some i.senderScope := by
      intro i hi hc hr
      cases h with
      | inl hu => exact eq_of_readsAs hu hr
      | inr hn => exact absurd hr (hn i hi hc)
    constructor
    · intro i hi hm
      obtain ⟨hc, hr⟩ := (identityMatches_iff i).mp hm
      exact hnamed i hi hc hr
    · intro hg
      obtain ⟨-, i, hi, hc, hr⟩ := (grant_iff identities subject).mp hg
      exact ⟨i, hi, hc, hnamed i hi hc hr⟩

end Comparison

def declaredCreator : CreatorChannelIdentity where
  channelType := "http".toList
  senderScope := "zhang_san".toList
  accountScope := none
  adapterInstance := none
  allowGroupChat := false
  channelType_ne_nil := by decide
  senderScope_ne_nil := by decide
  senderScope_stripped := by decide +kernel

/-- The sender `zhang san` is taken for the declared creator `zhang_san`. -/
theorem other_sender_gets_principal :
    (dispatchPrincipal (List.map Char.toLower) none [declaredCreator] (some "owner".toList)
        httpAdapter ⟨.c2c, some "zhang san".toList, none, none⟩).isSome = true ∧
      ¬ Sound (List.map Char.toLower) [declaredCreator] (some "owner".toList) httpAdapter
        ⟨.c2c, some "zhang san".toList, none, none⟩ := by
  have hmatch : identityMatches (List.map Char.toLower) declaredCreator
      (fromMessage httpAdapter ⟨.c2c, some "zhang san".toList, none, none⟩)
      (isGroup (fromMessage httpAdapter ⟨.c2c, some "zhang san".toList, none, none⟩)) = true := by
    decide +kernel
  refine ⟨by decide +kernel, fun h => ?_⟩
  have he := h.comparison declaredCreator (List.mem_singleton.mpr rfl) hmatch
  revert he
  decide +kernel

end Kirara.CreatorIdentity
