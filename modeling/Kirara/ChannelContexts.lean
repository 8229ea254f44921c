import Kirara.Channels

namespace Kirara.ChannelContexts

open Kirara.Channels Kirara.RunCollapse

inductive ChatType where
  | c2c
  | group
  deriving DecidableEq, Repr

/-- The parts of a sender a context is built from, the metadata for OneBot events only. -/
structure ChatSender where
  chatType : ChatType
  userId : Option Text
  groupId : Option Text
  onebotSelfId : Option Text

/-- The fields of a configuration that can name its account, in the order of trial. -/
structure AdapterConfig where
  accountScope : Option Text
  accountId : Option Text
  appId : Option Text
  corpId : Option Text
  botId : Option Text
  agentId : Option Text

structure Adapter where
  className : Text
  channelType : Option Text
  adapterType : Option Text
  adapterInstance : Option Text
  name : Option Text
  accountScope : Option Text
  accountId : Option Text
  config : AdapterConfig

structure ChannelContext where
  channelType : Identifier
  adapterInstance : Identifier
  accountScope : Identifier
  conversationScope : Identifier
  senderScope : Identifier

def ChannelContext.create (channelType adapterInstance accountScope conversationScope
    senderScope : Text) : ChannelContext where
  channelType := cleanIdentifier (some channelType) unknown
  adapterInstance := cleanIdentifier (some adapterInstance) unknown
  accountScope := cleanIdentifier (some accountScope) unknown
  conversationScope := cleanIdentifier (some conversationScope) unknown
  senderScope := cleanIdentifier (some senderScope) unknown

def removeSuffix (t suffix : Text) : Text :=
  if suffix.isSuffixOf t then t.take (t.length - suffix.length) else t

def Adapter.channel (a : Adapter) : Identifier :=
  (cleanIdentifier (a.channelType <|> a.adapterType <|> some (removeSuffix a.className "Adapter".toList))
    unknown).lower

def Adapter.instanceScope (a : Adapter) : Identifier :=
  cleanIdentifier (a.adapterInstance <|> a.name) defaultScope

def AdapterConfig.account (c : AdapterConfig) : Option Text :=
  [c.accountScope, c.accountId, c.appId, c.corpId, c.botId, c.agentId].findSome?
    (fun candidate => candidate.filter (fun t => strip t ≠ []))

def eventAccount (a : Adapter) (s : ChatSender) : Option Text :=
  if a.channel.text = "onebot".toList then s.onebotSelfId else none

def account (a : Adapter) (s : ChatSender) : Text :=
  (eventAccount a s <|> a.accountScope <|> a.accountId <|> a.config.account).getD
    a.instanceScope.text

def groupPrefix : Text := "group:".toList

def c2cPrefix : Text := "c2c:".toList

def conversation (s : ChatSender) (senderScope : Identifier) : Text :=
  match s.chatType with
  | .group => groupPrefix ++ (cleanIdentifier s.groupId unknownGroup).text
  | .c2c => c2cPrefix ++ senderScope.text

def fromMessage (a : Adapter) (s : ChatSender) : ChannelContext :=
  let senderScope := cleanIdentifier s.userId unknownSender
  .create a.channel.text a.instanceScope.text
    (cleanIdentifier (some (account a s)) defaultScope).text (conversation s senderScope)
    senderScope.text

def sessionComponents (c : ChannelContext) : List Identifier :=
  [c.channelType, c.adapterInstance, c.accountScope, c.conversationScope, c.senderScope]

def hexDigit (n : Nat) : Char := "0123456789ABCDEF".toList.getD n '0'

/-- The characters `quote` leaves alone when it is called with `safe="._:@-"`. -/
def quoteSafe (c : Char) : Bool := c.isAlphanum || c ∈ ['_', '.', '-', '~', ':', '@']

def quote (t : Text) : Text :=
  t.flatMap (fun c =>
    if quoteSafe c then [c]
    else (String.utf8EncodeChar c).flatMap
      (fun b => ['%', hexDigit (b.toNat / 16), hexDigit (b.toNat % 16)]))

def joinScopes (components : List Text) : Text := ['/'].intercalate components

def sessionKey (c : ChannelContext) : Text :=
  joinScopes ((sessionComponents c).map (fun i => quote i.text))

def legacySessionKey (c : ChannelContext) : Text :=
  joinScopes ((sessionComponents c).map Identifier.text)

def httpAdapter : Adapter where
  className := "HttpLegacyAdapter".toList
  channelType := some "http".toList
  adapterType := none
  adapterInstance := some "http".toList
  name := none
  accountScope := none
  accountId := none
  config := ⟨none, none, none, none, none, none⟩

section Scopes

variable (a : Adapter) (s : ChatSender)

@[simp] theorem fromMessage_channelType : (fromMessage a s).channelType = a.channel :=
  cleanIdentifier_self _ _

@[simp] theorem fromMessage_adapterInstance : (fromMessage a s).adapterInstance = a.instanceScope :=
  cleanIdentifier_self _ _

@[simp] theorem fromMessage_accountScope :
    (fromMessage a s).accountScope = cleanIdentifier (some (account a s)) defaultScope :=
  cleanIdentifier_self _ _

@[simp] theorem fromMessage_senderScope :
    (fromMessage a s).senderScope = cleanIdentifier s.userId unknownSender :=
  cleanIdentifier_self _ _

theorem prefixed_legible {p : Text} (hp : ∀ c ∈ p, identifierChar c = true) (i : Identifier) :
    ∀ c ∈ p ++ i.text, identifierChar c = true := by
  intro c hc
  cases List.mem_append.mp hc with
  | inl h => exact hp c h
  | inr h => exact i.legible c h

theorem conversation_legible (i : Identifier) :
    conversation s i ≠ [] ∧ ∀ c ∈ conversation s i, identifierChar c = true := by
  unfold conversation
  cases s.chatType with
  | group =>
    exact ⟨by simp [groupPrefix], prefixed_legible (legible_of_all (by decide)) _⟩
  | c2c =>
    exact ⟨by simp [c2cPrefix], prefixed_legible (legible_of_all (by decide)) i⟩

theorem fromMessage_conversationScope : (fromMessage a s).conversationScope.text =
    (conversation s (cleanIdentifier s.userId unknownSender)).take 256 :=
  cleanIdentifier_legible (conversation_legible s _).1 (conversation_legible s _).2 unknown

end Scopes

theorem quote_cons (c : Char) (t : Text) : quote (c :: t) = quote [c] ++ quote t := by
  simp [quote]

theorem quote_identifierChar {c : Char} (h : identifierChar c = true) :
    quote [c] = if c = '/' then ['%', '2', 'F'] else [c] := by
  by_cases hc : c = '/'
  · subst hc
    decide +kernel
  · have hs : quoteSafe c = true := by
      simp only [identifierChar, quoteSafe, Bool.or_eq_true, decide_eq_true_eq, List.mem_cons,
        List.not_mem_nil, or_false] at h ⊢
      tauto
    simp [quote, hs, hc]

theorem quote_of_no_separator {t : Text} (hl : ∀ c ∈ t, identifierChar c = true) (ht : '/' ∉ t) :
    quote t = t := by
  induction t with
  | nil => rfl
  | cons c t ih =>
    have hc : c ≠ '/' := fun h => ht (h ▸ List.mem_cons_self)
    have hq := ih (fun d hd => hl d (List.mem_cons_of_mem c hd))
      (fun h => ht (List.mem_cons_of_mem c h))
    rw [quote_cons, quote_identifierChar (hl c List.mem_cons_self), if_neg hc, hq]
    rfl

theorem quote_mem {t : Text} (hl : ∀ c ∈ t, identifierChar c = true) {d : Char}
    (hd : d ∈ quote t) : d ≠ '/' ∧ (identifierChar d = true ∨ d = '%') := by
  induction t with
  | nil => cases hd
  | cons c t ih =>
    rw [quote_cons, List.mem_append, quote_identifierChar (hl c List.mem_cons_self)] at hd
    cases hd with
    | inr h => exact ih (fun e he => hl e (List.mem_cons_of_mem c he)) h
    | inl h =>
      split at h
      · have hsep : ∀ e ∈ ['%', '2', 'F'], e ≠ '/' ∧ (identifierChar e = true ∨ e = '%') := by
          simp [identifierChar]
        exact hsep d h
      · next hc =>
        rw [List.mem_singleton] at h
        rw [h]
        exact ⟨hc, Or.inl (hl c List.mem_cons_self)⟩

theorem quote_injective {t u : Text} (ht : ∀ c ∈ t, identifierChar c = true)
    (hu : ∀ c ∈ u, identifierChar c = true) (h : quote t = quote u) : t = u := by
  induction t generalizing u with
  | nil =>
    cases u with
    | nil => rfl
    | cons d u =>
      rw [quote_cons, quote_identifierChar (hu d List.mem_cons_self)] at h
      split at h <;> simp [quote] at h
  | cons c t ih =>
    have hc := ht c List.mem_cons_self
    have htt : ∀ e ∈ t, identifierChar e = true := fun e he => ht e (List.mem_cons_of_mem c he)
    rw [quote_cons, quote_identifierChar hc] at h
    cases u with
    | nil => split at h <;> simp [quote] at h
    | cons d u =>
      have hd := hu d List.mem_cons_self
      have huu : ∀ e ∈ u, identifierChar e = true := fun e he => hu e (List.mem_cons_of_mem d he)
      rw [quote_cons d, quote_identifierChar hd] at h
      -- a percent sign is no identifier character, so both start the same way
      have hp : identifierChar '%' = false := by decide
      by_cases hcs : c = '/' <;> by_cases hds : d = '/'
      · rw [if_pos hcs, if_pos hds] at h
        rw [hcs, hds, ih htt huu (List.append_cancel_left h)]
      · rw [if_pos hcs, if_neg hds] at h
        simp only [List.cons_append, List.cons.injEq] at h
        rw [← h.1, hp] at hd
        cases hd
      · rw [if_neg hcs, if_pos hds] at h
        simp only [List.cons_append, List.cons.injEq] at h
        rw [h.1, hp] at hc
        cases hc
      · rw [if_neg hcs, if_neg hds] at h
        simp only [List.cons_append, List.nil_append, List.cons.injEq] at h
        rw [h.1, ih htt huu h.2]

theorem append_separator_inj {x y u v : Text} {sep : Char} (hx : sep ∉ x) (hy : sep ∉ y)
    (h : x ++ sep :: u = y ++ sep :: v) : x = y ∧ u = v := by
  induction x generalizing y with
  | nil =>
    cases y with
    | nil => exact ⟨rfl, by simpa using h⟩
    | cons d y =>
      simp only [List.nil_append, List.cons_append, List.cons.injEq] at h
      exact absurd (h.1 ▸ List.mem_cons_self) hy
  | cons c x ih =>
    cases y with
    | nil =>
      simp only [List.nil_append, List.cons_append, List.cons.injEq] at h
      exact absurd (h.1 ▸ List.mem_cons_self) hx
    | cons d y =>
      simp only [List.cons_append, List.cons.injEq] at h
      obtain ⟨hxy, huv⟩ := ih (fun hm => hx (List.mem_cons_of_mem c hm))
        (fun hm => hy (List.mem_cons_of_mem d hm)) h.2
      exact ⟨by rw [h.1, hxy], huv⟩

theorem joinScopes_five (u v w x y : Text) :
    joinScopes [u, v, w, x, y] = u ++ '/' :: (v ++ '/' :: (w ++ '/' :: (x ++ '/' :: y))) := by
  simp [joinScopes, List.intercalate_cons_cons]

theorem quote_no_separator (i : Identifier) : '/' ∉ quote i.text :=
  fun h => (quote_mem i.legible h).1 rfl

theorem sessionKey_injective {c d : ChannelContext} (h : sessionKey c = sessionKey d) : c = d := by
  have hq : ∀ i j : Identifier, quote i.text = quote j.text → i = j := fun i j hij =>
    Identifier.ext (quote_injective i.legible j.legible hij)
  obtain ⟨c1, c2, c3, c4, c5⟩ := c
  obtain ⟨d1, d2, d3, d4, d5⟩ := d
  simp only [sessionKey, sessionComponents, List.map_cons, List.map_nil, joinScopes_five] at h
  obtain ⟨h1, h⟩ := append_separator_inj (quote_no_separator _) (quote_no_separator _) h
  obtain ⟨h2, h⟩ := append_separator_inj (quote_no_separator _) (quote_no_separator _) h
  obtain ⟨h3, h⟩ := append_separator_inj (quote_no_separator _) (quote_no_separator _) h
  obtain ⟨h4, h5⟩ := append_separator_inj (quote_no_separator _) (quote_no_separator _) h
  rw [hq _ _ h1, hq _ _ h2, hq _ _ h3, hq _ _ h4, hq _ _ h5]

theorem sessionKey_mem {c : ChannelContext} {d : Char} (hd : d ∈ sessionKey c) :
    identifierChar d = true ∨ d = '%' := by
  simp only [sessionKey, sessionComponents, List.map_cons, List.map_nil, joinScopes_five,
    List.mem_append, List.mem_cons] at hd
  have hs : identifierChar '/' = true := by decide
  obtain h | rfl | h | rfl | h | rfl | h | rfl | h := hd
  · exact (quote_mem c.channelType.legible h).2
  · exact Or.inl hs
  · exact (quote_mem c.adapterInstance.legible h).2
  · exact Or.inl hs
  · exact (quote_mem c.accountScope.legible h).2
  · exact Or.inl hs
  · exact (quote_mem c.conversationScope.legible h).2
  · exact Or.inl hs
  · exact (quote_mem c.senderScope.legible h).2

theorem eq_of_sessionKey_eq_legacy {c d : ChannelContext} (h : sessionKey c = legacySessionKey d) : c = d := by
  have hcount : ∀ i : Identifier, (quote i.text).count '/' = 0 := fun i =>
    List.count_eq_zero.mpr (quote_no_separator i)
  have hzero := congrArg (List.count '/') h
  simp only [sessionKey, legacySessionKey, sessionComponents, List.map_cons, List.map_nil,
    joinScopes_five, List.count_append, List.count_cons_self, hcount] at hzero
  have hplain : ∀ i : Identifier, i.text.count '/' = 0 → quote i.text = i.text := fun i hi =>
    quote_of_no_separator i.legible (List.count_eq_zero.mp hi)
  apply sessionKey_injective
  rw [h]
  simp only [sessionKey, legacySessionKey, sessionComponents, List.map_cons, List.map_nil]
  rw [hplain _ (by omega), hplain _ (by omega), hplain _ (by omega), hplain _ (by omega),
    hplain _ (by omega)]

end Kirara.ChannelContexts

namespace Kirara.SessionIsolation

open Kirara.Channels Kirara.ChannelContexts Kirara.RunCollapse

def lowerHexDigit (n : Nat) : Char := "0123456789abcdef".toList.getD n '0'

def unicodeEscape (n : Nat) : Text :=
  ['\\', 'u', lowerHexDigit (n / 4096 % 16), lowerHexDigit (n / 256 % 16),
    lowerHexDigit (n / 16 % 16), lowerHexDigit (n % 16)]

/-- A character as `json.dumps` writes it; beyond the basic plane it writes two surrogates. -/
def jsonEscapeChar (c : Char) : Text :=
  if c = '"' then ['\\', '"']
  else if c = '\\' then ['\\', '\\']
  else if c = '\n' then ['\\', 'n']
  else if c = '\r' then ['\\', 'r']
  else if c = '\t' then ['\\', 't']
  else if c.toNat = 12 then ['\\', 'f']
  else if c.toNat = 8 then ['\\', 'b']
  else if 32 ≤ c.toNat ∧ c.toNat ≤ 126 then [c]
  else if c.toNat < 0x10000 then unicodeEscape c.toNat
  else unicodeEscape (0xd800 + (c.toNat - 0x10000) / 1024) ++
    unicodeEscape (0xdc00 + (c.toNat - 0x10000) % 1024)

def jsonString (t : Text) : Text := '"' :: (t.flatMap jsonEscapeChar ++ ['"'])

def digestSource (key : Text) (agentId : Option Text) : Text :=
  match agentId with
  | none => key
  | some agentId => '[' :: (jsonString key ++ ',' :: (jsonString agentId ++ [']']))

def historyPath {δ : Type} (digest : Text → δ) (key : Text) (agentId : Option Text) : δ :=
  digest (digestSource key agentId)

def sessionDigest {δ : Type} (digest : Text → δ) (key : Text) : δ := digest key

def boundKey {α : Type} (sessionBindings : Text → Option α) (c : ChannelContext) : Option Text :=
  if (sessionBindings (sessionKey c)).isSome then some (sessionKey c)
  else if (sessionBindings (legacySessionKey c)).isSome then some (legacySessionKey c)
  else none

/-- Two conversations that share nothing that is stored for a session. -/
structure Isolated (c d : ChannelContext) : Prop where
  keys : sessionKey c ≠ sessionKey d
  history : ∀ (digest : Text → Text), digest.Injective → ∀ agentC agentD : Option Text,
    historyPath digest (sessionKey c) agentC ≠ historyPath digest (sessionKey d) agentD
  confirmations : ∀ (digest : Text → Text), digest.Injective →
    sessionDigest digest (sessionKey c) ≠ sessionDigest digest (sessionKey d)
  bindings : ∀ (sessionBindings : Text → Option Text) key, boundKey sessionBindings c = some key →
    boundKey sessionBindings d ≠ some key

theorem jsonEscape_sessionKey {t : Text} (h : ∀ c ∈ t, identifierChar c = true ∨ c = '%') :
    t.flatMap jsonEscapeChar = t := by
  have hall : ∀ n < 128, identifierChar (Char.ofNat n) = true →
      jsonEscapeChar (Char.ofNat n) = [Char.ofNat n] := by
    decide +kernel
  induction t with
  | nil => rfl
  | cons c t ih =>
    have hc : jsonEscapeChar c = [c] := by
      cases h c List.mem_cons_self with
      | inl hi =>
        exact ascii_induction (P := fun c => identifierChar c = true → jsonEscapeChar c = [c]) hall
          (identifierChar_ascii hi) hi
      | inr hp =>
        rw [hp]
        decide
    rw [List.flatMap_cons, hc, ih (fun d hd => h d (List.mem_cons_of_mem c hd))]
    rfl

theorem sessionKey_no_quotation_mark (c : ChannelContext) : '"' ∉ sessionKey c := by
  intro h
  have hm := sessionKey_mem h
  revert hm
  decide

theorem digestSource_injective {c d : ChannelContext} {a b : Option Text}
    (h : digestSource (sessionKey c) a = digestSource (sessionKey d) b) : sessionKey c = sessionKey d := by
  have hescape : ∀ e : ChannelContext, (sessionKey e).flatMap jsonEscapeChar = sessionKey e :=
    fun e => jsonEscape_sessionKey (fun _ hx => sessionKey_mem hx)
  cases a with
  | none =>
    cases b with
    | none => exact h
    | some b =>
      refine absurd ?_ (sessionKey_no_quotation_mark c)
      have hc : sessionKey c = digestSource (sessionKey d) (some b) := h
      rw [hc]
      simp [digestSource, jsonString]
  | some a =>
    cases b with
    | none =>
      refine absurd ?_ (sessionKey_no_quotation_mark d)
      have hd : digestSource (sessionKey c) (some a) = sessionKey d := h
      rw [← hd]
      simp [digestSource, jsonString]
    | some b =>
      simp only [digestSource, jsonString, hescape, List.cons_append, List.append_assoc,
        List.cons.injEq, true_and, List.nil_append] at h
      exact (append_separator_inj (sessionKey_no_quotation_mark c) (sessionKey_no_quotation_mark d) h).1

theorem isolated_iff {c d : ChannelContext} : Isolated c d ↔ legacySessionKey c ≠ legacySessionKey d := by
  constructor
  · intro h he
    -- one binding under the common key applies to both
    refine h.bindings (fun k => if k = legacySessionKey c then some [] else none)
      (legacySessionKey c) ?_ ?_
    · simp [boundKey]
    · simp [boundKey, ← he]
  · intro h
    have hkeys : sessionKey c ≠ sessionKey d := fun hk =>
      h (by rw [sessionKey_injective hk])
    have hcross : ∀ {e f : ChannelContext}, legacySessionKey e ≠ legacySessionKey f →
        sessionKey e ≠ legacySessionKey f := fun hne he =>
      hne (by rw [eq_of_sessionKey_eq_legacy he])
    refine ⟨hkeys, ?_, ?_, ?_⟩
    · intro digest hi agentC agentD hp
      exact hkeys (digestSource_injective (hi hp))
    · intro digest hi hp
      exact hkeys (hi hp)
    · intro sessionBindings key hc hd
      unfold boundKey at hc hd
      split_ifs at hc hd <;> rw [← hd, Option.some.injEq] at hc
      · exact hkeys hc
      · exact hcross h hc
      · exact hcross (Ne.symm h) hc.symm
      · exact h hc

variable (a : Adapter) (s : ChatSender)

/-- The ids of a message, each cut where its identifier is cut. -/
def spelled : Text :=
  let user := present s.userId unknownSender.text
  kept identifierChar false 256 (present (some (account a s)) defaultScope.text) ++ '/' ::
    ((match s.chatType with
      | .group => groupPrefix ++ kept identifierChar false 250 (present s.groupId unknownGroup.text)
      | .c2c => c2cPrefix ++ kept identifierChar false 252 user) ++ '/' ::
    kept identifierChar false 256 user)

theorem take_prefixed (p : Text) (i : Identifier) :
    (p ++ i.text).take 256 = p.take 256 ++ i.text.take (256 - p.length) :=
  List.take_append

theorem substitute_spelled : substitute identifierChar '_' false (spelled a s) =
    (fromMessage a s).accountScope.text ++ '/' ::
      ((fromMessage a s).conversationScope.text ++ '/' :: (fromMessage a s).senderScope.text) := by
  have hsep : identifierChar '/' = true := by decide
  have hgroup : ∀ c ∈ groupPrefix, identifierChar c = true := legible_of_all (by decide)
  have hc2c : ∀ c ∈ c2cPrefix, identifierChar c = true := legible_of_all (by decide)
  rw [fromMessage_accountScope, fromMessage_senderScope, fromMessage_conversationScope]
  simp only [spelled]
  rw [substitute_append_kept hsep, substitute_append_kept hsep, substitute_kept, substitute_kept,
    cleanIdentifier_text, cleanIdentifier_text]
  cases hs : s.chatType with
  | group =>
    simp only [conversation, hs]
    rw [substitute_kept_append hgroup, substitute_kept, take_prefixed, cleanIdentifier_text, List.take_take]
    rfl
  | c2c =>
    simp only [conversation, hs]
    rw [substitute_kept_append hc2c, substitute_kept, take_prefixed, cleanIdentifier_text, List.take_take]
    rfl

theorem legacySessionKey_eq_iff (s t : ChatSender) :
    legacySessionKey (fromMessage a s) = legacySessionKey (fromMessage a t) ↔
      Alike identifierChar '_' (spelled a s) (spelled a t) := by
  rw [← substitute_eq_iff_alike, substitute_spelled, substitute_spelled]
  simp only [legacySessionKey, sessionComponents, List.map_cons, List.map_nil, joinScopes_five,
    fromMessage_channelType, fromMessage_adapterInstance]
  rw [List.append_cancel_left_eq, List.cons.injEq, List.append_cancel_left_eq, List.cons.injEq]
  simp

/-- Two messages to one adapter are kept apart exactly when their ids can be told apart once
every run of other characters reads as one underscore. -/
theorem isolated_iff_not_alike (s t : ChatSender) : Isolated (fromMessage a s) (fromMessage a t) ↔
      ¬ Alike identifierChar '_' (spelled a s) (spelled a t) :=
  isolated_iff.trans (not_congr (legacySessionKey_eq_iff a s t))

def privateSender (userId : String) : ChatSender := ⟨.c2c, some userId.toList, none, none⟩

/-- Two people whose ids consist of other characters share one session key. -/
theorem other_characters_merge_conversations : (privateSender "张三").userId ≠ (privateSender "李四").userId ∧
      ¬ Isolated (fromMessage httpAdapter (privateSender "张三"))
        (fromMessage httpAdapter (privateSender "李四")) := by
  refine ⟨by decide, fun h => h.keys ?_⟩
  decide +kernel

end Kirara.SessionIsolation
