import Kirara.Rectifier

namespace Kirara.Rectifications

open Kirara.Channels Kirara.Rectifier

/-- The same under all keys but some. -/
def Agree (keys : List String) (d d' : Body) : Prop := ∀ key ∉ keys, d' key = d key

/-- The same under all keys but one, which is there in both or in none. -/
def At (key : String) (R : Json → Json → Prop) (d d' : Body) : Prop := Agree [key] d d' ∧ Option.Rel R (d key) (d' key)

inductive InDict (R : Body → Body → Prop) : Json → Json → Prop where
  | same (v : Json) : InDict R v v
  | dict {d d' : Body} (h : R d d') : InDict R (.dict d) (.dict d')

/-- What becomes of each item of a list, which may be left out. -/
inductive InItems (R : Json → Option Json → Prop) : Json → Json → Prop where
  | same (v : Json) : InItems R v v
  | list {f : Json → Option Json} (vs : List Json) (h : ∀ v, R v (f v)) : InItems R (.list vs) (.list (vs.filterMap f))

/-- An image gives way to a text. -/
inductive Shown (isImage : Body → Bool) (placeholder : Body) : Json → Option Json → Prop where
  | same (v : Json) : Shown isImage placeholder v (some v)
  | image {d : Body} (h : isImage d = true) : Shown isImage placeholder (.dict d) (some (.dict placeholder))

/-- Moreover a block of thinking goes, and another loses its signature. -/
inductive BlockChange (v : Json) : Option Json → Prop where
  | shown {r : Option Json} (h : Shown isImageBlock textBlock v r) : BlockChange v r
  | thinking {d : Body} (hv : v = .dict d) (h : (isThinking d || isRedactedThinking d) = true) : BlockChange v none
  | signature {d : Body} (hv : v = .dict d) : BlockChange v (some (.dict (pop d "signature")))

/-- Each message may change, none goes. -/
def Message (R : Body → Body → Prop) (v : Json) (r : Option Json) : Prop := ∃ v' ∈ r, InDict R v v'

def GenerationChange (g next : Body) : Prop :=
  Agree ["thinkingConfig", "maxOutputTokens"] g next ∧
    (next "thinkingConfig" = none ∨
      Option.Rel (InDict (Agree ["thinkingBudget"])) (g "thinkingConfig") (next "thinkingConfig"))

/-- The fields of a shape, and what may become of them. -/
def Allowed : Shape → Body → Body → Prop
  | .messages, d, d' =>
    At "messages" (InItems (Message (At "content" (InItems BlockChange)))) d d' ∨
      Agree ["thinking", "max_tokens"] d d' ∨ d' = pop d "reasoning_effort"
  | .gemini, d, d' =>
    At "contents" (InItems (Message (At "parts" (InItems (Shown isImagePart textPart))))) d d' ∨
      At "generationConfig" (InDict GenerationChange) d d'
  | .ollama, d, d' => At "messages" (InItems (Message (Agree ["images", "content"]))) d d' ∨ d' = pop d "think"

def dictAt (key : String) (d : Body) : Body :=
  match d key with
  | some (.dict d') => d'
  | _ => fields []

/-- The budget for thinking and the maximum of output tokens, if numbers. -/
def limits : Shape → Body → Option Int × Option Int
  | .messages, d => ((dictAt "thinking" d "budget_tokens").bind asInt, (d "max_tokens").bind asInt)
  | .gemini, d =>
    let generation := dictAt "generationConfig" d
    ((dictAt "thinkingConfig" generation "thinkingBudget").bind asInt, (generation "maxOutputTokens").bind asInt)
  | .ollama, _ => (none, none)

/-- A rectified budget is below the maximum, and other rectifications leave both or take the
budget out. -/
def Room (shape : Shape) (kind : Kind) (d d' : Body) : Prop :=
  if kind = .thinkingBudget then ∃ b m, limits shape d' = (some b, some m) ∧ b < m
  else (limits shape d').1 = none ∨ limits shape d' = limits shape d

structure Changes (shape : Shape) (kind : Kind) (d : Body) (p : Body × RectifyRecord) : Prop where
  recorded : p.2.kind = kind
  allowed : Allowed shape d p.1
  room : p.2.applied = true → Room shape kind d p.1

variable {key : String} {d : Body} {shape : Shape} {kind : Kind}

theorem agree_update (d : Body) (key : String) (v : Option Json) : Agree [key] d (Function.update d key v) :=
  fun _ hk => Function.update_of_ne (List.mem_singleton.not.mp hk) _ _

variable {R : Json → Json → Prop}

theorem at_set {v v' : Json} (hv : d key = some v) (h : R v v') : At key R d (set d key v') := by
  refine ⟨agree_update d key _, ?_⟩
  have hself : set d key v' key = some v' := Function.update_self ..
  rw [hv, hself]
  exact .some h

theorem at_modify {f : Json → Json} (h : ∀ v, R v (f v)) (d : Body) : At key R d (modify key f d) := by
  refine ⟨agree_update d key _, ?_⟩
  have hself : modify key f d key = (d key).map f := Function.update_self ..
  rw [hself]
  cases d key with
  | none => exact .none
  | some v => exact .some (h v)

theorem at_self (h : ∀ v, R v v) (d : Body) : At key R d d := by
  refine ⟨fun _ _ => rfl, ?_⟩
  cases d key with
  | none => exact .none
  | some v => exact .some (h v)

theorem inItems_change {R : Json → Option Json → Prop} {f : Json → Option Json} (h : ∀ v, R v (f v)) (v : Json) :
    InItems R v (inItems f v) := by
  cases v with
  | list vs => exact .list vs h
  | _ => exact .same _

theorem inDict_change {R : Body → Body → Prop} {f : Body → Body} (h : ∀ d, R d (f d)) (v : Json) :
    InDict R v (inDict f v) := by
  cases v with
  | dict d => exact .dict (h d)
  | _ => exact .same _

theorem messages_change {R : Body → Body → Prop} {f : Body → Body} (h : ∀ d, R d (f d)) (messages : List Json) :
    InItems (Message R) (.list messages) (.list (messages.map (inDict f))) := by
  have hitems : InItems (Message R) (.list messages) (.list (messages.filterMap (some ∘ inDict f))) :=
    .list messages fun v => ⟨inDict f v, rfl, inDict_change h v⟩
  rwa [List.filterMap_eq_map] at hitems

theorem changes_untouched (shape : Shape) (kind : Kind) (d : Body) (details : Body) :
    Changes shape kind d (d, { untouched kind with details := details }) := by
  refine ⟨rfl, ?_, fun h => (nomatch h)⟩
  cases shape with
  | messages => exact Or.inl (at_self .same d)
  | gemini => exact Or.inl (at_self .same d)
  | ollama => exact Or.inl (at_self .same d)

theorem keptBlock_change (v : Json) : BlockChange v (keptBlock v) := by
  unfold keptBlock
  split
  · next d =>
    by_cases h : (isThinking d || isRedactedThinking d) = true
    · rw [if_pos h]
      exact .thinking rfl h
    · rw [if_neg h]
      exact .signature rfl
  · exact .shown (.same v)

theorem changes_thinkingSignature (d : Body) :
    Changes .messages .thinkingSignature d (rectifyThinkingSignature d) := by
  unfold rectifyThinkingSignature
  split
  · next messages hmessages =>
    have hcontent : ∀ d, At "content" (InItems BlockChange) d (modify "content" (inItems keptBlock) d) :=
      at_modify (inItems_change keptBlock_change)
    exact ⟨rfl, Or.inl (at_set hmessages (messages_change hcontent messages)), fun _ => Or.inr rfl⟩
  · exact changes_untouched _ _ d _

theorem after_room {budget least : Int} (found : Option Json) (h : budget < least) :
    ∃ m, (Limit.after ⟨budget, least, found⟩).bind asInt = some m ∧ budget < m := by
  unfold Limit.after
  split
  · next hkept => simpa [Limit.kept, Option.any_eq_true] using hkept
  · exact ⟨least, rfl, h⟩

theorem changes_thinkingBudget (d : Body) : Changes .messages .thinkingBudget d (rectifyThinkingBudget d) := by
  unfold rectifyThinkingBudget
  dsimp only
  split
  · exact changes_untouched _ _ d _
  · refine ⟨rfl, Or.inr (Or.inl fun key hkey => ?_), fun _ => ?_⟩
    · simp only [List.mem_cons, List.not_mem_nil, or_false, not_or] at hkey
      simp [Rectifier.set, hkey.1, hkey.2]
    · have hless : rectifiedThinkingBudget < rectifiedMaxTokens := by decide
      obtain ⟨m, hm, hlt⟩ := after_room (d "max_tokens") hless
      exact ⟨rectifiedThinkingBudget, m, Prod.ext rfl hm, hlt⟩

theorem changes_replaceImages {outer inner : String} {isImage : Body → Bool} {placeholder : Body}
    {R : Json → Option Json → Prop} (hR : ∀ v r, Shown isImage placeholder v r → R v r)
    (hallowed : ∀ d', At outer (InItems (Message (At inner (InItems R)))) d d' → Allowed shape d d')
    (hlimits : ∀ v, limits shape (set d outer v) = limits shape d) :
    Changes shape .mediaFallback d (replaceImages outer inner isImage placeholder d) := by
  unfold replaceImages
  split
  · next contents hcontents =>
    refine ⟨rfl, hallowed _ (at_set hcontents (messages_change (at_modify (inItems_change fun v => hR _ _ ?_)) contents)),
      fun _ => Or.inr (hlimits _)⟩
    cases v with
    | dict part =>
      by_cases h : isImage part = true
      · rw [inDict, if_pos h]
        exact .image h
      · rw [inDict, if_neg h]
        exact .same _
    | _ => exact .same _
  · exact changes_untouched _ _ d _

theorem changes_dropKey {detail : String} (hallowed : Allowed shape d (pop d key))
    (hroom : Room shape kind d (pop d key)) : Changes shape kind d (dropKey kind key detail d) := by
  unfold dropKey
  split
  · exact changes_untouched _ _ d _
  · exact ⟨rfl, hallowed, fun _ => hroom⟩

theorem changes_geminiThinkingUnsupported (d : Body) :
    Changes .gemini .thinkingUnsupported d (rectifyGeminiThinkingUnsupported d) := by
  unfold rectifyGeminiThinkingUnsupported
  split
  · next generation hgeneration =>
    unfold dropKey
    cases generation "thinkingConfig" with
    | none => exact ⟨rfl, Or.inr (at_set hgeneration (.same _)), fun h => (nomatch h)⟩
    | some removed =>
      refine ⟨rfl, Or.inr (at_set hgeneration (.dict ⟨fun key hkey => ?_, Or.inl rfl⟩)), fun _ => Or.inl rfl⟩
      exact agree_update generation "thinkingConfig" none key fun h => hkey (by simp [List.mem_singleton.mp h])
  · exact changes_untouched _ _ d _

theorem changes_geminiThinkingBudget (d : Body) : Changes .gemini .thinkingBudget d (rectifyGeminiThinkingBudget d) := by
  unfold rectifyGeminiThinkingBudget
  split
  · next generation hgeneration =>
    split
    · next thinking hthinking =>
      refine ⟨rfl, Or.inr (at_set hgeneration (.dict ⟨fun key hkey => ?_, Or.inr ?_⟩)), fun _ => ?_⟩
      · simp only [List.mem_cons, List.not_mem_nil, or_false, not_or] at hkey
        simp [Rectifier.set, hkey.1, hkey.2]
      · rw [hthinking]
        exact .some (.dict (agree_update thinking "thinkingBudget" _))
      · have hless : rectifiedGeminiThinkingBudget < rectifiedGeminiMaxOutputTokens := by decide
        obtain ⟨m, hm, hlt⟩ := after_room (generation "maxOutputTokens") hless
        exact ⟨rectifiedGeminiThinkingBudget, m, Prod.ext rfl hm, hlt⟩
    · exact changes_untouched _ _ d _
  · exact changes_untouched _ _ d _

theorem withoutImages_change (message : Body) : Agree ["images", "content"] message (withoutImages message) := by
  intro key hkey
  simp only [List.mem_cons, List.not_mem_nil, or_false, not_or] at hkey
  unfold withoutImages
  cases items "images" message with
  | nil => rfl
  | cons _ _ => simp [Rectifier.set, pop, hkey.1, hkey.2]

theorem changes_ollamaMedia (d : Body) : Changes .ollama .mediaFallback d (rectifyOllamaMedia d) := by
  unfold rectifyOllamaMedia
  split
  · next messages hmessages =>
    exact ⟨rfl, Or.inl (at_set hmessages (messages_change withoutImages_change messages)), fun _ => Or.inl rfl⟩
  · exact changes_untouched _ _ d _

theorem changes_rule {rule : Body → Option (Body × RectifyRecord)} {p : Body × RectifyRecord}
    (hrule : shapeRule shape kind = some rule) (hp : rule d = some p) : Changes shape kind d p := by
  unfold shapeRule at hrule
  split at hrule <;> cases hrule
  · cases hp
    exact changes_thinkingSignature d
  · cases hp
    exact changes_thinkingBudget d
  · dsimp only [rectifyMedia] at hp
    split at hp
    · cases hp
    · cases hp
      exact changes_replaceImages (fun _ _ => .shown) (fun _ => Or.inl) fun _ => rfl
  · cases hp
    exact changes_dropKey (Or.inr (Or.inr rfl)) (Or.inr rfl)
  · cases hp
    exact changes_geminiThinkingBudget d
  · cases hp
    exact changes_geminiThinkingUnsupported d
  · cases hp
    exact changes_replaceImages (fun _ _ => id) (fun _ => Or.inl) fun _ => rfl
  · cases hp
    exact changes_dropKey (Or.inr rfl) (Or.inl rfl)
  · cases hp
    exact changes_ollamaMedia d

/-- The body differs in fields of its shape only; none of another provider is new. -/
structure Rectified (applied : List Kind) (d d' : Body) (record : RectifyRecord) : Prop where
  allowed : Allowed (detectPayloadShape d) d d'
  added : ∀ key, d key = none →
    d' key = none ∨ detectPayloadShape d = .messages ∧ (key = "thinking" ∨ key = "max_tokens")
  room : Room (detectPayloadShape d) record.kind d d'
  once : record.kind ∉ applied

structure Grown (h h' : Heap) : Prop where
  next_le : h.next ≤ h'.next
  kept : ∀ a < h.next, h'.bodies a = h.bodies a

structure Sound (applied : List Kind) (body : Nat) (h : Heap)
    (result : Option (Option (Nat × RectifyRecord)) × Heap) : Prop where
  grown : Grown h result.2
  rectified : ∀ a record, result.1 = some (some (a, record)) →
    a < result.2.next ∧ Rectified applied (h.bodies body) (result.2.bodies a) record

theorem at_none {d' : Body} {k : String} (h : At key R d d') (hk : d k = none) : d' k = none := by
  by_cases hkey : k = key
  · have hrel := h.2
    rw [← hkey, hk] at hrel
    cases hd : d' k with
    | none => rfl
    | some v =>
      rw [hd] at hrel
      cases hrel
  · rw [h.1 k (by simpa using hkey), hk]

theorem pop_none {k : String} (hk : d k = none) : pop d key k = none := by
  by_cases hkey : k = key
  · rw [hkey]
    exact Function.update_self ..
  · exact (Function.update_of_ne hkey ..).trans hk

theorem added_of_allowed {d' : Body} (h : Allowed shape d d') (k : String) (hk : d k = none) :
    d' k = none ∨ shape = .messages ∧ (k = "thinking" ∨ k = "max_tokens") := by
  cases shape with
  | messages =>
    rcases h with h | h | rfl
    · exact Or.inl (at_none h hk)
    · by_cases hkey : k = "thinking" ∨ k = "max_tokens"
      · exact Or.inr ⟨rfl, hkey⟩
      · exact Or.inl ((h k (by simpa using hkey)).trans hk)
    · exact Or.inl (pop_none hk)
  | gemini => exact Or.inl (h.elim (at_none · hk) (at_none · hk))
  | ollama =>
    rcases h with h | rfl
    · exact Or.inl (at_none h hk)
    · exact Or.inl (pop_none hk)

variable {casefold : Text → Text} {config : RectifierConfig} {body : Nat} {error : Rejection} {applied : List Kind}

theorem Grown.trans {h₁ h₂ h₃ : Heap} (h : Grown h₁ h₂) (h' : Grown h₂ h₃) : Grown h₁ h₃ :=
  ⟨h.next_le.trans h'.next_le, fun a ha => (h'.kept a (ha.trans_le h.next_le)).trans (h.kept a ha)⟩

theorem grown_deepcopy (h : Heap) (a : Nat) : Grown h (h.deepcopy a) :=
  ⟨Nat.le_succ _, fun _ hb => Function.update_of_ne (Nat.ne_of_lt hb) _ _⟩

theorem grown_write {h h' : Heap} (hg : Grown h h') (d : Body) : Grown h (h'.write h.next d) :=
  ⟨hg.next_le, fun a ha => (Function.update_of_ne (Nat.ne_of_lt ha) ..).trans (hg.kept a ha)⟩

theorem Sound.trans {h h' : Heap} {result : Option (Option (Nat × RectifyRecord)) × Heap} (hg : Grown h h')
    (hbody : body < h.next) (hs : Sound applied body h' result) : Sound applied body h result :=
  ⟨hg.trans hs.grown, fun a record hr => hg.kept body hbody ▸ hs.rectified a record hr⟩

theorem tryRules_sound {kinds : List Kind} {h : Heap} (hbody : body < h.next)
    (hshape : shape = detectPayloadShape (h.bodies body)) :
    Sound applied body h (tryRules casefold config body error applied shape kinds h) := by
  induction kinds generalizing h with
  | nil => exact ⟨⟨le_rfl, fun _ _ => rfl⟩, fun _ _ hr => (nomatch hr)⟩
  | cons kind kinds ih =>
    rw [tryRules]
    cases hrule : shapeRule shape kind with
    | none => exact ih hbody hshape
    | some rule =>
      dsimp only
      by_cases hskip : kind ∈ applied ∨ detects casefold kind error config = false
      · rw [if_pos hskip]
        exact ih hbody hshape
      · rw [if_neg hskip]
        have hcopy : (h.deepcopy body).bodies h.next = h.bodies body := Function.update_self ..
        have hgrown := grown_deepcopy h body
        rw [hcopy]
        cases hp : rule (h.bodies body) with
        | none => exact ⟨hgrown, fun _ _ hr => (nomatch hr)⟩
        | some p =>
          obtain ⟨rectified, record⟩ := p
          have hchanges := changes_rule hrule hp
          have hwritten := grown_write hgrown rectified
          dsimp only
          by_cases happlied : record.applied = true
          · rw [if_pos happlied]
            refine ⟨hwritten, fun a r hr => ?_⟩
            cases hr
            have hself : ((h.deepcopy body).write h.next rectified).bodies h.next = rectified := Function.update_self ..
            rw [hself]
            refine ⟨Nat.lt_succ_self _, hshape ▸ hchanges.allowed, hshape ▸ added_of_allowed hchanges.allowed, ?_, ?_⟩
            · rw [← hshape, hchanges.recorded]
              exact hchanges.room happlied
            · exact fun hmem => hskip (Or.inl (hchanges.recorded ▸ hmem))
          · rw [if_neg happlied]
            exact (ih (hbody.trans_le hwritten.next_le) (by rw [hwritten.kept body hbody, hshape])).trans hwritten hbody

theorem rectifyRequest_sound (casefold : Text → Text) (config : Option RectifierConfig) {h : Heap} (hbody : body < h.next)
    (error : Rejection) (applied : List Kind) :
    Sound applied body h (rectifyRequest casefold body error applied config h) := by
  unfold rectifyRequest
  dsimp only
  split
  · exact tryRules_sound hbody rfl
  · exact ⟨⟨le_rfl, fun _ _ => rfl⟩, fun _ _ hr => (nomatch hr)⟩

/-- The rounds of a request, of which there are no more than kinds. -/
structure Bounded (applied : List Kind) (h : Heap) (errors : List Rejection)
    (result : List RectifyRecord × Bool × Heap) : Prop where
  grown : Grown h result.2.2
  once : (result.1.map RectifyRecord.kind).Nodup
  new : ∀ record ∈ result.1, record.kind ∉ applied
  rounds : result.1.length ≤ ruleOrder.length
  ends : result.2.1 = true ∨ errors.length = result.1.length

theorem length_le_rules {kinds : List Kind} (h : kinds.Nodup) : kinds.length ≤ ruleOrder.length := by
  have hsub : kinds ⊆ ruleOrder := fun kind _ => by cases kind <;> decide
  exact (List.subperm_of_subset h hsub).length_le

theorem retry_bounded (casefold : Text → Text) (config : Option RectifierConfig) (errors : List Rejection)
    (applied : List Kind) {body : Nat} {h : Heap} (hbody : body < h.next) :
    Bounded applied h errors (retry casefold config errors applied body h) := by
  induction errors generalizing applied body h with
  | nil => exact ⟨⟨le_rfl, fun _ _ => rfl⟩, List.nodup_nil, fun _ hr => (nomatch hr), Nat.zero_le _, Or.inr rfl⟩
  | cons error errors ih =>
    have hsound := rectifyRequest_sound casefold config hbody error applied
    rw [retry]
    generalize rectifyRequest casefold body error applied config h = result at hsound ⊢
    rcases result with ⟨_ | _ | ⟨a, record⟩, h'⟩
    · exact ⟨hsound.grown, List.nodup_nil, fun _ hr => (nomatch hr), Nat.zero_le _, Or.inl rfl⟩
    · exact ⟨hsound.grown, List.nodup_nil, fun _ hr => (nomatch hr), Nat.zero_le _, Or.inl rfl⟩
    · obtain ⟨ha, hrectified⟩ := hsound.rectified a record rfl
      have hrest := ih (record.kind :: applied) ha
      have hnodup : ((record :: (retry casefold config errors (record.kind :: applied) a h').1).map
          RectifyRecord.kind).Nodup := by
        refine List.nodup_cons.mpr ⟨fun hmem => ?_, hrest.once⟩
        obtain ⟨r, hr, hkind⟩ := List.mem_map.mp hmem
        exact hrest.new r hr (hkind ▸ List.mem_cons_self)
      refine ⟨hsound.grown.trans hrest.grown, hnodup, fun r hr => ?_, ?_, hrest.ends.imp id (congrArg (· + 1))⟩
      · cases hr with
        | head => exact hrectified.once
        | tail _ hr => exact fun hmem => hrest.new r hr (List.mem_cons_of_mem _ hmem)
      · simpa using length_le_rules hnodup

end Kirara.Rectifications
