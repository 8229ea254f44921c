import Kirara.LoadedBackends

namespace Kirara.LoadedInstances

open Kirara.Channels Kirara.Dicts Kirara.Schedules Kirara.LoadedBackends

variable {α : Type} {s t : Manager α} {a c : Adapter α} {b : Backend α} {l : Label α}
  {name m : Text} {registered constructs : Bool}

theorem serving_register (model : ModelConfig α) : (register a s model).serving m =
    s.serving m ++ if m = model.id then [a] else [] := by
  rw [register, Manager.serving, Dict.get_set]
  split
  · next h => rw [h]; rfl
  · rw [List.append_nil]; rfl

variable (models : List (ModelConfig α))

theorem serving_foldl_register : (models.foldl (register a) s).serving m =
      s.serving m ++ List.replicate ((models.map ModelConfig.id).count m) a := by
  induction models generalizing s with
  | nil => simp
  | cons model models ih =>
    rw [List.foldl_cons, ih, serving_register, List.append_assoc, List.map_cons]
    by_cases h : m = model.id
    · simp [h, List.replicate_succ]
    · simp [h, List.count_cons_of_ne (Ne.symm h)]

theorem info_foldl_register : ((models.foldl (register a) s).modelInfo.get m).isSome = true ↔
      (s.modelInfo.get m).isSome = true ∨ m ∈ models.map ModelConfig.id := by
  induction models generalizing s with
  | nil => simp
  | cons model models ih =>
    rw [List.foldl_cons, ih, register, Dict.get_set]
    by_cases h : m = model.id
    · simp [h]
    · simp [h]

theorem backends_foldl_register : (models.foldl (register a) s).backends = s.backends ∧
      (models.foldl (register a) s).created = s.created := by
  induction models generalizing s with
  | nil => exact ⟨rfl, rfl⟩
  | cons model models ih => exact ih

theorem serving_withdraw (n : Text) : (withdraw a s n).serving m =
    if m = n then without a (s.serving m) else s.serving m := by
  unfold withdraw
  by_cases h : without a (s.serving n) = []
  · rw [if_pos h, Manager.serving, Dict.get_pop]
    split
    · next hm => rw [hm, h]; rfl
    · rfl
  · rw [if_neg h, Manager.serving, Dict.get_set]
    split
    · next hm => rw [hm]; rfl
    · rfl

theorem info_withdraw (n : Text) : (withdraw a s n).modelInfo.get m =
    if m = n ∧ without a (s.serving m) = [] then none else s.modelInfo.get m := by
  unfold withdraw
  by_cases h : without a (s.serving n) = []
  · rw [if_pos h, Dict.get_pop]
    by_cases hm : m = n
    · rw [if_pos hm, hm, if_pos ⟨rfl, h⟩]
    · rw [if_neg hm, if_neg (fun hc => hm hc.1)]
  · rw [if_neg h, if_neg]
    rintro ⟨rfl, hc⟩
    exact h hc

theorem backends_withdraw (n : Text) :
    (withdraw a s n).backends = s.backends ∧ (withdraw a s n).created = s.created := by
  unfold withdraw
  split
  · exact ⟨rfl, rfl⟩
  · exact ⟨rfl, rfl⟩

theorem backends_foldl_withdraw (keys : List Text) : (keys.foldl (withdraw a) s).backends = s.backends ∧
      (keys.foldl (withdraw a) s).created = s.created := by
  induction keys generalizing s with
  | nil => exact ⟨rfl, rfl⟩
  | cons n keys ih =>
    obtain ⟨hb, hc⟩ := ih (s := withdraw a s n)
    obtain ⟨hb', hc'⟩ := backends_withdraw (a := a) (s := s) n
    exact ⟨hb.trans hb', hc.trans hc'⟩

theorem apiBackends_foldl_withdraw (keys : List Text) :
    (keys.foldl (withdraw a) s).apiBackends = s.apiBackends := by
  induction keys generalizing s with
  | nil => rfl
  | cons n keys ih =>
    rw [List.foldl_cons, ih, withdraw]
    split
    · rfl
    · rfl

theorem foldl_withdraw {keys : List Text} (h : keys.Nodup) : (keys.foldl (withdraw a) s).serving m =
        (if m ∈ keys then without a (s.serving m) else s.serving m) ∧
      (keys.foldl (withdraw a) s).modelInfo.get m =
        if m ∈ keys ∧ without a (s.serving m) = [] then none else s.modelInfo.get m := by
  induction keys generalizing s with
  | nil => exact ⟨rfl, by simp⟩
  | cons n keys ih =>
    obtain ⟨hn, hkeys⟩ := List.nodup_cons.mp h
    obtain ⟨hserving, hinfo⟩ := ih (s := withdraw a s n) hkeys
    rw [List.foldl_cons, hserving, hinfo, serving_withdraw, info_withdraw]
    by_cases hm : m = n
    · subst hm
      simp [hn]
    · simp [hm]

def install (name : Text) (b : Backend α) (s : Manager α) : Manager α :=
  b.models.foldl (register ⟨s.created, b⟩)
    { s with backends := s.backends.set name ⟨s.created, b⟩, created := s.created + 1 }

def remove (name : Text) (a : Adapter α) (s : Manager α) : Manager α :=
  let t := s.activeBackends.keys.foldl (withdraw a) s
  { t with backends := t.backends.pop name }

theorem any_listsName (lists : List (List (Adapter α))) : lists.any (listsName name) = false := by
  apply List.any_eq_false.mpr
  intro adapters _
  simp [listsName]

theorem settle_loadBackend : settle s (loadBackend name registered constructs s) =
    match loads s name registered constructs with
    | none => s
    | some b => install name b s := by
  unfold loadBackend loads
  cases s.backendConfig name with
  | none => rfl
  | some b =>
    dsimp only
    rw [any_listsName]
    cases he : b.enable with
    | false => simp [Option.filter, he, settle]
    | true =>
      cases registered with
      | false => simp [Option.filter, settle]
      | true =>
        cases constructs with
        | false => simp [Option.filter, settle]
        | true => simp [Option.filter, he, settle, install]

theorem unloadBackend_cases (name : Text) (s : Manager α) : (∃ e, unloadBackend name s = .error e) ∨
      ∃ a, s.backends.get name = some a ∧ unloadBackend name s = .ok (remove name a s) := by
  unfold unloadBackend
  cases s.backendConfig name with
  | none => exact .inl ⟨_, rfl⟩
  | some b =>
    cases s.backends.get name with
    | none => exact .inl ⟨_, rfl⟩
    | some a => exact .inr ⟨a, rfl, rfl⟩

theorem serving_install : (install name b s).serving m =
    s.serving m ++ List.replicate (b.modelIds.count m) ⟨s.created, b⟩ :=
  serving_foldl_register b.models

theorem backends_install : (install name b s).backends = s.backends.set name ⟨s.created, b⟩ ∧
    (install name b s).created = s.created + 1 :=
  backends_foldl_register b.models

theorem backends_remove : (remove name a s).backends = s.backends.pop name ∧
    (remove name a s).created = s.created := by
  obtain ⟨hb, hc⟩ := backends_foldl_withdraw (a := a) (s := s) s.activeBackends.keys
  exact ⟨congrArg (Dict.pop · name) hb, hc⟩

theorem serving_of_not_mem_keys (h : m ∉ s.activeBackends.keys) : s.serving m = [] := by
  have hnone : s.activeBackends.get m = none := by
    rw [← Option.not_isSome_iff_eq_none, Dict.isSome_get_iff]
    exact h
  rw [Manager.serving, hnone]
  rfl

theorem serving_remove : (remove name a s).serving m = without a (s.serving m) := by
  have h := (foldl_withdraw (a := a) (s := s) (m := m) s.activeBackends.distinct).1
  by_cases hm : m ∈ s.activeBackends.keys
  · exact h.trans (if_pos hm)
  have hnil := serving_of_not_mem_keys hm
  rw [hnil]
  exact (h.trans (if_neg hm)).trans hnil

theorem info_remove (h : (s.modelInfo.get m).isSome = true ↔ s.serving m ≠ []) :
    ((remove name a s).modelInfo.get m).isSome = true ↔ without a (s.serving m) ≠ [] := by
  have hinfo : (remove name a s).modelInfo.get m =
      if m ∈ s.activeBackends.keys ∧ without a (s.serving m) = [] then none
      else s.modelInfo.get m :=
    (foldl_withdraw (a := a) (s := s) (m := m) s.activeBackends.distinct).2
  rw [hinfo]
  by_cases hm : m ∈ s.activeBackends.keys
  · by_cases hw : without a (s.serving m) = []
    · simp [hm, hw]
    · have hne : s.serving m ≠ [] := by
        intro hnil
        rw [hnil] at hw
        exact hw rfl
      rw [if_neg (fun hc => hw hc.2)]
      exact ⟨fun _ => hw, fun _ => h.mpr hne⟩
  · have hnil := serving_of_not_mem_keys hm
    rw [if_neg (fun hc => hm hc.1), h, hnil]
    simp [without]

def Known (s : Manager α) (a : Adapter α) : Prop :=
  (∃ m, a ∈ s.serving m) ∨ ∃ name, s.backends.get name = some a

structure Sound (s : Manager α) : Prop where
  fresh : ∀ a, Known s a → a.identity < s.created
  unique : ∀ a c, Known s a → Known s c → a.identity = c.identity → a = c
  named : ∀ name a, s.backends.get name = some a → a.backendName = name
  info : ∀ m, (s.modelInfo.get m).isSome = true ↔ s.serving m ≠ []

structure Settled (s : Manager α) : Prop where
  once : ∀ name a, s.backends.get name = some a → ∀ m,
    (s.serving m).countP (·.identity = a.identity) = if m ∈ a.backend.modelIds then 1 else 0
  loaded : ∀ m, ∀ a ∈ s.serving m, s.backends.get a.backendName = some a

theorem mem_serving_of_candidate {allowlist : List Text}
    (h : a ∈ getProviderCandidates s m allowlist) : a ∈ s.serving m := by
  obtain ⟨x, hx, rfl⟩ := List.mem_map.mp h
  obtain ⟨p, hp, hf⟩ := List.mem_filterMap.mp (List.mem_mergeSort.mp hx)
  have hmem := List.fst_mem_of_mem_zipIdx hp
  dsimp only at hf
  split at hf
  · cases hf
  split at hf
  · cases hf
  split at hf
  · cases hf
  split at hf
  · cases hf
  · cases hf
    exact hmem

theorem mem_serving_of_getLlm (h : getLlm s m = some a) : a ∈ s.serving m := by
  unfold getLlm at h
  split at h
  · cases h
  · next first rest hserving =>
    rw [← Option.some.inj h]
    cases hc : (getProviderCandidates s m []).head? with
    | none => rw [hserving]; exact List.mem_cons_self
    | some c => exact mem_serving_of_candidate (List.mem_of_head? hc)

theorem oneInstance_of_settled (hs : Sound s) (h : Settled s) : OneInstance s where
  once := h.once
  loaded := h.loaded
  info := hs.info
  candidates := fun m _ a ha => h.loaded m a (mem_serving_of_candidate ha)
  llm := fun m a ha => h.loaded m a (mem_serving_of_getLlm ha)

theorem settled_of_oneInstance (h : OneInstance s) : Settled s := ⟨h.once, h.loaded⟩

theorem known_install (h : Known (install name b s) c) : Known s c ∨ c = ⟨s.created, b⟩ := by
  cases h with
  | inl h =>
    obtain ⟨m, hm⟩ := h
    rw [serving_install, List.mem_append] at hm
    exact hm.imp (fun hm => .inl ⟨m, hm⟩) List.eq_of_mem_replicate
  | inr h =>
    obtain ⟨n, hn⟩ := h
    rw [backends_install.1, Dict.get_set] at hn
    split at hn
    · exact .inr (Option.some.inj hn).symm
    · exact .inl (.inr ⟨n, hn⟩)

theorem mem_of_without (h : c ∈ without a (s.serving m)) : c ∈ s.serving m :=
  List.mem_of_mem_eraseP h

theorem known_remove (h : Known (remove name a s) c) : Known s c := by
  cases h with
  | inl h =>
    obtain ⟨m, hm⟩ := h
    rw [serving_remove] at hm
    exact .inl ⟨m, mem_of_without hm⟩
  | inr h =>
    obtain ⟨n, hn⟩ := h
    rw [backends_remove.1, Dict.get_pop] at hn
    split at hn
    · cases hn
    · exact .inr ⟨n, hn⟩

theorem sound_install (hs : Sound s) (hb : b.name = name) : Sound (install name b s) where
  fresh := fun c hc => by
    rw [backends_install.2]
    cases known_install hc with
    | inl hc => exact Nat.lt_succ_of_lt (hs.fresh c hc)
    | inr hc => rw [hc]; exact Nat.lt_succ_self _
  unique := fun c d hc hd hid => by
    cases known_install hc with
    | inl hc =>
      cases known_install hd with
      | inl hd => exact hs.unique c d hc hd hid
      | inr hd =>
        have hlt := hs.fresh c hc
        rw [hid, hd] at hlt
        exact absurd hlt (Nat.lt_irrefl _)
    | inr hc =>
      cases known_install hd with
      | inl hd =>
        have hlt := hs.fresh d hd
        rw [← hid, hc] at hlt
        exact absurd hlt (Nat.lt_irrefl _)
      | inr hd => rw [hc, hd]
  named := fun n c hn => by
    rw [backends_install.1, Dict.get_set] at hn
    split at hn
    · next h =>
      cases hn
      exact hb.trans h.symm
    · exact hs.named n c hn
  info := fun m => by
    have hi : ((install name b s).modelInfo.get m).isSome = true ↔
        (s.modelInfo.get m).isSome = true ∨ m ∈ b.modelIds := info_foldl_register b.models
    rw [hi, hs.info, serving_install]
    by_cases hm : m ∈ b.modelIds
    · have hcount : b.modelIds.count m ≠ 0 := (List.count_pos_iff.mpr hm).ne'
      simp [hm, hcount]
    · simp [hm, List.count_eq_zero.mpr hm]

theorem sound_remove (hs : Sound s) : Sound (remove name a s) where
  fresh := fun c hc => by
    rw [backends_remove.2]
    exact hs.fresh c (known_remove hc)
  unique := fun c d hc hd => hs.unique c d (known_remove hc) (known_remove hd)
  named := fun n c hn => by
    rw [backends_remove.1, Dict.get_pop] at hn
    split at hn
    · cases hn
    · exact hs.named n c hn
  info := fun m => by rw [serving_remove]; exact info_remove (hs.info m)

def listed (a : Adapter α) (adapters : List (Adapter α)) : Nat :=
  adapters.countP (·.identity = a.identity)

theorem listed_pos : 0 < listed a (s.serving m) ↔ ∃ c ∈ s.serving m, c.identity = a.identity := by
  simp [listed, List.countP_pos_iff]

theorem listed_replicate_self (k : Nat) : listed a (List.replicate k a) = k := by
  simp [listed, List.countP_replicate]

theorem listed_replicate_of_ne (h : c.identity ≠ a.identity) (k : Nat) : listed a (List.replicate k c) = 0 := by
  simp [listed, List.countP_replicate, h]

theorem listed_append (x y : List (Adapter α)) : listed a (x ++ y) = listed a x + listed a y :=
  List.countP_append

theorem listed_without_self (x : List (Adapter α)) : listed a (without a x) = listed a x - 1 := by
  induction x with
  | nil => rfl
  | cons c x ih =>
    by_cases h : c.identity = a.identity
    · simp [without, listed, h]
    · simpa [without, listed, h] using ih

theorem listed_without_of_ne (h : c.identity ≠ a.identity) (x : List (Adapter α)) :
    listed c (without a x) = listed c x := by
  induction x with
  | nil => rfl
  | cons d x ih =>
    by_cases hd : d.identity = a.identity
    · have hdc : d.identity ≠ c.identity := fun hdc => h (hdc.symm.trans hd)
      simp [without, listed, hd, h.symm]
    · simp only [without, listed, hd, decide_false, Bool.false_eq_true, not_false_eq_true,
        List.eraseP_cons_of_neg, List.countP_cons] at ih ⊢
      rw [ih]

theorem settled_install (hs : Sound s) (h : Settled s) (hb : b.name = name)
    (hn : b.modelIds.Nodup) (hold : ∀ a ∈ s.backends.get name, a.backend.models = []) :
    Settled (install name b s) where
  once := fun n c hc m => by
    rw [backends_install.1, Dict.get_set] at hc
    rw [serving_install]
    split at hc
    · cases hc
      have hnone : listed ⟨s.created, b⟩ (s.serving m) = 0 := by
        by_contra hpos
        obtain ⟨d, hd, hid⟩ := listed_pos.mp (Nat.pos_of_ne_zero hpos)
        have hlt := hs.fresh d (.inl ⟨m, hd⟩)
        rw [hid] at hlt
        exact absurd hlt (Nat.lt_irrefl _)
      have hsum := listed_append (a := ⟨s.created, b⟩) (s.serving m)
        (List.replicate (b.modelIds.count m) ⟨s.created, b⟩)
      rw [hnone, listed_replicate_self, Nat.zero_add] at hsum
      exact hsum.trans hn.count
    · have hne : s.created ≠ c.identity := (hs.fresh c (.inr ⟨n, hc⟩)).ne'
      have hsum := listed_append (a := c) (s.serving m)
        (List.replicate (b.modelIds.count m) ⟨s.created, b⟩)
      rw [listed_replicate_of_ne hne, Nat.add_zero] at hsum
      exact hsum.trans (h.once n c hc m)
  loaded := fun m c hc => by
    rw [serving_install, List.mem_append] at hc
    rw [backends_install.1]
    cases hc with
    | inl hc =>
      have hreg := h.loaded m c hc
      have hne : c.backendName ≠ name := by
        intro hname
        rw [hname] at hreg
        have hcount := h.once name c hreg m
        rw [Backend.modelIds, hold c hreg] at hcount
        have hpos : 0 < listed c (s.serving m) := listed_pos.mpr ⟨c, hc, rfl⟩
        rw [listed, hcount] at hpos
        exact absurd hpos (by simp)
      rw [Dict.get_set_of_ne hne, hreg]
    | inr hc =>
      rw [List.eq_of_mem_replicate hc, Adapter.backendName, hb, Dict.get_set_self]

theorem settled_remove (hs : Sound s) (h : Settled s) (ha : s.backends.get name = some a) :
    Settled (remove name a s) where
  once := fun n c hc m => by
    rw [backends_remove.1, Dict.get_pop] at hc
    split at hc
    · cases hc
    · next hne =>
      have hid : c.identity ≠ a.identity := by
        intro hid
        have hca := hs.unique c a (.inr ⟨n, hc⟩) (.inr ⟨name, ha⟩) hid
        exact hne ((hs.named n c hc).symm.trans ((congrArg _ hca).trans (hs.named name a ha)))
      rw [serving_remove]
      exact (listed_without_of_ne hid _).trans (h.once n c hc m)
  loaded := fun m c hc => by
    rw [serving_remove] at hc
    have hreg := h.loaded m c (mem_of_without hc)
    have hne : c.backendName ≠ name := by
      intro hname
      rw [hname, ha] at hreg
      cases hreg
      -- the one time the instance was listed is gone
      have hpos : 0 < listed a (without a (s.serving m)) :=
        List.countP_pos_iff.mpr ⟨a, hc, by simp⟩
      rw [listed_without_self, listed, h.once name a ha m] at hpos
      split at hpos
      · omega
      · omega
    rw [backends_remove.1, Dict.get_pop_of_ne hne, hreg]

theorem name_of_loads (h : loads s name registered constructs = some b) : b.name = name := by
  have hfind := (Option.filter_eq_some_iff.mp h).1
  simpa using List.find?_some hfind

theorem loads_remove : loads (remove name a s) name registered constructs =
    loads s name registered constructs := by
  have hapi : (remove name a s).apiBackends = s.apiBackends :=
    apiBackends_foldl_withdraw s.activeBackends.keys
  rw [loads, Manager.backendConfig, hapi]
  rfl

theorem not_named_remove : (remove name a s).backends.get name = none := by
  rw [backends_remove.1, Dict.get_pop_self]

theorem next_cases (h : next s l = some t) :
    t = s ∨ (∃ apiBackends, l = .edit apiBackends ∧ t = { s with apiBackends := apiBackends }) ∨
      (∃ name registered constructs b, l = .load name registered constructs ∧
        loads s name registered constructs = some b ∧ t = install name b s) ∨
      (∃ name a, s.backends.get name = some a ∧ t = remove name a s) ∨
      ∃ name registered constructs a b, l = .reload name registered constructs ∧
        s.backends.get name = some a ∧ loads s name registered constructs = some b ∧
        t = install name b (remove name a s) := by
  cases l with
  | edit apiBackends =>
    cases h
    exact .inr (.inl ⟨apiBackends, rfl, rfl⟩)
  | load name registered constructs =>
    have ht := (Option.some.inj h).symm.trans settle_loadBackend
    cases hb : loads s name registered constructs with
    | none =>
      rw [hb] at ht
      exact .inl ht
    | some b =>
      rw [hb] at ht
      exact .inr (.inr (.inl ⟨name, registered, constructs, b, rfl, hb, ht⟩))
  | unload name =>
    obtain ⟨e, he⟩ | ⟨a, ha, hok⟩ := unloadBackend_cases name s
    · rw [next, he] at h
      exact .inl (Option.some.inj h).symm
    · rw [next, hok] at h
      exact .inr (.inr (.inr (.inl ⟨name, a, ha, (Option.some.inj h).symm⟩)))
  | reload name registered constructs =>
    obtain ⟨e, he⟩ | ⟨a, ha, hok⟩ := unloadBackend_cases name s
    · rw [next, he] at h
      exact .inl (Option.some.inj h).symm
    · rw [next, hok] at h
      have ht := (Option.some.inj h).symm.trans settle_loadBackend
      cases hb : loads s name registered constructs with
      | none =>
        rw [loads_remove, hb] at ht
        exact .inr (.inr (.inr (.inl ⟨name, a, ha, ht⟩)))
      | some b =>
        rw [loads_remove, hb] at ht
        exact .inr (.inr (.inr (.inr ⟨name, registered, constructs, a, b, rfl, ha, hb, ht⟩)))

theorem sound_next (hs : Sound s) (h : next s l = some t) : Sound t := by
  obtain rfl | ⟨_, -, rfl⟩ | ⟨_, _, _, _, -, hb, rfl⟩ | ⟨_, _, -, rfl⟩ |
    ⟨_, _, _, _, _, -, -, hb, rfl⟩ := next_cases h
  · exact hs
  · exact ⟨hs.fresh, hs.unique, hs.named, hs.info⟩
  · exact sound_install hs (name_of_loads hb)
  · exact sound_remove hs
  · exact sound_install (sound_remove hs) (name_of_loads hb)

theorem settled_next (hs : Sound s) (h : Settled s) (hok : Careful s l)
    (ht : next s l = some t) : Settled t := by
  obtain rfl | ⟨_, -, rfl⟩ | ⟨_, _, _, b, rfl, hb, rfl⟩ | ⟨_, _, ha, rfl⟩ |
    ⟨_, _, _, a, b, rfl, ha, hb, rfl⟩ := next_cases ht
  · exact h
  · exact ⟨h.once, h.loaded⟩
  · obtain ⟨hn, hold⟩ := hok b hb
    exact settled_install hs h (name_of_loads hb) hn hold
  · exact settled_remove hs h ha
  · have hn := hok (by rw [ha]; rfl) b hb
    refine settled_install (sound_remove hs) (settled_remove hs h ha) (name_of_loads hb) hn ?_
    intro c hc
    rw [not_named_remove] at hc
    cases hc

theorem nodup_of_installed (h : OneInstance (install name b s)) : b.modelIds.Nodup := by
  apply List.nodup_iff_count_le_one.mpr
  intro m
  have hget : (install name b s).backends.get name = some ⟨s.created, b⟩ := by
    rw [backends_install.1, Dict.get_set_self]
  have honce : listed ⟨s.created, b⟩ ((install name b s).serving m) =
      if m ∈ b.modelIds then 1 else 0 := h.once name _ hget m
  rw [serving_install, listed_append, listed_replicate_self] at honce
  split at honce
  · omega
  · omega

theorem careful_of_keeps (hs : Sound s) (h : Settled s) (hk : Keeps s l) : Careful s l := by
  cases l with
  | edit apiBackends => trivial
  | unload name => trivial
  | load name registered constructs =>
    intro b hb
    have hnext : next s (.load name registered constructs) = some (install name b s) := by
      rw [next, settle_loadBackend, hb]
    have hone := hk _ hnext
    refine ⟨nodup_of_installed hone, fun a ha => ?_⟩
    by_contra hmodels
    obtain ⟨model, hmodel⟩ := List.exists_mem_of_ne_nil _ hmodels
    have hmem : model.id ∈ a.backend.modelIds := List.mem_map.mpr ⟨model, hmodel, rfl⟩
    have hcount := h.once name a ha model.id
    rw [if_pos hmem] at hcount
    have hpos : 0 < listed a (s.serving model.id) := by
      rw [listed, hcount]
      exact Nat.one_pos
    obtain ⟨d, hd, hid⟩ := listed_pos.mp hpos
    have hda := hs.unique d a (.inl ⟨_, hd⟩) (.inr ⟨name, ha⟩) hid
    have hstays : a ∈ (install name b s).serving model.id := by
      rw [serving_install]
      exact List.mem_append_left _ (hda ▸ hd)
    have hreg := hone.loaded _ a hstays
    rw [hs.named name a ha, backends_install.1, Dict.get_set_self] at hreg
    have hlt := hs.fresh a (.inr ⟨name, ha⟩)
    rw [← Option.some.inj hreg] at hlt
    exact absurd hlt (Nat.lt_irrefl _)
  | reload name registered constructs =>
    intro hsome b hb
    obtain ⟨a, ha⟩ := Option.isSome_iff_exists.mp hsome
    obtain ⟨c, hc⟩ : ∃ c, s.backendConfig name = some c :=
      ⟨b, (Option.filter_eq_some_iff.mp hb).1⟩
    have hunload : unloadBackend name s = .ok (remove name a s) := by
      rw [unloadBackend, hc, ha]
      rfl
    have hnext : next s (.reload name registered constructs) =
        some (install name b (remove name a s)) := by
      rw [next, hunload]
      dsimp only
      rw [settle_loadBackend, loads_remove, hb]
    exact nodup_of_installed (hk _ hnext)

theorem keeps_of_careful (hs : Sound s) (h : Settled s) (hok : Careful s l) : Keeps s l :=
  fun _ ht => oneInstance_of_settled (sound_next hs ht) (settled_next hs h hok ht)

def started (apiBackends : List (Backend α)) : Manager α where
  apiBackends := apiBackends
  activeBackends := Dict.empty
  modelInfo := Dict.empty
  backends := Dict.empty
  created := 0

variable (apiBackends : List (Backend α))

theorem not_known_started (a : Adapter α) : ¬ Known (started apiBackends) a := by
  rintro (⟨m, hm⟩ | ⟨n, hn⟩)
  · cases hm
  · cases hn

theorem sound_started : Sound (started apiBackends) where
  fresh := fun a ha => absurd ha (not_known_started apiBackends a)
  unique := fun a _ ha => absurd ha (not_known_started apiBackends a)
  named := fun _ _ h => by cases h
  info := fun _ => by simp [started, Manager.serving]

theorem settled_started : Settled (started apiBackends) where
  once := fun _ _ h => by cases h
  loaded := fun _ _ h => by cases h

/-- A run keeps one instance of each loaded backend just in case its loads are careful. -/
theorem one_instance_iff (apiBackends : List (Backend α)) (labels : List (Label α)) :
    Along next Keeps (started apiBackends) labels ↔
      Along next Careful (started apiBackends) labels := by
  have hstart := And.intro (sound_started apiBackends) (settled_started apiBackends)
  constructor
  · intro h
    refine along_of_invariant next (I := fun s => Sound s ∧ Settled s)
      (fun s l hs => careful_of_keeps hs.1 hs.2) (fun s l t hk hs ht => ?_) hstart h
    exact ⟨sound_next hs.1 ht, settled_of_oneInstance (hk t ht)⟩
  · intro h
    refine along_of_invariant next (I := fun s => Sound s ∧ Settled s)
      (fun s l hs => keeps_of_careful hs.1 hs.2) (fun s l t hok hs ht => ?_) hstart h
    exact ⟨sound_next hs.1 ht, settled_next hs.1 hs.2 hok ht⟩

/-- The saved list becomes the configuration, and its enabled backends are loaded. -/
def importBackends (saved incoming : List (Backend α)) : List (Label α) :=
  .edit saved :: (incoming.filter Backend.enable).map (fun b => .load b.name true true)

/-- One enabled backend `b`, for the model `m`. -/
def backendWith (apiKey : Text) : Backend Unit where
  name := ['b']
  adapter := ['o']
  config := .text apiKey
  enable := true
  models := [⟨['m'], .atom ()⟩]
  priority := 100
  participateInFailover := true

def replacedKey : List (Label Unit) :=
  .load ['b'] true true :: importBackends [backendWith ['n', 'e', 'w']] [backendWith ['n', 'e', 'w']] ++
    [.unload ['b']]

/-- An import over a loaded backend leaves the adapter with the old key in place, even after the
backend is unloaded. -/
theorem import_leaves_old_adapter :
    ∃ t a, exec next (started [backendWith ['o', 'l', 'd']]) replacedKey = some t ∧
      getLlm t ['m'] = some a ∧ a.identity = 0 ∧ t.backends.get a.backendName = none ∧
      ¬ OneInstance t := by
  have hrun : (exec next (started [backendWith ['o', 'l', 'd']]) replacedKey).bind (fun t =>
      (getLlm t ['m']).map (fun a => (a.identity, (t.backends.get a.backendName).isNone))) =
        some (0, true) := by
    decide +kernel
  obtain ⟨t, ht, hl⟩ := Option.bind_eq_some_iff.mp hrun
  obtain ⟨a, ha, hpair⟩ := Option.map_eq_some_iff.mp hl
  obtain ⟨hid, hnone⟩ := Prod.mk.inj hpair
  have hget := Option.isNone_iff_eq_none.mp hnone
  refine ⟨t, a, ht, ha, hid, hget, fun h => ?_⟩
  have hloaded := h.llm ['m'] a ha
  rw [hget] at hloaded
  cases hloaded

end Kirara.LoadedInstances
