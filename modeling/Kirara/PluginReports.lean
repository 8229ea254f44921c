import Kirara.PluginLoaders

namespace Kirara.PluginReports

open Kirara.Channels Kirara.Dicts Kirara.PluginBuses Kirara.PluginLoaders

variable {ε : Type}

/-- What is registered belongs to an instance in `plugins`, and its bus knows it. -/
structure Wired [DecidableEq ε] (s : Loader ε) : Prop where
  counted : ∀ i, Counted i (s.busOf i)
  live : ∀ t l, l ∈ s.events.listeners t → ∃ n, s.plugins.get n = some l.owner
  hosted : ∀ i ∈ s.host, ∃ n, s.plugins.get n = some i
  named : ∀ n i, s.plugins.get n = some i → (s.instances i).name = n ∧ i < s.created

def Started (s : Loader ε) (n : Text) : Prop :=
  ∃ i, s.plugins.get n = some i ∧ (s.instances i).started = true

/-- What the info of a plugin and the enabled list say of it. -/
structure ReportedAt (s : Loader ε) (n : Text) : Prop where
  builtin : ∀ info, s.infos.get n = some info → info.isInternal = true →
    (info.isEnabled = true ↔ ∃ i, s.plugins.get n = some i)
  builtin_listed : ∀ info, s.infos.get n = some info → info.isInternal = true → n ∈ s.enable →
    info.isEnabled = true
  external : ∀ info, s.infos.get n = some info → info.isInternal = false →
    (info.isEnabled = true ↔ Started s n)
  listed : ∀ i, s.plugins.get n = some i →
    (∀ info, s.infos.get n = some info → info.isInternal = false) → n ∈ s.enable
  legacy : ∀ info, s.infos.get n = some info → replacementOf n = none

structure Reported (s : Loader ε) : Prop where
  each : ∀ n, ReportedAt s n
  nodup : s.enable.Nodup

section Buses

variable [DecidableEq ε] {s : Loader ε} {n : Text} {i : Nat}

theorem wired_withBus {x : PluginEventBus × EventBus ε} (h : Wired s) (hn : s.plugins.get n = some i)
    (hx : Acted i (s.busOf i) x) : Wired (s.withBus i x) where
  counted := by
    intro j
    by_cases hj : j = i
    · subst hj
      have hc := hx.counted (h.counted j)
      simpa [Loader.withBus, Loader.busOf] using hc
    · have hc := h.counted j
      refine ⟨?_, fun t l hl => ?_⟩
      · simpa [Loader.withBus, Loader.busOf, hj] using hc.own
      · have hle := hc.count_le t l hl
        have hsame := hx.others t l (fun he => hj (hl.symm.trans he))
        simpa [Loader.withBus, Loader.busOf, hj, hsame] using hle
  live := by
    intro t l hl
    by_cases ho : l.owner = i
    · exact ⟨n, ho ▸ hn⟩
    have hpos : 0 < (x.2.listeners t).count l := List.count_pos_iff.mpr hl
    rw [hx.others t l ho] at hpos
    exact h.live t l (List.count_pos_iff.mp hpos)
  hosted := h.hosted
  named := by
    intro m j hm
    obtain ⟨hname, hlt⟩ := h.named m j hm
    refine ⟨?_, hlt⟩
    by_cases hj : j = i
    · subst hj
      simpa [Loader.withBus] using hname
    · simpa [Loader.withBus, hj] using hname

theorem wired_create {manifest : Option Manifest} (h : Wired s) (hn : s.plugins.get n = none) :
    Wired (s.create n manifest) where
  counted := by
    intro j
    by_cases hj : j = s.created
    · subst hj
      refine ⟨by simp [Loader.create, Loader.busOf], fun t l hl => ?_⟩
      have habsent : l ∉ s.events.listeners t := by
        intro hmem
        obtain ⟨m, hm⟩ := h.live t l hmem
        have hlt := (h.named m _ hm).2
        omega
      simp [Loader.create, Loader.busOf, List.count_eq_zero_of_not_mem habsent]
    · simpa [Loader.create, Loader.busOf, hj] using h.counted j
  live := by
    intro t l hl
    obtain ⟨m, hm⟩ := h.live t l hl
    have hne : m ≠ n := fun he => by cases (he ▸ hm).symm.trans hn
    exact ⟨m, by simpa [Loader.create, hne] using hm⟩
  hosted := by
    intro j hj
    by_cases hc : j = s.created
    · exact ⟨n, by simp [Loader.create, hc]⟩
    have hmem : j ∈ s.host := by
      cases manifest with
      | none => exact hj
      | some m => simpa [Loader.create, hc] using hj
    obtain ⟨m, hm⟩ := h.hosted j hmem
    have hne : m ≠ n := fun he => by cases (he ▸ hm).symm.trans hn
    exact ⟨m, by simpa [Loader.create, hne] using hm⟩
  named := by
    intro m j hm
    by_cases he : m = n
    · subst he
      have hj : s.created = j := by simpa [Loader.create] using hm
      subst hj
      simp [Loader.create]
    · have hold : s.plugins.get m = some j := by simpa [Loader.create, he] using hm
      obtain ⟨hname, hlt⟩ := h.named m j hold
      have hne : j ≠ s.created := by omega
      refine ⟨by simpa [Loader.create, hne] using hname, ?_⟩
      simp only [Loader.create]
      omega

theorem wired_congr {t : Loader ε} (h : Wired s) (hp : t.plugins = s.plugins)
    (he : t.events = s.events) (hh : t.host = s.host) (hc : t.created = s.created)
    (hi : ∀ j, (t.instances j).name = (s.instances j).name ∧ (t.instances j).bus = (s.instances j).bus) :
    Wired t where
  counted := by
    intro j
    simpa [Loader.busOf, he, (hi j).2] using h.counted j
  live := by
    intro u l hl
    simpa [hp] using h.live u l (he ▸ hl)
  hosted := by
    intro j hj
    simpa [hp] using h.hosted j (hh ▸ hj)
  named := by
    intro m j hm
    simpa [hc, (hi j).1] using h.named m j (hp ▸ hm)

theorem wired_callHook (E : Environment ε) (phase : Phase) (h : Wired s)
    (hn : s.plugins.get n = some i) : Wired (callHook E phase i s).1 :=
  wired_withBus h hn (acted_runActions _)

theorem wired_silence (h : Wired s) (hn : s.plugins.get n = some i) : Wired (s.silence i) := by
  have hw := wired_withBus h hn (acted_unregisterAll (h.counted i))
  exact ⟨hw.counted, hw.live, fun j hj => hw.hosted j (List.mem_of_mem_filter hj), hw.named⟩

theorem silence_quiet (h : Wired s) {l : Listener} (hl : l.owner = i) (t : ε) :
    l ∉ (s.silence i).events.listeners t :=
  List.count_eq_zero.mp (unregisterAll_gone (h.counted i) hl t)

theorem wired_pop (h : Wired s) (hn : s.plugins.get n = some i)
    (hquiet : ∀ t l, l.owner = i → l ∉ s.events.listeners t) (hhost : i ∉ s.host) :
    Wired { s with plugins := s.plugins.pop n } where
  counted := h.counted
  live := by
    intro t l hl
    obtain ⟨m, hm⟩ := h.live t l hl
    have hne : m ≠ n := by
      intro he
      subst he
      exact hquiet t l (Option.some.inj (hm.symm.trans hn)) hl
    exact ⟨m, by simpa [hne] using hm⟩
  hosted := by
    intro j hj
    obtain ⟨m, hm⟩ := h.hosted j hj
    have hne : m ≠ n := by
      intro he
      subst he
      exact hhost (Option.some.inj (hm.symm.trans hn) ▸ hj)
    exact ⟨m, by simpa [hne] using hm⟩
  named := by
    intro m j hm
    rw [Dict.get_pop] at hm
    split at hm
    · cases hm
    · exact h.named m j hm

end Buses

variable {s t : Loader ε} {m n : Text} {i : Nat} {info : PluginInfo}

theorem reportedAt_congr (hp : t.plugins.get n = s.plugins.get n) (hi : t.infos.get n = s.infos.get n)
    (he : n ∈ t.enable ↔ n ∈ s.enable) (hs : Started t n ↔ Started s n) (h : ReportedAt s n) :
    ReportedAt t n := by
  refine ⟨?_, ?_, ?_, ?_, ?_⟩
  · simpa [hp, hi] using h.builtin
  · simpa [hi, he] using h.builtin_listed
  · simpa [hi, hs] using h.external
  · simpa [hp, hi, he] using h.listed
  · simpa [hi] using h.legacy

theorem reportedAt_builtin (hi : s.infos.get n = some info) (hint : info.isInternal = true)
    (hb : info.isEnabled = true ↔ ∃ i, s.plugins.get n = some i)
    (hl : n ∈ s.enable → info.isEnabled = true) (hn : replacementOf n = none) : ReportedAt s n where
  builtin := by
    intro x hx _
    cases hi.symm.trans hx
    exact hb
  builtin_listed := by
    intro x hx _ hmem
    cases hi.symm.trans hx
    exact hl hmem
  external := by
    intro x hx hext
    cases hi.symm.trans hx
    cases hint.symm.trans hext
  listed := by
    intro _ _ hext
    cases hint.symm.trans (hext info hi)
  legacy := fun _ _ => hn

theorem reportedAt_external (hi : s.infos.get n = some info) (hext : info.isInternal = false)
    (hs : info.isEnabled = true ↔ Started s n) (hl : ∀ i, s.plugins.get n = some i → n ∈ s.enable)
    (hn : replacementOf n = none) : ReportedAt s n where
  builtin := by
    intro x hx hint
    cases hi.symm.trans hx
    cases hext.symm.trans hint
  builtin_listed := by
    intro x hx hint
    cases hi.symm.trans hx
    cases hext.symm.trans hint
  external := by
    intro x hx _
    cases hi.symm.trans hx
    exact hs
  listed := fun i hp _ => hl i hp
  legacy := fun _ _ => hn

theorem started_iff (hp : t.plugins.get n = s.plugins.get n)
    (hs : ∀ j, s.plugins.get n = some j → (t.instances j).started = (s.instances j).started) :
    Started t n ↔ Started s n := by
  unfold Started
  rw [hp]
  refine exists_congr (fun j => and_congr_right (fun hj => ?_))
  rw [hs j hj]

theorem reported_congr (h : Reported s) (hp : t.plugins = s.plugins) (hi : t.infos = s.infos)
    (he : t.enable = s.enable) (hs : ∀ j, (t.instances j).started = (s.instances j).started) : Reported t where
  each := fun m => reportedAt_congr (hp ▸ rfl) (hi ▸ rfl) (he ▸ Iff.rfl)
    (started_iff (hp ▸ rfl) (fun j _ => hs j)) (h.each m)
  nodup := he ▸ h.nodup

theorem reported_setInfo (h : Reported s) (hn : ReportedAt (s.setInfo n info) n) :
    Reported (s.setInfo n info) := by
  refine ⟨fun m => ?_, h.nodup⟩
  by_cases hm : m = n
  · exact hm ▸ hn
  · exact reportedAt_congr (s := s) rfl (by simp [Loader.setInfo, hm]) Iff.rfl Iff.rfl (h.each m)

theorem reported_setRestart (h : Reported s) (hi : s.infos.get n = some info) :
    Reported (s.setInfo n { info with requiresRestart := true }) := by
  apply reported_setInfo h
  have hset : (s.setInfo n { info with requiresRestart := true }).infos.get n =
      some { info with requiresRestart := true } := Dict.get_set_self
  have hn := (h.each n).legacy info hi
  cases Bool.eq_false_or_eq_true info.isInternal with
  | inl hint =>
    exact reportedAt_builtin hset hint ((h.each n).builtin info hi hint)
      ((h.each n).builtin_listed info hi hint) hn
  | inr hint =>
    refine reportedAt_external hset hint ((h.each n).external info hi hint) (fun j hj => ?_) hn
    refine (h.each n).listed j hj (fun x hx => ?_)
    cases hi.symm.trans hx
    exact hint

theorem reported_listName (h : Reported s) (hi : s.infos.get n = some info)
    (hen : info.isInternal = true → info.isEnabled = true) : Reported (s.listName n) := by
  unfold Loader.listName
  split
  · exact h
  · next hmem =>
    refine ⟨fun m => ?_, ?_⟩
    · by_cases hm : m = n
      · subst hm
        have hn := (h.each m).legacy info hi
        cases Bool.eq_false_or_eq_true info.isInternal with
        | inl hint =>
          exact reportedAt_builtin hi hint ((h.each m).builtin info hi hint) (fun _ => hen hint) hn
        | inr hext =>
          refine reportedAt_external hi hext ((h.each m).external info hi hext) (fun _ _ => ?_) hn
          exact List.mem_append_right _ (List.mem_singleton_self m)
      · exact reportedAt_congr (s := s) rfl rfl (by simp [hm]) Iff.rfl (h.each m)
    · exact List.nodup_append.mpr ⟨h.nodup, List.nodup_singleton n, fun a ha b hb hab =>
        hmem (List.mem_singleton.mp hb ▸ hab ▸ ha)⟩

theorem mem_listName : n ∈ (s.listName n).enable := by
  unfold Loader.listName
  dsimp only
  split
  · assumption
  · exact List.mem_append_right _ (List.mem_singleton_self n)

variable (h : Reported s)

include h

theorem reported_unlist (hi : s.infos.get n = some info) :
    Reported (unlist n info { s with plugins := s.plugins.pop n }) := by
  have hset : (unlist n info { s with plugins := s.plugins.pop n }).infos.get n =
      some { info with isEnabled := false } := Dict.get_set_self
  have hnone : (unlist n info { s with plugins := s.plugins.pop n }).plugins.get n = none :=
    Dict.get_pop_self
  have hn := (h.each n).legacy info hi
  refine ⟨fun m => ?_, h.nodup.erase n⟩
  by_cases hm : m = n
  · subst hm
    cases Bool.eq_false_or_eq_true info.isInternal with
    | inl hint =>
      refine reportedAt_builtin hset hint ?_ (fun hmem => ?_) hn
      · simp [hnone]
      · exact absurd hmem (h.nodup.not_mem_erase)
    | inr hint =>
      refine reportedAt_external hset hint ?_ (fun j hj => by cases hnone.symm.trans hj) hn
      simp [Started, hnone]
  · refine reportedAt_congr (s := s) ?_ ?_ ?_ ?_ (h.each m)
    · simp [unlist, hm]
    · simp [unlist, hm]
    · simp [unlist, List.mem_erase_of_ne hm]
    · exact started_iff (by simp [unlist, hm]) (fun _ _ => rfl)

theorem external_of_listed (hp : s.plugins.get n = none) (hl : n ∈ s.enable) :
    ∀ info, s.infos.get n = some info → info.isInternal = false := by
  intro info hi
  apply Bool.eq_false_iff.mpr
  intro hint
  obtain ⟨i, hi'⟩ := ((h.each n).builtin info hi hint).mp ((h.each n).builtin_listed info hi hint hl)
  cases hp.symm.trans hi'

theorem present_of_enabled (hi : s.infos.get n = some info)
    (hen : info.isEnabled = true) : ∃ i, s.plugins.get n = some i := by
  cases Bool.eq_false_or_eq_true info.isInternal with
  | inl hint => exact ((h.each n).builtin info hi hint).mp hen
  | inr hext =>
    obtain ⟨i, hp, _⟩ := ((h.each n).external info hi hext).mp hen
    exact ⟨i, hp⟩

theorem reported_withBus {x : PluginEventBus × EventBus ε} : Reported (s.withBus i x) := by
  refine reported_congr h rfl rfl rfl (fun j => ?_)
  by_cases hj : j = i
  · subst hj
    simp [Loader.withBus]
  · simp [Loader.withBus, hj]

theorem reported_silence : Reported (s.silence i) :=
  reported_congr (reported_withBus h) rfl rfl rfl (fun _ => rfl)

omit h

variable {manifest : Option Manifest}

theorem not_started_create : ¬ Started (s.create n manifest) n := by
  intro ⟨j, hj, hs⟩
  have hc : s.created = j := by simpa [Loader.create] using hj
  subst hc
  simp [Loader.create] at hs

theorem reported_setExternal {package : Text} (h : Reported s) (hp : s.plugins.get n = none)
    (hn : replacementOf n = none) : Reported (s.setInfo n ⟨some package, false, false, false⟩) := by
  apply reported_setInfo h
  refine reportedAt_external Dict.get_set_self rfl ?_ (fun j hj => (nomatch hp.symm.trans hj)) hn
  exact iff_of_false Bool.false_ne_true (fun ⟨j, hj, _⟩ => (nomatch hp.symm.trans hj))

variable [DecidableEq ε]

theorem reported_callHook (E : Environment ε) (phase : Phase) (h : Reported s) :
    Reported (callHook E phase i s).1 :=
  reported_withBus h

theorem started_create (h : Wired s) (hm : m ≠ n) : Started (s.create n manifest) m ↔ Started s m := by
  refine started_iff (by simp [Loader.create, hm]) (fun j hj => ?_)
  have hne : j ≠ s.created := Nat.ne_of_lt (h.named m j hj).2
  simp [Loader.create, hne]

theorem reported_createInternal (h : Reported s) (hw : Wired s)
    (hn : replacementOf n = none) : Reported ((s.create n manifest).setInfo n ⟨none, true, true, false⟩) := by
  refine ⟨fun m => ?_, h.nodup⟩
  by_cases hm : m = n
  · subst hm
    refine reportedAt_builtin Dict.get_set_self rfl ?_ (fun _ => rfl) hn
    exact iff_of_true rfl ⟨s.created, Dict.get_set_self⟩
  · exact reportedAt_congr (s := s) (by simp [Loader.setInfo, Loader.create, hm])
      (by simp [Loader.setInfo, Loader.create, hm]) Iff.rfl (started_create hw hm) (h.each m)

theorem reported_createExternal (h : Reported s) (hw : Wired s)
    (hp : s.plugins.get n = none) (hl : n ∈ s.enable)
    (hext : ∀ info, s.infos.get n = some info → info.isInternal = false) : Reported (s.create n manifest) := by
  refine ⟨fun m => ?_, h.nodup⟩
  by_cases hm : m = n
  · subst hm
    refine ⟨fun x hx hint => ?_, fun x hx hint => ?_, fun x hx hx' => ?_, fun _ _ _ => hl,
      (h.each m).legacy⟩
    · cases hint.symm.trans (hext x hx)
    · cases hint.symm.trans (hext x hx)
    · have hold := (h.each m).external x hx hx'
      have hnone : ¬ Started s m := fun ⟨j, hj, _⟩ => (nomatch hp.symm.trans hj)
      exact iff_of_false (fun he => hnone (hold.mp he)) not_started_create
  · exact reportedAt_congr (s := s) (by simp [Loader.create, hm]) rfl Iff.rfl
      (started_create hw hm) (h.each m)

theorem reported_started (h : Reported s) (hw : Wired s) (hp : s.plugins.get n = some i)
    (tp : t.plugins = s.plugins) (te : t.enable = s.enable) (ti : t.instances = (s.markStarted i).instances)
    (tm : ∀ m, m ≠ n → t.infos.get m = s.infos.get m) (tn : ∀ x, t.infos.get n = some x → x.isEnabled = true ∧
      ∃ y, s.infos.get n = some y ∧ y.isInternal = x.isInternal)
    (hnone : t.infos.get n = none → s.infos.get n = none) : Reported t := by
  refine ⟨fun m => ?_, te ▸ h.nodup⟩
  by_cases hm : m = n
  · subst hm
    have hst : Started t m := ⟨i, tp ▸ hp, by simp [ti, Loader.markStarted]⟩
    cases hx : t.infos.get m with
    | none =>
      refine ⟨by simp [hx], by simp [hx], by simp [hx], fun j hj _ => ?_, by simp [hx]⟩
      rw [te]
      exact (h.each m).listed j (tp ▸ hj) (by simp [hnone hx])
    | some x =>
      obtain ⟨hen, y, hy, hint⟩ := tn x hx
      have hn := (h.each m).legacy y hy
      cases Bool.eq_false_or_eq_true x.isInternal with
      | inl hi =>
        exact reportedAt_builtin hx hi (iff_of_true hen ⟨i, tp ▸ hp⟩) (fun _ => hen) hn
      | inr hi =>
        refine reportedAt_external hx hi (iff_of_true hen hst) (fun j hj => ?_) hn
        rw [te]
        refine (h.each m).listed j (tp ▸ hj) (fun z hz => ?_)
        cases hy.symm.trans hz
        exact hint.trans hi
  · refine reportedAt_congr (tp ▸ rfl) (tm m hm) (te ▸ Iff.rfl) ?_ (h.each m)
    refine started_iff (tp ▸ rfl) (fun j hj => ?_)
    have hne : j ≠ i := by
      intro he
      subst he
      exact hm ((hw.named m j hj).1.symm.trans (hw.named n j hp).1)
    simp [ti, Loader.markStarted, hne]

end Kirara.PluginReports
