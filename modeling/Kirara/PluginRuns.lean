import Kirara.PluginReports
import Kirara.Schedules

namespace Kirara.PluginRuns

open Kirara.Channels Kirara.Dicts Kirara.PluginBuses Kirara.PluginLoaders Kirara.PluginReports
open Kirara.Schedules

variable {ε : Type}

section Operations

variable [DecidableEq ε] {s t : Loader ε} {m n : Text} {i : Nat} {info : PluginInfo} (E : Environment ε)

structure Sound (s : Loader ε) : Prop where
  wired : Wired s
  reported : Reported s

theorem sound_callHook (phase : Phase) (h : Sound s) (hn : s.plugins.get n = some i) :
    Sound (callHook E phase i s).1 :=
  ⟨wired_callHook E phase h.wired hn, reported_callHook E phase h.reported⟩

theorem sound_silence (h : Sound s) (hn : s.plugins.get n = some i) : Sound (s.silence i) :=
  ⟨wired_silence h.wired hn, reported_silence h.reported⟩

theorem wired_setInfo (h : Wired s) : Wired (s.setInfo n info) :=
  wired_congr h rfl rfl rfl rfl (fun _ => ⟨rfl, rfl⟩)

theorem wired_markStarted (h : Wired s) : Wired (s.markStarted i) := by
  refine wired_congr h rfl rfl rfl rfl (fun j => ?_)
  by_cases hj : j = i
  · subst hj
    simp [Loader.markStarted]
  · simp [Loader.markStarted, hj]

theorem sound_forPlugins {f : Loader ε → Text × Nat → Loader ε}
    (hf : ∀ s p, Sound s → s.plugins.get p.1 = some p.2 → Sound (f s p) ∧ (f s p).plugins = s.plugins)
    (h : Sound s) : Sound (s.plugins.entries.foldl f s) := by
  have hrun : ∀ (ps : List (Text × Nat)) (t : Loader ε), Sound t → t.plugins = s.plugins →
      (∀ p ∈ ps, p ∈ s.plugins.entries) → Sound (ps.foldl f t) := by
    intro ps
    induction ps with
    | nil => exact fun t ht _ _ => ht
    | cons p ps ih =>
      intro t ht hp hmem
      have hget : t.plugins.get p.1 = some p.2 := by
        rw [hp]
        exact Dict.get_eq_some_iff.mpr (hmem p List.mem_cons_self)
      obtain ⟨hsound, hsame⟩ := hf t p ht hget
      exact ih (f t p) hsound (hsame.trans hp) (fun q hq => hmem q (List.mem_cons_of_mem p hq))
  exact hrun _ s h rfl (fun _ hp => hp)

theorem sound_loadPlugins (h : Sound s) : Sound (loadPlugins E s) :=
  sound_forPlugins (fun _ _ hs hp => ⟨sound_callHook E .load hs hp, rfl⟩) h

theorem sound_startPlugin {p : Text × Nat} (h : Sound s) (hp : s.plugins.get p.1 = some p.2) :
    Sound (startPlugin E s p) ∧ (startPlugin E s p).plugins = s.plugins := by
  have hc := sound_callHook E .start h hp
  unfold startPlugin
  split
  · next t heq =>
    obtain rfl : (callHook E .start p.2 s).1 = t := congrArg Prod.fst heq
    exact ⟨hc, rfl⟩
  · next t heq =>
    obtain rfl : (callHook E .start p.2 s).1 = t := congrArg Prod.fst heq
    split
    · next hnone =>
      refine ⟨⟨wired_markStarted hc.wired, ?_⟩, rfl⟩
      exact reported_started hc.reported hc.wired hp rfl rfl rfl (fun _ _ => rfl)
        (fun x hx => (nomatch hnone.symm.trans hx)) (fun _ => hnone)
    · next info hinfo =>
      refine ⟨⟨wired_setInfo (wired_markStarted hc.wired), ?_⟩, rfl⟩
      refine reported_started hc.reported hc.wired hp rfl rfl rfl (fun m hm => ?_) (fun x hx => ?_)
        (fun hnone => ?_)
      · simp [Loader.setInfo, Loader.markStarted, hm]
      · cases Dict.get_set_self.symm.trans hx
        exact ⟨rfl, info, hinfo, rfl⟩
      · cases Dict.get_set_self.symm.trans hnone

theorem sound_startPlugins (h : Sound s) : Sound (startPlugins E s) :=
  sound_forPlugins (fun _ _ hs hp => sound_startPlugin E hs hp) h

theorem sound_stopPlugin {p : Text × Nat} (h : Sound s) (hp : s.plugins.get p.1 = some p.2) :
    Sound (stopPlugin E s p) ∧ (stopPlugin E s p).plugins = s.plugins := by
  have hc := sound_callHook E .stop h hp
  unfold stopPlugin
  split
  · next t heq =>
    obtain rfl : (callHook E .stop p.2 s).1 = t := congrArg Prod.fst heq
    exact ⟨hc, rfl⟩
  · next t heq =>
    obtain rfl : (callHook E .stop p.2 s).1 = t := congrArg Prod.fst heq
    exact ⟨sound_silence hc hp, rfl⟩

theorem sound_stopPlugins (h : Sound s) : Sound (stopPlugins E s) :=
  sound_forPlugins (fun _ _ hs hp => sound_stopPlugin E hs hp) h

/-- What loading a plugin without an instance leads to: nothing, or one instance. -/
structure Loads (n : Text) (s t : Loader ε) : Prop where
  sound : Sound t
  others : ∀ m, m ≠ n → t.plugins.get m = s.plugins.get m

theorem loads_refl (h : Sound s) : Loads n s s := ⟨h, fun _ _ => rfl⟩

variable {manifest : Option Manifest}

theorem loads_internal (h : Sound s) (hp : s.plugins.get n = none)
    (hn : replacementOf n = none) : Loads n s ((s.create n manifest).setInfo n ⟨none, true, true, false⟩) where
  sound := ⟨wired_setInfo (wired_create h.wired hp), reported_createInternal h.reported h.wired hn⟩
  others := by
    intro m hm
    simp [Loader.setInfo, Loader.create, hm]

theorem loads_external (h : Sound s) (hp : s.plugins.get n = none)
    (hl : n ∈ s.enable) (hext : ∀ info, s.infos.get n = some info → info.isInternal = false) :
    Loads n s (s.create n manifest) where
  sound := ⟨wired_create h.wired hp, reported_createExternal h.reported h.wired hp hl hext⟩
  others := by
    intro m hm
    simp [Loader.create, hm]

theorem replacementOf_replacement {r : Text} (h : replacementOf n = some r) : replacementOf r = none := by
  unfold replacementOf at h
  split at h
  · cases h
    rfl
  · cases h

omit [DecidableEq ε] in
theorem loadExternalPlugin_cases (hn : replacementOf n = none) (hx : loadExternalPlugin E n s = some (i, t)) :
    i = s.created ∧ ∃ manifest, t = s.create n manifest := by
  unfold loadExternalPlugin at hx
  rw [hn] at hx
  dsimp only at hx
  split at hx
  · cases hx
  obtain ⟨manifest, _, hx⟩ := Option.map_eq_some_iff.mp hx
  cases hx
  exact ⟨rfl, manifest, rfl⟩

variable (h : Sound s)

include h

theorem loads_loadExternalPlugin (hp : s.plugins.get n = none)
    (hn : replacementOf n = none) (hl : n ∈ s.enable) (hx : loadExternalPlugin E n s = some (i, t)) :
    Loads n s t := by
  obtain ⟨-, manifest, rfl⟩ := loadExternalPlugin_cases E hn hx
  exact loads_external h hp hl (external_of_listed h.reported hp hl)

theorem loads_loadResolved (hp : s.plugins.get n = none) (hn : replacementOf n = none)
    (hl : n ∈ s.internalPlugins ∨ n ∈ s.enable) : Loads n s (loadResolved E n s) := by
  unfold loadResolved
  split
  · next x t heq =>
    split at heq
    · obtain ⟨manifest, _, hx⟩ := Option.map_eq_some_iff.mp heq
      cases hx
      exact loads_internal h hp hn
    · next hint => exact loads_loadExternalPlugin E h hp hn (hl.resolve_left hint) heq
  · exact loads_refl h

theorem sound_discoverInternalPlugins {names : List Text} (hnd : names.Nodup)
    (hnames : ∀ n ∈ names, replacementOf n = none ∧ s.plugins.get n = none) :
    Sound (discoverInternalPlugins E names s) := by
  unfold discoverInternalPlugins
  induction names generalizing s with
  | nil => exact h
  | cons n names ih =>
    obtain ⟨hn, hp⟩ := hnames n List.mem_cons_self
    obtain ⟨hnot, hnd⟩ := List.nodup_cons.mp hnd
    have hadd : Sound { s with internalPlugins := s.internalPlugins ++ [n] } :=
      ⟨wired_congr h.wired rfl rfl rfl rfl (fun _ => ⟨rfl, rfl⟩),
        reported_congr h.reported rfl rfl rfl (fun _ => rfl)⟩
    have hload := loads_loadResolved E hadd hp hn (.inl (List.mem_append_right _ (List.mem_singleton_self n)))
    rw [List.foldl_cons]
    unfold loadPlugin
    rw [hn]
    refine ih hload.sound hnd (fun m hm => ?_)
    obtain ⟨hm', hpm⟩ := hnames m (List.mem_cons_of_mem n hm)
    exact ⟨hm', (hload.others m (fun he => hnot (he ▸ hm))).trans hpm⟩

theorem loads_processEntryPoint {ep : EntryPoint} (hp : s.plugins.get ep.name = none) :
    Loads ep.name s (processEntryPoint E s ep) := by
  unfold processEntryPoint
  split
  · exact loads_refl h
  · next hn =>
    have hn : replacementOf ep.name = none := by simpa using hn
    have hset : Sound (s.setInfo ep.name ⟨some ep.package, false, false, false⟩) :=
      ⟨wired_setInfo h.wired, reported_setExternal h.reported hp hn⟩
    dsimp only
    split
    · next hl =>
      split
      · next i t heq =>
        have hload := loads_loadExternalPlugin E hset hp hn hl heq
        exact ⟨hload.sound, hload.others⟩
      · exact ⟨hset, fun _ _ => rfl⟩
    · exact ⟨hset, fun _ _ => rfl⟩

theorem sound_discoverExternalPlugins (hnd : (E.entryPoints.map EntryPoint.name).Nodup)
    (hnames : ∀ ep ∈ E.entryPoints, s.plugins.get ep.name = none) : Sound (discoverExternalPlugins E s) := by
  unfold discoverExternalPlugins
  generalize E.entryPoints = eps at hnd hnames
  induction eps generalizing s with
  | nil => exact h
  | cons ep eps ih =>
    obtain ⟨hnot, hnd⟩ := List.nodup_cons.mp hnd
    have hload := loads_processEntryPoint E h (hnames ep List.mem_cons_self)
    rw [List.foldl_cons]
    refine ih hload.sound hnd (fun q hq => ?_)
    have hne : q.name ≠ ep.name := fun he => hnot (he ▸ List.mem_map_of_mem hq)
    exact (hload.others _ hne).trans (hnames q (List.mem_cons_of_mem ep hq))

theorem sound_runEnabled (hp : s.plugins.get n = some i)
    (hbuiltin : info.isInternal = true → ∃ x, s.infos.get n = some x ∧ x.isInternal = true)
    (hext : info.isInternal = false → s.infos.get n = some info) : Sound (runEnabled E n info i s).1 := by
  have hrestart : ∀ t : Loader ε, Sound t → t.infos = s.infos → Sound (markRestart n info t) := by
    intro t ht hi
    unfold markRestart
    split
    · exact ht
    · next hint =>
      have hget := hi ▸ hext (Bool.eq_false_iff.mpr hint)
      exact ⟨wired_setInfo ht.wired, reported_setRestart ht.reported hget⟩
  have hload := sound_callHook E .load h hp
  unfold runEnabled
  split
  · next t heq =>
    obtain rfl : (callHook E .load i s).1 = t := congrArg Prod.fst heq
    exact hrestart _ hload rfl
  · next t heq =>
    obtain rfl : (callHook E .load i s).1 = t := congrArg Prod.fst heq
    have hstart := sound_callHook E .start hload hp
    split
    · next u heq =>
      obtain rfl : (callHook E .start i (callHook E .load i s).1).1 = u := congrArg Prod.fst heq
      exact hrestart _ hstart rfl
    · next u heq =>
      obtain rfl : (callHook E .start i (callHook E .load i s).1).1 = u := congrArg Prod.fst heq
      dsimp only
      split
      · next hint =>
        obtain ⟨x, hx, hxi⟩ := hbuiltin hint
        refine ⟨wired_markStarted hstart.wired, ?_⟩
        refine reported_started hstart.reported hstart.wired hp rfl rfl rfl (fun _ _ => rfl)
          (fun y hy => ?_) (fun hnone => hnone)
        cases hx.symm.trans hy
        exact ⟨((hstart.reported.each n).builtin x hx hxi).mpr ⟨i, hp⟩, x, hx, rfl⟩
      · next hint =>
        have hget := hext (Bool.eq_false_iff.mpr hint)
        refine ⟨wired_setInfo (wired_markStarted hstart.wired), ?_⟩
        refine reported_started hstart.reported hstart.wired hp rfl rfl rfl (fun m hm => ?_)
          (fun y hy => ?_) (fun hnone => ?_)
        · simp [Loader.setInfo, Loader.markStarted, hm]
        · cases Dict.get_set_self.symm.trans hy
          exact ⟨rfl, info, hget, rfl⟩
        · cases Dict.get_set_self.symm.trans hnone

omit h

theorem wired_listName (h : Wired s) : Wired (s.listName n) :=
  wired_congr h rfl rfl rfl rfl (fun _ => ⟨rfl, rfl⟩)

theorem sound_enablePlugin (h : Sound s)
    (hfree : ∀ info, s.infos.get n = some info → info.isEnabled = false → s.plugins.get n = none) :
    Sound (enablePlugin E n s).1 := by
  unfold enablePlugin
  split
  · exact h
  · next info hi =>
    split
    · exact h
    · next hen =>
      have hp := hfree info hi (Bool.eq_false_iff.mpr hen)
      have hn := (h.reported.each n).legacy info hi
      split
      · exact ⟨wired_setInfo h.wired, reported_setRestart h.reported hi⟩
      · next i t heq =>
        split at heq
        · next hint =>
          obtain ⟨manifest, _, hx⟩ := Option.map_eq_some_iff.mp heq
          cases hx
          have hload : Sound ((s.create n manifest).setInfo n ⟨none, true, true, false⟩) :=
            (loads_internal h hp hn).sound
          have hget : ((s.create n manifest).setInfo n ⟨none, true, true, false⟩).infos.get n =
              some ⟨none, true, true, false⟩ := Dict.get_set_self
          have hlist := reported_listName hload.reported hget (fun _ => rfl)
          refine sound_runEnabled E ⟨wired_listName hload.wired, hlist⟩ Dict.get_set_self
            (fun _ => ⟨_, hget, rfl⟩) (fun hext => ?_)
          cases hint.symm.trans hext
        · next hint =>
          have hext := Bool.eq_false_iff.mpr hint
          obtain ⟨rfl, manifest, rfl⟩ := loadExternalPlugin_cases E hn heq
          have hlist : Sound (s.listName n) :=
            ⟨wired_listName h.wired, reported_listName h.reported hi (fun hb => absurd hb hint)⟩
          have hload : Sound ((s.listName n).create n manifest) :=
            (loads_external hlist hp mem_listName (fun x hx => by
              cases hi.symm.trans hx
              exact hext)).sound
          exact sound_runEnabled E hload Dict.get_set_self (fun hb => absurd hb hint) (fun _ => hi)

theorem sound_disablePlugin (h : Sound s)
    (hquiet : ∀ i, s.plugins.get n = some i → (E.hook i .stop).raises = false →
      ∀ a ∈ (E.hook i .stop).actions, a.registers = false) :
    Sound (disablePlugin E n s).1 := by
  unfold disablePlugin
  split
  · exact h
  · next info hi =>
    split
    · next hen =>
      split
      · next hp =>
        obtain ⟨i, hi'⟩ := present_of_enabled h.reported hi hen
        cases hp.symm.trans hi'
      · next i hp =>
        have hsilent := sound_silence h hp
        have hstop := sound_callHook E .stop hsilent hp
        split
        · next t heq =>
          obtain rfl : (callHook E .stop i (s.silence i)).1 = t := congrArg Prod.fst heq
          exact ⟨wired_setInfo hstop.wired, reported_setRestart hstop.reported hi⟩
        · next t heq =>
          obtain rfl : (callHook E .stop i (s.silence i)).1 = t := congrArg Prod.fst heq
          have hraises : (E.hook i .stop).raises = false := congrArg Prod.snd heq
          have hempty : ∀ u l, l.owner = i →
              l ∉ (callHook E .stop i (s.silence i)).1.events.listeners u := by
            intro u l hl hmem
            have hpos := List.count_pos_iff.mpr hmem
            have hle := count_runActions_le (i := i) (x := (s.silence i).busOf i) (hquiet i hp hraises) u l
            exact silence_quiet h.wired hl u (List.count_pos_iff.mp (hpos.trans_le hle))
          have hpop := wired_pop hstop.wired hp hempty (by simp [callHook, Loader.withBus, Loader.silence])
          exact ⟨wired_congr hpop rfl rfl rfl rfl (fun _ => ⟨rfl, rfl⟩),
            reported_unlist hstop.reported hi⟩
    · exact h

/-- No plugin gets a second instance, and stop hooks register nothing. -/
def Careful (s : Loader ε) (l : Label ε) : Prop :=
  match l.operation with
  | .discoverInternal names =>
    names.Nodup ∧ ∀ n ∈ names, replacementOf n = none ∧ s.plugins.get n = none
  | .discoverExternal | .install true =>
    (l.environment.entryPoints.map EntryPoint.name).Nodup ∧
      ∀ ep ∈ l.environment.entryPoints, s.plugins.get ep.name = none
  | .loadPlugin n =>
    match replacementOf n with
    | some r => s.plugins.get r = none → r ∈ s.internalPlugins ∨ r ∈ s.enable
    | none => s.plugins.get n = none ∧ (n ∈ s.internalPlugins ∨ n ∈ s.enable)
  | .enable n => ∀ info, s.infos.get n = some info → info.isEnabled = false → s.plugins.get n = none
  | .disable n =>
    ∀ i, s.plugins.get n = some i → (l.environment.hook i .stop).raises = false →
      ∀ a ∈ (l.environment.hook i .stop).actions, a.registers = false
  | _ => True

theorem sound_loadPlugin (h : Sound s) (hc : match replacementOf n with
      | some r => s.plugins.get r = none → r ∈ s.internalPlugins ∨ r ∈ s.enable
      | none => s.plugins.get n = none ∧ (n ∈ s.internalPlugins ∨ n ∈ s.enable)) :
    Sound (loadPlugin E n s) := by
  unfold loadPlugin
  cases hr : replacementOf n with
  | none =>
    rw [hr] at hc
    exact (loads_loadResolved E h hc.1 hr hc.2).sound
  | some r =>
    rw [hr] at hc
    dsimp only
    split
    · exact h
    · next hsome =>
      have hp : s.plugins.get r = none := by simpa using hsome
      exact (loads_loadResolved E h hp (replacementOf_replacement hr) (hc hp)).sound

theorem sound_step (h : Sound s) {l : Label ε} (hc : Careful s l) : Sound (step s l).1 := by
  obtain ⟨operation, E⟩ := l
  cases operation with
  | discoverInternal names => exact sound_discoverInternalPlugins E h hc.1 hc.2
  | discoverExternal => exact sound_discoverExternalPlugins E h hc.1 hc.2
  | loadPlugin n => exact sound_loadPlugin E h hc
  | loadPlugins => exact sound_loadPlugins E h
  | startPlugins => exact sound_startPlugins E h
  | stopPlugins => exact sound_stopPlugins E h
  | install succeeds =>
    cases succeeds with
    | true => exact sound_discoverExternalPlugins E h hc.1 hc.2
    | false => exact h
  | enable n => exact sound_enablePlugin E h hc
  | disable n => exact sound_disablePlugin E h hc

theorem sound_fresh {enable : List Text} (h : enable.Nodup) : Sound (fresh enable : Loader ε) where
  wired := by
    refine ⟨fun i => ⟨?_, ?_⟩, ?_, ?_, ?_⟩ <;> simp [fresh, Loader.busOf, EventBus.listeners]
  reported := by
    refine ⟨fun n => ⟨?_, ?_, ?_, ?_, ?_⟩, h⟩ <;> simp [fresh]

end Operations

variable [DecidableEq ε]

/-- One instance of each plugin is at work, and infos and enabled list tell which. -/
structure Consistent (s : Loader ε) : Prop where
  live : ∀ t l, l ∈ s.events.listeners t → ∃ n, s.plugins.get n = some l.owner
  hosted : ∀ i ∈ s.host, ∃ n, s.plugins.get n = some i
  single : ∀ t u k l, k ∈ s.events.listeners t → l ∈ s.events.listeners u →
    (s.instances k.owner).name = (s.instances l.owner).name → k.owner = l.owner
  quiet : ∀ n info t l, s.infos.get n = some info → info.isEnabled = false →
    l ∈ s.events.listeners t → (s.instances l.owner).name = n →
      info.isInternal = false ∧ s.plugins.get n = some l.owner ∧ ¬ Started s n
  builtin : ∀ n info, s.infos.get n = some info → info.isInternal = true →
    (info.isEnabled = true ↔ ∃ i, s.plugins.get n = some i) ∧ (n ∈ s.enable → info.isEnabled = true)
  external : ∀ n info, s.infos.get n = some info → info.isInternal = false →
    (info.isEnabled = true ↔ Started s n) ∧ (info.isEnabled = true → n ∈ s.enable)
  started : ∀ n info, s.infos.get n = some info → Started s n → info.isEnabled = true

theorem plugin_of_listener {s : Loader ε} (h : Wired s) {t : ε} {l : Listener}
    (hl : l ∈ s.events.listeners t) : s.plugins.get (s.instances l.owner).name = some l.owner := by
  obtain ⟨n, hn⟩ := h.live t l hl
  rwa [(h.named n l.owner hn).1]

theorem consistent_of_sound {s : Loader ε} (h : Sound s) : Consistent s where
  live := h.wired.live
  hosted := h.wired.hosted
  single := by
    intro t u k l hk hl hkl
    have hk := plugin_of_listener h.wired hk
    rw [hkl, plugin_of_listener h.wired hl] at hk
    exact (Option.some.inj hk).symm
  quiet := by
    intro n info t l hi hoff hl hname
    have hp := hname ▸ plugin_of_listener h.wired hl
    cases Bool.eq_false_or_eq_true info.isInternal with
    | inl hint =>
      have hen := ((h.reported.each n).builtin info hi hint).mpr ⟨l.owner, hp⟩
      cases hoff.symm.trans hen
    | inr hext =>
      refine ⟨hext, hp, fun hs => ?_⟩
      cases hoff.symm.trans (((h.reported.each n).external info hi hext).mpr hs)
  builtin := fun n info hi hint =>
    ⟨(h.reported.each n).builtin info hi hint, (h.reported.each n).builtin_listed info hi hint⟩
  external := by
    intro n info hi hext
    refine ⟨(h.reported.each n).external info hi hext, fun hen => ?_⟩
    obtain ⟨i, hp⟩ := present_of_enabled h.reported hi hen
    refine (h.reported.each n).listed i hp (fun x hx => ?_)
    cases hi.symm.trans hx
    exact hext
  started := by
    intro n info hi hs
    cases Bool.eq_false_or_eq_true info.isInternal with
    | inl hint =>
      obtain ⟨i, hp, _⟩ := hs
      exact ((h.reported.each n).builtin info hi hint).mpr ⟨i, hp⟩
    | inr hext => exact ((h.reported.each n).external info hi hext).mpr hs

/-- From a new loader with each plugin listed once, careful operations keep the states
consistent. -/
theorem consistent_of_careful {enable : List Text} {labels : List (Label ε)} {t : Loader ε}
    (hn : enable.Nodup) (hc : Along next Careful (fresh enable) labels)
    (ht : exec next (fresh enable) labels = some t) : Consistent t := by
  apply consistent_of_sound
  refine exec_invariant next (fun s l u hl hs hu => ?_) (sound_fresh hn) hc ht
  cases hu
  exact sound_step hs hl

/-- A built-in plugin `a` and external ones, each with one listener from its start. -/
def pluginsAround (entryPoints : List EntryPoint) : Environment Unit where
  modules := fun n => if n = ['a'] then some none else none
  entryPoints := entryPoints
  hook := fun _ phase =>
    match phase with
    | .start => ⟨[.register () ['h']], false⟩
    | _ => ⟨[], false⟩

def entryPoint (name : Text) : EntryPoint := ⟨name, name, some none⟩

def boot : List (Label Unit) :=
  [⟨.discoverInternal [['a']], pluginsAround [entryPoint ['b']]⟩,
    ⟨.discoverExternal, pluginsAround [entryPoint ['b']]⟩,
    ⟨.loadPlugins, pluginsAround [entryPoint ['b']]⟩,
    ⟨.startPlugins, pluginsAround [entryPoint ['b']]⟩]

theorem boot_consistent :
    ∃ t, exec next (fresh [['b']]) (boot ++ [⟨.disable ['b'], pluginsAround []⟩]) = some t ∧
      Consistent t := by
  have hc : Along next Careful (fresh [['b']]) (boot ++ [⟨.disable ['b'], pluginsAround []⟩]) := by
    refine ⟨⟨by decide, by decide +kernel⟩, fun s hs => ?_⟩
    cases hs
    refine ⟨⟨by decide, by decide +kernel⟩, fun s hs => ?_⟩
    cases hs
    refine ⟨trivial, fun s hs => ?_⟩
    cases hs
    refine ⟨trivial, fun s hs => ?_⟩
    cases hs
    exact ⟨fun _ _ _ _ ha => (nomatch ha), fun _ _ => trivial⟩
  exact ⟨_, rfl, consistent_of_careful (by decide : [['b']].Nodup) hc rfl⟩

/-- The built-in plugin, just found, is enabled and neither listed nor started. After an
installation the old instance of another plugin still has its listener on the bus. -/
theorem install_leaves_listener :
    (∃ s info, exec next (fresh [['b']]) (boot.take 1) = some s ∧ s.infos.get ['a'] = some info ∧
        info.isEnabled = true ∧ ['a'] ∉ s.enable ∧ ¬ Started s ['a']) ∧
      ∃ t, exec next (fresh [['b']])
          (boot ++ [⟨.install true, pluginsAround [entryPoint ['b'], entryPoint ['c']]⟩]) = some t ∧
        (⟨1, ['h']⟩ : Listener) ∈ t.events.listeners () ∧ ∀ n, t.plugins.get n ≠ some 1 := by
  constructor
  · refine ⟨_, ⟨none, true, true, false⟩, rfl, rfl, rfl, by decide +kernel, ?_⟩
    intro ⟨i, hi, hs⟩
    cases (show (some 0 : Option Nat) = some i from hi)
    cases hs
  · refine ⟨_, rfl, by decide +kernel, fun n hn => ?_⟩
    have habsent : 1 ∉ ((exec next (fresh [['b']])
        (boot ++ [⟨.install true, pluginsAround [entryPoint ['b'], entryPoint ['c']]⟩])).map
          (fun t => t.plugins.values)).getD [] := by
      decide +kernel
    exact habsent (Dict.mem_values_iff.mpr ⟨n, hn⟩)

end Kirara.PluginRuns
