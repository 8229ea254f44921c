import Kirara.WorkflowRegistries

namespace Kirara.WorkflowLoading

open Kirara.Channels Kirara.Dicts Kirara.WorkflowRegistries
open Kirara.DispatchRegistries (Tombstones)

variable {β χ : Type}

/-- A preset that code registers, with its path in place of the group and the id. -/
abbrev Preset (β : Type) := WorkflowPath × WorkflowBuilder β

/-- The presets that come with the program as files. -/
structure Bundle (χ : Type) where
  presets : List (WorkflowPath × χ)
  valid : ∀ b ∈ presets, ValidPath b.1

def registerPresets (presets : List (Preset β)) (s : State β χ) : State β χ :=
  ⟨presets.foldl (fun r p => r.registerPresetWorkflow p.1 p.2) s.registry, s.storage⟩

/-- A new registry, with presets that are registered before it loads and after. -/
def boot (format : BuilderFormat β χ) (bundle : Bundle χ) (before after : List (Preset β)) (faults : LoadFaults χ)
    (storage : Storage χ) : State β χ :=
  registerPresets after (loadWorkflows format faults bundle.presets (registerPresets before ⟨.empty, storage⟩))

def Registered (presets : List (Preset β)) (k : Text) : Prop := ∃ p ∈ presets, workflowName p.1 = k

/-- A file holds a workflow under this name that can be loaded. -/
def Saved (format : BuilderFormat β χ) (files : Dict WorkflowPath χ) (k : Text) : Prop :=
  ∃ path content, files.get path = some content ∧ (format.loadFromYaml content).isSome = true ∧ workflowName path = k

theorem workflowName_injective {p q : WorkflowPath} (hp : ValidPath p) (h : workflowName p = workflowName q) : p = q := by
  have hcolon {t : Text} (ht : validSymbols t = true) : ':' ∉ t := by
    intro hm
    have hall := List.all_eq_true.mp (Bool.and_eq_true_iff.mp ht).2 ':' hm
    exact absurd hall (by decide)
  obtain ⟨g, n⟩ := p
  obtain ⟨g', n'⟩ := q
  have hg : ':' ∉ g := hcolon hp.1
  have hn : ':' ∉ n := hcolon hp.2
  -- The first colon is the one between the two parts, and there is no second one.
  cases List.append_eq_append_iff.mp h with
  | inl h =>
    obtain ⟨rest, hrest, htail⟩ := h
    cases rest with
    | nil => simp_all
    | cons c rest =>
      obtain ⟨-, htail⟩ := List.cons.inj htail
      change n = rest ++ ':' :: n' at htail
      exact absurd (by simp [htail]) hn
  | inr h =>
    obtain ⟨rest, hrest, htail⟩ := h
    cases rest with
    | nil => simp_all
    | cons c rest =>
      obtain ⟨rfl, -⟩ := List.cons.inj htail
      change g = g' ++ ':' :: rest at hrest
      exact absurd (by simp [hrest]) hg

section Presets

variable {r : WorkflowRegistry β} {presets : List (Preset β)}

structure Enrolled (presets : List (Preset β)) (r t : WorkflowRegistry β) : Prop where
  deleted : t.deletedPresetWorkflowIds = r.deletedPresetWorkflowIds
  known : ∀ k, k ∈ t.presetWorkflowIds ↔ k ∈ r.presetWorkflowIds ∨ Registered presets k
  keys : ∀ k, k ∈ t.workflows.keys ↔
    k ∈ r.workflows.keys ∨ Registered presets k ∧ k ∉ r.deletedPresetWorkflowIds

variable (path : WorkflowPath) (builder : WorkflowBuilder β)

theorem keys_registerPresetWorkflow (k : Text) : k ∈ (r.registerPresetWorkflow path builder).workflows.keys ↔
      k ∈ r.workflows.keys ∨ workflowName path = k ∧ k ∉ r.deletedPresetWorkflowIds := by
  unfold WorkflowRegistry.registerPresetWorkflow
  dsimp only
  split
  · next hdeleted =>
    refine ⟨.inl, fun h => h.elim id fun ⟨he, hk⟩ => ?_⟩
    exact absurd (he ▸ hdeleted) hk
  · next hkept =>
    split
    · next hthere => exact ⟨.inl, fun h => h.elim id fun ⟨he, _⟩ => he ▸ hthere⟩
    rw [Dict.mem_keys_set]
    constructor
    · intro h
      cases h with
      | inl he => exact .inr ⟨he.symm, he ▸ hkept⟩
      | inr hk => exact .inl hk
    · exact fun h => h.elim .inr fun ⟨he, _⟩ => .inl he.symm

theorem deleted_registerPresetWorkflow :
    (r.registerPresetWorkflow path builder).deletedPresetWorkflowIds = r.deletedPresetWorkflowIds := by
  unfold WorkflowRegistry.registerPresetWorkflow
  dsimp only
  split
  · rfl
  · split <;> rfl

theorem known_registerPresetWorkflow :
    (r.registerPresetWorkflow path builder).presetWorkflowIds = insert (workflowName path) r.presetWorkflowIds := by
  unfold WorkflowRegistry.registerPresetWorkflow
  dsimp only
  split
  · rfl
  · split <;> rfl

theorem enrolled (presets : List (Preset β)) (r : WorkflowRegistry β) :
    Enrolled presets r (presets.foldl (fun r p => r.registerPresetWorkflow p.1 p.2) r) := by
  induction presets generalizing r with
  | nil =>
    have hnone : ∀ k, ¬ Registered ([] : List (Preset β)) k := fun k ⟨p, hp, _⟩ => (nomatch hp)
    exact ⟨rfl, fun k => by simp [hnone], fun k => by simp [hnone]⟩
  | cons p presets ih =>
    have hcons : ∀ k, Registered (p :: presets) k ↔ workflowName p.1 = k ∨ Registered presets k := by
      simp [Registered]
    obtain ⟨hdeleted, hknown, hkeys⟩ := ih (r.registerPresetWorkflow p.1 p.2)
    constructor
    · exact hdeleted.trans (deleted_registerPresetWorkflow p.1 p.2)
    · intro k
      rw [List.foldl_cons, hknown, known_registerPresetWorkflow, Finset.mem_insert, hcons, or_assoc, or_left_comm,
        eq_comm]
    · intro k
      rw [List.foldl_cons, hkeys, keys_registerPresetWorkflow, deleted_registerPresetWorkflow, hcons, or_and_right,
        or_assoc]

end Presets

section Extraction

variable {s t : State β χ} {presets : List (WorkflowPath × χ)}

/-- What copying the bundled presets comes to where no copy fails. -/
structure Extracted (presets : List (WorkflowPath × χ)) (s t : State β χ) : Prop where
  workflows : t.registry.workflows = s.registry.workflows
  deleted : t.registry.deletedPresetWorkflowIds = s.registry.deletedPresetWorkflowIds
  known : ∀ b ∈ presets, workflowName b.1 ∈ t.registry.presetWorkflowIds
  still : s.registry.presetWorkflowIds ⊆ t.registry.presetWorkflowIds
  tombstones : t.storage.files.tombstones = s.storage.files.tombstones
  journals : t.storage.journals = s.storage.journals
  kept : ∀ path ∈ s.storage.files.workflows.keys, path ∈ t.storage.files.workflows.keys
  new : ∀ path content, t.storage.files.workflows.get path = some content →
    s.storage.files.workflows.get path = some content ∨ workflowName path ∉ s.registry.deletedPresetWorkflowIds
  present : ∀ b ∈ presets, workflowName b.1 ∈ s.registry.deletedPresetWorkflowIds ∨
    b.1 ∈ t.storage.files.workflows.keys
  unchanged : (∀ b ∈ presets, workflowName b.1 ∈ s.registry.deletedPresetWorkflowIds ∨
    b.1 ∈ s.storage.files.workflows.keys) → t.storage = s.storage

theorem extracted_one (faults : LoadFaults χ) (b : WorkflowPath × χ)
    (hcopy : workflowName b.1 ∉ s.registry.deletedPresetWorkflowIds → b.1 ∉ s.storage.files.workflows.keys →
      faults.copyFails b.1 = none) : Extracted [b] s (extractPreset faults s b) := by
  unfold extractPreset
  dsimp only
  split
  · next hdeleted =>
    refine ⟨rfl, rfl, ?_, ?_, rfl, rfl, fun _ h => h, fun _ _ h => .inl h, ?_, fun _ => rfl⟩
    · simp
    · exact Finset.subset_insert _ _
    · exact List.forall_mem_singleton.mpr (.inl hdeleted)
  · next hkept =>
    split
    · next hthere =>
      refine ⟨rfl, rfl, ?_, ?_, rfl, rfl, fun _ h => h, fun _ _ h => .inl h, ?_, fun _ => rfl⟩
      · simp
      · exact Finset.subset_insert _ _
      · exact List.forall_mem_singleton.mpr (.inr hthere)
    · next hfree =>
      rw [hcopy hkept hfree]
      refine ⟨rfl, rfl, ?_, ?_, rfl, rfl, ?_, ?_, ?_, ?_⟩
      · simp
      · exact Finset.subset_insert _ _
      · exact fun path hpath => Dict.mem_keys_set.mpr (.inr hpath)
      · intro path content hget
        change (s.storage.files.workflows.set b.1 b.2).get path = some content at hget
        rw [Dict.get_set] at hget
        split at hget
        · next he => exact .inr (he ▸ hkept)
        · exact .inl hget
      · exact List.forall_mem_singleton.mpr (.inr (Dict.mem_keys_set.mpr (.inl rfl)))
      · intro h
        exact absurd (List.forall_mem_singleton.mp h) (not_or.mpr ⟨hkept, hfree⟩)

theorem extracted (faults : LoadFaults χ) (presets : List (WorkflowPath × χ)) (s : State β χ)
    (hcopy : ∀ b ∈ presets, workflowName b.1 ∉ s.registry.deletedPresetWorkflowIds →
      b.1 ∉ s.storage.files.workflows.keys → faults.copyFails b.1 = none) :
    Extracted presets s (presets.foldl (extractPreset faults) s) := by
  induction presets generalizing s with
  | nil => exact ⟨rfl, rfl, nofun, subset_rfl, rfl, rfl, fun _ h => h, fun _ _ h => .inl h, nofun, fun _ => rfl⟩
  | cons b presets ih =>
    have hone := extracted_one faults b (hcopy b List.mem_cons_self)
    have hrest := ih (extractPreset faults s b) fun c hc hmark hfree => by
      refine hcopy c (List.mem_cons_of_mem b hc) (hone.deleted ▸ hmark) (fun hm => hfree (hone.kept c.1 hm))
    constructor
    · exact hrest.workflows.trans hone.workflows
    · exact hrest.deleted.trans hone.deleted
    · intro c hc
      cases List.mem_cons.mp hc with
      | inl hc => exact hrest.still (hc ▸ hone.known b List.mem_cons_self)
      | inr hc => exact hrest.known c hc
    · exact hone.still.trans hrest.still
    · exact hrest.tombstones.trans hone.tombstones
    · exact hrest.journals.trans hone.journals
    · exact fun path hpath => hrest.kept path (hone.kept path hpath)
    · intro path content hget
      cases hrest.new path content hget with
      | inl hget => exact hone.new path content hget
      | inr hmark => exact .inr (hone.deleted ▸ hmark)
    · intro c hc
      cases List.mem_cons.mp hc with
      | inl hc =>
        subst hc
        exact (hone.present c List.mem_cons_self).imp_right (hrest.kept c.1)
      | inr hc => exact hone.deleted ▸ hrest.present c hc
    · intro h
      have hfirst := hone.unchanged (fun c hc => List.mem_singleton.mp hc ▸ h b List.mem_cons_self)
      refine (hrest.unchanged fun c hc => ?_).trans hfirst
      rw [hone.deleted, hfirst]
      exact h c (List.mem_cons_of_mem b hc)

end Extraction

section Scanning

variable {format : BuilderFormat β χ} {faults : LoadFaults χ} {s : State β χ} {files : List (WorkflowPath × χ)} {k : Text}

def Listed (format : BuilderFormat β χ) (files : List (WorkflowPath × χ)) (k : Text) : Prop :=
  ∃ e ∈ files, (format.loadFromYaml e.2).isSome = true ∧ workflowName e.1 = k

theorem listed_entries {d : Dict WorkflowPath χ} : Listed format d.entries k ↔ Saved format d k := by
  constructor
  · intro ⟨e, he, hload, hname⟩
    exact ⟨e.1, e.2, Dict.get_eq_some_iff.mpr he, hload, hname⟩
  · intro ⟨path, content, hget, hload, hname⟩
    exact ⟨(path, content), Dict.get_eq_some_iff.mp hget, hload, hname⟩

/-- What loading the files comes to where the marks can be written. -/
structure Scanned (format : BuilderFormat β χ) (files : List (WorkflowPath × χ)) (s t : State β χ) : Prop where
  workflows : t.storage.files.workflows = s.storage.files.workflows
  journals : t.storage.journals = s.storage.journals
  marks : t.registry.deletedPresetWorkflowIds = t.storage.files.tombstones.marks
  deleted : ∀ k, k ∈ t.registry.deletedPresetWorkflowIds ↔
    k ∈ s.registry.deletedPresetWorkflowIds ∧ ¬ Listed format files k
  known : t.registry.presetWorkflowIds = s.registry.presetWorkflowIds
  keys : ∀ k, k ∈ t.registry.workflows.keys ↔ k ∈ s.registry.workflows.keys ∨ Listed format files k

theorem listed_singleton {e : WorkflowPath × χ} :
    Listed format [e] k ↔ (format.loadFromYaml e.2).isSome = true ∧ workflowName e.1 = k := by
  simp [Listed]

theorem scanned_one (e : WorkflowPath × χ) (hmarks : s.registry.deletedPresetWorkflowIds = s.storage.files.tombstones.marks)
    (hwrite : ∀ k ∈ s.registry.deletedPresetWorkflowIds, Listed format [e] k → faults.writes k = .done) :
    Scanned format [e] s (loadFile format faults s e) := by
  unfold loadFile
  cases hload : format.loadFromYaml e.2 with
  | none =>
    have hnot : ∀ k, ¬ Listed format [e] k := by simp [listed_singleton, hload]
    exact ⟨rfl, rfl, hmarks, fun k => by simp [hnot], rfl, fun k => by simp [hnot]⟩
  | some body =>
    have hlisted : ∀ k, Listed format [e] k ↔ k = workflowName e.1 := by
      intro k
      simp [listed_singleton, hload, eq_comm]
    dsimp only [registerLoaded]
    split
    · next hmem =>
      rw [hwrite _ hmem ((hlisted _).mpr rfl)]
      refine ⟨rfl, rfl, rfl, fun k => ?_, rfl, fun k => ?_⟩
      · rw [hlisted]
        exact Finset.mem_erase.trans and_comm
      · rw [hlisted]
        exact Dict.mem_keys_set.trans or_comm
    · next hfree =>
      refine ⟨rfl, rfl, hmarks, fun k => ?_, rfl, fun k => ?_⟩
      · rw [hlisted]
        exact ⟨fun hk => ⟨hk, fun he => hfree (he ▸ hk)⟩, And.left⟩
      · rw [hlisted]
        exact Dict.mem_keys_set.trans or_comm

theorem scanned (files : List (WorkflowPath × χ)) (s : State β χ)
    (hmarks : s.registry.deletedPresetWorkflowIds = s.storage.files.tombstones.marks)
    (hwrite : ∀ k ∈ s.registry.deletedPresetWorkflowIds, Listed format files k → faults.writes k = .done) :
    Scanned format files s (files.foldl (loadFile format faults) s) := by
  induction files generalizing s with
  | nil =>
    have hnot : ∀ k, ¬ Listed format [] k := fun k ⟨e, he, _⟩ => (nomatch he)
    exact ⟨rfl, rfl, hmarks, fun k => by simp [hnot], rfl, fun k => by simp [hnot]⟩
  | cons e files ih =>
    have hcons : ∀ k, Listed format (e :: files) k ↔ Listed format [e] k ∨ Listed format files k := by
      simp [Listed]
    have hone := scanned_one e hmarks fun k hk hlisted => hwrite k hk ((hcons k).mpr (.inl hlisted))
    have hrest := ih (loadFile format faults s e) hone.marks fun k hk hlisted =>
      hwrite k ((hone.deleted k).mp hk).1 ((hcons k).mpr (.inr hlisted))
    constructor
    · exact hrest.workflows.trans hone.workflows
    · exact hrest.journals.trans hone.journals
    · exact hrest.marks
    · intro k
      rw [List.foldl_cons, hrest.deleted, hone.deleted, hcons, not_or, and_assoc]
    · exact hrest.known.trans hone.known
    · intro k
      rw [List.foldl_cons, hrest.keys, hone.keys, hcons, or_assoc]

end Scanning

variable {format : BuilderFormat β χ} {bundle : Bundle χ} {faults : LoadFaults χ} {s : State β χ}
  {storage : Storage χ}

/-- The steps of a load that are needed go through. -/
structure GoesThrough (format : BuilderFormat β χ) (bundle : Bundle χ) (faults : LoadFaults χ)
    (files : WorkflowDirectory χ) : Prop where
  copies : ∀ b ∈ bundle.presets, workflowName b.1 ∉ files.tombstones.marks → b.1 ∉ files.workflows.keys →
    faults.copyFails b.1 = none
  writes : ∀ k ∈ files.tombstones.marks, Saved format files.workflows k → faults.writes k = .done

/-- Memory and files of a process that has started agree. -/
structure Agreeing (format : BuilderFormat β χ) (bundle : Bundle χ) (registered : List (Preset β)) (s : State β χ) :
    Prop where
  settled : s.storage.journals = []
  marks : s.registry.deletedPresetWorkflowIds = s.storage.files.tombstones.marks
  known : ∀ k, Registered registered k → k ∈ s.registry.presetWorkflowIds
  bundled : ∀ b ∈ bundle.presets, workflowName b.1 ∈ s.registry.presetWorkflowIds
  keys : ∀ k, k ∈ s.registry.workflows.keys ↔ Saved format s.storage.files.workflows k ∨
    Registered registered k ∧ k ∉ s.registry.deletedPresetWorkflowIds
  present : ∀ b ∈ bundle.presets, workflowName b.1 ∈ s.registry.deletedPresetWorkflowIds ∨
    b.1 ∈ s.storage.files.workflows.keys
  apart : ∀ k, Saved format s.storage.files.workflows k → k ∉ s.registry.deletedPresetWorkflowIds

/-- Marks go only for workflows that are there, and files come only where nothing was deleted. -/
structure Started (format : BuilderFormat β χ) (bundle : Bundle χ) (files : WorkflowDirectory χ) (t : State β χ) : Prop where
  marks : ∀ k, k ∈ t.registry.deletedPresetWorkflowIds ↔
    k ∈ files.tombstones.marks ∧ ¬ Saved format t.storage.files.workflows k
  new : ∀ k, Saved format t.storage.files.workflows k → Saved format files.workflows k ∨ k ∉ files.tombstones.marks
  unchanged : (∀ b ∈ bundle.presets, workflowName b.1 ∈ files.tombstones.marks ∨ b.1 ∈ files.workflows.keys) →
    t.storage.files.workflows = files.workflows

theorem loadPresetTombstones_fresh {r : WorkflowRegistry β} (hr : r.deletedPresetWorkflowIds = ∅) (tombstones : Tombstones) :
    (r.loadPresetTombstones tombstones).deletedPresetWorkflowIds = tombstones.marks := by
  cases tombstones with
  | missing => rfl
  | invalid => exact hr
  | ids ids => rfl

theorem loadPresetTombstones_workflows (r : WorkflowRegistry β) (tombstones : Tombstones) :
    (r.loadPresetTombstones tombstones).workflows = r.workflows ∧
      (r.loadPresetTombstones tombstones).presetWorkflowIds = r.presetWorkflowIds := by
  cases tombstones with
  | missing | invalid | ids => exact ⟨rfl, rfl⟩

theorem boot_spec (before after : List (Preset β)) (hsettled : storage.journals = []) (hcalm : GoesThrough format bundle faults storage.files)
    (hbefore : ∀ k, Registered before k → k ∉ storage.files.tombstones.marks) :
    Agreeing format bundle (before ++ after) (boot format bundle before after faults storage) ∧
      Started format bundle storage.files (boot format bundle before after faults storage) := by
  let files := storage.files
  have hrecovered : recoverDirectory storage = ⟨files, []⟩ := by rw [recoverDirectory, hsettled, List.foldl_nil]
  have hfirst := enrolled before (.empty : WorkflowRegistry β)
  let r₀ : WorkflowRegistry β := before.foldl (fun r p => r.registerPresetWorkflow p.1 p.2) .empty
  let marked : State β χ := ⟨r₀.loadPresetTombstones files.tombstones, ⟨files, []⟩⟩
  have hmarked : marked.registry.deletedPresetWorkflowIds = files.tombstones.marks :=
    loadPresetTombstones_fresh hfirst.deleted files.tombstones
  obtain ⟨hworkflows, hpresets⟩ := loadPresetTombstones_workflows r₀ files.tombstones
  have hextracted := extracted faults bundle.presets marked fun b hb hmark hfree =>
    hcalm.copies b hb (hmarked ▸ hmark) hfree
  let copied := bundle.presets.foldl (extractPreset faults) marked
  have hdeleted : copied.registry.deletedPresetWorkflowIds = files.tombstones.marks := hextracted.deleted.trans hmarked
  have hnew : ∀ k, Saved format copied.storage.files.workflows k → Saved format files.workflows k ∨
      k ∉ files.tombstones.marks := by
    intro k ⟨path, content, hget, hload, hname⟩
    cases hextracted.new path content hget with
    | inl hget => exact .inl ⟨path, content, hget, hload, hname⟩
    | inr hmark => exact .inr (hname ▸ hmarked ▸ hmark)
  have hscanned : Scanned format copied.storage.files.workflows.entries copied
      (copied.storage.files.workflows.entries.foldl (loadFile format faults) copied) := by
    apply scanned
    · rw [hdeleted, hextracted.tombstones]
    · intro k hk hlisted
      rw [hdeleted] at hk
      exact hcalm.writes k hk ((hnew k (listed_entries.mp hlisted)).resolve_right (not_not.mpr hk))
  let loaded := copied.storage.files.workflows.entries.foldl (loadFile format faults) copied
  have hlast := enrolled after loaded.registry
  have hboot : boot format bundle before after faults storage = registerPresets after loaded := by
    simp only [boot, loadWorkflows, registerPresets, hrecovered]
    rfl
  have hsaved : ∀ k, Listed format copied.storage.files.workflows.entries k ↔
      Saved format loaded.storage.files.workflows k := fun k => by rw [listed_entries, hscanned.workflows]
  have hmarks : ∀ k, k ∈ loaded.registry.deletedPresetWorkflowIds ↔
      k ∈ files.tombstones.marks ∧ ¬ Saved format loaded.storage.files.workflows k := by
    intro k
    rw [hscanned.deleted, hdeleted, hsaved]
  have hregistered : ∀ k, Registered (before ++ after) k ↔ Registered before k ∨ Registered after k := by
    intro k
    simp [Registered, or_and_right, exists_or]
  have hknown : copied.registry.presetWorkflowIds ⊆ (registerPresets after loaded).registry.presetWorkflowIds := by
    intro k hk
    exact (hlast.known k).mpr (.inl (hscanned.known ▸ hk))
  rw [hboot]
  refine ⟨⟨?_, ?_, ?_, ?_, ?_, ?_, ?_⟩, ?_, ?_, ?_⟩
  · exact hscanned.journals.trans hextracted.journals
  · exact hlast.deleted.trans hscanned.marks
  · intro k hk
    cases (hregistered k).mp hk with
    | inl hk =>
      apply hknown
      apply hextracted.still
      rw [hpresets]
      exact (hfirst.known k).mpr (.inr hk)
    | inr hk => exact (hlast.known k).mpr (.inr hk)
  · exact fun b hb => hknown (hextracted.known b hb)
  · intro k
    have hempty : k ∉ (WorkflowRegistry.empty : WorkflowRegistry β).workflows.keys := nofun
    have hkeys : k ∈ copied.registry.workflows.keys ↔ Registered before k := by
      rw [hextracted.workflows, hworkflows, hfirst.keys]
      constructor
      · exact fun h => (h.resolve_left hempty).1
      · exact fun h => .inr ⟨h, by simp [WorkflowRegistry.empty]⟩
    have hstays : Registered before k → k ∉ loaded.registry.deletedPresetWorkflowIds := by
      intro hk hm
      exact hbefore k hk ((hmarks k).mp hm).1
    change k ∈ (registerPresets after loaded).registry.workflows.keys ↔ _
    rw [registerPresets, hlast.keys, hscanned.keys, hkeys, hsaved, hregistered, hlast.deleted]
    change (Registered before k ∨ Saved format loaded.storage.files.workflows k) ∨ _ ↔
      Saved format loaded.storage.files.workflows k ∨ _
    grind
  · intro b hb
    rw [registerPresets, hlast.deleted, hmarks]
    change _ ∨ b.1 ∈ loaded.storage.files.workflows.keys
    rw [hscanned.workflows]
    cases hextracted.present b hb with
    | inr hpresent => exact .inr hpresent
    | inl hmark =>
      by_cases hsave : Saved format copied.storage.files.workflows (workflowName b.1)
      · obtain ⟨path, content, hget, -, hname⟩ := hsave
        rw [workflowName_injective (bundle.valid b hb) hname.symm]
        exact .inr (Dict.isSome_get_iff.mp (by rw [hget]; rfl))
      · exact .inl ⟨hmarked ▸ hmark, hsave⟩
  · intro k hsave hm
    rw [registerPresets, hlast.deleted, hmarks] at hm
    exact hm.2 hsave
  · intro k
    rw [registerPresets, hlast.deleted]
    exact hmarks k
  · intro k hsave
    exact hnew k (listed_entries.mp ((hsaved k).mpr hsave))
  · intro h
    have hsame := hextracted.unchanged fun b hb => hmarked.symm ▸ h b hb
    change loaded.storage.files.workflows = _
    rw [hscanned.workflows, hsame]

end Kirara.WorkflowLoading
