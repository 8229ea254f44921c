import Kirara.Schedules
import Kirara.WorkflowLoading

namespace Kirara.WorkflowRestarts

open Kirara.Channels Kirara.Dicts Kirara.Schedules Kirara.WorkflowLoading Kirara.WorkflowRegistries
open Kirara.DispatchRegistries (Tombstones)

variable {β χ : Type} (format : BuilderFormat β χ) (bundle : Bundle χ)

/-- A process on its data directory, with the ids of presets deleted or renamed away. -/
structure World (β χ : Type) where
  state : State β χ
  running : Bool
  registered : List (Preset β)
  gone : Finset Text

inductive Operation (β χ : Type) where
  | boot (before after : List (Preset β)) (faults : LoadFaults χ)
  | restart (faults : LoadFaults χ)
  | registerPreset (preset : Preset β)
  | persist (path : WorkflowPath) (body : β) (previousGroupId previousWorkflowId : Option Text) (createOnly : Bool)
      (commit : Commit)
  | delete (path : WorkflowPath) (commit : Commit)

def perform (s : State β χ) : Operation β χ → Except RegistryError Unit × State β χ
  | .persist path body previousGroupId previousWorkflowId createOnly commit =>
    persistBuilder format s path body previousGroupId previousWorkflowId createOnly commit
  | .delete path commit => deletePersisted s path commit
  | .registerPreset preset => (.ok (), registerPresets [preset] s)
  | .boot before after faults => (.ok (), boot format bundle before after faults s.storage)
  | .restart faults => (.ok (), boot format bundle [] [] faults s.storage)

def World.goneAfter (w : World β χ) : Operation β χ → Finset Text
  | .persist path _ previousGroupId previousWorkflowId _ _ =>
    let i := identify path previousGroupId previousWorkflowId
    let kept := w.gone.erase i.fullName
    if i.previousName ≠ i.fullName ∧ i.previousName ∈ w.state.registry.presetWorkflowIds then
      insert i.previousName kept
    else kept
  | .delete path _ =>
    if workflowName path ∈ w.state.registry.presetWorkflowIds then insert (workflowName path) w.gone else w.gone
  | .registerPreset _ | .boot .. | .restart _ => w.gone

/-- A restart registers the presets that were registered, after it has loaded. -/
def next (w : World β χ) (l : Operation β χ) : Option (World β χ) :=
  match l with
  | .boot before after faults =>
    some { w with
      state := boot format bundle before after faults w.state.storage
      running := true
      registered := before ++ after }
  | .restart faults =>
    if w.running then some { w with state := boot format bundle [] w.registered faults w.state.storage } else none
  | .registerPreset preset =>
    if w.running then
      some { w with state := registerPresets [preset] w.state, registered := w.registered ++ [preset] }
    else none
  | .persist .. | .delete .. =>
    if w.running then
      match perform format bundle w.state l with
      | (.ok (), s) => some { w with state := s, gone := w.goneAfter l }
      | (.error _, s) => some { w with state := s }
    else none

def start (files : WorkflowDirectory χ) : World β χ := ⟨⟨.empty, ⟨files, []⟩⟩, false, [], ∅⟩

def Commit.Clean : Commit → Prop
  | .done => True
  | .undone calledBack => calledBack = false
  | .left .. => False

/-- An edit removes the file of the workflow that it takes out of the registry. -/
def Matching (s : State β χ) (i : Identity) : Prop :=
  workflowName i.previousPath = i.previousName ∨
    (i.previousPath = i.path ∨ i.previousPath ∉ s.storage.files.workflows.keys) ∧
      (i.previousName = i.fullName ∨ ∀ path ∈ s.storage.files.workflows.keys, workflowName path ≠ i.previousName)

/-- Loads go through before presets are registered over marks; commits are clean. -/
def Orderly (w : World β χ) : Operation β χ → Prop
  | .boot before _ faults => GoesThrough format bundle faults w.state.storage.files ∧
      ∀ k, Registered before k → k ∉ w.state.storage.files.tombstones.marks
  | .persist path body previousGroupId previousWorkflowId createOnly commit =>
    let i := identify path previousGroupId previousWorkflowId
    ∀ plan, persistPlan format w.state i body createOnly = .ok plan → Commit.Clean commit ∧ Matching w.state i
  | .delete path commit => ∀ plan, deletePlan w.state path = .ok plan → Commit.Clean commit
  | .registerPreset _ | .restart _ => True

/-- Operations that raise change nothing, a restart brings the same workflows back, and gone
presets stay away. -/
structure Kept (w : World β χ) (l : Operation β χ) (v : World β χ) : Prop where
  raised : (perform format bundle w.state l).1 ≠ .ok () → v.state.registry = w.state.registry ∧
    v.state.storage = w.state.storage
  restarted : ∀ faults, l = .restart faults →
    ∀ k, k ∈ v.state.registry.workflows.keys ↔ k ∈ w.state.registry.workflows.keys
  away : ∀ k ∈ v.gone, k ∉ v.state.registry.workflows.keys

structure Inv (w : World β χ) : Prop where
  settled : w.state.storage.journals = []
  marked : ∀ k ∈ w.gone, k ∈ w.state.storage.files.tombstones.marks
  absent : ∀ k ∈ w.gone, ¬ Saved format w.state.storage.files.workflows k
  agreeing : w.running = true → Agreeing format bundle w.registered w.state

variable {format bundle} {w v : World β χ} {s : State β χ} {registered : List (Preset β)}

section Plans

variable {i : Identity} {body : β} {createOnly : Bool} {plan : Plan β χ} {path : WorkflowPath}

theorem resolve_ok (h : resolveWorkflowPath path = .ok path) : ValidPath path := by
  unfold resolveWorkflowPath at h
  split at h
  · exact (nomatch h)
  · next hw =>
    split at h
    · exact (nomatch h)
    · next hg => exact ⟨by simpa using hg, by simpa using hw⟩

theorem resolve_eq {q : WorkflowPath} (h : resolveWorkflowPath path = .ok q) : q = path := by
  unfold resolveWorkflowPath at h
  split at h
  · exact (nomatch h)
  split at h
  · exact (nomatch h)
  · cases h
    rfl

theorem valid_of_resolve {q : WorkflowPath} (h : resolveWorkflowPath path = .ok q) : ValidPath path := by
  cases resolve_eq h
  exact resolve_ok h

theorem persistPlan_ok (h : persistPlan format s i body createOnly = .ok plan) :
    ValidPath i.path ∧ ValidPath i.previousPath ∧
      plan.mutations = [.write i.path (format.saveToYaml body), .mark (.ids (persistTombstones s i))] ++
        (if i.previousPath ≠ i.path then [.remove i.previousPath] else []) ∧
      ∀ r, plan.publishRegistry r = { r with
        workflows :=
          (if i.previousName ≠ i.fullName then r.workflows.pop i.previousName else r.workflows).set i.fullName
            ⟨body, some i.fullName⟩
        deletedPresetWorkflowIds := persistTombstones s i } := by
  unfold persistPlan at h
  split at h
  · exact (nomatch h)
  · exact (nomatch h)
  · next hnew hprevious =>
    split at h
    · exact (nomatch h)
    split at h
    · exact (nomatch h)
    split at h
    · exact (nomatch h)
    · cases h
      exact ⟨valid_of_resolve hnew, valid_of_resolve hprevious, rfl, fun _ => rfl⟩

theorem deletePlan_ok (h : deletePlan s path = .ok plan) : ValidPath path ∧
    plan.mutations = [.remove path, .mark (.ids (deleteTombstones s path))] ∧
      ∀ r, plan.publishRegistry r = { r with
        workflows := r.workflows.pop (workflowName path)
        deletedPresetWorkflowIds := deleteTombstones s path } := by
  unfold deletePlan at h
  split at h
  · exact (nomatch h)
  split at h
  · exact (nomatch h)
  · next hpath =>
    cases h
    exact ⟨valid_of_resolve hpath, rfl, fun _ => rfl⟩

theorem execute_clean {answer : Except RegistryError Unit} {t : State β χ} {commit : Commit}
    {plan : Except RegistryError (Plan β χ)} (hclean : ∀ p, plan = .ok p → Commit.Clean commit)
    (h : execute s plan commit = (answer, t)) :
    (∃ e, answer = .error e) ∧ t = s ∨ ∃ p, plan = .ok p ∧ answer = .ok () ∧
      t = ⟨p.publishRegistry s.registry, { s.storage with files := applyAll s.storage.files p.mutations }⟩ := by
  unfold execute at h
  cases plan with
  | error e =>
    cases h
    exact .inl ⟨⟨e, rfl⟩, rfl⟩
  | ok p =>
    cases commit with
    | done =>
      cases h
      exact .inr ⟨p, rfl, rfl, rfl⟩
    | undone calledBack =>
      obtain rfl : calledBack = false := hclean p rfl
      cases h
      exact .inl ⟨⟨_, rfl⟩, rfl⟩
    | left calledBack published forward => exact (hclean p rfl).elim

end Plans

variable {i : Identity} {body : β}

def editedFiles (format : BuilderFormat β χ) (i : Identity) (body : β) (d : Dict WorkflowPath χ) : Dict WorkflowPath χ :=
  if i.previousPath ≠ i.path then (d.set i.path (format.saveToYaml body)).pop i.previousPath
  else d.set i.path (format.saveToYaml body)

theorem get_editedFiles (d : Dict WorkflowPath χ) (path : WorkflowPath) :
    (editedFiles format i body d).get path = if path = i.path then some (format.saveToYaml body)
      else if path = i.previousPath then none else d.get path := by
  unfold editedFiles
  by_cases hremoved : i.previousPath = i.path
  · rw [if_neg (not_not.mpr hremoved), Dict.get_set, hremoved]
    split
    · rfl
    · rfl
  · rw [if_pos hremoved, Dict.get_pop, Dict.get_set]
    by_cases hpath : path = i.path
    · have hne : path ≠ i.previousPath := fun he => hremoved (he.symm.trans hpath)
      rw [if_neg hne, if_pos hpath, if_pos hpath]
    · rw [if_neg hpath, if_neg hpath]

variable {d : Dict WorkflowPath χ} {k : Text}

theorem saved_editedFiles :
    Saved format (editedFiles format i body d) k ↔ k = i.fullName ∨ ∃ path content, d.get path = some content ∧
      (format.loadFromYaml content).isSome = true ∧ workflowName path = k ∧ path ≠ i.path ∧ path ≠ i.previousPath := by
  constructor
  · intro ⟨path, content, hcontent, hload, hname⟩
    rw [get_editedFiles] at hcontent
    split at hcontent
    · next he =>
      rw [he] at hname
      exact .inl hname.symm
    · next hne =>
      split at hcontent
      · exact (nomatch hcontent)
      · next hprevious => exact .inr ⟨path, content, hcontent, hload, hname, hne, hprevious⟩
  · intro h
    cases h with
    | inl h => exact ⟨i.path, _, by rw [get_editedFiles, if_pos rfl], format.reloads body, h.symm⟩
    | inr h =>
      obtain ⟨path, content, hcontent, hload, hname, hne, hprevious⟩ := h
      exact ⟨path, content, by rw [get_editedFiles, if_neg hne, if_neg hprevious, hcontent], hload, hname⟩

theorem mem_keys_of_get {path : WorkflowPath} {content : χ} (h : d.get path = some content) :
    path ∈ d.keys := Dict.isSome_get_iff.mp (by rw [h]; rfl)

theorem mem_keys_editedFiles {path : WorkflowPath} :
    path ∈ (editedFiles format i body d).keys ↔ path = i.path ∨ path ∈ d.keys ∧ path ≠ i.previousPath := by
  rw [← Dict.isSome_get_iff, get_editedFiles]
  split
  · next he => simp [he]
  · next hne =>
    split
    · next he => exact ⟨nofun, fun h => h.elim (absurd · hne) (fun h => absurd he h.2)⟩
    · next hother => simp [hne, hother, Dict.isSome_get_iff]

theorem mem_persistTombstones : k ∈ persistTombstones s i ↔
    k ≠ i.fullName ∧ k ∈ s.registry.deletedPresetWorkflowIds ∨
      k = i.previousName ∧ i.previousName ≠ i.fullName ∧ i.previousName ∈ s.registry.presetWorkflowIds := by
  unfold persistTombstones
  dsimp only
  split
  · next h =>
    rw [Finset.mem_insert, Finset.mem_erase]
    tauto
  · next h =>
    rw [Finset.mem_erase]
    tauto

theorem stays_apart {path : WorkflowPath} (hprevious : ValidPath i.previousPath) (hmatch : Matching s i)
    (hkeys : path ∈ s.storage.files.workflows.keys) (hne : path ≠ i.previousPath) :
    ¬ (workflowName path = i.previousName ∧ i.previousName ≠ i.fullName) := by
  intro ⟨hname, hrenamed⟩
  cases hmatch with
  | inl hmatch => exact hne (workflowName_injective hprevious (hmatch.trans hname.symm)).symm
  | inr hmatch =>
    obtain ⟨-, hmatch⟩ := hmatch
    cases hmatch with
    | inl hsame => exact hrenamed hsame
    | inr hother => exact hother path hkeys hname

theorem removed_name (hmatch : Matching s i) (hkeys : i.previousPath ∈ s.storage.files.workflows.keys)
    (hne : i.previousPath ≠ i.path) : workflowName i.previousPath = i.previousName := by
  cases hmatch with
  | inl hmatch => exact hmatch
  | inr hmatch =>
    cases hmatch.1 with
    | inl hsame => exact absurd hsame hne
    | inr hgone => exact absurd hkeys hgone

theorem agreeing_persist {createOnly : Bool} {plan : Plan β χ} (hA : Agreeing format bundle registered s)
    (h : persistPlan format s i body createOnly = .ok plan) (hmatch : Matching s i) :
    Agreeing format bundle registered
      ⟨plan.publishRegistry s.registry, { s.storage with files := applyAll s.storage.files plan.mutations }⟩ := by
  obtain ⟨hpath, hprevious, hmutations, hpublish⟩ := persistPlan_ok h
  have hfiles : applyAll s.storage.files plan.mutations =
      ⟨editedFiles format i body s.storage.files.workflows, .ids (persistTombstones s i)⟩ := by
    rw [hmutations]
    unfold editedFiles
    split <;> rfl
  have hnew : i.fullName ∉ persistTombstones s i := by
    rw [mem_persistTombstones]
    exact fun hm => hm.elim (fun hm => hm.1 rfl) (fun hm => hm.2.1 hm.1.symm)
  rw [hpublish, hfiles]
  constructor
  · exact hA.settled
  · rfl
  · exact hA.known
  · exact hA.bundled
  · intro k
    change k ∈ ((if i.previousName ≠ i.fullName then s.registry.workflows.pop i.previousName
      else s.registry.workflows).set i.fullName ⟨body, some i.fullName⟩).keys ↔ _
    have hkept : k ∈ (if i.previousName ≠ i.fullName then s.registry.workflows.pop i.previousName
        else s.registry.workflows).keys ↔
          k ∈ s.registry.workflows.keys ∧ ¬ (k = i.previousName ∧ i.previousName ≠ i.fullName) := by
      split
      · next hrenamed => simp [Dict.mem_keys_pop, hrenamed]
      · next hsame => simp [not_not.mp hsame]
    rw [Dict.mem_keys_set, hkept, hA.keys, saved_editedFiles]
    change _ ↔ _ ∨ Registered registered k ∧ k ∉ persistTombstones s i
    by_cases hk : k = i.fullName
    · simp [hk]
    constructor
    · intro h
      obtain ⟨h, hstays⟩ := h.resolve_left hk
      cases h with
      | inl hsave =>
        obtain ⟨path, content, hcontent, hload, rfl⟩ := hsave
        refine .inl (.inr ⟨path, content, hcontent, hload, rfl, fun he => hk (he ▸ rfl), fun he => hstays ?_⟩)
        have hne : i.previousPath ≠ i.path := fun hsame => hk (he ▸ hsame ▸ rfl)
        have hgiven := removed_name hmatch (he ▸ mem_keys_of_get hcontent) hne
        rw [← he] at hgiven
        exact ⟨hgiven, hgiven ▸ hk⟩
      | inr hcode =>
        refine .inr ⟨hcode.1, fun hmark => ?_⟩
        cases mem_persistTombstones.mp hmark with
        | inl hmark => exact hcode.2 hmark.2
        | inr hmark => exact hstays ⟨hmark.1, hmark.2.1⟩
    · intro h
      refine .inr ?_
      cases h with
      | inl hsave =>
        obtain ⟨path, content, hcontent, hload, rfl, -, hne⟩ := hsave.resolve_left hk
        exact ⟨.inl ⟨path, content, hcontent, hload, rfl⟩, stays_apart hprevious hmatch (mem_keys_of_get hcontent) hne⟩
      | inr hcode =>
        refine ⟨.inr ⟨hcode.1, fun hm => hcode.2 (mem_persistTombstones.mpr (.inl ⟨hk, hm⟩))⟩, fun ⟨he, hrenamed⟩ => ?_⟩
        exact hcode.2 (mem_persistTombstones.mpr (.inr ⟨he, hrenamed, he ▸ hA.known k hcode.1⟩))
  · intro b hb
    change _ ∨ b.1 ∈ (editedFiles format i body s.storage.files.workflows).keys
    rw [mem_keys_editedFiles]
    by_cases hb' : b.1 = i.path
    · exact .inr (.inl hb')
    have hname : workflowName b.1 ≠ i.fullName := fun he => hb' (workflowName_injective (bundle.valid b hb) he)
    cases hA.present b hb with
    | inl hmark => exact .inl (mem_persistTombstones.mpr (.inl ⟨hname, hmark⟩))
    | inr hkey =>
      by_cases hremoved : b.1 = i.previousPath
      · have hgiven := removed_name hmatch (hremoved ▸ hkey) (hremoved ▸ hb')
        rw [← hremoved] at hgiven
        exact .inl (mem_persistTombstones.mpr (.inr ⟨hgiven, hgiven ▸ hname, hgiven ▸ hA.bundled b hb⟩))
      · exact .inr (.inr ⟨hkey, hremoved⟩)
  · intro k hsave hmark
    cases saved_editedFiles.mp hsave with
    | inl hk => exact hnew (hk ▸ hmark)
    | inr hother =>
      obtain ⟨path, content, hcontent, hload, rfl, hne, hne'⟩ := hother
      cases mem_persistTombstones.mp hmark with
      | inl hmark => exact hA.apart _ ⟨path, content, hcontent, hload, rfl⟩ hmark.2
      | inr hmark =>
        exact stays_apart hprevious hmatch (mem_keys_of_get hcontent) hne' ⟨hmark.1, hmark.2.1⟩

theorem mem_deleteTombstones {path : WorkflowPath} : k ∈ deleteTombstones s path ↔
    k ∈ s.registry.deletedPresetWorkflowIds ∨ k = workflowName path ∧ k ∈ s.registry.presetWorkflowIds := by
  unfold deleteTombstones
  split
  · next hknown =>
    rw [Finset.mem_insert, or_comm]
    exact or_congr_right ⟨fun he => ⟨he, he ▸ hknown⟩, And.left⟩
  · next hunknown =>
    exact ⟨.inl, fun h => h.elim id fun h => absurd (h.1 ▸ h.2) hunknown⟩

theorem agreeing_delete {path : WorkflowPath} {plan : Plan β χ} (hA : Agreeing format bundle registered s)
    (h : deletePlan s path = .ok plan) : Agreeing format bundle registered
      ⟨plan.publishRegistry s.registry, { s.storage with files := applyAll s.storage.files plan.mutations }⟩ := by
  obtain ⟨hpath, hmutations, hpublish⟩ := deletePlan_ok h
  have hfiles : applyAll s.storage.files plan.mutations =
      ⟨s.storage.files.workflows.pop path, .ids (deleteTombstones s path)⟩ := by rw [hmutations]; rfl
  have hsaved : ∀ k, Saved format (s.storage.files.workflows.pop path) k ↔
      k ≠ workflowName path ∧ Saved format s.storage.files.workflows k := by
    intro k
    constructor
    · intro ⟨other, content, hcontent, hload, hname⟩
      rw [Dict.get_pop] at hcontent
      split at hcontent
      · exact (nomatch hcontent)
      · next hne =>
        refine ⟨fun he => hne ?_, other, content, hcontent, hload, hname⟩
        exact (workflowName_injective hpath (he.symm.trans hname.symm)).symm
    · intro ⟨hne, other, content, hcontent, hload, hname⟩
      refine ⟨other, content, ?_, hload, hname⟩
      rw [Dict.get_pop, if_neg (fun he : other = path => hne (he ▸ hname.symm)), hcontent]
  rw [hpublish, hfiles]
  constructor
  · exact hA.settled
  · rfl
  · exact hA.known
  · exact hA.bundled
  · intro k
    change k ∈ (s.registry.workflows.pop (workflowName path)).keys ↔ _ ∨ _ ∧ k ∉ deleteTombstones s path
    rw [Dict.mem_keys_pop, hA.keys, hsaved, mem_deleteTombstones]
    have hknown := hA.known k
    tauto
  · intro b hb
    change _ ∨ b.1 ∈ (s.storage.files.workflows.pop path).keys
    rw [Dict.mem_keys_pop]
    by_cases he : b.1 = path
    · exact .inl (mem_deleteTombstones.mpr (.inr ⟨he ▸ rfl, hA.bundled b hb⟩))
    · exact (hA.present b hb).imp (fun hm => mem_deleteTombstones.mpr (.inl hm)) (fun hk => ⟨hk, he⟩)
  · intro k hsave hmark
    obtain ⟨hne, hsave⟩ := (hsaved k).mp hsave
    cases mem_deleteTombstones.mp hmark with
    | inl hmark => exact hA.apart k hsave hmark
    | inr hmark => exact hne hmark.1

variable {l : Operation β χ}

theorem agreeing_registerPreset (preset : Preset β) (hA : Agreeing format bundle registered s) :
    Agreeing format bundle (registered ++ [preset]) (registerPresets [preset] s) := by
  have hE := enrolled [preset] s.registry
  have happend : ∀ k, Registered (registered ++ [preset]) k ↔ Registered registered k ∨ Registered [preset] k := by
    intro k
    simp [Registered, or_and_right, exists_or]
  constructor
  · exact hA.settled
  · exact hE.deleted.trans hA.marks
  · exact fun k hk => (hE.known k).mpr (((happend k).mp hk).imp_left (hA.known k))
  · exact fun b hb => (hE.known _).mpr (.inl (hA.bundled b hb))
  · intro k
    rw [registerPresets, hE.keys, hA.keys, happend, hE.deleted]
    tauto
  · rw [registerPresets, hE.deleted]
    exact hA.present
  · rw [registerPresets, hE.deleted]
    exact hA.apart

theorem goesThrough_of_agreeing (faults : LoadFaults χ) (hA : Agreeing format bundle registered s) :
    GoesThrough format bundle faults s.storage.files := by
  constructor
  · intro b hb hmark hkey
    cases hA.present b hb with
    | inl hmark' => exact absurd (hA.marks ▸ hmark') hmark
    | inr hkey' => exact absurd hkey' hkey
  · intro k hmark hsave
    exact absurd (hA.marks ▸ hmark) (hA.apart k hsave)

variable {faults : LoadFaults χ}

theorem keys_restart (hA : Agreeing format bundle registered s) (k : Text) :
    k ∈ (boot format bundle [] registered faults s.storage).registry.workflows.keys ↔ k ∈ s.registry.workflows.keys := by
  have hnone : ∀ k, Registered ([] : List (Preset β)) k → k ∉ s.storage.files.tombstones.marks :=
    fun k ⟨p, hp, _⟩ => (nomatch hp)
  obtain ⟨hB, hstarted⟩ := boot_spec [] registered hA.settled (goesThrough_of_agreeing faults hA) hnone
  have hfiles := hstarted.unchanged fun b hb => hA.marks ▸ hA.present b hb
  rw [hB.keys, hA.keys, hstarted.marks, hfiles, hA.marks, List.nil_append]
  have happart := hA.apart k
  rw [hA.marks] at happart
  tauto

variable {commit : Commit}

theorem goneAfter_persist {path : WorkflowPath} {body : β} {previousGroupId previousWorkflowId : Option Text}
    {createOnly : Bool} (hmarked : ∀ k ∈ w.gone, k ∈ w.state.registry.deletedPresetWorkflowIds)
    (hk : k ∈ w.goneAfter (.persist path body previousGroupId previousWorkflowId createOnly commit)) :
    k ∈ persistTombstones w.state (identify path previousGroupId previousWorkflowId) := by
  rw [mem_persistTombstones]
  dsimp only [World.goneAfter] at hk
  split at hk
  · next hrenamed =>
    cases Finset.mem_insert.mp hk with
    | inl hk => exact .inr ⟨hk, hrenamed⟩
    | inr hk =>
      obtain ⟨hne, hk⟩ := Finset.mem_erase.mp hk
      exact .inl ⟨hne, hmarked k hk⟩
  · obtain ⟨hne, hk⟩ := Finset.mem_erase.mp hk
    exact .inl ⟨hne, hmarked k hk⟩

theorem goneAfter_delete {path : WorkflowPath}
    (hmarked : ∀ k ∈ w.gone, k ∈ w.state.registry.deletedPresetWorkflowIds)
    (hk : k ∈ w.goneAfter (.delete path commit)) : k ∈ deleteTombstones w.state path := by
  rw [mem_deleteTombstones]
  dsimp only [World.goneAfter] at hk
  split at hk
  · next hknown =>
    cases Finset.mem_insert.mp hk with
    | inl hk => exact .inr ⟨hk, hk ▸ hknown⟩
    | inr hk => exact .inl (hmarked k hk)
  · exact .inl (hmarked k hk)

theorem inv_of_agreeing (hA : Agreeing format bundle v.registered v.state)
    (hgone : ∀ k ∈ v.gone, k ∈ v.state.registry.deletedPresetWorkflowIds) : Inv format bundle v :=
  ⟨hA.settled, fun k hk => hA.marks ▸ hgone k hk, fun k hk hsave => hA.apart k hsave (hgone k hk), fun _ => hA⟩

theorem away_of_agreeing (hA : Agreeing format bundle v.registered v.state)
    (hgone : ∀ k ∈ v.gone, k ∈ v.state.registry.deletedPresetWorkflowIds) :
    ∀ k ∈ v.gone, k ∉ v.state.registry.workflows.keys := by
  intro k hk hkey
  cases (hA.keys k).mp hkey with
  | inl hsave => exact hA.apart k hsave (hgone k hk)
  | inr hcode => exact hcode.2 (hgone k hk)

theorem step_boot {before after : List (Preset β)} (hinv : Inv format bundle w)
    (hl : Orderly format bundle w (.boot before after faults)) (h : next format bundle w (.boot before after faults) = some v) :
    Inv format bundle v ∧ Kept format bundle w (.boot before after faults) v := by
  cases h
  obtain ⟨hB, hstarted⟩ := boot_spec before after hinv.settled hl.1 hl.2
  have hgone : ∀ k ∈ w.gone, k ∈ (boot format bundle before after faults w.state.storage).registry.deletedPresetWorkflowIds := by
    intro k hk
    refine (hstarted.marks k).mpr ⟨hinv.marked k hk, fun hsave => ?_⟩
    exact (hstarted.new k hsave).elim (hinv.absent k hk) fun hfree => hfree (hinv.marked k hk)
  exact ⟨inv_of_agreeing hB hgone, fun h => absurd rfl h, nofun, away_of_agreeing hB hgone⟩

theorem step_restart (hinv : Inv format bundle w) (h : next format bundle w (.restart faults) = some v) :
    Inv format bundle v ∧ Kept format bundle w (.restart faults) v := by
  dsimp only [next] at h
  split at h
  · next hrunning =>
    cases h
    have hA := hinv.agreeing hrunning
    have hnone : ∀ k, Registered ([] : List (Preset β)) k → k ∉ w.state.storage.files.tombstones.marks :=
      fun k ⟨p, hp, _⟩ => (nomatch hp)
    obtain ⟨hB, hstarted⟩ := boot_spec [] w.registered hA.settled (goesThrough_of_agreeing faults hA) hnone
    have hgone : ∀ k ∈ w.gone, k ∈ (boot format bundle [] w.registered faults w.state.storage).registry.deletedPresetWorkflowIds := by
      intro k hk
      refine (hstarted.marks k).mpr ⟨hinv.marked k hk, fun hsave => ?_⟩
      exact (hstarted.new k hsave).elim (hinv.absent k hk) fun hfree => hfree (hinv.marked k hk)
    refine ⟨inv_of_agreeing hB hgone, fun h => absurd rfl h, fun faults' he => ?_, away_of_agreeing hB hgone⟩
    cases he
    exact keys_restart hA
  · exact (nomatch h)

theorem step_registerPreset {preset : Preset β} (hinv : Inv format bundle w)
    (h : next format bundle w (.registerPreset preset) = some v) :
    Inv format bundle v ∧ Kept format bundle w (.registerPreset preset) v := by
  dsimp only [next] at h
  split at h
  · next hrunning =>
    cases h
    have hA := hinv.agreeing hrunning
    have hgone : ∀ k ∈ w.gone, k ∈ (registerPresets [preset] w.state).registry.deletedPresetWorkflowIds := by
      intro k hk
      rw [registerPresets, (enrolled [preset] w.state.registry).deleted, hA.marks]
      exact hinv.marked k hk
    have hB := agreeing_registerPreset preset hA
    exact ⟨inv_of_agreeing hB hgone, fun h => absurd rfl h, by rintro _ ⟨⟩, away_of_agreeing hB hgone⟩
  · cases h

theorem step_edit {plan : Except RegistryError (Plan β χ)}
    (hl : ∀ faults, l ≠ .restart faults) (hrunning : w.running = true) (hinv : Inv format bundle w)
    (hperform : perform format bundle w.state l = execute w.state plan commit)
    (hclean : ∀ p, plan = .ok p → Commit.Clean commit)
    (hA : ∀ p, plan = .ok p → Agreeing format bundle w.registered
      ⟨p.publishRegistry w.state.registry, { w.state.storage with files := applyAll w.state.storage.files p.mutations }⟩)
    (hgone : ∀ p, plan = .ok p → ∀ k ∈ w.goneAfter l,
      k ∈ (p.publishRegistry w.state.registry).deletedPresetWorkflowIds)
    (h : (match perform format bundle w.state l with
      | (.ok (), s) => some { w with state := s, gone := w.goneAfter l }
      | (.error _, s) => some { w with state := s }) = some v) :
    Inv format bundle v ∧ Kept format bundle w l v := by
  cases he : execute w.state plan commit with
  | mk answer t =>
    rw [hperform, he] at h
    cases execute_clean hclean he with
    | inl hraised =>
      obtain ⟨⟨e, rfl⟩, rfl⟩ := hraised
      cases h
      have hA := hinv.agreeing hrunning
      have hgone : ∀ k ∈ w.gone, k ∈ w.state.registry.deletedPresetWorkflowIds := fun k hk => hA.marks ▸ hinv.marked k hk
      exact ⟨inv_of_agreeing hA hgone, fun _ => ⟨rfl, rfl⟩, fun faults hf => (hl faults hf).elim,
        away_of_agreeing hA hgone⟩
    | inr hdone =>
      obtain ⟨p, hplan, rfl, rfl⟩ := hdone
      cases h
      refine ⟨inv_of_agreeing (hA p hplan) (hgone p hplan), fun hraised => ?_, fun faults hf => (hl faults hf).elim,
        away_of_agreeing (hA p hplan) (hgone p hplan)⟩
      rw [hperform, he] at hraised
      exact absurd rfl hraised

theorem step_spec (hinv : Inv format bundle w) (hl : Orderly format bundle w l) (h : next format bundle w l = some v) :
    Inv format bundle v ∧ Kept format bundle w l v := by
  cases l with
  | boot before after faults => exact step_boot hinv hl h
  | restart faults => exact step_restart hinv h
  | registerPreset preset => exact step_registerPreset hinv h
  | persist path body previousGroupId previousWorkflowId createOnly commit =>
    dsimp only [next] at h
    split at h
    · next hrunning =>
      have hA := hinv.agreeing hrunning
      refine step_edit nofun hrunning hinv rfl (fun p hp => (hl p hp).1) (fun p hp => agreeing_persist hA hp (hl p hp).2) ?_ h
      intro p hp k hk
      rw [(persistPlan_ok hp).2.2.2]
      exact goneAfter_persist (fun k hk => hA.marks ▸ hinv.marked k hk) hk
    · exact (nomatch h)
  | delete path commit =>
    dsimp only [next] at h
    split at h
    · next hrunning =>
      have hA := hinv.agreeing hrunning
      refine step_edit nofun hrunning hinv rfl (fun p hp => hl p hp) (fun p hp => agreeing_delete hA hp) ?_ h
      intro p hp k hk
      rw [(deletePlan_ok hp).2.2]
      exact goneAfter_delete (fun k hk => hA.marks ▸ hinv.marked k hk) hk
    · exact (nomatch h)

theorem inv_start (files : WorkflowDirectory χ) : Inv format bundle (start files : World β χ) :=
  ⟨rfl, nofun, nofun, nofun⟩

def plain : BuilderFormat ℕ ℕ := ⟨id, some, fun _ => rfl⟩

def blank : WorkflowDirectory ℕ := ⟨.empty, .missing⟩

def path (group workflow : String) : WorkflowPath := (group.toList, workflow.toList)

def shipped : Bundle ℕ := ⟨[(path "chat" "normal", 0)], List.forall_mem_singleton.mpr ⟨rfl, rfl⟩⟩

def coded : Preset ℕ := (path "plugin" "greet", ⟨1, none⟩)

/-- One preset is edited and renamed, another deleted, and the process restarts. -/
def renamings : List (Operation ℕ ℕ) :=
  [.boot [] [coded] calm,
    .persist (path "chat" "quick") 2 (some "chat".toList) (some "normal".toList) false .done,
    .delete coded.1 (.undone false), .delete coded.1 .done, .restart calm]

def booted : Operation ℕ ℕ := .boot [] [] calm

def created (group workflow : String) (commit : Commit) : Operation ℕ ℕ :=
  .persist (path group workflow) 0 none none true commit

/-- The commit marker cannot be written after the registry was updated. -/
def markerFails : List (Operation ℕ ℕ) := [booted, created "chat" "quick" (.undone true)]

/-- The marker is durable, and a published file cannot be tidied up: recovery has to. -/
def leftBehind : List (Operation ℕ ℕ) := [booted, created "chat" "quick" (.left true (fun _ => true) true)]

/-- The first start cannot copy a bundled preset, and the second can. -/
def copyFails : List (Operation ℕ ℕ) := [.boot [] [] ⟨fun _ => some none, fun _ => .done⟩, .restart calm]

/-- An edit names its previous group but not its workflow, and removes another's file. -/
def halfNamed : List (Operation ℕ ℕ) :=
  [booted, created "chat" "quick" .done, created "talk" "quick" .done,
    .persist (path "talk" "quick") 0 (some "chat".toList) none false .done, .restart calm]

def registeredEarly : List (Operation ℕ ℕ) := [.boot [] [coded] calm, .delete coded.1 .done, .boot [coded] [] calm]

def KeptAlong (ls : List (Operation ℕ ℕ)) : Prop :=
  Along (next plain shipped) (fun w l => ∀ v, next plain shipped w l = some v → Kept plain shipped w l v)
    (start blank) ls

end Kirara.WorkflowRestarts
