import Kirara.Channels
import Kirara.Schedules

namespace Kirara.ConfigSaves

open Kirara.Channels Kirara.Schedules

/-- The text `yaml.dump` emits for a configuration. No mapping has an empty one. -/
@[ext] structure Document where
  text : Text
  nonempty : text ≠ []

instance : DecidableEq Document := fun x y => decidable_of_iff (x.text = y.text) Document.ext_iff.symm

inductive SaveMethod where
  | saveConfig
  | saveConfigWithBackup
  deriving DecidableEq

/-- Where the call that holds `_write_lock` has got to. -/
inductive Phase where
  | idle
  | copying (doc : Document)
  | copied (doc : Document) (rest : Text)
  | opening (doc : Document) (backedUp : Bool)
  | writing (written rest : Text)

/-- The two files with what they hold. What was written in full is only recorded. -/
structure Disk where
  config : Option Text
  backup : Option Text
  phase : Phase
  saved : List Text
  before : Option Text

/-- A file operation moves on by as much of the text as reaches the file at once. -/
inductive Label where
  | call (m : SaveMethod) (doc : Document)
  | proceed (n : Nat)
  | raise
  | crash
  deriving DecidableEq

def Phase.running : Phase → Bool
  | .idle => false
  | _ => true

def enter (m : SaveMethod) (doc : Document) (d : Disk) : Disk :=
  { d with
    phase :=
      match m, d.config with
      | .saveConfigWithBackup, some _ => .copying doc
      | _, _ => .opening doc false
    before := d.config }

def write (n : Nat) (written rest : Text) (d : Disk) : Disk :=
  { d with
    config := some (written ++ rest.take n)
    phase := .writing (written ++ rest.take n) (rest.drop n)
    saved := if rest.drop n = [] then (written ++ rest) :: d.saved else d.saved }

/-- The next operation: `open` truncates the file before `dump` writes to it. -/
def advance (n : Nat) (d : Disk) : Disk :=
  match d.phase with
  | .idle => d
  | .copying doc => { d with backup := some [], phase := .copied doc (d.config.getD []) }
  | .copied doc rest =>
    if rest = [] then { d with phase := .opening doc true }
    else
      { d with
        backup := some (d.backup.getD [] ++ rest.take n)
        phase := .copied doc (rest.drop n) }
  | .opening doc _ => { d with config := some [], phase := .writing [] doc.text }
  | .writing written rest => if rest = [] then { d with phase := .idle } else write n written rest d

def next (d : Disk) : Label → Option Disk
  | .call m doc => if d.phase.running then none else some (enter m doc d)
  | .proceed n => if d.phase.running then some (advance n d) else none
  | .raise => if d.phase.running then some { d with phase := .idle } else none
  | .crash => some { d with phase := .idle }

/-- The file holds a configuration that was saved earlier, all of it. -/
def Complete (saved : List Text) (file : Option Text) : Prop := ∃ text ∈ saved, file = some text

instance (saved : List Text) (file : Option Text) : Decidable (Complete saved file) :=
  inferInstanceAs (Decidable (∃ text ∈ saved, file = some text))

/-- Once a save is complete, one of the two files is. -/
def Guarded (d : Disk) : Prop := d.saved ≠ [] → Complete d.saved d.config ∨ Complete d.saved d.backup

instance (d : Disk) : Decidable (Guarded d) :=
  inferInstanceAs (Decidable (_ → _))

/-- What a step must keep: one complete copy, and if the save raises the configuration file. -/
def Keeps (d : Disk) (a : Label) : Prop :=
  ∀ t, next d a = some t → Guarded t ∧ (a = .raise → t.config = d.before)

/-- A save starts on a complete file or backup, and does not raise once the file is open. -/
def Careful (d : Disk) : Label → Prop
  | .proceed _ =>
    match d.phase with
    | .copying _ => d.saved ≠ [] → Complete d.saved d.config
    | .opening _ false => d.saved ≠ [] → Complete d.saved d.backup
    | _ => True
  | .raise =>
    match d.phase with
    | .writing written _ => d.before = some written
    | _ => True
  | _ => True

def Shape (d : Disk) : Prop :=
  match d.phase with
  | .idle => True
  | .copying _ => d.config = d.before ∧ d.config ≠ none
  | .copied _ rest => d.config = d.before ∧
      ∃ done, d.config = some (done ++ rest) ∧ d.backup = some done
  | .opening _ backedUp => d.config = d.before ∧ (backedUp = true → d.backup = d.config)
  | .writing written rest => d.config = some written ∧ written ++ rest ≠ []

structure Sane (d : Disk) : Prop where
  nonempty : ∀ text ∈ d.saved, text ≠ []
  shape : Shape d

/-- Which of the two files is complete in a run of careful steps. -/
def Covered (d : Disk) : Prop :=
  d.saved ≠ [] →
    match d.phase with
    | .idle => Complete d.saved d.config ∨ Complete d.saved d.backup
    | .copying _ => Complete d.saved d.config ∨ Complete d.saved d.backup
    | .copied _ _ => Complete d.saved d.config
    | .opening _ false => Complete d.saved d.config ∨ Complete d.saved d.backup
    | .opening _ true => Complete d.saved d.backup
    | .writing _ rest => Complete d.saved d.backup ∨ rest = [] ∧ Complete d.saved d.config

variable {d t : Disk} {a : Label} {n : Nat} {file : Option Text}
  {saved saved' : List Text}

theorem truncated_incomplete (h : Sane d) : ¬ Complete d.saved (some []) := by
  rintro ⟨text, htext, he⟩
  exact h.nonempty text htext (Option.some.inj he).symm

theorem complete_of_saved (h : ∀ text ∈ saved, text ∈ saved') (hf : Complete saved file) :
    Complete saved' file := by
  obtain ⟨text, htext, rfl⟩ := hf
  exact ⟨text, h text htext, rfl⟩

theorem guarded_of_covered (h : Covered d) : Guarded d := by
  intro hs
  have hc := h hs
  cases hp : d.phase with
  | idle => simpa only [hp] using hc
  | copying doc => simpa only [hp] using hc
  | copied doc rest =>
    simp only [hp] at hc
    exact .inl hc
  | opening doc backedUp =>
    cases backedUp with
    | false => simpa only [hp] using hc
    | true =>
      simp only [hp] at hc
      exact .inr hc
  | writing written rest =>
    simp only [hp] at hc
    exact hc.elim .inr (fun h => .inl h.2)

theorem sane_enter (h : Sane d) (m : SaveMethod) (doc : Document) : Sane (enter m doc d) := by
  refine ⟨h.nonempty, ?_⟩
  cases m with
  | saveConfig => exact ⟨rfl, fun h => nomatch h⟩
  | saveConfigWithBackup =>
    cases hc : d.config with
    | none => simp [Shape, enter, hc]
    | some text => simp [Shape, enter, hc]

theorem sane_write {written rest : Text} (h : Sane d) (hw : written ++ rest ≠ []) :
    Sane (write n written rest d) := by
  constructor
  · intro text htext
    simp only [write] at htext
    split at htext
    · cases List.mem_cons.mp htext with
      | inl he => exact he ▸ hw
      | inr hm => exact h.nonempty text hm
    · exact h.nonempty text htext
  · refine ⟨rfl, ?_⟩
    simpa only [List.append_assoc, List.take_append_drop] using hw

theorem sane_advance (h : Sane d) : Sane (advance n d) := by
  have hshape := h.shape
  cases hp : d.phase with
  | idle => simpa only [advance, hp] using h
  | copying doc =>
    simp only [Shape, hp] at hshape
    obtain ⟨text, htext⟩ := Option.ne_none_iff_exists'.mp hshape.2
    simp only [advance, hp]
    exact ⟨h.nonempty, hshape.1, [], by simp [htext], rfl⟩
  | copied doc rest =>
    simp only [Shape, hp] at hshape
    obtain ⟨hb, done, hc, hd⟩ := hshape
    simp only [advance, hp]
    split
    · next hr => exact ⟨h.nonempty, hb, fun _ => by simp [hc, hd, hr]⟩
    · refine ⟨h.nonempty, hb, done ++ rest.take n, ?_, by simp [hd]⟩
      simpa only [List.append_assoc, List.take_append_drop] using hc
  | opening doc backedUp =>
    simp only [advance, hp]
    exact ⟨h.nonempty, rfl, doc.nonempty⟩
  | writing written rest =>
    simp only [Shape, hp] at hshape
    simp only [advance, hp]
    split
    · exact ⟨h.nonempty, trivial⟩
    · exact sane_write h hshape.2

theorem next_cases (h : next d a = some t) : (∃ m doc, a = .call m doc ∧ d.phase = .idle ∧ t = enter m doc d) ∨
      (∃ n, a = .proceed n ∧ d.phase ≠ .idle ∧ t = advance n d) ∨
      (a = .raise ∧ d.phase ≠ .idle ∧ t = { d with phase := .idle }) ∨
      (a = .crash ∧ t = { d with phase := .idle }) := by
  have hrun : d.phase.running = false ↔ d.phase = .idle := by
    cases d.phase <;> simp [Phase.running]
  cases a with
  | call m doc =>
    simp only [next, Option.ite_none_left_eq_some, Bool.not_eq_true, hrun, Option.some.injEq] at h
    exact .inl ⟨m, doc, rfl, h.1, h.2.symm⟩
  | proceed n =>
    simp only [next, Option.ite_none_right_eq_some, Option.some.injEq] at h
    exact .inr (.inl ⟨n, rfl, fun hi => by simp [hi, Phase.running] at h, h.2.symm⟩)
  | raise =>
    simp only [next, Option.ite_none_right_eq_some, Option.some.injEq] at h
    exact .inr (.inr (.inl ⟨rfl, fun hi => by simp [hi, Phase.running] at h, h.2.symm⟩))
  | crash =>
    simp only [next, Option.some.injEq] at h
    exact .inr (.inr (.inr ⟨rfl, h.symm⟩))

theorem sane_next (h : Sane d) (ht : next d a = some t) : Sane t := by
  obtain ⟨m, doc, -, -, rfl⟩ | ⟨n, -, -, rfl⟩ | ⟨-, -, rfl⟩ | ⟨-, rfl⟩ := next_cases ht
  · exact sane_enter h m doc
  · exact sane_advance h
  · exact ⟨h.nonempty, trivial⟩
  · exact ⟨h.nonempty, trivial⟩

theorem covered_enter (h : Guarded d) (m : SaveMethod) (doc : Document) : Covered (enter m doc d) := by
  intro hs
  have hc := h hs
  cases m with
  | saveConfig => exact hc
  | saveConfigWithBackup =>
    cases hf : d.config with
    | none => simpa only [enter, hf] using hc
    | some text => simpa only [enter, hf] using hc

theorem covered_write {written rest : Text} (hc : d.saved ≠ [] → Complete d.saved d.backup) :
    Covered (write n written rest d) := by
  intro hs
  simp only [write] at hs ⊢
  by_cases hsaved : d.saved = []
  · split at hs
    · next hr =>
      refine .inr ⟨hr, written ++ rest, by simp [hr], ?_⟩
      simp only [List.take_of_length_le (List.drop_eq_nil_iff.mp hr)]
    · exact absurd hsaved hs
  · refine .inl (complete_of_saved (fun text htext => ?_) (hc hsaved))
    split
    · exact List.mem_cons_of_mem _ htext
    · exact htext

theorem covered_advance (h : Sane d) (hc : Covered d) (hok : Careful d (.proceed n)) :
    Covered (advance n d) := by
  have hshape := h.shape
  cases hp : d.phase with
  | idle => simpa only [advance, hp] using hc
  | copying doc =>
    simp only [Careful, hp] at hok
    simp only [advance, hp]
    exact hok
  | copied doc rest =>
    simp only [Shape, hp] at hshape
    obtain ⟨-, done, hconf, hback⟩ := hshape
    simp only [Covered, hp] at hc
    simp only [advance, hp]
    split
    · next hr =>
      intro hs
      have hcomp := hc hs
      rwa [hconf, hr, List.append_nil, ← hback] at hcomp
    · exact hc
  | opening doc backedUp =>
    simp only [advance, hp]
    intro hs
    cases backedUp with
    | false =>
      simp only [Careful, hp] at hok
      exact .inl (hok hs)
    | true =>
      simp only [Covered, hp] at hc
      exact .inl (hc hs)
  | writing written rest =>
    simp only [Covered, hp] at hc
    simp only [advance, hp]
    split
    · next hr => exact fun hs => (hc hs).elim .inr (fun h => .inl h.2)
    · next hr => exact covered_write (fun hs => (hc hs).resolve_right (fun h => hr h.1))

theorem covered_next (h : Sane d) (hc : Covered d) (hok : Careful d a) (ht : next d a = some t) :
    Covered t := by
  obtain ⟨m, doc, -, -, rfl⟩ | ⟨n, rfl, -, rfl⟩ | ⟨-, -, rfl⟩ | ⟨-, rfl⟩ := next_cases ht
  · exact covered_enter (guarded_of_covered hc) m doc
  · exact covered_advance h hc hok
  · exact (guarded_of_covered hc : Guarded d)
  · exact (guarded_of_covered hc : Guarded d)

theorem raise_keeps (h : Sane d) (hok : Careful d .raise) (hrun : d.phase ≠ .idle) : d.config = d.before := by
  have hshape := h.shape
  cases hp : d.phase with
  | idle => exact absurd hp hrun
  | copying doc =>
    simp only [Shape, hp] at hshape
    exact hshape.1
  | copied doc rest =>
    simp only [Shape, hp] at hshape
    exact hshape.1
  | opening doc backedUp =>
    simp only [Shape, hp] at hshape
    exact hshape.1
  | writing written rest =>
    simp only [Shape, hp] at hshape
    simp only [Careful, hp] at hok
    rw [hshape.1, hok]

theorem keeps_of_careful (h : Sane d) (hc : Covered d) (hok : Careful d a) : Keeps d a := by
  intro t ht
  refine ⟨guarded_of_covered (covered_next h hc hok ht), ?_⟩
  rintro rfl
  obtain ⟨m, doc, ha, -⟩ | ⟨n, ha, -⟩ | ⟨-, hrun, rfl⟩ | ⟨ha, -⟩ := next_cases ht
  · cases ha
  · cases ha
  · exact (raise_keeps h hok hrun : d.config = d.before)
  · cases ha

theorem careful_of_keeps (h : Sane d) (hk : Keeps d a) : Careful d a := by
  cases a with
  | call m doc => trivial
  | proceed n =>
    cases hp : d.phase with
    | copying doc =>
      simp only [Careful, hp]
      intro hs
      have hg := (hk (advance n d) (by simp [next, hp, Phase.running])).1
      simp only [Guarded, advance, hp] at hg
      exact (hg hs).resolve_right (truncated_incomplete h)
    | opening doc backedUp =>
      cases backedUp with
      | true => simp only [Careful, hp]
      | false =>
        simp only [Careful, hp]
        intro hs
        have hg := (hk (advance n d) (by simp [next, hp, Phase.running])).1
        simp only [Guarded, advance, hp] at hg
        exact (hg hs).resolve_left (truncated_incomplete h)
    | idle => simp only [Careful, hp]
    | copied doc rest => simp only [Careful, hp]
    | writing written rest => simp only [Careful, hp]
  | raise =>
    have hshape := h.shape
    cases hp : d.phase with
    | writing written rest =>
      simp only [Shape, hp] at hshape
      simp only [Careful, hp]
      have hr := (hk { d with phase := .idle } (by simp [next, hp, Phase.running])).2 rfl
      exact hr.symm.trans hshape.1
    | idle => simp only [Careful, hp]
    | copying doc => simp only [Careful, hp]
    | copied doc rest => simp only [Careful, hp]
    | opening doc backedUp => simp only [Careful, hp]
  | crash => trivial

/-- Before anything is saved: whatever the two files hold, no call is under way. -/
def started (config backup : Option Text) : Disk := ⟨config, backup, .idle, [], config⟩

theorem sane_started (config backup : Option Text) : Sane (started config backup) :=
  ⟨fun _ h => (nomatch h), trivial⟩

/-- Saves keep a complete copy at every moment, and the configuration file through every
exception, exactly where each step is careful. -/
theorem saves_guarded_iff (config backup : Option Text) (as : List Label) :
    Along next Keeps (started config backup) as ↔ Along next Careful (started config backup) as := by
  constructor
  · exact along_of_invariant next (I := Sane) (fun _ _ h hk => careful_of_keeps h hk)
      (fun _ _ _ _ h ht => sane_next h ht) (sane_started config backup)
  · refine along_of_invariant next (I := fun d => Sane d ∧ Covered d)
      (fun _ _ h hok => keeps_of_careful h.1 h.2 hok)
      (fun _ _ _ hok h ht => ⟨sane_next h.1 ht, covered_next h.1 h.2 hok ht⟩) ?_
    exact ⟨sane_started config backup, fun hs => absurd rfl hs⟩

instance (d : Disk) (a : Label) : Decidable (Keeps d a) :=
  match h : next d a with
  | none => isTrue (fun t ht => by rw [h] at ht; cases ht)
  | some t =>
    decidable_of_iff (Guarded t ∧ (a = .raise → t.config = d.before)) (by simp [Keeps, h])

def first : Document := ⟨"a: 1\n".toList, by decide⟩

def second : Document := ⟨"a: 2\n".toList, by decide⟩

/-- A complete save, one whose serialisation raises, and the backup of the next. -/
def failedSaves : List Label :=
  [.call .saveConfigWithBackup first, .proceed 0, .proceed 5, .proceed 0,
    .call .saveConfigWithBackup second, .proceed 0, .proceed 5, .proceed 0, .proceed 0, .raise,
    .call .saveConfigWithBackup second, .proceed 0]

theorem failed_saves_lose_both : ¬ Along next Keeps (started none none) failedSaves ∧
      (exec next (started none none) failedSaves).map
        (fun d => (d.saved, d.config, d.backup)) = some ([first.text], some [], some []) := by
  decide

end Kirara.ConfigSaves
