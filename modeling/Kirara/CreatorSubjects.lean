import Kirara.CreatorIdentity
import Kirara.Schedules
import Mathlib.Data.Fintype.Basic

namespace Kirara.CreatorSubjects

open Kirara.Channels Kirara.CreatorIdentity Kirara.Schedules

def universalNewlines : Text → Text
  | [] => []
  | [c] => if c = '\r' then ['\n'] else [c]
  | c :: d :: t =>
    if c ≠ '\r' then c :: universalNewlines (d :: t)
    else if d = '\n' then '\n' :: universalNewlines t
    else '\n' :: universalNewlines (d :: t)

/-- `encoding="ascii"`. -/
def ascii (content : Text) : Bool := content.all (fun c => c.toNat < 128)

/-- What `_read_subject` returns. -/
@[ext] structure Subject where
  text : Text
  nonempty : text ≠ []
  bounded : text.length ≤ 256
  stripped : strip text = text
  ascii : ∀ c ∈ text, c.toNat < 128
  unix : ∀ c ∈ text, c ≠ '\r'

instance : DecidableEq Subject := fun x y => decidable_of_iff (x.text = y.text) Subject.ext_iff.symm

theorem mem_universalNewlines {c : Char} {t : Text} (h : c ∈ universalNewlines t) :
    c = '\n' ∨ c ∈ t ∧ c ≠ '\r' := by
  induction t using universalNewlines.induct with
  | case1 => cases h
  | case2 =>
    obtain rfl := List.mem_singleton.mp h
    exact .inl rfl
  | case3 d hd =>
    rw [universalNewlines, if_neg hd] at h
    obtain rfl := List.mem_singleton.mp h
    exact .inr ⟨List.mem_singleton_self c, hd⟩
  | case4 d e t hd ih =>
    rw [universalNewlines, if_pos hd] at h
    cases List.mem_cons.mp h with
    | inl h => exact .inr ⟨h ▸ List.mem_cons_self, h ▸ hd⟩
    | inr h => exact (ih h).imp_right (fun hc => ⟨List.mem_cons_of_mem d hc.1, hc.2⟩)
  | case5 d t hd ih =>
    rw [universalNewlines, if_neg hd, if_pos rfl] at h
    cases List.mem_cons.mp h with
    | inl h => exact .inl h
    | inr h =>
      exact (ih h).imp_right (fun hc =>
        ⟨List.mem_cons_of_mem d (List.mem_cons_of_mem _ hc.1), hc.2⟩)
  | case6 d e t hd he ih =>
    rw [universalNewlines, if_neg hd, if_neg he] at h
    cases List.mem_cons.mp h with
    | inl h => exact .inl h
    | inr h => exact (ih h).imp_right (fun hc => ⟨List.mem_cons_of_mem d hc.1, hc.2⟩)

theorem universalNewlines_of_unix {t : Text} (h : ∀ c ∈ t, c ≠ '\r') : universalNewlines t = t := by
  induction t with
  | nil => rfl
  | cons c t ih =>
    have hc := h c List.mem_cons_self
    cases t with
    | nil => exact if_neg hc
    | cons d t =>
      rw [universalNewlines, if_pos hc, ih (fun e he => h e (List.mem_cons_of_mem c he))]

theorem mem_of_mem_strip {c : Char} {t : Text} (h : c ∈ strip t) : c ∈ t :=
  (List.dropWhile_suffix isSpace).subset ((List.rdropWhile_prefix isSpace _).subset h)

theorem mem_read {c : Char} {content : Text} (h : c ∈ strip (universalNewlines content)) :
    c = '\n' ∨ c ∈ content ∧ c ≠ '\r' :=
  mem_universalNewlines (mem_of_mem_strip h)

def readSubject (content : Text) : Option Subject :=
  if ha : ascii content = true then
    if h : strip (universalNewlines content) ≠ [] ∧
        (strip (universalNewlines content)).length ≤ 256 then
      some {
        text := strip (universalNewlines content)
        nonempty := h.1
        bounded := h.2
        stripped := strip_strip _
        ascii := fun c hc => (mem_read hc).elim (fun h => h ▸ by decide)
          (fun hc => by simpa using List.all_eq_true.mp ha c hc.1)
        unix := fun c hc => (mem_read hc).elim (fun h => h ▸ by decide) And.right }
    else none
  else none

/-- What `_write_subject` puts into the temporary file. -/
def Subject.content (s : Subject) : Text := s.text ++ ['\n']

theorem strip_content (s : Subject) : strip s.content = s.text := by
  have hd : s.text.dropWhile isSpace ≠ [] := by
    intro h
    have hs := s.stripped
    rw [strip, h] at hs
    exact s.nonempty hs.symm
  rw [strip, Subject.content, List.dropWhile_append, if_neg (by simpa using hd),
    List.rdropWhile_concat_pos _ _ _ (by decide)]
  exact s.stripped

theorem readSubject_content (s : Subject) : readSubject s.content = some s := by
  have hascii : ascii s.content = true := by
    apply List.all_eq_true.mpr
    intro c hc
    cases List.mem_append.mp hc with
    | inl h => simpa using s.ascii c h
    | inr h => rw [List.mem_singleton.mp h]; rfl
  have hunix : universalNewlines s.content = s.content := by
    apply universalNewlines_of_unix
    intro c hc
    cases List.mem_append.mp hc with
    | inl h => exact s.unix c h
    | inr h => rw [List.mem_singleton.mp h]; decide
  have hstrip : strip (universalNewlines s.content) = s.text := by rw [hunix, strip_content]
  rw [readSubject, dif_pos hascii, dif_pos (by rw [hstrip]; exact ⟨s.nonempty, s.bounded⟩)]
  exact congrArg some (Subject.ext hstrip)

/-- Where an evaluation of `creator_subject` has got to. -/
inductive Phase where
  | idle
  | reading
  | comparing (s : Subject)
  | comparingStale (s : Subject)
  | missing
  | adopting
  | minting
  | staging (s : Subject) (adopted : Bool)
  | staged (s : Subject) (adopted : Bool)
  | rereading (adopted : Bool)
  | readingAdopted
  deriving DecidableEq

variable {ι : Type} [DecidableEq ι]

/-- The files, the threads, and the returned subjects. Temporary files are not read. -/
structure Directory (ι : Type) where
  subjectFile : Option Text
  legacyFile : Option Text
  /-- `legacy != self.subject_file`. -/
  legacyApart : Bool
  phase : ι → Phase
  returned : List Subject

inductive Label (ι : Type) where
  | evaluate (i : ι)
  | proceed (i : ι)
  | mint (i : ι) (token : Subject)
  | replaceFails (i : ι)
  | crash (i : ι)

def Directory.goto (d : Directory ι) (i : ι) (p : Phase) : Directory ι :=
  { d with phase := Function.update d.phase i p }

def Directory.finish (d : Directory ι) (i : ι) (s : Subject) : Directory ι :=
  { d.goto i .idle with returned := s :: d.returned }

def Directory.subject (d : Directory ι) : Option Subject := d.subjectFile.bind readSubject

/-- Go on with the subject of the file; `_read_subject` raises where there is none. -/
def Directory.read (d : Directory ι) (i : ι) (k : Subject → Directory ι) : Directory ι :=
  match d.subject with
  | some s => k s
  | none => d.goto i .idle

def Directory.hasLegacy (d : Directory ι) : Bool := d.legacyFile.isSome && d.legacyApart

/-- Only `OSError` is caught when the stale file is read, so one not in ASCII ends the
evaluation. -/
def proceed (d : Directory ι) (i : ι) : Option (Directory ι) :=
  match d.phase i with
  | .idle => none
  | .minting => none
  | .reading => some (d.read i (fun s => d.goto i (.comparing s)))
  | .comparing s => some (if d.hasLegacy then d.goto i (.comparingStale s) else d.finish i s)
  | .comparingStale s => some (if d.legacyFile.all ascii then d.finish i s else d.goto i .idle)
  | .missing => some (d.goto i (if d.hasLegacy then .adopting else .minting))
  | .adopting =>
    match d.legacyFile.bind readSubject with
    | some s => some (d.goto i (.staging s true))
    | none => some (d.goto i .idle)
  | .staging s adopted => some (d.goto i (.staged s adopted))
  | .staged s adopted =>
    some { d.goto i (.rereading adopted) with subjectFile := some s.content }
  | .rereading true => some (d.read i (fun _ => d.goto i .readingAdopted))
  | .rereading false => some (d.read i (d.finish i))
  | .readingAdopted => some (d.read i (d.finish i))

def next (d : Directory ι) : Label ι → Option (Directory ι)
  | .evaluate i =>
    if d.phase i = .idle then
      some (d.goto i (if d.subjectFile.isSome then .reading else .missing))
    else none
  | .proceed i => proceed d i
  | .mint i token =>
    if d.phase i = .minting then some (d.goto i (.staging token false)) else none
  | .replaceFails i =>
    match d.phase i with
    | .staged _ adopted =>
      some (d.goto i (if d.subjectFile.isSome then .rereading adopted else .idle))
    | _ => none
  | .crash i => some (d.goto i .idle)

/-- The subject an evaluation that goes on will return. -/
def Phase.holds : Phase → Option Subject
  | .comparing s => some s
  | .comparingStale s => some s
  | _ => none

def Known (d : Directory ι) (s : Subject) : Prop :=
  s ∈ d.returned ∨ ∃ i, (d.phase i).holds = some s

/-- Every subject that was returned is the one the file holds. -/
structure OneSubject (d : Directory ι) : Prop where
  same : ∀ s ∈ d.returned, ∀ t ∈ d.returned, s = t
  kept : ∀ s ∈ d.returned, d.subject = some s

/-- The subject a step puts into the place of the file. -/
def publishes (d : Directory ι) : Label ι → Option Subject
  | .proceed i =>
    match d.phase i with
    | .staged s _ => some s
    | _ => none
  | _ => none

/-- No evaluation replaces the file of a known subject by another subject. -/
def Careful (d : Directory ι) (a : Label ι) : Prop :=
  ∀ s ∈ publishes d a, (∀ t ∈ d.returned, t = s) ∧ ∀ i, (d.phase i).holds.all (· = s) = true

instance [Fintype ι] (d : Directory ι) (a : Label ι) : Decidable (Careful d a) :=
  match h : publishes d a with
  | none => isTrue (by simp [Careful, h])
  | some s =>
    decidable_of_iff ((∀ t ∈ d.returned, t = s) ∧ ∀ i, (d.phase i).holds.all (· = s) = true)
      (by simp [Careful, h])

def Settled (d : Directory ι) : Prop := ∀ s, Known d s → d.subject = some s

variable {d d' : Directory ι} {i : ι} {p : Phase} {s t : Subject} {a : Label ι}

theorem known_goto (h : Known (d.goto i p) t) : Known d t ∨ p.holds = some t := by
  cases h with
  | inl h => exact .inl (.inl h)
  | inr h =>
    obtain ⟨j, hj⟩ := h
    by_cases hji : j = i
    · subst hji
      exact .inr (by simpa [Directory.goto] using hj)
    · exact .inl (.inr ⟨j, by simpa [Directory.goto, hji] using hj⟩)

theorem known_finish (h : Known (d.finish i s) t) : Known d t ∨ t = s := by
  cases h with
  | inl h =>
    cases List.mem_cons.mp h with
    | inl h => exact .inr h
    | inr h => exact .inl (.inl h)
  | inr h => exact (known_goto (p := .idle) (.inr h)).imp_right nofun

/-- The file stays, and no other subjects are known after the step. -/
def Reads (d d' : Directory ι) : Prop :=
  d'.subjectFile = d.subjectFile ∧ ∀ t, Known d' t → Known d t ∨ d.subject = some t

theorem reads_goto (hp : ∀ t, p.holds = some t → Known d t ∨ d.subject = some t) : Reads d (d.goto i p) :=
  ⟨rfl, fun t ht => (known_goto ht).elim .inl (hp t)⟩

theorem reads_plain (hp : p.holds = none) : Reads d (d.goto i p) :=
  reads_goto (fun t ht => by rw [hp] at ht; cases ht)

theorem reads_finish (hs : Known d s ∨ d.subject = some s) : Reads d (d.finish i s) :=
  ⟨rfl, fun _ ht => (known_finish ht).elim .inl (fun h => h ▸ hs)⟩

theorem reads_read {k : Subject → Directory ι} (hk : ∀ s, d.subject = some s → Reads d (k s)) :
    Reads d (d.read i k) := by
  unfold Directory.read
  split
  · next s hs => exact hk s hs
  · exact reads_plain rfl

omit [DecidableEq ι] in
theorem known_of_phase (h : (d.phase i).holds = some s) : Known d s := .inr ⟨i, h⟩

theorem proceed_cases (h : proceed d i = some d') : Reads d d' ∨ ∃ s adopted, d.phase i = .staged s adopted ∧
      d' = { d.goto i (.rereading adopted) with subjectFile := some s.content } := by
  unfold proceed at h
  split at h
  · cases h
  · cases h
  · cases h
    exact .inl (reads_read (fun s hs => reads_goto (fun t ht => .inr (Option.some.inj ht ▸ hs))))
  · next s hs =>
    have hknown : Known d s := known_of_phase (i := i) (by rw [hs]; rfl)
    cases h
    split
    · exact .inl (reads_goto (fun t ht => .inl (Option.some.inj ht ▸ hknown)))
    · exact .inl (reads_finish (.inl hknown))
  · next s hs =>
    have hknown : Known d s := known_of_phase (i := i) (by rw [hs]; rfl)
    cases h
    split
    · exact .inl (reads_finish (.inl hknown))
    · exact .inl (reads_plain rfl)
  · cases h
    split
    · exact .inl (reads_plain rfl)
    · exact .inl (reads_plain rfl)
  · split at h
    · cases h
      exact .inl (reads_plain rfl)
    · cases h
      exact .inl (reads_plain rfl)
  · cases h
    exact .inl (reads_plain rfl)
  · next s adopted hs =>
    cases h
    exact .inr ⟨s, adopted, hs, rfl⟩
  · cases h
    exact .inl (reads_read (fun _ _ => reads_plain rfl))
  · cases h
    exact .inl (reads_read (fun s hs => reads_finish (.inr hs)))
  · cases h
    exact .inl (reads_read (fun s hs => reads_finish (.inr hs)))

theorem next_cases (h : next d a = some d') :
    Reads d d' ∨ ∃ i s adopted, a = .proceed i ∧ d.phase i = .staged s adopted ∧
      d' = { d.goto i (.rereading adopted) with subjectFile := some s.content } := by
  cases a with
  | proceed i =>
    exact (proceed_cases h).imp_right (fun ⟨s, adopted, hs, hd⟩ => ⟨i, s, adopted, rfl, hs, hd⟩)
  | evaluate i =>
    cases (Option.ite_none_right_eq_some.mp h).2
    split
    · exact .inl (reads_plain rfl)
    · exact .inl (reads_plain rfl)
  | mint i token =>
    cases (Option.ite_none_right_eq_some.mp h).2
    exact .inl (reads_plain rfl)
  | replaceFails i =>
    rw [next] at h
    split at h
    · cases h
      split
      · exact .inl (reads_plain rfl)
      · exact .inl (reads_plain rfl)
    · cases h
  | crash i =>
    cases h
    exact .inl (reads_plain rfl)

theorem settled_next (hok : Careful d a) (hd : Settled d) (h : next d a = some d') : Settled d' := by
  intro t ht
  cases next_cases h with
  | inl hr =>
    have hsame : d'.subject = d.subject := congrArg (Option.bind · readSubject) hr.1
    rw [hsame]
    exact (hr.2 t ht).elim (hd t) id
  | inr hp =>
    obtain ⟨i, s, adopted, rfl, hs, rfl⟩ := hp
    have hknown : Known d t := (known_goto (p := .rereading adopted) ht).elim id nofun
    have ht : t = s := by
      have hpub := hok s (by rw [publishes, hs]; rfl)
      cases hknown with
      | inl h => exact hpub.1 t h
      | inr h =>
        obtain ⟨j, hj⟩ := h
        have hall := hpub.2 j
        rw [hj] at hall
        exact of_decide_eq_true hall
    rw [ht]
    exact readSubject_content s

omit [DecidableEq ι] in
theorem oneSubject_of_settled {d : Directory ι} (h : Settled d) : OneSubject d where
  same := fun s hs t ht => Option.some.inj ((h s (.inl hs)).symm.trans (h t (.inl ht)))
  kept := fun s hs => h s (.inl hs)

def Untouched (d : Directory ι) : Prop := (∀ i, d.phase i = .idle) ∧ d.returned = []

omit [DecidableEq ι] in
theorem settled_of_untouched {d : Directory ι} (h : Untouched d) : Settled d := by
  intro s hs
  cases hs with
  | inl hs =>
    rw [h.2] at hs
    cases hs
  | inr hs =>
    obtain ⟨i, hi⟩ := hs
    rw [h.1 i] at hi
    cases hi

def token (c : Char) (h : strip (List.replicate 43 c) = List.replicate 43 c ∧ c.toNat < 128 ∧
    c ≠ '\r') : Subject where
  text := List.replicate 43 c
  nonempty := by simp
  bounded := by simp
  stripped := h.1
  ascii := fun d hd => List.eq_of_mem_replicate hd ▸ h.2.1
  unix := fun d hd => List.eq_of_mem_replicate hd ▸ h.2.2

def tokenA : Subject := token 'a' (by decide)

def tokenB : Subject := token 'b' (by decide)

def fresh : Directory Bool where
  subjectFile := none
  legacyFile := none
  legacyApart := true
  phase := fun _ => .idle
  returned := []

theorem untouched_fresh : Untouched fresh := ⟨fun _ => rfl, rfl⟩

def firstStart : List (Label Bool) :=
  [.evaluate false, .proceed false, .mint false tokenA, .proceed false, .proceed false,
    .proceed false, .evaluate true, .proceed true, .proceed true, .crash false, .evaluate false,
    .proceed false, .proceed false]

/-- Two evaluations find no file, and the second replaces what the first has returned. -/
def race : List (Label Bool) :=
  [.evaluate false, .evaluate true, .proceed false, .proceed true, .mint false tokenA,
    .mint true tokenB, .proceed false, .proceed true, .proceed false, .proceed false,
    .proceed true, .proceed true]

/-- `get_runtime_principal`, which evaluates `creator_subject` twice. -/
def getRuntimePrincipal (sub : Option Text) (compared granted : Subject) :
    Option RuntimePrincipal :=
  if sub = some compared.text then
    some { subject := granted.text, role := "admin", scopes := ["*"], isCreator := true }
  else none

end Kirara.CreatorSubjects
