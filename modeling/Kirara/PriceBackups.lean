import Kirara.PriceInvariants

namespace Kirara.PriceBackups

open Kirara.Channels Kirara.Dicts Kirara.Fallible Kirara.Pricing Kirara.PriceCatalogs Kirara.PriceInvariants
open Kirara.TransactionOutcomes

variable {δ π : Type}

/-- The numbered backups, the newest first. -/
def generations (files : Files δ) : List (Option (Content δ)) := [files .backup1, files .backup2, files .backup3]

/-- Whether the files end up as a transaction wants them, now or by recovery. -/
def goesThrough : Publish PriceFile → Bool
  | .done => true
  | .undone => false
  | .left _ forward => forward

section Steps

variable [DecidableEq δ] [DecidableEq π] (hash : Hash δ)

def replaced (s : Store δ π) (l : Label δ π) (p : π) : List (Option (Content δ)) :=
  match request hash (fun p => (s.disk p).files) s.catalog l.1 with
  | .ok (.locked target inside) =>
    if target = p ∧ l.2.locks ∧ ((s.disk p).pending = none ∨ l.2.recoveryRaises = none) ∧ goesThrough l.2.publish then
      match inside (s.disk p).settled with
      | .ok plan => if plan.write.isSome then ((s.disk p).settled .catalog).toList.map some else []
      | .error _ => []
    else []
  | _ => []

def history (p : π) : Store δ π → List (Label δ π) → List (Option (Content δ))
  | _, [] => []
  | s, l :: ls => history p (perform hash l.2 l.1 s).2 ls ++ replaced hash s l p

def reached (s : Store δ π) (ls : List (Label δ π)) : Store δ π := ls.foldl (fun s l => (perform hash l.2 l.1 s).2) s

variable {hash} {files : Files δ} {s : Store δ π} {l : Label δ π} {p target : π} {plan : Plan δ π}

omit [DecidableEq δ] [DecidableEq π] in
theorem generations_persisted (files : Files δ) (d : PriceDocument δ) {backup : Bool}
    (h : (files .catalog).isSome → backup = true) :
    generations (persisted files d backup) = (((files .catalog).toList.map some) ++ generations files).take 3 := by
  cases hc : files .catalog with
  | none => simp [generations, persisted, hc]
  | some content => simp [generations, persisted, hc, h (by simp [hc])]

variable {c : PriceCatalog δ π} {inside : Files δ → Except CatalogError (Plan δ π)}

omit [DecidableEq π] in
theorem commitVersions_locked {ds : Dict Text PriceVersion} {e : Option Int}
    (h : commitVersions hash c ds e = .ok (.locked target inside)) : inside = commitInside hash c ds e := by
  unfold commitVersions at h
  split at h
  · split at h <;> cases h
  · cases h
    rfl

omit [DecidableEq π] in
theorem inside_cases {seen : π → Files δ} {op : Operation δ π}
    (h : request hash seen c op = .ok (.locked target inside)) :
    (∃ ds e, inside = commitInside hash c ds e) ∨ (∃ selected e, inside = restoreInside hash c target selected e) ∨
      inside = refreshInside c := by
  cases op with
  | add v e =>
    obtain ⟨ds, -, h⟩ := bind_eq_ok.mp h
    exact .inl ⟨ds, e, commitVersions_locked h⟩
  | update v e =>
    dsimp only [request] at h
    split at h
    · obtain ⟨ds, -, h⟩ := bind_eq_ok.mp h
      exact .inl ⟨ds, e, commitVersions_locked h⟩
    · cases h
  | remove versionId e =>
    dsimp only [request] at h
    split at h
    · exact .inl ⟨_, e, commitVersions_locked h⟩
    · cases h
  | importDocument payload e =>
    obtain ⟨d, -, h⟩ := bind_eq_ok.mp h
    obtain ⟨_, -, h⟩ := bind_eq_ok.mp h
    obtain ⟨ds, -, h⟩ := bind_eq_ok.mp h
    exact .inl ⟨ds, e, commitVersions_locked h⟩
  | restoreBackup path generation e =>
    dsimp only [request] at h
    split at h
    · cases h
    obtain ⟨selected, -, h⟩ := bind_eq_ok.mp h
    cases h
    exact .inr (.inl ⟨selected, e, rfl⟩)
  | refresh =>
    dsimp only [request] at h
    split at h
    · cases h
    · cases h
      exact .inr (.inr rfl)

omit [DecidableEq π] in
theorem generations_planned {seen : π → Files δ} {op : Operation δ π} {new : Files δ}
    (hr : request hash seen c op = .ok (.locked target inside)) (hplan : inside files = .ok plan)
    (hwrite : plan.write = some new) :
    generations new = (((files .catalog).toList.map some) ++ generations files).take 3 ∧
      (plan.dropsLegacy = true → files .catalog = none) := by
  obtain ⟨ds, e, rfl⟩ | ⟨selected, e, rfl⟩ | rfl := inside_cases hr
  · obtain ⟨current, n, -, -, -, rfl⟩ := commitInside_ok hplan
    cases hwrite
    exact ⟨generations_persisted files _ (fun _ => rfl), nofun⟩
  · obtain ⟨source, vs, m, n, current, -, -, hcurrent, -, -, rfl⟩ := restoreInside_ok hplan
    cases hwrite
    have hmissing : current.isSome = false → files .catalog = none := by
      intro hnone
      unfold currentDocument at hcurrent
      split at hcurrent
      · next hcatalog => exact hcatalog
      · obtain ⟨d, -, hd⟩ := map_eq_ok.mp hcurrent
        simp [← hd] at hnone
    refine ⟨generations_persisted files _ (fun hsome => ?_), fun hdrop => hmissing ?_⟩
    · by_contra hnone
      simp [hmissing (by simpa using hnone)] at hsome
    · simp only [Bool.and_eq_true] at hdrop
      simpa using hdrop.1
  · obtain ⟨d, vs, n, -, -, rfl⟩ := refreshInside_ok hplan
    cases hwrite

/-- Nothing, or one step up by the document it replaces. -/
def Moves (hash : Hash δ) (s : Store δ π) (l : Label δ π) (p : π) (d : Disk PriceFile (Content δ)) (raised : Bool) : Prop :=
  (d.settled = (s.disk p).settled ∧ replaced hash s l p = []) ∨
  (generations d.settled = (((s.disk p).settled .catalog).toList.map some ++ generations (s.disk p).settled).take 3 ∧
    replaced hash s l p = ((s.disk p).settled .catalog).toList.map some ∧
    (raised = true → (s.disk p).settled .catalog = none ∨ ∃ published, l.2.publish = .left published true))

theorem moves_carryOut
    (hr : request hash (fun p => (s.disk p).files) s.catalog l.1 = .ok (.locked p inside)) (hlocks : l.2.locks = true)
    (hclear : (s.disk p).pending = none ∨ l.2.recoveryRaises = none) (hplan : inside (s.disk p).settled = .ok plan) :
    Moves hash s l p ((carryOut l.2 s p (s.disk p).settled plan).2.disk p)
      (carryOut l.2 s p (s.disk p).settled plan).1.isSome := by
  have hreplaced : replaced hash s l p =
      if goesThrough l.2.publish ∧ plan.write.isSome then ((s.disk p).settled .catalog).toList.map some else [] := by
    unfold replaced
    rw [hr]
    by_cases hgoes : goesThrough l.2.publish = true
    · simp [hlocks, hclear, hplan, hgoes]
    · simp [hgoes]
  unfold carryOut
  cases hwrite : plan.write with
  | none => exact .inl ⟨by simp [Store.setDisk, Disk.settled], by simp [hreplaced, hwrite]⟩
  | some new =>
    obtain ⟨hnew, hdrop⟩ := generations_planned hr hplan hwrite
    rw [hwrite, Option.isSome_some] at hreplaced
    cases hp : l.2.publish with
    | done =>
      have hreplaced := hreplaced.trans (if_pos (by simp [hp, goesThrough]))
      dsimp only
      split
      · next hlegacy =>
        split
        · refine .inr ⟨?_, hreplaced, nofun⟩
          rw [← hnew]
          simp [Store.setDisk, publish, withoutLegacy, Disk.settled, generations]
        · exact .inr ⟨by simpa [Store.setDisk, publish, Disk.settled] using hnew, hreplaced, fun _ => .inl (hdrop hlegacy)⟩
      · exact .inr ⟨by simpa [Store.setDisk, publish, Disk.settled] using hnew, hreplaced, nofun⟩
    | undone =>
      exact .inl ⟨by simp [Store.setDisk, publish, Disk.settled], hreplaced.trans (if_neg (by simp [hp, goesThrough]))⟩
    | left published forward =>
      cases forward with
      | false =>
        exact .inl ⟨by simp [Store.setDisk, publish, Disk.settled], hreplaced.trans (if_neg (by simp [hp, goesThrough]))⟩
      | true =>
        refine .inr ⟨?_, hreplaced.trans (if_pos (by simp [hp, goesThrough])), fun _ => .inr ⟨published, hp⟩⟩
        simpa [Store.setDisk, publish, Disk.settled] using hnew

omit [DecidableEq δ] in
theorem carryOut_elsewhere {env : Steps} (h : p ≠ target) (files : Files δ) (plan : Plan δ π) :
    (carryOut env s target files plan).2.disk p = s.disk p := by
  unfold carryOut Store.setDisk
  repeat' split
  all_goals exact Function.update_of_ne h _ _

theorem moves_perform (hash : Hash δ) (s : Store δ π) (l : Label δ π) (p : π) :
    Moves hash s l p ((perform hash l.2 l.1 s).2.disk p) (perform hash l.2 l.1 s).1.isSome := by
  unfold perform
  cases hr : request hash (fun p => (s.disk p).files) s.catalog l.1 with
  | error e => exact .inl ⟨rfl, by simp [replaced, hr]⟩
  | ok r =>
    cases r with
    | finished c => exact .inl ⟨rfl, by simp [replaced, hr]⟩
    | locked target inside =>
      dsimp only
      by_cases htarget : p = target
      · subst htarget
        by_cases hlocks : l.2.locks = true
        · rw [hlocks, Bool.not_true, if_neg Bool.false_ne_true]
          by_cases hclear : (s.disk p).pending = none ∨ l.2.recoveryRaises = none
          · split
            · next hpending hraises => simp [hpending, hraises] at hclear
            · split
              · next e he => exact .inl ⟨by simp [Store.setDisk], by simp [replaced, hr, he]⟩
              · next plan hplan => exact moves_carryOut hr hlocks hclear hplan
          · simp only [not_or] at hclear
            obtain ⟨later, hlater⟩ := Option.ne_none_iff_exists'.mp hclear.1
            obtain ⟨moved, hmoved⟩ := Option.ne_none_iff_exists'.mp hclear.2
            rw [hlater, hmoved]
            exact .inl ⟨by simp [Store.setDisk, Disk.settled, hlater], by simp [replaced, hr, hlater, hmoved]⟩
        · rw [Bool.not_eq_true] at hlocks
          rw [hlocks]
          exact .inl ⟨rfl, by simp [replaced, hr, hlocks]⟩
      · have hdisk : replaced hash s l p = [] := by simp [replaced, hr, Ne.symm htarget]
        refine .inl ⟨?_, hdisk⟩
        split
        · rfl
        split
        · exact congrArg Disk.settled (Function.update_of_ne htarget _ _)
        split
        · exact congrArg Disk.settled (Function.update_of_ne htarget _ _)
        · exact congrArg Disk.settled (carryOut_elsewhere htarget _ _)

theorem generations_reached (s : Store δ π) (ls : List (Label δ π)) (p : π) :
    generations ((reached hash s ls).disk p).settled = (history hash p s ls ++ generations (s.disk p).settled).take 3 := by
  induction ls generalizing s with
  | nil => rfl
  | cons l ls ih =>
    have hstep : generations ((perform hash l.2 l.1 s).2.disk p).settled =
        (replaced hash s l p ++ generations (s.disk p).settled).take 3 := by
      obtain ⟨hsettled, hreplaced⟩ | ⟨hmoved, hreplaced, -⟩ := moves_perform hash s l p
      · rw [hsettled, hreplaced]
        rfl
      · rw [hmoved, hreplaced]
    have hnext := ih (perform hash l.2 l.1 s).2
    rw [hstep] at hnext
    rw [List.take_append, List.take_take, Nat.min_eq_left (Nat.sub_le _ _)] at hnext
    rw [history, List.append_assoc, List.take_append]
    exact hnext

/-- The backups as the last recovery leaves them are the documents replaced last, and only an
operation that succeeds or is left to recovery replaces one. -/
theorem backups_follow (s : Store δ π) (ls : List (Label δ π)) (p : π) : let t := reached hash s ls
    generations (t.disk p).settled = (history hash p s ls ++ generations (s.disk p).settled).take 3 ∧
    ((t.disk p).pending = none → (t.disk p).settled = (t.disk p).files) ∧
    ∀ l : Label δ π, let after := perform hash l.2 l.1 t
      (after.1 = none → (after.2.disk p).settled .catalog ≠ (t.disk p).settled .catalog →
        replaced hash t l p = ((t.disk p).settled .catalog).toList.map some) ∧
      (after.1.isSome → (∀ published, l.2.publish ≠ .left published true) →
        replaced hash t l p = [] ∧ generations (after.2.disk p).settled = generations (t.disk p).settled) := by
  refine ⟨generations_reached s ls p, fun h => by simp [Disk.settled, h], fun l => ?_⟩
  have hmoves := moves_perform hash (reached hash s ls) l p
  refine ⟨fun _ hchanged => ?_, fun hraised hleft => ?_⟩
  · obtain ⟨hsettled, -⟩ | ⟨-, hreplaced, -⟩ := hmoves
    · exact absurd (congrFun hsettled _) hchanged
    · exact hreplaced
  · obtain ⟨hsettled, hreplaced⟩ | ⟨hmoved, hreplaced, hleftover⟩ := hmoves
    · exact ⟨hreplaced, congrArg generations hsettled⟩
    · obtain hnone | ⟨published, hp⟩ := hleftover hraised
      · rw [hreplaced, hmoved, hnone]
        exact ⟨rfl, rfl⟩
      · exact absurd hp (hleft published)

end Steps

def opened : Store Int Unit :=
  ⟨⟨.empty, some (), 0, none⟩, fun _ => ⟨fun n => if n = .catalog then some (some (document sampleHash [] 0)) else none, none⟩⟩

def failing : Label Int Unit := (.add (price "a" 0) none, ⟨true, none, .left (fun _ => false) true, true⟩)

/-- The first price is written when the lock is next taken, though its addition raised. -/
theorem failed_commit_rotates : (perform sampleHash failing.2 failing.1 opened).1.isSome ∧
    (generations (opened.disk ()).settled).map Option.isSome = [false, false, false] ∧
    (generations ((reached sampleHash opened [failing, (.refresh, steps true)]).disk ()).files).map Option.isSome =
      [true, false, false] := by
  decide +kernel

end Kirara.PriceBackups
