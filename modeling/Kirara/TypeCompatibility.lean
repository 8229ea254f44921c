import Kirara.Channels
import Kirara.Dicts
import Kirara.Schedules

namespace Kirara.TypeCompatibility

open Kirara.Channels Kirara.Dicts Kirara.Schedules

/-- The objects that stand for types. `issubclass` may raise a TypeError. -/
structure Classes (κ : Type) where
  truthy : κ → Bool
  isSubclass : κ → κ → Option Bool

structure TypeSystem (κ : Type) where
  typeMap : Dict Text κ
  compatibilityCache : Dict Text (Dict Text Bool)

variable {κ : Type}

def start : TypeSystem κ := ⟨.empty, .empty⟩

def registerType (s : TypeSystem κ) (name : Text) (type : κ) : TypeSystem κ :=
  { s with typeMap := s.typeMap.set name type }

def TypeSystem.cached (s : TypeSystem κ) (source target : Text) : Option Bool :=
  (s.compatibilityCache.get source).bind fun row => row.get target

variable (C : Classes κ)

/-- What the types of two names are to each other, the cache apart. -/
def related (types : Dict Text κ) (source target : Text) : Bool :=
  match (types.get source).filter C.truthy, (types.get target).filter C.truthy with
  | some a, some b =>
    if target = "Any".toList ∨ source = "Any".toList then true
    else (C.isSubclass a b).getD (source = target)
  | _, _ => source = target

def isCompatible (s : TypeSystem κ) (source target : Text) : Bool × TypeSystem κ :=
  match s.cached source target with
  | some result => (result, s)
  | none =>
    let result := related C s.typeMap source target
    let row := (s.compatibilityCache.get source).getD .empty
    (result, { s with compatibilityCache := s.compatibilityCache.set source (row.set target result) })

def getCompatibilityMap (s : TypeSystem κ) : Dict Text (Dict Text Bool) × TypeSystem κ :=
  let names := s.typeMap.keys
  let s := (names.product names).foldl (fun s pair => (isCompatible C s pair.1 pair.2).2) s
  (s.compatibilityCache.mapValues (Dict.filter Prod.snd), s)

inductive Call (κ : Type) where
  | registerType (name : Text) (type : κ)
  | isCompatible (source target : Text)
  | getCompatibilityMap

def perform (s : TypeSystem κ) : Call κ → TypeSystem κ
  | .registerType name type => registerType s name type
  | .isCompatible source target => (isCompatible C s source target).2
  | .getCompatibilityMap => (getCompatibilityMap C s).2

def next (s : TypeSystem κ) (c : Call κ) : Option (TypeSystem κ) := some (perform C s c)

/-- Every answer is what the types that are registered by now give. -/
def Fresh (s : TypeSystem κ) : Prop :=
  ∀ source target, (isCompatible C s source target).1 = related C s.typeMap source target

/-- A type registered under a name asked about is to the other type of each question what was
there. -/
def Careful (s : TypeSystem κ) : Call κ → Prop
  | .registerType name type => ∀ source target, (s.cached source target).isSome → name = source ∨ name = target →
      related C (s.typeMap.set name type) source target = related C s.typeMap source target
  | _ => True

variable {C} {s : TypeSystem κ}

theorem fresh_iff : Fresh C s ↔ ∀ source target b, s.cached source target = some b → b = related C s.typeMap source target := by
  refine forall₂_congr fun source target => ?_
  unfold isCompatible
  cases s.cached source target with
  | none => simp
  | some b => simp

theorem typeMap_isCompatible (source target : Text) : (isCompatible C s source target).2.typeMap = s.typeMap := by
  unfold isCompatible
  cases s.cached source target <;> rfl

/-- A question leaves its own answer behind, and no other. -/
theorem cached_isCompatible {source target source' target' : Text} {b : Bool}
    (h : (isCompatible C s source target).2.cached source' target' = some b) :
    s.cached source' target' = some b ∨
      source' = source ∧ target' = target ∧ b = related C s.typeMap source target := by
  unfold isCompatible at h
  cases hc : s.cached source target with
  | some _ =>
    rw [hc] at h
    exact Or.inl h
  | none =>
    rw [hc] at h
    unfold TypeSystem.cached at h ⊢
    dsimp only at h
    rw [Dict.get_set] at h
    by_cases hs : source' = source
    · rw [if_pos hs, Option.bind_some, Dict.get_set] at h
      by_cases ht : target' = target
      · rw [if_pos ht] at h
        exact Or.inr ⟨hs, ht, (Option.some.inj h).symm⟩
      · rw [if_neg ht] at h
        left
        rw [hs]
        cases hrow : s.compatibilityCache.get source with
        | none => simp [hrow] at h
        | some row => simpa [hrow] using h
    · rw [if_neg hs] at h
      exact Or.inl h

theorem fresh_isCompatible (h : Fresh C s) (source target : Text) : Fresh C (isCompatible C s source target).2 := by
  refine fresh_iff.mpr fun source' target' b hb => ?_
  rw [typeMap_isCompatible]
  cases cached_isCompatible hb with
  | inl hold => exact fresh_iff.mp h source' target' b hold
  | inr hnew =>
    obtain ⟨rfl, rfl, hb⟩ := hnew
    exact hb

theorem fresh_getCompatibilityMap (h : Fresh C s) : Fresh C (getCompatibilityMap C s).2 := by
  unfold getCompatibilityMap
  dsimp only
  generalize s.typeMap.keys.product s.typeMap.keys = pairs
  induction pairs generalizing s with
  | nil => exact h
  | cons pair pairs ih => exact ih (fresh_isCompatible h pair.1 pair.2)

theorem related_set_of_ne {types : Dict Text κ} {name source target : Text} {type : κ} (hs : name ≠ source) (ht : name ≠ target) :
    related C (types.set name type) source target = related C types source target := by
  unfold related
  rw [Dict.get_set_of_ne hs.symm, Dict.get_set_of_ne ht.symm]

theorem fresh_registerType (h : Fresh C s) (name : Text) (type : κ) :
    Fresh C (registerType s name type) ↔ Careful C s (.registerType name type) := by
  rw [fresh_iff] at h ⊢
  constructor
  · intro hfresh source target hasked _
    obtain ⟨b, hb⟩ := Option.isSome_iff_exists.mp hasked
    exact (hfresh source target b hb).symm.trans (h source target b hb)
  · intro hcareful source target b hb
    have hold : b = related C s.typeMap source target := h source target b hb
    by_cases hname : name = source ∨ name = target
    · exact hold.trans (hcareful source target (Option.isSome_of_mem hb) hname).symm
    · have hne := not_or.mp hname
      exact hold.trans (related_set_of_ne hne.1 hne.2).symm

theorem fresh_perform (h : Fresh C s) (c : Call κ) : Fresh C (perform C s c) ↔ Careful C s c := by
  cases c with
  | registerType name type => exact fresh_registerType h name type
  | isCompatible source target => exact iff_of_true (fresh_isCompatible h source target) trivial
  | getCompatibilityMap => exact iff_of_true (fresh_getCompatibilityMap h) trivial

theorem exists_exec (calls : List (Call κ)) : ∃ t, exec (next C) s calls = some t := by
  induction calls generalizing s with
  | nil => exact ⟨s, rfl⟩
  | cons c calls ih => exact ih

/-- The answers are those of the types registered by then, after every call of a run, exactly
where the run registers carefully. -/
theorem answers_fresh_iff (C : Classes κ) (calls : List (Call κ)) :
    Along (next C) (fun s c => Fresh C (perform C s c)) start calls ↔ Along (next C) (Careful C) start calls := by
  obtain ⟨t, ht⟩ : ∃ t, exec (next C) start calls = some t := exists_exec calls
  have hstart : Fresh C start := fun _ _ => rfl
  refine along_iff_of_exec (next C) (I := Fresh C) ?_ hstart ht
  intro s c t hs ht
  obtain rfl : perform C s c = t := Option.some.inj ht
  exact ⟨fresh_perform hs c, (fresh_perform hs c).mpr⟩

/-- A block asked about before a plugin registers what it takes and gives. -/
def early : List (Call Bool) :=
  [.isCompatible "Photo".toList "Media".toList, .registerType "Media".toList false, .registerType "Photo".toList true]

theorem early_answer_stays : let C : Classes Bool := ⟨fun _ => true, fun a b => some (a || !b)⟩
    let asked := early.foldl (perform C) start
    let unasked := early.tail.foldl (perform C) start
    asked.typeMap = unasked.typeMap ∧
      (isCompatible C asked "Photo".toList "Media".toList).1 = false ∧
      (isCompatible C unasked "Photo".toList "Media".toList).1 = true := by
  refine ⟨rfl, ?_, ?_⟩ <;> decide

end Kirara.TypeCompatibility
