import Kirara.Rosters

namespace Kirara.Dicts

open Kirara.Rosters

theorem distinct_snoc {κ ν : Type} {l : List (κ × ν)} {k : κ} {v : ν} (h : Distinct l)
    (hk : k ∉ l.map Prod.fst) : Distinct (l ++ [(k, v)]) := by
  rw [Distinct, List.map_append, List.map_cons, List.map_nil]
  refine List.nodup_append.mpr ⟨h, List.nodup_singleton _, fun a ha b hb hab => hk ?_⟩
  rwa [hab, List.mem_singleton.mp hb] at ha

/-- A mapping with its entries in the order of insertion, each key once. -/
@[ext] structure Dict (κ ν : Type) where
  entries : List (κ × ν)
  distinct : Distinct entries

namespace Dict

variable {κ ν : Type}

def empty : Dict κ ν := ⟨[], List.nodup_nil⟩

def keys (d : Dict κ ν) : List κ := d.entries.map Prod.fst

def values (d : Dict κ ν) : List ν := d.entries.map Prod.snd

/-- The entries that pass a test, in their order. -/
def filter (f : κ × ν → Bool) (d : Dict κ ν) : Dict κ ν :=
  ⟨d.entries.filter f, d.distinct.sublist (List.filter_sublist.map _)⟩

def mapValues (f : ν → ν) (d : Dict κ ν) : Dict κ ν :=
  ⟨d.entries.map (fun p => (p.1, f p.2)), by
    have h := d.distinct
    rwa [Distinct, List.map_map, show (Prod.fst ∘ fun p : κ × ν => (p.1, f p.2)) = Prod.fst from rfl]⟩

/-- Change every value, under each key its own way. -/
def mapEntries (f : κ → ν → ν) (d : Dict κ ν) : Dict κ ν :=
  ⟨d.entries.map (fun p => (p.1, f p.1 p.2)), by
    have h := d.distinct
    rwa [Distinct, List.map_map, show (Prod.fst ∘ fun p : κ × ν => (p.1, f p.1 p.2)) = Prod.fst from rfl]⟩

variable [DecidableEq κ] {d : Dict κ ν} {k l : κ} {v w : ν}

def get (d : Dict κ ν) (k : κ) : Option ν := lookup k d.entries

/-- A key that is there keeps its place, a new one goes to the end. -/
def set (d : Dict κ ν) (k : κ) (v : ν) : Dict κ ν :=
  if h : k ∈ d.entries.map Prod.fst then ⟨replace k v d.entries, distinct_replace d.distinct⟩
  else
    ⟨d.entries ++ [(k, v)], distinct_snoc d.distinct h⟩

def pop (d : Dict κ ν) (k : κ) : Dict κ ν := ⟨remove k d.entries, distinct_remove d.distinct⟩

theorem get_eq_some_iff : d.get k = some v ↔ (k, v) ∈ d.entries := by
  constructor
  · exact mem_of_lookup
  · intro h
    have hs : (d.entries.find? (fun p => p.1 = k)).isSome :=
      List.find?_isSome.mpr ⟨(k, v), h, by simp⟩
    obtain ⟨p, hp⟩ := Option.isSome_iff_exists.mp hs
    have hk : p.1 = k := by simpa using List.find?_some hp
    have hv : p.2 = v := eq_of_distinct d.distinct (List.mem_of_find?_eq_some hp) (hk ▸ h)
    rw [get, lookup, hp, Option.map_some, hv]

theorem get_eq_of_entries {e : Dict κ ν} (h : ∀ v, (k, v) ∈ d.entries ↔ (l, v) ∈ e.entries) :
    d.get k = e.get l := by
  apply Option.ext
  intro v
  rw [get_eq_some_iff, get_eq_some_iff, h]

omit [DecidableEq κ] in
theorem mem_keys_iff : k ∈ d.keys ↔ ∃ v, (k, v) ∈ d.entries := by
  simp [keys]

theorem isSome_get_iff : (d.get k).isSome ↔ k ∈ d.keys := by
  simp [Option.isSome_iff_exists, get_eq_some_iff, mem_keys_iff]

theorem mem_values_iff : v ∈ d.values ↔ ∃ k, d.get k = some v := by
  simp [values, get_eq_some_iff]

@[simp] theorem get_empty : (empty : Dict κ ν).get k = none := rfl

theorem mem_set_iff {p : κ × ν} : p ∈ (d.set k v).entries ↔ p = (k, v) ∨ p ∈ d.entries ∧ p.1 ≠ k := by
  unfold set
  split
  · next h =>
    constructor
    · exact mem_replace
    · rintro (rfl | hp)
      · obtain ⟨q, hq, hk⟩ := List.mem_map.mp h
        exact mem_replace_self (y := q.2) (hk ▸ hq)
      · exact mem_replace_of_ne hp.1 hp.2
  · next h =>
    rw [List.mem_append, List.mem_singleton]
    constructor
    · rintro (hp | rfl)
      · exact .inr ⟨hp, fun hk => h (List.mem_map.mpr ⟨p, hp, hk⟩)⟩
      · exact .inl rfl
    · rintro (rfl | hp)
      · exact .inr rfl
      · exact .inl hp.1

@[simp] theorem get_set_self : (d.set k v).get k = some v :=
  get_eq_some_iff.mpr (mem_set_iff.mpr (.inl rfl))

@[simp] theorem get_set_of_ne (h : l ≠ k) : (d.set k v).get l = d.get l :=
  get_eq_of_entries (fun w => by simp [mem_set_iff, h])

theorem get_set : (d.set k v).get l = if l = k then some v else d.get l := by
  by_cases h : l = k
  · rw [if_pos h, h, get_set_self]
  · rw [if_neg h, get_set_of_ne h]

theorem set_entries_of_not_mem (h : k ∉ d.keys) : (d.set k v).entries = d.entries ++ [(k, v)] := by
  unfold keys at h
  rw [set, dif_neg h]

theorem mem_keys_set : l ∈ (d.set k v).keys ↔ l = k ∨ l ∈ d.keys := by
  rw [← isSome_get_iff, get_set]
  split
  · next h => simp [h]
  · next h => simp [h, isSome_get_iff]

@[simp] theorem get_pop_self : (d.pop k).get k = none := by
  apply Option.eq_none_iff_forall_ne_some.mpr
  intro v hv
  exact (mem_remove.mp (get_eq_some_iff.mp hv)).2 rfl

@[simp] theorem get_pop_of_ne (h : l ≠ k) : (d.pop k).get l = d.get l :=
  get_eq_of_entries (fun w => by simp [pop, mem_remove, h])

theorem get_pop : (d.pop k).get l = if l = k then none else d.get l := by
  by_cases h : l = k
  · rw [if_pos h, h, get_pop_self]
  · rw [if_neg h, get_pop_of_ne h]

theorem mem_keys_pop : l ∈ (d.pop k).keys ↔ l ∈ d.keys ∧ l ≠ k := by
  rw [← isSome_get_iff, get_pop]
  split
  · next h => simp [h]
  · next h => simp [h, isSome_get_iff]

theorem get_filter_eq_some_iff {f : κ × ν → Bool} :
    (d.filter f).get k = some v ↔ d.get k = some v ∧ f (k, v) = true := by
  rw [get_eq_some_iff, get_eq_some_iff, filter, List.mem_filter]

theorem get_mapEntries {f : κ → ν → ν} : (d.mapEntries f).get k = (d.get k).map (f k) := by
  apply Option.ext
  intro v
  simp only [get_eq_some_iff, Option.map_eq_some_iff, mapEntries, List.mem_map, Prod.mk.injEq]
  constructor
  · intro ⟨p, hp, hk, hv⟩
    exact ⟨p.2, hk ▸ hp, hk ▸ hv⟩
  · intro ⟨w, hw, hv⟩
    exact ⟨(k, w), hw, rfl, hv⟩

theorem get_mapValues {f : ν → ν} : (d.mapValues f).get k = (d.get k).map f :=
  get_mapEntries (f := fun _ => f)

theorem foldl_set_entries {l : List (κ × ν)} {d : Dict κ ν} (h : Distinct (d.entries ++ l)) :
    (l.foldl (fun d e => d.set e.1 e.2) d).entries = d.entries ++ l := by
  induction l generalizing d with
  | nil => simp
  | cons e l ih =>
    have hnew : e.1 ∉ d.entries.map Prod.fst := by
      rw [Distinct, List.map_append, List.map_cons] at h
      exact fun hm => (List.nodup_append.mp h).2.2 _ hm _ List.mem_cons_self rfl
    have hset : (d.set e.1 e.2).entries = d.entries ++ [e] := set_entries_of_not_mem hnew
    have hsplit : d.entries ++ e :: l = (d.set e.1 e.2).entries ++ l := by simp [hset]
    rw [List.foldl_cons, ih (hsplit ▸ h), ← hsplit]

theorem get_foldl_set {ks : List κ} {d : Dict κ ν} (h : (ks.foldl (fun d k => d.set k v) d).get l = some w) :
    l ∈ ks ∨ d.get l = some w := by
  induction ks generalizing d with
  | nil => exact .inr h
  | cons k ks ih =>
    cases ih h with
    | inl hm => exact .inl (List.mem_cons_of_mem k hm)
    | inr hd =>
      rw [get_set] at hd
      split at hd
      · next he => exact .inl (he ▸ List.mem_cons_self)
      · exact .inr hd

theorem foldl_update_apply (d : Dict κ ν) (f : κ → ν) :
    d.entries.foldl (fun f e => Function.update f e.1 e.2) f k = (d.get k).getD (f k) := by
  obtain ⟨l, hl⟩ := d
  unfold get
  induction l generalizing f with
  | nil => rfl
  | cons e l ih =>
    obtain ⟨hfresh, hrest⟩ := List.nodup_cons.mp hl
    rw [List.foldl_cons, ih _ hrest]
    by_cases h : e.1 = k
    · have hnone : lookup k l = none := by
        apply Option.eq_none_iff_forall_ne_some.mpr
        intro v hv
        exact hfresh (List.mem_map.mpr ⟨(k, v), mem_of_lookup hv, h.symm⟩)
      rw [hnone, lookup, List.find?_cons_of_pos (by simpa using h), ← h]
      simp
    · simp [lookup, h, Function.update_of_ne (Ne.symm h)]

end Dict

end Kirara.Dicts
