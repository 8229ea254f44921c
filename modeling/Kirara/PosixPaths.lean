import Kirara.Channels

namespace Kirara.PosixPaths

open Kirara.Channels

/-- A name that stands for itself in a path. -/
def IsPart (c : Text) : Prop := c ≠ [] ∧ c ≠ ['.'] ∧ '/' ∉ c

/-- The parts of a relative path: empty ones and dots are left out. -/
def components (t : Text) : List Text := (t.splitOn '/').filter (fun c => decide (c ≠ [] ∧ c ≠ ['.']))

def isAbsolute (t : Text) : Bool := t.head? = some '/'

def joined (cs : List Text) : Text := ['/'].intercalate cs

def ofParts : List Text → Text
  | [] => ['.']
  | c :: cs => joined (c :: cs)

/-- `PurePosixPath(t).as_posix()`, for a relative path. -/
def asPosix (t : Text) : Text := ofParts (components t)

/-- `PurePosixPath(t).name`. -/
def baseName (t : Text) : Text := (components t).getLastD []

/-- A path that is written with its parts only. -/
def Normal (t : Text) : Prop := ∀ c ∈ t.splitOn '/', IsPart c

variable {t u : Text} {c : Text} {cs : List Text}

theorem not_mem_of_mem_splitOn (h : c ∈ t.splitOn '/') : '/' ∉ c := by
  induction t generalizing c with
  | nil =>
    rw [List.splitOn_nil, List.mem_singleton] at h
    rw [h]
    exact List.not_mem_nil
  | cons d t ih =>
    rw [List.splitOn_cons_eq_if_modifyHead] at h
    split at h
    · cases List.mem_cons.mp h with
      | inl h =>
        rw [h]
        exact List.not_mem_nil
      | inr h => exact ih h
    · next hd =>
      obtain ⟨first, rest, hsplit⟩ := List.exists_cons_of_ne_nil (List.splitOn_ne_nil '/' t)
      rw [hsplit, List.modifyHead_cons] at h
      cases List.mem_cons.mp h with
      | inl h =>
        rw [h, List.mem_cons]
        have hfirst : '/' ∉ first := ih (hsplit ▸ List.mem_cons_self)
        exact not_or.mpr ⟨fun hc => hd (beq_iff_eq.mpr hc.symm), hfirst⟩
      | inr h => exact ih (hsplit ▸ List.mem_cons_of_mem _ h)

theorem isPart_of_mem_components (h : c ∈ components t) : IsPart c := by
  obtain ⟨hmem, hc⟩ := List.mem_filter.mp h
  obtain ⟨hne, hdot⟩ := of_decide_eq_true hc
  exact ⟨hne, hdot, not_mem_of_mem_splitOn hmem⟩

theorem components_append (t u : Text) : components (t ++ '/' :: u) = components t ++ components u := by
  rw [components, List.splitOn_append_cons_self, List.filter_append]
  rfl

theorem Normal.components_eq (h : Normal t) : components t = t.splitOn '/' :=
  List.filter_eq_self.mpr (fun c hc => decide_eq_true ⟨(h c hc).1, (h c hc).2.1⟩)

theorem splitOn_joined (hne : cs ≠ []) (h : ∀ c ∈ cs, IsPart c) : (joined cs).splitOn '/' = cs :=
  List.splitOn_intercalate '/' (fun c hc => (h c hc).2.2) hne

theorem normal_joined (hne : cs ≠ []) (h : ∀ c ∈ cs, IsPart c) : Normal (joined cs) := by
  rw [Normal, splitOn_joined hne h]
  exact h

theorem components_joined (hne : cs ≠ []) (h : ∀ c ∈ cs, IsPart c) : components (joined cs) = cs := by
  rw [(normal_joined hne h).components_eq, splitOn_joined hne h]

theorem components_ofParts (h : ∀ c ∈ cs, IsPart c) : components (ofParts cs) = cs := by
  cases cs with
  | nil => rfl
  | cons c cs => exact components_joined (List.cons_ne_nil c cs) h

theorem components_asPosix (t : Text) : components (asPosix t) = components t :=
  components_ofParts (fun _ => isPart_of_mem_components)

theorem Normal.joined_components (h : Normal t) : joined (components t) = t := by
  rw [h.components_eq]
  exact List.intercalate_splitOn '/'

theorem Normal.components_ne_nil (h : Normal t) : components t ≠ [] := by
  rw [h.components_eq]
  exact List.splitOn_ne_nil '/' t

theorem Normal.asPosix_eq (h : Normal t) : asPosix t = t := by
  obtain ⟨c, cs, hcs⟩ := List.exists_cons_of_ne_nil h.components_ne_nil
  rw [asPosix, hcs, ofParts, ← hcs, h.joined_components]

theorem normal_asPosix (h : components t ≠ []) : Normal (asPosix t) := by
  obtain ⟨c, cs, hcs⟩ := List.exists_cons_of_ne_nil h
  rw [asPosix, hcs, ofParts]
  exact normal_joined (List.cons_ne_nil c cs) (fun d hd => isPart_of_mem_components (hcs ▸ hd))

theorem Normal.eq_of_components (ht : Normal t) (hu : Normal u) (h : components t = components u) : t = u := by
  rw [← ht.joined_components, h, hu.joined_components]

theorem Normal.of_append (h : Normal (t ++ '/' :: u)) : Normal t ∧ Normal u := by
  rw [Normal, List.splitOn_append_cons_self] at h
  exact ⟨fun c hc => h c (List.mem_append_left _ hc), fun c hc => h c (List.mem_append_right _ hc)⟩

theorem Normal.not_isAbsolute (h : Normal t) : isAbsolute t = false := by
  cases t with
  | nil => rfl
  | cons c t =>
    refine decide_eq_false (fun hc => ?_)
    have hslash : c = '/' := Option.some.inj hc
    subst hslash
    exact ((h.of_append (t := [])).1 [] List.mem_cons_self).1 rfl

theorem Normal.ne_nil (h : Normal t) : t ≠ [] := by
  rintro rfl
  exact (h [] List.mem_cons_self).1 rfl

theorem joined_cons_cons (c d : Text) (cs : List Text) : joined (c :: d :: cs) = c ++ '/' :: joined (d :: cs) := by
  rw [joined, List.intercalate_cons_cons, List.append_assoc]
  rfl

theorem mem_or_of_mem_joined {x : Char} (h : x ∈ joined cs) : x = '/' ∨ ∃ c ∈ cs, x ∈ c := by
  induction cs with
  | nil => cases h
  | cons c cs ih =>
    cases cs with
    | nil => exact .inr ⟨c, List.mem_cons_self, by rwa [joined, List.intercalate_singleton] at h⟩
    | cons d cs =>
      rw [joined_cons_cons, List.mem_append, List.mem_cons] at h
      obtain h | h | h := h
      · exact .inr ⟨c, List.mem_cons_self, h⟩
      · exact .inl h
      · exact (ih h).imp id (fun ⟨e, he, hx⟩ => ⟨e, List.mem_cons_of_mem _ he, hx⟩)

theorem mem_joined {x : Char} (hc : c ∈ cs) (hx : x ∈ c) : x ∈ joined cs := by
  induction cs with
  | nil => cases hc
  | cons d cs ih =>
    cases cs with
    | nil =>
      rw [joined, List.intercalate_singleton]
      exact List.mem_singleton.mp hc ▸ hx
    | cons e cs =>
      rw [joined_cons_cons, List.mem_append, List.mem_cons]
      cases List.mem_cons.mp hc with
      | inl hc => exact .inl (hc ▸ hx)
      | inr hc => exact .inr (.inr (ih hc))

theorem mem_asPosix {x : Char} (h : x ∈ asPosix t) : x ∈ t ∨ x = '/' ∨ x = '.' := by
  rw [asPosix] at h
  cases hcs : components t with
  | nil =>
    rw [hcs] at h
    exact .inr (.inr (List.mem_singleton.mp h))
  | cons c cs =>
    rw [hcs, ofParts, ← hcs] at h
    cases mem_or_of_mem_joined h with
    | inl h => exact .inr (.inl h)
    | inr h =>
      obtain ⟨d, hd, hx⟩ := h
      have hmem := mem_joined (List.mem_of_mem_filter hd) hx
      rw [joined, List.intercalate_splitOn] at hmem
      exact .inl hmem

theorem length_joined_cons (c : Text) (cs : List Text) :
    (joined (c :: cs)).length = c.length + (cs.map (fun d => d.length + 1)).sum := by
  induction cs generalizing c with
  | nil => rw [joined, List.intercalate_singleton]; rfl
  | cons d cs ih =>
    rw [joined_cons_cons, List.length_append, List.length_cons, ih, List.map_cons, List.sum_cons]
    omega

theorem length_joined_le {ds : List Text} (h : cs.Sublist ds) : (joined cs).length ≤ (joined ds).length := by
  have hsum {cs ds : List Text} (h : cs.Sublist ds) :
      (cs.map (fun d => d.length + 1)).sum ≤ (ds.map (fun d => d.length + 1)).sum := by
    induction h with
    | slnil => exact le_refl _
    | cons d _ ih => rw [List.map_cons, List.sum_cons]; omega
    | cons_cons d _ ih => rw [List.map_cons, List.map_cons, List.sum_cons, List.sum_cons]; omega
  have hlength {c : Text} {cs : List Text} : (joined (c :: cs)).length + 1 =
      ((c :: cs).map (fun d => d.length + 1)).sum := by
    rw [length_joined_cons, List.map_cons, List.sum_cons]
    omega
  cases cs with
  | nil => exact Nat.zero_le _
  | cons c cs =>
    cases ds with
    | nil => cases h
    | cons d ds =>
      have h₁ := hsum h
      rw [← hlength, ← hlength] at h₁
      omega

theorem length_asPosix_le (ht : t ≠ []) : (asPosix t).length ≤ t.length := by
  rw [asPosix]
  cases hcs : components t with
  | nil => exact List.length_pos_iff.mpr ht
  | cons c cs =>
    rw [ofParts, ← hcs]
    have h := length_joined_le (List.filter_sublist (p := fun c => decide (c ≠ [] ∧ c ≠ ['.'])) (l := t.splitOn '/'))
    rwa [joined, joined, List.intercalate_splitOn] at h

end Kirara.PosixPaths
