import Mathlib.Data.List.Basic

namespace Kirara.Framings

variable {α τ : Type}

/-- The trailer ends with the only stop in it; the body may contain stops. -/
structure Framing (α τ : Type) where
  stop : α
  trailer : τ → List α
  Sound : τ → Prop
  closed : ∀ t, Sound t → stop ∉ trailer t
  parted : ∀ a b t u, Sound t → Sound u → a ++ trailer t = b ++ trailer u → a = b ∧ t = u

namespace Framing

def frame (F : Framing α τ) (r : List α × τ) : List α := r.1 ++ (F.trailer r.2 ++ [F.stop])

def join (F : Framing α τ) (rs : List (List α × τ)) : List α := (rs.map F.frame).flatten

/-- Two groupings of one sequence: a record of one may stand in front in a body of the other. -/
inductive Regroups (F : Framing α τ) : List (List α × τ) → List (List α × τ) → Prop where
  | nil : Regroups F [] []
  | same {rs ss : List (List α × τ)} (r : List α × τ) (h : Regroups F rs ss) : Regroups F (r :: rs) (r :: ss)
  | left {rs ss : List (List α × τ)} (r : List α × τ) (body : List α) (t : τ) (h : Regroups F rs ((body, t) :: ss)) :
    Regroups F (r :: rs) ((F.frame r ++ body, t) :: ss)
  | right {rs ss : List (List α × τ)} (r : List α × τ) (body : List α) (t : τ) (h : Regroups F ((body, t) :: rs) ss) :
    Regroups F ((F.frame r ++ body, t) :: rs) (r :: ss)

variable {F : Framing α τ} {r s : List α × τ} {rs ss : List (List α × τ)} {body : List α} {t : τ}

@[simp]
theorem join_nil : F.join [] = [] := rfl

@[simp]
theorem join_cons : F.join (r :: rs) = F.frame r ++ F.join rs := rfl

theorem frame_append : F.frame (F.frame r ++ body, t) = F.frame r ++ F.frame (body, t) := by
  simp [frame]

theorem frame_ne_nil : F.frame r ≠ [] := by
  simp [frame]

theorem frame_inj (hr : F.Sound r.2) (hs : F.Sound s.2) (h : F.frame r = F.frame s) : r = s := by
  rw [frame, frame, ← List.append_assoc, ← List.append_assoc] at h
  have hparts := F.parted r.1 s.1 r.2 s.2 hr hs (List.append_cancel_right h)
  exact Prod.ext hparts.1 hparts.2

theorem body_of_frame (hs : F.Sound s.2) {rest : List α} (hne : rest ≠ []) (h : F.frame s = F.frame r ++ rest) :
    ∃ body, s.1 = F.frame r ++ body ∧ rest = F.frame (body, s.2) := by
  rw [frame] at h
  cases List.append_eq_append_iff.mp h with
  | inl hlong =>
    obtain ⟨front, hfront, hback⟩ := hlong
    -- the stop of the other record would stand within the trailer
    cases List.eq_nil_or_concat front with
    | inl hnil =>
      rw [hnil, List.append_nil] at hfront
      rw [hnil, List.nil_append] at hback
      exact ⟨[], by rw [List.append_nil, hfront], hback.symm⟩
    | inr hconcat =>
      exfalso
      obtain ⟨init, c, rfl⟩ := hconcat
      have hstop : c = F.stop := by
        rw [frame, ← List.append_assoc, List.concat_eq_append, ← List.append_assoc] at hfront
        exact (List.cons.inj (List.append_inj_right' hfront rfl)).1.symm
      obtain ⟨restInit, d, hrest⟩ := (List.eq_nil_or_concat rest).resolve_left hne
      rw [hrest, List.concat_eq_append, List.concat_eq_append, ← List.append_assoc] at hback
      have htrailer := List.append_inj_left' hback rfl
      exact F.closed s.2 hs (by rw [htrailer, hstop]; simp)
  | inr hshort =>
    obtain ⟨body, hbody, hrest⟩ := hshort
    exact ⟨body, hbody, hrest⟩

theorem join_of_regroups (h : Regroups F rs ss) : F.join rs = F.join ss := by
  induction h with
  | nil => rfl
  | same r h ih => rw [join_cons, join_cons, ih]
  | left r body t h ih => rw [join_cons, join_cons, frame_append, ih, join_cons, List.append_assoc]
  | right r body t h ih => rw [join_cons, join_cons, frame_append, ← ih, join_cons, List.append_assoc]

theorem join_eq_iff (hrs : ∀ r ∈ rs, F.Sound r.2) (hss : ∀ s ∈ ss, F.Sound s.2) :
    F.join rs = F.join ss ↔ Regroups F rs ss := by
  refine ⟨fun h => ?_, join_of_regroups⟩
  -- by induction on the number of records in both lists, as each step takes one of them away
  generalize hn : rs.length + ss.length = n
  induction n using Nat.strongRecOn generalizing rs ss with
  | ind n ih =>
    cases rs with
    | nil =>
      cases ss with
      | nil => exact .nil
      | cons s ss => exact absurd (List.append_eq_nil_iff.mp h.symm).1 frame_ne_nil
    | cons r rs =>
      cases ss with
      | nil => exact absurd (List.append_eq_nil_iff.mp h).1 frame_ne_nil
      | cons s ss =>
        have hr := hrs r List.mem_cons_self
        have hs := hss s List.mem_cons_self
        have hrs' : ∀ x ∈ rs, F.Sound x.2 := fun x hx => hrs x (List.mem_cons_of_mem r hx)
        have hss' : ∀ x ∈ ss, F.Sound x.2 := fun x hx => hss x (List.mem_cons_of_mem s hx)
        rw [List.length_cons, List.length_cons] at hn
        by_cases heq : F.frame r = F.frame s
        · cases frame_inj hr hs heq
          exact .same r (ih (rs.length + ss.length) (by omega) hrs' hss' (List.append_cancel_left h) rfl)
        · rw [join_cons, join_cons] at h
          cases List.append_eq_append_iff.mp h with
          | inl hlong =>
            obtain ⟨rest, hframe, hjoin⟩ := hlong
            have hne : rest ≠ [] := fun he => heq (by rw [hframe, he, List.append_nil])
            obtain ⟨body, hbody, rfl⟩ := body_of_frame hs hne hframe
            have hsplit : s = (F.frame r ++ body, s.2) := Prod.ext hbody rfl
            rw [hsplit]
            refine .left r body s.2 (ih (rs.length + (ss.length + 1)) (by omega) hrs' ?_ hjoin rfl)
            exact List.forall_mem_cons.mpr ⟨hs, hss'⟩
          | inr hshort =>
            obtain ⟨rest, hframe, hjoin⟩ := hshort
            have hne : rest ≠ [] := fun he => heq (by rw [hframe, he, List.append_nil])
            obtain ⟨body, hbody, rfl⟩ := body_of_frame hr hne hframe
            have hsplit : r = (F.frame s ++ body, r.2) := Prod.ext hbody rfl
            rw [hsplit]
            refine .right s body r.2 (ih (rs.length + 1 + ss.length) (by omega) ?_ hss' hjoin.symm rfl)
            exact List.forall_mem_cons.mpr ⟨hr, hrs'⟩

end Framing

end Kirara.Framings
