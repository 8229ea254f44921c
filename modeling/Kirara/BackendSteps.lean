import Kirara.BackendEdits

namespace Kirara.BackendSteps

open Kirara.BackendEdits Kirara.Channels Kirara.Dicts Kirara.LoadedBackends Kirara.LoadedInstances
open Kirara.TimeoutBudgets (Floats Given LLMBackendConfig ModelItem Same document loadConfig modelValidate modelValidate_eq_ok
  nothing overlaid updatedBackend)

variable {α φ : Type} {N : Floats φ} {P : Plugins α} {s t : State α N} {n : Text}

theorem backendConfig_eq : s.manager.backendConfig n = (s.apiBackends.find? (fun c => decide (name c = n))).map backend := by
  rw [Manager.backendConfig, State.manager, List.find?_map]
  rfl

theorem canLoad_eq : canLoad P n s.apiBackends = (s.manager.backendConfig n).any (fun b => b.enable && P.creates b) := by
  rw [backendConfig_eq, canLoad, Option.any_map]
  rfl

theorem load_ok (h : canLoad P n s.apiBackends = true) : ∃ t, load P n s = .ok t ∧ t.apiBackends = s.apiBackends ∧
    t.loaded = Function.update s.loaded n true := by
  rw [canLoad_eq] at h
  unfold load loadBackend
  cases hfound : s.manager.backendConfig n with
  | none =>
    rw [hfound] at h
    cases h
  | some b =>
    rw [hfound, Option.any_some, Plugins.creates, Bool.and_eq_true, Bool.and_eq_true] at h
    obtain ⟨henable, hregistered, hconstructs⟩ := h
    simp only [Option.any_some, henable, hregistered, hconstructs, any_listsName, Bool.not_true, Bool.false_eq_true, if_false]
    refine ⟨_, rfl, rfl, funext fun m => ?_⟩
    change (Dict.get (install n b s.manager).backends m).isSome = _
    rw [backends_install.1, Dict.get_set, Function.update_apply]
    split <;> rfl

theorem load_error (h : canLoad P n s.apiBackends = false) : ∃ x, load P n s = .error x := by
  rw [canLoad_eq] at h
  unfold load loadBackend
  cases hfound : s.manager.backendConfig n with
  | none => exact ⟨_, rfl⟩
  | some b =>
    rw [hfound, Option.any_some, Plugins.creates] at h
    simp only [Option.any_some, any_listsName, Bool.false_eq_true, if_false]
    cases henable : b.enable with
    | false => exact ⟨_, rfl⟩
    | true =>
      cases hregistered : P.registered b.adapter with
      | false => exact ⟨_, rfl⟩
      | true =>
        cases hconstructs : P.constructs b with
        | false => exact ⟨_, rfl⟩
        | true =>
          rw [henable, hregistered, hconstructs] at h
          cases h

theorem unload_ok (hn : n ∈ s.apiBackends.map name) (h : s.loaded n = true) : ∃ t, unload n s = .ok t ∧
    t.apiBackends = s.apiBackends ∧ t.loaded = Function.update s.loaded n false := by
  obtain ⟨a, ha⟩ := Option.isSome_iff_exists.mp h
  obtain ⟨c, hc, hname⟩ := List.mem_map.mp hn
  have hfound : (s.manager.backendConfig n).isSome = true := by
    rw [backendConfig_eq, Option.isSome_map, List.find?_isSome]
    exact ⟨c, hc, decide_eq_true hname⟩
  obtain ⟨b, hb⟩ := Option.isSome_iff_exists.mp hfound
  have hunload : unloadBackend n s.manager = .ok (LoadedInstances.remove n a s.manager) := by
    have hget : s.manager.backends.get n = some a := ha
    rw [unloadBackend, hb]
    dsimp only
    rw [hget]
    rfl
  refine ⟨{ s with llm := LoadedInstances.remove n a s.manager }, ?_, rfl, funext fun m => ?_⟩
  · rw [unload, hunload]
    rfl
  · change (Dict.get (LoadedInstances.remove n a s.manager).backends m).isSome = _
    rw [backends_remove.1, Dict.get_pop, Function.update_apply]
    split <;> rfl

theorem unload_error (h : s.loaded n = false) : ∃ x, unload n s = .error x := by
  have hnone : s.manager.backends.get n = none := Option.not_isSome_iff_eq_none.mp (by rw [← Bool.not_eq_true] at h; exact h)
  rw [unload, unloadBackend]
  cases s.manager.backendConfig n with
  | none => exact ⟨_, rfl⟩
  | some b =>
    dsimp only
    rw [hnone]
    exact ⟨_, rfl⟩

theorem loadIf_ok {b : Bool} (h : b = true → canLoad P n s.apiBackends = true) :
    ∃ t, (if b then load P n s else .ok s) = .ok t ∧ t.apiBackends = s.apiBackends ∧
      ∀ m, t.loaded m = (b && decide (m = n) || s.loaded m) := by
  cases b with
  | false => exact ⟨s, rfl, rfl, fun m => rfl⟩
  | true =>
    obtain ⟨t, ht, hbackends, hloaded⟩ := load_ok (h rfl)
    exact ⟨t, ht, hbackends, fun m => by by_cases hm : m = n <;> simp [hloaded, hm]⟩

variable {before after : List (LLMBackendConfig α N)}

theorem mem_names {c : LLMBackendConfig α N}
    (hl : s.apiBackends = before ++ c :: after) (hc : name c = n) : n ∈ s.apiBackends.map name := by
  rw [hl, ← hc]
  exact List.mem_map_of_mem (List.mem_append_right before List.mem_cons_self)

theorem unloadIf_ok {b : Bool} (h : b = true → n ∈ s.apiBackends.map name ∧ s.loaded n = true) :
    ∃ t, (if b then unload n s else .ok s) = .ok t ∧ t.apiBackends = s.apiBackends ∧
      ∀ m, t.loaded m = (!(b && decide (m = n)) && s.loaded m) := by
  cases b with
  | false => exact ⟨s, rfl, rfl, fun m => rfl⟩
  | true =>
    obtain ⟨t, ht, hbackends, hloaded⟩ := unload_ok (h rfl).1 (h rfl).2
    exact ⟨t, ht, hbackends, fun m => by by_cases hm : m = n <;> simp [hloaded, hm]⟩

theorem tryLoad_spec : (tryLoad P s n).apiBackends = s.apiBackends ∧
    (tryLoad P s n).loaded = Function.update s.loaded n (canLoad P n s.apiBackends || s.loaded n) := by
  cases h : canLoad P n s.apiBackends with
  | true =>
    obtain ⟨t, ht, hbackends, hloaded⟩ := load_ok h
    rw [tryLoad, ht]
    exact ⟨hbackends, hloaded⟩
  | false =>
    obtain ⟨x, hx⟩ := load_error h
    rw [tryLoad, hx, Bool.false_or, Function.update_eq_self]
    exact ⟨rfl, rfl⟩

theorem setBackend_backends {c : LLMBackendConfig α N} (u : LLMBackendConfig α N)
    (h : s.apiBackends = before ++ c :: after) : (s.setBackend before.length u).apiBackends = before ++ u :: after := by
  change s.apiBackends.set before.length u = _
  rw [h, List.set_append_right _ _ (le_refl _), Nat.sub_self]
  rfl

theorem find_zipIdx {β : Type} {p : β → Bool} {l : List β} {k i : Nat} {c : β}
    (h : (l.zipIdx k).find? (fun q => p q.1) = some (c, i)) :
    ∃ before after, l = before ++ c :: after ∧ i = k + before.length ∧ p c = true ∧ ∀ b ∈ before, p b = false := by
  induction l generalizing k with
  | nil => cases h
  | cons d l ih =>
    rw [List.zipIdx_cons, List.find?_cons] at h
    cases hd : p d with
    | true =>
      simp only [hd] at h
      cases h
      exact ⟨[], l, rfl, rfl, hd, fun b hb => (nomatch hb)⟩
    | false =>
      simp only [hd] at h
      obtain ⟨before, after, hl, hi, hc, hbefore⟩ := ih h
      refine ⟨d :: before, after, by rw [hl]; rfl, by rw [hi, List.length_cons]; omega, hc, ?_⟩
      exact List.forall_mem_cons.mpr ⟨hd, hbefore⟩

theorem find_eq_some {c : LLMBackendConfig α N} {i : Nat} (h : s.find n = some (c, i)) :
    ∃ before after, s.apiBackends = before ++ c :: after ∧ i = before.length ∧ name c = n ∧ ∀ b ∈ before, name b ≠ n := by
  obtain ⟨before, after, hl, hi, hc, hbefore⟩ := find_zipIdx (p := fun c => decide (name c = n)) h
  exact ⟨before, after, hl, by rw [hi, Nat.zero_add], of_decide_eq_true hc, fun b hb => of_decide_eq_false (hbefore b hb)⟩

theorem same_refl (c : LLMBackendConfig α N) : Same c c := ⟨rfl, rfl, rfl⟩

theorem forall₂_same_refl (l : List (LLMBackendConfig α N)) : List.Forall₂ Same l l :=
  List.forall₂_same.mpr (fun c _ => same_refl c)

theorem unchanged_refl (again : Plugins α) (s : State α N) : Unchanged again s s :=
  ⟨forall₂_same_refl _, fun _ h => h, fun _ h _ => h⟩

theorem refused [DecidableEq α] {l : Operation α φ × Environment α φ} {a : Answer} (hs : Distinct s) (ha : a ≠ .success) :
    AllOrNothing s l (a, s) :=
  ⟨fun _ => unchanged_refl _ s, fun h => absurd h ha, hs⟩

theorem nodup_replace {c u : LLMBackendConfig α N} (h : ((before ++ c :: after).map name).Nodup)
    (hu : name u = name c ∨ ∀ b ∈ before ++ c :: after, name b ≠ name u) :
    ((before ++ u :: after).map name).Nodup := by
  cases hu with
  | inl hu =>
    rw [List.map_append, List.map_cons] at h ⊢
    rwa [hu]
  | inr hu =>
    have hrest : ((before ++ after).map name).Nodup :=
      h.sublist (((List.sublist_cons_self c after).append_left before).map name)
    have hperm : ((before ++ u :: after).map name).Perm (name u :: (before ++ after).map name) :=
      List.perm_middle.map name
    refine hperm.nodup_iff.mpr (List.nodup_cons.mpr ⟨fun hmem => ?_, hrest⟩)
    obtain ⟨b, hb, hname⟩ := List.mem_map.mp hmem
    refine hu b ?_ hname
    rw [List.mem_append, List.mem_cons]
    exact (List.mem_append.mp hb).imp id .inr

section Fields

variable {data : Given (ModelItem α) α φ} {b c : LLMBackendConfig α N}

theorem given_of_validate (h : modelValidate N data = .ok c) : c.given = TimeoutBudgets.migrateModelsFormat data := by
  unfold modelValidate at h
  split at h
  · cases h
  · cases h
    rfl

theorem name_of_validate (h : modelValidate N data = .ok c) : data.name = some (name c) := by
  have hgiven : c.given.name = data.name := by rw [given_of_validate h]; rfl
  have hsome : c.given.name ≠ none := (TimeoutBudgets.accepted_iff.mp c.accepted).1
  obtain ⟨m, hm⟩ := Option.ne_none_iff_exists'.mp hsome
  rw [← hgiven, hm, name, LLMBackendConfig.values]
  change some m = some (c.given.name.getD [])
  rw [hm]
  rfl

theorem values_of_dump (h : modelValidate N b.modelDump = .ok c) : c.values = b.values := by
  have hgiven : c.given = overlaid nothing b.values := modelValidate_eq_ok.mp h
  rw [LLMBackendConfig.values, hgiven]
  rfl

theorem name_of_updated {original request updated : LLMBackendConfig α N}
    (h : updatedBackend original request = .ok updated) : name updated = name request := by
  have hgiven : updated.given = TimeoutBudgets.submitted original request := modelValidate_eq_ok.mp h
  have hname : updated.given.name = request.given.name.or (some original.values.name) := by
    rw [hgiven, TimeoutBudgets.submitted]
    split
    · rfl
    · rfl
  obtain ⟨m, hm⟩ := Option.ne_none_iff_exists'.mp (TimeoutBudgets.accepted_iff.mp request.accepted).1
  change updated.given.name.getD [] = request.given.name.getD []
  rw [hname, hm]
  rfl

end Fields

section Single

variable {e : Environment α φ} {c : LLMBackendConfig α N}

theorem enable_of_canLoad
    (hbefore : ∀ b ∈ before, name b ≠ n) (hc : name c = n) (h : canLoad P n (before ++ c :: after) = true) :
    enable c = true := by
  have hfind : (before ++ c :: after).find? (fun c => decide (name c = n)) = some c := by
    have hnone : before.find? (fun c => decide (name c = n)) = none :=
      List.find?_eq_none.mpr (fun b hb hb' => hbefore b hb (of_decide_eq_true hb'))
    rw [List.find?_append, hnone, Option.none_or, List.find?_cons, decide_eq_true hc]
  rw [canLoad, hfind, Option.any_some, Bool.and_eq_true] at h
  exact h.1

variable {original updated : LLMBackendConfig α N}

theorem rollBack_loaded
    {v : State α N} {x : Bool} (hl : s.apiBackends = before ++ original :: after) (hname : name original = n)
    (hv : v.apiBackends = before ++ updated :: after)
    (hloaded : ∀ m, v.loaded m = (x && decide (m = name updated) ||
      (!(enable original && s.loaded n && decide (m = n)) && s.loaded m))) :
    (rollBack e original updated before.length (s.loaded n) v).apiBackends = s.apiBackends ∧
      ∀ m, (rollBack e original updated before.length (s.loaded n) v).loaded m =
        (enable original && s.loaded n && canLoad e.again n s.apiBackends && decide (m = n) ||
          decide (m ≠ name updated) && (!(enable original && s.loaded n && decide (m = n)) && s.loaded m)) := by
  obtain ⟨t, ht, htbackends, htloaded⟩ := unloadIf_ok (s := v) (n := name updated) (b := v.loaded (name updated))
    (fun hb => ⟨mem_names hv rfl, hb⟩)
  let restored := t.setBackend before.length original
  have hrestored : restored.apiBackends = s.apiBackends :=
    (setBackend_backends original (htbackends.trans hv)).trans hl.symm
  have hkept (m : Text) : restored.loaded m = (decide (m ≠ name updated) &&
      (!(enable original && s.loaded n && decide (m = n)) && s.loaded m)) := by
    have hm : restored.loaded m = t.loaded m := rfl
    rw [hm, htloaded m]
    by_cases hu : m = name updated
    · subst hu
      cases hx : v.loaded (name updated) <;> simp
    · rw [hloaded m, decide_eq_false hu]
      simp [hu]
  have hroll : rollBack e original updated before.length (s.loaded n) v =
      if enable original && s.loaded n && !restored.loaded n then tryLoad e.again restored n else restored := by
    rw [rollBack, ht, hname]
  rw [hroll]
  cases hwas : enable original && s.loaded n with
  | false =>
    rw [hwas] at hkept
    exact ⟨hrestored, hkept⟩
  | true =>
    have hgone : restored.loaded n = false := by
      rw [hkept n, hwas, decide_eq_true rfl]
      exact Bool.and_false _
    obtain ⟨hbackends, htry⟩ := tryLoad_spec (P := e.again) (s := restored) (n := n)
    rw [hgone, Bool.or_false, hrestored] at htry
    rw [hrestored] at hbackends
    rw [hgone, Bool.not_false, Bool.and_true, if_pos rfl]
    refine ⟨hbackends, fun m => ?_⟩
    rw [htry, Bool.true_and]
    by_cases hm : m = n
    · simp [hm]
    · simp [hm, hkept m]

theorem rollBack_unchanged
    {v : State α N} {x : Bool} (hl : s.apiBackends = before ++ original :: after) (hname : name original = n)
    (hbefore : ∀ b ∈ before, name b ≠ n) (hv : v.apiBackends = before ++ updated :: after)
    (hloaded : ∀ m, v.loaded m = (x && decide (m = name updated) ||
      (!(enable original && s.loaded n && decide (m = n)) && s.loaded m)))
    (hother : name updated ≠ n → s.loaded (name updated) = true →
      canLoad e.again (name updated) s.apiBackends = false) :
    Unchanged e.again s (rollBack e original updated before.length (s.loaded n) v) := by
  obtain ⟨hbackends, hrolled⟩ := rollBack_loaded (e := e) hl hname hv hloaded
  refine ⟨by rw [hbackends]; exact forall₂_same_refl _, fun m hm => ?_, fun m hm hcan => ?_⟩
  · rw [hrolled m, Bool.or_eq_true] at hm
    cases hm with
    | inl hm =>
      simp only [Bool.and_eq_true] at hm
      exact of_decide_eq_true hm.2 ▸ hm.1.1.2
    | inr hm =>
      rw [Bool.and_eq_true, Bool.and_eq_true] at hm
      exact hm.2.2
  · rw [hrolled m]
    by_cases hmn : m = n
    · subst hmn
      have henable : enable original = true := enable_of_canLoad hbefore hname (hl ▸ hcan)
      rw [henable, hm, hcan, decide_eq_true rfl]
      rfl
    · have hne : m ≠ name updated := by
        intro hu
        subst hu
        rw [hother hmn hm] at hcan
        cases hcan
      rw [hm, decide_eq_true hne, decide_eq_false hmn, Bool.and_false, Bool.and_false]
      rfl

variable {data : Given (ModelItem α) α φ}

theorem updateBackend_spec
    {original request updated : LLMBackendConfig α N} (hrequest : modelValidate N data = .ok request)
    (hfind : s.find n = some (original, before.length)) (hl : s.apiBackends = before ++ original :: after)
    (hname : name original = n) (hupdated : updatedBackend original request = .ok updated) :
    ∃ v x, v.apiBackends = before ++ updated :: after ∧
      (∀ m, v.loaded m = (x && decide (m = name updated) ||
        (!(enable original && s.loaded n && decide (m = n)) && s.loaded m))) ∧
      updateBackend e n data s = if completes e s before.length updated then (.success, v)
        else (.error 500, rollBack e original updated before.length (s.loaded n) v) := by
  have hun : ∃ t, (if enable original && s.loaded n then unload n s else .ok s) = .ok t ∧
      t.apiBackends = s.apiBackends ∧
      ∀ m, t.loaded m = (!(enable original && s.loaded n && decide (m = n)) && s.loaded m) :=
    unloadIf_ok (fun hb => ⟨mem_names hl hname, ((Bool.and_eq_true _ _).mp hb).2⟩)
  obtain ⟨t, ht, htbackends, htloaded⟩ := hun
  let edited := t.setBackend before.length updated
  have hset : s.apiBackends.set before.length updated = before ++ updated :: after := setBackend_backends updated hl
  have hedited : edited.apiBackends = before ++ updated :: after := setBackend_backends updated (htbackends.trans hl)
  rw [updateBackend, hrequest]
  dsimp only
  rw [hfind]
  dsimp only
  rw [hupdated]
  dsimp only
  rw [ht]
  dsimp only
  cases hcan : !enable updated || canLoad e.plugins (name updated) (before ++ updated :: after) with
  | false =>
    obtain ⟨henable, hnot⟩ := Bool.or_eq_false_iff.mp hcan
    obtain ⟨y, hy⟩ := load_error (P := e.plugins) (s := edited) (n := name updated) (by rw [hedited]; exact hnot)
    rw [Bool.not_eq_false'] at henable
    refine ⟨edited, false, hedited, htloaded, ?_⟩
    rw [if_pos henable, hy, completes, hset, hcan]
    rfl
  | true =>
    obtain ⟨u, hu, hubackends, huloaded⟩ := loadIf_ok (P := e.plugins) (s := edited) (n := name updated)
      (b := enable updated) (fun henable => by
        rw [henable] at hcan
        rw [hedited]
        exact hcan)
    refine ⟨u, enable updated, hubackends.trans hedited, fun m => ?_, ?_⟩
    · rw [huloaded m]
      exact congrArg _ (htloaded m)
    · rw [hu, completes, hset, hcan, Bool.true_and]

theorem canLoad_snoc {l : List (LLMBackendConfig α N)} (h : ∀ b ∈ l, name b ≠ name c) :
    canLoad P (name c) (l ++ [c]) = (enable c && P.creates (backend c)) := by
  have hfind : (l ++ [c]).find? (fun b => decide (name b = name c)) = some c := by
    have hnone : l.find? (fun b => decide (name b = name c)) = none :=
      List.find?_eq_none.mpr (fun b hb hb' => h b hb (of_decide_eq_true hb'))
    rw [List.find?_append, hnone, Option.none_or, List.find?_cons, decide_eq_true rfl]
  rw [canLoad, hfind, Option.any_some]

theorem createBackend_spec {request created : LLMBackendConfig α N}
    (hrequest : modelValidate N data = .ok request) (hnew : ∀ b ∈ s.apiBackends, name b ≠ name request)
    (hcreated : modelValidate N request.modelDump = .ok created) :
    ∃ t, t.apiBackends = s.apiBackends ++ [created] ∧ (∀ m, m ≠ name created → t.loaded m = s.loaded m) ∧
      createBackend e data s =
        (if (!enable created || e.plugins.creates (backend created)) && e.saves then .success else .error 500, t) := by
  have hname : name created = name request := congrArg TimeoutBudgets.BackendFields.name (values_of_dump hcreated)
  have hany : ¬ (s.apiBackends.any (fun b => decide (name b = name request)) = true) := by
    intro hany
    obtain ⟨b, hb, hb'⟩ := List.any_eq_true.mp hany
    exact hnew b hb (of_decide_eq_true hb')
  let appended : State α N := { s with apiBackends := s.apiBackends ++ [created] }
  have hcan : canLoad e.plugins (name created) appended.apiBackends =
      (enable created && e.plugins.creates (backend created)) := canLoad_snoc (fun b hb => hname ▸ hnew b hb)
  rw [createBackend, hrequest]
  dsimp only
  rw [if_neg hany, hcreated]
  dsimp only
  cases henable : enable created with
  | false =>
    rw [if_neg Bool.false_ne_true]
    dsimp only
    refine ⟨appended, rfl, fun m _ => rfl, ?_⟩
    cases e.saves <;> rfl
  | true =>
    rw [henable, Bool.true_and] at hcan
    rw [if_pos rfl]
    cases hcreates : e.plugins.creates (backend created) with
    | false =>
      obtain ⟨x, hx⟩ := load_error (P := e.plugins) (s := appended) (n := name created) (hcan.trans hcreates)
      refine ⟨appended, rfl, fun m _ => rfl, ?_⟩
      rw [hx]
      rfl
    | true =>
      obtain ⟨t, ht, hbackends, hloaded⟩ :=
        load_ok (P := e.plugins) (s := appended) (n := name created) (hcan.trans hcreates)
      refine ⟨t, hbackends, fun m hm => ?_, ?_⟩
      · rw [hloaded, Function.update_of_ne hm]
        rfl
      · rw [ht]
        dsimp only
        cases e.saves <;> rfl

theorem deleteBackend_spec {deleted : LLMBackendConfig α N} {i : Nat}
    (hfind : s.find n = some (deleted, i)) (hl : s.apiBackends = before ++ deleted :: after) (hi : i = before.length)
    (hname : name deleted = n) (hloaded : enable deleted = true → s.loaded n = true) :
    ∃ t, t.apiBackends = before ++ after ∧ (∀ m, m ≠ n → t.loaded m = s.loaded m) ∧
      deleteBackend e n s = (if e.saves then .success else .error 500, t) := by
  obtain ⟨t, ht, hbackends, hkept⟩ := unloadIf_ok (fun henable => ⟨mem_names hl hname, hloaded henable⟩)
  have herase : t.apiBackends.eraseIdx i = before ++ after := by
    rw [hbackends, hl, hi, List.eraseIdx_append_of_length_le (le_refl _), Nat.sub_self]
    rfl
  refine ⟨{ t with apiBackends := t.apiBackends.eraseIdx i }, herase, fun m hm => ?_, ?_⟩
  · change t.loaded m = _
    rw [hkept m, decide_eq_false hm, Bool.and_false]
    rfl
  · rw [deleteBackend, hfind]
    dsimp only
    rw [ht]
    dsimp only
    cases e.saves <;> rfl

variable [DecidableEq α]

theorem createBackend_keeps (hs : Distinct s) (h : Meets s (.create data, e)) :
    AllOrNothing s (.create data, e) (createBackend e data s) := by
  cases hrequest : modelValidate N data with
  | error x =>
    rw [createBackend, hrequest]
    exact refused hs (by decide)
  | ok request =>
    by_cases hnew : ∀ b ∈ s.apiBackends, name b ≠ name request
    · cases hcreated : modelValidate N request.modelDump with
      | error x =>
        rw [createBackend, hrequest]
        dsimp only
        rw [hcreated]
        split
        · exact refused hs (by decide)
        · exact refused hs (by decide)
      | ok created =>
        obtain ⟨hplugins, hsaves⟩ := h request created hrequest hnew hcreated
        have hvalues := values_of_dump hcreated
        have hname : name created = name request := congrArg TimeoutBudgets.BackendFields.name hvalues
        obtain ⟨t, hbackends, hloaded, ht⟩ := createBackend_spec (e := e) hrequest hnew hcreated
        rw [ht, hsaves, Bool.and_true, if_pos (by cases henable : enable created <;> simp [hplugins, henable])]
        refine ⟨fun hne => absurd rfl hne, fun _ => ⟨⟨request, created, hrequest, hvalues, hbackends⟩, fun m hm => ?_⟩, ?_⟩
        · refine hloaded m (fun hm' => hm ?_)
          exact (name_of_validate hrequest).trans (by rw [hm', hname])
        · change (t.apiBackends.map name).Nodup
          rw [hbackends, List.map_append, List.nodup_append]
          refine ⟨hs, List.nodup_singleton _, fun x hx y hy hxy => ?_⟩
          obtain ⟨b, hb, hbx⟩ := List.mem_map.mp hx
          exact hnew b hb (hbx.trans (hxy.trans ((List.mem_singleton.mp hy).trans hname)))
    · rw [createBackend, hrequest]
      dsimp only
      rw [if_pos (by simpa using hnew)]
      exact refused hs (by decide)

theorem createBackend_meets
    (h : AllOrNothing s (.create data, e) (createBackend e data s)) : Meets s (.create data, e) := by
  intro request created hrequest hnew hcreated
  obtain ⟨t, hbackends, -, ht⟩ := createBackend_spec (e := e) hrequest hnew hcreated
  cases hok : (!enable created || e.plugins.creates (backend created)) && e.saves with
  | true =>
    rw [Bool.and_eq_true, Bool.or_eq_true, Bool.not_eq_true'] at hok
    exact ⟨fun henable => hok.1.resolve_left (fun hnot => Bool.noConfusion (henable.symm.trans hnot)), hok.2⟩
  | false =>
    rw [ht, hok] at h
    have hlength := (h.failed nofun).backends.length_eq
    rw [hbackends, List.length_append] at hlength
    exact absurd hlength (Nat.ne_of_lt (Nat.lt_succ_self _))

theorem deleteBackend_keeps (hs : Distinct s) (h : Meets s (.delete n, e)) :
    AllOrNothing s (.delete n, e) (deleteBackend e n s) := by
  cases hfind : s.find n with
  | none =>
    rw [deleteBackend, hfind]
    exact refused hs (by decide)
  | some found =>
    obtain ⟨deleted, i⟩ := found
    obtain ⟨before, after, hl, hi, hname, -⟩ := find_eq_some hfind
    by_cases hloaded : enable deleted = true → s.loaded n = true
    · obtain ⟨t, hbackends, hkept, ht⟩ := deleteBackend_spec (e := e) hfind hl hi hname hloaded
      rw [ht, if_pos (h deleted i hfind hloaded)]
      refine ⟨fun hne => absurd rfl hne, fun _ => ⟨⟨before, deleted, after, hl, hname, hbackends⟩, hkept⟩, ?_⟩
      change (t.apiBackends.map name).Nodup
      rw [BackendEdits.Distinct, hl] at hs
      rw [hbackends]
      exact hs.sublist (((List.sublist_cons_self deleted after).append_left before).map name)
    · obtain ⟨henable, hnot⟩ := Classical.not_imp.mp hloaded
      obtain ⟨x, hx⟩ := unload_error (Bool.eq_false_iff.mpr hnot)
      rw [deleteBackend, hfind]
      dsimp only
      rw [if_pos henable, hx]
      exact refused hs (by decide)

theorem deleteBackend_meets (h : AllOrNothing s (.delete n, e) (deleteBackend e n s)) : Meets s (.delete n, e) := by
  intro deleted i hfind hloaded
  obtain ⟨before, after, hl, hi, hname, -⟩ := find_eq_some hfind
  obtain ⟨t, hbackends, -, ht⟩ := deleteBackend_spec (e := e) hfind hl hi hname hloaded
  cases hsaves : e.saves with
  | true => rfl
  | false =>
    rw [ht, hsaves] at h
    have hlength := (h.failed nofun).backends.length_eq
    rw [hbackends, hl, List.length_append, List.length_append, List.length_cons] at hlength
    omega

theorem updateBackend_keeps (hs : Distinct s) (h : Meets s (.update n data, e)) :
    AllOrNothing s (.update n data, e) (updateBackend e n data s) := by
  cases hrequest : modelValidate N data with
  | error x =>
    rw [updateBackend, hrequest]
    exact refused hs (by decide)
  | ok request =>
    cases hfind : s.find n with
    | none =>
      rw [updateBackend, hrequest]
      dsimp only
      rw [hfind]
      exact refused hs (by decide)
    | some found =>
      obtain ⟨original, i⟩ := found
      obtain ⟨before, after, hl, rfl, hname, hbefore⟩ := find_eq_some hfind
      cases hupdated : updatedBackend original request with
      | error x =>
        rw [updateBackend, hrequest]
        dsimp only
        rw [hfind]
        dsimp only
        rw [hupdated]
        exact refused hs (by decide)
      | ok updated =>
        have hmeets := h request original before.length updated hrequest hfind hupdated
        obtain ⟨v, x, hv, hloaded, hresult⟩ := updateBackend_spec (e := e) hrequest hfind hl hname hupdated
        rw [hresult]
        cases hcompletes : completes e s before.length updated with
        | false =>
          rw [hcompletes, if_neg Bool.false_ne_true] at hmeets
          have hunchanged := rollBack_unchanged (e := e) hl hname hbefore hv hloaded hmeets
          obtain ⟨hbackends, -⟩ := rollBack_loaded (e := e) hl hname hv hloaded
          refine ⟨fun _ => hunchanged, nofun, ?_⟩
          change ((rollBack e original updated before.length (s.loaded n) v).apiBackends.map name).Nodup
          rw [hbackends]
          exact hs
        | true =>
          rw [hcompletes, if_pos rfl] at hmeets
          have hfree : name updated = name original ∨ ∀ b ∈ before ++ original :: after, name b ≠ name updated := by
            by_cases hne : name updated = n
            · exact .inl (hne.trans hname.symm)
            · exact .inr (hl ▸ hmeets hne)
          refine ⟨fun hne => absurd rfl hne, fun _ => ⟨⟨before, original, after, request, updated, hl, hname, hrequest,
            hupdated, hv⟩, fun m hm => ?_⟩, ?_⟩
          · obtain ⟨hmn, hmdata⟩ := not_or.mp hm
            have hmu : m ≠ name updated := by
              intro hmu
              exact hmdata ((name_of_validate hrequest).trans (by rw [hmu, name_of_updated hupdated]))
            change v.loaded m = s.loaded m
            rw [hloaded m, decide_eq_false hmu, decide_eq_false hmn, Bool.and_false, Bool.and_false]
            rfl
          · change (v.apiBackends.map name).Nodup
            rw [hv]
            rw [BackendEdits.Distinct, hl] at hs
            exact nodup_replace hs hfree

theorem updateBackend_meets
    (h : AllOrNothing s (.update n data, e) (updateBackend e n data s)) : Meets s (.update n data, e) := by
  intro request original i updated hrequest hfind hupdated hne
  obtain ⟨before, after, hl, rfl, hname, -⟩ := find_eq_some hfind
  obtain ⟨v, x, hv, hloaded, hresult⟩ := updateBackend_spec (e := e) hrequest hfind hl hname hupdated
  rw [hresult] at h
  cases hcompletes : completes e s before.length updated with
  | true =>
    rw [hcompletes] at h
    have hdistinct : ((before ++ updated :: after).map name).Nodup := hv ▸ h.distinct
    rw [List.map_append, List.map_cons] at hdistinct
    obtain ⟨-, hafter, hbefore⟩ := List.nodup_append.mp hdistinct
    rw [if_pos rfl, hl]
    intro c hc
    cases List.mem_append.mp hc with
    | inl hc => exact hbefore _ (List.mem_map_of_mem hc) _ List.mem_cons_self
    | inr hc =>
      cases List.mem_cons.mp hc with
      | inl hc => exact hc ▸ fun hcn => hne (hcn.symm.trans hname)
      | inr hc => exact fun hcn => (List.nodup_cons.mp hafter).1 (hcn ▸ List.mem_map_of_mem hc)
  | false =>
    rw [hcompletes, if_neg Bool.false_ne_true] at h
    rw [if_neg Bool.false_ne_true]
    intro hother
    cases hcan : canLoad e.again (name updated) s.apiBackends with
    | false => rfl
    | true =>
      have hkept := (h.failed nofun).noLess (name updated) hother hcan
      change (rollBack e original updated before.length (s.loaded n) v).loaded (name updated) = true at hkept
      rw [(rollBack_loaded (e := e) hl hname hv hloaded).2, decide_eq_false hne,
        decide_eq_false (not_not_intro rfl), Bool.and_false] at hkept
      cases hkept

end Single

variable {e : Environment α φ} {c : LLMBackendConfig α N}

theorem canLoad_congr {l l' : List (LLMBackendConfig α N)} (h : l.map backend = l'.map backend) :
    canLoad P n l = canLoad P n l' := by
  have hmap (l : List (LLMBackendConfig α N)) :
      canLoad P n l = ((l.map backend).find? (fun b => decide (b.name = n))).any (fun b => b.enable && P.creates b) := by
    rw [List.find?_map, Option.any_map]
    rfl
  rw [hmap, hmap, h]

theorem same_setModels : Same c (setModels (models c) c) := ⟨rfl, rfl, rfl⟩

theorem forall₂_middle {c' : LLMBackendConfig α N} (h : Same c c') :
    List.Forall₂ Same (before ++ c :: after) (before ++ c' :: after) :=
  List.rel_append (forall₂_same_refl before) (.cons h (forall₂_same_refl after))

theorem reload_spec (hn : n ∈ s.apiBackends.map name) (h : s.loaded n = true) :
    ∃ t, reload P n s = (t, canLoad P n s.apiBackends) ∧ t.apiBackends = s.apiBackends ∧
      t.loaded = Function.update s.loaded n (canLoad P n s.apiBackends) := by
  obtain ⟨t, ht, hbackends, hloaded⟩ := unload_ok hn h
  rw [reload, ht]
  dsimp only
  cases hcan : canLoad P n s.apiBackends with
  | false =>
    obtain ⟨x, hx⟩ := load_error (P := P) (s := t) (n := n) (by rw [hbackends]; exact hcan)
    exact ⟨t, by rw [hx], hbackends, hloaded⟩
  | true =>
    obtain ⟨u, hu, hubackends, huloaded⟩ := load_ok (P := P) (s := t) (n := n) (by rw [hbackends]; exact hcan)
    exact ⟨u, by rw [hu], hubackends.trans hbackends, by rw [huloaded, hloaded, Function.update_idem]⟩

theorem unloadAndLoad_spec (h : s.loaded n = false) : (unloadAndLoad e n s).apiBackends = s.apiBackends ∧
    (unloadAndLoad e n s).loaded = Function.update s.loaded n (canLoad e.again n s.apiBackends) := by
  obtain ⟨hbackends, hloaded⟩ := tryLoad_spec (P := e.again) (s := s) (n := n)
  rw [h, Bool.or_false] at hloaded
  rw [unloadAndLoad, h]
  exact ⟨hbackends, hloaded⟩

variable [DecidableEq α]

theorem detectBackend_keeps {found : Option (Detection α)} (hs : Distinct s) :
    AllOrNothing s (.detect n found, e) (detectBackend e n found s) := by
  unfold detectBackend
  cases found with
  | none => exact refused hs (by decide)
  | some d =>
    cases hfind : s.find n with
    | none => exact refused hs (by decide)
    | some found =>
      obtain ⟨c, i⟩ := found
      cases hget : s.llm.backends.get n with
      | none => exact refused hs (by decide)
      | some adapter =>
        obtain ⟨before, after, hl, hi, hname, hbefore⟩ := find_eq_some hfind
        subst hi
        have hwas : s.loaded n = true := by rw [State.loaded, hget]; rfl
        have hmem {t : State α N} {c₁ : LLMBackendConfig α N} (ht : t.apiBackends = before ++ c₁ :: after)
            (hc : name c₁ = name c) : n ∈ t.apiBackends.map name := mem_names ht (hc.trans hname)
        -- However the old models are put back, the backend is loaded if it can be.
        have hrestored {u : State α N} (hu : u.apiBackends = before ++ setModels (models c) c :: after)
            (hloaded : u.loaded = Function.update s.loaded n (canLoad e.again n s.apiBackends)) :
            AllOrNothing s (.detect n (some d), e) (.notUpdated, u) := by
          refine ⟨fun _ => ⟨?_, fun m hm => ?_, fun m hm hcan => ?_⟩, nofun, ?_⟩
          · change List.Forall₂ Same s.apiBackends u.apiBackends
            rw [hu, hl]
            exact forall₂_middle same_setModels
          · by_cases hmn : m = n
            · exact hmn ▸ hwas
            · rwa [hloaded, Function.update_of_ne hmn] at hm
          · change u.loaded m = true
            rw [hloaded]
            by_cases hmn : m = n
            · subst hmn
              rwa [Function.update_self]
            · rwa [Function.update_of_ne hmn]
          · change (u.apiBackends.map name).Nodup
            rw [BackendEdits.Distinct, hl] at hs
            rw [hu]
            exact nodup_replace hs (.inl rfl)
        have hcanSame (P : Plugins α) {u : State α N} (hu : u.apiBackends = before ++ setModels (models c) c :: after) :
            canLoad P n u.apiBackends = canLoad P n s.apiBackends := by
          refine canLoad_congr ?_
          rw [hu, hl, List.map_append, List.map_append, List.map_cons, List.map_cons]
          rfl
        dsimp only
        split
        · exact refused hs (by decide)
        split
        · exact refused hs (by decide)
        split
        · next hequal =>
          exact ⟨fun h => absurd rfl h, fun _ => ⟨⟨before, c, after, d, hl, hname, rfl, .inl ⟨rfl, hequal⟩⟩, fun m _ => rfl⟩,
            hs⟩
        · have hedited := setBackend_backends (setModels d.newModels c) hl
          obtain ⟨t, ht, htbackends, htloaded⟩ := reload_spec (P := e.plugins) (n := n) (hmem hedited rfl) hwas
          change t.loaded = Function.update s.loaded n _ at htloaded
          rw [hedited] at htbackends
          have hback := setBackend_backends (setModels (models c) c) htbackends
          rw [ht]
          cases hcan : canLoad e.plugins n (s.setBackend before.length (setModels d.newModels c)).apiBackends with
          | false =>
            rw [hcan] at htloaded
            obtain ⟨hubackends, huloaded⟩ := unloadAndLoad_spec (e := e) (n := n)
              (s := t.setBackend before.length (setModels (models c) c))
              ((congrFun htloaded n).trans (Function.update_self _ _ _))
            refine hrestored (hubackends.trans hback) (huloaded.trans ?_)
            change Function.update t.loaded n _ = _
            rw [hcanSame e.again hback, htloaded, Function.update_idem]
          | true =>
            rw [hcan, ← hwas, Function.update_eq_self] at htloaded
            dsimp only
            cases hsaves : e.saves with
            | true =>
              rw [if_pos rfl]
              refine ⟨fun h => absurd rfl h, fun _ => ⟨⟨before, c, after, d, hl, hname, rfl, .inr htbackends⟩,
                fun m _ => congrFun htloaded m⟩, ?_⟩
              change (t.apiBackends.map name).Nodup
              rw [BackendEdits.Distinct, hl] at hs
              rw [htbackends]
              exact nodup_replace hs (.inl rfl)
            | false =>
              rw [if_neg Bool.false_ne_true]
              obtain ⟨u, hu, hubackends, huloaded⟩ := reload_spec (P := e.again) (n := n)
                (s := t.setBackend before.length (setModels (models c) c)) (hmem hback rfl)
                ((congrFun htloaded n).trans hwas)
              change u.loaded = Function.update t.loaded n _ at huloaded
              rw [hu]
              rw [hcanSame e.again hback] at huloaded ⊢
              rw [htloaded] at huloaded
              cases hagain : canLoad e.again n s.apiBackends with
              | true => exact hrestored (hubackends.trans hback) huloaded
              | false =>
                dsimp only
                obtain ⟨hvbackends, hvloaded⟩ := unloadAndLoad_spec (e := e) (n := n) (s := u)
                  ((congrFun huloaded n).trans ((Function.update_self _ _ _).trans hagain))
                refine hrestored (hvbackends.trans (hubackends.trans hback)) ?_
                rw [hvloaded, hcanSame e.again (hubackends.trans hback), huloaded, Function.update_idem]

end Kirara.BackendSteps
