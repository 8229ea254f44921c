import Kirara.LoadedBackends
import Kirara.StableSorts
import Mathlib.Data.List.Lex
import Mathlib.Data.List.Sort

namespace Kirara.FailoverQueues

open Kirara.Channels Kirara.ConfigValues Kirara.LoadedBackends Kirara.StableSorts Kirara.Rankings

inductive Answer where
  | notAnObject
  | unexpectedFields (fields : List Text)
  | noModel
  | noProviders
  | notStrings
  | repeated
  | noQueue (model : Text)
  | otherQueue (missing unknown : List Text)
  | failed
  | done
deriving DecidableEq

def Answer.response : Answer → Nat × String
  | .notAnObject => (400, "request body must be a JSON object")
  | .unexpectedFields _ => (400, "unexpected fields: ")
  | .noModel => (400, "model must be a non-empty string")
  | .noProviders => (400, "providers must be a non-empty list")
  | .notStrings => (400, "providers must be non-empty strings")
  | .repeated => (400, "providers must not repeat a backend")
  | .noQueue model => (404, "model '" ++ String.ofList model ++ "' has no failover queue")
  | .otherQueue _ _ => (400, "providers must list exactly this model's queue")
  | .failed => (500, "Failed to reorder the failover queue")
  | .done => (200, "")

section Requests

variable {α : Type}

def nonEmptyString : Value α → Option Text
  | .text t => if strip t = [] then none else some (strip t)
  | _ => none

def readRequest : Value α → Except Answer (Text × List Text)
  | .dict payload =>
    let unexpected := sortBy id ((payload.map Prod.fst).filter (fun k => k ∉ ["model".toList, "providers".toList]))
    if unexpected ≠ [] then .error (.unexpectedFields unexpected)
    else
      match (payload.lookup "model".toList).bind nonEmptyString with
      | none => .error .noModel
      | some model =>
        match payload.lookup "providers".toList with
        | some (.list (item :: items)) =>
          match (item :: items).mapM nonEmptyString with
          | none => .error .notStrings
          | some providers => if providers.Nodup then .ok (model, providers) else .error .repeated
        | _ => .error .noProviders
  | _ => .error .notAnObject

end Requests

def splitTies : Option Int → List Int → List Int
  | _, [] => []
  | last, value :: pool =>
    let assigned := match last with
      | some a => if value ≤ a then a + 1 else value
      | none => value
    assigned :: splitTies (some assigned) pool

theorem splitTies_eq_climbFrom (last : Option Int) (pool : List Int) : splitTies last pool = climbFrom last pool := by
  induction pool generalizing last with
  | nil => cases last <;> rfl
  | cons value pool ih =>
    cases last with
    | none => rw [splitTies, climbFrom, ih]
    | some a =>
      have hmax : (if value ≤ a then a + 1 else value) = max value (a + 1) := by
        split <;> omega
      simp only [splitTies, climbFrom, ih, hmax]

section Reordering

variable {α : Type}

def queue (s : Manager α) (model : Text) : List Text := (getProviderCandidates s model []).map Adapter.backendName

/-- `by_name`: of several backends with one name the last. -/
def byName (backends : List (Backend α)) (n : Text) : Option (Backend α) := backends.reverse.find? (·.name = n)

/-- `by_name[name].priority = priority`. -/
def setPriority (n : Text) (priority : Int) : List (Backend α) → List (Backend α)
  | [] => []
  | b :: bs =>
    if b.name = n ∧ ∀ c ∈ bs, c.name ≠ n then { b with priority := priority } :: bs
    else b :: setPriority n priority bs

def assign (numbers : List (Text × Int)) (s : Manager α) : Manager α :=
  { s with apiBackends := numbers.foldl (fun bs p => setPriority p.1 p.2 bs) s.apiBackends }

def reorderFailoverQueue (saves : Bool) (payload : Value α) (s : Manager α) : Answer × Manager α :=
  match readRequest payload with
  | .error refusal => (refusal, s)
  | .ok (model, providers) =>
    let current := queue s model
    if current = [] then (.noQueue model, s)
    else if (∃ n ∈ providers, n ∉ current) ∨ ∃ n ∈ current, n ∉ providers then
      (.otherQueue (sortBy id (current.filter (fun n => n ∉ providers)).dedup)
        (sortBy id (providers.filter (fun n => n ∉ current))), s)
    else
      match providers.mapM (fun n => (byName s.apiBackends n).map Backend.priority) with
      | none => (.failed, s)
      | some previous =>
        let assigned := splitTies none (previous.insertionSort (· ≤ ·))
        let t := assign (providers.zip assigned) s
        if saves then (.done, t) else (.failed, assign (providers.zip previous) t)

def priority (s : Manager α) (n : Text) : Option Int := (s.backendConfig n).map Backend.priority

def rank (s : Manager α) (n : Text) : Int := (priority s n).getD 0

def takesPart (s : Manager α) (n : Text) : Bool :=
  n ≠ [] && (s.backendConfig n).any (fun b => b.enable && b.participateInFailover)

def seats (s : Manager α) (m : Text) : List (Adapter α × Nat) :=
  (s.serving m).zipIdx.filter (fun x => takesPart s x.1.backendName)

def seated (s : Manager α) (m : Text) : List (Adapter α × Nat) :=
  sortBy (seatKey (fun a => rank s a.backendName)) (seats s m)

structure Reorders (s t : Manager α) (model : Text) (requested : List Text) : Prop where
  order : queue t model = requested
  others : List.Forall₂ (fun b c => c = { b with priority := c.priority } ∧ (b.name ∉ requested → c = b))
    s.apiBackends t.apiBackends
  nonneg : (∀ b ∈ s.apiBackends, 0 ≤ b.priority) → ∀ b ∈ t.apiBackends, 0 ≤ b.priority
  reused : (requested.map (priority s)).Nodup → (requested.map (priority t)).Perm (requested.map (priority s))
  untouched : requested = queue s model → ∀ m, m ≠ model → getProviderCandidates t m [] = getProviderCandidates s m []

/-- Between each earlier backend of the queue and the limit there is room for those between. -/
def Room (rank : Text → Int) (queue : List Text) (n : Text) (limit : Int) : Prop :=
  ∀ z ∈ queue, queue.idxOf z ≤ queue.idxOf n → rank z + (queue.idxOf n - queue.idxOf z : Int) < limit

/-- The queues have what they share in one order, with room for the rest of the other. -/
def Undisturbed (s : Manager α) (model : Text) : Prop :=
  ∀ m, m ≠ model → (seated s m).Pairwise (fun x y => x.1.backendName ∈ queue s model →
    if y.1.backendName ∈ queue s model then
      (queue s model).idxOf x.1.backendName ≤ (queue s model).idxOf y.1.backendName
    else Room (rank s) (queue s model) x.1.backendName (rank s y.1.backendName + if x.2 < y.2 then 1 else 0))

end Reordering

section Candidates

variable {α : Type} {s t : Manager α} {m : Text}

theorem takesPart_config {n : Text} (h : takesPart s n) : ∃ b, s.backendConfig n = some b ∧ priority s n = some (rank s n) := by
  simp only [takesPart, Bool.and_eq_true, Option.any_eq_true] at h
  obtain ⟨_, b, hb, _⟩ := h
  exact ⟨b, hb, by simp [rank, priority, hb]⟩

theorem candidates_eq (s : Manager α) (m : Text) : getProviderCandidates s m [] = (seated s m).map Prod.fst := by
  have hordered : ∀ x ∈ seats s m, ∀ y ∈ seats s m,
      decide (seatKey (fun a => rank s a.backendName) x ≤ seatKey (fun a => rank s a.backendName) y) =
        before (rank s x.1.backendName, x.2, x.1) (rank s y.1.backendName, y.2, y.1) := by
    intro x _ y _
    simp [seatKey_le, before]
  have hsorted : (((seats s m).map (fun x => (rank s x.1.backendName, x.2, x.1))).mergeSort before).map (fun x => x.2.2) =
      (seated s m).map Prod.fst := by
    rw [← List.map_mergeSort hordered, List.map_map]
    rfl
  unfold getProviderCandidates
  refine (congrArg (fun l : List (Int × Nat × Adapter α) => (l.mergeSort before).map (fun x => x.2.2)) ?_).trans hsorted
  rw [seats, ← @List.filterMap_eq_map _ _ (fun x : Adapter α × Nat => (rank s x.1.backendName, x.2, x.1)),
    List.filterMap_filter]
  apply List.filterMap_congr
  intro x _
  simp only [List.map_nil, List.filter_nil, ne_eq, not_true_eq_false, false_and, if_false]
  unfold takesPart rank priority
  by_cases hname : x.1.backendName = []
  · simp [hname]
  cases hconfig : s.backendConfig x.1.backendName with
  | none => simp [hname]
  | some backend =>
    cases henable : backend.enable <;> cases hpart : backend.participateInFailover <;>
      simp [hname, hconfig, henable, hpart]

theorem positions_seats (s : Manager α) (m : Text) : (seats s m).Pairwise (fun x y => x.2 ≠ y.2) := by
  apply List.Pairwise.filter
  have hnodup : ((s.serving m).zipIdx.map Prod.snd).Nodup := by
    rw [List.zipIdx_map_snd]
    exact List.nodup_range'
  exact List.pairwise_map.mp hnodup

theorem mem_seated {x : Adapter α × Nat} (h : x ∈ seated s m) : takesPart s x.1.backendName := by
  have hmem := sortBy_perm.mem_iff.mp h
  exact (List.mem_filter.mp hmem).2

theorem seated_pairwise (s : Manager α) (m : Text) : (seated s m).Pairwise (fun x y =>
    seatKey (fun a => rank s a.backendName) x < seatKey (fun a => rank s a.backendName) y) :=
  (sortBy_eq_sortBy_iff ((positions_seats s m).imp (fun h => seatKey_ne h))).mp rfl

theorem queue_eq (s : Manager α) (m : Text) : queue s m = (seated s m).map (fun x => x.1.backendName) := by
  rw [queue, candidates_eq, List.map_map]
  rfl

theorem takesPart_of_mem_queue {n : Text} (h : n ∈ queue s m) : takesPart s n := by
  rw [queue_eq] at h
  obtain ⟨x, hx, rfl⟩ := List.mem_map.mp h
  exact mem_seated hx

theorem queue_pairwise (s : Manager α) (m : Text) : (queue s m).Pairwise (fun n k => rank s n ≤ rank s k) := by
  rw [queue_eq, List.pairwise_map]
  refine (seated_pairwise s m).imp (fun h => ?_)
  cases seatKey_lt.mp h with
  | inl hlt => exact hlt.le
  | inr heq => exact heq.1.le

theorem eq_of_map_fst {β : Type} {l l' : List (β × Nat)} (hperm : l.Perm l') (h : l.map Prod.fst = l'.map Prod.fst)
    (hl : l.Pairwise (fun x y => x.1 = y.1 → x.2 < y.2)) (hl' : l'.Pairwise (fun x y => x.1 = y.1 → x.2 < y.2)) : l = l' := by
  induction l generalizing l' with
  | nil => exact hperm.nil_eq
  | cons x xs ih =>
    cases l' with
    | nil => cases h
    | cons y ys =>
      obtain ⟨hfirst, hrest⟩ := List.cons.inj h
      obtain ⟨hx, hxs⟩ := List.pairwise_cons.mp hl
      obtain ⟨hy, hys⟩ := List.pairwise_cons.mp hl'
      have hle : x.2 ≤ y.2 := by
        cases List.mem_cons.mp (hperm.mem_iff.mpr List.mem_cons_self) with
        | inl he => rw [he]
        | inr hm => exact (hx y hm hfirst).le
      have hge : y.2 ≤ x.2 := by
        cases List.mem_cons.mp (hperm.mem_iff.mp List.mem_cons_self) with
        | inl he => rw [he]
        | inr hm => exact (hy x hm hfirst.symm).le
      have hsame : x = y := Prod.ext hfirst (Nat.le_antisymm hle hge)
      subst hsame
      rw [ih ((List.perm_cons x).mp hperm) hrest hxs hys]

end Candidates

section Assigning

variable {α : Type} {s : Manager α}

def renumber (numbers : Text → Option Int) (b : Backend α) : Backend α :=
  match numbers b.name with
  | some p => { b with priority := p }
  | none => b

def numbered (numbers : List (Text × Int)) (s : Manager α) : Manager α :=
  { s with apiBackends := s.apiBackends.map (renumber (fun n => numbers.lookup n)) }

@[simp] theorem renumber_name (numbers : Text → Option Int) (b : Backend α) : (renumber numbers b).name = b.name := by
  unfold renumber
  split <;> rfl

theorem renumber_priority (numbers : Text → Option Int) (b : Backend α) :
    renumber numbers b = { b with priority := (renumber numbers b).priority } := by
  unfold renumber
  split <;> rfl

theorem renumber_of_none {numbers : Text → Option Int} {b : Backend α} (h : numbers b.name = none) :
    renumber numbers b = b := by
  simp [renumber, h]

def Single (bs : List (Backend α)) (n : Text) : Prop := (bs.filter (fun b => b.name = n)).length ≤ 1

variable {bs : List (Backend α)}

theorem single_of_nodup (h : (bs.map Backend.name).Nodup) (n : Text) : Single bs n := by
  have hnames : (bs.filter (fun b => b.name = n)).map Backend.name =
      List.replicate (bs.filter (fun b => b.name = n)).length n := by
    rw [List.eq_replicate_iff, List.length_map]
    refine ⟨rfl, fun k hk => ?_⟩
    obtain ⟨b, hb, rfl⟩ := List.mem_map.mp hk
    simpa using (List.mem_filter.mp hb).2
  have hnodup := h.sublist ((List.filter_sublist (p := fun b : Backend α => b.name = n)).map Backend.name)
  rwa [hnames, List.nodup_replicate] at hnodup

theorem single_map {n : Text} (numbers : Text → Option Int) (h : Single bs n) :
    Single (bs.map (renumber numbers)) n := by
  unfold Single at h ⊢
  rw [List.filter_map, List.length_map]
  simpa [Function.comp_def] using h

theorem setPriority_eq {n : Text} (h : Single bs n) (p : Int) :
    setPriority n p bs = bs.map (renumber (fun k => if k = n then some p else none)) := by
  unfold Single at h
  induction bs with
  | nil => rfl
  | cons b bs ih =>
    rw [setPriority, List.map_cons]
    by_cases hb : b.name = n
    · rw [List.filter_cons_of_pos (by simpa using hb), List.length_cons, Nat.succ_le_succ_iff] at h
      have hrest : ∀ c ∈ bs, c.name ≠ n := by
        have hnil := List.eq_nil_of_length_eq_zero (Nat.le_zero.mp h)
        simpa using List.filter_eq_nil_iff.mp hnil
      have hsame : bs.map (renumber (fun k => if k = n then some p else none)) = bs := by
        conv_rhs => rw [← List.map_id bs]
        exact List.map_congr_left (fun c hc => renumber_of_none (by simp [hrest c hc]))
      rw [if_pos ⟨hb, hrest⟩, hsame, renumber, if_pos hb]
    · rw [List.filter_cons_of_neg (by simpa using hb)] at h
      rw [if_neg (fun hand => hb hand.1), ih h, renumber_of_none (if_neg hb)]

theorem assign_eq {numbers : List (Text × Int)} (hkeys : (numbers.map Prod.fst).Nodup)
    (h : ∀ n ∈ numbers.map Prod.fst, Single s.apiBackends n) : assign numbers s = numbered numbers s := by
  have hfold : ∀ bs : List (Backend α), (∀ n ∈ numbers.map Prod.fst, Single bs n) →
      numbers.foldl (fun bs p => setPriority p.1 p.2 bs) bs = bs.map (renumber (fun n => numbers.lookup n)) := by
    clear h
    induction numbers with
    | nil =>
      intro bs _
      conv_lhs => rw [List.foldl_nil, ← List.map_id bs]
      exact List.map_congr_left (fun c _ => (renumber_of_none rfl).symm)
    | cons p numbers ih =>
      obtain ⟨k, v⟩ := p
      intro bs h
      obtain ⟨hfirst, hrest⟩ := List.forall_mem_cons.mp h
      obtain ⟨hfresh, hnodup⟩ := List.nodup_cons.mp hkeys
      rw [List.foldl_cons, setPriority_eq hfirst, ih hnodup _ (fun n hn => single_map _ (hrest n hn)), List.map_map]
      apply List.map_congr_left
      intro b _
      have hnone : numbers.lookup k = none := by
        rw [List.lookup_eq_none_iff]
        intro e he
        simpa using fun heq : k = e.1 => hfresh (List.mem_map.mpr ⟨e, he, heq.symm⟩)
      simp only [Function.comp_apply, renumber, List.lookup_cons]
      by_cases hb : b.name = k
      · simp [hb, hnone]
      · have hother : (b.name == k) = false := by simpa using hb
        simp [hb, hother]
  unfold assign numbered
  rw [hfold s.apiBackends h]

variable {numbers : List (Text × Int)} {n : Text}

theorem backendConfig_numbered (numbers : List (Text × Int)) (n : Text) :
    (numbered numbers s).backendConfig n = (s.backendConfig n).map (renumber (fun n => numbers.lookup n)) := by
  unfold Manager.backendConfig numbered
  rw [List.find?_map]
  simp only [Function.comp_def, renumber_name]

theorem priority_numbered (numbers : List (Text × Int)) (n : Text) : priority (numbered numbers s) n =
    (priority s n).map (fun p => (numbers.lookup n).getD p) := by
  unfold priority
  rw [backendConfig_numbered]
  cases h : s.backendConfig n with
  | none => rfl
  | some b =>
    have hname : b.name = n := by simpa using List.find?_some h
    simp only [Option.map_some, renumber, hname]
    cases numbers.lookup n <;> rfl

theorem takesPart_numbered (numbers : List (Text × Int)) (n : Text) :
    takesPart (numbered numbers s) n = takesPart s n := by
  unfold takesPart
  rw [backendConfig_numbered]
  cases s.backendConfig n with
  | none => rfl
  | some b =>
    simp only [Option.map_some, Option.any_some]
    rw [renumber_priority]

theorem seats_numbered (numbers : List (Text × Int)) (m : Text) : seats (numbered numbers s) m = seats s m := by
  unfold seats
  simp only [takesPart_numbered]
  rfl

theorem lookup_zip {ks : List Text} {vs : List Int} (hks : ks.Nodup) (hlen : ks.length = vs.length) {i : Nat}
    (h : ks[i]? = some n) : (ks.zip vs).lookup n = vs[i]? := by
  induction ks generalizing vs i with
  | nil => cases h
  | cons k ks ih =>
    cases vs with
    | nil => cases hlen
    | cons v vs =>
      obtain ⟨hfresh, hnodup⟩ := List.nodup_cons.mp hks
      rw [List.zip_cons_cons, List.lookup_cons]
      cases i with
      | zero =>
        cases h
        simp
      | succ i =>
        have hmem : n ∈ ks := List.mem_of_getElem? h
        have hother : (n == k) = false := by simpa using fun heq : n = k => hfresh (heq ▸ hmem)
        rw [hother]
        exact ih hnodup (Nat.succ.inj hlen) h

theorem lookup_zip_none {ks : List Text} {vs : List Int} (h : n ∉ ks) : (ks.zip vs).lookup n = none := by
  rw [List.lookup_eq_none_iff]
  intro e he
  simpa using fun heq : n = e.1 => h (heq ▸ (List.of_mem_zip he).1)

end Assigning

section Requested

variable {α : Type} {s : Manager α} {payload : Value α} {model : Text} {requested : List Text}

theorem readRequest_spec (h : readRequest payload = .ok (model, requested)) : requested ≠ [] ∧ requested.Nodup := by
  unfold readRequest at h
  split at h
  · dsimp only at h
    split at h
    · cases h
    split at h
    · cases h
    split at h
    · split at h
      · cases h
      · next item items _ providers hnames =>
        split at h
        · next hnodup =>
          cases h
          refine ⟨?_, hnodup⟩
          rintro rfl
          simp [List.mapM_cons, Option.bind_eq_some_iff] at hnames
        · cases h
    · cases h
  · cases h

theorem mapM_eq_some {β γ : Type} {f : β → Option γ} {g : β → γ} {l : List β} (h : ∀ b ∈ l, f b = some (g b)) :
    l.mapM f = some (l.map g) := by
  induction l with
  | nil => rfl
  | cons b l ih =>
    obtain ⟨hb, hl⟩ := List.forall_mem_cons.mp h
    rw [List.mapM_cons, hb, ih hl]
    rfl

theorem rank_of_single {n : Text} (hsingle : Single s.apiBackends n) {b : Backend α} (hb : b ∈ s.apiBackends)
    (hname : b.name = n) : s.apiBackends.filter (fun b => b.name = n) = [b] ∧ priority s n = some b.priority := by
  have hmem : b ∈ s.apiBackends.filter (fun b => b.name = n) := List.mem_filter.mpr ⟨hb, by simpa using hname⟩
  have hfilter : s.apiBackends.filter (fun b => b.name = n) = [b] := by
    obtain ⟨c, hc⟩ := List.length_eq_one_iff.mp (Nat.le_antisymm hsingle (List.length_pos_of_mem hmem))
    rw [hc] at hmem ⊢
    rw [List.mem_singleton.mp hmem]
  refine ⟨hfilter, ?_⟩
  rw [priority, Manager.backendConfig, ← List.head?_filter, hfilter]
  rfl

theorem byName_priority {n : Text} (hsingle : Single s.apiBackends n) (hpart : takesPart s n) :
    (byName s.apiBackends n).map Backend.priority = some (rank s n) := by
  obtain ⟨b, hconfig, hrank⟩ := takesPart_config hpart
  have hname : b.name = n := by simpa using List.find?_some hconfig
  obtain ⟨hfilter, hpriority⟩ := rank_of_single hsingle (List.mem_of_find?_eq_some hconfig) hname
  rw [byName, ← List.head?_filter, List.filter_reverse, hfilter, ← hrank, hpriority]
  rfl

/-- The old numbers in order, the equal ones split. -/
def given (s : Manager α) (requested : List Text) : List Int :=
  climb ((requested.map (rank s)).insertionSort (· ≤ ·))

def reordered (s : Manager α) (requested : List Text) : Manager α := numbered (requested.zip (given s requested)) s

theorem length_given : (given s requested).length = requested.length := by
  rw [given, climb, length_climbFrom, List.length_insertionSort, List.length_map]

theorem numbered_numbered {ks : List Text} {vs : List Int} (hks : ks.Nodup)
    (hsingle : ∀ n ∈ ks, Single s.apiBackends n) :
    numbered (ks.zip (ks.map (rank s))) (numbered (ks.zip vs) s) = s := by
  have hsame : (s.apiBackends.map (renumber (fun n => (ks.zip vs).lookup n))).map
      (renumber (fun n => (ks.zip (ks.map (rank s))).lookup n)) = s.apiBackends := by
    rw [List.map_map]
    conv_rhs => rw [← List.map_id s.apiBackends]
    apply List.map_congr_left
    intro b hb
    by_cases hmem : b.name ∈ ks
    · obtain ⟨i, hi⟩ := List.mem_iff_getElem?.mp hmem
      have hrank : rank s b.name = b.priority := by
        rw [rank, (rank_of_single (hsingle _ hmem) hb rfl).2]
        rfl
      have hback : (ks.zip (ks.map (rank s))).lookup b.name = some b.priority := by
        rw [lookup_zip hks (List.length_map _).symm hi, List.getElem?_map, hi, Option.map_some, hrank]
      rw [Function.comp_apply, renumber, renumber_name, hback, renumber_priority]
      rfl
    · have hfirst : renumber (fun n => (ks.zip vs).lookup n) b = b := renumber_of_none (lookup_zip_none hmem)
      rw [Function.comp_apply, hfirst]
      exact renumber_of_none (lookup_zip_none hmem)
  unfold numbered
  rw [hsame]

theorem reorder_eq (saves : Bool) (hread : readRequest payload = .ok (model, requested))
    (hperm : requested.Perm (queue s model)) (hsingle : ∀ n ∈ requested, Single s.apiBackends n) :
    reorderFailoverQueue saves payload s = if saves then (.done, reordered s requested) else (.failed, s) := by
  obtain ⟨hne, hnodup⟩ := readRequest_spec hread
  have hpart : ∀ n ∈ requested, takesPart s n := fun n hn => takesPart_of_mem_queue (hperm.mem_iff.mp hn)
  have hqueue : queue s model ≠ [] := fun hnil => hne (List.perm_nil.mp (hnil ▸ hperm))
  have hsame : ¬ ((∃ n ∈ requested, n ∉ queue s model) ∨ ∃ n ∈ queue s model, n ∉ requested) := by
    simp [hperm.mem_iff]
  have hprevious : requested.mapM (fun n => (byName s.apiBackends n).map Backend.priority) = some (requested.map (rank s)) :=
    mapM_eq_some (fun n hn => byName_priority (hsingle n hn) (hpart n hn))
  have hkeys : ∀ vs : List Int, requested.length = vs.length → (requested.zip vs).map Prod.fst = requested :=
    fun vs hlen => List.map_fst_zip (Nat.le_of_eq hlen)
  have hassign : assign (requested.zip (given s requested)) s = reordered s requested := by
    have hfst := hkeys (given s requested) length_given.symm
    exact assign_eq (hfst.symm ▸ hnodup) (hfst.symm ▸ hsingle)
  have hrestore : assign (requested.zip (requested.map (rank s))) (reordered s requested) = s := by
    have hfst := hkeys (requested.map (rank s)) (List.length_map _).symm
    have hsingle' : ∀ n ∈ requested, Single (reordered s requested).apiBackends n :=
      fun n hn => single_map _ (hsingle n hn)
    rw [assign_eq (hfst.symm ▸ hnodup) (hfst.symm ▸ hsingle')]
    exact numbered_numbered hnodup hsingle
  unfold reorderFailoverQueue
  simp only [hread, if_neg hqueue, if_neg hsame, hprevious, splitTies_eq_climbFrom]
  change (if saves then (Answer.done, assign (requested.zip (given s requested)) s)
    else (.failed, assign (requested.zip (requested.map (rank s))) (assign (requested.zip (given s requested)) s))) = _
  rw [hassign, hrestore]

end Requested

section Results

variable {α : Type} {s : Manager α} {model : Text} {requested : List Text}

theorem rank_reordered (hnodup : requested.Nodup) (hpart : ∀ n ∈ requested, takesPart s n) {i : Nat} {n : Text}
    (h : requested[i]? = some n) : (given s requested)[i]? = some (rank (reordered s requested) n) ∧
      priority (reordered s requested) n = some (rank (reordered s requested) n) := by
  obtain ⟨b, _, hpriority⟩ := takesPart_config (hpart n (List.mem_of_getElem? h))
  have hlt : i < (given s requested).length := by
    rw [length_given]
    exact (List.getElem?_eq_some_iff.mp h).1
  have hnew : priority (reordered s requested) n = (given s requested)[i]? := by
    rw [reordered, priority_numbered, lookup_zip hnodup length_given.symm h, hpriority, List.getElem?_eq_getElem hlt]
    rfl
  rw [rank, hnew, List.getElem?_eq_getElem hlt]
  exact ⟨rfl, rfl⟩

theorem rank_reordered_other {n : Text} (h : n ∉ requested) :
    priority (reordered s requested) n = priority s n ∧ rank (reordered s requested) n = rank s n := by
  have hsame : priority (reordered s requested) n = priority s n := by
    rw [reordered, priority_numbered, lookup_zip_none h]
    cases priority s n <;> rfl
  exact ⟨hsame, by rw [rank, rank, hsame]⟩

theorem map_rank_reordered (hnodup : requested.Nodup) (hpart : ∀ n ∈ requested, takesPart s n) :
    requested.map (rank (reordered s requested)) = given s requested := by
  apply List.ext_getElem?
  intro i
  rw [List.getElem?_map]
  cases h : requested[i]? with
  | none =>
    rw [List.getElem?_eq_none_iff, ← @length_given α s requested, ← List.getElem?_eq_none_iff] at h
    rw [h]
    rfl
  | some n => exact (rank_reordered hnodup hpart h).1.symm

theorem pairwise_reordered (hnodup : requested.Nodup) (hpart : ∀ n ∈ requested, takesPart s n) :
    requested.Pairwise (fun n k => rank (reordered s requested) n < rank (reordered s requested) k) := by
  rw [← List.pairwise_map (R := (· < ·)), map_rank_reordered hnodup hpart]
  exact climb_pairwise none _

theorem queue_reordered (hnodup : requested.Nodup) (hperm : requested.Perm (queue s model)) :
    queue (reordered s requested) model = requested := by
  have hpart : ∀ n ∈ requested, takesPart s n := fun n hn => takesPart_of_mem_queue (hperm.mem_iff.mp hn)
  refine @eq_of_pairwise Text Int _ (rank (reordered s requested)) _ _ ?_ (queue_pairwise _ model)
    (pairwise_reordered hnodup hpart)
  have hseats : (seated (reordered s requested) model).Perm (seated s model) := by
    have hsame : seats (reordered s requested) model = seats s model := seats_numbered _ model
    exact sortBy_perm.trans (hsame ▸ sortBy_perm.symm)
  rw [queue_eq] at hperm ⊢
  exact hperm.trans (hseats.map _).symm

theorem others_reordered (s : Manager α) (requested : List Text) :
    List.Forall₂ (fun b c => c = { b with priority := c.priority } ∧ (b.name ∉ requested → c = b))
      s.apiBackends (reordered s requested).apiBackends := by
  unfold reordered numbered
  rw [List.forall₂_map_right_iff, List.forall₂_same]
  exact fun b _ => ⟨renumber_priority _ b, fun hmem => renumber_of_none (lookup_zip_none hmem)⟩

theorem le_of_mem_climb {l : List Int} {k c : Int} (h : ∀ p ∈ l, k ≤ p) (hc : c ∈ climb l) : k ≤ c := by
  obtain ⟨i, hi⟩ := List.mem_iff_getElem?.mp hc
  have hlt : i < l.length := by
    rw [← length_climbFrom none l]
    exact (List.getElem?_eq_some_iff.mp hi).1
  have hp := List.getElem?_eq_getElem hlt
  exact (h _ (List.mem_of_getElem? hp)).trans (le_climb hp hi)

theorem nonneg_reordered (hnodup : requested.Nodup) (h : ∀ b ∈ s.apiBackends, 0 ≤ b.priority) :
    ∀ b ∈ (reordered s requested).apiBackends, 0 ≤ b.priority := by
  intro c hc
  obtain ⟨b, hb, rfl⟩ := List.mem_map.mp hc
  by_cases hmem : b.name ∈ requested
  · obtain ⟨i, hi⟩ := List.mem_iff_getElem?.mp hmem
    have hlt : i < (given s requested).length := by
      rw [length_given]
      exact (List.getElem?_eq_some_iff.mp hi).1
    have hgiven := List.getElem?_eq_getElem hlt
    have hpriority : (renumber (fun n => (requested.zip (given s requested)).lookup n) b).priority =
        (given s requested)[i] := by
      rw [renumber, lookup_zip hnodup length_given.symm hi, hgiven]
    rw [hpriority]
    refine le_of_mem_climb (fun p hp => ?_) (List.mem_of_getElem? hgiven)
    obtain ⟨n, _, rfl⟩ := List.mem_map.mp ((List.mem_insertionSort _).mp hp)
    unfold rank priority
    cases hconfig : s.backendConfig n with
    | none => exact Int.le_refl 0
    | some d => exact h d (List.mem_of_find?_eq_some hconfig)
  · rw [renumber_of_none (lookup_zip_none hmem)]
    exact h b hb

theorem reused_reordered (hnodup : requested.Nodup) (hpart : ∀ n ∈ requested, takesPart s n)
    (h : (requested.map (priority s)).Nodup) :
    (requested.map (priority (reordered s requested))).Perm (requested.map (priority s)) := by
  have hold : requested.map (priority s) = (requested.map (rank s)).map some := by
    rw [List.map_map]
    apply List.map_congr_left
    intro n hn
    obtain ⟨_, _, hpriority⟩ := takesPart_config (hpart n hn)
    exact hpriority
  have hnew : requested.map (priority (reordered s requested)) = (given s requested).map some := by
    rw [← map_rank_reordered hnodup hpart, List.map_map]
    apply List.map_congr_left
    intro n hn
    obtain ⟨i, hi⟩ := List.mem_iff_getElem?.mp hn
    exact (rank_reordered hnodup hpart hi).2
  have hranks : (requested.map (rank s)).Nodup := by
    rw [hold] at h
    exact h.of_map
  have hsorted : ((requested.map (rank s)).insertionSort (· ≤ ·)).Pairwise (· < ·) := by
    have hperm := List.perm_insertionSort (· ≤ ·) (requested.map (rank s))
    have hne := (hperm.nodup_iff.mpr hranks)
    exact (List.pairwise_insertionSort (· ≤ ·) _).imp₂ (fun _ _ hle hn => lt_of_le_of_ne hle hn) hne
  rw [hold, hnew, given, climb, climbFrom_eq_self (by simp) hsorted]
  exact (List.perm_insertionSort (· ≤ ·) _).map some

end Results

section Resubmitting

variable {α : Type} {s : Manager α} {model m : Text}

theorem room_iff {n : Text} (hnodup : (queue s model).Nodup) (h : n ∈ queue s model) (limit : Int) :
    rank (reordered s (queue s model)) n < limit ↔ Room (rank s) (queue s model) n limit := by
  have hpart : ∀ n ∈ queue s model, takesPart s n := fun n hn => takesPart_of_mem_queue hn
  have hindex := List.idxOf_lt_length_iff.mpr h
  have hi : (queue s model)[(queue s model).idxOf n]? = some n := by
    rw [List.getElem?_eq_getElem hindex, List.getElem_idxOf]
  have hgiven := (rank_reordered hnodup hpart hi).1
  have hsorted : ((queue s model).map (rank s)).Pairwise (· ≤ ·) := List.pairwise_map.mpr (queue_pairwise s model)
  rw [given, hsorted.insertionSort_eq] at hgiven
  rw [climbFrom_lt_iff hgiven, Room]
  constructor
  · intro ⟨_, hpush⟩ z hz hle
    refine hpush _ _ ?_ hle
    rw [List.getElem?_map, List.getElem?_eq_getElem (List.idxOf_lt_length_iff.mpr hz), List.getElem_idxOf]
    rfl
  · intro hroom
    refine ⟨fun a ha => (nomatch ha), fun j p hp hle => ?_⟩
    rw [List.getElem?_map] at hp
    obtain ⟨z, hz, rfl⟩ := Option.map_eq_some_iff.mp hp
    have hj : (queue s model).idxOf z = j := by
      obtain ⟨hlt, rfl⟩ := List.getElem?_eq_some_iff.mp hz
      exact hnodup.idxOf_getElem j hlt
    have hmem := List.mem_of_getElem? hz
    rw [← hj] at hle ⊢
    exact hroom z hmem hle

theorem rank_le_reordered {n : Text} (hnodup : (queue s model).Nodup) (h : n ∈ queue s model) :
    rank s n ≤ rank (reordered s (queue s model)) n := by
  have hroom := (room_iff hnodup h _).mp (lt_add_one (rank (reordered s (queue s model)) n)) n h (Nat.le_refl _)
  omega

theorem rank_lt_of_idxOf {n k : Text} (hnodup : (queue s model).Nodup) (hn : n ∈ queue s model) (hk : k ∈ queue s model)
    (h : (queue s model).idxOf n < (queue s model).idxOf k) :
    rank (reordered s (queue s model)) n < rank (reordered s (queue s model)) k := by
  have hpairwise := pairwise_reordered hnodup (fun n hn => takesPart_of_mem_queue hn)
  have hlt := List.pairwise_iff_getElem.mp hpairwise _ _ (List.idxOf_lt_length_iff.mpr hn)
    (List.idxOf_lt_length_iff.mpr hk) h
  rwa [List.getElem_idxOf, List.getElem_idxOf] at hlt

theorem candidates_reordered_iff (s : Manager α) (requested : List Text) (m : Text) :
    getProviderCandidates (reordered s requested) m [] = getProviderCandidates s m [] ↔
      (seated s m).Pairwise (fun x y =>
        seatKey (fun a => rank (reordered s requested) a.backendName) x <
          seatKey (fun a => rank (reordered s requested) a.backendName) y) := by
  have hsame : seats (reordered s requested) m = seats s m := seats_numbered _ m
  have hseated : seated (reordered s requested) m =
      sortBy (seatKey (fun a => rank (reordered s requested) a.backendName)) (seats s m) := by
    rw [seated, hsame]
  have hplaces : ∀ u : Manager α, (seated u m).Pairwise (fun x y => x.1 = y.1 → x.2 < y.2) := by
    intro u
    refine (seated_pairwise u m).imp (fun hlt heq => ?_)
    rw [seatKey_lt, heq] at hlt
    simpa using hlt
  have hordered : seated (reordered s requested) m = seated s m ↔ (seated s m).Pairwise (fun x y =>
      seatKey (fun a => rank (reordered s requested) a.backendName) x <
        seatKey (fun a => rank (reordered s requested) a.backendName) y) := by
    rw [hseated]
    exact sortBy_eq_sortBy_iff ((positions_seats s m).imp (fun h => seatKey_ne h))
  rw [candidates_eq, candidates_eq, ← hordered]
  constructor
  · intro heq
    refine eq_of_map_fst ?_ heq (hplaces _) (hplaces _)
    rw [hseated]
    exact sortBy_perm.trans sortBy_perm.symm
  · intro heq
    rw [heq]

theorem stays_ahead_iff (hnodup : (queue s model).Nodup) {x y : Adapter α × Nat}
    (h : seatKey (fun a => rank s a.backendName) x < seatKey (fun a => rank s a.backendName) y) :
    seatKey (fun a => rank (reordered s (queue s model)) a.backendName) x <
        seatKey (fun a => rank (reordered s (queue s model)) a.backendName) y ↔
      (x.1.backendName ∈ queue s model → if y.1.backendName ∈ queue s model then
          (queue s model).idxOf x.1.backendName ≤ (queue s model).idxOf y.1.backendName
        else Room (rank s) (queue s model) x.1.backendName (rank s y.1.backendName + if x.2 < y.2 then 1 else 0)) := by
  have hpart : ∀ n ∈ queue s model, takesPart s n := fun n hn => takesPart_of_mem_queue hn
  rw [seatKey_lt] at h ⊢
  by_cases hx : x.1.backendName ∈ queue s model
  · by_cases hy : y.1.backendName ∈ queue s model
    · rw [if_pos hy]
      simp only [hx, true_implies]
      have hname := @List.idxOf_inj _ _ _ (queue s model) x.1.backendName y.1.backendName hx
      rcases lt_trichotomy ((queue s model).idxOf x.1.backendName) ((queue s model).idxOf y.1.backendName) with
        hlt | heq | hgt
      · exact iff_of_true (.inl (rank_lt_of_idxOf hnodup hx hy hlt)) hlt.le
      · rw [hname.mp heq] at h ⊢
        simpa using h
      · have hback := rank_lt_of_idxOf hnodup hy hx hgt
        omega
    · rw [if_neg hy, ← room_iff hnodup hx, (rank_reordered_other hy).2]
      simp only [hx, true_implies]
      by_cases hposition : x.2 < y.2
      · rw [if_pos hposition]
        omega
      · rw [if_neg hposition]
        omega
  · simp only [hx, false_implies, iff_true]
    rw [(rank_reordered_other hx).2]
    by_cases hy : y.1.backendName ∈ queue s model
    · have hle := rank_le_reordered hnodup hy
      omega
    · rw [(rank_reordered_other hy).2]
      exact h

end Resubmitting

variable {α : Type} {s t : Manager α} {payload : Value α} {model : Text} {requested : List Text} {saves : Bool}

theorem reorders_reordered_iff (hnodup : requested.Nodup) (hperm : requested.Perm (queue s model)) :
    Reorders s (reordered s requested) model requested ↔ (requested = queue s model → Undisturbed s model) := by
  have hpart : ∀ n ∈ requested, takesPart s n := fun n hn => takesPart_of_mem_queue (hperm.mem_iff.mp hn)
  have huntouched : (requested = queue s model → ∀ m, m ≠ model →
      getProviderCandidates (reordered s requested) m [] = getProviderCandidates s m []) ↔
      (requested = queue s model → Undisturbed s model) := by
    refine forall_congr' (fun heq => forall_congr' (fun m => forall_congr' (fun _ => ?_)))
    subst heq
    rw [candidates_reordered_iff]
    constructor
    · exact (seated_pairwise s m).imp₂ (fun _ _ hlt => (stays_ahead_iff hnodup hlt).mp)
    · exact (seated_pairwise s m).imp₂ (fun _ _ hlt => (stays_ahead_iff hnodup hlt).mpr)
  constructor
  · exact fun h => huntouched.mp h.untouched
  · intro h
    exact {
      order := queue_reordered hnodup hperm
      others := others_reordered s requested
      nonneg := nonneg_reordered hnodup
      reused := reused_reordered hnodup hpart
      untouched := huntouched.mpr h }

/-- A successful request does what it says, and the other queues keep their order exactly when
splitting equal numbers pushes no backend past another. -/
theorem reorder_failover_queue_iff (hread : readRequest payload = .ok (model, requested))
    (hperm : requested.Perm (queue s model)) (hsingle : ∀ n ∈ requested, Single s.apiBackends n)
    (hdone : reorderFailoverQueue saves payload s = (.done, t)) :
    Reorders s t model requested ↔ (requested = queue s model → Undisturbed s model) := by
  obtain ⟨_, hnodup⟩ := readRequest_spec hread
  rw [reorder_eq saves hread hperm hsingle] at hdone
  cases saves with
  | false => cases hdone
  | true =>
    cases hdone
    exact reorders_reordered_iff hnodup hperm

def defaultBackend (n : Text) : Backend Unit := ⟨n, [], .dict [], true, [], 100, true⟩

def defaultAdapter (i : Nat) (n : Text) : Adapter Unit := ⟨i, defaultBackend n⟩

/-- Three new backends, the second of which serves two models. -/
def tied : Manager Unit where
  apiBackends := [defaultBackend ['a'], defaultBackend ['b'], defaultBackend ['c']]
  activeBackends := (Dicts.Dict.empty.set ['m'] [defaultAdapter 0 ['a'], defaultAdapter 1 ['b']]).set ['n']
    [defaultAdapter 1 ['b'], defaultAdapter 2 ['c']]
  modelInfo := Dicts.Dict.empty
  backends := Dicts.Dict.empty
  created := 3

def requestFor (model : Text) (providers : List Text) : Value Unit :=
  .dict [("model".toList, .text model), ("providers".toList, .list (providers.map .text))]

theorem seated_pair {s : Manager α} {m : Text} {x y : Adapter α × Nat} (hseats : (seats s m).Perm [x, y])
    (h : rank s x.1.backendName < rank s y.1.backendName ∨
      rank s x.1.backendName = rank s y.1.backendName ∧ x.2 < y.2) : seated s m = [x, y] :=
  sortBy_of_pairwise hseats.symm (by simpa [seatKey_lt] using h)

theorem queue_tied : queue tied ['m'] = [['a'], ['b']] := by
  rw [queue_eq, @seated_pair _ tied ['m'] (defaultAdapter 0 ['a'], 0) (defaultAdapter 1 ['b'], 1) (List.Perm.refl _)
    (by decide)]
  rfl

theorem single_tied (n : Text) : Single tied.apiBackends n := single_of_nodup (by decide) n

/-- A successful request for the other order. -/
theorem reorder_failover_queue_tied : Reorders tied (reordered tied [['b'], ['a']]) ['m'] [['b'], ['a']] := by
  have hread : readRequest (requestFor ['m'] [['b'], ['a']]) = .ok (['m'], [['b'], ['a']]) := by
    simp [readRequest, requestFor, sortBy]
    decide
  have hperm : [['b'], ['a']].Perm (queue tied ['m']) := by
    rw [queue_tied]
    exact List.Perm.swap _ _ _
  have hsingle : ∀ n ∈ [['b'], ['a']], Single tied.apiBackends n := fun n _ => single_tied n
  have hdone := reorder_eq true hread hperm hsingle
  refine (reorder_failover_queue_iff hread hperm hsingle hdone).mpr (fun hsame => ?_)
  rw [queue_tied] at hsame
  exact absurd hsame (by decide)

/-- Asking for the order a queue has moves the shared backend behind the other one in another
queue. -/
theorem unchanged_order_moves_other :
    readRequest (requestFor ['m'] [['a'], ['b']]) = .ok (['m'], [['a'], ['b']]) ∧ queue tied ['m'] = [['a'], ['b']] ∧
    reorderFailoverQueue true (requestFor ['m'] [['a'], ['b']]) tied = (.done, reordered tied [['a'], ['b']]) ∧
    queue tied ['n'] = [['b'], ['c']] ∧ queue (reordered tied [['a'], ['b']]) ['n'] = [['c'], ['b']] ∧
    ¬ Reorders tied (reordered tied [['a'], ['b']]) ['m'] [['a'], ['b']] := by
  have hread : readRequest (requestFor ['m'] [['a'], ['b']]) = .ok (['m'], [['a'], ['b']]) := by
    simp [readRequest, requestFor, sortBy]
    decide
  have hperm : [['a'], ['b']].Perm (queue tied ['m']) := by rw [queue_tied]
  have hbefore : queue tied ['n'] = [['b'], ['c']] := by
    rw [queue_eq, @seated_pair _ tied ['n'] (defaultAdapter 1 ['b'], 0) (defaultAdapter 2 ['c'], 1) (List.Perm.refl _)
      (by decide)]
    rfl
  have hafter : queue (reordered tied [['a'], ['b']]) ['n'] = [['c'], ['b']] := by
    rw [queue_eq, @seated_pair _ (reordered tied [['a'], ['b']]) ['n'] (defaultAdapter 2 ['c'], 1)
      (defaultAdapter 1 ['b'], 0) (List.Perm.swap _ _ _) (by decide)]
    rfl
  refine ⟨hread, queue_tied, reorder_eq true hread hperm (fun n _ => single_tied n), hbefore, hafter, fun h => ?_⟩
  have hsame := congrArg (List.map Adapter.backendName) (h.untouched queue_tied.symm ['n'] (by decide))
  have hqueues : [['c'], ['b']] = [['b'], ['c']] := hafter.symm.trans (hsame.trans hbefore)
  exact absurd hqueues (by decide)

end Kirara.FailoverQueues
