import Kirara.Compaction

namespace Kirara.CompactedTurns

open Kirara.AgentMessages Kirara.Compaction

variable {κ : Type}

def calls (m : Message κ) : List (AgentMessages.Part κ) := m.content.filter AgentMessages.Part.isCall

def results (m : Message κ) : List (AgentMessages.Part κ) := m.content.filter AgentMessages.Part.isResult

/-- Results that answer calls, no two the same one, and the calls that stay open. -/
inductive Answers : List (AgentMessages.Part κ) → List (AgentMessages.Part κ) → List (AgentMessages.Part κ) → Prop
  | none {pending} : Answers pending [] pending
  | next {pending c rest r rs left} :
    pending.Perm (c :: rest) → isCallOf r c = true → Answers rest rs left → Answers pending (r :: rs) left

/-- Every result answers an open call, and none is open when a user or an assistant speaks, or
at the end. -/
inductive Paired : List (AgentMessages.Part κ) → List (Message κ) → Prop
  | done : Paired [] []
  | system {pending m ms} : m.role = .system → Paired pending ms → Paired pending (m :: ms)
  | user {m ms} : m.role = .user → Paired [] ms → Paired [] (m :: ms)
  | assistant {m ms} : m.role = .assistant → Paired (calls m) ms → Paired [] (m :: ms)
  | tool {pending left m ms} : m.role = .tool → Answers pending (results m) left → Paired left ms →
    Paired pending (m :: ms)

variable {front rest : List (Message κ)} {u : Message κ}

theorem paired_from_user {pending : List (AgentMessages.Part κ)}
    (hu : u.role = .user) (h : Paired pending (front ++ u :: rest)) : Paired [] (u :: rest) := by
  induction front generalizing pending with
  | nil =>
    cases h with
    | user _ h => exact .user hu h
    | system hm | assistant hm | tool hm => cases hu.symm.trans hm
  | cons m front ih =>
    cases h with
    | system _ h | user _ h | assistant _ h | tool _ _ h => exact ih h

section Turns

/-- The messages before the first user's, and the turns, each headed by a user's message. -/
structure Division (messages before : List (Message κ)) (turns : List (List (Message κ))) : Prop where
  joined : messages = before ++ turns.flatten
  noUser : ∀ m ∈ before, m.role ≠ .user
  turn : ∀ t ∈ turns, ∃ u rest, t = u :: rest ∧ u.role = .user ∧ ∀ m ∈ rest, m.role ≠ .user

variable (jsonSize : AgentMessages.Part κ → Nat) (threshold : Int)

/-- The oldest turns are left out, as few as will do, but never the last one. -/
def DropsOldest (before : List (Message κ)) (turns : List (List (Message κ))) (compacted : List (Message κ)) : Prop :=
  ∃ k, compacted = before ++ (turns.drop k).flatten ∧ (k = 0 ∨ k < turns.length) ∧
    (∀ j < k, threshold < estimateMessagesChars jsonSize (before ++ (turns.drop j).flatten)) ∧
    ((estimateMessagesChars jsonSize compacted : Int) ≤ threshold ∨ turns.length ≤ k + 1)

structure CompactsWell (messages compacted : List (Message κ)) : Prop where
  sublist : compacted.Sublist messages
  system : ∀ s ∈ messages.head?, s.role = .system → compacted.head? = some s
  current : ∀ front u, messages = front ++ u :: afterUser messages → u.role = .user →
    u :: afterUser messages <:+ compacted
  oldest : ∀ before turns, Division messages before turns → DropsOldest jsonSize threshold before turns compacted
  paired : Paired [] messages → Paired [] compacted

/-- Only the first system message, if there is one, comes before the first user's message. -/
def Plain (messages : List (Message κ)) : Prop :=
  messages.takeWhile (fun m => m.role ≠ .user) = (messages.find? (fun m => m.role = .system)).toList

instance [DecidableEq κ] (messages : List (Message κ)) : Decidable (Plain messages) :=
  inferInstanceAs (Decidable (_ = _))

variable {jsonSize threshold} {messages before : List (Message κ)} {turns : List (List (Message κ))}

theorem division_exists (messages : List (Message κ)) : ∃ before turns, Division messages before turns := by
  induction messages with
  | nil => exact ⟨[], [], rfl, nofun, nofun⟩
  | cons m messages ih =>
    obtain ⟨before, turns, hjoined, hbefore, hturn⟩ := ih
    by_cases hm : m.role = .user
    · refine ⟨[], (m :: before) :: turns, by simp [hjoined], nofun, ?_⟩
      intro t ht
      cases List.mem_cons.mp ht with
      | inl he => exact ⟨m, before, he, hm, hbefore⟩
      | inr ht => exact hturn t ht
    · exact ⟨m :: before, turns, by simp [hjoined], List.forall_mem_cons.mpr ⟨hm, hbefore⟩, hturn⟩

theorem head_flatten (h : ∀ t ∈ turns, ∃ u rest, t = u :: rest ∧ u.role = .user ∧ ∀ m ∈ rest, m.role ≠ .user)
    (hne : turns ≠ []) : ∃ u rest, turns.flatten = u :: rest ∧ u.role = .user := by
  cases turns with
  | nil => exact absurd rfl hne
  | cons t turns =>
    obtain ⟨u, rest, ht, hu, -⟩ := h t List.mem_cons_self
    exact ⟨u, rest ++ turns.flatten, by simp [ht], hu⟩

theorem takeWhile_of_user (hfront : ∀ m ∈ front, m.role ≠ .user)
    (hu : u.role = .user) : (front ++ u :: rest).takeWhile (fun m => m.role ≠ .user) = front := by
  rw [List.takeWhile_append_of_pos (by simpa using hfront)]
  simp [hu]

theorem groupTurns_of_division (h : Division messages before turns) : groupTurns messages = turns := by
  obtain ⟨hjoined, hbefore, hturn⟩ := h
  let step := fun (m : Message κ) (x : List (Message κ) × List (List (Message κ))) =>
    if m.role = .user then ([], (m :: x.1) :: x.2) else (m :: x.1, x.2)
  have hrest : ∀ (rest : List (Message κ)) x, (∀ m ∈ rest, m.role ≠ .user) →
      rest.foldr step x = (rest ++ x.1, x.2) := by
    intro rest x hrest
    induction rest with
    | nil => rfl
    | cons m rest ih =>
      obtain ⟨hm, hrest⟩ := List.forall_mem_cons.mp hrest
      rw [List.foldr_cons, ih hrest]
      simp [step, hm]
  have hturns : turns.flatten.foldr step ([], []) = ([], turns) := by
    clear hjoined
    induction turns with
    | nil => rfl
    | cons t turns ih =>
      obtain ⟨u, rest, ht, hu, hnone⟩ := hturn t List.mem_cons_self
      rw [List.flatten_cons, List.foldr_append, ih (fun t ht => hturn t (List.mem_cons_of_mem _ ht)), ht,
        List.foldr_cons, hrest rest _ hnone]
      simp [step, hu]
  have hall : messages.foldr step ([], []) = (before, turns) := by
    rw [hjoined, List.foldr_append, hturns, hrest before _ hbefore, List.append_nil]
  exact congrArg Prod.snd hall

theorem fitTurns_spec (head current : List (Message κ)) (turns : List (List (Message κ))) :
    ∃ k ≤ turns.length, fitTurns jsonSize threshold head current turns = head ++ (turns.drop k).flatten ++ current ∧
      (∀ j < k, threshold < estimateMessagesChars jsonSize (head ++ (turns.drop j).flatten ++ current)) ∧
      ((estimateMessagesChars jsonSize (head ++ (turns.drop k).flatten ++ current) : Int) ≤ threshold ∨
        turns.length ≤ k) := by
  induction turns with
  | nil => exact ⟨0, le_rfl, by simp [fitTurns], nofun, .inr le_rfl⟩
  | cons turn turns ih =>
    rw [fitTurns]
    split
    · next hfits => exact ⟨0, Nat.zero_le _, rfl, nofun, .inl hfits⟩
    · next hlarge =>
      obtain ⟨k, hk, heq, hneeded, hreached⟩ := ih
      refine ⟨k + 1, Nat.succ_le_succ hk, heq, ?_, hreached.imp_right Nat.succ_le_succ⟩
      intro j hj
      cases j with
      | zero => exact Int.not_le.mp hlarge
      | succ j => exact hneeded j (Nat.lt_of_succ_lt_succ hj)

theorem defaultCompact_of_user (hm : messages = front ++ u :: rest)
    (hu : u.role = .user) (hrest : ∀ m ∈ rest, m.role ≠ .user) :
    defaultCompactMessages jsonSize threshold messages =
      fitTurns jsonSize threshold (messages.find? (fun m => m.role = .system)).toList (u :: rest)
        (groupTurns (front.drop (if (messages.find? (fun m => m.role = .system)).toList = [] then 0
          else messages.findIdx (fun m => m.role = .system) + 1))) := by
  have hafter : afterUser messages = rest := hm ▸ afterUser_of_user front hu hrest
  have hback : throughUser messages ++ rest = (front ++ [u]) ++ rest := by
    rw [← hafter, throughUser_append_afterUser, hafter, hm, List.append_assoc]
    rfl
  have hthrough : throughUser messages = front ++ [u] := List.append_cancel_right hback
  rw [defaultCompactMessages, hthrough, hafter, List.getLast?_concat, List.dropLast_concat]

theorem defaultCompact_of_none (h : ¬ HasUser messages) : defaultCompactMessages jsonSize threshold messages = messages := by
  have hthrough : throughUser messages = [] := by
    rw [throughUser, List.reverse_eq_nil_iff, List.dropWhile_eq_nil_iff]
    intro m hm
    exact decide_eq_true (fun hu => h ⟨m, List.mem_reverse.mp hm, hu⟩)
  rw [defaultCompactMessages, hthrough]
  rfl

theorem exists_current (h : Division messages before turns) (hne : turns ≠ []) :
    ∃ init u rest, turns = init ++ [u :: rest] ∧ messages = (before ++ init.flatten) ++ u :: rest ∧ u.role = .user ∧
      ∀ m ∈ rest, m.role ≠ .user := by
  obtain ⟨init, last, hturns⟩ := List.eq_nil_or_concat' turns |>.resolve_left hne
  obtain ⟨u, rest, hlast, hu, hrest⟩ := h.turn last (by simp [hturns])
  exact ⟨init, u, rest, hlast ▸ hturns, by simp [h.joined, hturns, hlast], hu, hrest⟩

theorem takeWhile_default (h : HasUser messages) :
    (defaultCompactMessages jsonSize threshold messages).takeWhile (fun m => m.role ≠ .user) =
      (messages.find? (fun m => m.role = .system)).toList := by
  obtain ⟨front, u, hm, hu⟩ := exists_user_split h
  rw [defaultCompact_of_user hm hu (fun m hm => role_of_mem_afterUser hm)]
  generalize front.drop _ = history
  obtain ⟨before, turns, hdivision⟩ := division_exists history
  rw [groupTurns_of_division hdivision]
  obtain ⟨k, -, heq, -⟩ := @fitTurns_spec _ jsonSize threshold
    (messages.find? (fun m => m.role = .system)).toList (u :: afterUser messages) turns
  have hsystem : ∀ m ∈ (messages.find? (fun m => m.role = .system)).toList, m.role ≠ .user := by
    intro m hm
    have hrole : m.role = .system := by simpa using List.find?_some (Option.mem_toList.mp hm)
    rw [hrole]
    decide
  rw [heq, List.append_assoc]
  by_cases hnil : turns.drop k = []
  · rw [hnil]
    exact takeWhile_of_user hsystem hu
  · obtain ⟨v, rest, hflatten, hv⟩ := head_flatten (fun t ht => hdivision.turn t (List.mem_of_mem_drop ht)) hnil
    rw [hflatten]
    exact takeWhile_of_user hsystem hv

theorem plain_of_oldest (hu : HasUser messages) (h : ∀ before turns, Division messages before turns →
      DropsOldest jsonSize threshold before turns (defaultCompactMessages jsonSize threshold messages)) :
    Plain messages := by
  obtain ⟨before, turns, hdivision⟩ := division_exists messages
  have hne : turns ≠ [] := by
    intro hnil
    obtain ⟨m, hm, hrole⟩ := hu
    rw [hdivision.joined, hnil, List.flatten_nil, List.append_nil] at hm
    exact hdivision.noUser m hm hrole
  obtain ⟨k, heq, hk, -⟩ := h before turns hdivision
  have hdrop : turns.drop k ≠ [] := by
    rw [Ne, List.drop_eq_nil_iff]
    have hpos := List.length_pos_of_ne_nil hne
    omega
  obtain ⟨v, rest, hflatten, hv⟩ := head_flatten (fun t ht => hdivision.turn t (List.mem_of_mem_drop ht)) hdrop
  obtain ⟨w, back, hwhole, hw⟩ := head_flatten hdivision.turn hne
  have hcode := @takeWhile_default _ jsonSize threshold _ hu
  rw [heq, hflatten, takeWhile_of_user hdivision.noUser hv] at hcode
  rw [Plain, ← hcode, hdivision.joined, hwhole]
  exact takeWhile_of_user hdivision.noUser hw

theorem before_of_plain (hplain : Plain messages) (h : Division messages before turns) (hne : turns ≠ []) :
    before = (messages.find? (fun m => m.role = .system)).toList := by
  obtain ⟨u, rest, hflatten, hu⟩ := head_flatten h.turn hne
  rw [← hplain, h.joined, hflatten]
  exact (takeWhile_of_user h.noUser hu).symm

theorem default_of_plain (hplain : Plain messages) (h : Division messages before turns) (hne : turns ≠ []) :
    DropsOldest jsonSize threshold before turns (defaultCompactMessages jsonSize threshold messages) := by
  obtain ⟨init, u, rest, hturns, hm, hu, hrest⟩ := exists_current h hne
  have hbefore := before_of_plain hplain h hne
  have hinit : Division init.flatten [] init :=
    ⟨rfl, nofun, fun t ht => h.turn t (hturns ▸ List.mem_append_left _ ht)⟩
  have hhistory : (before ++ init.flatten).drop (if (messages.find? (fun m => m.role = .system)).toList = [] then 0
      else messages.findIdx (fun m => m.role = .system) + 1) = init.flatten := by
    rw [← hbefore]
    cases hfind : messages.find? (fun m => m.role = .system) with
    | none => simp [hbefore, hfind]
    | some s =>
      have hs : s.role = .system := by simpa using List.find?_some hfind
      have hhead : before = [s] := by simp [hbefore, hfind]
      have hindex : messages.findIdx (fun m => m.role = .system) = 0 := by simp [hm, hhead, List.findIdx_cons, hs]
      rw [hindex, hhead]
      rfl
  rw [defaultCompact_of_user hm hu hrest, hhistory, groupTurns_of_division hinit, ← hbefore]
  obtain ⟨k, hk, heq, hneeded, hreached⟩ := @fitTurns_spec _ jsonSize threshold before (u :: rest) init
  have hdrop : ∀ j ≤ init.length, before ++ (turns.drop j).flatten = before ++ (init.drop j).flatten ++ u :: rest := by
    intro j hj
    rw [hturns, List.drop_append_of_le_length hj]
    simp
  have hlength : turns.length = init.length + 1 := by simp [hturns]
  refine ⟨k, ?_, .inr (by omega), ?_, ?_⟩
  · rw [heq, hdrop k hk]
  · intro j hj
    rw [hdrop j (by omega)]
    exact hneeded j hj
  · rw [heq]
    exact hreached.imp_right (by omega)

theorem sublist_of_drops {compacted : List (Message κ)} (h : Division messages before turns)
    (hd : DropsOldest jsonSize threshold before turns compacted) : compacted.Sublist messages := by
  obtain ⟨k, heq, -⟩ := hd
  rw [heq, h.joined]
  have hback : (turns.drop k).flatten.Sublist turns.flatten := by
    conv_rhs => rw [← List.take_append_drop k turns, List.flatten_append]
    exact List.sublist_append_right _ _
  exact (List.Sublist.refl before).append hback

/-- The default compaction does all that it should exactly where no user speaks, or where only
the one system message stands before the first user's. -/
theorem compacts_well_iff (jsonSize : AgentMessages.Part κ → Nat) (threshold : Int) (messages : List (Message κ)) :
    CompactsWell jsonSize threshold messages (defaultCompactMessages jsonSize threshold messages) ↔
      (HasUser messages → Plain messages) := by
  constructor
  · exact fun h hu => plain_of_oldest hu h.oldest
  intro hplain
  by_cases hu : HasUser messages
  · have hplain := hplain hu
    have hturns : ∀ {before turns}, Division messages before turns → turns ≠ [] := by
      intro before turns hdivision hnil
      obtain ⟨m, hm, hrole⟩ := hu
      rw [hdivision.joined, hnil, List.flatten_nil, List.append_nil] at hm
      exact hdivision.noUser m hm hrole
    have holdest := fun before turns (h : Division messages before turns) =>
      @default_of_plain _ jsonSize threshold _ _ _ hplain h (hturns h)
    obtain ⟨before, turns, hdivision⟩ := division_exists messages
    have hne := hturns hdivision
    have hbefore := before_of_plain hplain hdivision hne
    obtain ⟨k, heq, hk, -⟩ := holdest before turns hdivision
    have hdrop : turns.drop k ≠ [] := by
      rw [Ne, List.drop_eq_nil_iff]
      have hpos := List.length_pos_of_ne_nil hne
      omega
    obtain ⟨v, back, hflatten, hv⟩ := head_flatten (fun t ht => hdivision.turn t (List.mem_of_mem_drop ht)) hdrop
    rw [hflatten] at heq
    have hback : messages = before ++ (turns.take k).flatten ++ v :: back := by
      rw [← hflatten, List.append_assoc, ← List.flatten_append, List.take_append_drop]
      exact hdivision.joined
    refine ⟨sublist_of_drops hdivision (holdest before turns hdivision), ?_, ?_, holdest, ?_⟩
    · intro s hs hrole
      have hfirst : messages.find? (fun m => m.role = .system) = some s := by
        cases messages with
        | nil => cases hs
        | cons m ms => simp [Option.some.inj hs, hrole]
      simp [heq, hbefore, hfirst]
    · intro front u hm hrole
      rw [defaultCompact_of_user hm hrole (fun m hm => role_of_mem_afterUser hm)]
      obtain ⟨head, hcode⟩ := fitTurns_eq jsonSize threshold _ (u :: afterUser messages) _
      exact ⟨head, hcode.symm⟩
    · intro hpaired
      have hfrom := paired_from_user hv (hback ▸ hpaired)
      rw [heq, hbefore]
      cases hfind : messages.find? (fun m => m.role = .system) with
      | none => exact hfrom
      | some s => exact .system (by simpa using List.find?_some hfind) hfrom
  · rw [defaultCompact_of_none hu]
    refine ⟨List.Sublist.refl _, fun s hs _ => hs, ?_, ?_, id⟩
    · intro front u hm hrole
      exact absurd ⟨u, by rw [hm]; simp, hrole⟩ hu
    · intro before turns hdivision
      refine ⟨0, hdivision.joined, .inl rfl, nofun, .inr ?_⟩
      have hnil : turns = [] := by
        apply Classical.by_contradiction
        intro hne
        obtain ⟨v, back, hflatten, hv⟩ := head_flatten hdivision.turn hne
        exact hu ⟨v, by rw [hdivision.joined, hflatten]; simp, hv⟩
      simp [hnil]

/-- The system prompt, what a hook has put after it, and the question. -/
def hooked : List (Message Unit) :=
  [⟨.system, [.text "You are Kirara".toList]⟩, ⟨.system, [.text "It is raining".toList]⟩,
    ⟨.user, [.text "Shall I go out".toList]⟩]

/-- Nothing has to be dropped here, and the context of the hook is dropped. -/
theorem hook_context_dropped : ¬ CompactsWell (fun _ => 0) 1000 hooked (defaultCompactMessages (fun _ => 0) 1000 hooked) := by
  intro h
  have huser : HasUser hooked := ⟨⟨.user, [.text "Shall I go out".toList]⟩, by simp [hooked], rfl⟩
  have hplain := plain_of_oldest huser h.oldest
  revert hplain
  decide

end Turns

variable {before : Option (Message κ)} {pending : List (AgentMessages.Part κ)} {messages : List (Message κ)}

def AnsweredNext (pending : List (AgentMessages.Part κ)) (messages : List (Message κ)) : Prop :=
  pending ≠ [] → ∃ t ∈ messages.head?, t.role = .tool ∧ Answers pending (results t) []

def CallsAnswered : List (Message κ) → Prop
  | [] => True
  | m :: ms => (m.role = .assistant → AnsweredNext (calls m) ms) ∧ CallsAnswered ms

def opened : Option (Message κ) → List (AgentMessages.Part κ)
  | none => []
  | some m => if m.role = .assistant then calls m else []

variable {m : Message κ}

theorem opened_of_role (h : m.role ≠ .assistant) : opened (some m) = [] := if_neg h

theorem valid_tool (hm : m.role = .tool) (h : validToolPairs before (m :: messages) = true) :
    ∃ b, before = some b ∧ b.role = .assistant ∧ calls b ≠ [] := by
  have h := (Bool.and_eq_true_iff.mp h).1
  cases before with
  | none => simp [hm] at h
  | some b =>
    simp only [hm, ne_eq, not_true_eq_false, decide_false, Bool.false_or, Bool.and_eq_true, decide_eq_true_eq] at h
    obtain ⟨c, hc, hcall⟩ := List.any_eq_true.mp h.1.2
    exact ⟨b, rfl, h.1.1, List.ne_nil_of_mem (List.mem_filter.mpr ⟨hc, hcall⟩)⟩

theorem closed_of_role (hm : m.role ≠ .assistant) (h : validToolPairs (some m) messages = true)
    (hp : Paired pending messages) : pending = [] := by
  induction messages generalizing m pending with
  | nil =>
    cases hp
    rfl
  | cons n messages ih =>
    have hnext : validToolPairs (some n) messages = true := (Bool.and_eq_true_iff.mp h).2
    cases hp with
    | user | assistant => rfl
    | system hn hp => exact ih (by simp [hn]) hnext hp
    | tool hn =>
      obtain ⟨b, hmb, hb, -⟩ := valid_tool hn h
      exact absurd (Option.some.inj hmb ▸ hb) hm

theorem paired_iff_answered (h : validToolPairs before messages = true) :
    Paired (opened before) messages ↔ AnsweredNext (opened before) messages ∧ CallsAnswered messages := by
  induction messages generalizing before with
  | nil =>
    constructor
    · intro hp
      generalize opened before = pending at hp
      cases hp
      exact ⟨fun hne => absurd rfl hne, trivial⟩
    · intro ⟨hnext, _⟩
      by_cases hne : opened before = []
      · rw [hne]
        exact .done
      · obtain ⟨t, ht, -⟩ := hnext hne
        cases ht
  | cons m messages ih =>
    have hvalid : validToolPairs (some m) messages = true := (Bool.and_eq_true_iff.mp h).2
    have hrest := ih hvalid
    have hnext : AnsweredNext (opened before) (m :: messages) ↔
        opened before = [] ∨ m.role = .tool ∧ Answers (opened before) (results m) [] := by
      simp [AnsweredNext, or_iff_not_imp_left]
    have hclosed : m.role ≠ .assistant → (Paired [] messages ↔ CallsAnswered (m :: messages)) := by
      intro hm
      rw [opened_of_role hm] at hrest
      simp [hrest, AnsweredNext, CallsAnswered, hm]
    have hopen : m.role = .tool → opened before ≠ [] := by
      intro hm
      obtain ⟨b, hb, hrole, hcalls⟩ := valid_tool hm h
      simpa [hb, opened, hrole] using hcalls
    rw [hnext]
    clear hnext ih h
    generalize opened before = pending at hopen ⊢
    constructor
    · intro hp
      cases hp with
      | system hm hp =>
        have hm' : m.role ≠ .assistant := by simp [hm]
        have hnil := closed_of_role hm' hvalid hp
        exact ⟨.inl hnil, (hclosed hm').mp (hnil ▸ hp)⟩
      | user hm hp => exact ⟨.inl rfl, (hclosed (by simp [hm])).mp hp⟩
      | assistant hm hp =>
        rw [opened, if_pos hm] at hrest
        exact ⟨.inl rfl, fun _ => (hrest.mp hp).1, (hrest.mp hp).2⟩
      | tool hm ha hp =>
        have hm' : m.role ≠ .assistant := by simp [hm]
        have hnil := closed_of_role hm' hvalid hp
        exact ⟨.inr ⟨hm, hnil ▸ ha⟩, (hclosed hm').mp (hnil ▸ hp)⟩
    · intro ⟨hp, hcalls⟩
      cases hm : m.role with
      | system =>
        have hnil := hp.resolve_right (fun ht => nomatch hm.symm.trans ht.1)
        exact hnil ▸ .system hm ((hclosed (by simp [hm])).mpr hcalls)
      | user =>
        have hnil := hp.resolve_right (fun ht => nomatch hm.symm.trans ht.1)
        exact hnil ▸ .user hm ((hclosed (by simp [hm])).mpr hcalls)
      | assistant =>
        have hnil := hp.resolve_right (fun ht => nomatch hm.symm.trans ht.1)
        rw [opened, if_pos hm] at hrest
        exact hnil ▸ .assistant hm (hrest.mpr ⟨hcalls.1 hm, hcalls.2⟩)
      | tool => exact .tool hm (hp.resolve_left (hopen hm)).2 ((hclosed (by simp [hm])).mpr hcalls)

/-- What the check accepts is paired both ways exactly where each assistant message with calls
is directly followed by one result for each. -/
theorem accepted_paired_iff [DecidableEq κ] {original candidate compacted : List (Message κ)}
    (h : validateCompactedMessages original candidate = some compacted) : Paired [] compacted ↔ CallsAnswered compacted := by
  rw [validateCompactedMessages, Option.ite_none_left_eq_some, Option.ite_none_right_eq_some] at h
  obtain ⟨-, ⟨-, -, hvalid⟩, heq⟩ := h
  rw [Option.some.injEq] at heq
  subst heq
  have hpaired := paired_iff_answered hvalid
  simpa [opened, AnsweredNext] using hpaired

def question : Message Unit := ⟨.user, [.text "And tomorrow".toList]⟩

def forecastCall : Message Unit := ⟨.assistant, [.toolCall (some "1".toList) "forecast".toList []]⟩

def forecastResult : Message Unit := ⟨.tool, [.toolResult (some "1".toList) "forecast".toList (.value (.other ())) false]⟩

theorem accepted_paired_forecast :
    validateCompactedMessages [question] [forecastCall, forecastResult, question] =
        some [forecastCall, forecastResult, question] ∧
      (Paired [] [forecastCall, forecastResult, question] ↔ CallsAnswered [forecastCall, forecastResult, question]) :=
  ⟨by decide, @accepted_paired_iff _ _ [question] [forecastCall, forecastResult, question] _ (by decide)⟩

/-- A call without its result is accepted. -/
theorem unanswered_accepted :
    ∃ original candidate : List (Message Unit), validateCompactedMessages original candidate = some candidate ∧
      ¬ Paired [] candidate := by
  refine ⟨[question], [forecastCall, question], by decide, ?_⟩
  intro h
  cases h with
  | assistant _ h => nomatch h
  | system h | user h | tool h => contradiction

end Kirara.CompactedTurns
