import Kirara.Dicts
import Kirara.LiveLists
import Kirara.Schedules

namespace Kirara.EventDeliveries

open Kirara.Dicts Kirara.LiveLists Kirara.Schedules

variable {τ ι : Type} [DecidableEq τ] [DecidableEq ι]

/-- The listeners of each event type, in the order in which they were registered. -/
structure EventBus (τ ι : Type) where
  listeners : Dict τ (List ι)

def EventBus.of (bus : EventBus τ ι) (eventType : τ) : List ι := (bus.listeners.get eventType).getD []

def register (eventType : τ) (listener : ι) (bus : EventBus τ ι) : EventBus τ ι :=
  ⟨bus.listeners.set eventType (bus.of eventType ++ [listener])⟩

inductive Error where
  | valueError
  | attributeError
  | fromListener
deriving DecidableEq

/-- `list.remove` takes out the first, and raises where there is none. -/
def unregister (eventType : τ) (listener : ι) (bus : EventBus τ ι) : Except Error (EventBus τ ι) :=
  match bus.listeners.get eventType with
  | none => .ok bus
  | some listeners =>
    if listener ∈ listeners then .ok ⟨bus.listeners.set eventType (listeners.erase listener)⟩ else .error .valueError

/-- `PluginEventBus.unregister_all`, of a plugin's listeners. -/
def unregisterAll (registered : List ι) (bus : EventBus τ ι) : EventBus τ ι :=
  registered.foldl (fun bus listener =>
    bus.listeners.keys.foldl (fun bus eventType =>
      if listener ∈ bus.of eventType then
        match unregister eventType listener bus with
        | .ok bus => bus
        | .error _ => bus
      else bus) bus) bus

/-- What a listener does: it changes the bus, then returns or raises. -/
inductive Step (τ ι : Type) where
  | call
  | register (eventType : τ) (listener : ι)
  | unregister (eventType : τ) (listener : ι)
  | returns
  | raises (isException : Bool)

/-- A running `post`: its place in the live list, what it has called and what was raised. -/
structure Delivery (τ ι : Type) where
  bus : EventBus τ ι
  eventType : τ
  position : Nat
  calling : Option ι
  raised : Option Error
  first : List ι
  calls : List ι
  unregistered : List ι

def posting (bus : EventBus τ ι) (eventType : τ) : Delivery τ ι :=
  ⟨bus, eventType, 0, none, none, bus.of eventType, [], []⟩

def Delivery.listeners (d : Delivery τ ι) : List ι := d.bus.of d.eventType

def Delivery.passed (d : Delivery τ ι) : List ι := d.listeners.take d.position

def Delivery.waiting (d : Delivery τ ι) : List ι := d.listeners.drop d.position

/-- `named` tells which listeners have a `__name__`. -/
def next (named : ι → Bool) (d : Delivery τ ι) : Step τ ι → Option (Delivery τ ι)
  | .call =>
    if d.raised.isSome || d.calling.isSome then none
    else
      match d.listeners[d.position]? with
      | none => none
      | some listener =>
        some { d with position := d.position + 1, calling := some listener, calls := d.calls ++ [listener] }
  | .register eventType listener =>
    if d.calling.isSome then some { d with bus := register eventType listener d.bus } else none
  | .unregister eventType listener =>
    if d.calling.isSome then
      match unregister eventType listener d.bus with
      | .error _ => some d
      | .ok bus =>
        some { d with
          bus := bus
          unregistered := if eventType = d.eventType then d.unregistered ++ [listener] else d.unregistered }
    else none
  | .returns => if d.calling.isSome then some { d with calling := none } else none
  | .raises isException =>
    match d.calling with
    | none => none
    | some listener =>
      if !isException then some { d with calling := none, raised := some .fromListener }
      else if named listener then some { d with calling := none }
      else some { d with calling := none, raised := some .attributeError }

/-- The listeners there when `post` began and not unregistered since. -/
def Delivery.required (d : Delivery τ ι) : List ι := (firsts d.first).filter (fun l => l ∉ d.unregistered)

def Delivery.due (d : Delivery τ ι) : List ι := d.required.filter (fun l => l ∉ d.calls)

structure Delivering (d : Delivery τ ι) : Prop where
  quiet : d.raised = none
  /-- Those called are the first of those to be called, once and in order. -/
  order : d.calls.filter (fun l => l ∈ d.required) ++ d.due = d.required
  waits : d.due.Sublist d.waiting

/-- No listener is called twice or passed over, and only named ones raise. -/
def Meets (named : ι → Bool) (d : Delivery τ ι) : Step τ ι → Prop
  | .call => ∀ l ∈ d.waiting.head?, l ∈ d.required → d.due.head? = some l
  | .unregister eventType listener => eventType = d.eventType → listener ∈ d.passed →
      (d.due.filter (fun l => l ≠ listener)).Sublist d.waiting.tail
  | .raises isException => isException = true ∧ ∀ l ∈ d.calling, named l = true
  | .register _ _ => True
  | .returns => True

variable {eventType other : τ} {listener : ι} {bus : EventBus τ ι}

omit [DecidableEq ι] in
theorem of_register : (register eventType listener bus).of other =
    if other = eventType then bus.of eventType ++ [listener] else bus.of other := by
  unfold EventBus.of register
  rw [Dict.get_set]
  split <;> rfl

theorem mem_of_unregister_error {e : Error} (h : unregister eventType listener bus = .error e) :
    listener ∉ bus.of eventType := by
  unfold unregister at h
  split at h
  · cases h
  · next listeners hsome =>
    split at h
    · cases h
    · next hnot => simpa [EventBus.of, hsome] using hnot

theorem unregister_cases {bus' : EventBus τ ι} (h : unregister eventType listener bus = .ok bus') (other : τ) :
    bus'.of other = if other = eventType then (bus.of eventType).erase listener else bus.of other := by
  unfold unregister at h
  split at h
  · next hnone =>
    cases h
    split
    · next heq => simp [EventBus.of, heq, hnone]
    · rfl
  · next listeners hsome =>
    split at h
    · cases h
      unfold EventBus.of
      rw [Dict.get_set, hsome]
      split <;> rfl
    · cases h

section Steps

variable {named : ι → Bool} {d d' : Delivery τ ι} {l : Step τ ι}

theorem call_spec (h : next named d .call = some d') : ∃ listener, d.waiting = listener :: d'.waiting ∧
    d'.calls = d.calls ++ [listener] ∧ d'.required = d.required ∧ d'.raised = d.raised := by
  simp only [next] at h
  split at h
  · cases h
  split at h
  · cases h
  · next listener hget =>
    cases h
    refine ⟨listener, ?_, rfl, rfl, rfl⟩
    obtain ⟨hlt, hget⟩ := List.getElem?_eq_some_iff.mp hget
    unfold Delivery.waiting
    rw [List.drop_eq_getElem_cons hlt, hget]
    rfl

omit [DecidableEq τ] in
theorem due_call {listener : ι} (hcalls : d'.calls = d.calls ++ [listener]) (hrequired : d'.required = d.required) :
    d'.due = d.due.filter (fun l => l ≠ listener) := by
  unfold Delivery.due
  rw [hcalls, hrequired, List.filter_filter]
  apply List.filter_congr
  intro x _
  simp [and_comm]

omit [DecidableEq τ] in
theorem nodup_due (d : Delivery τ ι) : d.due.Nodup := ((nodup_firsts d.first).filter _).filter _

theorem call_iff (hd : Delivering d) (h : next named d .call = some d') : Meets named d .call ↔ Delivering d' := by
  obtain ⟨listener, hwaiting, hcalls, hrequired, hraised⟩ := call_spec h
  have hdue := due_call hcalls hrequired
  have horder := hd.order
  have hwaits := hd.waits
  rw [hwaiting] at hwaits
  simp only [Meets, hwaiting, List.head?_cons, Option.mem_some_iff, forall_eq']
  by_cases hmem : listener ∈ d.required
  · have hcalled : d'.calls.filter (fun l => l ∈ d'.required) = d.calls.filter (fun l => l ∈ d.required) ++ [listener] := by
      rw [hcalls, hrequired, List.filter_append, List.filter_cons_of_pos (by simpa using hmem), List.filter_nil]
    constructor
    · intro hhead
      obtain ⟨rest, hrest⟩ := List.head?_eq_some_iff.mp (hhead hmem)
      have hnodup := nodup_due d
      rw [hrest, List.nodup_cons] at hnodup
      have hkeep : rest.filter (fun l => l ≠ listener) = rest := by
        rw [List.filter_eq_self]
        intro x hx
        simpa using fun heq : x = listener => hnodup.1 (heq ▸ hx)
      rw [hrest, List.filter_cons_of_neg (by simp), hkeep] at hdue
      refine ⟨hraised.trans hd.quiet, ?_, ?_⟩
      · rw [hrest] at horder
        rw [hcalled, hdue, hrequired, List.append_assoc, List.singleton_append]
        exact horder
      · rw [hrest] at hwaits
        rw [hdue]
        exact hwaits.of_cons_cons
    · intro hd' _
      have hsame := hd'.order
      rw [hcalled, hrequired] at hsame
      have hrest := hsame.trans horder.symm
      rw [List.append_assoc, List.append_cancel_left_eq] at hrest
      rw [← hrest]
      rfl
  · have hfresh : listener ∉ d.due := fun hin => hmem (List.mem_of_mem_filter hin)
    have hsame : d'.due = d.due := by
      rw [hdue, List.filter_eq_self]
      intro x hx
      simpa using fun heq : x = listener => hfresh (heq ▸ hx)
    refine iff_of_true (fun hin => absurd hin hmem) ⟨hraised.trans hd.quiet, ?_, ?_⟩
    · rw [hcalls, hrequired, hsame, List.filter_append, List.filter_cons_of_neg (by simpa using hmem), List.filter_nil,
        List.append_nil, horder]
    · rw [hsame]
      cases List.sublist_cons_iff.mp hwaits with
      | inl hrest => exact hrest
      | inr hfirst =>
        obtain ⟨rest, heq, _⟩ := hfirst
        exact absurd (heq ▸ List.mem_cons_self) hfresh

theorem unregister_spec {eventType : τ} {listener : ι} (h : next named d (.unregister eventType listener) = some d') :
    d' = d ∧ (eventType = d.eventType → listener ∉ d.listeners) ∨
    eventType ≠ d.eventType ∧ d'.waiting = d.waiting ∧ d'.required = d.required ∧ d'.calls = d.calls ∧
      d'.raised = d.raised ∨
    eventType = d.eventType ∧ d'.required = d.required.filter (fun l => l ≠ listener) ∧ d'.calls = d.calls ∧
      d'.raised = d.raised ∧
      d'.waiting = if listener ∈ d.passed then d.waiting.tail else d.waiting.erase listener := by
  simp only [next] at h
  split at h
  · split at h
    · next herror =>
      refine .inl ⟨(Option.some.inj h).symm, fun htype hmem => ?_⟩
      subst htype
      exact mem_of_unregister_error herror hmem
    · next bus hbus =>
      have hof := unregister_cases hbus d.eventType
      cases h
      refine .inr ?_
      by_cases htype : eventType = d.eventType
      · subst htype
        rw [if_pos rfl] at hof
        refine .inr ⟨rfl, ?_, rfl, rfl, ?_⟩
        · unfold Delivery.required
          rw [if_pos rfl, List.filter_filter]
          apply List.filter_congr
          intro x _
          simp [and_comm]
        · unfold Delivery.waiting Delivery.listeners
          rw [hof]
          by_cases hpassed : listener ∈ d.passed
          · rw [if_pos hpassed]
            exact drop_erase_of_passed hpassed
          · rw [if_neg hpassed]
            exact drop_erase_of_waiting hpassed
      · rw [if_neg (Ne.symm htype)] at hof
        refine .inl ⟨htype, ?_, ?_, rfl, rfl⟩
        · unfold Delivery.waiting Delivery.listeners
          rw [hof]
        · unfold Delivery.required
          rw [if_neg htype]
  · cases h

omit [DecidableEq τ] in
theorem due_eq (hrequired : d'.required = d.required) (hcalls : d'.calls = d.calls) : d'.due = d.due := by
  rw [Delivery.due, Delivery.due, hrequired, hcalls]

variable (hd : Delivering d)

include hd

theorem delivering_of_same (hrequired : d'.required = d.required) (hcalls : d'.calls = d.calls)
    (hraised : d'.raised = d.raised) (hwaits : ∀ l : List ι, l.Sublist d.waiting → l.Sublist d'.waiting) : Delivering d' where
  quiet := hraised.trans hd.quiet
  order := by rw [due_eq hrequired hcalls, hrequired, hcalls, hd.order]
  waits := by
    rw [due_eq hrequired hcalls]
    exact hwaits _ hd.waits

theorem unregister_iff {eventType : τ} {listener : ι}
    (h : next named d (.unregister eventType listener) = some d') :
    Meets named d (.unregister eventType listener) ↔ Delivering d' := by
  obtain ⟨rfl, habsent⟩ | ⟨htype, hwaiting, hrequired, hcalls, hraised⟩ | ⟨htype, hrequired, hcalls, hraised, hwaiting⟩ :=
    unregister_spec h
  · exact iff_of_true (fun htype hpassed => absurd (List.mem_of_mem_take hpassed) (habsent htype)) hd
  · exact iff_of_true (fun heq => absurd heq htype)
      (delivering_of_same hd hrequired hcalls hraised (fun _ hl => hwaiting ▸ hl))
  · have hdue : d'.due = d.due.filter (fun l => l ≠ listener) := by
      rw [Delivery.due, hrequired, hcalls, Delivery.due, List.filter_filter, List.filter_filter]
      exact List.filter_congr (fun x _ => Bool.and_comm _ _)
    have horder : d'.calls.filter (fun l => l ∈ d'.required) ++ d'.due = d'.required := by
      have hfiltered := congrArg (List.filter (fun l => l ≠ listener)) hd.order
      rw [List.filter_append, List.filter_filter] at hfiltered
      have hcalled : d.calls.filter (fun l => l ∈ d.required.filter (fun l => l ≠ listener)) =
          d.calls.filter (fun l => decide (l ≠ listener) && decide (l ∈ d.required)) := by
        apply List.filter_congr
        intro x _
        simp [and_comm]
      rw [hdue, hrequired, hcalls, hcalled]
      exact hfiltered
    have hwaits : Delivering d' ↔ d'.due.Sublist d'.waiting :=
      ⟨fun hd' => hd'.waits, fun hd' => ⟨hraised.trans hd.quiet, horder, hd'⟩⟩
    rw [hwaits, hdue, hwaiting]
    by_cases hpassed : listener ∈ d.passed
    · simp only [Meets, htype, hpassed, true_implies, if_true]
    rw [if_neg hpassed]
    exact iff_of_true (fun _ hin => absurd hin hpassed)
      ((hd.waits.filter _).trans (filter_ne_sublist_erase d.waiting listener))

theorem register_keeps {eventType : τ} {listener : ι}
    (h : next named d (.register eventType listener) = some d') : Delivering d' := by
  simp only [next] at h
  split at h
  · cases h
    refine delivering_of_same hd rfl rfl rfl (fun l hl => ?_)
    unfold Delivery.waiting Delivery.listeners
    rw [of_register]
    split
    · next htype =>
      rw [← htype]
      exact sublist_drop_append hl
    · exact hl
  · cases h

theorem returns_keeps (h : next named d .returns = some d') : Delivering d' := by
  simp only [next] at h
  split at h
  · cases h
    exact delivering_of_same hd rfl rfl rfl (fun _ hl => hl)
  · cases h

theorem raises_iff {isException : Bool} (h : next named d (.raises isException) = some d') :
    Meets named d (.raises isException) ↔ Delivering d' := by
  simp only [next] at h
  split at h
  · cases h
  · next listener hcalling =>
    simp only [Meets, hcalling, Option.mem_some_iff, forall_eq']
    split at h
    · next hother =>
      cases h
      exact iff_of_false (by simp_all) (fun hd' => nomatch hd'.quiet)
    · next hexception =>
      split at h
      · next hnamed =>
        cases h
        exact iff_of_true ⟨by simpa using hexception, hnamed⟩ (delivering_of_same hd rfl rfl rfl (fun _ hl => hl))
      · next hnamed =>
        cases h
        exact iff_of_false (fun hmeets => hnamed hmeets.2) (fun hd' => nomatch hd'.quiet)

theorem step_iff (h : next named d l = some d') : Meets named d l ↔ Delivering d' := by
  cases l with
  | call => exact call_iff hd h
  | register eventType listener => exact iff_of_true trivial (register_keeps hd h)
  | unregister eventType listener => exact unregister_iff hd h
  | returns => exact iff_of_true trivial (returns_keeps hd h)
  | raises isException => exact raises_iff hd h

end Steps

variable {named : ι → Bool} {d : Delivery τ ι}

theorem delivering_posting (bus : EventBus τ ι) (eventType : τ) : Delivering (posting bus eventType) where
  quiet := rfl
  order := by simp [Delivery.due, Delivery.required, posting]
  waits := by
    have hdue : (posting bus eventType).due = firsts (bus.of eventType) := by
      simp [Delivery.due, Delivery.required, posting]
    rw [hdue]
    exact firsts_sublist _

theorem delivered (hd : Delivering d) (h : d.waiting = []) : d.calls.filter (fun l => l ∈ d.required) = d.required := by
  have hdue := hd.waits
  rw [h, List.sublist_nil] at hdue
  have horder := hd.order
  rwa [hdue, List.append_nil] at horder

/-- A delivery is right as long as each step meets the condition, and no longer. -/
theorem post_delivers_iff (named : ι → Bool) (bus : EventBus τ ι) (eventType : τ) (steps : List (Step τ ι))
    (h : exec (next named) (posting bus eventType) steps = some d) :
    (Along (next named) (fun d l => ∀ d', next named d l = some d' → Delivering d') (posting bus eventType) steps ↔
      Along (next named) (Meets named) (posting bus eventType) steps) ∧
    (Along (next named) (Meets named) (posting bus eventType) steps → d.waiting = [] →
      d.raised = none ∧ d.calls.filter (fun l => l ∈ d.required) = d.required) := by
  have hstep : ∀ (s : Delivery τ ι) l t, Delivering s → next named s l = some t →
      ((∀ d', next named s l = some d' → Delivering d') ↔ Meets named s l) ∧ (Meets named s l → Delivering t) := by
    intro s l t hs ht
    refine ⟨?_, (step_iff hs ht).mp⟩
    rw [step_iff hs ht]
    constructor
    · exact fun hall => hall t ht
    · intro hd t' ht'
      cases ht.symm.trans ht'
      exact hd
  refine ⟨along_iff_of_exec (next named) hstep (delivering_posting bus eventType) h, fun hmeets hwaiting => ?_⟩
  have hd : Delivering d := exec_invariant (next named) (fun s l t hok hs ht => (step_iff hs ht).mp hok)
    (delivering_posting bus eventType) hmeets h
  exact ⟨hd.quiet, delivered hd hwaiting⟩

instance decidableMeets (named : ι → Bool) (d : Delivery τ ι) : ∀ l : Step τ ι, Decidable (Meets named d l)
  | .call => decidable_of_iff (d.waiting.head?.all (fun l => l ∉ d.required || d.due.head? = some l)) (by
      cases h : d.waiting.head? with
      | none => simp [Meets, h]
      | some listener =>
        simp only [Meets, h, Option.mem_some_iff, forall_eq', Option.all_some]
        simp [imp_iff_not_or])
  | .unregister eventType listener => inferInstanceAs (Decidable (eventType = d.eventType → listener ∈ d.passed →
      (d.due.filter (fun l => l ≠ listener)).Sublist d.waiting.tail))
  | .raises isException => decidable_of_iff (isException = true ∧ d.calling.all named = true)
      (by cases h : d.calling <;> simp [Meets, h])
  | .register _ _ => inferInstanceAs (Decidable True)
  | .returns => inferInstanceAs (Decidable True)

def three : EventBus ℕ ℕ := register 0 3 (register 0 2 (register 0 1 ⟨Dict.empty⟩))

/-- The first raises, the second takes out the third and registers another; the end is right. -/
theorem post_delivers_three : ∃ d, exec (next (fun _ => true)) (posting three 0)
      [.call, .raises true, .call, .unregister 0 3, .register 0 4, .returns, .call, .returns] = some d ∧
    d.waiting = [] ∧ d.raised = none ∧ d.calls = [1, 2, 4] ∧
    d.calls.filter (fun l => l ∈ d.required) = d.required := by
  have hrun : ∃ d, exec (next (fun _ => true)) (posting three 0)
      [.call, .raises true, .call, .unregister 0 3, .register 0 4, .returns, .call, .returns] = some d ∧
      d.waiting = [] ∧ d.calls = [1, 2, 4] := ⟨_, rfl, rfl, rfl⟩
  obtain ⟨d, hd, hwaiting, hcalls⟩ := hrun
  have hmeets : Along (next (fun _ => true)) (Meets (fun _ => true)) (posting three 0)
      [.call, .raises true, .call, .unregister 0 3, .register 0 4, .returns, .call, .returns] := by decide
  obtain ⟨hraised, hcalled⟩ := (post_delivers_iff (fun _ => true) three 0 _ hd).2 hmeets hwaiting
  exact ⟨d, hd, hwaiting, hraised, hcalls, hcalled⟩

/-- A listener that takes itself out hides the next, and one without a name that raises ends the
delivery with an error. -/
theorem next_listener_skipped : (∃ d, exec (next (fun _ => true)) (posting three 0)
        [.call, .unregister 0 1, .returns, .call, .returns] = some d ∧
      d.waiting = [] ∧ d.calls = [1, 3] ∧ d.required = [2, 3] ∧ ¬ Delivering d) ∧
    ∃ d, exec (next (fun _ => false)) (posting three 0) [.call, .raises true] = some d ∧
      d.raised = some .attributeError ∧ d.calls = [1] ∧ d.required = [1, 2, 3] ∧ ¬ Delivering d := by
  refine ⟨⟨_, rfl, rfl, rfl, rfl, fun h => ?_⟩, _, rfl, rfl, rfl, rfl, fun h => nomatch h.quiet⟩
  exact absurd (delivered h rfl) (by decide)

end Kirara.EventDeliveries
