import Kirara.Channels

namespace Kirara.AgentMessages

open Kirara.Channels

inductive Role where
  | system
  | user
  | assistant
  | tool
  deriving DecidableEq

/-- A JSON value. All but the strings are opaque. -/
inductive Json (κ : Type) where
  | text (t : Text)
  | other (a : κ)
  deriving DecidableEq

abbrev Arguments (κ : Type) := List (Text × Json κ)

/-- What a tool result holds: a value, or the dict of an error message. -/
inductive Content (κ : Type) where
  | value (v : Json κ)
  | error (message : Text)
  deriving DecidableEq

inductive Part (κ : Type) where
  | text (t : Text)
  | image (mediaId : Text)
  | toolCall (id : Option Text) (name : Text) (parameters : Arguments κ)
  | toolResult (id : Option Text) (name : Text) (content : Content κ) (isError : Bool)
  deriving DecidableEq

/-- An `LLMChatMessage`. -/
structure Message (κ : Type) where
  role : Role
  content : List (Part κ)
  deriving DecidableEq

structure Function (κ : Type) where
  name : Option Text
  arguments : Option (Arguments κ)

structure ToolCall (κ : Type) where
  id : Option Text
  function : Option (Function κ)

variable {κ : Type}

def ToolCall.functionName (call : ToolCall κ) : Option Text :=
  match call.function with
  | none => none
  | some f =>
    match f.name with
    | none => none
    | some name => if name = [] then none else some name

def ToolCall.name (call : ToolCall κ) : Text := call.functionName.getD "unknown".toList

def ToolCall.arguments (call : ToolCall κ) : Arguments κ :=
  ((call.function.map Function.arguments).join).getD []

def ToolCall.identity (call : ToolCall κ) : Option Text × Text := (call.id, call.name)

def assistantToolMessage (call : ToolCall κ) : Message κ :=
  ⟨.assistant, [.toolCall call.id call.name call.arguments]⟩

def errorResult (call : ToolCall κ) (message : Text) : Part κ :=
  .toolResult call.id call.name (.error message) true

def valueResult (call : ToolCall κ) (v : Json κ) (isError : Bool) : Part κ :=
  .toolResult call.id call.name (.value v) isError

def afterUser (messages : List (Message κ)) : List (Message κ) :=
  (messages.reverse.takeWhile (fun m => m.role ≠ .user)).reverse

def throughUser (messages : List (Message κ)) : List (Message κ) :=
  (messages.reverse.dropWhile (fun m => m.role ≠ .user)).reverse

def HasUser (messages : List (Message κ)) : Prop := ∃ m ∈ messages, m.role = .user

theorem throughUser_append_afterUser (messages : List (Message κ)) :
    throughUser messages ++ afterUser messages = messages := by
  unfold throughUser afterUser
  rw [← List.reverse_append, List.takeWhile_append_dropWhile, List.reverse_reverse]

variable {messages : List (Message κ)}

theorem role_of_mem_afterUser {m : Message κ} (h : m ∈ afterUser messages) : m.role ≠ .user := by
  have hm := List.mem_takeWhile_imp (List.mem_reverse.mp h)
  simpa using hm

theorem afterUser_append {front back : List (Message κ)} (h : ∀ m ∈ back, m.role ≠ .user) :
    afterUser (front ++ back) = afterUser front ++ back := by
  unfold afterUser
  rw [List.reverse_append, List.takeWhile_append_of_pos (by simpa using h), List.reverse_append,
    List.reverse_reverse]

variable (front : List (Message κ))

theorem afterUser_of_user {back : List (Message κ)} {u : Message κ} (hu : u.role = .user)
    (h : ∀ m ∈ back, m.role ≠ .user) : afterUser (front ++ u :: back) = back := by
  have hcons : front ++ u :: back = (front ++ [u]) ++ back := by simp
  rw [hcons, afterUser_append h]
  simp [afterUser, hu]

theorem afterUser_append_of_hasUser {back : List (Message κ)} (h : HasUser back) :
    afterUser (front ++ back) = afterUser back := by
  unfold afterUser
  rw [List.reverse_append, List.takeWhile_append]
  have hlt : ¬ (back.reverse.takeWhile (fun m => m.role ≠ .user)).length = back.reverse.length := by
    intro hlen
    obtain ⟨u, hu, hrole⟩ := h
    have hall := List.takeWhile_eq_self_iff.mp
      ((List.takeWhile_prefix _).eq_of_length hlen) u (List.mem_reverse.mpr hu)
    simp [hrole] at hall
  rw [if_neg hlt]

theorem exists_user_split (h : HasUser messages) :
    ∃ front u, messages = front ++ u :: afterUser messages ∧ u.role = .user := by
  have hsplit := throughUser_append_afterUser messages
  unfold throughUser at hsplit
  cases hd : messages.reverse.dropWhile (fun m => m.role ≠ .user) with
  | nil =>
    obtain ⟨u, hu, hrole⟩ := h
    have hall := List.dropWhile_eq_nil_iff.mp hd u (List.mem_reverse.mpr hu)
    simp [hrole] at hall
  | cons u rest =>
    have hhead := List.head?_dropWhile_not (fun m : Message κ => decide (m.role ≠ .user)) messages.reverse
    rw [hd, List.reverse_cons, List.append_assoc] at hsplit
    rw [hd] at hhead
    exact ⟨rest.reverse, u, hsplit.symm, by simpa using hhead⟩

/-- What the executor reads of a `HookOutcome`. -/
structure HookOutcome (κ : Type) where
  blocked : Bool
  reasons : List Text
  additionalContext : List Text
  systemMessages : List Text
  permissionReason : Option Text
  permissionBehavior : Option Text
  updatedInput : Option (Arguments κ)

def injectHookContext (messages : List (Message κ)) (outcomes : List (HookOutcome κ)) :
    List (Message κ) :=
  let parts := outcomes.flatMap (fun o => o.systemMessages ++ o.additionalContext)
  if parts = [] then messages
  else
    let hook : Message κ := ⟨.system, [.text (['\n', '\n'].intercalate parts)]⟩
    match messages with
    | m :: ms => if m.role = .system then m :: hook :: ms else hook :: m :: ms
    | [] => [hook]

variable {outcomes : List (HookOutcome κ)}

theorem hasUser_injectHookContext (h : HasUser messages) : HasUser (injectHookContext messages outcomes) := by
  obtain ⟨u, hu, hrole⟩ := h
  unfold injectHookContext
  dsimp only
  split
  · exact ⟨u, hu, hrole⟩
  split
  · split
    · refine ⟨u, ?_, hrole⟩
      cases List.mem_cons.mp hu with
      | inl he => exact he ▸ List.mem_cons_self
      | inr hm => exact List.mem_cons_of_mem _ (List.mem_cons_of_mem _ hm)
    · exact ⟨u, List.mem_cons_of_mem _ hu, hrole⟩
  · cases hu

theorem afterUser_injectHookContext
    (h : HasUser messages) : afterUser (injectHookContext messages outcomes) = afterUser messages := by
  obtain ⟨front, u, hsplit, hrole⟩ := exists_user_split h
  have hback : ∀ m ∈ afterUser messages, m.role ≠ .user := fun m hm => role_of_mem_afterUser hm
  unfold injectHookContext
  dsimp only
  split
  · rfl
  split
  · next _ m ms =>
    split
    · next hsys =>
      cases front with
      | nil =>
        cases (List.cons.inj hsplit).1
        rw [hrole] at hsys
        cases hsys
      | cons f front =>
        obtain ⟨rfl, hms⟩ := List.cons.inj hsplit
        generalize afterUser (m :: ms) = back at hms hback
        subst hms
        exact afterUser_of_user (m :: _ :: front) hrole hback
    · exact afterUser_append_of_hasUser [_] h
  · obtain ⟨u, hu, _⟩ := h
    cases hu

end Kirara.AgentMessages
