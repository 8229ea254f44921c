import Kirara.AgentMessages

namespace Kirara.Compaction

open Kirara.AgentMessages

variable {κ : Type}

section Sizes

variable (jsonSize : AgentMessages.Part κ → Nat)

def partSize : AgentMessages.Part κ → Nat
  | .text t => t.length
  | .image mediaId => "[image:]".length + mediaId.length
  | p => jsonSize p

/-- The length of `_message_text`: the parts, joined by newlines. -/
def messageSize (m : Message κ) : Nat :=
  (m.content.map (partSize jsonSize)).sum + (m.content.length - 1)

def estimateMessagesChars (messages : List (Message κ)) : Nat :=
  (messages.map (messageSize jsonSize)).sum

def groupTurns (history : List (Message κ)) : List (List (Message κ)) :=
  (history.foldr (fun m (x : List (Message κ) × List (List (Message κ))) =>
    if m.role = .user then ([], (m :: x.1) :: x.2) else (m :: x.1, x.2)) ([], [])).2

def fitTurns (threshold : Int) (head current : List (Message κ)) :
    List (List (Message κ)) → List (Message κ)
  | [] => head ++ current
  | turn :: turns =>
    if (estimateMessagesChars jsonSize (head ++ (turn :: turns).flatten ++ current) : Int) ≤ threshold then
      head ++ (turn :: turns).flatten ++ current
    else fitTurns threshold head current turns

def defaultCompactMessages (threshold : Int) (messages : List (Message κ)) : List (Message κ) :=
  match (throughUser messages).getLast? with
  | none => messages
  | some user =>
    let head := (messages.find? (fun m => m.role = .system)).toList
    let start := if head = [] then 0 else messages.findIdx (fun m => m.role = .system) + 1
    fitTurns jsonSize threshold head (user :: afterUser messages)
      (groupTurns ((throughUser messages).dropLast.drop start))

theorem fitTurns_eq (threshold : Int) (head current : List (Message κ)) (turns : List (List (Message κ))) :
    ∃ front, fitTurns jsonSize threshold head current turns = front ++ current := by
  induction turns with
  | nil => exact ⟨head, rfl⟩
  | cons turn turns ih =>
    unfold fitTurns
    split
    · exact ⟨_, rfl⟩
    · exact ih

end Sizes

section Turn

variable {messages : List (Message κ)}

/-- The turn of the latest user's message ends the compacted messages. -/
structure KeepsTurn (messages compacted : List (Message κ)) : Prop where
  hasUser : HasUser compacted
  afterUser : afterUser compacted = afterUser messages

theorem keepsTurn_of_suffix {front compacted : List (Message κ)} {u : Message κ}
    (hu : u.role = .user) (h : compacted = front ++ u :: afterUser messages) :
    KeepsTurn messages compacted := by
  subst h
  refine ⟨⟨u, by simp, hu⟩, afterUser_of_user front hu (fun m hm => role_of_mem_afterUser hm)⟩

theorem throughUser_getLast (h : HasUser messages) :
    ∃ u, (throughUser messages).getLast? = some u ∧ u.role = .user := by
  obtain ⟨front, u, hsplit, hu⟩ := exists_user_split h
  have hback : throughUser messages ++ afterUser messages = (front ++ [u]) ++ afterUser messages := by
    rw [throughUser_append_afterUser, List.append_assoc]
    exact hsplit
  have hthrough : throughUser messages = front ++ [u] := List.append_cancel_right hback
  exact ⟨u, by simp [hthrough], hu⟩

variable {jsonSize : AgentMessages.Part κ → Nat} {threshold : Int}

theorem keepsTurn_default (h : HasUser messages) :
    KeepsTurn messages (defaultCompactMessages jsonSize threshold messages) := by
  obtain ⟨u, hlast, hu⟩ := throughUser_getLast h
  unfold defaultCompactMessages
  rw [hlast]
  obtain ⟨front, hfront⟩ := fitTurns_eq jsonSize threshold
    (messages.find? (fun m => m.role = .system)).toList (u :: afterUser messages) _
  exact keepsTurn_of_suffix hu hfront

end Turn

section Custom

def isCallOf (r : AgentMessages.Part κ) (c : AgentMessages.Part κ) : Bool :=
  match r, c with
  | .toolResult (some (i :: id)) _ _ _, .toolCall callId _ _ => callId = some (i :: id)
  | .toolResult _ name _ _, .toolCall _ callName _ => callName = name
  | _, _ => false

def AgentMessages.Part.isResult : AgentMessages.Part κ → Bool
  | .toolResult _ _ _ _ => true
  | _ => false

def AgentMessages.Part.isCall : AgentMessages.Part κ → Bool
  | .toolCall _ _ _ => true
  | _ => false

/-- `_require_valid_tool_pairs`, with the message before. -/
def validToolPairs : Option (Message κ) → List (Message κ) → Bool
  | _, [] => true
  | before, m :: ms =>
    (m.role ≠ .tool || match before with
      | none => false
      | some b =>
        b.role = .assistant && b.content.any AgentMessages.Part.isCall &&
          (m.content.filter AgentMessages.Part.isResult).all (fun r => b.content.any (isCallOf r))) &&
      validToolPairs (some m) ms

variable [DecidableEq κ]

/-- `_validate_compacted_messages`. There is no result where it raises. -/
def validateCompactedMessages (original compacted : List (Message κ)) : Option (List (Message κ)) :=
  let firstSystem := original.find? (fun m => m.role = .system)
  let current := (throughUser original).getLast?.toList ++
    (if (throughUser original).getLast?.isSome then afterUser original else [])
  if firstSystem.isSome ∧ compacted.head? ≠ firstSystem then none
  else if current <:+ compacted ∧ compacted ≠ [] ∧ validToolPairs none compacted then some compacted
  else none

end Custom

variable [DecidableEq κ]

/-- `_maybe_compact_messages`. A compactor that raises gives nothing. -/
def maybeCompactMessages (jsonSize : AgentMessages.Part κ → Nat) (threshold : Int)
    (compactor : Option (List (Message κ) → Option (List (Message κ)))) (messages : List (Message κ)) :
    List (Message κ) :=
  if threshold ≤ 0 ∨ (estimateMessagesChars jsonSize messages : Int) ≤ threshold then messages
  else
    match compactor with
    | none => defaultCompactMessages jsonSize threshold messages
    | some compact =>
      match (compact messages).bind (validateCompactedMessages messages) with
      | some compacted => compacted
      | none => defaultCompactMessages jsonSize threshold messages

variable {jsonSize : AgentMessages.Part κ → Nat} {threshold : Int} {messages : List (Message κ)}

theorem keepsTurn_validate {candidate compacted : List (Message κ)} (h : HasUser messages)
    (hv : validateCompactedMessages messages candidate = some compacted) : KeepsTurn messages compacted := by
  obtain ⟨u, hlast, hu⟩ := throughUser_getLast h
  unfold validateCompactedMessages at hv
  simp only [hlast, Option.ite_none_left_eq_some, Option.ite_none_right_eq_some, Option.some.injEq] at hv
  obtain ⟨_, ⟨hsuffix, _, _⟩, rfl⟩ := hv
  obtain ⟨front, hfront⟩ := hsuffix
  exact keepsTurn_of_suffix hu (by simpa using hfront.symm)

theorem keepsTurn_maybeCompact (jsonSize : AgentMessages.Part κ → Nat) (threshold : Int)
    (compactor : Option (List (Message κ) → Option (List (Message κ)))) (h : HasUser messages) :
    KeepsTurn messages (maybeCompactMessages jsonSize threshold compactor messages) := by
  unfold maybeCompactMessages
  split
  · exact ⟨h, rfl⟩
  split
  · exact keepsTurn_default h
  split
  · next compacted hc =>
    obtain ⟨candidate, _, hv⟩ := Option.bind_eq_some_iff.mp hc
    exact keepsTurn_validate h hv
  · exact keepsTurn_default h

end Kirara.Compaction
