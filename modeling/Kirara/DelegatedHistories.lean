import Kirara.AgentMessages

namespace Kirara.DelegatedHistories

open Kirara.Channels Kirara.AgentMessages

variable {κ : Type}

/-- What a file of the `SessionStore` holds. -/
inductive Payload (κ : Type) where
  | invalid
  | history (agentId : Option Text) (messages : List (Message κ))

/-- The files, each under the session key and the id whose digest names it. -/
abbrev Files (κ : Type) := Text × Option Text → Option (Payload κ)

def saveHistory (files : Files κ) (sessionKey agentId : Text) (messages : List (Message κ)) : Files κ :=
  Function.update files (sessionKey, some agentId) (some (.history (some agentId) messages))

def loadHistory (files : Files κ) (sessionKey agentId : Text) : Option (List (Message κ)) :=
  match (files (sessionKey, some agentId)).or (files (sessionKey, none)) with
  | none => some []
  | some .invalid => none
  | some (.history stored messages) => if stored = some agentId then some messages else some []

theorem load_saveHistory (files : Files κ) (sessionKey agentId other : Text) (messages : List (Message κ)) :
    loadHistory (saveHistory files sessionKey agentId messages) sessionKey other =
      if agentId = other then some messages else loadHistory files sessionKey other := by
  by_cases h : agentId = other
  · subst h
    simp [loadHistory, saveHistory]
  · simp [loadHistory, saveHistory, Function.update_of_ne, Ne.symm h, h]

section Turns

inductive RuntimeStatus where
  | completed
  | awaitingConfirmation
  | failed
  deriving DecidableEq

structure RuntimeResult (κ : Type) where
  status : RuntimeStatus
  messages : List (Message κ)
  response : Option (Message κ)

/-- What happens in a turn: the tasks it hands on, and what its loop comes to. -/
inductive Course (κ : Type) where
  | ended (loop : List (Message κ) → RuntimeResult κ) (writable : Bool)
  | delegate (teammateId task : Text) (inner rest : Course κ)

structure Agents where
  enabled : Text → Bool
  system : Text → Text

def buildMessages (system : Text) (history : List (Message κ)) (message : Text) : List (Message κ) :=
  ⟨.system, [.text system]⟩ :: history ++ [⟨.user, [.text message]⟩]

def RuntimeResult.history (r : RuntimeResult κ) : Option (List (Message κ)) :=
  r.response.map (fun response => r.messages.filter (fun m => m.role ≠ .system) ++ [response])

def persistHistory (files : Files κ) (sessionKey agentId : Text) (r : RuntimeResult κ) : Files κ :=
  match r.history with
  | none => files
  | some messages => saveHistory files sessionKey agentId messages

variable (A : Agents) (sessionKey : Text)

/-- `run`, from the messages it has built on. -/
def runTurn (agentId : Text) (messages : List (Message κ)) : Course κ → Files κ → Files κ
  | .ended loop writable, files =>
    if (loop messages).status = .completed ∧ writable then persistHistory files sessionKey agentId (loop messages) else files
  | .delegate teammateId task inner rest, files =>
    runTurn agentId messages rest
      (if strip task = [] ∨ A.enabled teammateId = false then files
      else runTurn teammateId (buildMessages (A.system teammateId) [] (strip task)) inner files)

def delegateToTeammate (teammateId task : Text) (inner : Course κ) (files : Files κ) : Files κ :=
  if strip task = [] ∨ A.enabled teammateId = false then files
  else runTurn A sessionKey teammateId (buildMessages (A.system teammateId) [] (strip task)) inner files

end Turns

variable {A : Agents} {sessionKey agentId : Text} {messages : List (Message κ)}

def Course.conversation (A : Agents) (teammate agentId : Text) (messages : List (Message κ)) :
    Course κ → Option (List (Message κ))
  | .ended loop writable =>
    if agentId = teammate ∧ (loop messages).status = .completed ∧ writable then (loop messages).history else none
  | .delegate id task inner rest =>
    (rest.conversation A teammate agentId messages).or
      (if strip task = [] ∨ A.enabled id = false then none
      else inner.conversation A teammate id (buildMessages (A.system id) [] (strip task)))

theorem load_runTurn (course : Course κ) (files : Files κ) (teammate : Text) :
    loadHistory (runTurn A sessionKey agentId messages course files) sessionKey teammate =
      (course.conversation A teammate agentId messages).or (loadHistory files sessionKey teammate) := by
  induction course generalizing agentId messages files with
  | ended loop writable =>
    rw [runTurn, Course.conversation]
    by_cases hdone : (loop messages).status = .completed ∧ writable
    · rw [if_pos hdone, persistHistory]
      cases (loop messages).history with
      | none => simp
      | some saved =>
        rw [load_saveHistory]
        by_cases h : agentId = teammate <;> simp [h, hdone]
    · rw [if_neg hdone, if_neg (fun h => hdone h.2), Option.none_or]
  | delegate id task inner rest ihInner ihRest =>
    rw [runTurn, Course.conversation, ihRest, Option.or_assoc]
    split
    · rw [Option.none_or]
    · rw [ihInner]

def StillBegins (sessionKey teammate : Text) (files files' : Files κ) : Prop :=
  ∀ stored, loadHistory files sessionKey teammate = some stored →
    ∃ stored', loadHistory files' sessionKey teammate = some stored' ∧ stored <+: stored'

/-- No turn of the teammate completes in the task, or its last extends what was stored. -/
def Spares (A : Agents) (sessionKey teammate task : Text) (inner : Course κ) (files : Files κ) : Prop :=
  strip task = [] ∨ A.enabled teammate = false ∨
    ∀ conversation ∈ inner.conversation A teammate teammate (buildMessages (A.system teammate) [] (strip task)),
      ∀ stored, loadHistory files sessionKey teammate = some stored → stored <+: conversation

def greeting : Message Unit := ⟨.user, [.text "I am Ann".toList]⟩

def answer : Message Unit := ⟨.assistant, [.text "Done".toList]⟩

end Kirara.DelegatedHistories
