import Kirara.Channels
import Kirara.Fallible
import Kirara.Precedence

namespace Kirara.HookVerdicts

open Kirara.Channels Kirara.Fallible Kirara.Precedence

inductive HookEvent where
  | preToolUse
  | permissionRequest
  | postToolUse
  | preCompact
  | postCompact
  | sessionStart
  | sessionEnd
  | userPromptSubmit
  | subagentStart
  | subagentStop
  | stop
  deriving DecidableEq

def HookEvent.name : HookEvent → Text
  | .preToolUse => "PreToolUse".toList
  | .permissionRequest => "PermissionRequest".toList
  | .postToolUse => "PostToolUse".toList
  | .preCompact => "PreCompact".toList
  | .postCompact => "PostCompact".toList
  | .sessionStart => "SessionStart".toList
  | .sessionEnd => "SessionEnd".toList
  | .userPromptSubmit => "UserPromptSubmit".toList
  | .subagentStart => "SubagentStart".toList
  | .subagentStop => "SubagentStop".toList
  | .stop => "Stop".toList

/-- What a hook returns. Objects that the runtime does not look into are opaque. -/
inductive Value (α : Type) where
  | null
  | bool (b : Bool)
  | text (t : Text)
  | mapping (isDict : Bool) (entries : List (Text × Value α))
  | other (hashable : Bool) (a : α)

section Values

variable {α : Type}

def Value.entry (v : Value α) (key : Text) : Option (Value α) :=
  match v with
  | .mapping _ entries => (entries.find? (fun e => e.1 = key)).map Prod.snd
  | _ => none

/-- `value.get(key)`. -/
def Value.get (v : Value α) (key : Text) : Value α := (v.entry key).getD .null

def Value.isNull : Value α → Bool
  | .null => true
  | _ => false

def Value.isMapping : Value α → Bool
  | .mapping _ _ => true
  | _ => false

def Value.asDict : Value α → Option (List (Text × Value α))
  | .mapping true entries => some entries
  | _ => none

def Value.asText : Value α → Option Text
  | .text t => some t
  | _ => none

def Value.isText (v : Value α) (t : String) : Bool := v.asText = some t.toList

def Value.isHashable : Value α → Bool
  | .mapping _ _ => false
  | .other hashable _ => hashable
  | _ => true

end Values

inductive Failure where
  | valueError (message : Text)
  | typeError
  deriving DecidableEq

def Failure.name : Failure → Text
  | .valueError _ => "ValueError".toList
  | .typeError => "TypeError".toList

def fail {β : Type} (message : String) : Except Failure β := .error (.valueError message.toList)

structure ParsedOutput (α : Type) where
  blocked : Bool
  reason : Option Text
  additionalContext : Option Text
  systemMessage : Option Text
  continueExecution : Bool
  stopReason : Option Text
  suppressOutput : Bool
  permissionDecision : Option Text
  permissionDecisionReason : Option Text
  updatedInput : Option (List (Text × Value α))
  permissionBehavior : Option Text

def ParsedOutput.empty {α : Type} : ParsedOutput α where
  blocked := false
  reason := none
  additionalContext := none
  systemMessage := none
  continueExecution := true
  stopReason := none
  suppressOutput := false
  permissionDecision := none
  permissionDecisionReason := none
  updatedInput := none
  permissionBehavior := none

section Fields

variable {α : Type}

def optionalBool (v : Value α) (key : String) (default : Bool) : Except Failure Bool :=
  match v.entry key.toList with
  | none => .ok default
  | some (.bool b) => .ok b
  | some _ => .error (.valueError ("hook output ".toList ++ key.toList ++ " must be boolean".toList))

def optionalText (v : Value α) (label : String) : Except Failure (Option Text) :=
  match v with
  | .null => .ok none
  | .text t =>
    let trimmed := strip t
    if trimmed = [] ∨ 4096 < (trimmed.map Char.utf8Size).sum then
      .error (.valueError ("hook output ".toList ++ label.toList ++ " is invalid".toList))
    else .ok (some trimmed)
  | _ => .error (.valueError ("hook output ".toList ++ label.toList ++ " must be text".toList))

def specificOutput (v : Value α) : Except Failure (Value α) :=
  match v.get "hookSpecificOutput".toList with
  | .null => .ok (.mapping true [])
  | .mapping isDict entries => .ok (.mapping isDict entries)
  | _ => fail "hookSpecificOutput must be an object"

structure Fields (α : Type) where
  continueExecution : Bool
  suppressOutput : Bool
  systemMessage : Option Text
  stopReason : Option Text
  specific : Value α
  additionalContext : Option Text
  reason : Option Text
  decision : Value α
  permissionDecisionReason : Option Text

def Fields.permissionDecision (f : Fields α) : Value α := f.specific.get "permissionDecision".toList

def Fields.updatedInput (f : Fields α) : Value α := f.specific.get "updatedInput".toList

def checkEvent (event : HookEvent) (specific : Value α) : Except Failure Unit :=
  let declared := specific.get "hookEventName".toList
  if declared.isNull ∨ declared.asText = some event.name then .ok ()
  else fail "hook output event does not match the dispatched event"

def readFields (event : HookEvent) (v : Value α) : Except Failure (Fields α) := do
  let continueExecution ← optionalBool v "continue" true
  let suppressOutput ← optionalBool v "suppressOutput" false
  let systemMessage ← optionalText (v.get "systemMessage".toList) "systemMessage"
  let stopReason ← optionalText (v.get "stopReason".toList) "stopReason"
  let specific ← specificOutput v
  checkEvent event specific
  let additionalContext ← optionalText (specific.get "additionalContext".toList) "additionalContext"
  let reason ← optionalText (v.get "reason".toList) "reason"
  let permissionDecisionReason ←
    optionalText (specific.get "permissionDecisionReason".toList) "permissionDecisionReason"
  return {
    continueExecution, suppressOutput, systemMessage, stopReason, specific, additionalContext, reason,
    decision := v.get "decision".toList, permissionDecisionReason }

end Fields

structure Judgement (α : Type) where
  blocked : Bool
  reason : Option Text
  permissionDecision : Value α
  permissionDecisionReason : Option Text
  permissionBehavior : Option Text

section Judging

variable {α : Type} (f : Fields α)

def Fields.keep (blocked : Bool) : Judgement α where
  blocked := blocked
  reason := f.reason
  permissionDecision := f.permissionDecision
  permissionDecisionReason := f.permissionDecisionReason
  permissionBehavior := none

def Fields.controls : Bool := !f.continueExecution || f.stopReason.isSome || f.suppressOutput

def Fields.supported : Bool := f.decision.isNull || f.decision.isText "block"

def Fields.blocks : Bool := f.decision.isText "block"

def judgePreToolUse : Except Failure (Judgement α) :=
  let denied := f.permissionDecision.isText "deny"
  let allowed := f.permissionDecision.isText "allow"
  if f.controls then fail "PreToolUse returned unsupported universal control fields"
  else if !f.supported then fail "PreToolUse decision is unsupported"
  else if !(f.permissionDecision.isNull || allowed || denied) then
    fail "PreToolUse permission decision is unsupported"
  else if f.blocks && f.reason.isNone then fail "PreToolUse block decision requires a reason"
  else if denied && f.permissionDecisionReason.isNone then fail "PreToolUse deny decision requires a reason"
  else if !f.updatedInput.isNull && (!allowed || f.updatedInput.asDict.isNone) then
    fail "PreToolUse updatedInput requires permissionDecision allow"
  else if f.updatedInput.isNull && allowed then fail "PreToolUse allow decision requires updatedInput"
  else .ok { f.keep (f.blocks || denied) with reason := if denied then f.permissionDecisionReason else f.reason }

def behaviorOf (decision : Value α) : Except Failure Text :=
  let behavior := decision.get "behavior".toList
  if !behavior.isHashable then .error .typeError
  else
    match behavior.asText with
    | some t =>
      if t = "allow".toList ∨ t = "deny".toList then .ok t else fail "PermissionRequest behavior is invalid"
    | none => fail "PermissionRequest behavior is invalid"

def Value.isTrue : Value α → Bool
  | .bool true => true
  | _ => false

def expands (decision : Value α) : Bool :=
  !(decision.get "updatedInput".toList).isNull || !(decision.get "updatedPermissions".toList).isNull ||
    (decision.get "interrupt".toList).isTrue

def judgeDecision (decision : Value α) : Except Failure (Judgement α) :=
  if !decision.isMapping then fail "PermissionRequest decision must be an object"
  else if expands decision then fail "PermissionRequest decision cannot expand permissions"
  else
    match behaviorOf decision with
    | .error e => .error e
    | .ok behavior =>
      match optionalText (decision.get "message".toList) "permission message" with
      | .error e => .error e
      | .ok message =>
        let blocked := behavior = "deny".toList
        .ok {
          blocked := blocked
          reason := message.or (if blocked then some "PermissionRequest Hook denied approval".toList else none)
          permissionDecision := .text behavior
          permissionDecisionReason := message
          permissionBehavior := some behavior }

def judgePermissionRequest : Except Failure (Judgement α) :=
  if f.controls then fail "PermissionRequest returned unsupported universal control fields"
  else if (f.specific.entry "updatedInput".toList).isSome || (f.specific.entry "updatedPermissions".toList).isSome then
    fail "PermissionRequest cannot update input or permissions"
  else
    let decision := f.specific.get "decision".toList
    if decision.isNull then .ok (f.keep false) else judgeDecision decision

def judgePostToolUse : Except Failure (Judgement α) :=
  if f.suppressOutput then fail "PostToolUse suppressOutput is unsupported"
  else if !(f.specific.get "updatedMCPToolOutput".toList).isNull then fail "PostToolUse cannot replace MCP tool output"
  else if !f.supported then fail "PostToolUse decision is unsupported"
  else if f.blocks && f.reason.isNone then fail "PostToolUse block decision requires a reason"
  else .ok (f.keep f.blocks)

def judgeBlock : Except Failure (Judgement α) :=
  if !f.supported then fail "hook block decision is unsupported"
  else if f.blocks && f.reason.isNone then fail "hook block decision requires a reason"
  else .ok (f.keep f.blocks)

def judge (event : HookEvent) : Except Failure (Judgement α) :=
  match event with
  | .preToolUse => judgePreToolUse f
  | .permissionRequest => judgePermissionRequest f
  | .postToolUse => judgePostToolUse f
  | .userPromptSubmit | .stop | .subagentStop => judgeBlock f
  | _ => .ok (f.keep false)

end Judging

/-- What the host makes of the objects that hooks return. -/
structure Host (α : Type) where
  str : Value α → Text
  encodedLength : Value α → Nat

section Parsing

variable {α : Type} (host : Host α)

def Host.render (v : Value α) : Option Text :=
  match v with
  | .null => none
  | .text t => some t
  | v => some (host.str v)

def assemble (f : Fields α) (j : Judgement α) : ParsedOutput α where
  blocked := j.blocked
  reason := j.reason
  additionalContext := f.additionalContext
  systemMessage := f.systemMessage
  continueExecution := f.continueExecution
  stopReason := f.stopReason
  suppressOutput := f.suppressOutput
  permissionDecision := host.render j.permissionDecision
  permissionDecisionReason := j.permissionDecisionReason
  updatedInput := f.updatedInput.asDict
  permissionBehavior := j.permissionBehavior

def parseOutput (event : HookEvent) (v : Value α) : Except Failure (ParsedOutput α) :=
  match v with
  | .bool false =>
    .ok { ParsedOutput.empty with blocked := event = .preToolUse, reason := some "hook_denied".toList }
  | .mapping isDict entries => do
    let f ← readFields event (.mapping isDict entries)
    let j ← judge f event
    return assemble host f j
  | _ => .ok .empty

/-- What the output of a command is read as. -/
inductive Printed (α : Type) where
  | blank
  | unreadable
  | json (value : Value α)

def parseCommandOutput (event : HookEvent) (output : Printed α) : Except Failure (ParsedOutput α) :=
  match output with
  | .blank => .ok .empty
  | .unreadable => fail "hook command output must be one JSON object"
  | .json value => parseOutput host event value

end Parsing

/-- What comes of one hook before its output is parsed. -/
inductive Attempt (α : Type) where
  /-- It is not declared for the event, or not for the tool. -/
  | skipped
  /-- Its resource, its declaration, its capabilities or its run raises. -/
  | raised (typeName : Text)
  | timedOut
  /-- A host handler returns, under a declaration that may deny. -/
  | returned (deny : Bool) (maxOutputBytes : Nat) (value : Value α)
  /-- A command ends. -/
  | printed (deny : Bool) (length : Nat) (output : Printed α)

structure Binding (α : Type) where
  resourceType : Text
  resourceId : Text
  enabled : Bool
  attempt : Attempt α

inductive Trial (α : Type) where
  | skipped
  | failed (typeName : Text)
  | timedOut
  | executed (deny : Bool) (length : Nat) (parsed : ParsedOutput α)

section Running

variable {α : Type} (host : Host α) (event : HookEvent)

def Trial.ofParsed (deny : Bool) (length : Nat) (parsed : Except Failure (ParsedOutput α)) : Trial α :=
  match parsed with
  | .error e => .failed e.name
  | .ok parsed => .executed deny length parsed

def Attempt.trial : Attempt α → Trial α
  | .skipped => .skipped
  | .raised typeName => .failed typeName
  | .timedOut => .timedOut
  | .returned deny maxOutputBytes value =>
    if maxOutputBytes < host.encodedLength value then .failed "_HookOutputLimitError".toList
    else .ofParsed deny (host.encodedLength value) (parseOutput host event value)
  | .printed deny length output => .ofParsed deny length (parseCommandOutput host event output)

inductive Status where
  | blocked
  | success
  | error
  | timeout
  | skipped
  deriving DecidableEq

structure HookOutcome (α : Type) where
  event : HookEvent
  status : Status
  blocked : Bool
  executed : Nat
  resourceIds : List Text
  reasons : List Text
  outputBytes : Nat
  additionalContext : List Text
  systemMessages : List Text
  continueExecution : Bool
  stopReason : Option Text
  suppressOutput : Bool
  permissionDecision : Option Text
  permissionDecisionReason : Option Text
  updatedInput : Option (List (Text × Value α))
  permissionBehavior : Option Text

structure Progress (α : Type) where
  executed : Nat
  blocked : Bool
  hadError : Bool
  hadTimeout : Bool
  resourceIds : List Text
  reasons : List Text
  outputBytes : Nat
  additionalContext : List Text
  systemMessages : List Text
  continueExecution : Bool
  stopReason : Option Text
  suppressOutput : Bool
  permissionDecision : Option Text
  permissionDecisionReason : Option Text
  updatedInput : Option (List (Text × Value α))
  permissionBehavior : Option Text

def Progress.start : Progress α where
  executed := 0
  blocked := false
  hadError := false
  hadTimeout := false
  resourceIds := []
  reasons := []
  outputBytes := 0
  additionalContext := []
  systemMessages := []
  continueExecution := true
  stopReason := none
  suppressOutput := false
  permissionDecision := none
  permissionDecisionReason := none
  updatedInput := none
  permissionBehavior := none

/-- `a or b`, where an empty text counts as nothing. -/
def either (a b : Option Text) : Option Text := if a = none ∨ a = some [] then b else a

/-- The events whose hooks can deny what is going on. -/
def Decisive (event : HookEvent) : Prop :=
  event ∈ [HookEvent.preToolUse, .permissionRequest, .postToolUse, .userPromptSubmit]

instance : Decidable (Decisive event) :=
  inferInstanceAs (Decidable (event ∈ [HookEvent.preToolUse, .permissionRequest, .postToolUse, .userPromptSubmit]))

def deny : Text := "deny".toList

def takeIn (p : Progress α) (denies : Bool) (length : Nat) (parsed : ParsedOutput α) : Progress α :=
  let denied := denies || parsed.blocked
  let settles : Prop := parsed.permissionDecision = some deny ∨ p.permissionDecision = none
  { p with
    executed := p.executed + 1
    outputBytes := p.outputBytes + length
    blocked := if Decisive event then p.blocked || denied else p.blocked
    reasons := if denied then p.reasons ++ [parsed.reason.getD "hook_denied".toList] else p.reasons
    additionalContext := p.additionalContext ++ parsed.additionalContext.toList
    systemMessages := p.systemMessages ++ parsed.systemMessage.toList
    continueExecution := p.continueExecution && parsed.continueExecution
    stopReason := either p.stopReason parsed.stopReason
    suppressOutput := p.suppressOutput || parsed.suppressOutput
    permissionDecision :=
      if settles then either parsed.permissionDecision p.permissionDecision else p.permissionDecision
    permissionDecisionReason :=
      if settles then either parsed.permissionDecisionReason p.permissionDecisionReason
      else p.permissionDecisionReason
    updatedInput := parsed.updatedInput.or p.updatedInput
    permissionBehavior := parsed.permissionBehavior.or p.permissionBehavior }

def step (p : Progress α) (b : Binding α) : Progress α :=
  if b.enabled then
    let p := { p with resourceIds := p.resourceIds ++ [b.resourceId] }
    match b.attempt.trial host event with
    | .skipped => p
    | .failed typeName => { p with hadError := true, reasons := p.reasons ++ [typeName] }
    | .timedOut => { p with hadTimeout := true, reasons := p.reasons ++ ["timeout".toList] }
    | .executed denies length parsed => takeIn event p denies length parsed
  else p

def Progress.status (p : Progress α) : Status :=
  if p.blocked then .blocked
  else if 0 < p.executed then .success
  else if p.hadError then .error
  else if p.hadTimeout then .timeout
  else .skipped

def Progress.outcome (p : Progress α) : HookOutcome α where
  event := event
  status := p.status
  blocked := p.blocked
  executed := p.executed
  resourceIds := p.resourceIds
  reasons := p.reasons
  outputBytes := p.outputBytes
  additionalContext := p.additionalContext
  systemMessages := p.systemMessages
  continueExecution := p.continueExecution
  stopReason := p.stopReason
  suppressOutput := p.suppressOutput
  permissionDecision := p.permissionDecision
  permissionDecisionReason := p.permissionDecisionReason
  updatedInput := p.updatedInput
  permissionBehavior := p.permissionBehavior

def Binding.isHook (b : Binding α) : Bool := b.resourceType = "hook".toList

def runEvent (resources : List (Binding α)) : HookOutcome α :=
  ((resources.filter Binding.isHook).foldl (step host event) .start).outcome event

/-- The event's block, the permission's decision and the behaviour. -/
def HookOutcome.verdict (o : HookOutcome α) : Bool × Option Text × Option Text :=
  (o.blocked, o.permissionDecision, o.permissionBehavior)

/-- What an executed hook comes to, and whether its declaration denies. -/
def Binding.output (b : Binding α) : Option (Bool × ParsedOutput α) :=
  if b.isHook && b.enabled then
    match b.attempt.trial host event with
    | .executed denies _ parsed => some (denies, parsed)
    | _ => none
  else none

def Binding.denies (b : Binding α) : Bool := (b.output host event).any (fun o => o.1 || o.2.blocked)

def Binding.permissionDecision (b : Binding α) : Option Text :=
  (b.output host event).bind (fun o => o.2.permissionDecision.filter (· ≠ []))

def Binding.permissionBehavior (b : Binding α) : Option Text := (b.output host event).bind (fun o => o.2.permissionBehavior)

structure DenialWins (resources : List (Binding α)) : Prop where
  blocks : ∀ b ∈ resources, b.denies host event → (runEvent host event resources).blocked
  decides : ∀ b ∈ resources, b.permissionDecision host event = some deny →
    (runEvent host event resources).permissionDecision = some deny
  behaves : ∀ b ∈ resources, b.permissionBehavior host event = some deny →
    (runEvent host event resources).permissionBehavior = some deny
  /-- The hooks that fail count for nothing. -/
  isolates : (runEvent host event (resources.filter (fun b => (b.output host event).isSome))).verdict =
    (runEvent host event resources).verdict

def Attempt.value : Attempt α → Value α
  | .returned _ _ value => value
  | .printed _ _ (.json value) => value
  | _ => .null

def Value.specific (v : Value α) : Value α := v.get "hookSpecificOutput".toList

def Value.behavior (v : Value α) : Option Text :=
  if event = .permissionRequest then ((v.specific.get "decision".toList).get "behavior".toList).asText else none

def Value.decision (v : Value α) : Option Text :=
  if event = .permissionRequest ∧ (v.specific.get "decision".toList).isNull = false then v.behavior event
  else (host.render (v.specific.get "permissionDecision".toList)).filter (· ≠ [])

def Binding.statedBehavior (b : Binding α) : Option Text :=
  if (b.output host event).isSome then b.attempt.value.behavior event else none

def Binding.statedDecision (b : Binding α) : Option Text :=
  if (b.output host event).isSome then b.attempt.value.decision host event else none

/-- The executed hooks state one behaviour at most, and one decision at most unless one denies. -/
def Settled (resources : List (Binding α)) : Prop :=
  Unanimous (Binding.statedBehavior host event) resources ∧
    ((∃ b ∈ resources, b.statedDecision host event = some deny) ∨
      Unanimous (Binding.statedDecision host event) resources)

instance (resources : List (Binding α)) : Decidable (Settled host event resources) :=
  inferInstanceAs (Decidable (Unanimous (Binding.statedBehavior host event) resources ∧
    ((∃ b ∈ resources, b.statedDecision host event = some deny) ∨
      Unanimous (Binding.statedDecision host event) resources)))

end Running

section Reading

variable {α : Type} {host : Host α} {event : HookEvent} {v : Value α} {f : Fields α}

theorem readFields_specific (h : readFields event v = .ok f) :
    f.specific = v.specific ∨ v.specific = .null ∧ f.specific = .mapping true [] := by
  unfold readFields at h
  simp only [bind_eq_ok] at h
  obtain ⟨_, _, _, _, _, _, _, _, specific, hspecific, _, _, _, _, _, _, _, _, h⟩ := h
  cases h
  dsimp only
  unfold specificOutput at hspecific
  unfold Value.specific
  split at hspecific
  · next hnull =>
    cases hspecific
    exact .inr ⟨hnull, rfl⟩
  · next isDict entries hmapping =>
    cases hspecific
    exact .inl hmapping.symm
  · cases hspecific

theorem readFields_get (h : readFields event v = .ok f) (key : Text) :
    f.specific.get key = v.specific.get key := by
  cases readFields_specific h with
  | inl hsame => rw [hsame]
  | inr hempty => rw [hempty.1, hempty.2]; rfl

theorem behaviorOf_ok {decision : Value α} {behavior : Text} (h : behaviorOf decision = .ok behavior) :
    (decision.get "behavior".toList).asText = some behavior ∧ behavior ≠ [] := by
  unfold behaviorOf at h
  dsimp only at h
  split at h
  · cases h
  split at h
  · next t ht =>
    split at h
    · next hknown =>
      cases h
      refine ⟨ht, ?_⟩
      rintro rfl
      simp at hknown
    · cases h
  · cases h

variable {j : Judgement α}

theorem judgeDecision_ok {decision : Value α} (h : judgeDecision decision = .ok j) :
    ∃ behavior, behaviorOf decision = .ok behavior ∧ j.permissionDecision = .text behavior ∧
      j.permissionBehavior = some behavior := by
  unfold judgeDecision at h
  split at h
  · cases h
  split at h
  · cases h
  split at h
  · cases h
  next behavior hbehavior =>
    split at h
    · cases h
    cases h
    exact ⟨behavior, hbehavior, rfl, rfl⟩

theorem ok_of_not {β : Type} {c : Prop} [Decidable c] {message : String} {x : Except Failure β} {y : β}
    (h : (if c then fail message else x) = .ok y) : ¬ c ∧ x = .ok y := by
  by_cases hc : c
  · rw [if_pos hc] at h
    cases h
  · rw [if_neg hc] at h
    exact ⟨hc, h⟩

theorem judgePreToolUse_ok (h : judgePreToolUse f = .ok j) :
    j.permissionDecision = f.permissionDecision ∧ j.permissionBehavior = none := by
  unfold judgePreToolUse at h
  dsimp only at h
  replace h := (ok_of_not (ok_of_not (ok_of_not (ok_of_not (ok_of_not (ok_of_not (ok_of_not h).2).2).2).2).2).2).2
  cases h
  exact ⟨rfl, rfl⟩

theorem judgePostToolUse_ok (h : judgePostToolUse f = .ok j) :
    j.permissionDecision = f.permissionDecision ∧ j.permissionBehavior = none := by
  replace h := (ok_of_not (ok_of_not (ok_of_not (ok_of_not h).2).2).2).2
  cases h
  exact ⟨rfl, rfl⟩

theorem judgeBlock_ok (h : judgeBlock f = .ok j) :
    j.permissionDecision = f.permissionDecision ∧ j.permissionBehavior = none := by
  replace h := (ok_of_not (ok_of_not h).2).2
  cases h
  exact ⟨rfl, rfl⟩

theorem judgePermissionRequest_ok (h : judgePermissionRequest f = .ok j) :
    ((f.specific.get "decision".toList).isNull = false ∧ judgeDecision (f.specific.get "decision".toList) = .ok j) ∨
      ((f.specific.get "decision".toList).isNull = true ∧
        j.permissionDecision = f.permissionDecision ∧ j.permissionBehavior = none) := by
  replace h := (ok_of_not (ok_of_not h).2).2
  dsimp only at h
  split at h
  · next hnull =>
    cases h
    exact .inr ⟨hnull, rfl, rfl⟩
  · next hgiven => exact .inl ⟨by simpa using hgiven, h⟩

theorem judge_plain (hevent : event ≠ .permissionRequest)
    (h : judge f event = .ok j) : j.permissionDecision = f.permissionDecision ∧ j.permissionBehavior = none := by
  cases event with
  | preToolUse => exact judgePreToolUse_ok h
  | permissionRequest => exact absurd rfl hevent
  | postToolUse => exact judgePostToolUse_ok h
  | userPromptSubmit => exact judgeBlock_ok h
  | stop => exact judgeBlock_ok h
  | subagentStop => exact judgeBlock_ok h
  | preCompact | postCompact | sessionStart | sessionEnd | subagentStart =>
    cases h
    exact ⟨rfl, rfl⟩

theorem judge_ok (h : judge f event = .ok j) :
    (event = .permissionRequest ∧ (f.specific.get "decision".toList).isNull = false ∧
        judgeDecision (f.specific.get "decision".toList) = .ok j) ∨
      (¬ (event = .permissionRequest ∧ (f.specific.get "decision".toList).isNull = false) ∧
        j.permissionDecision = f.permissionDecision ∧ j.permissionBehavior = none) := by
  by_cases hevent : event = .permissionRequest
  · subst hevent
    cases judgePermissionRequest_ok h with
    | inl hdecided => exact .inl ⟨rfl, hdecided⟩
    | inr hnull => exact .inr ⟨fun hboth => (nomatch hnull.1.symm.trans hboth.2), hnull.2⟩
  · exact .inr ⟨fun hboth => hevent hboth.1, judge_plain hevent h⟩

theorem stated_of_null (host : Host α) (event : HookEvent) (h : v.specific = .null) : v.behavior event = none ∧ v.decision host event = none := by
  constructor
  · unfold Value.behavior
    split
    · rw [h]
      rfl
    · rfl
  · unfold Value.decision
    rw [h, if_neg (fun hboth => (nomatch hboth.2))]
    rfl

theorem behavior_of_plain (h : ¬ (event = .permissionRequest ∧ (v.specific.get "decision".toList).isNull = false)) :
    v.behavior event = none := by
  unfold Value.behavior
  by_cases hevent : event = .permissionRequest
  · rw [if_pos hevent]
    cases hdecision : v.specific.get "decision".toList with
    | null => rfl
    | _ => exact absurd ⟨hevent, by rw [hdecision]; rfl⟩ h
  · rw [if_neg hevent]

variable {p : ParsedOutput α}

theorem parseOutput_stated (h : parseOutput host event v = .ok p) :
    p.permissionBehavior = v.behavior event ∧ p.permissionDecision.filter (· ≠ []) = v.decision host event := by
  unfold parseOutput at h
  split at h
  · cases h
    obtain ⟨hbehavior, hdecision⟩ := @stated_of_null α (.bool false) host event rfl
    rw [hbehavior, hdecision]
    exact ⟨rfl, rfl⟩
  · next isDict entries =>
    simp only [bind_eq_ok] at h
    obtain ⟨f, hf, j, hj, h⟩ := h
    cases h
    have hget := readFields_get hf
    cases judge_ok hj with
    | inl hrequest =>
      obtain ⟨rfl, hgiven, hdecided⟩ := hrequest
      obtain ⟨behavior, hbehavior, hdecision, hkept⟩ := judgeDecision_ok hdecided
      obtain ⟨htext, hne⟩ := behaviorOf_ok hbehavior
      rw [hget] at hgiven htext
      have hstated : (Value.mapping isDict entries).behavior .permissionRequest = some behavior := by
        rw [Value.behavior, if_pos rfl, htext]
      refine ⟨hkept.trans hstated.symm, ?_⟩
      rw [Value.decision, if_pos ⟨rfl, hgiven⟩, hstated]
      simp [assemble, hdecision, Host.render, hne]
    | inr hother =>
      obtain ⟨hnot, hdecision, hkept⟩ := hother
      rw [hget] at hnot
      refine ⟨hkept.trans (behavior_of_plain hnot).symm, ?_⟩
      rw [Value.decision, if_neg hnot, assemble, hdecision, Fields.permissionDecision, hget]
  · next hother hmapping =>
    cases h
    have hnull : v.specific = .null := by
      cases v with
      | mapping isDict entries => exact absurd rfl (hmapping isDict entries)
      | _ => rfl
    obtain ⟨hbehavior, hdecision⟩ := stated_of_null host event hnull
    rw [hbehavior, hdecision]
    exact ⟨rfl, rfl⟩

theorem ofParsed_executed {denies stated : Bool} {length size : ℕ} {result : Except Failure (ParsedOutput α)}
    (h : Trial.ofParsed stated size result = .executed denies length p) : result = .ok p := by
  cases result with
  | error e => cases h
  | ok q =>
    cases h
    rfl

theorem trial_executed {attempt : Attempt α} {denies : Bool} {length : ℕ}
    (h : attempt.trial host event = .executed denies length p) :
    p.permissionBehavior = attempt.value.behavior event ∧
      p.permissionDecision.filter (· ≠ []) = attempt.value.decision host event := by
  cases attempt with
  | skipped => cases h
  | raised typeName => cases h
  | timedOut => cases h
  | returned stated maxOutputBytes value =>
    by_cases hlong : maxOutputBytes < host.encodedLength value
    · rw [Attempt.trial, if_pos hlong] at h
      cases h
    · rw [Attempt.trial, if_neg hlong] at h
      exact parseOutput_stated (ofParsed_executed h)
  | printed stated size output =>
    have hparsed := ofParsed_executed h
    cases output with
    | blank =>
      cases hparsed
      obtain ⟨hbehavior, hdecision⟩ := @stated_of_null α .null host event rfl
      exact ⟨hbehavior.symm, hdecision.symm⟩
    | unreadable => cases hparsed
    | json value => exact parseOutput_stated hparsed

theorem permission_stated (b : Binding α) : b.permissionBehavior host event = b.statedBehavior host event ∧
    b.permissionDecision host event = b.statedDecision host event := by
  unfold Binding.permissionBehavior Binding.permissionDecision Binding.statedBehavior Binding.statedDecision
  cases houtput : b.output host event with
  | none => exact ⟨rfl, rfl⟩
  | some o =>
    unfold Binding.output at houtput
    split at houtput
    · split at houtput
      · next denies length parsed htrial =>
        cases houtput
        exact trial_executed htrial
      · cases houtput
    · cases houtput

end Reading

section Fold

variable {α : Type} {host : Host α} {event : HookEvent}

theorem step_cases (host : Host α) (event : HookEvent) (p : Progress α) (b : Binding α) (hb : b.isHook) :
    (∃ denies length parsed ids, b.output host event = some (denies, parsed) ∧
        step host event p b = takeIn event { p with resourceIds := ids } denies length parsed) ∨
      (b.output host event = none ∧ (step host event p b).blocked = p.blocked ∧
        (step host event p b).permissionDecision = p.permissionDecision ∧
        (step host event p b).permissionBehavior = p.permissionBehavior) := by
  unfold step Binding.output
  by_cases he : b.enabled
  · rw [if_pos he, if_pos (by rw [hb, he]; rfl)]
    dsimp only
    cases b.attempt.trial host event with
    | skipped => exact .inr ⟨rfl, rfl, rfl, rfl⟩
    | failed typeName => exact .inr ⟨rfl, rfl, rfl, rfl⟩
    | timedOut => exact .inr ⟨rfl, rfl, rfl, rfl⟩
    | executed denies length parsed => exact .inl ⟨denies, length, parsed, p.resourceIds ++ [b.resourceId], rfl, rfl⟩
  · rw [if_neg he, if_neg (by simp [he])]
    exact .inr ⟨rfl, rfl, rfl, rfl⟩

theorem settle_eq_dominant (kept given : Option Text) :
    (if given = some deny ∨ kept = none then either given kept else kept) =
      dominant deny kept (given.filter (· ≠ [])) := by
  cases given with
  | none => simp [either]
  | some t =>
    by_cases ht : t = []
    · simp [ht, either, deny, Option.filter]
    · simp [ht, either, dominant, Option.filter]

theorem step_verdict (p : Progress α) (b : Binding α) (hb : b.isHook) :
    (Decisive event → (step host event p b).blocked = (p.blocked || b.denies host event)) ∧
      (step host event p b).permissionDecision =
        dominant deny p.permissionDecision (b.permissionDecision host event) ∧
      (step host event p b).permissionBehavior = latest p.permissionBehavior (b.permissionBehavior host event) := by
  unfold Binding.denies Binding.permissionDecision Binding.permissionBehavior
  cases step_cases host event p b hb with
  | inl hrun =>
    obtain ⟨denies, length, parsed, ids, houtput, hstep⟩ := hrun
    rw [houtput, hstep]
    exact ⟨fun hevent => if_pos hevent, settle_eq_dominant p.permissionDecision parsed.permissionDecision, rfl⟩
  | inr hidle =>
    obtain ⟨houtput, hblocked, hdecision, hbehavior⟩ := hidle
    rw [houtput, hblocked, hdecision, hbehavior]
    exact ⟨fun _ => (Bool.or_false _).symm, (dominant_none _).symm, Option.none_or.symm⟩

theorem foldl_hooks {γ : Type} (π : Progress α → γ) (g : γ → Binding α → γ)
    (hstep : ∀ p b, b.isHook → π (step host event p b) = g (π p) b)
    (hskip : ∀ x b, ¬ b.isHook → g x b = x) (resources : List (Binding α)) (p : Progress α) :
    π ((resources.filter Binding.isHook).foldl (step host event) p) = resources.foldl g (π p) := by
  induction resources generalizing p with
  | nil => rfl
  | cons b resources ih =>
    by_cases hb : b.isHook
    · rw [List.filter_cons_of_pos hb, List.foldl_cons, List.foldl_cons, ih, hstep p b hb]
    · rw [List.filter_cons_of_neg hb, List.foldl_cons, ih, hskip (π p) b hb]

theorem output_of_not_isHook {b : Binding α} (h : ¬ b.isHook) : b.output host event = none := by
  simp [Binding.output, h]

theorem foldl_or (f : Binding α → Bool) (resources : List (Binding α)) (x : Bool) :
    resources.foldl (fun x b => x || f b) x = (x || resources.any f) := by
  induction resources generalizing x with
  | nil => simp
  | cons b resources ih => rw [List.foldl_cons, ih, List.any_cons, Bool.or_assoc]

theorem runEvent_blocked (hevent : Decisive event) (resources : List (Binding α)) :
    (runEvent host event resources).blocked = resources.any (Binding.denies host event) := by
  have h := @foldl_hooks α host event Bool Progress.blocked (fun x b => x || b.denies host event)
    (fun p b hb => (step_verdict p b hb).1 hevent)
    (fun x b hb => by simp [Binding.denies, output_of_not_isHook hb]) resources .start
  exact h.trans (foldl_or _ resources false)

variable (resources : List (Binding α))

theorem runEvent_permissionDecision : (runEvent host event resources).permissionDecision =
      dominantOf deny (Binding.permissionDecision host event) resources :=
  foldl_hooks Progress.permissionDecision (fun x b => dominant deny x (b.permissionDecision host event))
    (fun p b hb => (step_verdict p b hb).2.1)
    (fun x b hb => by simp [Binding.permissionDecision, output_of_not_isHook hb]) resources .start

theorem runEvent_permissionBehavior : (runEvent host event resources).permissionBehavior =
      latestOf (Binding.permissionBehavior host event) resources :=
  foldl_hooks Progress.permissionBehavior (fun x b => latest x (b.permissionBehavior host event))
    (fun p b hb => (step_verdict p b hb).2.2)
    (fun x b hb => by simp [Binding.permissionBehavior, output_of_not_isHook hb, latest]) resources .start

end Fold

variable {α : Type} (host : Host α) (event : HookEvent)

def verdictOf (resources : List (Binding α)) : Bool × Option Text × Option Text :=
  (runEvent host event resources).verdict

variable {host event}

theorem verdictOf_eq (hevent : Decisive event) (resources : List (Binding α)) :
    verdictOf host event resources = (resources.any (Binding.denies host event),
      dominantOf deny (Binding.statedDecision host event) resources,
      latestOf (Binding.statedBehavior host event) resources) := by
  have hbehavior : Binding.statedBehavior host event = Binding.permissionBehavior host event :=
    funext (fun b => (permission_stated b).1.symm)
  have hdecision : Binding.statedDecision host event = Binding.permissionDecision host event :=
    funext (fun b => (permission_stated b).2.symm)
  rw [hbehavior, hdecision, ← runEvent_blocked hevent, ← runEvent_permissionDecision,
    ← runEvent_permissionBehavior]
  rfl

theorem orderFree_verdictOf_iff (hevent : Decisive event) (resources : List (Binding α)) :
    OrderFree (verdictOf host event) resources ↔ Settled host event resources := by
  rw [OrderFree.congr (verdictOf_eq hevent), orderFree_prod, orderFree_prod, orderFree_dominantOf_iff,
    orderFree_latestOf_iff]
  exact ⟨fun h => ⟨h.2.2, h.2.1⟩, fun h => ⟨orderFree_any _, h.2, h.1⟩⟩

theorem denialWins_of_settled (hevent : Decisive event) {resources : List (Binding α)}
    (h : Unanimous (Binding.statedBehavior host event) resources) : DenialWins host event resources where
  blocks b hb hdenies := by
    rw [runEvent_blocked hevent]
    exact List.any_eq_true.mpr ⟨b, hb, hdenies⟩
  decides b hb hdeny := by
    rw [runEvent_permissionDecision]
    exact dominantOf_of_mem hb hdeny
  behaves b hb hdeny := by
    rw [runEvent_permissionBehavior]
    refine latestOf_eq_of_unanimous ?_ hb hdeny
    intro a ha c hc x hx y hy
    rw [(permission_stated a).1] at hx
    rw [(permission_stated c).1] at hy
    exact h a ha c hc x hx y hy
  isolates := by
    have hsilent : ∀ b ∈ resources, ¬ (b.output host event).isSome → b.output host event = none :=
      fun b _ hb => by simpa using hb
    apply (verdictOf_eq hevent _).trans
    apply Eq.trans _ (verdictOf_eq hevent _).symm
    apply Prod.ext
    · apply Bool.eq_iff_iff.mpr
      simp only [List.any_eq_true, List.mem_filter]
      constructor
      · intro ⟨b, hb, hdenies⟩
        exact ⟨b, hb.1, hdenies⟩
      · intro ⟨b, hb, hdenies⟩
        refine ⟨b, ⟨hb, ?_⟩, hdenies⟩
        by_contra hnone
        simp [Binding.denies, hsilent b hb hnone] at hdenies
    · apply Prod.ext
      · exact dominantOf_filter (fun b hb hnone => by simp [Binding.statedDecision, hsilent b hb hnone])
      · exact latestOf_filter (fun b hb hnone => by simp [Binding.statedBehavior, hsilent b hb hnone])

/-- The verdict is the same for every order of the hooks, and what one denies is denied, exactly
when no two state different behaviours, nor different decisions unless some hook denies. -/
theorem verdict_settled_iff (hevent : Decisive event) (resources : List (Binding α)) :
    (OrderFree (verdictOf host event) resources ∧ DenialWins host event resources) ↔
      Settled host event resources := by
  rw [orderFree_verdictOf_iff hevent]
  exact ⟨fun h => h.1, fun h => ⟨h, denialWins_of_settled hevent h.1⟩⟩

/-- Objects print as nothing and are of no length. -/
def bare : Host Unit where
  str := fun _ => []
  encodedLength := fun _ => 0

def answer (behavior : String) : Value Unit :=
  .mapping true [("hookSpecificOutput".toList, .mapping true [("decision".toList,
    .mapping true [("behavior".toList, .text behavior.toList)])])]

def handler (name : String) (value : Value Unit) : Binding Unit :=
  ⟨"hook".toList, name.toList, true, .returned false 4096 value⟩

/-- A hook that denies, one that fails and one that says nothing. -/
def guarded : List (Binding Unit) :=
  [handler "guard" (answer "deny"), ⟨"hook".toList, "broken".toList, true, .timedOut⟩, handler "log" .null]

theorem verdict_settled_iff_guarded : Decisive .permissionRequest ∧
    OrderFree (verdictOf bare .permissionRequest) guarded ∧ DenialWins bare .permissionRequest guarded :=
  ⟨by decide, (verdict_settled_iff (by decide) guarded).mpr (by decide +kernel)⟩

/-- One hook denies the request and the next one allows it. -/
def contradicted : List (Binding Unit) := [handler "guard" (answer "deny"), handler "trust" (answer "allow")]

/-- The behaviour is that of the hook that comes last. -/
theorem denial_replaced : (runEvent bare .permissionRequest contradicted).permissionBehavior = some "allow".toList ∧
    (runEvent bare .permissionRequest contradicted.reverse).permissionBehavior = some deny ∧
    ¬ OrderFree (verdictOf bare .permissionRequest) contradicted ∧
    ¬ DenialWins bare .permissionRequest contradicted := by
  have hlast : (runEvent bare .permissionRequest contradicted).permissionBehavior = some "allow".toList := by
    decide +kernel
  refine ⟨hlast, by decide +kernel, ?_, ?_⟩
  · rw [orderFree_verdictOf_iff (by decide)]
    decide +kernel
  · intro h
    have hdeny := h.behaves (handler "guard" (answer "deny")) List.mem_cons_self (by decide +kernel)
    rw [hlast] at hdeny
    revert hdeny
    decide

end Kirara.HookVerdicts
