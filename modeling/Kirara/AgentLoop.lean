import Kirara.Compaction

namespace Kirara.AgentLoop

open Kirara.Channels Kirara.AgentMessages Kirara.Compaction

/-- What the loop reads of a `Tool`, with the JSON text of its definition. -/
structure Tool where
  name : Text
  description : Text
  definition : Text

structure Executor (κ : Type) where
  contextCharThreshold : Int
  jsonSize : AgentMessages.Part κ → Nat
  lower : Text → Text

/-- What `_run_loop` gets of the agent and its tools. -/
structure Setup where
  allowTools : Bool
  maxToolIterations : Nat
  toolNames : List Text
  teammateToolNames : List Text
  skillToolNames : List Text
  searchableTools : List Tool

inductive Delegation where
  | unknown
  | failed (errorType : Text)
  | noAnswer
  | answered (text : Text)

inductive SkillBody where
  | unbound
  | failed (errorType : Text)
  | awaitable
  | loaded (text : Text)

inductive ToolOutcome (κ : Type) where
  | rejected
  | raised (errorType : Text)
  | returned (content : Json κ) (isError : Bool)

structure CallWorld (κ : Type) where
  requiresConfirmation : Bool
  preToolUse : HookOutcome κ
  permissionRequest : HookOutcome κ
  postToolUse : HookOutcome κ
  validateArguments : Arguments κ → Option Text
  principalControls : Bool
  persists : Bool
  teammate : Text → Text → Delegation
  skill : Text → SkillBody
  callTool : Arguments κ → ToolOutcome κ

structure Response (κ : Type) where
  content : List (AgentMessages.Part κ)
  toolCalls : Option (List (ToolCall κ))

/-- The surroundings of one round; the model may fail the request. -/
structure RoundWorld (κ : Type) where
  compactor : Option (List (Message κ) → Option (List (Message κ)))
  reply : Option (Response κ)
  call : Nat → CallWorld κ

/-- What happens where a pending call is confirmed. -/
structure ConfirmWorld (κ : Type) where
  claimed : Bool
  restored : Bool
  agentKnown : Bool
  principalMatches : Bool
  unchanged : Bool
  preToolUse : HookOutcome κ
  postToolUse : HookOutcome κ
  validateArguments : Arguments κ → Option Text
  callTool : Arguments κ → ToolOutcome κ
  toolNames : List Text
  teammateToolNames : List Text
  skillToolNames : List Text
  tools : List Tool

inductive Verdict where
  | completed (text : Text)
  | failed
  deriving DecidableEq

/-- A paused turn knows its pending call. The calls after it are only recorded. -/
inductive Phase (κ : Type) where
  | requesting
  | paused (call : ToolCall κ) (rest : List (ToolCall κ))
  | over (verdict : Verdict)

/-- A turn of the agent. The issued calls and the messages of the requests are only recorded. -/
structure Turn (κ : Type) where
  setup : Setup
  messages : List (Message κ)
  tools : List Tool
  disclosed : List Text
  iteration : Nat
  phase : Phase κ
  issued : List (ToolCall κ)
  requests : List (List (Message κ))

structure Progress (κ : Type) where
  messages : List (Message κ)
  tools : List Tool
  disclosed : List Text

inductive Handled (κ : Type) where
  | answered (p : Progress κ)
  | paused (p : Progress κ) (call : ToolCall κ) (rest : List (ToolCall κ))
  | failed

variable {κ : Type}

def removePrefix (start t : Text) : Text := if start <+: t then t.drop start.length else t

def textArgument (name : Text) (arguments : Arguments κ) : Option Text :=
  match (arguments.find? (fun e => e.1 = name)).map Prod.snd with
  | some (.text t) => some t
  | _ => none

def Progress.answer (call : ToolCall κ) (result : AgentMessages.Part κ) (p : Progress κ) : Progress κ :=
  { p with messages := p.messages ++ [assistantToolMessage call, ⟨.tool, [result]⟩] }

def searchToolEntries (lower : Text → Text) (tools : List Tool) (query : Text) : List Tool :=
  let keyword := lower (strip query)
  if keyword = [] then tools.take 8
  else
    (tools.filter (fun t => keyword <:+: lower t.name || keyword <:+: lower t.description)).take 8

def toolSearchResult (call : ToolCall κ) (matched : List Tool) : AgentMessages.Part κ :=
  valueResult call (.text (if matched.isEmpty then
      "没有匹配的工具。可以换一个更宽的关键词再搜一次，或者直接用你已有的知识回答。".toList
    else
      ['\n'].intercalate ("以下工具现在可以直接调用：".toList :: matched.map Tool.definition))) false

def Progress.disclose (matched : List Tool) (p : Progress κ) : Progress κ :=
  matched.foldl (fun p tool =>
    if tool.name ∈ p.disclosed then p
    else { p with disclosed := p.disclosed ++ [tool.name], tools := p.tools ++ [tool] }) p

def delegateToTeammate (w : CallWorld κ) (call : ToolCall κ) : AgentMessages.Part κ :=
  let teammateId := removePrefix "delegate_to_".toList call.name
  match textArgument "task".toList call.arguments with
  | none => errorResult call "delegation requires a non-empty task".toList
  | some task =>
    if strip task = [] then errorResult call "delegation requires a non-empty task".toList
    else
      match w.teammate teammateId (strip task) with
      | .unknown => errorResult call ("unknown teammate Agent: ".toList ++ teammateId)
      | .failed e => errorResult call ("teammate execution failed: ".toList ++ e)
      | .noAnswer =>
        errorResult call ("teammate ".toList ++ teammateId ++ " produced no answer".toList)
      | .answered text => valueResult call (.text text) false

def loadSkillBody (w : CallWorld κ) (call : ToolCall κ) : AgentMessages.Part κ :=
  let resourceId := removePrefix "skill_".toList call.name
  match w.skill resourceId with
  | .unbound => errorResult call ("unknown skill: ".toList ++ resourceId)
  | .failed e => errorResult call ("skill could not be loaded: ".toList ++ e)
  | .awaitable => errorResult call "skill loader must be synchronous".toList
  | .loaded text =>
    if strip text = [] then errorResult call ("skill is empty: ".toList ++ resourceId)
    else valueResult call (.text (strip text)) false

def applyHookToolInput (call : ToolCall κ) (outcome : HookOutcome κ)
    (validate : Arguments κ → Option Text) : ToolCall κ × Option Text :=
  match outcome.updatedInput with
  | none => (call, none)
  | some input =>
    match validate input with
    | some e => (call, some ("invalid arguments returned by PreToolUse Hook: ".toList ++ e))
    | none =>
      ({ call with function := call.function.map (fun f => { f with arguments := some input }) }, none)

def executeToolCall (callTool : Arguments κ → ToolOutcome κ) (call : ToolCall κ) : AgentMessages.Part κ :=
  match callTool call.arguments with
  | .rejected => errorResult call ("MCP tool failed or was rejected: ".toList ++ call.name)
  | .raised e => errorResult call ("MCP tool error: ".toList ++ e)
  | .returned content isError => valueResult call content isError

def postToolResult (call : ToolCall κ) (result : AgentMessages.Part κ) (outcome : HookOutcome κ) : AgentMessages.Part κ :=
  if outcome.blocked then
    errorResult call ("PostToolUse Hook blocked this result: ".toList ++
      outcome.reasons.head?.getD "tool result requires review".toList)
  else result

section Calls

def runCall (w : CallWorld κ) (call : ToolCall κ) (p : Progress κ) : Handled κ :=
  if w.preToolUse.blocked then
    .answered (p.answer call (errorResult call "tool call was denied by Agent Hook".toList))
  else
    match applyHookToolInput call w.preToolUse w.validateArguments with
    | (call, some inputError) => .answered (p.answer call (errorResult call inputError))
    | (call, none) =>
      let p := p.answer call (postToolResult call (executeToolCall w.callTool call) w.postToolUse)
      .answered { p with messages := injectHookContext p.messages [w.preToolUse, w.postToolUse] }

def PermissionDenied (o : HookOutcome κ) : Prop :=
  o.blocked ∨ o.permissionBehavior = some "deny".toList

instance (o : HookOutcome κ) : Decidable (PermissionDenied o) := by
  unfold PermissionDenied
  infer_instance

def denialReason (o : HookOutcome κ) : Text :=
  match o.permissionReason with
  | some (c :: cs) => c :: cs
  | _ => "confirmation was denied by Agent Hook".toList

def askConfirmation (w : CallWorld κ) (call : ToolCall κ) (p : Progress κ) : Handled κ :=
  if w.preToolUse.blocked then
    .answered (p.answer call (errorResult call "tool call was denied by Agent Hook".toList))
  else
    match applyHookToolInput call w.preToolUse w.validateArguments with
    | (call, some inputError) => .answered (p.answer call (errorResult call inputError))
    | (call, none) =>
      if PermissionDenied w.permissionRequest then
        .answered (p.answer call (errorResult call (denialReason w.permissionRequest)))
      else if w.principalControls then
        if w.persists then .paused p call [] else .failed
      else
        .answered (p.answer call (errorResult call "permission denied for host tool execution".toList))

variable (X : Executor κ) (S : Setup)

def handleCall (w : CallWorld κ) (call : ToolCall κ) (p : Progress κ) : Handled κ :=
  match call.functionName with
  | none => .answered (p.answer call (errorResult call "tool call is missing a function name".toList))
  | some name =>
    if name = "search_tools".toList ∧ ¬ S.searchableTools.isEmpty then
      let query := (textArgument "query".toList call.arguments).getD []
      let matched := searchToolEntries X.lower S.searchableTools query
      .answered ((p.disclose matched).answer call (toolSearchResult call matched))
    else if name ∈ S.teammateToolNames then .answered (p.answer call (delegateToTeammate w call))
    else if name ∈ S.skillToolNames then .answered (p.answer call (loadSkillBody w call))
    else if name ∉ S.toolNames then
      .answered (p.answer call (errorResult call ("permission denied for MCP tool: ".toList ++ name)))
    else if w.requiresConfirmation then askConfirmation w call p
    else runCall w call p

/-- The calls of one response, up to one that pauses. -/
def handleCalls : List (CallWorld κ × ToolCall κ) → Progress κ → Handled κ
  | [], p => .answered p
  | (w, call) :: rest, p =>
    match handleCall X S w call p with
    | .answered p => handleCalls rest p
    | .paused p call _ => .paused p call (rest.map Prod.snd)
    | .failed => .failed

end Calls

section Rounds

variable (X : Executor κ)

def Response.text (r : Response κ) : Text :=
  strip (r.content.flatMap (fun
    | .text t => t
    | _ => []))

def worlds (w : RoundWorld κ) (calls : List (ToolCall κ)) : List (CallWorld κ × ToolCall κ) :=
  calls.zipIdx.map (fun c => (w.call c.2, c.1))

variable [DecidableEq κ]

def requestMessages (compactor : Option (List (Message κ) → Option (List (Message κ)))) (t : Turn κ) :
    List (Message κ) :=
  maybeCompactMessages X.jsonSize X.contextCharThreshold compactor t.messages

def Turn.end (verdict : Verdict) (t : Turn κ) : Turn κ := { t with phase := .over verdict }

def respond (w : RoundWorld κ) (r : Response κ) (t : Turn κ) : Turn κ :=
  let calls := r.toolCalls.getD []
  if calls.isEmpty ∨ t.setup.maxToolIterations ≤ t.iteration then t.end (.completed r.text)
  else
    let t := { t with issued := t.issued ++ calls }
    match handleCalls X t.setup (worlds w calls) ⟨t.messages, t.tools, t.disclosed⟩ with
    | .answered p =>
      { t with
        messages := p.messages
        tools := p.tools
        disclosed := p.disclosed
        iteration := t.iteration + 1 }
    | .paused p call rest =>
      { t with
        messages := p.messages
        tools := p.tools
        disclosed := p.disclosed
        phase := .paused call rest }
    | .failed => t.end .failed

/-- One pass of the loop, where there is one left. -/
def round (w : RoundWorld κ) (t : Turn κ) : Turn κ :=
  if t.setup.maxToolIterations < t.iteration then t.end .failed
  else
    let messages := requestMessages X w.compactor t
    let t := { t with messages := messages, requests := t.requests ++ [messages] }
    match w.reply with
    | none => t.end .failed
    | some r => respond X w r t

end Rounds

/-- `confirm`. A confirmation that is not claimed leaves the turn as it is. -/
def confirm (w : ConfirmWorld κ) (t : Turn κ) : Turn κ :=
  match t.phase with
  | .paused call _ =>
    if w.claimed then
      if w.restored && w.agentKnown && w.principalMatches && w.unchanged && !w.preToolUse.blocked then
        match applyHookToolInput call w.preToolUse w.validateArguments with
        | (_, some _) => { t with phase := .over .failed }
        | (call, none) =>
          let p : Progress κ := ⟨t.messages, w.tools, []⟩
          let p := p.answer call (postToolResult call (executeToolCall w.callTool call) w.postToolUse)
          { t with
            setup := { t.setup with
              toolNames := w.toolNames
              teammateToolNames := w.teammateToolNames
              skillToolNames := w.skillToolNames
              searchableTools := [] }
            messages := p.messages
            tools := p.tools
            disclosed := p.disclosed
            iteration := t.iteration + 1
            phase := .requesting }
      else { t with phase := .over .failed }
    else t
  | _ => t

def extendSystem (text : Text) : List (Message κ) → Option (List (Message κ))
  | [] => none
  | m :: ms =>
    if m.role = .system then some (⟨.system, m.content ++ [.text text]⟩ :: ms)
    else (extendSystem text ms).map (fun ms => m :: ms)

def appendSystemText (text : Text) (messages : List (Message κ)) : List (Message κ) :=
  if text = [] then messages
  else (extendSystem text messages).getD (⟨.system, [.text text]⟩ :: messages)

/-- A turn as `run` begins it. -/
def startTurn (S : Setup) (tools : List Tool) (system : Text) (history : List (Message κ))
    (content : List (AgentMessages.Part κ)) (outcomes : List (HookOutcome κ)) (catalog : Text) : Turn κ where
  setup := S
  messages := appendSystemText catalog
    (injectHookContext (⟨.system, [.text system]⟩ :: history ++ [⟨.user, content⟩]) outcomes)
  tools := tools
  disclosed := []
  iteration := 0
  phase := .requesting
  issued := []
  requests := []

end Kirara.AgentLoop
