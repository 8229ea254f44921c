import Kirara.AgentLoop
import Kirara.Schedules

namespace Kirara.ToolAnswers

open Kirara.Channels Kirara.AgentMessages Kirara.Compaction Kirara.AgentLoop Kirara.Schedules

variable {κ : Type}

def resultIdentity : AgentMessages.Part κ → Option (Option Text × Text)
  | .toolResult id name _ _ => some (id, name)
  | _ => none

def answers (messages : List (Message κ)) : List (Option Text × Text) :=
  messages.flatMap (fun m => if m.role = .tool then m.content.filterMap resultIdentity else [])

theorem answers_append (front back : List (Message κ)) :
    answers (front ++ back) = answers front ++ answers back :=
  List.flatMap_append

/-- The turn of `p'` goes on from that of `p` with an answer for each of the calls. -/
structure Answers (p p' : Progress κ) (calls : List (Option Text × Text)) : Prop where
  hasUser : HasUser p'.messages
  answered : answers (afterUser p'.messages) = answers (afterUser p.messages) ++ calls

section Calls

variable {p q r : Progress κ} {call : ToolCall κ} {calls others : List (Option Text × Text)}

theorem answers_trans (h : Answers p q calls) (k : Answers q r others) : Answers p r (calls ++ others) where
  hasUser := k.hasUser
  answered := by rw [k.answered, h.answered, List.append_assoc]

def For (call : ToolCall κ) (result : AgentMessages.Part κ) : Prop := resultIdentity result = some call.identity

theorem for_errorResult (message : Text) : For call (errorResult call message) := rfl

theorem for_valueResult (v : Json κ) (isError : Bool) : For call (valueResult call v isError) := rfl

variable {result : AgentMessages.Part κ}

theorem answers_answer (hu : HasUser p.messages) (hr : For call result) :
    Answers p (p.answer call result) [call.identity] where
  hasUser := by
    obtain ⟨u, hu, hrole⟩ := hu
    exact ⟨u, List.mem_append_left _ hu, hrole⟩
  answered := by
    have hback : ∀ m ∈ [assistantToolMessage call, ⟨.tool, [result]⟩], m.role ≠ .user := by
      simp [assistantToolMessage]
    unfold Progress.answer
    rw [afterUser_append hback, answers_append]
    have hr : resultIdentity result = some call.identity := hr
    simp [answers, assistantToolMessage, hr]

theorem for_toolSearchResult (call : ToolCall κ) (matched : List Tool) : For call (toolSearchResult call matched) := rfl

variable (w : CallWorld κ)

theorem for_delegateToTeammate : For call (delegateToTeammate w call) := by
  unfold delegateToTeammate
  dsimp only
  split
  · exact for_errorResult _
  split
  · exact for_errorResult _
  split
  · exact for_errorResult _
  · exact for_errorResult _
  · exact for_errorResult _
  · exact for_valueResult _ _

theorem for_loadSkillBody : For call (loadSkillBody w call) := by
  unfold loadSkillBody
  dsimp only
  split
  · exact for_errorResult _
  · exact for_errorResult _
  · exact for_errorResult _
  · split
    · exact for_errorResult _
    · exact for_valueResult _ _

theorem for_postToolResult (h : For call result) (o : HookOutcome κ) :
    For call (postToolResult call result o) := by
  unfold postToolResult
  split
  · exact for_errorResult _
  · exact h

theorem for_executeToolCall (callTool : Arguments κ → ToolOutcome κ) (call : ToolCall κ) :
    For call (executeToolCall callTool call) := by
  unfold executeToolCall
  split
  · exact for_errorResult _
  · exact for_errorResult _
  · exact for_valueResult _ _

theorem identity_applyHookToolInput (call : ToolCall κ) (o : HookOutcome κ)
    (validate : Arguments κ → Option Text) :
    (applyHookToolInput call o validate).1.identity = call.identity := by
  unfold applyHookToolInput
  split
  · rfl
  split
  · rfl
  · cases call with
    | mk id f => cases f <;> rfl

/-- What handling one call comes to: its answer, or a pause before it. -/
inductive Settles (p : Progress κ) (call : ToolCall κ) : Handled κ → Prop where
  | answered {p' : Progress κ} (h : Answers p p' [call.identity]) : Settles p call (.answered p')
  | paused {call' : ToolCall κ} (h : call'.identity = call.identity) :
    Settles p call (.paused p call' [])
  | failed : Settles p call .failed

theorem settles_answer {call' : ToolCall κ} (hu : HasUser p.messages)
    (hi : call'.identity = call.identity) (hr : For call' result) :
    Settles p call (.answered (p.answer call' result)) :=
  .answered (hi ▸ answers_answer hu hr)

theorem settles_runCall (hu : HasUser p.messages) : Settles p call (runCall w call p) := by
  have hi := identity_applyHookToolInput call w.preToolUse w.validateArguments
  unfold runCall
  split
  · exact settles_answer hu rfl (for_errorResult _)
  split
  · next call' e heq =>
    rw [heq] at hi
    exact settles_answer hu hi (for_errorResult _)
  · next call' heq =>
    rw [heq] at hi
    have hanswer := answers_answer hu (for_postToolResult (for_executeToolCall w.callTool call')
      w.postToolUse)
    refine .answered ⟨hasUser_injectHookContext hanswer.hasUser, ?_⟩
    rw [afterUser_injectHookContext hanswer.hasUser, hanswer.answered, hi]

theorem settles_askConfirmation (hu : HasUser p.messages) : Settles p call (askConfirmation w call p) := by
  have hi := identity_applyHookToolInput call w.preToolUse w.validateArguments
  unfold askConfirmation
  split
  · exact settles_answer hu rfl (for_errorResult _)
  split
  · next call' e heq =>
    rw [heq] at hi
    exact settles_answer hu hi (for_errorResult _)
  · next call' heq =>
    rw [heq] at hi
    split
    · exact settles_answer hu hi (for_errorResult _)
    split
    · split
      · exact .paused hi
      · exact .failed
    · exact settles_answer hu hi (for_errorResult _)

theorem messages_disclose (matched : List Tool) (p : Progress κ) :
    (p.disclose matched).messages = p.messages := by
  unfold Progress.disclose
  induction matched generalizing p with
  | nil => rfl
  | cons t ts ih =>
    rw [List.foldl_cons, ih]
    split <;> rfl

theorem settles_handleCall (X : Executor κ) (S : Setup) (w : CallWorld κ) (call : ToolCall κ)
    (hu : HasUser p.messages) : Settles p call (handleCall X S w call p) := by
  unfold handleCall
  split
  · exact settles_answer hu rfl (for_errorResult _)
  split
  · dsimp only
    generalize searchToolEntries X.lower S.searchableTools _ = matched
    have hm := messages_disclose matched p
    have hanswer := answers_answer (p := p.disclose matched) (hm ▸ hu) (for_toolSearchResult call matched)
    exact .answered ⟨hanswer.hasUser, hm ▸ hanswer.answered⟩
  · split
    · exact settles_answer hu rfl (for_delegateToTeammate w)
    · split
      · exact settles_answer hu rfl (for_loadSkillBody w)
      · split
        · exact settles_answer hu rfl (for_errorResult _)
        · split
          · exact settles_askConfirmation w hu
          · exact settles_runCall w hu

/-- An answer for each call, or for those before the one that pauses. -/
inductive SettlesAll (p : Progress κ) (calls : List (ToolCall κ)) : Handled κ → Prop where
  | answered {p' : Progress κ} (h : Answers p p' (calls.map ToolCall.identity)) :
    SettlesAll p calls (.answered p')
  | paused {p' : Progress κ} {call : ToolCall κ} (done rest : List (ToolCall κ))
    (h : Answers p p' (done.map ToolCall.identity))
    (hc : (done.map ToolCall.identity) ++ call.identity :: rest.map ToolCall.identity =
      calls.map ToolCall.identity) : SettlesAll p calls (.paused p' call rest)
  | failed : SettlesAll p calls .failed

theorem answers_nil (hu : HasUser p.messages) : Answers p p [] := ⟨hu, (List.append_nil _).symm⟩

theorem settles_handleCalls (X : Executor κ) (S : Setup) (calls : List (CallWorld κ × ToolCall κ))
    (hu : HasUser p.messages) : SettlesAll p (calls.map Prod.snd) (handleCalls X S calls p) := by
  induction calls generalizing p with
  | nil => exact .answered (answers_nil hu)
  | cons c calls ih =>
    obtain ⟨w, call⟩ := c
    have hcall := settles_handleCall X S w call hu
    rw [handleCalls]
    generalize handleCall X S w call p = handled at hcall
    cases hcall with
    | failed => exact .failed
    | paused hi => exact .paused [] _ (answers_nil hu) (by simp [hi])
    | answered h =>
      have hrest := ih h.hasUser
      dsimp only
      generalize handleCalls X S calls _ = handled at hrest
      cases hrest with
      | failed => exact .failed
      | answered k => exact .answered (answers_trans h k)
      | paused done rest k hc =>
        refine .paused (call :: done) rest (answers_trans h k) ?_
        rw [List.map_cons, List.cons_append, hc]
        rfl

end Calls

section Turns

/-- What happens to a turn: a round of the loop, or the confirmation of its pending call. -/
inductive Label (κ : Type) where
  | round (w : RoundWorld κ)
  | confirm (w : ConfirmWorld κ)

def Approves (w : ConfirmWorld κ) (call : ToolCall κ) : Prop :=
  w.claimed ∧ (w.restored && w.agentKnown && w.principalMatches && w.unchanged &&
    !w.preToolUse.blocked) = true ∧
    (applyHookToolInput call w.preToolUse w.validateArguments).2 = none

/-- The issued calls are answered, up to the pending one and those after it. -/
def Sound (t : Turn κ) : Prop :=
  HasUser t.messages ∧
    match t.phase with
    | .requesting => answers (afterUser t.messages) = t.issued.map ToolCall.identity
    | .paused call rest =>
      answers (afterUser t.messages) ++ call.identity :: rest.map ToolCall.identity =
        t.issued.map ToolCall.identity
    | .over _ => True

theorem sound_end {t : Turn κ} {v : Verdict} (hu : HasUser t.messages) : Sound (t.end v) :=
  ⟨hu, trivial⟩

variable {t : Turn κ} {call : ToolCall κ} {rest : List (ToolCall κ)} {w : ConfirmWorld κ}

theorem confirm_of_approves (hp : t.phase = .paused call rest) (hw : Approves w call)
    (hu : HasUser t.messages) : (confirm w t).phase = .requesting ∧ (confirm w t).issued = t.issued ∧
      HasUser (confirm w t).messages ∧
      answers (afterUser (confirm w t).messages) = answers (afterUser t.messages) ++ [call.identity] := by
  obtain ⟨hclaimed, hchecks, hinput⟩ := hw
  have hi := identity_applyHookToolInput call w.preToolUse w.validateArguments
  cases ha : applyHookToolInput call w.preToolUse w.validateArguments with
  | mk call' inputError =>
    rw [ha] at hinput hi
    cases hinput
    have hanswer := answers_answer (p := ⟨t.messages, w.tools, []⟩) hu
      (for_postToolResult (for_executeToolCall w.callTool call') w.postToolUse)
    simp only [confirm, hp, hclaimed, hchecks, ha, if_true]
    exact ⟨trivial, trivial, hanswer.hasUser, hi ▸ hanswer.answered⟩

theorem confirm_of_not_approves (hp : t.phase = .paused call rest) (hw : ¬ Approves w call) :
    confirm w t = t ∨ confirm w t = { t with phase := .over .failed } := by
  unfold confirm
  rw [hp]
  dsimp only
  split
  · next hclaimed =>
    right
    split
    · next hchecks =>
      split
      · rfl
      · next heq => exact absurd ⟨hclaimed, hchecks, by rw [heq]⟩ hw
    · rfl
  · exact .inl rfl

variable (X : Executor κ)

theorem sound_respond {t : Turn κ} (w : RoundWorld κ) (r : Response κ) (h : Sound t)
    (hp : t.phase = .requesting) : Sound (respond X w r t) := by
  obtain ⟨hu, ha⟩ := h
  rw [hp] at ha
  unfold respond
  dsimp only
  split
  · exact sound_end hu
  generalize r.toolCalls.getD [] = calls
  have hcalls : (worlds w calls).map Prod.snd = calls := by
    simp [worlds, Function.comp_def]
  have hall := settles_handleCalls X t.setup (worlds w calls)
    (p := ⟨t.messages, t.tools, t.disclosed⟩) hu
  rw [hcalls] at hall
  generalize handleCalls X t.setup (worlds w calls) _ = handled at hall
  cases hall with
  | failed => exact sound_end hu
  | answered k =>
    refine ⟨k.hasUser, ?_⟩
    simp only [hp]
    rw [k.answered, ha, List.map_append]
  | paused done rest k hc =>
    refine ⟨k.hasUser, ?_⟩
    dsimp only
    rw [k.answered, ha, List.map_append, List.append_assoc, hc]

variable [DecidableEq κ]

theorem sound_round {t : Turn κ} (w : RoundWorld κ) (h : Sound t) (hp : t.phase = .requesting) :
    Sound (AgentLoop.round X w t) := by
  have hkeeps := keepsTurn_maybeCompact X.jsonSize X.contextCharThreshold w.compactor h.1
  unfold AgentLoop.round
  split
  · exact sound_end h.1
  dsimp only
  split
  · exact sound_end hkeeps.hasUser
  refine sound_respond X w _ ⟨hkeeps.hasUser, ?_⟩ hp
  have ha := h.2
  simp only [hp] at ha ⊢
  exact (congrArg answers hkeeps.afterUser).trans ha

def next (t : Turn κ) : Label κ → Option (Turn κ)
  | .round w =>
    match t.phase with
    | .requesting => some (AgentLoop.round X w t)
    | _ => none
  | .confirm w =>
    match t.phase with
    | .paused _ _ => some (confirm w t)
    | _ => none

/-- The next request answers each call of the turn, once and in order. -/
def Answered (t : Turn κ) : Prop :=
  t.phase = .requesting → ∀ compactor,
    answers (afterUser (requestMessages X compactor t)) = t.issued.map ToolCall.identity

def Keeps (t : Turn κ) (l : Label κ) : Prop := ∀ u, next X t l = some u → Answered X u

def Careful (t : Turn κ) : Label κ → Prop
  | .round _ => True
  | .confirm w => ∀ call rest, t.phase = .paused call rest → Approves w call → rest = []

theorem answered_iff {t : Turn κ} (hu : HasUser t.messages) : Answered X t ↔ (t.phase = .requesting →
      answers (afterUser t.messages) = t.issued.map ToolCall.identity) := by
  refine forall_congr' (fun _ => ?_)
  constructor
  · intro h
    rw [← h none, requestMessages,
      (keepsTurn_maybeCompact X.jsonSize X.contextCharThreshold none hu).afterUser]
  · intro h compactor
    rw [requestMessages,
      (keepsTurn_maybeCompact X.jsonSize X.contextCharThreshold compactor hu).afterUser, h]

theorem answered_of_sound {t : Turn κ} (h : Sound t) : Answered X t := by
  refine (answered_iff X h.1).mpr (fun hp => ?_)
  have ha := h.2
  rwa [hp] at ha

theorem sound_of_requesting {t : Turn κ} (hu : HasUser t.messages) (hp : t.phase = .requesting)
    (h : Answered X t) : Sound t := by
  refine ⟨hu, ?_⟩
  rw [hp]
  exact (answered_iff X hu).mp h hp

theorem step_spec {t : Turn κ} (h : Sound t) (l : Label κ) :
    (Keeps X t l ↔ Careful t l) ∧ (Keeps X t l → ∀ u, next X t l = some u → Sound u) := by
  cases l with
  | round w =>
    have hround : ∀ u, next X t (.round w) = some u → Sound u := by
      intro u hu
      cases hp : t.phase with
      | requesting =>
        simp only [next, hp, Option.some.injEq] at hu
        exact hu ▸ sound_round X w h hp
      | paused call rest => simp [next, hp] at hu
      | «over» v => simp [next, hp] at hu
    exact ⟨iff_of_true (fun u hu => answered_of_sound X (hround u hu)) trivial, fun _ => hround⟩
  | confirm w =>
    cases hp : t.phase with
    | requesting =>
      have hnone : next X t (.confirm w) = none := by simp [next, hp]
      refine ⟨iff_of_true (fun u hu => ?_) (fun _ _ hpaused => ?_), fun _ u hu => ?_⟩
      · cases hnone.symm.trans hu
      · cases hp.symm.trans hpaused
      · cases hnone.symm.trans hu
    | «over» v =>
      have hnone : next X t (.confirm w) = none := by simp [next, hp]
      refine ⟨iff_of_true (fun u hu => ?_) (fun _ _ hpaused => ?_), fun _ u hu => ?_⟩
      · cases hnone.symm.trans hu
      · cases hp.symm.trans hpaused
      · cases hnone.symm.trans hu
    | paused call rest =>
      have hnext : next X t (.confirm w) = some (confirm w t) := by simp [next, hp]
      have hcareful : Careful t (.confirm w) ↔ (Approves w call → rest = []) := by
        simp [Careful, hp]
      have hkeeps : Keeps X t (.confirm w) ↔ Answered X (confirm w t) := by
        simp [Keeps, hnext]
      have hsound : (Keeps X t (.confirm w) → Sound (confirm w t)) →
          (Keeps X t (.confirm w) → ∀ u, next X t (.confirm w) = some u → Sound u) := by
        intro hs hk u hu
        cases hnext.symm.trans hu
        exact hs hk
      rw [hcareful]
      by_cases hw : Approves w call
      · obtain ⟨hphase, hissued, huser, hans⟩ := confirm_of_approves hp hw h.1
        have ha := h.2
        rw [hp] at ha
        refine ⟨?_, hsound (fun hk => sound_of_requesting X huser hphase (hkeeps.mp hk))⟩
        rw [hkeeps, answered_iff X huser, hissued, hans, ← ha]
        simp [hphase, hw]
      · have hsame : Sound (confirm w t) := by
          cases confirm_of_not_approves hp hw with
          | inl he =>
            rw [he]
            exact h
          | inr he =>
            rw [he]
            exact sound_end h.1
        exact ⟨iff_of_true (hkeeps.mpr (answered_of_sound X hsame)) (fun hw' => absurd hw' hw),
          hsound (fun _ => hsame)⟩

end Turns

def EndsWithUser (messages : List (Message κ)) : Prop :=
  ∃ front u, messages = front ++ [u] ∧ u.role = .user

variable {messages : List (Message κ)}

theorem endsWithUser_cons {m : Message κ} (h : EndsWithUser messages) : EndsWithUser (m :: messages) := by
  obtain ⟨front, u, rfl, hu⟩ := h
  exact ⟨m :: front, u, rfl, hu⟩

theorem hasUser_of_endsWithUser (h : EndsWithUser messages) : HasUser messages := by
  obtain ⟨front, u, rfl, hu⟩ := h
  exact ⟨u, by simp, hu⟩

theorem afterUser_of_endsWithUser (h : EndsWithUser messages) : afterUser messages = [] := by
  obtain ⟨front, u, rfl, hu⟩ := h
  exact afterUser_of_user front hu (fun _ hm => (nomatch hm))

theorem endsWithUser_of_afterUser (hu : HasUser messages) (h : afterUser messages = []) :
    EndsWithUser messages := by
  obtain ⟨front, u, hsplit, hrole⟩ := exists_user_split hu
  exact ⟨front, u, h ▸ hsplit, hrole⟩

theorem endsWithUser_extendSystem {text : Text} {extended : List (Message κ)}
    (h : EndsWithUser messages) (he : extendSystem text messages = some extended) : EndsWithUser extended := by
  induction messages generalizing extended with
  | nil => cases he
  | cons m ms ih =>
    obtain ⟨front, u, hsplit, hu⟩ := h
    unfold extendSystem at he
    cases front with
    | nil =>
      obtain ⟨rfl, rfl⟩ := List.cons.inj hsplit
      simp [hu, extendSystem] at he
    | cons f front =>
      obtain ⟨rfl, rfl⟩ := List.cons.inj hsplit
      have htail : EndsWithUser (front ++ [u]) := ⟨front, u, rfl, hu⟩
      split at he
      · cases he
        exact endsWithUser_cons htail
      · obtain ⟨tail, ht, rfl⟩ := Option.map_eq_some_iff.mp he
        exact endsWithUser_cons (ih htail ht)

theorem endsWithUser_appendSystemText (text : Text) (h : EndsWithUser messages) :
    EndsWithUser (appendSystemText text messages) := by
  unfold appendSystemText
  split
  · exact h
  cases he : extendSystem text messages with
  | none => exact endsWithUser_cons h
  | some extended => exact endsWithUser_extendSystem h he

variable (X : Executor κ) (S : Setup) (tools : List Tool) (system : Text)
  (history : List (Message κ)) (content : List (AgentMessages.Part κ)) (outcomes : List (HookOutcome κ))
  (catalog : Text)

theorem sound_startTurn : Sound (startTurn S tools system history content outcomes catalog) := by
  have hbuilt : EndsWithUser (⟨.system, [.text system]⟩ :: history ++ [⟨.user, content⟩]) :=
    ⟨⟨.system, [.text system]⟩ :: history, ⟨.user, content⟩, rfl, rfl⟩
  have huser := hasUser_of_endsWithUser hbuilt
  have hinjected : EndsWithUser (injectHookContext
      (⟨.system, [.text system]⟩ :: history ++ [⟨.user, content⟩]) outcomes) := by
    apply endsWithUser_of_afterUser (hasUser_injectHookContext huser)
    rw [afterUser_injectHookContext huser, afterUser_of_endsWithUser hbuilt]
  have hstart := endsWithUser_appendSystemText catalog hinjected
  refine ⟨hasUser_of_endsWithUser hstart, ?_⟩
  exact congrArg answers (afterUser_of_endsWithUser hstart)

variable [DecidableEq κ]

/-- In a run every request answers the calls issued before it just in case every confirmation
that resumes the turn is for the last call of its response. -/
theorem answered_runs_iff (labels : List (Label κ)) :
    Along (next X) (Keeps X) (startTurn S tools system history content outcomes catalog) labels ↔
      Along (next X) Careful (startTurn S tools system history content outcomes catalog) labels := by
  have hstart := sound_startTurn S tools system history content outcomes catalog
  constructor
  · apply along_of_invariant (next X) (I := Sound) _ _ hstart
    · intro t l hs hk
      exact (step_spec X hs l).1.mp hk
    · intro t l u hk hs hu
      exact (step_spec X hs l).2 hk u hu
  · apply along_of_invariant (next X) (I := Sound) _ _ hstart
    · intro t l hs hc
      exact (step_spec X hs l).1.mpr hc
    · intro t l u hc hs hu
      exact (step_spec X hs l).2 ((step_spec X hs l).1.mpr hc) u hu

def noHook : HookOutcome Unit := ⟨false, [], [], [], none, none, none⟩

def uncompacted : Executor Unit := ⟨0, fun _ => 0, id⟩

def oneTool : Setup := ⟨true, 4, [['a']], [], [], []⟩

def confirmable : CallWorld Unit where
  requiresConfirmation := true
  preToolUse := noHook
  permissionRequest := noHook
  postToolUse := noHook
  validateArguments := fun _ => none
  principalControls := true
  persists := true
  teammate := fun _ _ => .unknown
  skill := fun _ => .unbound
  callTool := fun _ => .rejected

def twoCalls : RoundWorld Unit where
  compactor := none
  reply := some ⟨[], some [⟨some ['1'], some ⟨some ['a'], none⟩⟩, ⟨some ['2'], some ⟨some ['a'], none⟩⟩]⟩
  call := fun _ => confirmable

def approval : ConfirmWorld Unit where
  claimed := true
  restored := true
  agentKnown := true
  principalMatches := true
  unchanged := true
  preToolUse := noHook
  postToolUse := noHook
  validateArguments := fun _ => none
  callTool := fun _ => .returned (.text ['y']) false
  toolNames := [['a']]
  teammateToolNames := []
  skillToolNames := []
  tools := []

/-- The second of two parallel calls gets no answer once the first is confirmed. -/
theorem parallel_call_dropped : ∃ t, exec (next uncompacted) (startTurn oneTool [] [] [] [.text ['q']] [] [])
        [.round twoCalls, .confirm approval] = some t ∧
      t.phase = .requesting ∧
      t.issued.map ToolCall.identity = [(some ['1'], ['a']), (some ['2'], ['a'])] ∧
      answers (afterUser (requestMessages uncompacted none t)) = [(some ['1'], ['a'])] ∧
      ¬ Answered uncompacted t := by
  refine ⟨_, rfl, rfl, by decide +kernel, by decide +kernel, fun h => ?_⟩
  have hanswered := h rfl none
  revert hanswered
  decide +kernel

end Kirara.ToolAnswers
