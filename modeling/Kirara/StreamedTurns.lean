import Kirara.Schedules
import Kirara.StreamFrames

namespace Kirara.StreamedTurns

open Kirara.Channels Kirara.AgentMessages Kirara.Compaction Kirara.AgentLoop Kirara.Schedules
open Kirara.StreamFrames

/-- `reply_stream_mode`. -/
inductive Mode where
  | off
  | aggregate
  | incremental
  deriving DecidableEq

/-- A completion of the model: its message, and the frames of its stream. -/
structure Completion where
  body : Body
  frames : List Frame
  pieces : List Chunk
  chunks_eq : chunks frames = some pieces
  cuts : Cuts body pieces

structure StreamWorld (κ : Type) where
  compactor : Option (List (Message κ) → Option (List (Message κ)))
  completion : Option Completion
  executeStream : Bool
  supportsToolCalls : Bool
  hide : Text → Text
  call : Nat → CallWorld κ

/-- What happens to a turn. What its phase does not call for leaves it as it is. -/
inductive Event (κ : Type) where
  | round (w : StreamWorld κ)
  | confirm (w : ConfirmWorld κ)

variable {κ : Type}

section Requests

def hidden (hide : Text → Text) : AgentMessages.Part κ → AgentMessages.Part κ
  | .text t => .text (hide t)
  | p => p

def applyResponsePolicy (hide : Text → Text) (r : Response κ) : Response κ :=
  { r with content := r.content.map (hidden hide) }

def requestTools (t : Turn κ) : List Tool :=
  if t.setup.allowTools ∧ t.iteration < t.setup.maxToolIterations then t.tools else []

def streamRequestAllowed (mode : Mode) (w : StreamWorld κ) (t : Turn κ) : Bool :=
  mode ≠ .off && w.executeStream && ((requestTools t).isEmpty || w.supportsToolCalls)

theorem streamRequestAllowed_off (w : StreamWorld κ) (t : Turn κ) : streamRequestAllowed .off w t = false := rfl

variable (loads : Text → Loaded κ)

def executeModel (mode : Mode) (w : StreamWorld κ) (t : Turn κ) : Option (Response κ) :=
  match w.completion with
  | none => none
  | some c =>
    (if streamRequestAllowed mode w t then executeModelStreaming loads c.frames
      else chat loads c.body).map (applyResponsePolicy w.hide)

def roundWorld (mode : Mode) (w : StreamWorld κ) (t : Turn κ) : RoundWorld κ :=
  ⟨w.compactor, executeModel loads mode w t, w.call⟩

theorem text_eq (r : Response κ) : r.text = strip (r.content.flatMap partText) := rfl

theorem text_of_single (hide : Text → Text) (t : Text) :
    (applyResponsePolicy hide (⟨[.text t], none⟩ : Response κ)).text = strip (hide t) := by
  simp [text_eq, applyResponsePolicy, hidden, partText]

theorem partText_hidden_calls (hide : Text → Text) {ps : List (AgentMessages.Part κ)} (h : ∀ p ∈ ps, isToolCall p = true) :
    (ps.map (hidden hide)).flatMap partText = [] := by
  refine List.flatMap_eq_nil_iff.mpr (fun q hq => ?_)
  obtain ⟨p, hp, rfl⟩ := List.mem_map.mp hq
  have hcall := h p hp
  cases p with
  | toolCall id name parameters => rfl
  | text t => cases hcall
  | image m => cases hcall
  | toolResult id name content e => cases hcall

theorem text_of_calls (hide : Text → Text) {r : Response κ} (h : ∀ p ∈ r.content, isToolCall p = true) :
    (applyResponsePolicy hide r).text = [] := by
  rw [text_eq, applyResponsePolicy, partText_hidden_calls hide h]
  rfl

theorem executeModelStreaming_spec (hide : Text → Text) (c : Completion) :
    ∃ r : Response κ, executeModelStreaming loads c.frames = some r ∧ r.toolCalls = none ∧
      (applyResponsePolicy hide r).text = strip (hide (c.body.content.getD [])) := by
  have hr : executeModelStreaming loads c.frames = some (aggregate (deliver loads .empty c.pieces)) := by
    rw [executeModelStreaming, streamChat, c.chunks_eq]
    rfl
  refine ⟨_, hr, rfl, ?_⟩
  rw [aggregate_deliver c.cuts, text_eq, applyResponsePolicy, List.map_cons, List.flatMap_cons,
    partText_hidden_calls hide (fun p hp => ?_), List.append_nil]
  · rfl
  · obtain ⟨call, _, hcall⟩ := List.mem_filterMap.mp hp
    obtain ⟨name, _, rfl⟩ := Option.map_eq_some_iff.mp hcall
    rfl

theorem reply_off {w : StreamWorld κ} {t : Turn κ} {c : Completion} (hw : w.completion = some c) :
    (roundWorld loads .off w t).reply = (chat loads c.body).map (applyResponsePolicy w.hide) := by
  simp [roundWorld, executeModel, hw, streamRequestAllowed_off]

end Requests

section Responses

variable (X : Executor κ) {w : RoundWorld κ} {r : Response κ} {t : Turn κ}

theorem respond_of_final (h : r.toolCalls.getD [] = [] ∨ t.setup.maxToolIterations ≤ t.iteration) :
    respond X w r t = t.end (.completed r.text) := by
  have h : (r.toolCalls.getD []).isEmpty = true ∨ t.setup.maxToolIterations ≤ t.iteration :=
    h.imp_left List.isEmpty_iff.mpr
  exact if_pos h

theorem issued_respond (h : r.toolCalls.getD [] ≠ []) (hlt : t.iteration < t.setup.maxToolIterations) :
    (respond X w r t).issued = t.issued ++ r.toolCalls.getD [] := by
  have h : ¬ ((r.toolCalls.getD []).isEmpty = true ∨ t.setup.maxToolIterations ≤ t.iteration) :=
    not_or.mpr ⟨fun he => h (List.isEmpty_iff.mp he), Nat.not_le.mpr hlt⟩
  rw [respond]
  dsimp only
  rw [if_neg h]
  split <;> rfl

theorem issued_le_respond (w : RoundWorld κ) (r : Response κ) (t : Turn κ) :
    t.issued.length ≤ (respond X w r t).issued.length := by
  by_cases hfinal : r.toolCalls.getD [] = [] ∨ t.setup.maxToolIterations ≤ t.iteration
  · rw [respond_of_final X hfinal]
    exact le_refl _
  · obtain ⟨hcalls, hlt⟩ := not_or.mp hfinal
    rw [issued_respond X hcalls (Nat.not_le.mp hlt), List.length_append]
    omega

theorem issued_confirm (w : ConfirmWorld κ) (t : Turn κ) : (confirm w t).issued = t.issued := by
  unfold confirm
  split
  · split
    · split
      · split <;> rfl
      · rfl
    · rfl
  · rfl

end Responses

section Steps

variable [DecidableEq κ] (X : Executor κ) (loads : Text → Loaded κ) (mode : Mode)

def step (t : Turn κ) : Event κ → Turn κ
  | .round w =>
    match t.phase with
    | .requesting => AgentLoop.round X (roundWorld loads mode w t) t
    | _ => t
  | .confirm w => confirm w t

def run (t : Turn κ) (events : List (Event κ)) : Turn κ := events.foldl (step X loads mode) t

/-- The same calls in order, the same messages to the model, and the same status and text. -/
structure Agrees (t u : Turn κ) : Prop where
  issued : t.issued = u.issued
  requests : t.requests = u.requests
  phase : t.phase = u.phase

/-- The stream carries all that the turn makes of the message. -/
def Plain (hide : Text → Text) (body : Body) (t : Turn κ) : Prop :=
  if body.toolCalls = [] then
    strip body.text ≠ [] ∧ (body.content = none → strip (hide body.refusal) = strip (hide []))
  else
    t.setup.maxToolIterations ≤ t.iteration ∧ (∀ call ∈ body.toolCalls, call.Readable loads) ∧
      strip (hide (body.content.getD [])) = []

def Careful (t : Turn κ) : Event κ → Prop
  | .round w => t.phase = .requesting → t.iteration ≤ t.setup.maxToolIterations →
    ∀ c, w.completion = some c → streamRequestAllowed mode w t → Plain loads w.hide c.body t
  | .confirm _ => True

section Rounds

variable {w : RoundWorld κ} {r : Response κ} {t : Turn κ}

def asked (compactor : Option (List (Message κ) → Option (List (Message κ)))) (t : Turn κ) : Turn κ :=
  { t with
    messages := requestMessages X compactor t
    requests := t.requests ++ [requestMessages X compactor t] }

theorem round_eq (h : t.iteration ≤ t.setup.maxToolIterations) : AgentLoop.round X w t =
      match w.reply with
      | none => (asked X w.compactor t).end .failed
      | some r => respond X w r (asked X w.compactor t) :=
  if_neg (Nat.not_lt.mpr h)

theorem issued_le_round (w : RoundWorld κ) (t : Turn κ) :
    t.issued.length ≤ (AgentLoop.round X w t).issued.length := by
  by_cases h : t.iteration ≤ t.setup.maxToolIterations
  · rw [round_eq X h]
    split
    · exact le_refl _
    · exact issued_le_respond X w _ (asked X w.compactor t)
  · rw [AgentLoop.round, if_pos (Nat.not_le.mp h)]
    exact le_refl _

theorem issued_le_step (t : Turn κ) (e : Event κ) :
    t.issued.length ≤ (step X loads mode t e).issued.length := by
  cases e with
  | round w =>
    rw [step]
    split
    · exact issued_le_round X _ t
    · exact le_refl _
  | confirm w => exact (congrArg List.length (issued_confirm w t)).ge

theorem step_of_over {v : Verdict} (h : t.phase = .over v) (e : Event κ) : step X loads mode t e = t := by
  cases e with
  | round w => simp [step, h]
  | confirm w => simp [step, confirm, h]

end Rounds

section Comparing

/-- The first turn has ended, the other one otherwise or after more calls. -/
def Apart (t u : Turn κ) : Prop :=
  ∃ v, t.phase = .over v ∧
    ((∃ v', u.phase = .over v' ∧ v ≠ v') ∨ t.issued.length < u.issued.length)

variable {X loads mode} {t u : Turn κ}

omit [DecidableEq κ] in
theorem not_agrees_of_apart (h : Apart t u) : ¬ Agrees t u := by
  intro ha
  obtain ⟨v, hv, hu⟩ := h
  cases hu with
  | inl hu =>
    obtain ⟨v', hv', hne⟩ := hu
    have hphase : Phase.over v = Phase.over v' := hv.symm.trans (ha.phase.trans hv')
    exact hne (Phase.over.inj hphase)
  | inr hlt => exact absurd (congrArg List.length ha.issued) (Nat.ne_of_lt hlt)

theorem apart_step (h : Apart t u) (e : Event κ) : Apart (step X loads mode t e) (step X loads .off u e) := by
  obtain ⟨v, hv, hu⟩ := h
  rw [step_of_over X loads mode hv]
  refine ⟨v, hv, ?_⟩
  cases hu with
  | inl hu =>
    obtain ⟨v', hv', hne⟩ := hu
    rw [step_of_over X loads .off hv']
    exact .inl ⟨v', hv', hne⟩
  | inr hlt => exact .inr (lt_of_lt_of_le hlt (issued_le_step X loads .off u e))

theorem apart_run (h : Apart t u) (events : List (Event κ)) :
    Apart (run X loads mode t events) (run X loads .off u events) := by
  induction events generalizing t u with
  | nil => exact h
  | cons e events ih => exact ih (apart_step h e)

variable {w : StreamWorld κ} {c : Completion}

variable (hle : t.iteration ≤ t.setup.maxToolIterations)

include hle

variable (hw : w.completion = some c)

include hw

theorem round_streamed
    (hs : streamRequestAllowed mode w t = true) : AgentLoop.round X (roundWorld loads mode w t) t =
      (asked X w.compactor t).end (.completed (strip (w.hide (c.body.content.getD [])))) := by
  obtain ⟨r, hr, hcalls, htext⟩ := executeModelStreaming_spec loads w.hide c
  have hreply : (roundWorld loads mode w t).reply = some (applyResponsePolicy w.hide r) := by
    simp [roundWorld, executeModel, hw, hs, hr]
  rw [round_eq X hle, hreply]
  dsimp only
  have hnone : (applyResponsePolicy w.hide r).toolCalls.getD [] = [] := by
    rw [applyResponsePolicy, hcalls, Option.getD_none]
  rw [respond_of_final X (.inl hnone), htext]
  rfl

theorem round_off : AgentLoop.round X (roundWorld loads .off w t) t =
      match chat loads c.body with
      | none => (asked X w.compactor t).end .failed
      | some r => respond X (roundWorld loads .off w t) (applyResponsePolicy w.hide r)
          (asked X w.compactor t) := by
  rw [round_eq X hle, reply_off loads hw]
  cases chat loads c.body <;> rfl

theorem round_of_plain
    (hp : Plain loads w.hide c.body t) : AgentLoop.round X (roundWorld loads .off w t) t =
      (asked X w.compactor t).end (.completed (strip (w.hide (c.body.content.getD [])))) := by
  rw [round_off hle hw]
  by_cases hcalls : c.body.toolCalls = []
  · rw [Plain, if_pos hcalls] at hp
    obtain ⟨htext, hrefusal⟩ := hp
    rw [chat_text loads hcalls, if_neg htext]
    dsimp only
    rw [respond_of_final X (.inl rfl), text_of_single]
    cases hc : c.body.content with
    | none => rw [Body.text, hc, Option.getD_none, Option.getD_none, hrefusal hc]
    | some content => rw [Body.text, hc, Option.getD_some, Option.getD_some]
  · rw [Plain, if_neg hcalls] at hp
    obtain ⟨hfinal, hreadable, hblank⟩ := hp
    obtain ⟨r, hr⟩ := Option.isSome_iff_exists.mp ((chat_calls loads hcalls).mpr hreadable)
    rw [hr]
    dsimp only
    rw [respond_of_final X (t := asked X w.compactor t) (.inr hfinal), text_of_calls w.hide (chat_spec loads hcalls hr).1, hblank]

theorem apart_round (hp : ¬ Plain loads w.hide c.body t) :
    Apart ((asked X w.compactor t).end (.completed (strip (w.hide (c.body.content.getD [])))))
      (AgentLoop.round X (roundWorld loads .off w t) t) := by
  rw [round_off hle hw]
  refine ⟨_, rfl, ?_⟩
  cases hr : chat loads c.body with
  | none => exact .inl ⟨.failed, rfl, Verdict.noConfusion⟩
  | some r =>
    dsimp only
    by_cases hcalls : c.body.toolCalls = []
    · rw [Plain, if_pos hcalls] at hp
      rw [chat_text loads hcalls, Option.ite_none_left_eq_some] at hr
      obtain ⟨htext, hr⟩ := hr
      cases hr
      rw [respond_of_final X (.inl rfl), text_of_single]
      refine .inl ⟨_, rfl, fun he => hp ⟨htext, fun hc => ?_⟩⟩
      have he := Verdict.completed.inj he
      rw [Body.text, hc] at he
      exact he.symm
    · rw [Plain, if_neg hcalls] at hp
      obtain ⟨hparts, hissued⟩ := chat_spec loads hcalls hr
      by_cases hfinal : t.setup.maxToolIterations ≤ t.iteration
      · rw [respond_of_final X (t := asked X w.compactor t) (.inr hfinal), text_of_calls w.hide hparts]
        have hreadable := (chat_calls loads hcalls).mp (Option.isSome_of_eq_some hr)
        exact .inl ⟨_, rfl, fun he => hp ⟨hfinal, hreadable, Verdict.completed.inj he⟩⟩
      · right
        have hlength := List.length_pos_of_ne_nil hissued
        have hlt : t.iteration < t.setup.maxToolIterations := Nat.not_le.mp hfinal
        rw [issued_respond X (r := applyResponsePolicy w.hide r) (t := asked X w.compactor t) hissued hlt,
          List.length_append]
        exact Nat.lt_add_of_pos_right hlength

omit hw

omit hle

/-- The events in which the message is read from a stream. -/
def Streams (mode : Mode) (t : Turn κ) (w : StreamWorld κ) (c : Completion) : Prop :=
  t.phase = .requesting ∧ t.iteration ≤ t.setup.maxToolIterations ∧ w.completion = some c ∧
    streamRequestAllowed mode w t = true

omit [DecidableEq κ] in
theorem careful_iff : Careful loads mode t (.round w) ↔ ∀ c, Streams mode t w c → Plain loads w.hide c.body t :=
  ⟨fun h c ⟨hphase, hle, hw, hs⟩ => h hphase hle c hw hs,
    fun h hphase hle c hw hs => h c ⟨hphase, hle, hw, hs⟩⟩

theorem step_of_requesting (hphase : t.phase = .requesting) :
    step X loads mode t (.round w) = AgentLoop.round X (roundWorld loads mode w t) t := by
  simp [step, hphase]

theorem step_unstreamed (h : ∀ c, ¬ Streams mode t w c) :
    step X loads mode t (.round w) = step X loads .off t (.round w) := by
  by_cases hphase : t.phase = .requesting
  · rw [step_of_requesting hphase, step_of_requesting hphase]
    by_cases hle : t.iteration ≤ t.setup.maxToolIterations
    · have hreply : executeModel loads mode w t = executeModel loads .off w t := by
        cases hw : w.completion with
        | none => simp [executeModel, hw]
        | some c =>
          have hs : ¬ streamRequestAllowed mode w t = true := fun hs => h c ⟨hphase, hle, hw, hs⟩
          simp only [executeModel, hw, if_neg hs, streamRequestAllowed_off, Bool.false_eq_true, if_false]
      rw [roundWorld, hreply]
      rfl
    · rw [AgentLoop.round, AgentLoop.round, if_pos (Nat.not_le.mp hle), if_pos (Nat.not_le.mp hle)]
  · cases hp : t.phase with
    | requesting => exact absurd hp hphase
    | paused call rest => simp [step, hp]
    | «over» v => simp [step, hp]

theorem step_spec (t : Turn κ) (e : Event κ) :
    (Careful loads mode t e → step X loads mode t e = step X loads .off t e) ∧
      (¬ Careful loads mode t e → Apart (step X loads mode t e) (step X loads .off t e)) := by
  cases e with
  | confirm w => exact ⟨fun _ => rfl, fun h => absurd trivial h⟩
  | round w =>
    rw [careful_iff]
    by_cases h : ∃ c, Streams mode t w c
    · obtain ⟨c, hc⟩ := h
      have hstreams := hc
      obtain ⟨hphase, hle, hw, hs⟩ := hc
      rw [step_of_requesting hphase, step_of_requesting hphase, round_streamed hle hw hs]
      refine ⟨fun hp => (round_of_plain hle hw (hp c hstreams)).symm, fun hp => ?_⟩
      obtain ⟨d, hd⟩ := not_forall.mp hp
      obtain ⟨hd, hplain⟩ := Classical.not_imp.mp hd
      obtain rfl : c = d := Option.some.inj (hw.symm.trans hd.2.2.1)
      exact apart_round hle hw hplain
    · have h := not_exists.mp h
      exact ⟨fun _ => step_unstreamed h, fun hp => absurd (fun c hc => absurd hc (h c)) hp⟩

end Comparing

def next (t : Turn κ) (e : Event κ) : Option (Turn κ) := some (step X loads .off t e)

/-- The turn comes to the same in the mode as without streaming just in case it streams plainly. -/
theorem agrees_iff (t : Turn κ) (events : List (Event κ)) :
    Agrees (run X loads mode t events) (run X loads .off t events) ↔
      Along (next X loads) (Careful loads mode) t events := by
  induction events generalizing t with
  | nil => exact iff_of_true ⟨rfl, rfl, rfl⟩ trivial
  | cons e events ih =>
    obtain ⟨hcareful, hcareless⟩ := @step_spec κ _ X loads mode t e
    by_cases h : Careful loads mode t e
    · have hrun : run X loads mode t (e :: events) = run X loads mode (step X loads .off t e) events :=
        congrArg (fun u => run X loads mode u events) (hcareful h)
      rw [hrun]
      refine (ih (step X loads .off t e)).trans ⟨fun hrest => ⟨h, fun u hu => ?_⟩, fun ha => ha.2 _ rfl⟩
      exact Option.some.inj hu ▸ hrest
    · exact iff_of_false (not_agrees_of_apart (apart_run (hcareless h) events)) (fun ha => h ha.1)

end Steps

def clockCall : RawCall := ⟨some "call_1".toList, "clock".toList, some "\x7b\x7d".toList⟩

def clockStart : Chunk := ⟨[], [⟨some 0, "call_1".toList, "clock".toList, "\x7b".toList⟩], none, false⟩

def clockEnd : Chunk := ⟨[], [⟨some 0, [], [], "\x7d".toList⟩], some "tool_calls".toList, false⟩

def clockCompletion : Completion where
  body := ⟨none, [], [clockCall]⟩
  frames := [.chunk clockStart, .chunk clockEnd, .done]
  pieces := [clockStart, clockEnd]
  chunks_eq := rfl
  cuts := ⟨rfl, by decide, [clockStart], clockEnd, [], rfl, by decide, by decide, by decide⟩

def quiet : HookOutcome Unit := ⟨false, [], [], [], none, none, none⟩

def clockWorld : CallWorld Unit where
  requiresConfirmation := false
  preToolUse := quiet
  permissionRequest := quiet
  postToolUse := quiet
  validateArguments := fun _ => none
  principalControls := true
  persists := true
  teammate := fun _ _ => .unknown
  skill := fun _ => .unbound
  callTool := fun _ => .returned (.text "12:00".toList) false

def clockRound : StreamWorld Unit := ⟨none, some clockCompletion, true, true, id, fun _ => clockWorld⟩

def clockTurn : Turn Unit :=
  startTurn ⟨true, 2, ["clock".toList], [], [], []⟩ [⟨"clock".toList, [], []⟩] "You help.".toList []
    [.text "What time is it?".toList] [] []

def plainExecutor : Executor Unit := ⟨100000, fun _ => 0, id⟩

def loadsEmpty (t : Text) : Loaded Unit := if t = "\x7b\x7d".toList then .object [] else .invalid

/-- The call of a streamed message is never made. -/
theorem streamed_call_dropped : ¬ Agrees (run plainExecutor loadsEmpty .aggregate clockTurn [.round clockRound])
      (run plainExecutor loadsEmpty .off clockTurn [.round clockRound]) := by
  intro h
  have hlength := congrArg List.length h.issued
  exact absurd hlength (by decide +kernel)

end Kirara.StreamedTurns
