import Kirara.StreamFrames

namespace Kirara.StreamDeliveries

open Kirara.Channels Kirara.AgentMessages Kirara.Dicts Kirara.StreamFrames

/-- The `index` of an item, as `int` reads it. -/
inductive Index where
  | absent
  | number (n : Int)
  | unusable

structure FunctionItem where
  name : Option Text
  arguments : Option Text

/-- A dict of `delta.tool_calls`. A field that is no text counts as missing. -/
structure Item where
  index : Index
  id : Option Text
  function : Option FunctionItem

inductive FinishReason where
  | absent
  | null
  | text (t : Text)

/-- `delta.content`: a text, a list of parts with texts, or something else. -/
inductive DeltaContent where
  | text (t : Text)
  | parts (texts : List (Option Text))
  | other

structure Payload where
  content : DeltaContent
  toolCalls : List Item
  finishReason : FinishReason
  usage : Bool

/-- A line of the response; `idle` has no dict, and `broken` makes the loop raise. -/
inductive Line where
  | idle
  | done
  | broken
  | data (p : Payload)

def Index.read : Index → Option Int
  | .absent => some 0
  | .number n => some n
  | .unusable => none

def Item.delta (item : Item) : Delta where
  index := item.index.read
  id := item.id.getD []
  name := (item.function.bind FunctionItem.name).getD []
  arguments := (item.function.bind FunctionItem.arguments).getD []

def FinishReason.value : FinishReason → Option Text
  | .absent => none
  | .null => none
  | .text t => some t

def DeltaContent.deltaText : DeltaContent → Text
  | .text t => t
  | .parts texts => texts.flatMap (fun t => t.getD [])
  | .other => []

def Payload.chunk (p : Payload) : Chunk where
  text := p.content.deltaText
  toolCalls := p.toolCalls.map Item.delta
  finishReason := p.finishReason.value
  usage := p.usage

def Line.frame : Line → Frame
  | .idle => .skipped
  | .done => .done
  | .broken => .error
  | .data p => .chunk p.chunk

def received : List Frame → List Chunk
  | [] => []
  | .skipped :: frames => received frames
  | .done :: _ => []
  | .error :: _ => []
  | .chunk c :: frames => c :: received frames

def streamed (lines : List Line) : List Chunk := received (lines.map Line.frame)

variable {κ : Type}

section Deliveries

variable (loads : Text → Loaded κ)

def yields (lines : List Line) : List (List (AgentMessages.Part κ)) := deliver loads .empty (streamed lines)

/-- The calls of `resolve_stream_tool_calls`, each with its index. -/
def indexed (state : Dict Int Slot) : List (Int × AgentMessages.Part κ) :=
  (state.entries.insertionSort (fun a b => a.1 ≤ b.1)).filterMap (fun e =>
    (streamCall loads e.2).map (Prod.mk e.1))

def deliveries : Dict Int Slot → List Chunk → List (Int × AgentMessages.Part κ)
  | _, [] => []
  | state, c :: cs =>
    let state := accumulateStreamToolCalls state c.toolCalls
    (if c.finishReason.isSome then indexed loads state else []) ++ deliveries state cs

def progress (state : Dict Int Slot) (cs : List Chunk) : Dict Int Slot :=
  cs.foldl (fun state c => accumulateStreamToolCalls state c.toolCalls) state

def pieces (index : Int) (cs : List Chunk) : List Delta :=
  (cs.flatMap Chunk.toolCalls).filter (fun d => d.index = some index)

def call (index : Int) (cs : List Chunk) : Option (AgentMessages.Part κ) :=
  streamCall loads ((pieces index cs).foldl (fun slot d => slot.add d) .empty)

def Nameless (cs : List Chunk) : Prop := ∀ c ∈ cs, ∀ d ∈ c.toolCalls, d.index ≠ none → d.name = []

/-- The calls that are yielded are those of the whole stream, each of them once. -/
structure DeliversOnce (lines : List Line) : Prop where
  concatenation : (yields loads lines).flatten.filter isToolCall =
    resolveStreamToolCalls loads (accumulated (streamed lines))
  once : deliveries loads .empty (streamed lines) = indexed loads (accumulated (streamed lines))

/-- No call gets a name, or one frame closes the calls after their last piece. -/
inductive Settled (cs : List Chunk) : Prop where
  | nameless (h : Nameless cs)
  | closed (front : List Chunk) (last : Chunk) (back : List Chunk) (split : cs = front ++ last :: back)
      (finishes : last.finishReason ≠ none)
      (early : ∀ f c r, front = f ++ c :: r → c.finishReason ≠ none → Nameless (f ++ [c]))
      (late : ∀ c ∈ back, c.finishReason = none)
      (complete : ∀ index, call loads index (front ++ [last]) = call loads index cs)

end Deliveries

section Indices

variable {loads : Text → Loaded κ} {state : Dict Int Slot} {cs : List Chunk} {i : Int}

theorem map_snd_indexed (state : Dict Int Slot) :
    (indexed loads state).map Prod.snd = resolveStreamToolCalls loads state := by
  rw [indexed, resolveStreamToolCalls, sortedSlots, List.map_filterMap, List.filterMap_map]
  refine List.filterMap_congr (fun e _ => ?_)
  simp

theorem calls_deliver_eq (state : Dict Int Slot) (cs : List Chunk) :
    (deliver loads state cs).flatten.filter isToolCall = (deliveries loads state cs).map Prod.snd := by
  induction cs generalizing state with
  | nil => rfl
  | cons c cs ih =>
    rw [deliver, deliveries, List.map_append, ← ih]
    cases hc : c.finishReason with
    | none =>
      split
      · simp
      · rw [List.flatten_cons, List.filter_append, calls_delivered, hc]
        simp
    | some reason =>
      have hloud : ¬ c.silent = true := by simp [Chunk.silent, hc]
      rw [if_neg hloud, List.flatten_cons, List.filter_append, calls_delivered, hc]
      simp [map_snd_indexed]

theorem pairwise_indexed (state : Dict Int Slot) : (indexed loads state).Pairwise (fun a b => a.1 < b.1) := by
  have hle := List.pairwise_insertionSort (fun a b : Int × Slot => a.1 ≤ b.1) state.entries
  have hne : (state.entries.insertionSort (fun a b => a.1 ≤ b.1)).Pairwise (fun a b => a.1 ≠ b.1) := by
    have hnodup : ((state.entries.insertionSort (fun a b => a.1 ≤ b.1)).map Prod.fst).Nodup :=
      ((List.perm_insertionSort _ state.entries).map Prod.fst).nodup_iff.mpr state.distinct
    exact List.pairwise_map.mp hnodup
  refine List.pairwise_filterMap.mpr ((hle.and hne).imp (fun {a b} hab p hp q hq => ?_))
  obtain ⟨_, _, rfl⟩ := Option.map_eq_some_iff.mp hp
  obtain ⟨_, _, rfl⟩ := Option.map_eq_some_iff.mp hq
  exact lt_of_le_of_ne hab.1 hab.2

theorem mem_indexed {p : AgentMessages.Part κ} :
    (i, p) ∈ indexed loads state ↔ streamCall loads ((state.get i).getD .empty) = some p := by
  rw [indexed, List.mem_filterMap]
  constructor
  · rintro ⟨e, he, hp⟩
    obtain ⟨q, hq, hpair⟩ := Option.map_eq_some_iff.mp hp
    cases hpair
    rw [Dict.get_eq_some_iff.mpr ((List.mem_insertionSort _).mp he)]
    exact hq
  · intro h
    cases hget : state.get i with
    | none =>
      rw [hget] at h
      cases h
    | some slot =>
      rw [hget] at h
      refine ⟨(i, slot), (List.mem_insertionSort _).mpr (Dict.get_eq_some_iff.mp hget), ?_⟩
      exact Option.map_eq_some_iff.mpr ⟨p, h, rfl⟩

theorem mem_indices : i ∈ (indexed loads state).map Prod.fst ↔ ((state.get i).getD .empty).name ≠ none := by
  rw [List.mem_map]
  constructor
  · rintro ⟨⟨j, p⟩, hp, rfl⟩ hnone
    have hcall := mem_indexed.mp hp
    rw [streamCall, hnone] at hcall
    cases hcall
  · intro h
    obtain ⟨name, hname⟩ := Option.ne_none_iff_exists'.mp h
    refine ⟨(i, .toolCall ((state.get i).getD .empty).id name
      (streamParameters loads ((state.get i).getD .empty).arguments)), mem_indexed.mpr ?_, rfl⟩
    rw [streamCall, hname]
    rfl

theorem nodup_indices (state : Dict Int Slot) : ((indexed loads state).map Prod.fst).Nodup :=
  List.pairwise_map.mpr ((pairwise_indexed state).imp (fun h => h.ne))

theorem indexed_eq_nil_iff : indexed loads state = [] ↔ ∀ i, ((state.get i).getD .empty).name = none := by
  rw [← List.map_eq_nil_iff (f := Prod.fst), List.eq_nil_iff_forall_not_mem]
  exact forall_congr' (fun i => (not_congr mem_indices).trans not_not)

theorem indexed_eq_iff {other : Dict Int Slot} : indexed loads state = indexed loads other ↔
    ∀ i, streamCall loads ((state.get i).getD .empty) = streamCall loads ((other.get i).getD .empty) := by
  constructor
  · intro h i
    refine Option.ext (fun p => ?_)
    exact mem_indexed.symm.trans ((iff_of_eq (congrArg ((i, p) ∈ ·) h)).trans mem_indexed)
  · intro h
    have hanti : Std.Antisymm (fun a b : Int × AgentMessages.Part κ => a.1 < b.1) :=
      ⟨fun a b hab hba => absurd hab hba.asymm⟩
    have hirrefl : Std.Irrefl (fun a b : Int × AgentMessages.Part κ => a.1 < b.1) := ⟨fun a => lt_irrefl a.1⟩
    refine List.Pairwise.eq_of_mem_iff (pairwise_indexed state) (pairwise_indexed other) (fun p => ?_)
    obtain ⟨i, p⟩ := p
    rw [mem_indexed, mem_indexed, h i]

end Indices

section Pieces

variable {loads : Text → Loaded κ} {state : Dict Int Slot} {cs ds : List Chunk} {c : Chunk} {i : Int}

theorem progress_append (state : Dict Int Slot) (cs ds : List Chunk) :
    progress state (cs ++ ds) = progress (progress state cs) ds := List.foldl_append

theorem get_accumulate (state : Dict Int Slot) (deltas : List Delta) (i : Int) :
    ((accumulateStreamToolCalls state deltas).get i).getD .empty =
      (deltas.filter (fun d => d.index = some i)).foldl (fun slot d => slot.add d) ((state.get i).getD .empty) := by
  induction deltas generalizing state with
  | nil => rfl
  | cons d deltas ih =>
    rw [accumulateStreamToolCalls, List.foldl_cons, List.filter_cons]
    change ((accumulateStreamToolCalls _ deltas).get i).getD .empty = _
    rw [ih]
    cases hd : d.index with
    | none => simp
    | some index =>
      by_cases hi : index = i
      · subst hi
        simp
      · simp [hi, Dict.get_set_of_ne (Ne.symm hi)]

theorem get_progress (state : Dict Int Slot) (cs : List Chunk) (i : Int) :
    ((progress state cs).get i).getD .empty =
      (pieces i cs).foldl (fun slot d => slot.add d) ((state.get i).getD .empty) := by
  induction cs generalizing state with
  | nil => rfl
  | cons c cs ih =>
    rw [progress, List.foldl_cons]
    change ((progress _ cs).get i).getD .empty = _
    have hcons : pieces i (c :: cs) = c.toolCalls.filter (fun d => d.index = some i) ++ pieces i cs := by
      rw [pieces, List.flatMap_cons, List.filter_append]
      rfl
    rw [ih, get_accumulate, hcons, List.foldl_append]

theorem name_foldl {deltas : List Delta} {slot : Slot} :
    (deltas.foldl (fun slot d => slot.add d) slot).name = none ↔
      slot.name = none ∧ ∀ d ∈ deltas, d.name = [] := by
  induction deltas generalizing slot with
  | nil => simp
  | cons d deltas ih =>
    rw [List.foldl_cons, ih, List.forall_mem_cons, Slot.add]
    by_cases hd : d.name = []
    · simp [hd]
    · simp [hd]

theorem indices_progress (h : i ∈ (indexed loads state).map Prod.fst) (cs : List Chunk) :
    i ∈ (indexed loads (progress state cs)).map Prod.fst := by
  rw [mem_indices] at h ⊢
  rw [get_progress]
  exact fun hnone => h (name_foldl.mp hnone).1

theorem indexed_nil_of_progress (h : indexed loads (progress state cs) = []) : indexed loads state = [] := by
  rw [← List.map_eq_nil_iff (f := Prod.fst), List.eq_nil_iff_forall_not_mem]
  intro i hi
  have hlater := indices_progress hi cs
  rw [h] at hlater
  cases hlater

theorem call_eq (index : Int) (cs : List Chunk) :
    call loads index cs = streamCall loads (((accumulated cs).get index).getD .empty) := by
  change _ = streamCall loads (((progress .empty cs).get index).getD .empty)
  rw [get_progress]
  rfl

theorem nameless_iff : Nameless cs ↔ indexed loads (accumulated cs) = [] := by
  have hname : ∀ i, (((accumulated cs).get i).getD .empty).name = none ↔ ∀ d ∈ pieces i cs, d.name = [] := by
    intro i
    change (((progress .empty cs).get i).getD .empty).name = none ↔ _
    rw [get_progress, name_foldl]
    exact and_iff_right rfl
  rw [indexed_eq_nil_iff]
  constructor
  · intro h i
    refine (hname i).mpr (fun d hd => ?_)
    obtain ⟨hmem, hindex⟩ := List.mem_filter.mp hd
    obtain ⟨c, hc, hd⟩ := List.mem_flatMap.mp hmem
    exact h c hc d hd (by simp [of_decide_eq_true hindex])
  · intro h c hc d hd hindex
    obtain ⟨i, hi⟩ := Option.ne_none_iff_exists'.mp hindex
    refine (hname i).mp (h i) d (List.mem_filter.mpr ⟨List.mem_flatMap.mpr ⟨c, hc, hd⟩, ?_⟩)
    exact decide_eq_true hi

theorem deliveries_append (state : Dict Int Slot) (cs ds : List Chunk) :
    deliveries loads state (cs ++ ds) = deliveries loads state cs ++ deliveries loads (progress state cs) ds := by
  induction cs generalizing state with
  | nil => rfl
  | cons c cs ih =>
    rw [List.cons_append, deliveries, deliveries, ih, List.append_assoc]
    rfl

theorem deliveries_unfinished (h : ∀ c ∈ cs, c.finishReason = none) (state : Dict Int Slot) :
    deliveries loads state cs = [] := by
  induction cs generalizing state with
  | nil => rfl
  | cons c cs ih =>
    obtain ⟨hc, hcs⟩ := List.forall_mem_cons.mp h
    rw [deliveries, hc, ih hcs]
    rfl

theorem indices_deliveries (h : i ∈ (indexed loads state).map Prod.fst) (hc : c ∈ cs)
    (hfinishes : c.finishReason ≠ none) : i ∈ (deliveries loads state cs).map Prod.fst := by
  induction cs generalizing state with
  | nil => cases hc
  | cons a cs ih =>
    have hnext : i ∈ (indexed loads (accumulateStreamToolCalls state a.toolCalls)).map Prod.fst :=
      indices_progress h [a]
    rw [deliveries, List.map_append, List.mem_append]
    cases List.mem_cons.mp hc with
    | inl he =>
      subst he
      rw [if_pos (Option.isSome_iff_ne_none.mpr hfinishes)]
      exact .inl hnext
    | inr hmem => exact .inr (ih hnext hmem)

theorem deliveries_nil (h : indexed loads (progress state cs) = []) : deliveries loads state cs = [] := by
  induction cs generalizing state with
  | nil => rfl
  | cons c cs ih =>
    have hnext : indexed loads (accumulateStreamToolCalls state c.toolCalls) = [] :=
      @indexed_nil_of_progress _ loads _ cs h
    rw [deliveries, hnext, ih h]
    split <;> rfl

/-- One chunk delivers the calls, and they are then what they are in the end. -/
structure Closes (loads : Text → Loaded κ) (state : Dict Int Slot) (front : List Chunk) (last : Chunk)
    (back : List Chunk) : Prop where
  finishes : last.finishReason ≠ none
  early : ∀ f c r, front = f ++ c :: r → c.finishReason ≠ none → indexed loads (progress state (f ++ [c])) = []
  late : ∀ c ∈ back, c.finishReason = none
  complete : indexed loads (progress state (front ++ [last])) = indexed loads (progress state (front ++ last :: back))

theorem deliveries_early {front : List Chunk}
    (h : ∀ f c r, front = f ++ c :: r → c.finishReason ≠ none → indexed loads (progress state (f ++ [c])) = []) :
    deliveries loads state front = [] := by
  induction front generalizing state with
  | nil => rfl
  | cons c front ih =>
    have hrest : deliveries loads (accumulateStreamToolCalls state c.toolCalls) front = [] :=
      ih (fun f a r hf ha => h (c :: f) a r (congrArg (List.cons c) hf) ha)
    rw [deliveries, hrest, List.append_nil]
    split
    · next hc => exact h [] c front rfl (Option.isSome_iff_ne_none.mp hc)
    · rfl

theorem Closes.deliveries_eq {front back : List Chunk} {last : Chunk} (h : Closes loads state front last back) :
    deliveries loads state (front ++ last :: back) = indexed loads (progress state (front ++ last :: back)) := by
  have hlast : deliveries loads (progress state front) (last :: back) =
      indexed loads (progress state (front ++ [last])) := by
    rw [deliveries, deliveries_unfinished h.late, if_pos (Option.isSome_iff_ne_none.mpr h.finishes),
      List.append_nil, progress_append]
    rfl
  rw [deliveries_append, deliveries_early h.early, hlast, h.complete]
  rfl

theorem late_of_deliveries_eq (hne : indexed loads state ≠ [])
    (h : indexed loads state ++ deliveries loads state cs = indexed loads (progress state cs)) :
    ∀ c ∈ cs, c.finishReason = none := by
  intro c hc
  by_contra hfinishes
  have hsome : (indexed loads state).map Prod.fst ≠ [] := fun hnil => hne (List.map_eq_nil_iff.mp hnil)
  obtain ⟨i, hi⟩ := List.exists_mem_of_ne_nil _ hsome
  have hnodup : ((indexed loads (progress state cs)).map Prod.fst).Nodup := nodup_indices _
  rw [← h, List.map_append] at hnodup
  exact (List.disjoint_of_nodup_append hnodup) hi (indices_deliveries hi hc hfinishes)

theorem exists_closes (h : deliveries loads state cs = indexed loads (progress state cs))
    (hne : indexed loads (progress state cs) ≠ []) :
    ∃ front last back, cs = front ++ last :: back ∧ Closes loads state front last back := by
  induction cs generalizing state with
  | nil => exact absurd h.symm hne
  | cons c cs ih =>
    rw [deliveries] at h
    by_cases hopen : c.finishReason ≠ none ∧ indexed loads (accumulateStreamToolCalls state c.toolCalls) ≠ []
    · rw [if_pos (Option.isSome_iff_ne_none.mpr hopen.1)] at h
      have hlate := late_of_deliveries_eq hopen.2 h
      rw [deliveries_unfinished hlate, List.append_nil] at h
      exact ⟨[], c, cs, rfl, hopen.1, fun f a r hf => absurd hf (by simp), hlate, h⟩
    · have hidle : (if c.finishReason.isSome then indexed loads (accumulateStreamToolCalls state c.toolCalls)
          else []) = [] := by
        split
        · next hc => exact not_not.mp (fun hcalls => hopen ⟨Option.isSome_iff_ne_none.mp hc, hcalls⟩)
        · rfl
      rw [hidle, List.nil_append] at h
      obtain ⟨front, last, back, rfl, hclose⟩ := ih h hne
      refine ⟨c :: front, last, back, rfl, hclose.finishes, fun f a r hf ha => ?_, hclose.late, hclose.complete⟩
      cases f with
      | nil =>
        obtain ⟨rfl, _⟩ := List.cons.inj hf
        exact not_not.mp (fun hcalls => hopen ⟨ha, hcalls⟩)
      | cons b f =>
        obtain ⟨rfl, hrest⟩ := List.cons.inj hf
        exact hclose.early f a r hrest ha

end Pieces

variable {loads : Text → Loaded κ} {cs : List Chunk}

theorem deliveries_eq_iff : deliveries loads .empty cs = indexed loads (accumulated cs) ↔ Settled loads cs := by
  constructor
  · intro h
    by_cases hnil : indexed loads (accumulated cs) = []
    · exact .nameless (nameless_iff.mpr hnil)
    obtain ⟨front, last, back, rfl, hclose⟩ := exists_closes h hnil
    refine .closed front last back rfl hclose.finishes
      (fun f c r hf hc => nameless_iff.mpr (hclose.early f c r hf hc)) hclose.late (fun index => ?_)
    rw [call_eq, call_eq]
    exact indexed_eq_iff.mp hclose.complete index
  · intro h
    cases h with
    | nameless h =>
      have hnil : indexed loads (accumulated cs) = [] := nameless_iff.mp h
      rw [hnil]
      exact deliveries_nil hnil
    | closed front last back hsplit hfinishes hearly hlate hcomplete =>
      subst hsplit
      have hclose : Closes loads .empty front last back :=
        ⟨hfinishes, fun f c r hf hc => nameless_iff.mp (hearly f c r hf hc), hlate,
          indexed_eq_iff.mpr (fun index => by
            have hcall := hcomplete index
            rw [call_eq, call_eq] at hcall
            exact hcall)⟩
      exact hclose.deliveries_eq

/-- Each call is delivered once and complete exactly where one frame closes the stream's calls. -/
theorem deliversOnce_iff (loads : Text → Loaded κ) (lines : List Line) :
    DeliversOnce loads lines ↔ Settled loads (streamed lines) := by
  refine ⟨fun h => deliveries_eq_iff.mp h.once, fun h => ?_⟩
  have honce := deliveries_eq_iff.mpr h
  refine ⟨?_, honce⟩
  rw [yields, calls_deliver_eq, honce, map_snd_indexed]

/-- `json.loads` on the arguments of the call below. -/
def loadsPath (raw : Text) : Loaded Unit :=
  if raw = "\x7b\"path\": \"a.txt\"\x7d".toList then .object [("path".toList, .text "a.txt".toList)]
  else .invalid

def pieceLine (id name : Option Text) (arguments : Text) (finishReason : FinishReason) : Line :=
  .data ⟨.other, [⟨.number 0, id, some ⟨name, some arguments⟩⟩], finishReason, false⟩

/-- With an empty finish reason in each frame the half-built call is delivered too, and without
a finish reason the call is lost. -/
theorem call_twice_or_lost : ¬ DeliversOnce loadsPath
      [pieceLine (some "c1".toList) (some "read_file".toList) "\x7b\"path\":".toList (.text []),
        pieceLine none none " \"a.txt\"\x7d".toList (.text "tool_calls".toList), .done] ∧
    ¬ DeliversOnce loadsPath
      [pieceLine (some "c1".toList) (some "read_file".toList) "\x7b\"path\": \"a.txt\"\x7d".toList .absent,
        .done] := by
  refine ⟨fun h => ?_, fun h => ?_⟩
  · exact absurd h.concatenation (by decide)
  · exact absurd h.concatenation (by decide)

end Kirara.StreamDeliveries
