import Xdragon.Anthropic.Answers
import Xdragon.Lib.Decimal
import Xdragon.Openai.Order

/-!
# One response, streamed or not

The converter collects what the responses of a stream bring. At the end its output is that of the single response, but for
the ids.
-/

namespace Xdragon.Openai

open Xdragon.Lib
open Xdragon.Anthropic (ChatResponse merged)

variable {α : Type}

/-- The output of `ToResponse`. -/
def toResponse (responseID itemID : Bytes) (marshal : α → Option Bytes) (r : ChatResponse α) : List Item :=
  (if r.message.thinking ≠ [] then [.reasoning (ascii "rs_" ++ responseID) (some r.message.thinking)] else []) ++
    if 0 < r.message.toolCalls.length then
      (toToolCalls marshal r.message.toolCalls).zipIdx.map fun (tc, i) =>
        .functionCall (ascii "fc_" ++ responseID ++ ascii "_" ++ decimal i) .completed tc.id tc.name tc.arguments
    else [.message itemID .completed (some r.message.content)]

namespace Item

def withoutID : Item → Item
  | .reasoning _ summary => .reasoning [] summary
  | .functionCall _ status callID name arguments => .functionCall [] status callID name arguments
  | .message _ status content => .message [] status content

/-- The text of reasoning. -/
def reasoningText : Item → Bytes
  | .reasoning _ summary => summary.getD []
  | _ => []

/-- A call that is done. -/
def ofCall (tc : ToolCall) : Item := .functionCall [] .completed tc.id tc.name tc.arguments

end Item

/-- What an event adds to the reasoning. -/
def Data.reasoningDelta : Data → Bytes
  | .reasoningSummaryTextDelta _ _ _ delta => delta
  | _ => []

/-! ## What a converter has collected -/

namespace Converter

/-- The thinking, the calls and the text of the responses so far. Text beside calls does not count. -/
structure Collected (thought : Bytes) (tcs : List ToolCall) (said : Bytes) (c : Converter) : Prop where
  thinking : c.accumulatedThinking = thought
  reasoning : c.reasoningStarted = true ↔ thought ≠ []
  calls : c.toolCallItems.map Item.withoutID = tcs.map Item.ofCall
  sent : c.toolCallsSent = true ↔ tcs ≠ []
  text : tcs = [] → c.accumulatedText = said ∧ (c.contentStarted = true ↔ said ≠ [])

theorem collected_new (itemID : Bytes) : Collected [] [] [] (newConverter itemID) := by
  constructor <;> simp [newConverter]

variable {ids : Nat → Bytes} {c : Converter} {thought said : Bytes} {tcs : List ToolCall}

/-- A step that streams this thinking, and after which all of this is collected. -/
structure Collects (delta thought : Bytes) (tcs : List ToolCall) (said : Bytes) (r : List Data × Converter) : Prop where
  delta : r.1.flatMap Data.reasoningDelta = delta
  collected : Collected thought tcs said r.2

theorem Collects.refl (h : Collected thought tcs said c) : Collects [] thought tcs said ([], c) := ⟨rfl, h⟩

theorem Collects.andThen {delta delta' thought' said' : Bytes} {tcs' : List ToolCall} {r : List Data × Converter}
    {step : Converter → List Data × Converter} (h : Collects delta thought tcs said r)
    (h' : Collected thought tcs said r.2 → Collects delta' thought' tcs' said' (step r.2)) :
    Collects (delta ++ delta') thought' tcs' said' (andThen r step) := by
  have hstep := h' h.collected
  refine ⟨?_, hstep.collected⟩
  rw [Converter.andThen, List.flatMap_append, h.delta, hstep.delta]

theorem collects_begin (h : Collected thought tcs said c) : Collects [] thought tcs said c.begin := by
  unfold begin
  split_ifs
  · exact ⟨rfl, h.thinking, h.reasoning, h.calls, h.sent, h.text⟩
  · exact .refl h

theorem collects_finishReasoning (h : Collected thought tcs said c) : Collects [] thought tcs said c.finishReasoning := by
  unfold finishReasoning
  split_ifs
  · exact .refl h
  · exact ⟨rfl, h.thinking, h.reasoning, h.calls, h.sent, h.text⟩

theorem collects_think (ids : Nat → Bytes) (h : Collected thought tcs said c) (thinking : Bytes) :
    Collects thinking (thought ++ thinking) tcs said (c.think ids thinking) := by
  unfold think
  split_ifs with hne
  · have hnew : thought ++ thinking ≠ [] := List.append_ne_nil_of_right_ne_nil _ hne
    unfold processThinking
    split_ifs with hstarted
    · exact ⟨by simp [Data.reasoningDelta], congrArg (· ++ thinking) h.thinking, iff_of_true hstarted hnew, h.calls, h.sent, h.text⟩
    · exact ⟨by simp [Data.reasoningDelta], congrArg (· ++ thinking) h.thinking, iff_of_true rfl hnew, h.calls, h.sent, h.text⟩
  · obtain rfl := not_ne_iff.mp hne
    rw [List.append_nil]
    exact .refl h

theorem callEvents_delta (id : Bytes) (index : Nat) (tc : ToolCall) : (callEvents id index tc).flatMap Data.reasoningDelta = [] := by
  unfold callEvents
  split_ifs <;> rfl

theorem collects_call (ids : Nat → Bytes) (h : Collected thought tcs said c) (new : List ToolCall) :
    Collects [] thought (tcs ++ new) said (c.call ids new) := by
  unfold call
  split_ifs with hne
  · have hnew : tcs ++ new ≠ [] := List.append_ne_nil_of_right_ne_nil _ hne
    obtain ⟨hdelta, hfinished⟩ := collects_finishReasoning h
    unfold processToolCalls
    refine ⟨?_, hfinished.thinking, hfinished.reasoning, ?_, iff_of_true rfl hnew, fun hnil => absurd hnil hnew⟩
    · rw [List.flatMap_append, hdelta, List.nil_append, List.flatMap_assoc]
      exact List.flatMap_eq_nil_iff.mpr fun p _ => callEvents_delta _ _ p.1
    · rw [List.map_append, List.map_append, hfinished.calls, List.map_map]
      have hfst : new.map Item.ofCall = (new.zipIdx.map Prod.fst).map Item.ofCall := by rw [List.zipIdx_map_fst]
      rw [hfst, List.map_map]
      rfl
  · obtain rfl := not_ne_iff.mp hne
    rw [List.append_nil]
    exact .refl h

/-- Text is collected unless a call was sent. -/
theorem collects_say (h : Collected thought tcs said c) (new : List ToolCall) (hnew : new ≠ [] → tcs ≠ []) (content : Bytes) :
    Collects [] thought tcs (said ++ content) (c.say new content) := by
  unfold say
  split_ifs with hsay
  · obtain ⟨-, hunsent, hne⟩ := hsay
    obtain ⟨hdelta, hfinished⟩ := collects_finishReasoning h
    have hnil : tcs = [] := by
      by_contra htcs
      exact hunsent (h.sent.mpr htcs)
    obtain ⟨htext, -⟩ := hfinished.text hnil
    unfold processTextContent
    refine ⟨?_, hfinished.thinking, hfinished.reasoning, hfinished.calls, hfinished.sent, fun _ => ⟨congrArg (· ++ content) htext, ?_⟩⟩
    · rw [List.flatMap_append, List.flatMap_append, hdelta]
      split_ifs <;> rfl
    · exact iff_of_true rfl (List.append_ne_nil_of_right_ne_nil _ hne)
  · refine ⟨rfl, h.thinking, h.reasoning, h.calls, h.sent, fun hnil => ?_⟩
    have hempty : content = [] := by
      by_contra hne
      refine hsay ⟨not_ne_iff.mp fun hnew' => hnew hnew' hnil, ?_, hne⟩
      exact fun hsent => h.sent.mp hsent hnil
    rw [hempty, List.append_nil]
    exact h.text hnil

/-! ## The output -/

theorem brings_collects (ids : Nat → Bytes) (marshal : α → Option Bytes) (h : Collected thought tcs said c) (r : ChatResponse α) :
    Collects r.message.thinking (thought ++ r.message.thinking) (tcs ++ toToolCalls marshal r.message.toolCalls) (said ++ r.message.content)
      (c.brings ids marshal r) := by
  have hthink := (collects_begin h).andThen fun h => collects_think ids h r.message.thinking
  have hcall := hthink.andThen fun h => collects_call ids h (toToolCalls marshal r.message.toolCalls)
  have hsay := hcall.andThen fun h => collects_say h (toToolCalls marshal r.message.toolCalls)
    (fun hne => List.append_ne_nil_of_right_ne_nil _ hne) r.message.content
  rw [List.nil_append, List.append_nil, List.append_nil] at hsay
  exact hsay

theorem collects_processCompletion (h : Collected thought tcs said c) (r : ChatResponse α) :
    Collects [] thought tcs said (c.processCompletion r) := by
  obtain ⟨hdelta, hfinished⟩ := collects_finishReasoning h
  unfold processCompletion
  refine ⟨?_, hfinished⟩
  rw [List.flatMap_append, List.flatMap_append, hdelta]
  split_ifs <;> rfl

/-- The last step for a response. -/
def complete (r : ChatResponse α) (c : Converter) : List Data × Converter := if r.done then c.processCompletion r else ([], c)

theorem collects_complete (h : Collected thought tcs said c) (r : ChatResponse α) : Collects [] thought tcs said (c.complete r) := by
  unfold complete
  split_ifs
  · exact collects_processCompletion h r
  · exact .refl h

/-- One response adds what it brings. -/
theorem process_collects (ids : Nat → Bytes) (marshal : α → Option Bytes) (h : Collected thought tcs said c) (r : ChatResponse α) :
    (c.process ids marshal r).1.flatMap (fun e => e.data.reasoningDelta) = r.message.thinking ∧
      Collected (thought ++ r.message.thinking) (tcs ++ toToolCalls marshal r.message.toolCalls) (said ++ r.message.content)
        (c.process ids marshal r).2 := by
  have hdata : Collects r.message.thinking (thought ++ r.message.thinking) (tcs ++ toToolCalls marshal r.message.toolCalls)
      (said ++ r.message.content) (c.data ids marshal r) := by
    have := (brings_collects ids marshal h r).andThen fun h => collects_complete h r
    rwa [List.append_nil] at this
  refine ⟨?_, hdata.collected.thinking, hdata.collected.reasoning, hdata.collected.calls, hdata.collected.sent, hdata.collected.text⟩
  rw [← hdata.delta, ← process_data, List.flatMap_map]

/-- The output of what was collected. -/
theorem Collected.output (h : Collected thought tcs said c) (hsay : tcs ≠ [] ∨ said ≠ []) : c.buildFinalOutput.map Item.withoutID =
    (if thought ≠ [] then [.reasoning [] (some thought)] else []) ++ if tcs ≠ [] then tcs.map Item.ofCall else [.message [] .completed (some said)] := by
  have hlength : 0 < c.toolCallItems.length ↔ tcs ≠ [] := by
    have := congrArg List.length h.calls
    rw [List.length_map, List.length_map] at this
    rw [this, List.length_pos_iff]
  unfold buildFinalOutput
  rw [List.map_append]
  congr 1
  · by_cases hthought : thought = []
    · rw [if_neg (by rw [h.reasoning]; exact not_not_intro hthought), if_neg (not_not_intro hthought)]
      rfl
    · rw [if_pos (h.reasoning.mpr hthought), if_pos hthought, h.thinking]
      rfl
  · by_cases htcs : tcs = []
    · obtain ⟨htext, hstarted⟩ := h.text htcs
      rw [if_neg (by rw [hlength]; exact not_not_intro htcs), if_neg (not_not_intro htcs),
        if_pos (hstarted.mpr (hsay.resolve_left (not_not_intro htcs))), htext]
      rfl
    · rw [if_pos (hlength.mpr htcs), if_pos htcs, h.calls]

/-- All responses add what they bring. -/
theorem emitAll_collects (ids : Nat → Bytes) (marshal : α → Option Bytes) (rs : List (ChatResponse α)) (h : Collected thought tcs said c) :
    (emitAll (process ids marshal) rs c).1.flatMap (fun e => e.data.reasoningDelta) = rs.flatMap (·.message.thinking) ∧
      Collected (thought ++ rs.flatMap (·.message.thinking)) (tcs ++ toToolCalls marshal (rs.flatMap (·.message.toolCalls)))
        (said ++ rs.flatMap (·.message.content)) (emitAll (process ids marshal) rs c).2 := by
  induction rs generalizing thought tcs said c with
  | nil =>
    simp only [List.flatMap_nil, toToolCalls, List.map_nil, List.append_nil, emitAll_nil]
    exact ⟨trivial, h⟩
  | cons r rs ih =>
    obtain ⟨hdelta, hnext⟩ := process_collects ids marshal h r
    obtain ⟨hdeltas, hall⟩ := ih hnext
    rw [emitAll_cons]
    refine ⟨?_, ?_⟩
    · rw [List.flatMap_append, hdelta, hdeltas, List.flatMap_cons]
    · simpa only [List.flatMap_cons, toToolCalls, List.map_append, List.append_assoc] using hall

/-- What the last event of a stream carries. -/
def completed (r : ChatResponse α) (output : List Item) : Data :=
  .responseCompleted output r.metrics.promptEvalCount r.metrics.evalCount (r.metrics.promptEvalCount + r.metrics.evalCount)

theorem newEvents_append (ds : List Data) (d : Data) (c : Converter) :
    (newEvents (ds ++ [d]) c).1 = (newEvents ds c).1 ++ [⟨d, c.sequenceNumber + ds.length⟩] := by
  unfold newEvents
  rw [List.zipIdx_append, List.map_append]
  rfl

theorem data_completed (ids : Nat → Bytes) (marshal : α → Option Bytes) {r : ChatResponse α} (hdone : r.done = true) (c : Converter) :
    ∃ ds, (c.data ids marshal r).1 = ds ++ [completed r (c.data ids marshal r).2.buildFinalOutput] := by
  have hdata : c.data ids marshal r = andThen (c.brings ids marshal r) (processCompletion r) := by
    rw [data_eq, andThen, if_pos hdone]
    rfl
  rw [hdata]
  unfold andThen processCompletion
  dsimp only
  rw [← List.append_assoc]
  exact ⟨_, rfl⟩

/-- The last event lists what was collected. -/
theorem process_completed (ids : Nat → Bytes) (marshal : α → Option Bytes) {r : ChatResponse α} (hdone : r.done = true) (c : Converter) :
    ∃ events n, (c.process ids marshal r).1 = events ++ [⟨completed r (c.process ids marshal r).2.buildFinalOutput, n⟩] := by
  obtain ⟨ds, hds⟩ := data_completed ids marshal hdone c
  have hprocess : (c.process ids marshal r).1 = (newEvents (c.data ids marshal r).1 (c.data ids marshal r).2).1 := rfl
  rw [hprocess, hds, newEvents_append]
  exact ⟨_, _, rfl⟩

theorem collected_text (h : Collected thought tcs said c) : c.buildFinalOutput.flatMap Item.reasoningText = thought := by
  have hcall : ∀ item ∈ c.toolCallItems, item.reasoningText = [] := by
    intro item hitem
    have hmem : item.withoutID ∈ tcs.map Item.ofCall := h.calls ▸ List.mem_map_of_mem hitem
    obtain ⟨tc, -, htc⟩ := List.mem_map.mp hmem
    cases item with
    | reasoning id summary => cases htc
    | functionCall id status callID name arguments => rfl
    | message id status content => rfl
  have hrest : (if 0 < c.toolCallItems.length then c.toolCallItems
      else if c.contentStarted then [Item.message c.itemID .completed (some c.accumulatedText)] else []).flatMap Item.reasoningText = [] := by
    split_ifs
    · exact List.flatMap_eq_nil_iff.mpr hcall
    · rfl
    · rfl
  unfold buildFinalOutput
  rw [List.flatMap_append, hrest, List.append_nil]
  split_ifs with hstarted
  · rw [h.thinking, List.flatMap_singleton]
    rfl
  · exact (not_ne_iff.mp (mt h.reasoning.mpr hstarted)).symm

end Converter

/-! ## The whole stream -/

theorem toResponse_withoutID (responseID itemID : Bytes) (marshal : α → Option Bytes) (r : ChatResponse α) :
    (toResponse responseID itemID marshal r).map Item.withoutID =
      (if r.message.thinking ≠ [] then [.reasoning [] (some r.message.thinking)] else []) ++
        if toToolCalls marshal r.message.toolCalls ≠ [] then (toToolCalls marshal r.message.toolCalls).map Item.ofCall
        else [.message [] .completed (some r.message.content)] := by
  have hlength : 0 < r.message.toolCalls.length ↔ toToolCalls marshal r.message.toolCalls ≠ [] := by
    rw [List.length_pos_iff, toToolCalls, ne_eq, ne_eq, List.map_eq_nil_iff]
  unfold toResponse
  rw [List.map_append]
  congr 1
  · split_ifs <;> rfl
  · by_cases htcs : 0 < r.message.toolCalls.length
    · have hfst : (toToolCalls marshal r.message.toolCalls).map Item.ofCall =
          ((toToolCalls marshal r.message.toolCalls).zipIdx.map Prod.fst).map Item.ofCall := by rw [List.zipIdx_map_fst]
      rw [if_pos htcs, if_pos (hlength.mp htcs), hfst, List.map_map, List.map_map]
      rfl
    · rw [if_neg htcs, if_neg (mt hlength.mpr htcs)]
      rfl

/-- A stream that says something ends with the output of the single response, but for the ids, and its reasoning is what was
streamed. -/
theorem stream_agrees {before : List (ChatResponse α)} {last : ChatResponse α} (hdone : last.done = true)
    (hsay : (merged (before ++ [last])).message.content ≠ [] ∨ (merged (before ++ [last])).message.toolCalls ≠ [])
    (ids : Nat → Bytes) (responseID itemID : Bytes) (marshal : α → Option Bytes) :
    ∃ events output n, stream ids itemID marshal (before ++ [last]) = events ++ [⟨Converter.completed last output, n⟩] ∧
      output.map Item.withoutID = (toResponse responseID itemID marshal (merged (before ++ [last]))).map Item.withoutID ∧
      output.flatMap Item.reasoningText = (stream ids itemID marshal (before ++ [last])).flatMap fun e => e.data.reasoningDelta := by
  obtain ⟨hdeltas, hcollected⟩ := Converter.emitAll_collects ids marshal (before ++ [last]) (Converter.collected_new itemID)
  rw [List.nil_append, List.nil_append, List.nil_append] at hcollected
  have hsay' : toToolCalls marshal ((before ++ [last]).flatMap (·.message.toolCalls)) ≠ [] ∨
      (before ++ [last]).flatMap (·.message.content) ≠ [] := by
    rw [toToolCalls, ne_eq, List.map_eq_nil_iff]
    exact hsay.symm
  obtain ⟨events, n, hlast⟩ :=
    Converter.process_completed ids marshal hdone (emitAll (Converter.process ids marshal) before (newConverter itemID)).2
  have houtput := (hcollected.output hsay').trans (toResponse_withoutID responseID itemID marshal (merged (before ++ [last]))).symm
  have htext := Converter.collected_text hcollected
  rw [← hdeltas] at htext
  refine ⟨(emitAll (Converter.process ids marshal) before (newConverter itemID)).1 ++ events, _, n, ?_, houtput, htext⟩
  rw [stream, emitAll_append, emitAll_cons, emitAll_nil]
  dsimp only
  rw [hlast, List.append_nil, List.append_assoc]

/-- Thinking, text and a call: the text is left out on both sides. -/
theorem textCall_agrees : ∃ events output n, stream (fun j => List.replicate j 0) (ascii "msg_1") (fun _ : Unit => some (ascii "\x7b\x7d"))
      ([{ message := { thinking := ascii "Search" } }, { message := { content := ascii "Hi" } }] ++
        [{ message := { toolCalls := [⟨ascii "call", ascii "search", ()⟩] }, done := true }]) = events ++ [⟨Converter.completed
        { message := { toolCalls := [⟨ascii "call", ascii "search", ()⟩] }, done := true } output, n⟩] ∧
      output.map Item.withoutID = [.reasoning [] (some (ascii "Search")),
        .functionCall [] .completed (ascii "call") (ascii "search") (ascii "\x7b\x7d")] := by
  obtain ⟨events, output, n, hstream, houtput, -⟩ := @stream_agrees Unit
    [{ message := { thinking := ascii "Search" } }, { message := { content := ascii "Hi" } }]
    { message := { toolCalls := [⟨ascii "call", ascii "search", ()⟩] }, done := true } rfl (.inl (by decide))
    (fun j => List.replicate j 0) (ascii "resp_1") (ascii "msg_1") fun _ => some (ascii "\x7b\x7d")
  exact ⟨events, output, n, hstream, houtput.trans (by decide)⟩

end Xdragon.Openai
