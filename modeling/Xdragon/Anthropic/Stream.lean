import Xdragon.Lib.Emit
import Xdragon.Lib.Wire

/-!
# Answers in the Anthropic format

A chat response becomes one message, or a sequence of them a stream of events with content blocks. How
arguments are marshalled is a parameter.
-/

namespace Xdragon.Anthropic

open Xdragon.Lib

/-! ## Data -/

structure ToolCall (α : Type) where
  id : Bytes
  name : Bytes
  arguments : α

structure Message (α : Type) where
  thinking : Bytes := []
  content : Bytes := []
  toolCalls : List (ToolCall α) := []

structure Metrics where
  promptEvalCount : Int := 0
  evalCount : Int := 0

structure ChatResponse (α : Type) where
  model : Bytes := []
  message : Message α := {}
  done : Bool := false
  doneReason : Bytes := []
  metrics : Metrics := {}

structure Usage where
  inputTokens : Int
  outputTokens : Int

/-- A block of content; the input of a tool is none where it is the empty object. -/
inductive ContentBlock (α : Type) where
  | thinking (thinking : Bytes)
  | text (text : Bytes)
  | toolUse (id name : Bytes) (input : Option α)

structure MessagesResponse (α : Type) where
  id : Bytes
  model : Bytes
  content : List (ContentBlock α)
  stopReason : Bytes := []
  usage : Usage

inductive Delta where
  | thinking (thinking : Bytes)
  | text (text : Bytes)
  | inputJSON (partialJSON : Bytes)

inductive StreamEvent (α : Type) where
  | messageStart (message : MessagesResponse α)
  | contentBlockStart (index : Nat) (contentBlock : ContentBlock α)
  | contentBlockDelta (index : Nat) (delta : Delta)
  | contentBlockStop (index : Nat)
  | messageDelta (stopReason : Bytes) (usage : Usage)
  | messageStop

/-! ## One message -/

def mapStopReason (reason : Bytes) (hasToolCalls : Bool) : Bytes :=
  if hasToolCalls then ascii "tool_use"
  else if reason = ascii "stop" then ascii "end_turn"
  else if reason = ascii "length" then ascii "max_tokens"
  else if reason ≠ [] then ascii "stop_sequence"
  else []

variable {α : Type}

def toMessagesResponse (id : Bytes) (r : ChatResponse α) : MessagesResponse α :=
  { id
    model := r.model
    content := (if r.message.thinking ≠ [] then [.thinking r.message.thinking] else []) ++
      (if r.message.content ≠ [] then [.text r.message.content] else []) ++
      r.message.toolCalls.map fun tc => .toolUse tc.id tc.name (some tc.arguments)
    stopReason := mapStopReason r.doneReason (r.message.toolCalls.length > 0)
    usage := { inputTokens := r.metrics.promptEvalCount, outputTokens := r.metrics.evalCount } }

/-! ## The stream -/

structure StreamConverter where
  id : Bytes
  model : Bytes
  firstWrite : Bool := true
  contentIndex : Nat := 0
  inputTokens : Int := 0
  outputTokens : Int := 0
  estimatedInputTokens : Int := 0
  thinkingStarted : Bool := false
  thinkingDone : Bool := false
  textStarted : Bool := false
  toolCallsSent : List Bytes := []

def newStreamConverter (id model : Bytes) (estimatedInputTokens : Int) : StreamConverter :=
  { id, model, estimatedInputTokens }

namespace StreamConverter

/-- The start of `Process`. -/
def begin (c : StreamConverter) (r : ChatResponse α) : List (StreamEvent α) × StreamConverter :=
  if c.firstWrite then
    let tokens := r.metrics.promptEvalCount
    let c := { c with
      firstWrite := false
      inputTokens := if tokens = 0 ∧ c.estimatedInputTokens > 0 then c.estimatedInputTokens else tokens }
    ([.messageStart { id := c.id, model := c.model, content := [], usage := { inputTokens := c.inputTokens, outputTokens := 0 } }],
      c)
  else ([], c)

def thinking (c : StreamConverter) (thinking : Bytes) : List (StreamEvent α) × StreamConverter :=
  if thinking ≠ [] ∧ ¬ c.thinkingDone then
    ((if c.thinkingStarted then [] else [.contentBlockStart c.contentIndex (.thinking [])]) ++
      [.contentBlockDelta c.contentIndex (.thinking thinking)], { c with thinkingStarted := true })
  else ([], c)

/-- Closes the thinking. -/
def closeThinking (c : StreamConverter) : List (StreamEvent α) × StreamConverter :=
  if c.thinkingStarted ∧ ¬ c.thinkingDone then
    ([.contentBlockStop c.contentIndex], { c with thinkingDone := true, contentIndex := c.contentIndex + 1 })
  else ([], c)

def content (c : StreamConverter) (content : Bytes) : List (StreamEvent α) × StreamConverter :=
  if content ≠ [] then
    let (events, c) := c.closeThinking
    (events ++ (if c.textStarted then [] else [.contentBlockStart c.contentIndex (.text [])]) ++
      [.contentBlockDelta c.contentIndex (.text content)], { c with textStarted := true })
  else ([], c)

/-- Closes the text in front of a tool call. -/
def closeText (c : StreamConverter) : List (StreamEvent α) × StreamConverter :=
  if c.textStarted then
    ([.contentBlockStop c.contentIndex], { c with contentIndex := c.contentIndex + 1, textStarted := false })
  else ([], c)

section
variable (marshal : α → Option Bytes)

def toolCall (c : StreamConverter) (tc : ToolCall α) : List (StreamEvent α) × StreamConverter :=
  if c.toolCallsSent.contains tc.id then ([], c)
  else
    let (events, c) := c.closeText
    match marshal tc.arguments with
    | none => (events, c)
    | some argsJSON =>
      (events ++ [.contentBlockStart c.contentIndex (.toolUse tc.id tc.name none),
          .contentBlockDelta c.contentIndex (.inputJSON argsJSON), .contentBlockStop c.contentIndex],
        { c with toolCallsSent := tc.id :: c.toolCallsSent, contentIndex := c.contentIndex + 1 })

/-- The end of `Process`. -/
def finish (c : StreamConverter) (r : ChatResponse α) : List (StreamEvent α) × StreamConverter :=
  if r.done then
    let c' := { c with inputTokens := r.metrics.promptEvalCount, outputTokens := r.metrics.evalCount }
    ((if c.textStarted then [.contentBlockStop c.contentIndex]
      else if c.thinkingStarted ∧ ¬ c.thinkingDone then [.contentBlockStop c.contentIndex]
      else []) ++
      [.messageDelta (mapStopReason r.doneReason (c.toolCallsSent.length > 0))
          { inputTokens := c'.inputTokens, outputTokens := c'.outputTokens }, .messageStop], c')
  else ([], c)

/-- `Process`. -/
def process (r : ChatResponse α) (c : StreamConverter) : List (StreamEvent α) × StreamConverter :=
  let (started, c) := c.begin r
  let (thought, c) := c.thinking r.message.thinking
  let (said, c) := c.content r.message.content
  let (called, c) := emitAll (fun tc c => c.toolCall marshal tc) r.message.toolCalls c
  let (finished, c) := c.finish r
  (started ++ thought ++ said ++ called ++ finished, c)

end

end StreamConverter

/-- The events for all responses of a stream. -/
def stream (marshal : α → Option Bytes) (c : StreamConverter) (rs : List (ChatResponse α)) : List (StreamEvent α) :=
  (emitAll (StreamConverter.process marshal) rs c).1

/-- A stream of responses that ends with the only one that is done. -/
def Complete (rs : List (ChatResponse α)) : Prop :=
  ∃ before last, rs = before ++ [last] ∧ (∀ r ∈ before, r.done = false) ∧ last.done = true

/-! ## What a stream consists of -/

/-- What a response brings. -/
inductive Item (α : Type) where
  | thinking (thinking : Bytes)
  | content (content : Bytes)
  | call (tc : ToolCall α)

def items (r : ChatResponse α) : List (Item α) :=
  (if r.message.thinking ≠ [] then [.thinking r.message.thinking] else []) ++
    (if r.message.content ≠ [] then [.content r.message.content] else []) ++ r.message.toolCalls.map .call

def Item.run (marshal : α → Option Bytes) : Item α → StreamConverter → List (StreamEvent α) × StreamConverter
  | .thinking t, c => c.thinking t
  | .content t, c => c.content t
  | .call tc, c => c.toolCall marshal tc

section
variable (marshal : α → Option Bytes)

theorem process_eq (r : ChatResponse α) (c : StreamConverter) : c.process marshal r =
    ((c.begin r).1 ++ (emitAll (Item.run marshal) (items r) (c.begin r).2).1 ++
        ((emitAll (Item.run marshal) (items r) (c.begin r).2).2.finish r).1,
      ((emitAll (Item.run marshal) (items r) (c.begin r).2).2.finish r).2) := by
  have hthinking : ∀ (t : Bytes) (c : StreamConverter), emitAll (Item.run marshal) (if t ≠ [] then [.thinking t] else []) c =
      c.thinking t := by
    intro t c
    split_ifs with h
    · rw [emitAll_cons, emitAll_nil, List.append_nil]
      rfl
    · rw [StreamConverter.thinking, if_neg fun h' => h h'.1]
      rfl
  have hcontent : ∀ (t : Bytes) (c : StreamConverter), emitAll (Item.run marshal) (if t ≠ [] then [.content t] else []) c =
      c.content t := by
    intro t c
    split_ifs with h
    · rw [emitAll_cons, emitAll_nil, List.append_nil]
      rfl
    · rw [StreamConverter.content, if_neg h]
      rfl
  rw [items, emitAll_append, emitAll_append, hthinking, hcontent, emitAll_map]
  simp only [StreamConverter.process, List.append_assoc]
  rfl

theorem begin_again {c : StreamConverter} (h : c.firstWrite = false) (r : ChatResponse α) : c.begin r = ([], c) := by
  rw [StreamConverter.begin, if_neg (by simp [h])]

theorem finish_undone {r : ChatResponse α} (h : r.done = false) (c : StreamConverter) : c.finish r = ([], c) := by
  rw [StreamConverter.finish, if_neg (by simp [h])]

theorem closeThinking_firstWrite (c : StreamConverter) : (c.closeThinking (α := α)).2.firstWrite = c.firstWrite := by
  unfold StreamConverter.closeThinking
  split_ifs <;> rfl

theorem closeText_firstWrite (c : StreamConverter) : (c.closeText (α := α)).2.firstWrite = c.firstWrite := by
  unfold StreamConverter.closeText
  split_ifs <;> rfl

theorem run_firstWrite (i : Item α) (c : StreamConverter) (h : c.firstWrite = false) : (i.run marshal c).2.firstWrite = false := by
  cases i with
  | thinking t =>
    rw [Item.run, StreamConverter.thinking]
    split_ifs <;> exact h
  | content t =>
    rw [Item.run, StreamConverter.content]
    split_ifs
    · exact (closeThinking_firstWrite (α := α) c).trans h
    · exact h
  | call tc =>
    rw [Item.run, StreamConverter.toolCall]
    split_ifs
    · exact h
    · dsimp only
      split
      · exact (closeText_firstWrite (α := α) c).trans h
      · exact (closeText_firstWrite (α := α) c).trans h

/-- A converter that has given its first event. -/
def begun (id model : Bytes) (estimated tokens : Int) : StreamConverter :=
  { id, model, firstWrite := false, inputTokens := tokens, estimatedInputTokens := estimated }

/-- A stream is its start, what the responses bring, and its end. -/
theorem stream_eq (id model : Bytes) (estimated : Int) {rs : List (ChatResponse α)} (hrs : Complete rs) :
    ∃ message tokens last, last ∈ rs.getLast? ∧ last.done = true ∧
      stream marshal (newStreamConverter id model estimated) rs =
        .messageStart message :: (emitAll (Item.run marshal) (rs.flatMap items) (begun id model estimated tokens)).1 ++
          ((emitAll (Item.run marshal) (rs.flatMap items) (begun id model estimated tokens)).2.finish last).1 := by
  obtain ⟨before, last, rfl, hbefore, hlast⟩ := hrs
  have hundone : ∀ {c : StreamConverter}, c.firstWrite = false →
      emitAll (StreamConverter.process marshal) before c = emitAll (Item.run marshal) (before.flatMap items) c :=
    emitAll_flatMap (Item.run marshal) (run_firstWrite marshal) (StreamConverter.process marshal) items
      fun r hr c hc => by rw [process_eq, begin_again hc, finish_undone (hbefore r hr), List.append_nil, List.nil_append]
  have hall : ∀ {c : StreamConverter}, c.firstWrite = false →
      (emitAll (StreamConverter.process marshal) (before ++ [last]) c).1 =
        (emitAll (Item.run marshal) ((before ++ [last]).flatMap items) c).1 ++
          ((emitAll (Item.run marshal) ((before ++ [last]).flatMap items) c).2.finish last).1 := by
    intro c hc
    have hc' := emitAll_keeps (Item.run marshal) (run_firstWrite marshal) (before.flatMap items) hc
    rw [emitAll_append, hundone hc, emitAll_cons, emitAll_nil, List.append_nil, process_eq, begin_again hc',
      List.flatMap_append, List.flatMap_singleton, emitAll_append, List.nil_append, List.append_assoc]
  -- the first response is processed as if the start had been sent before
  have hfirst : ∀ (r : ChatResponse α) (rs : List (ChatResponse α)), ∃ message tokens,
      emitAll (StreamConverter.process marshal) (r :: rs) (newStreamConverter id model estimated) =
        (.messageStart message :: (emitAll (StreamConverter.process marshal) (r :: rs) (begun id model estimated tokens)).1,
          (emitAll (StreamConverter.process marshal) (r :: rs) (begun id model estimated tokens)).2) := by
    intro r rs
    obtain ⟨message, tokens, hbegin⟩ : ∃ message tokens, (newStreamConverter id model estimated).begin r =
        ([.messageStart message], begun id model estimated tokens) := ⟨_, _, rfl⟩
    refine ⟨message, tokens, ?_⟩
    rw [emitAll_cons, emitAll_cons, process_eq, process_eq, hbegin, begin_again rfl]
    rfl
  obtain ⟨r, rs, hrs⟩ := List.exists_cons_of_ne_nil (show before ++ [last] ≠ [] by simp)
  obtain ⟨message, tokens, hstart⟩ := hfirst r rs
  refine ⟨message, tokens, last, by simp, hlast, ?_⟩
  have h := hall (c := begun id model estimated tokens) rfl
  rw [stream]
  rw [hrs] at h ⊢
  rw [hstart, h]
  rfl

end

end Xdragon.Anthropic
