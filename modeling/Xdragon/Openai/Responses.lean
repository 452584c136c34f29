import Xdragon.Anthropic.Stream

/-!
# A stream of responses events

`ResponsesStreamConverter` makes events of chat responses. What it generates at random, the ids of the items but that
of the message, and how arguments are marshalled are parameters.
-/

namespace Xdragon.Openai

open Xdragon.Lib
open Xdragon.Anthropic (ChatResponse Complete)

variable {α : Type}

/-! ## Data -/

inductive Status where
  | inProgress
  | completed
  deriving DecidableEq

/-- An output item. The summary and the content are lists of at most one text. -/
inductive Item where
  | reasoning (id : Bytes) (summary : Option Bytes)
  | functionCall (id : Bytes) (status : Status) (callID name arguments : Bytes)
  | message (id : Bytes) (status : Status) (content : Option Bytes)
  deriving DecidableEq

/-- What an event carries. The response objects have their output only. -/
inductive Data where
  | responseCreated (output : List Item)
  | responseInProgress (output : List Item)
  | outputItemAdded (outputIndex : Nat) (item : Item)
  | outputItemDone (outputIndex : Nat) (item : Item)
  | reasoningSummaryTextDelta (itemID : Bytes) (outputIndex summaryIndex : Nat) (delta : Bytes)
  | reasoningSummaryTextDone (itemID : Bytes) (outputIndex summaryIndex : Nat) (text : Bytes)
  | functionCallArgumentsDelta (itemID : Bytes) (outputIndex : Nat) (delta : Bytes)
  | functionCallArgumentsDone (itemID : Bytes) (outputIndex : Nat) (arguments : Bytes)
  | contentPartAdded (itemID : Bytes) (outputIndex contentIndex : Nat)
  | outputTextDelta (itemID : Bytes) (outputIndex contentIndex : Nat) (delta : Bytes)
  | outputTextDone (itemID : Bytes) (outputIndex contentIndex : Nat) (text : Bytes)
  | contentPartDone (itemID : Bytes) (outputIndex contentIndex : Nat) (text : Bytes)
  | responseCompleted (output : List Item) (inputTokens outputTokens totalTokens : Int)

structure Event where
  data : Data
  sequenceNumber : Nat

/-- `ToolCall`, as `ToToolCalls` makes it. -/
structure ToolCall where
  id : Bytes
  name : Bytes
  arguments : Bytes

/-- Arguments that cannot be marshalled stay empty. -/
def toToolCalls (marshal : α → Option Bytes) (tcs : List (Anthropic.ToolCall α)) : List ToolCall :=
  tcs.map fun tc => ⟨tc.id, tc.name, (marshal tc.arguments).getD []⟩

/-! ## The converter -/

structure Converter where
  itemID : Bytes
  firstWrite : Bool := true
  outputIndex : Nat := 0
  contentIndex : Nat := 0
  contentStarted : Bool := false
  toolCallsSent : Bool := false
  accumulatedText : Bytes := []
  sequenceNumber : Nat := 0
  accumulatedThinking : Bytes := []
  reasoningItemID : Bytes := []
  reasoningStarted : Bool := false
  reasoningDone : Bool := false
  toolCallItems : List Item := []
  /-- How many ids were generated. -/
  generated : Nat := 0

def newConverter (itemID : Bytes) : Converter := { itemID }

namespace Converter

/-- `newEvent` for one event after another. -/
def newEvents (ds : List Data) (c : Converter) : List Event × Converter :=
  (ds.zipIdx c.sequenceNumber |>.map fun (data, n) => ⟨data, n⟩, { c with sequenceNumber := c.sequenceNumber + ds.length })

/-- The two events of the first write. -/
def begin (c : Converter) : List Data × Converter :=
  if c.firstWrite then ([.responseCreated [], .responseInProgress []], { c with firstWrite := false }) else ([], c)

def finishReasoning (c : Converter) : List Data × Converter :=
  if !c.reasoningStarted || c.reasoningDone then ([], c)
  else
    ([.reasoningSummaryTextDone c.reasoningItemID c.outputIndex 0 c.accumulatedThinking,
        .outputItemDone c.outputIndex (.reasoning c.reasoningItemID (some c.accumulatedThinking))],
      { c with reasoningDone := true, outputIndex := c.outputIndex + 1 })

section
variable (ids : Nat → Bytes)

def processThinking (thinking : Bytes) (c : Converter) : List Data × Converter :=
  let (added, c) : List Data × Converter :=
    if c.reasoningStarted then ([], c)
    else
      let id := ids c.generated
      ([.outputItemAdded c.outputIndex (.reasoning id none)],
        { c with reasoningStarted := true, reasoningItemID := id, generated := c.generated + 1 })
  (added ++ [.reasoningSummaryTextDelta c.reasoningItemID c.outputIndex 0 thinking],
    { c with accumulatedThinking := c.accumulatedThinking ++ thinking })

/-- The events of one call. -/
def callEvents (id : Bytes) (outputIndex : Nat) (tc : ToolCall) : List Data :=
  .outputItemAdded outputIndex (.functionCall id .inProgress tc.id tc.name []) ::
    (if tc.arguments ≠ [] then [.functionCallArgumentsDelta id outputIndex tc.arguments] else []) ++
    [.functionCallArgumentsDone id outputIndex tc.arguments,
      .outputItemDone outputIndex (.functionCall id .completed tc.id tc.name tc.arguments)]

def processToolCalls (toolCalls : List ToolCall) (c : Converter) : List Data × Converter :=
  let (finished, c) := c.finishReasoning
  let converted := toolCalls.zipIdx
  (finished ++ converted.flatMap fun (tc, i) => callEvents (ids (c.generated + i)) (c.outputIndex + i) tc,
    { c with
      toolCallItems := c.toolCallItems ++ converted.map fun (tc, i) =>
        .functionCall (ids (c.generated + i)) .completed tc.id tc.name tc.arguments
      generated := c.generated + toolCalls.length })

def processTextContent (content : Bytes) (c : Converter) : List Data × Converter :=
  let (finished, c) := c.finishReasoning
  let started : List Data :=
    if c.contentStarted then []
    else [.outputItemAdded c.outputIndex (.message c.itemID .inProgress none),
      .contentPartAdded c.itemID c.outputIndex c.contentIndex]
  (finished ++ started ++ [.outputTextDelta c.itemID c.outputIndex 0 content],
    { c with contentStarted := true, accumulatedText := c.accumulatedText ++ content })

def buildFinalOutput (c : Converter) : List Item :=
  (if c.reasoningStarted then [.reasoning c.reasoningItemID (some c.accumulatedThinking)] else []) ++
    if 0 < c.toolCallItems.length then c.toolCallItems
    else if c.contentStarted then [.message c.itemID .completed (some c.accumulatedText)]
    else []

def processCompletion (r : ChatResponse α) (c : Converter) : List Data × Converter :=
  let (finished, c) := c.finishReasoning
  let done : List Data :=
    if !c.toolCallsSent && c.contentStarted then
      [.outputTextDone c.itemID c.outputIndex 0 c.accumulatedText,
        .contentPartDone c.itemID c.outputIndex 0 c.accumulatedText,
        .outputItemDone c.outputIndex (.message c.itemID .completed (some c.accumulatedText))]
    else []
  (finished ++ done ++ [.responseCompleted c.buildFinalOutput r.metrics.promptEvalCount r.metrics.evalCount
      (r.metrics.promptEvalCount + r.metrics.evalCount)], c)

variable (marshal : α → Option Bytes)

/-- What `Process` makes of a response. -/
def data (r : ChatResponse α) (c : Converter) : List Data × Converter :=
  let toolCalls := toToolCalls marshal r.message.toolCalls
  let (begun, c) := c.begin
  let (thought, c) := if r.message.thinking ≠ [] then c.processThinking ids r.message.thinking else ([], c)
  let (called, c) : List Data × Converter :=
    if toolCalls ≠ [] then
      let (called, c) := c.processToolCalls ids toolCalls
      (called, { c with toolCallsSent := true })
    else ([], c)
  let (said, c) :=
    if toolCalls = [] ∧ ¬ c.toolCallsSent ∧ r.message.content ≠ [] then c.processTextContent r.message.content else ([], c)
  let (completed, c) := if r.done then c.processCompletion r else ([], c)
  (begun ++ thought ++ called ++ said ++ completed, c)

/-- `Process`. The events are numbered in the order in which they are made. -/
def process (r : ChatResponse α) (c : Converter) : List Event × Converter :=
  let (ds, c) := c.data ids marshal r
  c.newEvents ds

end

end Converter

/-- The events for all responses of a stream. -/
def stream (ids : Nat → Bytes) (itemID : Bytes) (marshal : α → Option Bytes) (rs : List (ChatResponse α)) : List Event :=
  (emitAll (Converter.process ids marshal) rs (newConverter itemID)).1

end Xdragon.Openai
