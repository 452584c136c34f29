import Xdragon.Anthropic.Stream

/-!
# Web search inside of a stream

`WebSearchAnthropicWriter` for a streamed answer. Chunks pass through the converter until one of them calls
`web_search`. From then on chunks are only counted, while a loop searches and asks the model again, and in the
end the writer goes on with the result of the loop where the converter has stopped.

The web, the follow-up requests and the argument `query` of a call are parameters. Every chunk was decoded from
JSON, so that arguments can always be marshalled.
-/

namespace Xdragon.Anthropic

open Xdragon.Lib

variable {α : Type}

/-! ## The loop -/

/-- `OllamaWebSearchResult`. -/
structure SearchResult where
  title : Bytes
  url : Bytes
  content : Bytes

/-- `WebSearchResult`. -/
structure WebSearchResult where
  url : Bytes
  title : Bytes

/-- The messages that the loop puts behind those of the request. -/
inductive FollowUp (α : Type) where
  | assistant (content thinking : Bytes) (call : ToolCall α)
  | tool (content toolCallID : Bytes)

/-- The blocks of the server. -/
inductive ServerBlock where
  | serverToolUse (id query : Bytes)
  | webSearchToolResult (toolUseID : Bytes) (content : List WebSearchResult)
  | webSearchToolResultError (toolUseID errorCode : Bytes)

/-- A block of a response, from the server or from the model. -/
inductive Content (α : Type) where
  | server (block : ServerBlock)
  | converted (block : ContentBlock α)

/-- The fields of a `MessagesResponse` that `writeTerminalResponse` reads. -/
structure SearchedResponse (α : Type) where
  content : List (Content α)
  stopReason : Bytes
  usage : Usage

structure WebSearchLoopError where
  code : Bytes
  query : Bytes
  usage : Usage

/-- What is around the writer: the request, the web and the model. -/
structure World (α : Type) where
  id : Bytes
  model : Bytes
  estimatedInputTokens : Int
  marshal : α → Bytes
  /-- The argument `query`, if it is a string. -/
  query : α → Option Bytes
  /-- What a search gives in a round, if it does not fail. -/
  webSearch : Nat → Bytes → Option (List SearchResult)
  /-- What a follow-up request gives in a round, if it does not fail. -/
  chat : Nat → List (FollowUp α) → Option (ChatResponse α)

def maxWebSearchLoops : Nat := 3

def convertOllamaToAnthropicResults (results : List SearchResult) : List WebSearchResult :=
  results.map fun r => ⟨r.url, r.title⟩

def formatWebSearchResultsForToolMessage (results : List SearchResult) : Bytes :=
  results.flatMap fun r =>
    ascii "Title: " ++ r.title ++ ascii "\nURL: " ++ r.url ++ ascii "\n" ++
      (if r.content ≠ [] then ascii "Content: " ++ r.content ++ ascii "\n" else []) ++ ascii "\n"

/-- The first call of `web_search`. -/
def findWebSearchToolCall (toolCalls : List (ToolCall α)) : Option (ToolCall α) :=
  toolCalls.find? fun tc => tc.name = ascii "web_search"

def isCloudModelName (name : Bytes) : Bool := (ascii ":cloud").isSuffixOf name || (ascii "-cloud").isSuffixOf name

def trimPrefix (pre s : Bytes) : Bytes := if pre.isPrefixOf s then s.drop pre.length else s

def serverToolUseID (messageID : Bytes) : Bytes := ascii "srvtoolu_" ++ trimPrefix (ascii "msg_") messageID

def loopServerToolUseID (messageID : Bytes) (loop : Nat) : Bytes :=
  if loop ≤ 1 then serverToolUseID messageID else serverToolUseID messageID ++ ascii "_" ++ ascii (toString loop)

def Usage.add (u : Usage) (m : Metrics) : Usage :=
  ⟨u.inputTokens + m.promptEvalCount, u.outputTokens + m.evalCount⟩

/-- How the loop ends. `received` has the follow-up responses that came, of which the code keeps the counts. -/
structure LoopResult (α : Type) where
  result : Except WebSearchLoopError (SearchedResponse α)
  received : List (ChatResponse α)

namespace World

variable (w : World α)

def extractQueryFromToolCall (tc : ToolCall α) : Bytes := (w.query tc.arguments).getD []

def combineServerAndFinalContent (serverContent : List (Content α)) (final : ChatResponse α) (usage : Usage) :
    SearchedResponse α :=
  let converted := toMessagesResponse w.id final
  ⟨serverContent ++ converted.content.map .converted, converted.stopReason, usage⟩

/-- What the loop answers when it has searched too often. -/
def maxResponse (serverContent : List (Content α)) (call : ToolCall α) (usage : Usage) : SearchedResponse α :=
  let toolUseID := loopServerToolUseID w.id (maxWebSearchLoops + 1)
  ⟨serverContent ++ [.server (.serverToolUse toolUseID (w.extractQueryFromToolCall call)),
      .server (.webSearchToolResultError toolUseID (ascii "max_uses_exceeded"))], ascii "end_turn", usage⟩

/-- The rounds of `runWebSearchLoop` that are left, from round `loop` on. -/
def rounds : Nat → Nat → ChatResponse α → ToolCall α → List (FollowUp α) → List (Content α) → Usage → LoopResult α
  | 0, _, _, call, _, serverContent, usage => ⟨.ok (w.maxResponse serverContent call usage), []⟩
  | left + 1, loop, response, call, messages, serverContent, usage =>
    let query := w.extractQueryFromToolCall call
    if query = [] then ⟨.error ⟨ascii "invalid_request", [], usage⟩, []⟩
    else
      match w.webSearch loop query with
      | none => ⟨.error ⟨ascii "unavailable", query, usage⟩, []⟩
      | some results =>
        let toolUseID := loopServerToolUseID w.id loop
        let serverContent := serverContent ++ [.server (.serverToolUse toolUseID query),
          .server (.webSearchToolResult toolUseID (convertOllamaToAnthropicResults results))]
        let messages := messages ++ [.assistant response.message.content response.message.thinking call,
          .tool (formatWebSearchResultsForToolMessage results) call.id]
        match w.chat loop messages with
        | none => ⟨.error ⟨ascii "api_error", query, usage⟩, []⟩
        | some followUp =>
          let usage := usage.add followUp.metrics
          match findWebSearchToolCall followUp.message.toolCalls with
          | none => ⟨.ok (w.combineServerAndFinalContent serverContent followUp usage), [followUp]⟩
          | some next =>
            let rest := rounds left (loop + 1) followUp next messages serverContent usage
            ⟨rest.result, followUp :: rest.received⟩

def runWebSearchLoop (response : ChatResponse α) (call : ToolCall α) (usage : Usage) : LoopResult α :=
  if isCloudModelName w.model then w.rounds maxWebSearchLoops 1 response call [] [] usage
  else ⟨.error ⟨ascii "web_search_not_supported_for_local_models", w.extractQueryFromToolCall call, usage⟩, []⟩

def webSearchErrorResponse (e : WebSearchLoopError) (usage : Usage) : SearchedResponse α :=
  let toolUseID := serverToolUseID w.id
  ⟨[.server (.serverToolUse toolUseID e.query), .server (.webSearchToolResultError toolUseID e.code)],
    ascii "end_turn", usage⟩

end World

/-! ## The writer -/

/-- What is written: an event as the converter has them, or the start of a block of the server. -/
inductive Written (α : Type) where
  | event (e : StreamEvent α)
  | serverBlockStart (index : Nat) (block : ServerBlock)

/-- `WebSearchAnthropicWriter`, when it streams. -/
structure SearchWriter (α : Type) where
  converter : StreamConverter
  terminalSent : Bool := false
  observed : Usage := ⟨0, 0⟩
  loopBase : Usage := ⟨0, 0⟩
  /-- The loop in flight, with what will come from its channel. -/
  loop : Option (LoopResult α) := none
  messageStarted : Bool := false
  hasOpenBlock : Bool := false
  openBlockIndex : Nat := 0
  nextIndex : Nat := 0

def newSearchWriter (w : World α) : SearchWriter α :=
  { converter := newStreamConverter w.id w.model w.estimatedInputTokens }

namespace SearchWriter

def recordObservedUsage (s : SearchWriter α) (m : Metrics) : SearchWriter α :=
  { s with observed := ⟨max s.observed.inputTokens m.promptEvalCount, max s.observed.outputTokens m.evalCount⟩ }

/-- What `writePassthroughStreamChunk` notes about an event. -/
def note (s : SearchWriter α) : StreamEvent α → SearchWriter α
  | .messageStart _ => { s with messageStarted := true }
  | .contentBlockStart index _ =>
    { s with hasOpenBlock := true, openBlockIndex := index, nextIndex := max s.nextIndex (index + 1) }
  | .contentBlockStop index =>
    { s with
      hasOpenBlock := s.hasOpenBlock && s.openBlockIndex ≠ index
      nextIndex := max s.nextIndex (index + 1) }
  | .messageStop => { s with terminalSent := true }
  | _ => s

def writePassthroughStreamChunk (w : World α) (s : SearchWriter α) (r : ChatResponse α) : List (Written α) × SearchWriter α :=
  let (events, converter) := s.converter.process (fun a => some (w.marshal a)) r
  (events.map .event, { events.foldl note s with converter })

def startLoopWorker (w : World α) (s : SearchWriter α) (r : ChatResponse α) (call : ToolCall α) : SearchWriter α :=
  if s.loop.isSome then s
  else
    let usage : Usage := ⟨max s.observed.inputTokens r.metrics.promptEvalCount, max s.observed.outputTokens r.metrics.evalCount⟩
    { s with loopBase := usage, loop := some (w.runWebSearchLoop r call usage) }

def applyObservedUsageDelta (s : SearchWriter α) (u : Usage) : Usage :=
  let deltaIn := s.observed.inputTokens - s.loopBase.inputTokens
  let deltaOut := s.observed.outputTokens - s.loopBase.outputTokens
  ⟨if deltaIn > 0 then u.inputTokens + deltaIn else u.inputTokens,
    if deltaOut > 0 then u.outputTokens + deltaOut else u.outputTokens⟩

def ensureStreamMessageStart (w : World α) (s : SearchWriter α) (usage : Usage) : List (Written α) :=
  if s.messageStarted then []
  else
    let inputTokens := if usage.inputTokens = 0 then w.estimatedInputTokens else usage.inputTokens
    [.event (.messageStart { id := w.id, model := w.model, content := [], usage := ⟨inputTokens, 0⟩ })]

/-- The stop of the block that is open, and the index of the block after it. -/
def closeOpenStreamBlock (s : SearchWriter α) : List (Written α) × Nat :=
  if s.hasOpenBlock then
    ([.event (.contentBlockStop s.openBlockIndex)], max s.nextIndex (s.openBlockIndex + 1))
  else ([], s.nextIndex)

/-- The events of one block. A text goes into a delta of its own. -/
def writeBlock (index : Nat) : Content α → List (Written α)
  | .converted (.text text) =>
    [.event (.contentBlockStart index (.text [])), .event (.contentBlockDelta index (.text text)),
      .event (.contentBlockStop index)]
  | .converted block => [.event (.contentBlockStart index block), .event (.contentBlockStop index)]
  | .server block => [.serverBlockStart index block, .event (.contentBlockStop index)]

def writeStreamContentBlocks : Nat → List (Content α) → List (Written α)
  | _, [] => []
  | index, block :: content => writeBlock index block ++ writeStreamContentBlocks (index + 1) content

/-- `writeTerminalResponse`. The state of the blocks is not looked at again. -/
def writeTerminalResponse (w : World α) (s : SearchWriter α) (r : SearchedResponse α) : List (Written α) × SearchWriter α :=
  if s.terminalSent then ([], s)
  else
    let (closed, index) := s.closeOpenStreamBlock
    (s.ensureStreamMessageStart w r.usage ++ closed ++ writeStreamContentBlocks index r.content ++
        [.event (.messageDelta r.stopReason r.usage), .event .messageStop],
      { s with messageStarted := true, hasOpenBlock := false, nextIndex := index + r.content.length, terminalSent := true })

def writeLoopResult (w : World α) (s : SearchWriter α) : List (Written α) × SearchWriter α :=
  match s.loop with
  | none => s.writeTerminalResponse w (w.webSearchErrorResponse ⟨ascii "api_error", [], s.observed⟩ s.observed)
  | some loop =>
    let s := { s with loop := none }
    match loop.result with
    | .error e => s.writeTerminalResponse w (w.webSearchErrorResponse e (s.applyObservedUsageDelta e.usage))
    | .ok r => s.writeTerminalResponse w { r with usage := s.applyObservedUsageDelta r.usage }

/-- `Write`. -/
def write (w : World α) (r : ChatResponse α) (s : SearchWriter α) : List (Written α) × SearchWriter α :=
  if s.terminalSent then ([], s)
  else
    let s := s.recordObservedUsage r.metrics
    if s.loop.isSome then if r.done then s.writeLoopResult w else ([], s)
    else
      match findWebSearchToolCall r.message.toolCalls with
      | none => s.writePassthroughStreamChunk w r
      | some call =>
        let s := s.startLoopWorker w r call
        if r.done then s.writeLoopResult w else ([], s)

end SearchWriter

/-- What is written for all chunks of a stream. -/
def searchStream (w : World α) (rs : List (ChatResponse α)) : List (Written α) :=
  (emitAll (SearchWriter.write w) rs (newSearchWriter w)).1

end Xdragon.Anthropic
