import Xdragon.Lib.Rounds
import Xdragon.Lib.Tags
import Xdragon.Lib.Utf8
import Xdragon.Lib.Wire

/-!
# The harmony parser

Splits the output of a model into messages with a header and a content, while the text comes in
pieces, and the handler that turns the events into content, thinking and tool calls.
-/

namespace Xdragon.Harmony

open Xdragon.Lib

structure HarmonyHeader where
  role : Bytes := []
  channel : Bytes := []
  recipient : Bytes := []

inductive HarmonyEvent where
  | messageStart
  | headerComplete (header : HarmonyHeader)
  | contentEmitted (content : Bytes)
  | messageEnd

inductive HarmonyParserState where
  | lookingForMessageStart
  | parsingHeader
  | parsingContent

structure HarmonyParser where
  state : HarmonyParserState := .lookingForMessageStart
  messageStartTag : Bytes
  messageEndTag : Bytes
  headerEndTag : Bytes
  acc : Bytes := []

/-- The fields of the last message that a prefill looks at. -/
structure Message where
  role : Bytes
  content : Bytes
  thinking : Bytes

def HarmonyParser.addImplicitStart (s : HarmonyParser) : HarmonyParser := { s with acc := s.acc ++ ascii "<|start|>assistant" }

def HarmonyParser.addImplicitStartOrPrefill (s : HarmonyParser) (lastMessage : Option Message) : HarmonyParser :=
  match lastMessage with
  | some m =>
    if m.role = ascii "assistant" then
      if m.content ≠ [] then { s with acc := s.acc ++ ascii "<|start|>assistant<|channel|>final<|message|>" }
      else if m.thinking ≠ [] then { s with acc := s.acc ++ ascii "<|start|>assistant<|channel|>analysis<|message|>" }
      else s.addImplicitStart
    else s.addImplicitStart
  | none => s.addImplicitStart

/-- `strings.Replace(s, old, new, 1)`. -/
def replaceFirst (s old new : Bytes) : Bytes :=
  match cut old s with
  | some (before, after) => before ++ new ++ after
  | none => s

def parseHeader (raw : Bytes) : HarmonyHeader :=
  -- `<|constrain|>` is a token of its own, also without a space before it
  let raw := if containsTag raw (ascii "<|constrain|>") then
    trimSpace (replaceFirst raw (ascii "<|constrain|>") (ascii " <|constrain|>")) else raw
  let (channel, raw) := match cut (ascii "<|channel|>") raw with
    | some (before, after) =>
      let idx := indexSpace after
      (after.take idx, trimSpace (before ++ after.drop idx))
    | none => ([], raw)
  match fields raw with
  | [] => { channel }
  | role :: tokens =>
    let header : HarmonyHeader := if (ascii "to=").isPrefixOf role then { role := ascii "tool", channel, recipient := role.drop 3 }
      else { role, channel }
    match tokens with
    | token :: _ =>
      if header.recipient = [] ∧ (ascii "to=").isPrefixOf token then { header with recipient := token.drop 3 } else header
    | [] => header

/-- The event for a content, if there is any. -/
def emit (content : Bytes) : List HarmonyEvent := if content = [] then [] else [.contentEmitted content]

/-- One round of `AddContent`: the events, and whether to continue. -/
def HarmonyParser.eat (s : HarmonyParser) : List HarmonyEvent × HarmonyParser × Bool :=
  match s.state with
  | .lookingForMessageStart =>
    match cut s.messageStartTag s.acc with
    | some (_, after) => ([.messageStart], { s with acc := after, state := .parsingHeader }, true)
    | none => ([], s, false)
  | .parsingHeader =>
    match cut s.headerEndTag s.acc with
    | some (header, after) => ([.headerComplete (parseHeader header)], { s with acc := after, state := .parsingContent }, true)
    | none => ([], s, false)
  | .parsingContent =>
    match cut s.messageEndTag s.acc with
    | some (content, after) => (emit content ++ [.messageEnd], { s with acc := after, state := .lookingForMessageStart }, true)
    | none =>
      let overlapLen := overlap s.acc s.messageEndTag
      if overlapLen > 0 then
        let n := s.acc.length - overlapLen
        (emit (s.acc.take n), { s with acc := s.acc.drop n }, false)
      else (emit s.acc, { s with acc := [] }, false)

/-- The events of all rounds. Each round that continues takes a tag from the text. -/
def HarmonyParser.addContent (s : HarmonyParser) (content : Bytes) : Option (List HarmonyEvent × HarmonyParser) :=
  (rounds HarmonyParser.eat (s.acc.length + content.length + 1) { s with acc := s.acc ++ content }).map fun r =>
    (r.1.flatten, r.2)

/-! ## The handler -/

inductive HarmonyMessageState where
  | normal
  | thinking
  | toolCalling

/-- The handler with the name that its tool accumulator has. -/
structure HarmonyMessageHandler where
  state : HarmonyMessageState := .normal
  harmonyParser : HarmonyParser
  currentToolName : Option Bytes := none

/-- What `AddContent` returns: the content, the thinking and the tool content. -/
structure Texts where
  content : Bytes := []
  thinking : Bytes := []
  tool : Bytes := []

def Texts.append (a b : Texts) : Texts := ⟨a.content ++ b.content, a.thinking ++ b.thinking, a.tool ++ b.tool⟩

/-- The state of the handler and the tool name after an event, and the text of the event. -/
def handle (state : HarmonyMessageState) (toolName : Option Bytes) :
    HarmonyEvent → (HarmonyMessageState × Option Bytes) × Texts
  | .headerComplete header =>
    if header.channel = ascii "analysis" then
      if header.recipient ≠ [] then ((.toolCalling, some header.recipient), {}) else ((.thinking, toolName), {})
    else if header.channel = ascii "commentary" then
      if header.recipient ≠ [] then ((.toolCalling, some header.recipient), {}) else ((.normal, toolName), {})
    else if header.channel = ascii "final" then ((.normal, toolName), {})
    else ((state, toolName), {})
  | .contentEmitted content =>
    match state with
    | .normal => ((state, toolName), { content })
    | .thinking => ((state, toolName), { thinking := content })
    | .toolCalling => ((state, toolName), { tool := content })
  | .messageEnd => ((.normal, toolName), {})
  | .messageStart => ((state, toolName), {})

/-- Events one after another. -/
def handleAll : HarmonyMessageState × Option Bytes → List HarmonyEvent → (HarmonyMessageState × Option Bytes) × Texts
  | q, [] => (q, {})
  | q, e :: es =>
    let r := handle q.1 q.2 e
    let t := handleAll r.1 es
    (t.1, r.2.append t.2)

def HarmonyMessageHandler.addContent (h : HarmonyMessageHandler) (content : Bytes) :
    Option (Texts × HarmonyMessageHandler) :=
  (h.harmonyParser.addContent content).map fun r =>
    let t := handleAll (h.state, h.currentToolName) r.1
    (t.2, { state := t.1.1, currentToolName := t.1.2, harmonyParser := r.2 })

end Xdragon.Harmony
