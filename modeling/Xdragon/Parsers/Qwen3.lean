import Xdragon.Parsers.Text

/-!
# The Qwen3 parser

Separates thinking, content and tool calls. Unlike its Qwen3VL sibling the parser trims the text after
a closed tool call only within its buffer, and it looks for an opening tag of its own at the start.
-/

namespace Xdragon.Parsers.Qwen3

open Xdragon.Lib

inductive Qwen3ParserState where
  | lookingForThinkingOpen
  | thinkingStartedEatingWhitespace
  | collectingThinking
  | thinkingDoneEatingWhitespace
  | collectingContent
  | toolStartedEatingWhitespace
  | collectingToolContent
  deriving DecidableEq

def thinkingOpenTag : Str := "<think>".toList
def thinkingCloseTag : Str := "</think>".toList
def toolOpenTag : Str := "<tool_call>".toList
def toolCloseTag : Str := "</tool_call>".toList

inductive Qwen3Event where
  | content (content : Str)
  | rawToolCall (raw : Str)
  | thinkingContent (content : Str)

structure Qwen3Parser where
  state : Qwen3ParserState := .lookingForThinkingOpen
  buffer : Str := []
  hasThinkingSupport : Bool := false
  defaultThinking : Bool := false
  maybeThinkingOpenAtBOL : Bool := false

def Qwen3Parser.init (p : Qwen3Parser) (thinkValue : Option Bool) : Qwen3Parser :=
  let thinkingEnabled := thinkValue.getD p.defaultThinking
  if p.hasThinkingSupport && thinkingEnabled then
    { p with buffer := [], state := .collectingThinking, maybeThinkingOpenAtBOL := true }
  else { p with buffer := [], state := .collectingContent, maybeThinkingOpenAtBOL := false }

/-- The event for a text, if there is any. -/
def emit (event : Str → Qwen3Event) (text : Str) : List Qwen3Event := if text.length > 0 then [event text] else []

def Qwen3Parser.eatLeadingWhitespaceAndTransitionTo (p : Qwen3Parser) (nextState : Qwen3ParserState) :
    List Qwen3Event × Qwen3Parser × Bool :=
  let trimmed := trimLeft p.buffer
  if trimmed = [] then ([], { p with buffer := [] }, false)
  else ([], { p with state := nextState, buffer := trimmed }, true)

/-- The text before the tag and the one after it, without the white space around the tag, and the parser
with the text after the tag. -/
def Qwen3Parser.splitAtTag (p : Qwen3Parser) (tag : Str) : Str × Str × Qwen3Parser :=
  let (before, after, buffer) := Parsers.splitAtTag p.buffer tag true
  (before, after, { p with buffer := buffer })

/-- The thinking state, when no opening tag is expected any more. -/
def Qwen3Parser.eatThinking (p : Qwen3Parser) : List Qwen3Event × Qwen3Parser × Bool :=
  if containsTag p.buffer thinkingCloseTag then
    let (thinking, remaining, p) := p.splitAtTag thinkingCloseTag
    let state := if remaining = [] then .thinkingDoneEatingWhitespace else .collectingContent
    (emit .thinkingContent thinking, { p with state := state }, true)
  else
    let (unambiguous, ambiguous) := splitAmbiguous p.buffer thinkingCloseTag
    (emit .thinkingContent unambiguous, { p with buffer := ambiguous }, false)

def Qwen3Parser.eat (p : Qwen3Parser) : List Qwen3Event × Qwen3Parser × Bool :=
  match p.state with
  | .lookingForThinkingOpen =>
    let trimmed := trimLeft p.buffer
    if thinkingOpenTag.isPrefixOf trimmed then
      let after := trimLeft (trimmed.drop thinkingOpenTag.length)
      let state := if after = [] then .thinkingStartedEatingWhitespace else .collectingThinking
      ([], { p with state := state, buffer := after }, true)
    else if trimmed.isPrefixOf thinkingOpenTag then ([], p, false)
    else if trimmed = [] then ([], p, false)
    else ([], { p with state := .collectingContent }, true)
  | .thinkingStartedEatingWhitespace => p.eatLeadingWhitespaceAndTransitionTo .collectingThinking
  | .collectingThinking =>
    if p.maybeThinkingOpenAtBOL then
      -- exactly one leading opening tag is to be stripped
      let trimmed := trimLeft p.buffer
      if thinkingOpenTag.isPrefixOf trimmed then
        let after := trimLeft (trimmed.drop thinkingOpenTag.length)
        if after = [] then ([], { p with buffer := after }, false)
        else ([], { p with buffer := after, maybeThinkingOpenAtBOL := false }, true)
      else if trimmed.isPrefixOf thinkingOpenTag then ([], p, false)
      else Qwen3Parser.eatThinking { p with maybeThinkingOpenAtBOL := false }
    else p.eatThinking
  | .thinkingDoneEatingWhitespace => p.eatLeadingWhitespaceAndTransitionTo .collectingContent
  | .collectingContent =>
    if containsTag p.buffer toolOpenTag then
      let (before, after, p) := p.splitAtTag toolOpenTag
      let state := if after = [] then .toolStartedEatingWhitespace else .collectingToolContent
      (emit .content before, { p with state := state }, true)
    else
      let (unambiguous, ambiguous) := splitAmbiguous p.buffer toolOpenTag
      (emit .content unambiguous, { p with buffer := ambiguous }, false)
  | .toolStartedEatingWhitespace => p.eatLeadingWhitespaceAndTransitionTo .collectingToolContent
  | .collectingToolContent =>
    if containsTag p.buffer toolCloseTag then
      let (toolContent, _, p) := p.splitAtTag toolCloseTag
      ([.rawToolCall toolContent], { p with state := .collectingContent }, true)
    else ([], p, false)

/-- The part of `Add` that finds the events: the text is written to the buffer, and `parseEvents` runs.
Two rounds take at least a tag from the buffer. -/
def Qwen3Parser.parseEvents (p : Qwen3Parser) (s : Str) : Option (List Qwen3Event × Qwen3Parser) :=
  (rounds Qwen3Parser.eat (2 * (p.buffer.length + s.length) + 2) { p with buffer := p.buffer ++ s }).map fun r =>
    (r.1.flatten, r.2)

/-! ## What a text is split into -/

/-- What a text is split into, with the parser at its end, and whether a tool call ends there but for white space. -/
structure Parts where
  content : Str := []
  thinking : Str := []
  toolCalls : List Str := []
  state : Qwen3ParserState
  maybeThinkingOpenAtBOL : Bool := false
  buffer : Str := []
  behindCall : Bool := false
  deriving DecidableEq

def contentParts (text : Str) : Parts :=
  match _h : cut toolOpenTag text with
  | none =>
    { content := settled isSpace toolOpenTag text, state := .collectingContent, buffer := pending isSpace toolOpenTag text }
  | some (before, after) =>
    match _h' : cut toolCloseTag (trimLeft after) with
    | none =>
      if trimLeft after = [] then { content := trimRight before, state := .toolStartedEatingWhitespace }
      else { content := trimRight before, state := .collectingToolContent, buffer := trimLeft after }
    | some (raw, rest) =>
      let parts := contentParts (trimLeft rest)
      { parts with
        content := trimRight before ++ parts.content
        toolCalls := trimRight raw :: parts.toolCalls
        behindCall := trimLeft rest = [] || parts.behindCall }
termination_by text.length
decreasing_by
  have h1 := length_of_cut _h
  have h2 := length_of_cut _h'
  have h3 := (List.dropWhile_suffix isSpace (l := rest)).length_le
  have h4 := (List.dropWhile_suffix isSpace (l := after)).length_le
  have h5 : toolOpenTag.length = 11 := rfl
  unfold trimLeft at *
  omega

/-- Text after the opening tag of a tool call. -/
def toolParts (text : Str) : Parts :=
  match cut toolCloseTag text with
  | none => { state := .collectingToolContent, buffer := text }
  | some (raw, rest) =>
    let parts := contentParts (trimLeft rest)
    { parts with
      toolCalls := trimRight raw :: parts.toolCalls
      behindCall := trimLeft rest = [] || parts.behindCall }

/-- Text in a state that drops white space. -/
def eatenParts (state : Qwen3ParserState) (parts : Str → Parts) (text : Str) : Parts :=
  if trimLeft text = [] then { state } else parts (trimLeft text)

def thinkingParts (text : Str) : Parts :=
  match cut thinkingCloseTag text with
  | none =>
    { thinking := settled isSpace thinkingCloseTag text, state := .collectingThinking
      buffer := pending isSpace thinkingCloseTag text }
  | some (before, after) =>
    { eatenParts .thinkingDoneEatingWhitespace contentParts after with thinking := trimRight before }

/-- Text at the start of the thinking, where an opening tag is dropped. -/
def openedParts (text : Str) : Parts :=
  if thinkingOpenTag <+: trimLeft text then
    let after := trimLeft ((trimLeft text).drop thinkingOpenTag.length)
    if after = [] then { state := .collectingThinking, maybeThinkingOpenAtBOL := true } else thinkingParts after
  else if trimLeft text <+: thinkingOpenTag then
    { state := .collectingThinking, maybeThinkingOpenAtBOL := true, buffer := text }
  else thinkingParts text

/-- The parts of the text that a parser has, in the states that a parser comes to from `Init`. -/
def Qwen3Parser.parts (p : Qwen3Parser) (text : Str) : Parts :=
  match p.state with
  | .lookingForThinkingOpen => { state := p.state, buffer := text }
  | .thinkingStartedEatingWhitespace => { state := p.state, buffer := text }
  | .collectingThinking => if p.maybeThinkingOpenAtBOL then openedParts text else thinkingParts text
  | .thinkingDoneEatingWhitespace => eatenParts .thinkingDoneEatingWhitespace contentParts text
  | .collectingContent => contentParts text
  | .toolStartedEatingWhitespace => eatenParts .toolStartedEatingWhitespace toolParts text
  | .collectingToolContent => toolParts text

end Xdragon.Parsers.Qwen3
