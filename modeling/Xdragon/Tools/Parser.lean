import Xdragon.Lib.Rounds
import Xdragon.Lib.Tags
import Xdragon.Lib.Utf8
import Xdragon.Lib.Wire

/-!
# The tool call parser

Looks for a tag in the output of a model, and behind it for the names of tools and for objects that
are their arguments. The decoder of objects is a parameter.
-/

namespace Xdragon.Tools

open Xdragon.Lib

/-- A decoded value; the members of an object stand in the order in which `range` visits them. -/
inductive Json where
  | null
  | bool (b : Bool)
  | number (text : Bytes)
  | string (s : Bytes)
  | array (items : List Json)
  | object (members : List (Bytes × Json))

abbrev Members := List (Bytes × Json)

/-- A `map[string]any`, which is nil where there is none. -/
abbrev Map := Option Members

inductive ToolsState where
  | lookingForTag
  | toolCalling
  | done

structure Tool where
  name : Bytes

structure ToolCall where
  name : Bytes
  arguments : Members
  index : Nat

structure Parser where
  tag : Bytes
  tools : List Tool
  state : ToolsState := .lookingForTag
  buffer : Bytes := []
  n : Nat := 0

def newParserWithTag (tools : List Tool) (tag : Bytes) : Parser := { tag, tools }

def openBrace : UInt8 := 0x7b
def closeBrace : UInt8 := 0x7d
def openBracket : UInt8 := 0x5b
def closeBracket : UInt8 := 0x5d
def backslash : UInt8 := 0x5c
def quote : UInt8 := 0x22

/-- Tags for which tool calls are only read at the start of the text. -/
def bare (tag : Bytes) : Bool := tag = [openBrace] || tag = [openBracket]

/-! ## The tag -/

/-- `bytes.Index`. -/
def index (s sep : Bytes) : Option Nat := (cut sep s).map (·.1.length)

/-- The place of the tag, or of a part of it at the end, and whether it is the whole tag. -/
def Parser.findTag (p : Parser) : Option Nat × Bool :=
  match index p.buffer p.tag with
  | some i => (some i, true)
  | none =>
    let overlapLen := overlap p.buffer p.tag
    if overlapLen > 0 then (some (p.buffer.length - overlapLen), false) else (none, false)

/-! ## The name -/

def longest (tools : List Tool) : Bytes := tools.foldl (fun l t => if t.name.length > l.length then t.name else l) []

/-- The buffer ends with a part of the name of a tool. -/
def endsInName (tools : List Tool) (buf : Bytes) : Bool :=
  (List.range (min buf.length (longest tools).length)).any fun i =>
    let tail := buf.drop (buf.length - (i + 1))
    tools.any fun t => tail.length < t.name.length && tail.isPrefixOf t.name

/-- The tool whose name comes first, the longest one of several, with the end of the name: the best match so far
and its place. -/
def betterMatch (buf : Bytes) (found : Option (Tool × Nat)) (t : Tool) : Option (Tool × Nat) :=
  match index buf t.name, found with
  | none, _ => found
  | some pos, none => some (t, pos)
  | some pos, some (best, start) =>
    if pos > start then found
    else if pos = start ∧ t.name.length ≤ best.name.length then found
    else some (t, pos)

def firstName (tools : List Tool) (buf : Bytes) : Option (Tool × Nat) :=
  (tools.foldl (betterMatch buf) none).map fun m => (m.1, m.2 + m.1.name.length)

def findTool (tools : List Tool) (buf : Bytes) : Option (Tool × Nat) :=
  if buf = [] then none
  else if endsInName tools buf then none
  else firstName tools buf

/-! ## The arguments -/

section
variable (unmarshal : Bytes → Option Map)

def findMap (name : Bytes) (obj : Members) : Option Map :=
  match obj.lookup name with
  | some (.object args) => some (some args)
  | some (.string argsStr) => unmarshal argsStr
  | _ => none

/-- What an object itself says about the arguments: one with a name says that there are none if it has none. -/
def ownArguments (tool : Tool) (obj : Members) : Option Map :=
  if (obj.lookup (ascii "name")).isSome then
    (findMap unmarshal (ascii "arguments") obj).or ((findMap unmarshal (ascii "parameters") obj).or (some none))
  else findMap unmarshal tool.name obj

mutual

def findInValue (tool : Tool) : Json → Option Map
  | .object members => (ownArguments unmarshal tool members).or (findInMembers tool members)
  | .array items => findInItems tool items
  | _ => none

def findInMember (tool : Tool) : Bytes × Json → Option Map
  | (_, v) => findInValue tool v

def findInMembers (tool : Tool) : List (Bytes × Json) → Option Map
  | [] => none
  | m :: rest => (findInMember tool m).or (findInMembers tool rest)

def findInItems (tool : Tool) : List Json → Option Map
  | [] => none
  | .object members :: rest => (findInValue tool (.object members)).or (findInItems tool rest)
  | _ :: rest => findInItems tool rest

end

def findObject (tool : Tool) (obj : Map) : Option Map := findInValue unmarshal tool (.object (obj.getD []))

/-- The start of the object that a closing brace completes. -/
def completed (start : Option Nat) (braces : Int) : Option Nat := if braces = 0 then start else none

/-- The loop of `findArguments` over the rest of the buffer from a place, with the start of the object that is open. -/
def findArgumentsFrom (tool : Tool) (buffer : Bytes) :
    Bytes → Nat → Option Nat → Int → Bool → Bool → Map × Nat
  | [], _, _, _, _, _ => (none, 0)
  | c :: rest, i, start, braces, inString, escaped =>
    if escaped then findArgumentsFrom tool buffer rest (i + 1) start braces inString false
    else if c = backslash then findArgumentsFrom tool buffer rest (i + 1) start braces inString true
    else if c = quote then findArgumentsFrom tool buffer rest (i + 1) start braces (!inString) false
    else if inString then findArgumentsFrom tool buffer rest (i + 1) start braces inString false
    else if c = openBrace then
      findArgumentsFrom tool buffer rest (i + 1) (if braces = 0 then some i else start) (braces + 1) inString false
    else if c = closeBrace then
      match completed start (braces - 1) with
      | some first =>
        match unmarshal ((buffer.drop first).take (i + 1 - first)) with
        -- not a valid object, keep looking
        | none => findArgumentsFrom tool buffer rest (i + 1) none (braces - 1) inString false
        | some data =>
          match findObject unmarshal tool data with
          | some args => (args, i)
          | none => (data, i)
      | none =>
        findArgumentsFrom tool buffer rest (i + 1) start (max (braces - 1) 0) inString false
    else findArgumentsFrom tool buffer rest (i + 1) start braces inString false

def findArguments (tool : Tool) (buffer : Bytes) : Map × Nat :=
  findArgumentsFrom unmarshal tool buffer buffer 0 none 0 false false

/-! ## The parser -/

def Parser.parseToolCall (p : Parser) : Option (ToolCall × Parser) :=
  match findTool p.tools p.buffer with
  | none => none
  | some (tool, stop) =>
    match findArguments unmarshal tool p.buffer with
    | (none, _) => none
    | (some argsMap, i) =>
      some ({ name := tool.name, arguments := argsMap, index := p.n },
        { p with n := p.n + 1, buffer := p.buffer.drop (if i > stop then i else stop) })

/-- The loop of `done`, with the number of open pairs. -/
def closes (first last : UInt8) : Bytes → Int → Bool
  | [], _ => false
  | c :: rest, count =>
    if c = first then closes first last rest (count + 1)
    else if c = last then count - 1 = 0 || closes first last rest (count - 1)
    else closes first last rest count

def Parser.done (p : Parser) : Bool :=
  if p.tag = [openBrace] then closes openBrace closeBrace p.buffer 0
  else if p.tag = [openBracket] then closes openBracket closeBracket p.buffer 0
  else false

/-- One round of the loop of `Add`. -/
def Parser.eatCall (p : Parser) : List ToolCall × Parser × Bool :=
  match p.parseToolCall unmarshal with
  | none => ([], p, false)
  | some (call, p) => ([call], p, true)

/-- `Add` behind the tag, with the content before it. Each round drops a part of the buffer. -/
def Parser.parseCalls (p : Parser) (content : Bytes) : Option ((List ToolCall × Bytes) × Parser) :=
  (rounds (Parser.eatCall unmarshal) (p.buffer.length + 1) p).map fun r =>
    if r.2.done then ((r.1.flatten, r.2.buffer), { r.2 with state := .done, buffer := [] })
    else ((r.1.flatten, content), r.2)

def Parser.add (p : Parser) (s : Bytes) : Option ((List ToolCall × Bytes) × Parser) :=
  match p.state with
  | .done => some (([], s), p)
  | .toolCalling => Parser.parseCalls unmarshal { p with buffer := p.buffer ++ s } []
  | .lookingForTag =>
    let p := { p with buffer := p.buffer ++ s }
    let (i, found) := p.findTag
    let content := p.buffer.take (i.getD p.buffer.length)
    let p := { p with buffer := p.buffer.drop (i.getD p.buffer.length) }
    if bare p.tag ∧ trimSpace content ≠ [] then some (([], content ++ p.buffer), { p with state := .done })
    else if found then Parser.parseCalls unmarshal { p with state := .toolCalling } content
    else some (([], content), p)

end

def Parser.content (p : Parser) : Bytes :=
  if p.n > 0 then []
  else if bare p.tag then p.buffer
  else []

end Xdragon.Tools
