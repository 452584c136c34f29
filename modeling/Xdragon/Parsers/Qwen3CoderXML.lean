import Xdragon.Lib.Replace
import Xdragon.Parsers.Qwen3Coder
import Xdragon.Parsers.Value

/-!
# The tool calls of Qwen3-Coder

`parseToolCall`, `parseValue` and `transformToXML` of `model/parsers/qwen3coder.go`. `encoding/xml` is a parameter of the model.
-/

namespace Xdragon.Parsers.Qwen3Coder

open Xdragon.Lib

/-! ## From tags to XML -/

/-- `\w`. -/
def isWord (c : Char) : Bool := c.isAlphanum || c == '_'

/-- `\s`. -/
def isBlank (c : Char) : Bool := c == '\t' || c == '\n' || c == '\x0c' || c == '\r' || c == ' '

/-- The length and the groups of a match of `<(\w+)=([^>]+)>` at the start of the text. -/
def qwenTagRegex : Str → Option (Nat × Str × Str)
  | '<' :: s =>
    let tag := s.takeWhile isWord
    match s.dropWhile isWord with
    | '=' :: s =>
      let value := s.takeWhile (· ≠ '>')
      if tag ≠ [] ∧ value ≠ [] ∧ s.dropWhile (· ≠ '>') ≠ [] then some (tag.length + value.length + 3, tag, value) else none
    | _ => none
  | _ => none

/-- What is behind a prefix. -/
def behind (pre s : Str) : Option Str := if pre <+: s then some (s.drop pre.length) else none

/-- What is behind a match of `(?:\s+name="[^"]*")?>` at the start of the text. -/
def behindName (s : Str) : Option Str :=
  match s with
  | '>' :: s => some s
  | c :: _ =>
    if isBlank c then
      (behind "name=\"".toList (s.dropWhile isBlank)).bind fun s => behind "\">".toList (s.dropWhile (· ≠ '"'))
    else none
  | [] => none

/-- What is behind a match of `(?:function|parameter)(?:\s+name="[^"]*")?>` at the start of the text. -/
def behindTag (s : Str) : Option Str := ((behind "function".toList s).or (behind "parameter".toList s)).bind behindName

/-- What is behind a match of `/?(?:function|parameter)(?:\s+name="[^"]*")?>` at the start of the text. -/
def behindSlash : Str → Option Str
  | '/' :: s => behindTag s
  | s => behindTag s

/-- The length and the text of a match of `</?(?:function|parameter)(?:\s+name="[^"]*")?>` at the start of the text. -/
def qwenXMLTagRegex : Str → Option (Nat × Str)
  | '<' :: s =>
    (behindSlash s).map fun rest => (s.length + 1 - rest.length, ('<' :: s).take (s.length + 1 - rest.length))
  | _ => none

/-- The characters of an XML document. -/
def isInCharacterRange (c : Char) : Bool :=
  c == '\t' || c == '\n' || c == '\r' || (0x20 ≤ c.toNat && c.toNat ≤ 0xfffd) || 0x10000 ≤ c.toNat

/-- What `xml.EscapeText` writes for a character. -/
def escapeChar (c : Char) : Str :=
  match c with
  | '"' => "&#34;".toList
  | '\'' => "&#39;".toList
  | '&' => "&amp;".toList
  | '<' => "&lt;".toList
  | '>' => "&gt;".toList
  | '\t' => "&#x9;".toList
  | '\n' => "&#xA;".toList
  | '\r' => "&#xD;".toList
  | c => if isInCharacterRange c then [c] else ['\uFFFD']

def escapeText (s : Str) : Str := s.flatMap escapeChar

/-- What `escapeTextNode` writes for a character. -/
def escapeNodeChar (c : Char) : Str :=
  match c with
  | '&' => "&amp;".toList
  | '<' => "&lt;".toList
  | '>' => "&gt;".toList
  | c => [c]

def escapeTextNode (s : Str) : Str := s.flatMap escapeNodeChar

/-- `<tag name="value">`. -/
def writeTag (tag value : Str) : Str := '<' :: (tag ++ (" name=\"".toList ++ (escapeText value ++ "\">".toList)))

/-- The text with `<tag name="value">` for `<tag=value>`. -/
def rewriteTags (raw : Str) : Str := rewrite qwenTagRegex (fun groups => writeTag groups.1 groups.2) (fun c => [c]) raw

/-- The text with its character data escaped. -/
def escapeNodes (transformed : Str) : Str := rewrite qwenXMLTagRegex id escapeNodeChar transformed

def transformToXML (raw : Str) : Str := escapeNodes (rewriteTags raw)

/-! ## Values -/

/-- `strconv.ParseFloat`, the integer that a float without a decimal part is, and `json.Unmarshal` into `[]any` and into
`map[string]any`. -/
structure Decoders (F : Type) where
  parseFloat : Bytes → Option F
  whole : F → Option Int
  unmarshalArray : Bytes → Option (List (Value F))
  unmarshalObject : Bytes → Option (Entries F)

/-- `strings.ToLower`, for a comparison with ASCII text of letters that no other characters become. -/
def toLower (s : Str) : Str := s.map Char.toLower

def trimOnePrefix (s : Str) : Str := if s.head? = some '\n' then s.tail else s

def trimOneSuffix (s : Str) : Str := if s.getLast? = some '\n' then s.dropLast else s

def typeBoolean : Str := "boolean".toList
def typeInteger : Str := "integer".toList
def typeNumber : Str := "number".toList
def typeArray : Str := "array".toList
def typeObject : Str := "object".toList
def typeString : Str := "string".toList

variable {F : Type}

theorem lawfulBEq_str : LawfulBEq Str := inferInstance

attribute [local instance] lawfulBEq_str

/-- What a type makes of a text: a value, or the text itself if it is the only type. -/
def attempt (paramType : List Str) (type : Str) (value fallback : Option (Value F)) : Option (Value F) :=
  if type ∈ paramType then value.or (if paramType.length = 1 then fallback else none) else none

def parseValue (d : Decoders F) (raw : Str) (paramType : List Str) : Value F :=
  let raw := trimOneSuffix (trimOnePrefix raw)
  let text := ofRunes raw
  let string : Value F := .string text
  if toLower raw = "null".toList then .null
  else if paramType = [] then string
  else
    let boolean := if toLower raw = "true".toList then some true else if toLower raw = "false".toList then some false else none
    let number := (d.parseFloat text).map fun f => ((d.whole f).map .int).getD (.float f)
    ((attempt paramType typeBoolean (boolean.map .bool) (some (.bool false))).or
      ((attempt paramType typeInteger ((parseInt text).map .int) (some string)).or
      ((attempt paramType typeNumber number (some string)).or
      ((attempt paramType typeArray ((d.unmarshalArray text).map .array) (some string)).or
      (attempt paramType typeObject ((d.unmarshalObject text).map .object) (some string)))))).getD string

/-! ## Tool calls -/

structure XMLParameter where
  name : Str
  value : Str

structure XMLFunctionCall where
  name : Str
  parameters : List XMLParameter

/-- The types of a property, and those of each property of its `anyOf`. -/
structure Property where
  type : List Str
  anyOf : List (List Str) := []

structure Tool where
  name : Str
  properties : Option (List (Str × Property))

def Property.paramType (p : Property) : List Str := if p.anyOf.length > 0 then p.anyOf.flatten else p.type

/-- The types of a parameter of the first tool with the name. -/
def paramType (tools : List Tool) (function parameter : Str) : List Str :=
  ((tools.find? fun t => t.name = function).bind fun t => t.properties.bind fun properties =>
    (properties.lookup parameter).map Property.paramType).getD []

structure ToolCall (F : Type) where
  name : Bytes
  arguments : Entries F

def parseToolCall {ε : Type} (unmarshal : Str → Except ε XMLFunctionCall) (d : Decoders F) (raw : Str) (tools : List Tool) :
    Except ε (ToolCall F) :=
  (unmarshal (transformToXML raw)).map fun call => {
    name      := ofRunes call.name
    arguments := call.parameters.foldl
      (fun args p => setEntry (ofRunes p.name) (parseValue d p.value (paramType tools call.name p.name)) args) []
  }

end Xdragon.Parsers.Qwen3Coder
