import Xdragon.Parsers.Text

/-!
# The Modelfile parser and printer

The parser reads rune by rune. A command is its name and its argument, and the printer writes one
command on a line, with quotes where it thinks that the argument needs them.
-/

namespace Xdragon.Parser

open Xdragon.Lib (Bytes cut runes)
open Xdragon.Parsers (Str trimLeft trimRight)

/-! ## What the parser takes from the libraries -/

/-- `strconv.IsPrint`, by what its documentation says of ASCII and of white space, and the decoder in
front of the reader, which gives a UTF-8 text without a byte order mark as it is. -/
structure Unicode where
  isPrint : Char → Bool
  isPrint_ascii : ∀ c : Char, c.toNat < 0x80 → isPrint c = (0x20 ≤ c.toNat && c.toNat < 0x7f)
  isPrint_space : ∀ c, isPrint c = true → Lib.isSpace c = true → c = ' '
  decode : Bytes → Str
  decode_encode : ∀ s : Str, s.head? ≠ some '\uFEFF' → decode (s.flatMap String.utf8EncodeChar) = s

/-- `strings.TrimSpace`. -/
def trimSpace (s : Str) : Str := trimRight (trimLeft s)

/-! ## Commands -/

structure Command where
  name : Str
  args : Str
  deriving DecidableEq

structure Modelfile where
  commands : List Command
  deriving DecidableEq

def quotes : Str := "\"\"\"".toList

def needsQuotes (s : Str) : Bool := s.contains '\n' || [' '].isPrefixOf s || [' '].isSuffixOf s

def quote (s : Str) : Str :=
  if needsQuotes s then
    if s.contains '"' then quotes ++ s ++ quotes
    else '"' :: s ++ ['"']
  else s

def unquote (s : Str) : Option Str :=
  if s.length ≥ 3 ∧ s.take 3 = quotes then
    if s.length ≥ 6 ∧ s.drop (s.length - 3) = quotes then some ((s.drop 3).take (s.length - 6))
    else none
  else if s.length ≥ 1 ∧ s.head? = some '"' then
    if s.length ≥ 2 ∧ s.getLast? = some '"' then some ((s.drop 1).take (s.length - 2))
    else none
  else some s

/-- The commands that are printed under their own name, with quotes. -/
def quotedNames : List Str :=
  ["license".toList, "template".toList, "system".toList, "adapter".toList, "renderer".toList, "parser".toList,
    "requires".toList]

/-- `Command.String`. -/
def Command.string (c : Command) : Str :=
  if c.name = "model".toList then "FROM ".toList ++ c.args
  else if c.name ∈ quotedNames then c.name.map Char.toUpper ++ ' ' :: quote c.args
  else if c.name = "message".toList then
    let (role, message) := (cut ": ".toList c.args).getD (c.args, [])
    "MESSAGE ".toList ++ role ++ ' ' :: quote message
  else "PARAMETER ".toList ++ c.name ++ ' ' :: quote c.args

/-- The runes of `Modelfile.String`. -/
def Modelfile.text (f : Modelfile) : Str := f.commands.flatMap fun cmd => cmd.string ++ ['\n']

/-- `Modelfile.String`. -/
def Modelfile.string (f : Modelfile) : Bytes := f.text.flatMap String.utf8EncodeChar

/-! ## Runes -/

def isAlpha (r : Char) : Bool := ('a' ≤ r && r ≤ 'z') || ('A' ≤ r && r ≤ 'Z')

def isNumber (r : Char) : Bool := '0' ≤ r && r ≤ '9'

def isSpace (r : Char) : Bool := r == ' ' || r == '\t'

def isNewline (r : Char) : Bool := r == '\r' || r == '\n'

def isValidMessageRole (role : Str) : Bool :=
  role == "system".toList || role == "user".toList || role == "assistant".toList

/-- No rune outside ASCII has one of the first letters of the commands as its lower case. -/
def toLower (cmd : Str) : Str := cmd.map Char.toLower

def isValidCommand (cmd : Str) : Bool :=
  toLower cmd ∈ ["from".toList, "license".toList, "template".toList, "system".toList, "adapter".toList,
    "renderer".toList, "parser".toList, "parameter".toList, "message".toList, "requires".toList]

inductive State
  | nil
  | name
  | value
  | parameter
  | message
  | comment
  deriving DecidableEq

inductive RuneError
  | invalidCommand
  | unexpectedEOF

/-- The next state and the rune that is left, which is zero where nothing is. -/
def parseRuneForState (r : Char) : State → Except RuneError (State × Char)
  | .nil =>
    if r = '#' then .ok (.comment, '\x00')
    else if isSpace r ∨ isNewline r then .ok (.nil, '\x00')
    else .ok (.name, r)
  | .name =>
    if isAlpha r then .ok (.name, r)
    else if isSpace r then .ok (.value, '\x00')
    else .error .invalidCommand
  | .value =>
    if isNewline r then .ok (.nil, r)
    else if isSpace r then .ok (.nil, r)
    else .ok (.value, r)
  | .parameter =>
    if isAlpha r ∨ isNumber r ∨ r = '_' then .ok (.parameter, r)
    else if isSpace r then .ok (.value, '\x00')
    else .error .unexpectedEOF
  | .message =>
    if isAlpha r then .ok (.message, r)
    else if isSpace r then .ok (.value, '\x00')
    else .error .unexpectedEOF
  | .comment =>
    if isNewline r then .ok (.nil, '\x00')
    else .ok (.comment, '\x00')

/-! ## The parser -/

def errInvalidMessageRole : Str := "message role must be one of \"system\", \"user\", or \"assistant\"".toList

def errInvalidCommand : Str :=
  ("command must be one of \"from\", \"license\", \"template\", \"system\", \"adapter\", \"renderer\", " ++
    "\"parser\", \"parameter\", \"message\", or \"requires\"").toList

/-- `io.ErrUnexpectedEOF`, with the text it is wrapped with in the middle of the file, a `ParserError`, or
`errMissingFrom`. -/
inductive ParseError
  | unexpectedEOF (text : Option Str)
  | parser (lineNumber : Nat) (msg : Str)
  | missingFrom
  deriving DecidableEq

/-- The variables of the loop of `ParseFile`. -/
structure Reader where
  cmd : Command := ⟨[], []⟩
  curr : State := .nil
  currLine : Nat := 1
  b : Str := []
  role : Str := []
  commands : List Command := []

variable (u : Unicode)

namespace Reader

def write (l : Reader) (r : Char) : Reader := if u.isPrint r then { l with b := l.b ++ [r] } else l

/-- The end of a transition. -/
def enter (l : Reader) (next : State) (r : Char) : Reader := { l with b := [], curr := next }.write u r

def finishName (l : Reader) (next : State) : State × Reader :=
  let s := toLower l.b
  if s = "from".toList then (next, { l with cmd := { l.cmd with name := "model".toList } })
  else if s = "parameter".toList then (.parameter, l)
  else if s = "message".toList then (.message, { l with cmd := { l.cmd with name := s } })
  else (next, { l with cmd := { l.cmd with name := s } })

/-- The command of a value, whose role is used up. -/
def finishValue (l : Reader) (s : Str) : Reader :=
  let s := if l.role ≠ [] then l.role ++ ": ".toList ++ s else s
  let cmd := { l.cmd with args := s }
  { l with cmd, role := [], commands := l.commands ++ [cmd] }

/-- One turn of the loop. -/
def read (l : Reader) (r : Char) : Except ParseError Reader :=
  let l := if isNewline r then { l with currLine := l.currLine + 1 } else l
  match parseRuneForState r l.curr with
  | .error .unexpectedEOF => .error (.unexpectedEOF (some l.b))
  | .error .invalidCommand => .error (.parser l.currLine errInvalidCommand)
  | .ok (next, r) =>
    if next = l.curr then .ok (l.write u r)
    else
      match l.curr with
      | .name =>
        if isValidCommand l.b then
          let (next, l) := l.finishName next
          .ok (l.enter u next r)
        else .error (.parser l.currLine errInvalidCommand)
      | .parameter => .ok ({ l with cmd := { l.cmd with name := l.b } }.enter u next r)
      | .message =>
        if isValidMessageRole l.b then .ok ({ l with role := l.b }.enter u next r)
        else .error (.parser l.currLine errInvalidMessageRole)
      | .comment | .nil => .ok (l.enter u next r)
      | .value =>
        match unquote (trimSpace l.b) with
        | none => .ok { l with b := l.b ++ [r] }
        | some s => if isSpace r then .ok { l with b := l.b ++ [r] } else .ok ((l.finishValue s).enter u next r)

/-- The commands when the text is at its end. -/
def flush (l : Reader) : Except ParseError (List Command) :=
  match l.curr with
  | .comment | .nil => .ok l.commands
  | .value =>
    match unquote (trimSpace l.b) with
    | none => .error (.unexpectedEOF none)
    | some s => .ok (l.finishValue s).commands
  | _ => .error (.unexpectedEOF none)

/-- The rest of the loop and what is after it. -/
def run (l : Reader) (text : Str) : Except ParseError (List Command) := do
  let l ← text.foldlM (read u) l
  l.flush

end Reader

/-- `ParseFile`. -/
def parseFile (input : Bytes) : Except ParseError Modelfile := do
  let commands ← Reader.run u {} (u.decode input)
  if commands.any (·.name = "model".toList) then .ok ⟨commands⟩ else .error .missingFrom

end Xdragon.Parser
