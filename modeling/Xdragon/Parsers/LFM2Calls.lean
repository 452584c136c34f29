import Xdragon.Lib.Utf8
import Xdragon.Parsers.Value

/-!
# The calls of LFM2

The parser of the text of the calls in `model/parsers/lfm2.go`: a list `[func1(arg='v'), func2(x=1)]` in the style of Python. The
scanners have an index of bytes.
-/

namespace Xdragon.Parsers.LFM2

open Xdragon.Lib

def lfm2ToolCallStartTag : Bytes := ascii "<|tool_call_start|>"
def lfm2ToolCallEndTag : Bytes := ascii "<|tool_call_end|>"

inductive LFM2Error where
  | noOpenParen
  | emptyName
  | noCloseParen
  | noCalls
  | expectedEquals
  | emptyKey
  | missingValue
  | unterminatedString
  | unterminatedLiteral

def LFM2Error.text : LFM2Error → Bytes
  | .noOpenParen => ascii "invalid tool call: no opening parenthesis"
  | .emptyName => ascii "invalid tool call: empty function name"
  | .noCloseParen => ascii "invalid tool call: no matching closing parenthesis"
  | .noCalls => ascii "no tool calls found"
  | .expectedEquals => ascii "invalid argument: expected '='"
  | .emptyKey => ascii "invalid argument: empty key"
  | .missingValue => ascii "invalid argument: missing value"
  | .unterminatedString => ascii "invalid argument: unterminated string"
  | .unterminatedLiteral => ascii "unterminated string"

/-! ## Scanners -/

/-- `for i < len(s) && p(s[i]) \x7b i++ \x7d`. -/
def skipWhile (s : Bytes) (p : UInt8 → Bool) (i : Nat) : Nat := i + ((s.drop i).takeWhile p).length

/-- `unicode.IsSpace(rune(b))`, of a byte. -/
def isSpaceByte (b : UInt8) : Bool := isSpace (Char.ofNat b.toNat)

def isQuote (b : UInt8) : Bool := b = singleQuote || b = doubleQuote

/-- The place of the closing quotation mark, or the end. A backslash at the end escapes nothing. -/
def skipString (s : Bytes) (quote : UInt8) (i : Nat) : Nat :=
  if h : i < s.length then
    if s[i] = quote then i
    else if s[i] = backslash ∧ i + 1 < s.length then skipString s quote (i + 2)
    else skipString s quote (i + 1)
  else i
termination_by s.length - i

theorem le_skipString (s : Bytes) (quote : UInt8) (i : Nat) : i ≤ skipString s quote i := by
  induction i using skipString.induct s quote with
  | case1 i h hquote => rw [skipString, dif_pos h, if_pos hquote]
  | case2 i h hquote hescape ih =>
    rw [skipString, dif_pos h, if_neg hquote, if_pos hescape]
    omega
  | case3 i h hquote hescape ih =>
    rw [skipString, dif_pos h, if_neg hquote, if_neg hescape]
    omega
  | case4 i h => rw [skipString, dif_neg h]

/-- The loop of `findMatchingParen`, where the depth is not zero. -/
def matchParen (s : Bytes) (depth i : Nat) : Option Nat :=
  if h : i < s.length then
    if s[i] = openParen then matchParen s (depth + 1) (i + 1)
    else if s[i] = closeParen then if depth = 1 then some i else matchParen s (depth - 1) (i + 1)
    else if isQuote s[i] then matchParen s depth (skipString s s[i] (i + 1) + 1)
    else matchParen s depth (i + 1)
  else none
termination_by s.length - i
decreasing_by
  · omega
  · omega
  · have := le_skipString s s[i] (i + 1)
    omega
  · omega

def findMatchingParen (s : Bytes) (openIdx : Nat) : Option Nat := matchParen s 1 (openIdx + 1)

/-! ## Literals -/

def isIdentStart (b : UInt8) : Bool := (0x41 ≤ b && b ≤ 0x5a) || (0x61 ≤ b && b ≤ 0x7a) || b = 0x5f

def isIdentPart (b : UInt8) : Bool := isIdentStart b || (0x30 ≤ b && b ≤ 0x39)

/-- What `pythonLiteralToJSON` has behind a byte. -/
structure JSONWriter where
  inString : Bool := false
  quote : UInt8 := 0
  escaped : Bool := false
  out : Bytes := []

def JSONWriter.write (w : JSONWriter) (b : Bytes) : JSONWriter := { w with out := w.out ++ b }

/-- A byte that starts no identifier. -/
def JSONWriter.step (w : JSONWriter) (ch : UInt8) : JSONWriter :=
  if w.inString then
    if w.escaped then { w.write [ch] with escaped := false }
    else if ch = backslash then { w.write [ch] with escaped := true }
    else if ch = w.quote then { w.write [doubleQuote] with inString := false }
    else if w.quote = singleQuote ∧ ch = doubleQuote then w.write [backslash, doubleQuote]
    else w.write [ch]
  else if isQuote ch then { w.write [doubleQuote] with inString := true, quote := ch, escaped := false }
  else w.write [ch]

def jsonIdent (ident : Bytes) : Bytes :=
  if ident = ascii "True" then ascii "true"
  else if ident = ascii "False" then ascii "false"
  else if ident = ascii "None" then ascii "null"
  else ident

/-- A result or an error, and none for a panic. -/
abbrev Outcome (α : Type) := Option (Except LFM2Error α)

def jsonLoop (s : Bytes) : Nat → JSONWriter → Nat → Outcome Bytes
  | 0, _, _ => none
  | n + 1, w, i =>
    match s[i]? with
    | none => some (if w.inString then .error .unterminatedLiteral else .ok w.out)
    | some ch =>
      if !w.inString && isIdentStart ch then
        let j := skipWhile s isIdentPart (i + 1)
        (slice s i j).bind fun ident => jsonLoop s n (w.write (jsonIdent ident)) j
      else jsonLoop s n (w.step ch) (i + 1)

/-- No round of the loop stays where it is. -/
def pythonLiteralToJSON (s : Bytes) : Outcome Bytes := jsonLoop s (s.length + 1) {} 0

variable {F : Type} (parseFloat : Bytes → Option F) (unmarshal : Bytes → Option (Value F))

def parsePythonLiteral (token : Bytes) : Outcome (Value F) :=
  if token = [] then some (.ok (.string []))
  else if token = ascii "true" ∨ token = ascii "True" then some (.ok (.bool true))
  else if token = ascii "false" ∨ token = ascii "False" then some (.ok (.bool false))
  else if token = ascii "null" ∨ token = ascii "None" then some (.ok .null)
  else match parseInt token with
    | some v => some (.ok (.int v))
    | none => match parseFloat token with
      | some v => some (.ok (.float v))
      | none =>
        if [openBracket] <+: token ∨ [openBrace] <+: token then
          match unmarshal token with
          | some parsed => some (.ok parsed)
          | none => (pythonLiteralToJSON token).map fun
            | .error _ => .ok (.string token)
            | .ok converted => .ok ((unmarshal converted).getD (.string token))
        else some (.ok (.string token))

/-! ## Arguments -/

/-- The place of the closing quotation mark, if there is one. -/
def closingQuote (s : Bytes) (quote : UInt8) (i : Nat) : Option Nat :=
  if h : i < s.length then
    if s[i] = backslash ∧ i + 1 < s.length then closingQuote s quote (i + 2)
    else if s[i] = quote then some i
    else closingQuote s quote (i + 1)
  else none
termination_by s.length - i

/-- What the scanner of an unquoted literal has behind a byte. -/
structure LiteralScanner where
  depthParen : Nat := 0
  depthSquare : Nat := 0
  depthCurly : Nat := 0
  inString : Bool := false
  quote : UInt8 := 0
  escaped : Bool := false

def LiteralScanner.step (t : LiteralScanner) (ch : UInt8) : LiteralScanner :=
  if t.inString then
    if t.escaped then { t with escaped := false }
    else if ch = backslash then { t with escaped := true }
    else if ch = t.quote then { t with inString := false }
    else t
  else if isQuote ch then { t with inString := true, quote := ch }
  else if ch = openParen then { t with depthParen := t.depthParen + 1 }
  else if ch = closeParen then { t with depthParen := t.depthParen - 1 }
  else if ch = openBracket then { t with depthSquare := t.depthSquare + 1 }
  else if ch = closeBracket then { t with depthSquare := t.depthSquare - 1 }
  else if ch = openBrace then { t with depthCurly := t.depthCurly + 1 }
  else if ch = closeBrace then { t with depthCurly := t.depthCurly - 1 }
  else t

/-- A comma that ends the literal. -/
def LiteralScanner.ends (t : LiteralScanner) (ch : UInt8) : Bool :=
  ch = comma && !t.inString && t.depthParen = 0 && t.depthSquare = 0 && t.depthCurly = 0

/-- The bytes in front of the comma at the top level. -/
def literalLength : LiteralScanner → Bytes → Nat
  | _, [] => 0
  | t, ch :: rest => if t.ends ch then 0 else literalLength (t.step ch) rest + 1

/-- The value, and the place behind it. -/
def parsePythonArgValue (s : Bytes) (i : Nat) : Outcome (Value F × Nat) :=
  match s[i]? with
  | none => some (.error .missingValue)
  | some quote =>
    if isQuote quote then
      match closingQuote s quote (i + 1) with
      | none => some (.error .unterminatedString)
      | some stop => (slice s (i + 1) stop).map fun value => .ok (.string value, stop + 1)
    else
      let stop := i + literalLength {} (s.drop i)
      (slice s i stop).bind fun token =>
        (parsePythonLiteral parseFloat unmarshal (trimSpace token)).map (Except.map (·, stop))

def argsLoop (argsStr : Bytes) : Nat → Nat → Entries F → Outcome (Entries F)
  | 0, _, _ => none
  | n + 1, i, args =>
    let keyStart := skipWhile argsStr (fun b => b = comma || isSpaceByte b) i
    if keyStart ≥ argsStr.length then some (.ok args)
    else
      let keyStop := skipWhile argsStr (fun b => b ≠ equalsSign && b ≠ comma) keyStart
      if argsStr[keyStop]? ≠ some equalsSign then some (.error .expectedEquals)
      else (slice argsStr keyStart keyStop).bind fun key =>
        let key := trimSpace key
        if key = [] then some (.error .emptyKey)
        else
          let start := skipWhile argsStr isSpaceByte (keyStop + 1)
          if start ≥ argsStr.length then some (.error .missingValue)
          else (parsePythonArgValue parseFloat unmarshal argsStr start).bind fun
            | .error e => some (.error e)
            | .ok (value, next) =>
              argsLoop argsStr n (if argsStr[next]? = some comma then next + 1 else next) (setEntry key value args)

/-- Every round of the loop takes a key. -/
def parsePythonArgs (argsStr : Bytes) : Outcome (Entries F) := argsLoop parseFloat unmarshal argsStr (argsStr.length + 1) 0 []

/-! ## Calls -/

structure ToolCall (F : Type) where
  name : Bytes
  arguments : Entries F

/-- A call from the start of the text, and the text behind it. -/
def parseCall (content : Bytes) : Outcome (ToolCall F × Bytes) :=
  match index content [openParen] with
  | none => some (.error .noOpenParen)
  | some parenIdx => (slice content 0 parenIdx).bind fun funcName =>
    let funcName := trimSpace funcName
    if funcName = [] then some (.error .emptyName)
    else match findMatchingParen content parenIdx with
      | none => some (.error .noCloseParen)
      | some closeIdx => (slice content (parenIdx + 1) closeIdx).bind fun argsStr =>
        (if argsStr ≠ [] then parsePythonArgs parseFloat unmarshal argsStr else some (.ok [])).bind fun
          | .error e => some (.error e)
          | .ok arguments => (slice content (closeIdx + 1) content.length).map fun rest =>
            .ok ({ name := funcName, arguments }, rest)

/-- The text without white space and without a leading comma. -/
def nextContent (content : Bytes) : Option Bytes :=
  let content := trimSpace content
  if [comma] <+: content then (slice content 1 content.length).map trimSpace else some content

def callsLoop : Nat → Bytes → List (ToolCall F) → Outcome (List (ToolCall F))
  | 0, _, _ => none
  | n + 1, content, toolCalls => (nextContent content).bind fun content =>
    if content = [] then some (if toolCalls.length = 0 then .error .noCalls else .ok toolCalls)
    else (parseCall parseFloat unmarshal content).bind fun
      | .error e => some (.error e)
      | .ok (call, rest) => callsLoop n rest (toolCalls ++ [call])

/-- Every round of the loop takes a parenthesis. -/
def parsePythonStyleToolCalls (content : Bytes) : Outcome (List (ToolCall F)) :=
  let content := trimSpace content
  (if wrapped [openBracket] [closeBracket] content then slice content 1 (content.length - 1) else some content).bind
    fun content => callsLoop parseFloat unmarshal (content.length + 1) content []

/-- `strings.TrimPrefix`. -/
def trimTagPrefix (tag s : Bytes) : Bytes := if tag <+: s then s.drop tag.length else s

/-- `strings.TrimSuffix`. -/
def trimTagSuffix (tag s : Bytes) : Bytes := if tag <:+ s then s.take (s.length - tag.length) else s

def parseToolCallsContent (content : Bytes) : Outcome (List (ToolCall F)) :=
  let content := trimSpace content
  let content := trimSpace (trimTagPrefix lfm2ToolCallStartTag content)
  let content := trimSpace (trimTagSuffix lfm2ToolCallEndTag content)
  parsePythonStyleToolCalls parseFloat unmarshal content

/-! ## Places in the text -/

theorem slice_ne_none {s : Bytes} {lo hi : Nat} (h : lo ≤ hi ∧ hi ≤ s.length) : slice s lo hi ≠ none := by
  rw [Ne, slice_eq_none]
  omega

theorem le_skipWhile (s : Bytes) (p : UInt8 → Bool) (i : Nat) : i ≤ skipWhile s p i := Nat.le_add_right ..

theorem skipWhile_le {s : Bytes} (p : UInt8 → Bool) {i : Nat} (h : i ≤ s.length) : skipWhile s p i ≤ s.length := by
  have hle := (List.takeWhile_prefix p (l := s.drop i)).length_le
  rw [List.length_drop] at hle
  unfold skipWhile
  omega

theorem matchParen_bounds {s : Bytes} {depth i j : Nat} (h : matchParen s depth i = some j) : i ≤ j ∧ j < s.length := by
  induction depth, i using matchParen.induct s with
  | case1 depth i hi hopen ih =>
    rw [matchParen, dif_pos hi, if_pos hopen] at h
    have := ih h
    omega
  | case2 i hi hopen hclose =>
    rw [matchParen, dif_pos hi, if_neg hopen, if_pos hclose, if_pos rfl] at h
    obtain rfl := Option.some.inj h
    exact ⟨Nat.le_refl _, hi⟩
  | case3 depth i hi hopen hclose hdepth ih =>
    rw [matchParen, dif_pos hi, if_neg hopen, if_pos hclose, if_neg hdepth] at h
    have := ih h
    omega
  | case4 depth i hi hopen hclose hquote ih =>
    rw [matchParen, dif_pos hi, if_neg hopen, if_neg hclose, if_pos hquote] at h
    have := ih h
    have := le_skipString s s[i] (i + 1)
    omega
  | case5 depth i hi hopen hclose hquote ih =>
    rw [matchParen, dif_pos hi, if_neg hopen, if_neg hclose, if_neg hquote] at h
    have := ih h
    omega
  | case6 depth i hi =>
    rw [matchParen, dif_neg hi] at h
    cases h

theorem closingQuote_bounds {s : Bytes} {quote : UInt8} {i j : Nat} (h : closingQuote s quote i = some j) :
    i ≤ j ∧ j < s.length := by
  induction i using closingQuote.induct s quote with
  | case1 i hi hescape ih =>
    rw [closingQuote, dif_pos hi, if_pos hescape] at h
    have := ih h
    omega
  | case2 i hi hescape hquote =>
    rw [closingQuote, dif_pos hi, if_neg hescape, if_pos hquote] at h
    obtain rfl := Option.some.inj h
    exact ⟨Nat.le_refl _, hi⟩
  | case3 i hi hescape hquote ih =>
    rw [closingQuote, dif_pos hi, if_neg hescape, if_neg hquote] at h
    have := ih h
    omega
  | case4 i hi =>
    rw [closingQuote, dif_neg hi] at h
    cases h

theorem literalLength_le (t : LiteralScanner) (s : Bytes) : literalLength t s ≤ s.length := by
  induction s generalizing t with
  | nil => exact Nat.le_refl _
  | cons ch rest ih =>
    rw [literalLength]
    split_ifs
    · exact Nat.zero_le _
    · exact Nat.succ_le_succ (ih _)

/-! ## No scanner leaves the text -/

theorem ite_ne_none {α : Type} {c : Prop} [Decidable c] {a b : Option α} (ha : a ≠ none) (hb : b ≠ none) :
    (if c then a else b) ≠ none := by
  split_ifs
  · exact ha
  · exact hb

theorem jsonLoop_returns {s : Bytes} {n : Nat} (w : JSONWriter) {i : Nat} (hi : i ≤ s.length) (hn : s.length < i + n) :
    jsonLoop s n w i ≠ none := by
  induction n generalizing w i with
  | zero => omega
  | succ n ih =>
    rw [jsonLoop]
    cases hch : s[i]? with
    | none => exact Option.some_ne_none _
    | some ch =>
      have hlt := (List.getElem?_eq_some_iff.mp hch).1
      dsimp only
      split_ifs
      · have hle := le_skipWhile s isIdentPart (i + 1)
        have hlen := skipWhile_le isIdentPart (i := i + 1) hlt
        cases hslice : slice s i (skipWhile s isIdentPart (i + 1)) with
        | none => exact absurd hslice (slice_ne_none (by omega))
        | some ident => exact ih _ hlen (by omega)
      · exact ih _ hlt (by omega)

variable {parseFloat unmarshal}

theorem parsePythonLiteral_returns (token : Bytes) : parsePythonLiteral parseFloat unmarshal token ≠ none := by
  unfold parsePythonLiteral
  refine ite_ne_none (Option.some_ne_none _) (ite_ne_none (Option.some_ne_none _) (ite_ne_none (Option.some_ne_none _)
    (ite_ne_none (Option.some_ne_none _) ?_)))
  cases parseInt token with
  | some v => exact Option.some_ne_none _
  | none =>
    cases parseFloat token with
    | some v => exact Option.some_ne_none _
    | none =>
      refine ite_ne_none ?_ (Option.some_ne_none _)
      cases unmarshal token with
      | some parsed => exact Option.some_ne_none _
      | none =>
        rw [Ne, Option.map_eq_none_iff]
        exact jsonLoop_returns {} (Nat.zero_le token.length) (by omega)

/-- A value is behind its first byte, or starts a comma. -/
theorem parsePythonArgValue_returns {s : Bytes} {i : Nat} (hi : i < s.length) :
    parsePythonArgValue parseFloat unmarshal s i ≠ none ∧
      ∀ value next, parsePythonArgValue parseFloat unmarshal s i = some (.ok (value, next)) → i ≤ next := by
  unfold parsePythonArgValue
  rw [List.getElem?_eq_getElem hi]
  dsimp only
  split_ifs with hquote
  · cases hstop : closingQuote s s[i] (i + 1) with
    | none => exact ⟨Option.some_ne_none _, fun value next h => nomatch h⟩
    | some stop =>
      obtain ⟨hle, hlt⟩ := closingQuote_bounds hstop
      cases hslice : slice s (i + 1) stop with
      | none => exact absurd hslice (slice_ne_none (by omega))
      | some token =>
        dsimp only [Option.map_some]
        rw [hslice, Option.map_some]
        refine ⟨Option.some_ne_none _, fun value next h => ?_⟩
        cases h
        omega
  · have hlen := literalLength_le {} (s.drop i)
    rw [List.length_drop] at hlen
    cases hslice : slice s i (i + literalLength {} (s.drop i)) with
    | none => exact absurd hslice (slice_ne_none (by omega))
    | some token =>
      dsimp only [Option.bind_some]
      cases hliteral : parsePythonLiteral parseFloat unmarshal (trimSpace token) with
      | none => exact absurd hliteral (parsePythonLiteral_returns _)
      | some r =>
        refine ⟨Option.some_ne_none _, fun value next h => ?_⟩
        cases r with
        | error e => cases h
        | ok v =>
          cases h
          exact Nat.le_add_right ..

theorem argsLoop_returns {argsStr : Bytes} {n i : Nat} (args : Entries F) (hn : argsStr.length < i + n) (hpos : 0 < n) :
    argsLoop parseFloat unmarshal argsStr n i args ≠ none := by
  induction n generalizing i args with
  | zero => omega
  | succ n ih =>
    rw [argsLoop]
    dsimp only
    generalize hks : skipWhile argsStr (fun b => decide (b = comma) || isSpaceByte b) i = keyStart
    have hi : i ≤ keyStart := hks ▸ le_skipWhile argsStr _ i
    by_cases hend : keyStart ≥ argsStr.length
    · rw [if_pos hend]
      exact Option.some_ne_none _
    rw [if_neg hend]
    generalize hke : skipWhile argsStr (fun b => decide (b ≠ equalsSign) && decide (b ≠ comma)) keyStart = keyStop
    have hkey : keyStart ≤ keyStop := hke ▸ le_skipWhile argsStr _ keyStart
    by_cases hequals : argsStr[keyStop]? = some equalsSign
    · rw [if_neg (not_not.mpr hequals)]
      have hstop := (List.getElem?_eq_some_iff.mp hequals).1
      cases hslice : slice argsStr keyStart keyStop with
      | none => exact absurd hslice (slice_ne_none (by omega))
      | some key =>
        dsimp only [Option.bind_some]
        generalize hst : skipWhile argsStr isSpaceByte (keyStop + 1) = start
        have hstart : keyStop + 1 ≤ start := hst ▸ le_skipWhile argsStr _ _
        by_cases hempty : trimSpace key = []
        · rw [if_pos hempty]
          exact Option.some_ne_none _
        rw [if_neg hempty]
        by_cases hmissing : start ≥ argsStr.length
        · rw [if_pos hmissing]
          exact Option.some_ne_none _
        rw [if_neg hmissing]
        obtain ⟨hreturns, hnext⟩ :=
          @parsePythonArgValue_returns _ parseFloat unmarshal argsStr start (Nat.not_le.mp hmissing)
        cases hvalue : parsePythonArgValue parseFloat unmarshal argsStr start with
        | none => exact absurd hvalue hreturns
        | some r =>
          cases r with
          | error e => exact Option.some_ne_none _
          | ok q =>
            have := hnext q.1 q.2 hvalue
            refine ih _ ?_ ?_
            · split_ifs <;> omega
            · omega
    · rw [if_pos hequals]
      exact Option.some_ne_none _

/-- A call takes something from the text. -/
theorem parseCall_returns (content : Bytes) : parseCall parseFloat unmarshal content ≠ none ∧
    ∀ call rest, parseCall parseFloat unmarshal content = some (.ok (call, rest)) → rest.length < content.length := by
  unfold parseCall
  cases hparen : index content [openParen] with
  | none => exact ⟨Option.some_ne_none _, fun call rest h => nomatch h⟩
  | some parenIdx =>
    obtain ⟨name, behind, hcut, rfl, hname, -⟩ := slices_index hparen
    have hcutlen := length_of_cut hcut
    rw [List.length_singleton] at hcutlen
    dsimp only
    rw [hname, Option.bind_some]
    split_ifs with hempty
    · exact ⟨Option.some_ne_none _, fun call rest h => nomatch h⟩
    · cases hclose : findMatchingParen content name.length with
      | none => exact ⟨Option.some_ne_none _, fun call rest h => nomatch h⟩
      | some closeIdx =>
        obtain ⟨hle, hlt⟩ := matchParen_bounds hclose
        dsimp only
        cases hargs : slice content (name.length + 1) closeIdx with
        | none => exact absurd hargs (slice_ne_none (by omega))
        | some argsStr =>
          rw [Option.bind_some]
          have hparse : (if argsStr ≠ [] then parsePythonArgs parseFloat unmarshal argsStr else some (.ok [])) ≠ none :=
            ite_ne_none (argsLoop_returns [] (by omega) (Nat.succ_pos _)) (Option.some_ne_none _)
          generalize (if argsStr ≠ [] then parsePythonArgs parseFloat unmarshal argsStr else some (.ok [])) = r at hparse ⊢
          match r, hparse with
          | some (.error e), _ => exact ⟨Option.some_ne_none _, fun call rest h => nomatch h⟩
          | some (.ok arguments), _ =>
            dsimp only [Option.bind_some]
            cases hrest : slice content (closeIdx + 1) content.length with
            | none => exact absurd hrest (slice_ne_none (by omega))
            | some behind =>
              refine ⟨Option.some_ne_none _, fun call rest h => ?_⟩
              cases h
              have := length_slice hrest
              omega

theorem nextContent_returns (content : Bytes) : ∃ next, nextContent content = some next ∧ next.length ≤ content.length := by
  have htrim := length_trimSpace_le content
  unfold nextContent
  dsimp only
  split_ifs with hcomma
  · obtain ⟨rest, hrest⟩ := hcomma
    refine ⟨trimSpace rest, ?_, ?_⟩
    · rw [← hrest]
      have := slice_right [comma] rest
      rw [show slice ([comma] ++ rest) 1 ([comma] ++ rest).length = some rest from this, Option.map_some]
    · have hlen := length_trimSpace_le rest
      rw [← hrest, List.length_append] at htrim
      omega
  · exact ⟨_, rfl, htrim⟩

theorem callsLoop_returns {n : Nat} {content : Bytes} (toolCalls : List (ToolCall F)) (hn : content.length < n) :
    callsLoop parseFloat unmarshal n content toolCalls ≠ none := by
  induction n generalizing content toolCalls with
  | zero => omega
  | succ n ih =>
    obtain ⟨next, hnext, hlen⟩ := nextContent_returns content
    rw [callsLoop, hnext, Option.bind_some]
    refine ite_ne_none (Option.some_ne_none _) ?_
    obtain ⟨hreturns, hshort⟩ := @parseCall_returns F parseFloat unmarshal next
    cases hcall : parseCall parseFloat unmarshal next with
    | none => exact absurd hcall hreturns
    | some r =>
      cases r with
      | error e => exact Option.some_ne_none _
      | ok q =>
        have := hshort q.1 q.2 hcall
        exact ih _ (by omega)

/-- Every text gives calls or an error. -/
theorem parseToolCallsContent_returns (content : Bytes) : parseToolCallsContent parseFloat unmarshal content ≠ none := by
  unfold parseToolCallsContent parsePythonStyleToolCalls
  dsimp only
  generalize trimSpace (trimSpace (trimTagSuffix lfm2ToolCallEndTag
    (trimSpace (trimTagPrefix lfm2ToolCallStartTag (trimSpace content))))) = text
  split_ifs with hbrackets
  · obtain ⟨inner, rfl⟩ := (wrapped_bytes (by decide)).mp hbrackets
    rw [List.singleton_append, slice_bytes, Option.bind_some]
    exact callsLoop_returns [] (Nat.lt_succ_self _)
  · exact callsLoop_returns [] (Nat.lt_succ_self _)

end Xdragon.Parsers.LFM2
