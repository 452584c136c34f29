import Xdragon.Lib.Replace
import Xdragon.Lib.Runes
import Xdragon.Parsers.Olmo3
import Xdragon.Parsers.Value

/-!
# The calls of Olmo 3

The parser of the text of the calls in `model/parsers/olmo3.go`: lines `func_name(arg1="value1", arg2=123)`. The splitter of the
arguments has an index of runes and reads bytes.
-/

namespace Xdragon.Parsers.Olmo3

open Xdragon.Lib

/-! ## Errors -/

inductive Olmo3Error where
  | functionCall (line : Bytes) (err : Olmo3Error)
  | callFormat
  | arguments (err : Olmo3Error)
  | argumentFormat (part : Bytes)
  | value (key : Bytes) (err : Olmo3Error)
  | objectEntry (part : Bytes)
  | keyValue (key : Bytes) (err : Olmo3Error)

/-- The text of an error, where `quote` is `%q`. -/
def Olmo3Error.text (quote : Bytes → Bytes) : Olmo3Error → Bytes
  | .functionCall line err => ascii "failed to parse function call " ++ quote line ++ ascii ": " ++ err.text quote
  | .callFormat => ascii "invalid function call format"
  | .arguments err => ascii "failed to parse arguments: " ++ err.text quote
  | .argumentFormat part => ascii "invalid argument format: " ++ part
  | .value key err => ascii "failed to parse value for " ++ key ++ ascii ": " ++ err.text quote
  | .objectEntry part => ascii "invalid object entry: " ++ part
  | .keyValue key err => ascii "failed to parse value for key " ++ key ++ ascii ": " ++ err.text quote

/-- A result or an error, and none for a panic. -/
abbrev Outcome (α : Type) := Option (Except Olmo3Error α)

/-! ## The splitter -/

/-- What `splitArguments` has behind a byte. -/
structure Splitter where
  depth : Int := 0
  inString : Bool := false
  stringChar : UInt8 := 0
  escaped : Bool := false
  current : Bytes := []
  parts : List Bytes := []

def Splitter.write (s : Splitter) (c : UInt8) : Splitter := { s with current := s.current ++ [c] }

def Splitter.step (s : Splitter) (c : UInt8) : Splitter :=
  if s.escaped then { s.write c with escaped := false }
  else if c = backslash ∧ s.inString then { s.write c with escaped := true }
  else if (c = doubleQuote ∨ c = singleQuote) ∧ !s.inString then { s.write c with inString := true, stringChar := c }
  else if c = s.stringChar ∧ s.inString then { s.write c with inString := false, stringChar := 0 }
  else if !s.inString then
    if c = openParen ∨ c = openBracket ∨ c = openBrace then { s with depth := s.depth + 1 }.write c
    else if c = closeParen ∨ c = closeBracket ∨ c = closeBrace then { s with depth := s.depth - 1 }.write c
    else if c = comma ∧ s.depth = 0 then { s with current := [], parts := s.parts ++ [s.current] }
    else s.write c
  else s.write c

def Splitter.finish (s : Splitter) : List Bytes := if s.current.length > 0 then s.parts ++ [s.current] else s.parts

/-- The loop visits the first byte of each rune. -/
def splitArguments (s : Bytes) : List Bytes := ((heads s).foldl Splitter.step {}).finish

/-! ## The values -/

def unescapeString (s : Bytes) : Bytes :=
  let s := replaceAll s [backslash, backslash] [0]
  let s := replaceAll s [backslash, doubleQuote] [doubleQuote]
  let s := replaceAll s [backslash, singleQuote] [singleQuote]
  let s := replaceAll s (ascii "\\n") (ascii "\n")
  let s := replaceAll s (ascii "\\t") (ascii "\t")
  let s := replaceAll s (ascii "\\r") (ascii "\r")
  replaceAll s [0] [backslash]

def quoted (s : Bytes) : Prop :=
  wrapped [doubleQuote] [doubleQuote] s ∨ wrapped [singleQuote] [singleQuote] s

instance (s : Bytes) : Decidable (quoted s) := inferInstanceAs (Decidable (_ ∨ _))

variable {F : Type} (parseFloat : Bytes → Option F)

@[grind =]
def parseItems (parse : Bytes → Outcome (Value F)) : List Bytes → Outcome (List (Value F))
  | [] => some (.ok [])
  | part :: parts => (parse part).bind fun
    | .error e => some (.error e)
    | .ok val => (parseItems parse parts).map (Except.map (val :: ·))

/-- What is done with a key, and the errors, of a list of entries. -/
structure EntryFormat where
  separator : UInt8
  malformed : Bytes → Olmo3Error
  wrap : Bytes → Olmo3Error → Olmo3Error
  unquote : Bytes → Option Bytes

@[grind =]
def parseEntries (format : EntryFormat) (parse : Bytes → Outcome (Value F)) :
    List Bytes → Entries F → Option (Except Olmo3Error (Entries F))
  | [], result => some (.ok result)
  | part :: parts, result =>
    let part := trimSpace part
    if part = [] then parseEntries format parse parts result
    else match index part [format.separator] with
      | none => some (.error (format.malformed part))
      | some i => do
        let key ← slice part 0 i
        let valueStr ← slice part (i + 1) part.length
        let key ← format.unquote (trimSpace key)
        match ← parse (trimSpace valueStr) with
        | .error e => some (.error (format.wrap key e))
        | .ok value => parseEntries format parse parts (setEntry key value result)

def parseOlmo3Array (parse : Bytes → Outcome (Value F)) (s : Bytes) : Outcome (Value F) :=
  let s := trimSpace s
  if s = [] then some (.ok (.array []))
  else (parseItems parse (splitArguments s)).map (Except.map .array)

/-- `key: value` or `"key": value`. -/
def objectFormat : EntryFormat where
  separator := colon
  malformed := .objectEntry
  wrap := .keyValue
  unquote keyStr := if quoted keyStr then slice keyStr 1 (keyStr.length - 1) else some keyStr

def parseOlmo3Object (parse : Bytes → Outcome (Value F)) (s : Bytes) : Outcome (Value F) :=
  let s := trimSpace s
  if s = [] then some (.ok (.object []))
  else (parseEntries objectFormat parse (splitArguments s) []).map (Except.map .object)

/-- The body of `parseOlmo3Value`, which calls itself. -/
def valueOf (parse : Bytes → Outcome (Value F)) (s : Bytes) : Outcome (Value F) :=
  let s := trimSpace s
  if quoted s then (slice s 1 (s.length - 1)).map fun inner => .ok (.string (unescapeString inner))
  else if s = ascii "true" ∨ s = ascii "True" then some (.ok (.bool true))
  else if s = ascii "false" ∨ s = ascii "False" then some (.ok (.bool false))
  else if s = ascii "null" ∨ s = ascii "None" ∨ s = ascii "nil" then some (.ok .null)
  else match parseInt s with
    | some i => some (.ok (.int i))
    | none => match parseFloat s with
      | some f => some (.ok (.float f))
      | none =>
        if wrapped [openBracket] [closeBracket] s then (slice s 1 (s.length - 1)).bind (parseOlmo3Array parse)
        else if wrapped [openBrace] [closeBrace] s then (slice s 1 (s.length - 1)).bind (parseOlmo3Object parse)
        else some (.ok (.string s))

def parseOlmo3Value : Bytes → Outcome (Value F) := nested List.length (valueOf parseFloat)

/-! ## The calls -/

/-- `key=value`. -/
def argumentFormat : EntryFormat where
  separator := equalsSign
  malformed := .argumentFormat
  wrap := .value
  unquote key := some key

def parseOlmo3Arguments (s : Bytes) : Outcome (Entries F) :=
  let s := trimSpace s
  if s = [] then some (.ok [])
  else parseEntries argumentFormat (parseOlmo3Value parseFloat) (splitArguments s) []

structure ToolCall (F : Type) where
  name : Bytes
  arguments : Entries F

def isWord (b : UInt8) : Bool :=
  (0x30 ≤ b && b ≤ 0x39) || (0x41 ≤ b && b ≤ 0x5a) || (0x61 ≤ b && b ≤ 0x7a) || b = 0x5f

/-- The groups of `^(\w+)\((.*)\)$`. -/
def funcCallRegex (s : Bytes) : Option (Bytes × Bytes) :=
  let funcName := s.takeWhile isWord
  match s.dropWhile isWord with
  | [] => none
  | b :: rest =>
    if funcName ≠ [] ∧ b = openParen ∧ rest.getLast? = some closeParen ∧ newline ∉ rest then some (funcName, rest.dropLast)
    else none

def parseOlmo3SingleFunctionCall (s : Bytes) : Outcome (ToolCall F) :=
  match funcCallRegex s with
  | none => some (.error .callFormat)
  | some (funcName, argsStr) => (parseOlmo3Arguments parseFloat argsStr).map fun
    | .error e => .error (.arguments e)
    | .ok arguments => .ok { name := funcName, arguments }

/-- The loop over the lines. -/
@[grind =]
def parseLines : List Bytes → Outcome (List (ToolCall F))
  | [] => some (.ok [])
  | line :: lines =>
    let line := trimSpace line
    if line = [] then parseLines lines
    else (parseOlmo3SingleFunctionCall parseFloat line).bind fun
      | .error e => some (.error (.functionCall line e))
      | .ok call => (parseLines lines).map (Except.map (call :: ·))

def parseOlmo3FunctionCalls (s : Bytes) : Outcome (List (ToolCall F)) :=
  let s := trimSpace s
  if s = [] then some (.ok []) else parseLines parseFloat (split s [newline])

/-! ## Parts are parts of the text -/

theorem mem_finish {s : Splitter} {part : Bytes} (h : part ∈ s.finish) : part ∈ s.parts ∨ part = s.current := by
  unfold Splitter.finish at h
  split_ifs at h
  · simpa using h
  · exact .inl h

/-- A step writes the byte, or ends a part. -/
theorem step_cases (s : Splitter) (c : UInt8) :
    ((s.step c).current = s.current ++ [c] ∧ (s.step c).parts = s.parts) ∨
      (c = comma ∧ (s.step c).current = [] ∧ (s.step c).parts = s.parts ++ [s.current]) := by
  unfold Splitter.step
  split_ifs with _ _ _ _ _ _ _ hcomma
  · exact .inl ⟨rfl, rfl⟩
  · exact .inl ⟨rfl, rfl⟩
  · exact .inl ⟨rfl, rfl⟩
  · exact .inl ⟨rfl, rfl⟩
  · exact .inl ⟨rfl, rfl⟩
  · exact .inl ⟨rfl, rfl⟩
  · exact .inr ⟨hcomma.1, rfl, rfl⟩
  · exact .inl ⟨rfl, rfl⟩
  · exact .inl ⟨rfl, rfl⟩

theorem foldl_infix {s : Splitter} {cs part : Bytes} (h : part ∈ (cs.foldl Splitter.step s).finish) :
    part ∈ s.parts ∨ part <:+: s.current ++ cs := by
  induction cs generalizing s with
  | nil =>
    refine (mem_finish h).imp_right fun heq => ?_
    rw [heq, List.append_nil]
    exact List.infix_rfl
  | cons c cs ih =>
    have hrest := ih h
    obtain ⟨hcurrent, hparts⟩ | ⟨rfl, hcurrent, hparts⟩ := step_cases s c
    · rwa [hcurrent, hparts, List.append_assoc, List.singleton_append] at hrest
    · rw [hcurrent, hparts, List.mem_append, List.mem_singleton] at hrest
      obtain (hpart | rfl) | hin := hrest
      · exact .inl hpart
      · exact .inr (List.prefix_append _ _).isInfix
      · exact .inr (hin.trans ((List.suffix_cons _ _).trans (List.suffix_append _ _)).isInfix)

theorem splitArguments_part {s part : Bytes} (h : part ∈ splitArguments s) : part <:+: heads s := by
  obtain h | h := foldl_infix h
  · cases h
  · exact h

theorem length_part {s part : Bytes} (h : part ∈ splitArguments (trimSpace s)) : part.length ≤ s.length :=
  (splitArguments_part h).length_le.trans ((length_heads_le _).trans (length_trimSpace_le s))

@[simp] theorem splitArguments_nil : splitArguments [] = [] := rfl

/-! ## The loops -/

section
variable {format : EntryFormat} {parse : Bytes → Outcome (Value F)} {part : Bytes} (parts : List Bytes) (result : Entries F)

theorem parseEntries_blank (h : trimSpace part = []) :
    parseEntries format parse (part :: parts) result = parseEntries format parse parts result := by
  rw [parseEntries, if_pos h]

theorem parseEntries_malformed (hne : trimSpace part ≠ []) (h : cut [format.separator] (trimSpace part) = none) :
    parseEntries format parse (part :: parts) result = some (.error (format.malformed (trimSpace part))) := by
  rw [parseEntries, if_neg hne, index, h]
  rfl

theorem parseEntries_entry (hne : trimSpace part ≠ []) {key value : Bytes}
    (h : cut [format.separator] (trimSpace part) = some (key, value)) :
    parseEntries format parse (part :: parts) result = (format.unquote (trimSpace key)).bind fun key =>
      (parse (trimSpace value)).bind fun
        | .error e => some (.error (format.wrap key e))
        | .ok value => parseEntries format parse parts (setEntry key value result) := by
  have hindex : index (trimSpace part) [format.separator] = some key.length := by rw [index, h]; rfl
  obtain ⟨before, after, hcut, -, hkey, hvalue⟩ := slices_index hindex
  obtain ⟨rfl, rfl⟩ := Prod.mk.inj (Option.some.inj (h.symm.trans hcut))
  rw [List.length_singleton] at hvalue
  rw [parseEntries, if_neg hne, hindex]
  simp only [hkey, hvalue, bind, Option.bind_some]

end

theorem parseItems_congr {f g : Bytes → Outcome (Value F)} {parts : List Bytes} (h : ∀ part ∈ parts, f part = g part) :
    parseItems f parts = parseItems g parts := by
  induction parts with
  | nil => rfl
  | cons part parts ih =>
    rw [parseItems, parseItems, h part (List.mem_cons_self ..), ih fun p hp => h p (List.mem_cons_of_mem _ hp)]

theorem length_entry {sep : UInt8} {part key value : Bytes} (h : cut [sep] (trimSpace part) = some (key, value)) :
    (trimSpace key).length < part.length ∧ (trimSpace value).length < part.length := by
  have hlen := length_of_cut h
  have hpart := length_trimSpace_le part
  have hkey := length_trimSpace_le key
  have hvalue := length_trimSpace_le value
  rw [List.length_singleton] at hlen
  omega

theorem parseEntries_congr {format : EntryFormat} {f g : Bytes → Outcome (Value F)} {parts : List Bytes} (result : Entries F)
    (h : ∀ part ∈ parts, ∀ v : Bytes, v.length < part.length → f v = g v) :
    parseEntries format f parts result = parseEntries format g parts result := by
  induction parts generalizing result with
  | nil => rfl
  | cons part parts ih =>
    have hrest := fun result => ih result fun p hp => h p (List.mem_cons_of_mem _ hp)
    by_cases hblank : trimSpace part = []
    · rw [parseEntries_blank _ _ hblank, parseEntries_blank _ _ hblank, hrest]
    · cases hcut : cut [format.separator] (trimSpace part) with
      | none => rw [parseEntries_malformed _ _ hblank hcut, parseEntries_malformed _ _ hblank hcut]
      | some q =>
        obtain ⟨key, value⟩ := q
        rw [parseEntries_entry _ _ hblank hcut, parseEntries_entry _ _ hblank hcut,
          h part (List.mem_cons_self ..) _ (length_entry hcut).2]
        simp only [hrest]

/-! ## The body of a value -/

theorem shrinking_valueOf : Shrinking List.length (valueOf parseFloat) := by
  intro s f g h
  have hparts : ∀ content : Bytes, slice (trimSpace s) 1 ((trimSpace s).length - 1) = some content → trimSpace s ≠ [] →
      ∀ part ∈ splitArguments (trimSpace content), part.length < s.length := by
    intro content hslice hne part hpart
    have hlen := length_slice hslice
    have hle := length_part hpart
    have htrim := length_trimSpace_le s
    have hpos := List.length_pos_iff.mpr hne
    omega
  unfold valueOf
  dsimp only
  refine ite_congr rfl (fun _ => rfl) fun _ => ite_congr rfl (fun _ => rfl) fun _ => ite_congr rfl (fun _ => rfl) fun _ =>
    ite_congr rfl (fun _ => rfl) fun _ => ?_
  cases parseInt (trimSpace s) with
  | some i => rfl
  | none =>
    cases parseFloat (trimSpace s) with
    | some f => rfl
    | none =>
      refine ite_congr rfl (fun harray => ?_) fun _ => ite_congr rfl (fun hobject => ?_) fun _ => rfl
      · have hne : trimSpace s ≠ [] := fun hnil => absurd (hnil ▸ harray) (by decide)
        refine Option.bind_congr fun content hslice => ?_
        rw [parseOlmo3Array, parseOlmo3Array, parseItems_congr fun part hpart => h part (hparts content hslice hne part hpart)]
      · have hne : trimSpace s ≠ [] := fun hnil => absurd (hnil ▸ hobject) (by decide)
        refine Option.bind_congr fun content hslice => ?_
        rw [parseOlmo3Object, parseOlmo3Object, parseEntries_congr [] fun part hpart v hv => h v (hv.trans (hparts content hslice hne part hpart))]

theorem parseOlmo3Value_eq (s : Bytes) :
    parseOlmo3Value parseFloat s = valueOf parseFloat (parseOlmo3Value parseFloat) s :=
  nested_eq (shrinking_valueOf parseFloat) s

/-! ## The shapes of a value -/

/-- A quotation mark of its own. -/
def LoneQuote (s : Bytes) : Prop := s = [doubleQuote] ∨ s = [singleQuote]

instance (s : Bytes) : Decidable (LoneQuote s) := inferInstanceAs (Decidable (_ ∨ _))

theorem slice_loneQuote {s : Bytes} (h : LoneQuote s) : quoted s ∧ slice s 1 (s.length - 1) = none := by
  rcases h with rfl | rfl <;> decide

theorem quoted_cases {s : Bytes} (h : quoted s) : LoneQuote s ∨ ∃ inner, slice s 1 (s.length - 1) = some inner := by
  obtain h | h := h
  · obtain h | ⟨inner, rfl⟩ := wrapped_byte.mp h
    · exact .inl (.inl h)
    · exact .inr ⟨inner, slice_wrapped inner⟩
  · obtain h | ⟨inner, rfl⟩ := wrapped_byte.mp h
    · exact .inl (.inr h)
    · exact .inr ⟨inner, slice_wrapped inner⟩

theorem not_quoted {b : UInt8} (hb : b ≠ doubleQuote ∧ b ≠ singleQuote) (s : Bytes) : ¬ quoted (b :: s) := by
  rintro (⟨hpre, -⟩ | ⟨hpre, -⟩)
  · exact hb.1 (List.cons_prefix_cons.mp hpre).1.symm
  · exact hb.2 (List.cons_prefix_cons.mp hpre).1.symm

/-- `ParseFloat` reads no number where an array or an object starts. -/
def LawfulFloat : Prop := ∀ b s, b = openBracket ∨ b = openBrace → parseFloat (b :: s) = none

variable {parseFloat}

theorem parseOlmo3Value_quoted {s : Bytes} (h : quoted (trimSpace s)) : parseOlmo3Value parseFloat s =
    (slice (trimSpace s) 1 ((trimSpace s).length - 1)).map fun inner => .ok (.string (unescapeString inner)) := by
  rw [parseOlmo3Value_eq, valueOf]
  exact if_pos h

/-- A text that starts like an array or an object is no other value. -/
theorem parseOlmo3Value_bracketed (hfloat : LawfulFloat parseFloat) {s t : Bytes} {b : UInt8} (hs : trimSpace s = b :: t)
    (hb : b = openBracket ∨ b = openBrace) : parseOlmo3Value parseFloat s =
      if wrapped [openBracket] [closeBracket] (b :: t) then
        (slice (b :: t) 1 ((b :: t).length - 1)).bind (parseOlmo3Array (parseOlmo3Value parseFloat))
      else if wrapped [openBrace] [closeBrace] (b :: t) then
        (slice (b :: t) 1 ((b :: t).length - 1)).bind (parseOlmo3Object (parseOlmo3Value parseFloat))
      else some (.ok (.string (b :: t))) := by
  have hhead : ∀ x xs, b ≠ x → b :: t ≠ x :: xs := fun x xs hne heq => hne (List.cons.inj heq).1
  have hquoted : ¬ quoted (b :: t) := not_quoted (by rcases hb with rfl | rfl <;> decide) t
  have htrue : ¬ (b :: t = ascii "true" ∨ b :: t = ascii "True") :=
    not_or.mpr ⟨hhead 0x74 _ (by rcases hb with rfl | rfl <;> decide), hhead 0x54 _ (by rcases hb with rfl | rfl <;> decide)⟩
  have hfalse : ¬ (b :: t = ascii "false" ∨ b :: t = ascii "False") :=
    not_or.mpr ⟨hhead 0x66 _ (by rcases hb with rfl | rfl <;> decide), hhead 0x46 _ (by rcases hb with rfl | rfl <;> decide)⟩
  have hnull : ¬ (b :: t = ascii "null" ∨ b :: t = ascii "None" ∨ b :: t = ascii "nil") :=
    not_or.mpr ⟨hhead 0x6e _ (by rcases hb with rfl | rfl <;> decide),
      not_or.mpr ⟨hhead 0x4e _ (by rcases hb with rfl | rfl <;> decide), hhead 0x6e _ (by rcases hb with rfl | rfl <;> decide)⟩⟩
  have hint : parseInt (b :: t) = none :=
    parseInt_none (by rcases hb with rfl | rfl <;> decide) (by rcases hb with rfl | rfl <;> decide) t
  rw [parseOlmo3Value_eq, valueOf, hs, if_neg hquoted, if_neg htrue, if_neg hfalse, if_neg hnull, hint, hfloat b t hb]

theorem parseOlmo3Value_array (hfloat : LawfulFloat parseFloat) {s content : Bytes}
    (hs : trimSpace s = [openBracket] ++ (content ++ [closeBracket])) :
    parseOlmo3Value parseFloat s = parseOlmo3Array (parseOlmo3Value parseFloat) content := by
  rw [List.singleton_append] at hs
  rw [parseOlmo3Value_bracketed hfloat hs (.inl rfl), slice_bytes]
  exact if_pos (wrapped_middle content)

theorem parseOlmo3Value_object (hfloat : LawfulFloat parseFloat) {s content : Bytes}
    (hs : trimSpace s = [openBrace] ++ (content ++ [closeBrace])) :
    parseOlmo3Value parseFloat s = parseOlmo3Object (parseOlmo3Value parseFloat) content := by
  have harray : ¬ wrapped [openBracket] [closeBracket] (openBrace :: (content ++ [closeBrace])) := by
    rintro ⟨hpre, -⟩
    exact absurd (List.cons_prefix_cons.mp hpre).1 (by decide)
  rw [List.singleton_append] at hs
  rw [parseOlmo3Value_bracketed hfloat hs (.inr rfl), if_neg harray, slice_bytes]
  exact if_pos (wrapped_middle content)

theorem parseOlmo3Value_plain {s : Bytes} (hquote : ¬ LoneQuote (trimSpace s))
    (harray : ¬ wrapped [openBracket] [closeBracket] (trimSpace s)) (hobject : ¬ wrapped [openBrace] [closeBrace] (trimSpace s)) :
    ∃ w, parseOlmo3Value parseFloat s = some (.ok w) := by
  by_cases hq : quoted (trimSpace s)
  · obtain hlone | ⟨inner, hinner⟩ := quoted_cases hq
    · exact absurd hlone hquote
    · exact ⟨_, by rw [parseOlmo3Value_quoted hq, hinner]; rfl⟩
  rw [parseOlmo3Value_eq, valueOf, if_neg hq, if_neg harray, if_neg hobject]
  split_ifs
  · exact ⟨_, rfl⟩
  · exact ⟨_, rfl⟩
  · exact ⟨_, rfl⟩
  · cases parseInt (trimSpace s) with
    | some i => exact ⟨_, rfl⟩
    | none =>
      cases parseFloat (trimSpace s) with
      | some f => exact ⟨_, rfl⟩
      | none => exact ⟨_, rfl⟩

end Xdragon.Parsers.Olmo3
