import Xdragon.Parsers.FunctionGemma
import Xdragon.Parsers.Value

/-!
# The arguments of FunctionGemma calls

The argument parser of `model/parsers/functiongemma.go`. A call is `call:name\x7bkey:value,...\x7d`, and a string stands between
two `<escape>` tags.
-/

namespace Xdragon.Parsers.FunctionGemma

open Xdragon.Lib

def escapeTag : Bytes := ascii "<escape>"

/-! ## The splitter -/

/-- What `splitArguments` has behind a byte. -/
structure Splitter where
  depth : Int := 0
  inEscape : Bool := false
  current : Bytes := []
  parts : List Bytes := []

def Splitter.write (s : Splitter) (b : Bytes) : Splitter := { s with current := s.current ++ b }

/-- The parts with the current one, if it is not empty. -/
def Splitter.flush (s : Splitter) : List Bytes := if s.current.length > 0 then s.parts ++ [s.current] else s.parts

/-- A byte that is not in an escaped string. -/
def Splitter.outside (s : Splitter) (ch : UInt8) : Splitter :=
  if ch = openBrace ∨ ch = openBracket then { s with depth := s.depth + 1 }.write [ch]
  else if ch = closeBrace ∨ ch = closeBracket then { s with depth := s.depth - 1 }.write [ch]
  else if ch = comma ∧ s.depth = 0 then { s with current := [], parts := s.flush }
  else s.write [ch]

@[grind =]
def splitLoop (s : Splitter) : Bytes → List Bytes
  | [] => s.flush
  | ch :: rest =>
    if escapeTag <+: ch :: rest then
      splitLoop ({ s with inEscape := !s.inEscape }.write escapeTag) ((ch :: rest).drop escapeTag.length)
    else splitLoop (if s.inEscape then s.write [ch] else s.outside ch) rest
termination_by rest => rest.length
decreasing_by
  · have h8 : escapeTag.length = 8 := rfl
    rw [List.length_drop, List.length_cons]
    omega
  · exact Nat.lt_succ_self _

def splitArguments (argsStr : Bytes) : List Bytes := splitLoop {} argsStr

/-! ## The values -/

variable {F : Type} (scanFloat : Bytes → Option F)

/-- Where `Sscanf` skips white space or leaves something, `Sprintf` does not write the text. -/
def parseNumber (s : Bytes) : Option (Value F) :=
  match (scanInt s).filter fun i => decimal i = s with
  | some i => some (.int i)
  | none => (scanFloat s).map .float

/-- The loop over the parts of an object, or of the arguments. -/
@[grind =]
def parseEntries (parseValue : Bytes → Option (Value F)) : List Bytes → Entries F → Option (Entries F)
  | [], result => some result
  | part :: parts, result =>
    match index part [colon] with
    | none => parseEntries parseValue parts result
    | some colonIdx => do
      let key ← slice part 0 colonIdx
      let value ← slice part (colonIdx + 1) part.length
      let value ← parseValue value
      parseEntries parseValue parts (setEntry key value result)

def parseArray (parseValue : Bytes → Option (Value F)) (content : Bytes) : Option (Value F) :=
  ((splitArguments content).mapM parseValue).map .array

def parseObject (parseValue : Bytes → Option (Value F)) (content : Bytes) : Option (Value F) :=
  (parseEntries parseValue (splitArguments content) []).map .object

/-- The body of `parseValue`, which calls itself. -/
def valueOf (parseValue : Bytes → Option (Value F)) (value : Bytes) : Option (Value F) :=
  if wrapped escapeTag escapeTag value then (slice value 8 (value.length - 8)).map .string
  else if value = ascii "true" then some (.bool true)
  else if value = ascii "false" then some (.bool false)
  else match parseNumber scanFloat value with
    | some num => some num
    | none =>
      if wrapped [openBracket] [closeBracket] value then (slice value 1 (value.length - 1)).bind (parseArray parseValue)
      else if wrapped [openBrace] [closeBrace] value then (slice value 1 (value.length - 1)).bind (parseObject parseValue)
      else some (.string value)

/-- The value of a text, and none for a panic. -/
def parseValue : Bytes → Option (Value F) := nested List.length (valueOf scanFloat)

def parseArguments (argsStr : Bytes) : Option (Entries F) :=
  if argsStr = [] then some [] else parseEntries (parseValue scanFloat) (splitArguments argsStr) []

/-! ## Parts are parts of the text -/

theorem mem_flush {s : Splitter} {part : Bytes} (h : part ∈ s.flush) : part ∈ s.parts ∨ part = s.current := by
  unfold Splitter.flush at h
  split_ifs at h
  · simpa using h
  · exact .inl h

theorem splitLoop_infix {s : Splitter} {rest part : Bytes} (h : part ∈ splitLoop s rest) :
    part ∈ s.parts ∨ part <:+: s.current ++ rest := by
  induction s, rest using splitLoop.induct with
  | case1 s =>
    rw [splitLoop] at h
    refine (mem_flush h).imp_right fun heq => ?_
    rw [heq, List.append_nil]
  | case2 s ch rest htag ih =>
    rw [splitLoop, if_pos htag] at h
    obtain ⟨after, hafter⟩ := htag
    have hsplit := ih h
    rw [← hafter, List.drop_left] at hsplit
    rwa [Splitter.write, List.append_assoc, hafter] at hsplit
  | case3 s ch rest htag ih =>
    rw [splitLoop, if_neg htag] at h
    have hsplit := ih h
    have hnext : s.current ++ [ch] ++ rest = s.current ++ ch :: rest := by simp
    split_ifs at hsplit
    · exact hnext ▸ hsplit
    · unfold Splitter.outside at hsplit
      split_ifs at hsplit
      · exact hnext ▸ hsplit
      · exact hnext ▸ hsplit
      · obtain hflush | hin := hsplit
        · refine (mem_flush hflush).imp_right fun heq => ?_
          rw [heq]
          exact (List.prefix_append _ _).isInfix
        · exact .inr (hin.trans ((List.suffix_cons _ _).trans (List.suffix_append _ _)).isInfix)
      · exact hnext ▸ hsplit

theorem splitArguments_part {argsStr part : Bytes} (h : part ∈ splitArguments argsStr) : part <:+: argsStr := by
  obtain h | h := splitLoop_infix h
  · cases h
  · exact h

/-! ## The body of a value -/

section
variable {parse : Bytes → Option (Value F)} {part : Bytes} (parts : List Bytes) (result : Entries F)

theorem parseEntries_skip (h : cut [colon] part = none) :
    parseEntries parse (part :: parts) result = parseEntries parse parts result := by
  rw [parseEntries, index, h]
  rfl

theorem parseEntries_entry {key value : Bytes} (h : cut [colon] part = some (key, value)) :
    parseEntries parse (part :: parts) result =
      (parse value).bind fun v => parseEntries parse parts (setEntry key v result) := by
  have hindex : index part [colon] = some key.length := by rw [index, h]; rfl
  obtain ⟨before, after, hcut, -, hkey, hvalue⟩ := slices_index hindex
  obtain ⟨rfl, rfl⟩ := Prod.mk.inj (Option.some.inj (h.symm.trans hcut))
  rw [List.length_singleton] at hvalue
  rw [parseEntries, hindex]
  simp only [hkey, hvalue, bind, Option.bind_some]

end

theorem parseEntries_congr {f g : Bytes → Option (Value F)} {parts : List Bytes} (result : Entries F)
    (h : ∀ part ∈ parts, ∀ v : Bytes, v.length < part.length → f v = g v) :
    parseEntries f parts result = parseEntries g parts result := by
  induction parts generalizing result with
  | nil => rfl
  | cons part parts ih =>
    have hrest := fun result => ih result fun p hp => h p (List.mem_cons_of_mem _ hp)
    cases hcut : cut [colon] part with
    | none => rw [parseEntries_skip _ _ hcut, parseEntries_skip _ _ hcut, hrest]
    | some q =>
      obtain ⟨key, value⟩ := q
      have hlen := length_of_cut hcut
      rw [List.length_singleton] at hlen
      rw [parseEntries_entry _ _ hcut, parseEntries_entry _ _ hcut, h part (List.mem_cons_self ..) value (by omega)]
      exact Option.bind_congr fun v _ => hrest _

theorem parseEntries_eq_none {parse : Bytes → Option (Value F)} {parts : List Bytes} (result : Entries F) :
    parseEntries parse parts result = none ↔
      ∃ part ∈ parts, ∃ key value, cut [colon] part = some (key, value) ∧ parse value = none := by
  induction parts generalizing result with
  | nil => simp [parseEntries]
  | cons part parts ih =>
    simp only [List.mem_cons, exists_eq_or_imp]
    cases hcut : cut [colon] part with
    | none => simp [parseEntries_skip _ _ hcut, ih]
    | some q =>
      obtain ⟨key, value⟩ := q
      rw [parseEntries_entry _ _ hcut]
      cases hvalue : parse value with
      | none => simp [hvalue]
      | some v => simp [hvalue, ih]

theorem shrinking_valueOf : Shrinking List.length (valueOf scanFloat) := by
  intro value f g h
  have hparts : ∀ content, slice value 1 (value.length - 1) = some content → ∀ part ∈ splitArguments content,
      value ≠ [] → part.length < value.length := by
    intro content hslice part hpart hne
    have hlen := length_slice hslice
    have hle := (splitArguments_part hpart).length_le
    have hpos := List.length_pos_iff.mpr hne
    omega
  unfold valueOf
  refine ite_congr rfl (fun _ => rfl) fun _ => ite_congr rfl (fun _ => rfl) fun _ => ite_congr rfl (fun _ => rfl) fun _ => ?_
  cases parseNumber scanFloat value with
  | some num => rfl
  | none =>
    refine ite_congr rfl (fun harray => ?_) fun _ => ite_congr rfl (fun hobject => ?_) fun _ => rfl
    · have hne : value ≠ [] := by rintro rfl; exact absurd harray (by decide)
      refine Option.bind_congr fun content hslice => ?_
      rw [parseArray, parseArray, mapM_congr fun part hpart => h part (hparts content hslice part hpart hne)]
    · have hne : value ≠ [] := by rintro rfl; exact absurd hobject (by decide)
      refine Option.bind_congr fun content hslice => ?_
      rw [parseObject, parseObject, parseEntries_congr [] fun part hpart v hv =>
        h v (hv.trans (hparts content hslice part hpart hne))]

theorem parseValue_eq (value : Bytes) : parseValue scanFloat value = valueOf scanFloat (parseValue scanFloat) value :=
  nested_eq (shrinking_valueOf scanFloat) value

/-! ## The shapes of a value -/

/-- A tag does not overlap itself. -/
theorem escape_once {value : Bytes} (h : wrapped escapeTag escapeTag value) :
    value = escapeTag ∨ ∃ s, value = escapeTag ++ (s ++ escapeTag) := by
  have h8 : escapeTag.length = 8 := rfl
  by_cases hlen : escapeTag.length + escapeTag.length ≤ value.length
  · exact .inr (wrapped_content h hlen)
  · obtain ⟨⟨rest, rfl⟩, hsuf⟩ := h
    rw [List.length_append] at hlen
    have hborder : ∀ k < 8, escapeTag.drop k <+: escapeTag → k = 0 := by decide
    have hdrop := List.suffix_iff_eq_drop.mp hsuf
    rw [List.length_append, Nat.add_sub_cancel_left, List.drop_append_of_le_length (by omega)] at hdrop
    have hzero := hborder rest.length (by omega) ⟨rest, hdrop.symm⟩
    rw [List.length_eq_zero_iff.mp hzero, List.append_nil]
    exact .inl rfl

theorem parseValue_tag : parseValue scanFloat escapeTag = none := by
  rw [parseValue_eq, valueOf, if_pos (by decide)]
  rfl

theorem parseValue_escaped (s : Bytes) : parseValue scanFloat (escapeTag ++ (s ++ escapeTag)) = some (.string s) := by
  rw [parseValue_eq, valueOf, if_pos (wrapped_middle s)]
  exact congrArg (Option.map Value.string) (@slice_wrapped escapeTag escapeTag s)

/-- A value without parts. -/
inductive Atom (value : Bytes) : Value F → Prop
  | bool (b : Bool) : Atom value (.bool b)
  | int {i : Int} : InInt64 i → Atom value (.int i)
  | float (f : F) : Atom value (.float f)
  | string : Atom value (.string value)

theorem atom_of_number {value : Bytes} {num : Value F} (h : parseNumber scanFloat value = some num) : Atom value num := by
  unfold parseNumber at h
  split at h
  · rename_i i hscan
    obtain rfl := Option.some.inj h
    obtain ⟨hscan, -⟩ := Option.filter_eq_some_iff.mp hscan
    exact .int (inInt64_of_parseInt hscan)
  · obtain ⟨f, -, rfl⟩ := Option.map_eq_some_iff.mp h
    exact .float f

/-- What a text can be, and its value. -/
inductive Shape (parse : Bytes → Option (Value F)) : Bytes → Option (Value F) → Prop
  | tag : Shape parse escapeTag none
  | escaped (s : Bytes) : Shape parse (escapeTag ++ (s ++ escapeTag)) (some (.string s))
  | array (content : Bytes) : Shape parse ([openBracket] ++ (content ++ [closeBracket])) (parseArray parse content)
  | object (content : Bytes) : Shape parse ([openBrace] ++ (content ++ [closeBrace])) (parseObject parse content)
  | atom {value : Bytes} {w : Value F} : Atom value w → Shape parse value (some w)

theorem parseValue_shape (value : Bytes) : Shape (parseValue scanFloat) value (parseValue scanFloat value) := by
  by_cases hescape : wrapped escapeTag escapeTag value
  · obtain rfl | ⟨s, rfl⟩ := escape_once hescape
    · rw [parseValue_tag]
      exact .tag
    · rw [parseValue_escaped]
      exact .escaped s
  rw [parseValue_eq, valueOf, if_neg hescape]
  by_cases htrue : value = ascii "true"
  · rw [if_pos htrue]
    exact .atom (.bool true)
  rw [if_neg htrue]
  by_cases hfalse : value = ascii "false"
  · rw [if_pos hfalse]
    exact .atom (.bool false)
  rw [if_neg hfalse]
  cases hnum : parseNumber scanFloat value with
  | some num => exact .atom (atom_of_number scanFloat hnum)
  | none =>
    dsimp only
    by_cases harray : wrapped [openBracket] [closeBracket] value
    · obtain ⟨content, rfl⟩ := (wrapped_bytes (by decide)).mp harray
      rw [if_pos harray, List.singleton_append, slice_bytes]
      exact .array content
    rw [if_neg harray]
    by_cases hobject : wrapped [openBrace] [closeBrace] value
    · obtain ⟨content, rfl⟩ := (wrapped_bytes (by decide)).mp hobject
      rw [if_pos hobject, List.singleton_append, slice_bytes]
      exact .object content
    rw [if_neg hobject]
    exact .atom .string

/-- `%f` reads no number where an array or an object starts. -/
def LawfulScan : Prop := ∀ b s, b = openBracket ∨ b = openBrace → scanFloat (b :: s) = none

variable {scanFloat}

theorem parseNumber_none (hscan : LawfulScan scanFloat) {b : UInt8} (hb : b = openBracket ∨ b = openBrace) (s : Bytes) :
    parseNumber scanFloat (b :: s) = none := by
  have hint : scanInt (b :: s) = none :=
    scanInt_none (by rcases hb with rfl | rfl <;> decide) (by rcases hb with rfl | rfl <;> decide) s
  rw [parseNumber, hint, hscan b s hb]
  rfl

/-- A text that starts like an array or an object is no other value. -/
theorem parseValue_bracketed (hscan : LawfulScan scanFloat) {b : UInt8} (hb : b = openBracket ∨ b = openBrace) (s : Bytes) :
    parseValue scanFloat (b :: s) =
      if wrapped [openBracket] [closeBracket] (b :: s) then
        (slice (b :: s) 1 ((b :: s).length - 1)).bind (parseArray (parseValue scanFloat))
      else if wrapped [openBrace] [closeBrace] (b :: s) then
        (slice (b :: s) 1 ((b :: s).length - 1)).bind (parseObject (parseValue scanFloat))
      else some (.string (b :: s)) := by
  have hhead : ∀ x xs, b ≠ x → b :: s ≠ x :: xs := fun x xs hne heq => hne (List.cons.inj heq).1
  have hescape : ¬ wrapped escapeTag escapeTag (b :: s) := by
    rintro ⟨⟨rest, hrest⟩, -⟩
    exact hhead _ _ (by rcases hb with rfl | rfl <;> decide) hrest.symm
  have htrue : b :: s ≠ ascii "true" := hhead 0x74 _ (by rcases hb with rfl | rfl <;> decide)
  have hfalse : b :: s ≠ ascii "false" := hhead 0x66 _ (by rcases hb with rfl | rfl <;> decide)
  rw [parseValue_eq, valueOf, if_neg hescape, if_neg htrue, if_neg hfalse, parseNumber_none hscan hb]

theorem parseValue_array (hscan : LawfulScan scanFloat) (content : Bytes) :
    parseValue scanFloat ([openBracket] ++ (content ++ [closeBracket])) = parseArray (parseValue scanFloat) content := by
  rw [List.singleton_append, parseValue_bracketed hscan (.inl rfl), slice_bytes]
  exact if_pos (wrapped_middle content)

theorem parseValue_object (hscan : LawfulScan scanFloat) (content : Bytes) :
    parseValue scanFloat ([openBrace] ++ (content ++ [closeBrace])) = parseObject (parseValue scanFloat) content := by
  have harray : ¬ wrapped [openBracket] [closeBracket] (openBrace :: (content ++ [closeBrace])) := by
    rintro ⟨⟨rest, hrest⟩, -⟩
    exact absurd (List.cons.inj hrest).1 (by decide)
  rw [List.singleton_append, parseValue_bracketed hscan (.inr rfl), if_neg harray, slice_bytes]
  exact if_pos (wrapped_middle content)

/-! ## Texts that panic -/

/-- The text is a tag of its own, or one of its parts is. -/
inductive LoneTag : Bytes → Prop
  | tag : LoneTag escapeTag
  | item {content part : Bytes} : part ∈ splitArguments content → LoneTag part →
      LoneTag ([openBracket] ++ (content ++ [closeBracket]))
  | entry {content part key value : Bytes} : part ∈ splitArguments content → cut [colon] part = some (key, value) →
      LoneTag value → LoneTag ([openBrace] ++ (content ++ [closeBrace]))

theorem parseValue_eq_none (hscan : LawfulScan scanFloat) {value : Bytes} :
    parseValue scanFloat value = none ↔ LoneTag value := by
  constructor
  · intro h
    induction hn : value.length using Nat.strongRecOn generalizing value with
    | _ n ih =>
      have hshape := parseValue_shape scanFloat value
      generalize hr : parseValue scanFloat value = r at h hshape
      cases hshape with
      | tag => exact .tag
      | escaped s => cases h
      | atom hatom => cases h
      | array content =>
        rw [parseArray, Option.map_eq_none_iff, mapM_eq_none] at h
        obtain ⟨part, hpart, hnone⟩ := h
        have hlen := (splitArguments_part hpart).length_le
        simp only [List.length_append, List.length_singleton] at hn
        exact .item hpart (ih part.length (by omega) hnone rfl)
      | object content =>
        rw [parseObject, Option.map_eq_none_iff, parseEntries_eq_none] at h
        obtain ⟨part, hpart, key, value, hcut, hnone⟩ := h
        have hlen := (splitArguments_part hpart).length_le
        have hcutlen := length_of_cut hcut
        simp only [List.length_append, List.length_singleton] at hn
        exact .entry hpart hcut (ih value.length (by omega) hnone rfl)
  · intro h
    induction h with
    | tag => exact parseValue_tag scanFloat
    | item hpart _ ih =>
      rw [parseValue_array hscan, parseArray, Option.map_eq_none_iff, mapM_eq_none]
      exact ⟨_, hpart, ih⟩
    | entry hpart hcut _ ih =>
      rw [parseValue_object hscan, parseObject, Option.map_eq_none_iff, parseEntries_eq_none]
      exact ⟨_, hpart, _, _, hcut, ih⟩

end Xdragon.Parsers.FunctionGemma
