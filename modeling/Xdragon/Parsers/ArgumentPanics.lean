import Xdragon.Parsers.FunctionGemmaArguments
import Xdragon.Parsers.LFM2Calls
import Xdragon.Parsers.Olmo3Calls

/-!
# Texts that panic

A delimiter that is both the prefix and the suffix of a value: an escape tag of FunctionGemma, a quotation mark of Olmo 3. The
slices of LFM2 are always in range.
-/

namespace Xdragon.Parsers

open Xdragon.Lib

variable {F : Type}

namespace Olmo3

/-! ## The loops of Olmo 3 -/

theorem parseItems_ok {parse : Bytes → Outcome (Value F)} {parts : List Bytes} :
    (∃ vs, parseItems parse parts = some (.ok vs)) ↔ ∀ part ∈ parts, ∃ v, parse part = some (.ok v) := by
  induction parts with
  | nil => simp [parseItems]
  | cons part parts ih =>
    rw [List.forall_mem_cons, ← ih, parseItems]
    rcases parse part with _ | (e | v)
    · simp
    · simp
    · rcases parseItems parse parts with _ | (e | vs)
      · simp
      · simp [Except.map]
      · simp [Except.map]

theorem parseItems_none {parse : Bytes → Outcome (Value F)} {parts : List Bytes} : parseItems parse parts = none ↔
    FirstOf (fun part => ∃ v, parse part = some (.ok v)) (fun part => parse part = none) parts := by
  induction parts with
  | nil => simpa [parseItems] using not_firstOf_nil _ _
  | cons part parts ih =>
    rw [firstOf_cons, ← ih, parseItems]
    rcases parse part with _ | (e | v) <;> simp

section
variable (format : EntryFormat) (parse : Bytes → Outcome (Value F))

/-- A part that is blank or an entry. -/
def EntryOk (part : Bytes) : Prop := trimSpace part ≠ [] → ∃ key value, cut [format.separator] (trimSpace part) = some (key, value) ∧
  (∃ k, format.unquote (trimSpace key) = some k) ∧ ∃ v, parse (trimSpace value) = some (.ok v)

def EntryPanics (part : Bytes) : Prop := ∃ key value, cut [format.separator] (trimSpace part) = some (key, value) ∧
  (format.unquote (trimSpace key) = none ∨
    (∃ k, format.unquote (trimSpace key) = some k) ∧ parse (trimSpace value) = none)

variable {format parse}

theorem entryOk_iff {part key value : Bytes} (hcut : cut [format.separator] (trimSpace part) = some (key, value)) :
    EntryOk format parse part ↔ (∃ k, format.unquote (trimSpace key) = some k) ∧ ∃ v, parse (trimSpace value) = some (.ok v) := by
  have hne : trimSpace part ≠ [] := by
    intro hnil
    rw [hnil] at hcut
    simp [cut] at hcut
  simp [EntryOk, hne, hcut]

theorem entryPanics_iff {part key value : Bytes} (hcut : cut [format.separator] (trimSpace part) = some (key, value)) :
    EntryPanics format parse part ↔ format.unquote (trimSpace key) = none ∨
      (∃ k, format.unquote (trimSpace key) = some k) ∧ parse (trimSpace value) = none := by
  simp [EntryPanics, hcut]

theorem parseEntries_ok {parts : List Bytes} (result : Entries F) :
    (∃ es, parseEntries format parse parts result = some (.ok es)) ↔ ∀ part ∈ parts, EntryOk format parse part := by
  induction parts generalizing result with
  | nil => simp [parseEntries]
  | cons part parts ih =>
    rw [List.forall_mem_cons]
    by_cases hblank : trimSpace part = []
    · rw [parseEntries_blank _ _ hblank, ih]
      simp [EntryOk, hblank]
    · cases hcut : cut [format.separator] (trimSpace part) with
      | none =>
        rw [parseEntries_malformed _ _ hblank hcut]
        simp [EntryOk, hblank, hcut]
      | some q =>
        obtain ⟨key, value⟩ := q
        rw [parseEntries_entry _ _ hblank hcut, entryOk_iff hcut]
        cases format.unquote (trimSpace key) with
        | none => simp
        | some k =>
          rcases parse (trimSpace value) with _ | (e | v)
          · simp
          · simp
          · simp [ih]

theorem parseEntries_none {parts : List Bytes} (result : Entries F) : parseEntries format parse parts result = none ↔
    FirstOf (EntryOk format parse) (EntryPanics format parse) parts := by
  induction parts generalizing result with
  | nil => simpa [parseEntries] using not_firstOf_nil _ _
  | cons part parts ih =>
    rw [firstOf_cons]
    by_cases hblank : trimSpace part = []
    · rw [parseEntries_blank _ _ hblank, ih]
      simp [EntryOk, EntryPanics, hblank, cut]
    · cases hcut : cut [format.separator] (trimSpace part) with
      | none =>
        rw [parseEntries_malformed _ _ hblank hcut]
        simp [EntryOk, EntryPanics, hblank, hcut]
      | some q =>
        obtain ⟨key, value⟩ := q
        rw [parseEntries_entry _ _ hblank hcut, entryOk_iff hcut, entryPanics_iff hcut]
        cases format.unquote (trimSpace key) with
        | none => simp
        | some k =>
          rcases parse (trimSpace value) with _ | (e | v)
          · simp
          · simp
          · simp [ih]

end

/-! ## Lone quotation marks -/

/-- A part of an object that is blank or has a key. -/
def WellKeyed (part : Bytes) : Prop := trimSpace part ≠ [] → ∃ key value,
  cut [colon] (trimSpace part) = some (key, value) ∧ ¬ LoneQuote (trimSpace key)

/-- No value and no key in the text is a lone quotation mark, and every entry has a colon. -/
inductive Clean : Bytes → Prop
  | plain {s : Bytes} : ¬ LoneQuote (trimSpace s) → ¬ wrapped [openBracket] [closeBracket] (trimSpace s) →
      ¬ wrapped [openBrace] [closeBrace] (trimSpace s) → Clean s
  | array {s content : Bytes} : trimSpace s = [openBracket] ++ (content ++ [closeBracket]) →
      (∀ part ∈ splitArguments (trimSpace content), Clean part) → Clean s
  | object {s content : Bytes} : trimSpace s = [openBrace] ++ (content ++ [closeBrace]) →
      (∀ part ∈ splitArguments (trimSpace content), WellKeyed part) →
      (∀ part ∈ splitArguments (trimSpace content), ∀ key value, cut [colon] (trimSpace part) = some (key, value) →
        Clean (trimSpace value)) → Clean s

/-- A part of an object that is blank or a clean entry. -/
def CleanEntry (part : Bytes) : Prop := WellKeyed part ∧
  ∀ key value, cut [colon] (trimSpace part) = some (key, value) → Clean (trimSpace value)

/-- The first thing in the text that is not clean is a lone quotation mark. -/
inductive Lone : Bytes → Prop
  | quote {s : Bytes} : LoneQuote (trimSpace s) → Lone s
  | item {s content part : Bytes} {before after : List Bytes} : trimSpace s = [openBracket] ++ (content ++ [closeBracket]) →
      splitArguments (trimSpace content) = before ++ part :: after → (∀ p ∈ before, Clean p) → Lone part → Lone s
  | key {s content part key value : Bytes} {before after : List Bytes} :
      trimSpace s = [openBrace] ++ (content ++ [closeBrace]) → splitArguments (trimSpace content) = before ++ part :: after →
      (∀ p ∈ before, CleanEntry p) → cut [colon] (trimSpace part) = some (key, value) → LoneQuote (trimSpace key) → Lone s
  | value {s content part key value : Bytes} {before after : List Bytes} :
      trimSpace s = [openBrace] ++ (content ++ [closeBrace]) → splitArguments (trimSpace content) = before ++ part :: after →
      (∀ p ∈ before, CleanEntry p) → cut [colon] (trimSpace part) = some (key, value) → ¬ LoneQuote (trimSpace key) →
      Lone (trimSpace value) → Lone s

/-- A part of an object with a lone quotation mark. -/
def LoneEntry (part : Bytes) : Prop := ∃ key value, cut [colon] (trimSpace part) = some (key, value) ∧
  (LoneQuote (trimSpace key) ∨ ¬ LoneQuote (trimSpace key) ∧ Lone (trimSpace value))

section
variable {s content : Bytes}

theorem not_loneQuote (a b : UInt8) (hs : trimSpace s = [a] ++ (content ++ [b])) : ¬ LoneQuote (trimSpace s) := by
  intro h
  have hlen : (trimSpace s).length = 1 := by rcases h with h | h <;> rw [h] <;> rfl
  rw [hs] at hlen
  simp at hlen

theorem content_eq {a b a' b' : UInt8} {content' : Bytes} (hs : trimSpace s = [a] ++ (content ++ [b]))
    (hs' : trimSpace s = [a'] ++ (content' ++ [b'])) : a = a' ∧ content = content' := by
  obtain ⟨hhead, htail⟩ := List.cons.inj (hs.symm.trans hs')
  exact ⟨hhead, (List.append_inj' (show content ++ [b] = content' ++ [b'] from htail) rfl).1⟩

theorem clean_array (hs : trimSpace s = [openBracket] ++ (content ++ [closeBracket])) :
    Clean s ↔ ∀ part ∈ splitArguments (trimSpace content), Clean part := by
  constructor
  · intro h
    cases h with
    | plain _ harray _ => exact absurd (hs ▸ wrapped_middle content) harray
    | array hs' h => exact (content_eq hs hs').2 ▸ h
    | object hs' _ _ => exact absurd (content_eq hs hs').1 (by decide)
  · exact .array hs

theorem clean_object (hs : trimSpace s = [openBrace] ++ (content ++ [closeBrace])) :
    Clean s ↔ ∀ part ∈ splitArguments (trimSpace content), CleanEntry part := by
  constructor
  · intro h part hpart
    cases h with
    | plain _ _ hobject => exact absurd (hs ▸ wrapped_middle content) hobject
    | array hs' _ => exact absurd (content_eq hs hs').1 (by decide)
    | object hs' hkeys hvals =>
      obtain rfl := (content_eq hs hs').2
      exact ⟨hkeys part hpart, hvals part hpart⟩
  · exact fun h => .object hs (fun part hpart => (h part hpart).1) fun part hpart => (h part hpart).2

theorem lone_array (hs : trimSpace s = [openBracket] ++ (content ++ [closeBracket])) :
    Lone s ↔ FirstOf Clean Lone (splitArguments (trimSpace content)) := by
  constructor
  · intro h
    cases h with
    | quote h => exact absurd h (not_loneQuote _ _ hs)
    | item hs' hparts hbefore hpart => exact (content_eq hs hs').2 ▸ ⟨_, _, _, hparts, hbefore, hpart⟩
    | key hs' => exact absurd (content_eq hs hs').1 (by decide)
    | value hs' => exact absurd (content_eq hs hs').1 (by decide)
  · rintro ⟨before, part, after, hparts, hbefore, hpart⟩
    exact .item hs hparts hbefore hpart

theorem lone_object (hs : trimSpace s = [openBrace] ++ (content ++ [closeBrace])) :
    Lone s ↔ FirstOf CleanEntry LoneEntry (splitArguments (trimSpace content)) := by
  constructor
  · intro h
    cases h with
    | quote h => exact absurd h (not_loneQuote _ _ hs)
    | item hs' => exact absurd (content_eq hs hs').1 (by decide)
    | key hs' hparts hbefore hcut hkey =>
      exact (content_eq hs hs').2 ▸ ⟨_, _, _, hparts, hbefore, _, _, hcut, .inl hkey⟩
    | value hs' hparts hbefore hcut hkey hvalue =>
      exact (content_eq hs hs').2 ▸ ⟨_, _, _, hparts, hbefore, _, _, hcut, .inr ⟨hkey, hvalue⟩⟩
  · rintro ⟨before, part, after, hparts, hbefore, key, value, hcut, hkey | ⟨hkey, hvalue⟩⟩
    · exact .key hs hparts hbefore hcut hkey
    · exact .value hs hparts hbefore hcut hkey hvalue

end

variable {parseFloat : Bytes → Option F}

theorem unquote_object (key : Bytes) : (objectFormat.unquote key = none ↔ LoneQuote key) ∧
    ((∃ k, objectFormat.unquote key = some k) ↔ ¬ LoneQuote key) := by
  have hnone : objectFormat.unquote key = none ↔ LoneQuote key := by
    unfold objectFormat
    dsimp only
    constructor
    · intro h
      split_ifs at h with hquoted
      obtain hlone | ⟨inner, hinner⟩ := quoted_cases hquoted
      · exact hlone
      · rw [hinner] at h
        cases h
    · intro h
      obtain ⟨hquoted, hslice⟩ := slice_loneQuote h
      rw [if_pos hquoted, hslice]
  refine ⟨hnone, ?_⟩
  rw [← hnone, ← Option.isSome_iff_exists, Option.isSome_iff_ne_none]

theorem parseOlmo3Array_eq (parse : Bytes → Outcome (Value F)) (content : Bytes) : parseOlmo3Array parse content =
    (parseItems parse (splitArguments (trimSpace content))).map (Except.map .array) := by
  unfold parseOlmo3Array
  dsimp only
  split_ifs with hnil
  · rw [hnil]
    rfl
  · rfl

theorem parseOlmo3Object_eq (parse : Bytes → Outcome (Value F)) (content : Bytes) : parseOlmo3Object parse content =
    (parseEntries objectFormat parse (splitArguments (trimSpace content)) []).map (Except.map .object) := by
  unfold parseOlmo3Object
  dsimp only
  split_ifs with hnil
  · rw [hnil]
    rfl
  · rfl

theorem map_ok {α β : Type} {f : α → β} {r : Outcome α} :
    (∃ w, r.map (Except.map f) = some (.ok w)) ↔ ∃ v, r = some (.ok v) := by
  match r with
  | none => simp
  | some (.error e) => simp [Except.map]
  | some (.ok v) => simp [Except.map]

theorem not_clean_quote {s : Bytes} (h : LoneQuote (trimSpace s)) : ¬ Clean s := by
  intro hclean
  cases hclean with
  | plain hquote => exact hquote h
  | array hs => exact not_loneQuote _ _ hs h
  | object hs => exact not_loneQuote _ _ hs h

theorem not_lone_plain {s : Bytes} (hquote : ¬ LoneQuote (trimSpace s))
    (harray : ¬ wrapped [openBracket] [closeBracket] (trimSpace s)) (hobject : ¬ wrapped [openBrace] [closeBrace] (trimSpace s)) :
    ¬ Lone s := by
  intro hlone
  cases hlone with
  | quote h => exact hquote h
  | item hs => exact harray (hs ▸ wrapped_middle _)
  | key hs => exact hobject (hs ▸ wrapped_middle _)
  | value hs => exact hobject (hs ▸ wrapped_middle _)

/-- An entry is clean, or has a lone quotation mark, if its value is or has. -/
theorem entry_outcome {parse : Bytes → Outcome (Value F)} {part : Bytes} (h : ∀ key value,
    cut [colon] (trimSpace part) = some (key, value) → (parse (trimSpace value) = none ↔ Lone (trimSpace value)) ∧
      ((∃ v, parse (trimSpace value) = some (.ok v)) ↔ Clean (trimSpace value))) :
    (EntryOk objectFormat parse part ↔ CleanEntry part) ∧ (EntryPanics objectFormat parse part ↔ LoneEntry part) := by
  cases hcut : cut [colon] (trimSpace part) with
  | none =>
    have hcut' : cut [objectFormat.separator] (trimSpace part) = none := hcut
    simp [EntryOk, EntryPanics, CleanEntry, LoneEntry, WellKeyed, hcut, hcut']
  | some q =>
    obtain ⟨key, value⟩ := q
    have hcut' : cut [objectFormat.separator] (trimSpace part) = some (key, value) := hcut
    have hne : trimSpace part ≠ [] := by
      intro hnil
      rw [hnil] at hcut
      simp [cut] at hcut
    obtain ⟨hnone, hsome⟩ := unquote_object (trimSpace key)
    obtain ⟨hpanics, hok⟩ := h key value hcut
    rw [entryOk_iff hcut', entryPanics_iff hcut', hnone, hsome, hpanics, hok]
    simp [CleanEntry, LoneEntry, WellKeyed, hcut, hne]

/-- A value panics where it has a lone quotation mark and no error in front of it. -/
theorem parseOlmo3Value_outcome (hfloat : LawfulFloat parseFloat) (s : Bytes) :
    (parseOlmo3Value parseFloat s = none ↔ Lone s) ∧ ((∃ v, parseOlmo3Value parseFloat s = some (.ok v)) ↔ Clean s) := by
  induction hn : s.length using Nat.strongRecOn generalizing s with
  | _ n ih =>
    by_cases hquote : LoneQuote (trimSpace s)
    · obtain ⟨hquoted, hslice⟩ := slice_loneQuote hquote
      rw [parseOlmo3Value_quoted hquoted, hslice]
      exact ⟨⟨fun _ => .quote hquote, fun _ => rfl⟩, ⟨fun ⟨_, h⟩ => (nomatch h), fun h => absurd h (not_clean_quote hquote)⟩⟩
    have hshort : ∀ a b content, trimSpace s = [a] ++ (content ++ [b]) →
        ∀ part ∈ splitArguments (trimSpace content), part.length < n := by
      intro a b content hs part hpart
      have hlen := length_trimSpace_le s
      have hle := length_part hpart
      rw [hs] at hlen
      simp only [List.length_append, List.length_singleton] at hlen
      omega
    by_cases harray : wrapped [openBracket] [closeBracket] (trimSpace s)
    · obtain ⟨content, hs⟩ := (wrapped_bytes (by decide)).mp harray
      have hparts : ∀ part ∈ splitArguments (trimSpace content), _ := fun part hpart =>
        ih part.length (hshort _ _ content hs part hpart) part rfl
      rw [parseOlmo3Value_array hfloat hs, parseOlmo3Array_eq, map_ok, Option.map_eq_none_iff, parseItems_none, parseItems_ok,
        lone_array hs, clean_array hs]
      exact ⟨firstOf_congr (fun part hpart => (hparts part hpart).2) fun part hpart => (hparts part hpart).1,
        forall₂_congr fun part hpart => (hparts part hpart).2⟩
    by_cases hobject : wrapped [openBrace] [closeBrace] (trimSpace s)
    · obtain ⟨content, hs⟩ := (wrapped_bytes (by decide)).mp hobject
      have hparts : ∀ part ∈ splitArguments (trimSpace content), _ := fun part hpart =>
        @entry_outcome F (parseOlmo3Value parseFloat) part fun key value hcut =>
          ih _ ((length_entry hcut).2.trans (hshort _ _ content hs part hpart)) (trimSpace value) rfl
      rw [parseOlmo3Value_object hfloat hs, parseOlmo3Object_eq, map_ok, Option.map_eq_none_iff, parseEntries_none,
        parseEntries_ok, lone_object hs, clean_object hs]
      exact ⟨firstOf_congr (fun part hpart => (hparts part hpart).1) fun part hpart => (hparts part hpart).2,
        forall₂_congr fun part hpart => (hparts part hpart).1⟩
    · obtain ⟨w, hw⟩ := @parseOlmo3Value_plain F parseFloat s hquote harray hobject
      rw [hw]
      exact ⟨⟨fun h => (nomatch h), fun h => absurd h (not_lone_plain hquote harray hobject)⟩,
        ⟨fun _ => .plain hquote harray hobject, fun _ => ⟨w, rfl⟩⟩⟩

/-! ## Calls of Olmo 3 -/

/-- A part of the arguments that is blank or has a clean value. -/
def CleanArgument (part : Bytes) : Prop := trimSpace part ≠ [] → ∃ key value,
  cut [equalsSign] (trimSpace part) = some (key, value) ∧ Clean (trimSpace value)

def LoneArgument (part : Bytes) : Prop := ∃ key value,
  cut [equalsSign] (trimSpace part) = some (key, value) ∧ Lone (trimSpace value)

/-- A line that is blank or a call with clean arguments. -/
def CleanLine (line : Bytes) : Prop := trimSpace line ≠ [] → ∃ name args, funcCallRegex (trimSpace line) = some (name, args) ∧
  ∀ part ∈ splitArguments (trimSpace args), CleanArgument part

def LoneLine (line : Bytes) : Prop := trimSpace line ≠ [] ∧ ∃ name args, funcCallRegex (trimSpace line) = some (name, args) ∧
  FirstOf CleanArgument LoneArgument (splitArguments (trimSpace args))

/-- The first line that is not clean has a lone quotation mark in front of every error. -/
def LoneCalls (s : Bytes) : Prop := FirstOf CleanLine LoneLine (split (trimSpace s) [newline])

theorem parseOlmo3Arguments_outcome (hfloat : LawfulFloat parseFloat) (s : Bytes) :
    (parseOlmo3Arguments parseFloat s = none ↔ FirstOf CleanArgument LoneArgument (splitArguments (trimSpace s))) ∧
      ((∃ args, parseOlmo3Arguments parseFloat s = some (.ok args)) ↔
        ∀ part ∈ splitArguments (trimSpace s), CleanArgument part) := by
  have heq : parseOlmo3Arguments parseFloat s =
      parseEntries argumentFormat (parseOlmo3Value parseFloat) (splitArguments (trimSpace s)) [] := by
    unfold parseOlmo3Arguments
    dsimp only
    split_ifs with hnil
    · rw [hnil]
      rfl
    · rfl
  have hpart : ∀ part, (EntryOk argumentFormat (parseOlmo3Value parseFloat) part ↔ CleanArgument part) ∧
      (EntryPanics argumentFormat (parseOlmo3Value parseFloat) part ↔ LoneArgument part) := by
    intro part
    have hvalue := fun value => parseOlmo3Value_outcome hfloat (trimSpace value)
    simp only [EntryOk, EntryPanics, CleanArgument, LoneArgument, argumentFormat, (hvalue _).1, (hvalue _).2]
    simp
  rw [heq, parseEntries_none, parseEntries_ok]
  exact ⟨firstOf_congr (fun part _ => (hpart part).1) fun part _ => (hpart part).2, forall₂_congr fun part _ => (hpart part).1⟩

theorem parseOlmo3FunctionCalls_none (hfloat : LawfulFloat parseFloat) (s : Bytes) :
    parseOlmo3FunctionCalls parseFloat s = none ↔ LoneCalls s := by
  have hlines : ∀ lines, parseLines parseFloat lines = none ↔ FirstOf CleanLine LoneLine lines := by
    intro lines
    induction lines with
    | nil => simpa [parseLines] using not_firstOf_nil _ _
    | cons line lines ih =>
      rw [firstOf_cons, ← ih, parseLines]
      by_cases hblank : trimSpace line = []
      · simp [hblank, CleanLine, LoneLine]
      rw [if_neg hblank, parseOlmo3SingleFunctionCall]
      cases hregex : funcCallRegex (trimSpace line) with
      | none => simp [CleanLine, LoneLine, hblank, hregex]
      | some q =>
        obtain ⟨name, args⟩ := q
        obtain ⟨hnone, hok⟩ := parseOlmo3Arguments_outcome hfloat args
        have hclean : CleanLine line ↔ ∃ a, parseOlmo3Arguments parseFloat args = some (.ok a) := by
          rw [hok]
          simp [CleanLine, hblank, hregex]
        have hlone : LoneLine line ↔ parseOlmo3Arguments parseFloat args = none := by
          rw [hnone]
          simp [LoneLine, hblank, hregex]
        rw [hclean, hlone]
        dsimp only
        rcases parseOlmo3Arguments parseFloat args with _ | (e | a) <;> simp
  unfold parseOlmo3FunctionCalls LoneCalls
  dsimp only
  split_ifs with hnil
  · rw [← hlines, hnil]
    simp [split, splitUpTo, parseLines, trimSpace, Lib.trimLeft, Lib.trimRight, runes, runesUpTo]
  · exact hlines _

end Olmo3

/-! ## Calls of FunctionGemma -/

namespace FunctionGemma

/-- A text with a call one of whose arguments panics. -/
def LoneCall (content : Bytes) : Prop := ∃ name args, findCall content = some (name, args) ∧
  ∃ part ∈ splitArguments args, ∃ key value, cut [colon] part = some (key, value) ∧ LoneTag value

theorem parseToolCall_none {scanFloat : Bytes → Option F} (hscan : LawfulScan scanFloat) (content : Bytes) :
    (parseToolCall (parseArguments scanFloat) content).arguments = some none ↔ LoneCall content := by
  have hargs : ∀ args, parseArguments scanFloat args = none ↔
      ∃ part ∈ splitArguments args, ∃ key value, cut [colon] part = some (key, value) ∧ LoneTag value := by
    intro args
    unfold parseArguments
    split_ifs with hnil
    · rw [hnil]
      simp [splitArguments, splitLoop, Splitter.flush]
    · simp only [parseEntries_eq_none, parseValue_eq_none hscan]
  unfold parseToolCall LoneCall
  cases hfind : findCall content with
  | none => simp
  | some q =>
    obtain ⟨name, args⟩ := q
    simp [hargs]

end FunctionGemma

/-! ## The argument parsers -/

/-- A call list of LFM2 never panics. One of Olmo 3, and a call of FunctionGemma, panic only if a delimiter stands for both. -/
theorem parsers_return_iff {parseFloat scanFloat : Bytes → Option F} (unmarshal : Bytes → Option (Value F))
    (hfloat : Olmo3.LawfulFloat parseFloat) (hscan : FunctionGemma.LawfulScan scanFloat) (s : Bytes) :
    (Olmo3.parseOlmo3FunctionCalls parseFloat s ≠ none ↔ ¬ Olmo3.LoneCalls s) ∧
    ((FunctionGemma.parseToolCall (FunctionGemma.parseArguments scanFloat) s).arguments ≠ some none ↔
      ¬ FunctionGemma.LoneCall s) ∧
    LFM2.parseToolCallsContent parseFloat unmarshal s ≠ none :=
  ⟨not_congr (Olmo3.parseOlmo3FunctionCalls_none hfloat s), not_congr (FunctionGemma.parseToolCall_none hscan s),
    LFM2.parseToolCallsContent_returns s⟩

theorem parsers_return_word :
    (Olmo3.parseOlmo3FunctionCalls (fun _ => (none : Option Unit)) (ascii "f(k='v')") ≠ none ↔
      ¬ Olmo3.LoneCalls (ascii "f(k='v')")) ∧
    ((FunctionGemma.parseToolCall (FunctionGemma.parseArguments fun _ => (none : Option Unit)) (ascii "f(k='v')")).arguments ≠
      some none ↔ ¬ FunctionGemma.LoneCall (ascii "f(k='v')")) ∧
    LFM2.parseToolCallsContent (fun _ => none) (fun _ => (none : Option (Value Unit))) (ascii "f(k='v')") ≠ none :=
  parsers_return_iff (fun _ => none) (fun _ _ _ => rfl) (fun _ _ _ => rfl) (ascii "f(k='v')")

/-- A value that is one quotation mark, and one that is one tag. -/
theorem loneDelimiters_panic :
    Olmo3.parseOlmo3FunctionCalls (fun _ => (none : Option Unit)) (ascii "f(k=')") = none ∧
    (FunctionGemma.parseToolCall (FunctionGemma.parseArguments fun _ => (none : Option Unit))
      (ascii "call:f\x7bk:<escape>\x7d")).arguments = some none := by
  refine ⟨by decide +kernel, (FunctionGemma.parseToolCall_none (fun _ _ _ => rfl) _).mpr ?_⟩
  exact ⟨ascii "f", ascii "k:<escape>", by decide +kernel, ascii "k:<escape>", by decide +kernel, ascii "k", ascii "<escape>",
    by decide +kernel, .tag⟩

end Xdragon.Parsers
