import Xdragon.Lib.Assoc
import Xdragon.Lib.Decimal
import Xdragon.Lib.Nested
import Xdragon.Lib.Slice

/-!
# Values of arguments

The `any` that the parsers of `model/parsers` make of the text of an argument.
-/

namespace Xdragon.Parsers

open Xdragon.Lib

def doubleQuote : UInt8 := 0x22
def singleQuote : UInt8 := 0x27
def backslash : UInt8 := 0x5c
def comma : UInt8 := 0x2c
def colon : UInt8 := 0x3a
def equalsSign : UInt8 := 0x3d
def newline : UInt8 := 0x0a
def openParen : UInt8 := 0x28
def closeParen : UInt8 := 0x29
def openBracket : UInt8 := 0x5b
def closeBracket : UInt8 := 0x5d
def openBrace : UInt8 := 0x7b
def closeBrace : UInt8 := 0x7d

inductive Value (F : Type) where
  | null
  | bool (b : Bool)
  | int (i : Int)
  | float (f : F)
  | string (s : Bytes)
  | array (items : List (Value F))
  | object (entries : List (Bytes × Value F))

/-- `map[string]any` and `api.ToolCallFunctionArguments`. -/
abbrev Entries (F : Type) := List (Bytes × Value F)

theorem Value.sizeOf_item {F : Type} {items : List (Value F)} {v : Value F} (h : v ∈ items) :
    sizeOf v < sizeOf (Value.array items) := by
  have := List.sizeOf_lt_of_mem h
  simp only [Value.array.sizeOf_spec]
  omega

theorem Value.sizeOf_entry {F : Type} {entries : Entries F} {e : Bytes × Value F} (h : e ∈ entries) :
    sizeOf e.2 < sizeOf (Value.object entries) := by
  have := List.sizeOf_lt_of_mem h
  have hpair : sizeOf e = 1 + sizeOf e.1 + sizeOf e.2 := Prod.mk.sizeOf_spec ..
  simp only [Value.object.sizeOf_spec]
  omega

/-! ## Delimiters -/

/-- The prefix and the suffix of a text, which may overlap. -/
def wrapped (opening closing value : Bytes) : Prop := opening <+: value ∧ closing <:+ value

instance (opening closing value : Bytes) : Decidable (wrapped opening closing value) := inferInstanceAs (Decidable (_ ∧ _))

variable {opening closing value : Bytes}

theorem wrapped_middle (content : Bytes) : wrapped opening closing (opening ++ (content ++ closing)) :=
  ⟨List.prefix_append _ _, (List.suffix_append content closing).trans (List.suffix_append _ _)⟩

theorem slice_wrapped (content : Bytes) : slice (opening ++ (content ++ closing)) opening.length
    ((opening ++ (content ++ closing)).length - closing.length) = some content := by
  have hhi : (opening ++ (content ++ closing)).length - closing.length = opening.length + content.length := by
    simp only [List.length_append]
    omega
  rw [hhi]
  exact slice_middle opening content closing

theorem slice_bytes (a b : UInt8) (content : Bytes) :
    slice (a :: (content ++ [b])) 1 ((a :: (content ++ [b])).length - 1) = some content :=
  @slice_wrapped [a] [b] content

/-- The content of a text that is long enough for both delimiters. -/
theorem wrapped_content (h : wrapped opening closing value) (hlen : opening.length + closing.length ≤ value.length) :
    ∃ content, value = opening ++ (content ++ closing) := by
  obtain ⟨⟨rest, rfl⟩, hsuf⟩ := h
  rw [List.length_append] at hlen
  obtain ⟨content, rfl⟩ := List.suffix_of_suffix_length_le hsuf (List.suffix_append _ _) (by omega)
  exact ⟨content, rfl⟩

/-- A byte can be the prefix and the suffix of itself. -/
theorem wrapped_byte {a : UInt8} : wrapped [a] [a] value ↔ value = [a] ∨ ∃ content, value = [a] ++ (content ++ [a]) := by
  constructor
  · intro h
    by_cases hlen : 2 ≤ value.length
    · exact .inr (wrapped_content h hlen)
    · obtain ⟨⟨rest, rfl⟩, -⟩ := h
      rw [List.length_append, List.length_singleton] at hlen
      obtain rfl := List.length_eq_zero_iff.mp (show rest.length = 0 by omega)
      exact .inl rfl
  · rintro (rfl | ⟨content, rfl⟩)
    · exact ⟨List.prefix_rfl, List.suffix_rfl⟩
    · exact wrapped_middle content

/-- Two bytes that differ are the ends of no single byte. -/
theorem wrapped_bytes {a b : UInt8} (hab : a ≠ b) : wrapped [a] [b] value ↔ ∃ content, value = [a] ++ (content ++ [b]) := by
  constructor
  · intro h
    refine wrapped_content h (Nat.not_lt.mp fun hlt => hab ?_)
    obtain ⟨⟨rest, rfl⟩, hsuf⟩ := h
    simp only [List.length_append, List.length_singleton] at hlt
    obtain rfl := List.length_eq_zero_iff.mp (show rest.length = 0 by omega)
    have hone := hsuf.eq_of_length rfl
    exact ((List.cons.injEq ..).mp hone).1.symm
  · rintro ⟨content, rfl⟩
    exact wrapped_middle content

end Xdragon.Parsers
