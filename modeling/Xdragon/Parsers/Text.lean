import Xdragon.Lib.Rounds
import Xdragon.Lib.Tags
import Xdragon.Lib.Utf8

/-!
# The helpers of the model parsers

The chunks are valid UTF-8, so a string is the list of its characters.
-/

namespace Xdragon.Parsers

open Xdragon.Lib

abbrev Str := List Char

/-- `strings.TrimLeftFunc(s, unicode.IsSpace)`. -/
def trimLeft (s : Str) : Str := s.dropWhile isSpace

/-- `strings.TrimRightFunc(s, unicode.IsSpace)`. -/
def trimRight (s : Str) : Str := s.rdropWhile isSpace

/-- The text before the tag, the text after it, and the buffer then. -/
def splitAtTag (buffer tag : Str) (trimAfter : Bool) : Str × Str × Str :=
  match cut tag buffer with
  | none => (buffer, [], [])
  | some (before, after) =>
    let after := if trimAfter then trimLeft after else after
    (trimRight before, after, after)

def trailingWhitespaceLen (s : Str) : Nat := (s.rtakeWhile isSpace).length

/-- The unambiguous part of a buffer without the tag, and the ambiguous one: a partial tag and the
white space before it. -/
def splitAmbiguous (buffer tag : Str) : Str × Str :=
  let overlapLen := overlap buffer tag
  if overlapLen > 0 then
    let beforePartialTag := buffer.take (buffer.length - overlapLen)
    let ambiguousStart := beforePartialTag.length - trailingWhitespaceLen beforePartialTag
    (buffer.take ambiguousStart, buffer.drop ambiguousStart)
  else
    let ambiguousStart := buffer.length - trailingWhitespaceLen buffer
    (buffer.take ambiguousStart, buffer.drop ambiguousStart)

/-! ## White space -/

theorem length_trimLeft (s : Str) : (trimLeft s).length ≤ s.length := (List.dropWhile_suffix isSpace).length_le

theorem trimLeft_append (s c : Str) : trimLeft (s ++ c) = if trimLeft s = [] then trimLeft c else trimLeft s ++ c := by
  unfold trimLeft
  rw [List.dropWhile_append]
  simp only [List.isEmpty_iff]

theorem trimLeft_trimLeft (s : Str) : trimLeft (trimLeft s) = trimLeft s := List.dropWhile_idempotent ..

theorem space_append_trimLeft (s : Str) : s.takeWhile isSpace ++ trimLeft s = s := List.takeWhile_append_dropWhile

theorem clear_space {tag : Str} (htag : ∀ x ∈ tag, isSpace x = false) (hne : tag ≠ []) (s : Str) :
    Clear tag (s.takeWhile isSpace) :=
  clear_of_space htag hne fun _ hx => List.mem_takeWhile_imp hx

theorem trimRight_trimRight (s : Str) : trimRight (trimRight s) = trimRight s := List.rdropWhile_idempotent ..

theorem length_sub_trailing (s : Str) : s.length - trailingWhitespaceLen s = (trimRight s).length := by
  have hlen := congrArg List.length (List.rdropWhile_append_rtakeWhile (p := isSpace) (l := s))
  rw [List.length_append] at hlen
  unfold trailingWhitespaceLen trimRight
  omega

theorem splitAmbiguous_eq (buffer tag : Str) :
    splitAmbiguous buffer tag = (settled isSpace tag buffer, pending isSpace tag buffer) := by
  have hsplit : splitAmbiguous buffer tag = (buffer.take (settled isSpace tag buffer).length,
      buffer.drop (settled isSpace tag buffer).length) := by
    unfold splitAmbiguous settled released
    dsimp only
    split_ifs with h
    · rw [length_sub_trailing]
      rfl
    · obtain h0 : overlap buffer tag = 0 := by omega
      rw [length_sub_trailing, h0, Nat.sub_zero, List.take_length]
      rfl
  have hbuffer := settled_append_pending isSpace tag buffer
  rw [hsplit]
  generalize settled isSpace tag buffer = e at hbuffer ⊢
  generalize pending isSpace tag buffer = r at hbuffer ⊢
  rw [← hbuffer, List.take_left, List.drop_left]

end Xdragon.Parsers
