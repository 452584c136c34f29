import Mathlib.Data.List.Basic

/-!
# Files as byte lists

A write at an offset replaces what is there, and fills a gap before it with zeros.
-/

namespace Xdragon.Lib

abbrev Bytes := List UInt8

instance : LawfulBEq Bytes := inferInstance

/-- Whether something holds of the bytes in a list is seen from the list, not from all bytes. -/
instance (priority := high) decidableForallMemByte (b : Bytes) (p : UInt8 → Prop) [DecidablePred p] : Decidable (∀ x ∈ b, p x) :=
  List.decidableBAll p b

instance (priority := high) decidableForallMemChar (s : List Char) (p : Char → Prop) [DecidablePred p] : Decidable (∀ x ∈ s, p x) :=
  List.decidableBAll p s

instance (priority := high) decidableForallMemOptionChar (o : Option Char) (p : Char → Prop) [DecidablePred p] :
    Decidable (∀ x ∈ o, p x) := Option.decidableForallMem o

instance (priority := high) decidableExistsMemOptionChar (o : Option Char) (p : Char → Prop) [DecidablePred p] :
    Decidable (∃ x ∈ o, p x) := Option.decidableExistsMem o

/-- The file after a write of `p` at `off`. Writing nothing changes nothing. -/
def writeAt (f : Bytes) (off : Nat) (p : Bytes) : Bytes :=
  if p = [] then f
  else f.take off ++ List.replicate (off - f.length) 0 ++ p ++ f.drop (off + p.length)

@[simp] theorem writeAt_nil (f : Bytes) (off : Nat) : writeAt f off [] = f := rfl

theorem length_writeAt {f p : Bytes} {off : Nat} (hp : p ≠ []) :
    (writeAt f off p).length = max f.length (off + p.length) := by
  unfold writeAt
  rw [if_neg hp]
  simp
  omega

theorem length_le_writeAt (f : Bytes) (off : Nat) (p : Bytes) : f.length ≤ (writeAt f off p).length := by
  by_cases hp : p = []
  · simp [hp]
  · rw [length_writeAt hp]
    omega

/-- The written bytes follow what was before them. -/
theorem take_writeAt_add {f : Bytes} {off : Nat} (p : Bytes) (h : off ≤ f.length) :
    (writeAt f off p).take (off + p.length) = f.take off ++ p := by
  unfold writeAt
  split_ifs with hp
  · simp [hp]
  · rw [Nat.sub_eq_zero_of_le h, List.replicate_zero, List.append_nil]
    apply List.take_left'
    simp [h]

/-- A place inside of the write. -/
theorem getElem?_writeAt_mem {f p : Bytes} {off i : Nat} (h1 : off ≤ i) (h2 : i < off + p.length) :
    (writeAt f off p)[i]? = p[i - off]? := by
  have hp : p ≠ [] := by
    rintro rfl
    simp at h2
    omega
  have hlen : (f.take off ++ List.replicate (off - f.length) (0 : UInt8)).length = off := by
    simp
    omega
  unfold writeAt
  rw [if_neg hp, List.append_assoc, List.getElem?_append_right (by omega), hlen,
    List.getElem?_append_left (by omega)]

/-- A place outside of the write. -/
theorem getElem?_writeAt_not_mem {f p : Bytes} {off i : Nat} (hi : i < f.length) (h : i < off ∨ off + p.length ≤ i) :
    (writeAt f off p)[i]? = f[i]? := by
  unfold writeAt
  split_ifs with hp
  · rfl
  · obtain h | h := h
    · rw [List.append_assoc, List.append_assoc, List.getElem?_append_left (by simp; omega), List.getElem?_take_of_lt h]
    · have hlen : (f.take off ++ List.replicate (off - f.length) (0 : UInt8) ++ p).length = off + p.length := by
        simp
        omega
      rw [List.getElem?_append_right (by omega), hlen, List.getElem?_drop]
      congr 1
      omega

/-- The gap that a write fills. -/
theorem getElem?_writeAt_gap {f p : Bytes} {off i : Nat} {b : UInt8} (hi : f.length ≤ i)
    (h : i < off ∨ off + p.length ≤ i) (hb : (writeAt f off p)[i]? = some b) : b = 0 := by
  have hlen := (List.getElem?_eq_some_iff.mp hb).1
  have hp : p ≠ [] := by
    rintro rfl
    rw [writeAt_nil] at hlen
    omega
  rw [length_writeAt hp] at hlen
  have hoff : i < off := by omega
  have htake : f.take off = f := List.take_of_length_le (by omega)
  unfold writeAt at hb
  rw [if_neg hp, htake, List.append_assoc, List.append_assoc, List.getElem?_append_right hi,
    List.getElem?_append_left (by rw [List.length_replicate]; omega)] at hb
  exact List.eq_of_mem_replicate (List.mem_of_getElem? hb)

/-- A piece of a file, byte by byte. -/
theorem take_drop_eq_iff {f p : Bytes} {off : Nat} :
    (f.drop off).take p.length = p ↔ ∀ i < p.length, f[off + i]? = p[i]? := by
  constructor
  · intro h i hi
    calc f[off + i]? = ((f.drop off).take p.length)[i]? := by rw [List.getElem?_take_of_lt hi, List.getElem?_drop]
      _ = p[i]? := by rw [h]
  · intro h
    apply List.ext_getElem?
    intro i
    by_cases hi : i < p.length
    · rw [List.getElem?_take_of_lt hi, List.getElem?_drop]
      exact h i hi
    · rw [List.getElem?_eq_none (by rw [List.length_take]; omega), List.getElem?_eq_none (by omega)]

end Xdragon.Lib
