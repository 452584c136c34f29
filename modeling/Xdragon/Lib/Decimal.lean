import Mathlib.Data.List.TakeWhile
import Xdragon.Lib.Wire

/-!
# Decimal numbers

The decimal text of an integer, and what `strconv.ParseInt` and `fmt.Sscanf` read from a text.
-/

namespace Xdragon.Lib

def plus : UInt8 := 0x2b
def minus : UInt8 := 0x2d

def isDigit (b : UInt8) : Bool := 0x30 ≤ b && b ≤ 0x39

/-- `fmt.Sprintf("%d", i)`. -/
def decimal (i : Int) : Bytes := ascii (toString i)

/-- The number of a text of digits. -/
def parseDigits (digits : Bytes) : Option Nat :=
  if digits ≠ [] ∧ digits.all isDigit then
    some (Nat.ofDigitChars 10 (digits.map fun b => Char.ofNat b.toNat) 0)
  else none

def signed (s : Bytes) : Bool := s.head? = some plus || s.head? = some minus

/-- `strconv.ParseInt(s, 10, 64)`. -/
def parseInt (s : Bytes) : Option Int :=
  (parseDigits (if signed s then s.tail else s)).bind fun n =>
    let i : Int := if s.head? = some minus then -n else n
    if -2 ^ 63 ≤ i ∧ i < 2 ^ 63 then some i else none

/-- `fmt.Sscanf(s, "%d", &i)` of a text without white space in front, whatever follows the digits. -/
def scanInt (s : Bytes) : Option Int :=
  parseInt (if signed s then s.take 1 ++ s.tail.takeWhile isDigit else s.takeWhile isDigit)

/-- An integer of 64 bits. -/
def InInt64 (i : Int) : Prop := -2 ^ 63 ≤ i ∧ i < 2 ^ 63

instance (i : Int) : Decidable (InInt64 i) := inferInstanceAs (Decidable (_ ∧ _))

/-! ## The text of an integer -/

theorem digit_of_isDigit {c : Char} (h : c.isDigit = true) :
    isDigit c.toNat.toUInt8 = true ∧ Char.ofNat c.toNat.toUInt8.toNat = c := by
  simp only [Char.isDigit, Bool.and_eq_true, decide_eq_true_eq, UInt32.le_iff_toNat_le] at h
  have hle : 48 ≤ c.toNat := h.1
  have hge : c.toNat ≤ 57 := h.2
  have hmod : c.toNat.toUInt8.toNat = c.toNat := by
    rw [Nat.toUInt8, UInt8.toNat_ofNat']
    exact Nat.mod_eq_of_lt (by omega)
  constructor
  · simp only [isDigit, Bool.and_eq_true, decide_eq_true_eq, UInt8.le_iff_toNat_le, hmod]
    exact ⟨hle, hge⟩
  · rw [hmod, Char.ofNat_toNat]

theorem digits_ascii_repr (n : Nat) : (ascii (toString n)).all isDigit = true ∧ ascii (toString n) ≠ [] ∧
    (ascii (toString n)).map (fun b => Char.ofNat b.toNat) = Nat.toDigits 10 n := by
  have hlist : (toString n).toList = Nat.toDigits 10 n := Nat.toList_repr
  have hdigit : ∀ c ∈ Nat.toDigits 10 n, c.isDigit = true := fun c =>
    Nat.isDigit_of_mem_toDigits (by decide) (by decide)
  unfold ascii
  rw [hlist]
  refine ⟨?_, ?_, ?_⟩
  · simp only [List.all_map, List.all_eq_true]
    exact fun c hc => (digit_of_isDigit (hdigit c hc)).1
  · simp [Nat.toDigits_ne_nil]
  · rw [List.map_map]
    exact (List.map_congr_left fun c hc => (digit_of_isDigit (hdigit c hc)).2).trans (List.map_id _)

theorem parseDigits_repr (n : Nat) : parseDigits (ascii (toString n)) = some n := by
  obtain ⟨hall, hne, hchars⟩ := digits_ascii_repr n
  rw [parseDigits, if_pos ⟨hne, hall⟩, hchars, Nat.ofDigitChars_ten_toDigits]

theorem not_signed_digits {s : Bytes} (h : s.all isDigit = true) : signed s = false ∧ s.head? ≠ some minus := by
  cases s with
  | nil => exact ⟨rfl, fun h => nomatch h⟩
  | cons b s =>
    have hb : isDigit b = true := (List.all_eq_true.mp h) b (List.mem_cons_self ..)
    have hplus : b ≠ plus := by rintro rfl; exact absurd hb (by decide)
    have hminus : b ≠ minus := by rintro rfl; exact absurd hb (by decide)
    simp [signed, hplus, hminus]

/-- The digits of an integer, and the sign of a negative one. -/
theorem decimal_cases (i : Int) : ∃ n : Nat, (i = n ∧ decimal i = ascii (toString n)) ∨
    (i = -n ∧ decimal i = minus :: ascii (toString n)) := by
  cases i with
  | ofNat n => exact ⟨n, .inl ⟨rfl, rfl⟩⟩
  | negSucc m =>
    refine ⟨m + 1, .inr ⟨by omega, ?_⟩⟩
    unfold decimal
    rw [Int.toString_eq_repr, Int.repr]
    simp [ascii, String.toList_append]
    rfl

theorem parseInt_decimal (i : Int) : parseInt (decimal i) = if InInt64 i then some i else none := by
  obtain ⟨n, ⟨rfl, hdec⟩ | ⟨rfl, hdec⟩⟩ := decimal_cases i
  · obtain ⟨hsign, hminus⟩ := not_signed_digits (digits_ascii_repr n).1
    rw [hdec, parseInt, hsign, if_neg Bool.false_ne_true, parseDigits_repr, Option.bind_some, if_neg hminus]
    rfl
  · rw [hdec, parseInt, show signed (minus :: ascii (toString n)) = true by simp [signed], if_pos rfl, List.tail_cons,
      parseDigits_repr, Option.bind_some, List.head?_cons, if_pos rfl]
    rfl

theorem scanInt_decimal (i : Int) : scanInt (decimal i) = if InInt64 i then some i else none := by
  have hall : ∀ n : Nat, (ascii (toString n)).takeWhile isDigit = ascii (toString n) := fun n =>
    List.takeWhile_eq_self_iff.mpr (List.all_eq_true.mp (digits_ascii_repr n).1)
  rw [← parseInt_decimal, scanInt]
  obtain ⟨n, ⟨rfl, hdec⟩ | ⟨rfl, hdec⟩⟩ := decimal_cases i
  · rw [hdec, (not_signed_digits (digits_ascii_repr n).1).1, if_neg Bool.false_ne_true, hall]
  · rw [hdec, show signed (minus :: ascii (toString n)) = true by simp [signed], if_pos rfl, List.tail_cons, hall]
    rfl

/-- A number starts with a digit or a sign. -/
theorem parseInt_none {b : UInt8} (hb : isDigit b = false) (hsign : b ≠ plus ∧ b ≠ minus) (s : Bytes) :
    parseInt (b :: s) = none := by
  have hdigits : parseDigits (b :: s) = none := by simp [parseDigits, hb]
  rw [parseInt, show signed (b :: s) = false by simp [signed, hsign], if_neg Bool.false_ne_true, hdigits]
  rfl

theorem scanInt_none {b : UInt8} (hb : isDigit b = false) (hsign : b ≠ plus ∧ b ≠ minus) (s : Bytes) :
    scanInt (b :: s) = none := by
  rw [scanInt, show signed (b :: s) = false by simp [signed, hsign], if_neg Bool.false_ne_true,
    List.takeWhile_cons_of_neg (by simp [hb])]
  rfl

theorem inInt64_of_parseInt {s : Bytes} {i : Int} (h : parseInt s = some i) : InInt64 i := by
  unfold parseInt at h
  obtain ⟨n, -, h⟩ := Option.bind_eq_some_iff.mp h
  dsimp only at h
  split_ifs at h with _ hin hin <;>
  · obtain rfl := Option.some.inj h
    exact hin

theorem mem_decimal {i : Int} {b : UInt8} (h : b ∈ decimal i) : isDigit b = true ∨ b = minus := by
  obtain ⟨n, ⟨rfl, hdec⟩ | ⟨rfl, hdec⟩⟩ := decimal_cases i
  · rw [hdec] at h
    exact .inl (List.all_eq_true.mp (digits_ascii_repr n).1 b h)
  · rw [hdec] at h
    obtain rfl | h := List.mem_cons.mp h
    · exact .inr rfl
    · exact .inl (List.all_eq_true.mp (digits_ascii_repr n).1 b h)

theorem decimal_ne_nil (i : Int) : decimal i ≠ [] := by
  obtain ⟨n, ⟨rfl, hdec⟩ | ⟨rfl, hdec⟩⟩ := decimal_cases i
  · exact hdec ▸ (digits_ascii_repr n).2.1
  · exact hdec ▸ List.cons_ne_nil _ _

end Xdragon.Lib
