import Mathlib.Algebra.BigOperators.Group.List.Basic
import Xdragon.Lib.Wire

/-!
# The GGUF format

The values of a GGUF file, and its header as bytes: little-endian, version 2 or 3. A float is its bits.
-/

namespace Xdragon.Gguf

open Xdragon.Lib

/-! ## Values -/

inductive ScalarType where
  | uint8
  | int8
  | uint16
  | int16
  | uint32
  | int32
  | float32
  | bool
  | uint64
  | int64
  | float64
  deriving DecidableEq

namespace ScalarType

def Carrier : ScalarType → Type
  | uint8 => UInt8
  | int8 => Int8
  | uint16 => UInt16
  | int16 => Int16
  | uint32 => UInt32
  | int32 => Int32
  | float32 => BitVec 32
  | bool => Bool
  | uint64 => UInt64
  | int64 => Int64
  | float64 => BitVec 64

instance (t : ScalarType) : DecidableEq t.Carrier := by
  cases t <;> unfold Carrier <;> infer_instance

/-- The number of bytes. -/
def size : ScalarType → Nat
  | uint8 | int8 | bool => 1
  | uint16 | int16 => 2
  | uint32 | int32 | float32 => 4
  | uint64 | int64 | float64 => 8

theorem size_pos (t : ScalarType) : 0 < t.size := by
  cases t <;> decide

def tag : ScalarType → Nat
  | uint8 => 0
  | int8 => 1
  | uint16 => 2
  | int16 => 3
  | uint32 => 4
  | int32 => 5
  | float32 => 6
  | bool => 7
  | uint64 => 10
  | int64 => 11
  | float64 => 12

theorem tag_lt (t : ScalarType) : t.tag < 256 ^ 4 := by
  cases t <;> decide

/-- The bits of a value. -/
def toNumber : (t : ScalarType) → t.Carrier → Nat
  | uint8, v => UInt8.toNat v
  | int8, v => (Int8.toBitVec v).toNat
  | uint16, v => UInt16.toNat v
  | int16, v => (Int16.toBitVec v).toNat
  | uint32, v => UInt32.toNat v
  | int32, v => (Int32.toBitVec v).toNat
  | float32, v => BitVec.toNat v
  | bool, v => Bool.toNat v
  | uint64, v => UInt64.toNat v
  | int64, v => (Int64.toBitVec v).toNat
  | float64, v => BitVec.toNat v

/-- The value of some bits. Each byte but 0 is true. -/
def ofNumber : (t : ScalarType) → Nat → t.Carrier
  | uint8, n => UInt8.ofNat n
  | int8, n => Int8.ofBitVec (BitVec.ofNat 8 n)
  | uint16, n => UInt16.ofNat n
  | int16, n => Int16.ofBitVec (BitVec.ofNat 16 n)
  | uint32, n => UInt32.ofNat n
  | int32, n => Int32.ofBitVec (BitVec.ofNat 32 n)
  | float32, n => BitVec.ofNat 32 n
  | bool, n => decide (n ≠ 0)
  | uint64, n => UInt64.ofNat n
  | int64, n => Int64.ofBitVec (BitVec.ofNat 64 n)
  | float64, n => BitVec.ofNat 64 n

theorem toNumber_lt (t : ScalarType) (v : t.Carrier) : t.toNumber v < 256 ^ t.size := by
  cases t with
  | uint8 => exact UInt8.toNat_lt v
  | int8 => exact (Int8.toBitVec v).isLt
  | uint16 => exact UInt16.toNat_lt v
  | int16 => exact (Int16.toBitVec v).isLt
  | uint32 => exact UInt32.toNat_lt v
  | int32 => exact (Int32.toBitVec v).isLt
  | float32 => exact BitVec.isLt v
  | bool =>
    have := Bool.toNat_le v
    simp only [toNumber, size]
    omega
  | uint64 => exact UInt64.toNat_lt v
  | int64 => exact (Int64.toBitVec v).isLt
  | float64 => exact BitVec.isLt v

theorem ofNumber_toNumber (t : ScalarType) (v : t.Carrier) : t.ofNumber (t.toNumber v) = v := by
  cases t with
  | uint8 => exact UInt8.ofNat_toNat
  | int8 =>
    simp only [ofNumber, toNumber, BitVec.ofNat_toNat, BitVec.setWidth_eq]
    exact Int8.ofBitVec_toBitVec v
  | uint16 => exact UInt16.ofNat_toNat
  | int16 =>
    simp only [ofNumber, toNumber, BitVec.ofNat_toNat, BitVec.setWidth_eq]
    exact Int16.ofBitVec_toBitVec v
  | uint32 => exact UInt32.ofNat_toNat
  | int32 =>
    simp only [ofNumber, toNumber, BitVec.ofNat_toNat, BitVec.setWidth_eq]
    exact Int32.ofBitVec_toBitVec v
  | float32 => exact BitVec.ofNat_toNat _ _
  | bool => cases v <;> rfl
  | uint64 => exact UInt64.ofNat_toNat
  | int64 =>
    simp only [ofNumber, toNumber, BitVec.ofNat_toNat, BitVec.setWidth_eq]
    exact Int64.ofBitVec_toBitVec v
  | float64 => exact BitVec.ofNat_toNat _ _

end ScalarType

/-- What a key of a file stands for. -/
inductive Datum where
  | scalar (t : ScalarType) (v : t.Carrier)
  | string (s : Bytes)
  | array (t : ScalarType) (vs : List t.Carrier)
  | strings (vs : List Bytes)

structure TensorInfo where
  name : Bytes
  shape : List UInt64
  kind : UInt32
  offset : UInt64

/-! ## Bytes -/

def encodeScalar (t : ScalarType) (v : t.Carrier) : Bytes := toLittle t.size (t.toNumber v)

def encodeString (s : Bytes) : Bytes := toLittle 8 s.length ++ s

def Datum.encode : Datum → Bytes
  | scalar t v => toLittle 4 t.tag ++ encodeScalar t v
  | string s => toLittle 4 8 ++ encodeString s
  | array t vs => toLittle 4 9 ++ (toLittle 4 t.tag ++ (toLittle 8 vs.length ++ vs.flatMap (encodeScalar t)))
  | strings vs => toLittle 4 9 ++ (toLittle 4 8 ++ (toLittle 8 vs.length ++ vs.flatMap encodeString))

def encodeKeyValue (kv : Bytes × Datum) : Bytes := encodeString kv.1 ++ kv.2.encode

def TensorInfo.encode (t : TensorInfo) : Bytes :=
  encodeString t.name ++ (toLittle 4 t.shape.length ++ (t.shape.flatMap (fun n => toLittle 8 n.toNat) ++
    (toLittle 4 t.kind.toNat ++ toLittle 8 t.offset.toNat)))

/-- The header of a file. -/
structure Header where
  version : Nat
  kvs : List (Bytes × Datum)
  tensors : List TensorInfo

/-- The letters GGUF. -/
def magic : Bytes := [0x47, 0x47, 0x55, 0x46]

def Header.encode (h : Header) : Bytes :=
  magic ++ (toLittle 4 h.version ++ (toLittle 8 h.tensors.length ++ (toLittle 8 h.kvs.length ++
    (h.kvs.flatMap encodeKeyValue ++ h.tensors.flatMap TensorInfo.encode))))

/-! ## Numbers -/

/-- `int` and `int64` of a number of 64 bits. -/
def toInt64 (n : Nat) : Int := if n < 2 ^ 63 then n else n - 2 ^ 64

theorem toInt64_of_lt {n : Nat} (h : n < 2 ^ 63) : toInt64 n = n := by
  rw [toInt64, if_pos h]

/-- The next multiple of `a`. -/
def alignUp (a n : Nat) : Nat := n + (a - n % a) % a

theorem le_alignUp (a n : Nat) : n ≤ alignUp a n := Nat.le_add_right _ _

theorem dvd_alignUp {a : Nat} (n : Nat) (ha : 0 < a) : a ∣ alignUp a n := by
  have hlt := Nat.mod_lt n ha
  have hdiv := Nat.div_add_mod n a
  unfold alignUp
  by_cases h0 : n % a = 0
  · rw [h0, Nat.sub_zero, Nat.mod_self]
    exact Nat.dvd_of_mod_eq_zero h0
  · rw [Nat.mod_eq_of_lt (by omega)]
    exact ⟨n / a + 1, by rw [Nat.mul_add]; omega⟩

/-! ## Lengths -/

theorem length_le_encodeString (s : Bytes) : s.length + 8 = (encodeString s).length := by
  rw [encodeString, List.length_append, length_toLittle, Nat.add_comm]

theorem length_le_flatMap {α : Type} (enc : α → Bytes) (as : List α) (h : ∀ a ∈ as, 0 < (enc a).length) :
    as.length ≤ (as.flatMap enc).length := by
  induction as with
  | nil => exact Nat.le_refl _
  | cons a as ih =>
    have h1 := h a (by simp)
    have h2 := ih fun b hb => h b (List.mem_cons_of_mem _ hb)
    rw [List.flatMap_cons, List.length_append, List.length_cons]
    omega

theorem length_mem_flatMap {α : Type} (enc : α → Bytes) {as : List α} {a : α} (h : a ∈ as) :
    (enc a).length ≤ (as.flatMap enc).length := by
  induction as with
  | nil => cases h
  | cons b as ih =>
    rw [List.flatMap_cons, List.length_append]
    obtain rfl | h := List.mem_cons.mp h
    · omega
    · have := ih h
      omega

/-- The lengths of a value are positive numbers of 64 bits. -/
def Datum.Small : Datum → Prop
  | .scalar _ _ => True
  | .string s => s.length < 2 ^ 63
  | .array _ vs => vs.length < 2 ^ 63
  | .strings vs => vs.length < 2 ^ 63 ∧ ∀ s ∈ vs, s.length < 2 ^ 63

structure Header.WellFormed (h : Header) : Prop where
  version : h.version = 2 ∨ h.version = 3
  dims : ∀ t ∈ h.tensors, t.shape.length < 2 ^ 32
  length : h.encode.length < 2 ^ 63

theorem length_encodeScalar (t : ScalarType) (v : t.Carrier) : (encodeScalar t v).length = t.size :=
  length_toLittle _ _

theorem Datum.small_of_length {d : Datum} (h : d.encode.length < 2 ^ 63) : d.Small := by
  cases d with
  | scalar t v => trivial
  | string s =>
    have := length_le_encodeString s
    simp only [Datum.encode, List.length_append] at h
    simp only [Datum.Small]
    omega
  | array t vs =>
    have := length_le_flatMap (encodeScalar t) vs fun v _ => by
      rw [length_encodeScalar]
      exact t.size_pos
    simp only [Datum.encode, List.length_append] at h
    simp only [Datum.Small]
    omega
  | strings vs =>
    simp only [Datum.encode, List.length_append] at h
    refine ⟨?_, fun s hs => ?_⟩
    · have := length_le_flatMap encodeString vs fun s _ => by
        have := length_le_encodeString s
        omega
      omega
    · have h1 := length_le_encodeString s
      have h2 := length_mem_flatMap encodeString hs
      omega

namespace Header

variable {h : Header} (hwf : h.WellFormed)
include hwf

theorem WellFormed.kvs_lt : (h.kvs.flatMap encodeKeyValue).length < 2 ^ 63 := by
  have := hwf.length
  simp only [encode, List.length_append] at this
  omega

theorem WellFormed.tensors_lt : (h.tensors.flatMap TensorInfo.encode).length < 2 ^ 63 := by
  have := hwf.length
  simp only [encode, List.length_append] at this
  omega

theorem WellFormed.kv {kv : Bytes × Datum} (hkv : kv ∈ h.kvs) : kv.1.length < 2 ^ 63 ∧ kv.2.Small := by
  have h1 := hwf.kvs_lt
  have h2 := length_mem_flatMap encodeKeyValue hkv
  have h3 := length_le_encodeString kv.1
  rw [encodeKeyValue, List.length_append] at h2
  exact ⟨by omega, Datum.small_of_length (by omega)⟩

theorem WellFormed.name {t : TensorInfo} (ht : t ∈ h.tensors) : t.name.length < 2 ^ 63 := by
  have h1 := hwf.tensors_lt
  have h2 := length_mem_flatMap TensorInfo.encode ht
  have h3 := length_le_encodeString t.name
  rw [TensorInfo.encode, List.length_append] at h2
  omega

theorem WellFormed.numKV : h.kvs.length < 2 ^ 63 := by
  have h1 := hwf.kvs_lt
  have h2 := length_le_flatMap encodeKeyValue h.kvs fun kv _ => by
    have := length_le_encodeString kv.1
    rw [encodeKeyValue, List.length_append]
    omega
  omega

theorem WellFormed.numTensor : h.tensors.length < 2 ^ 63 := by
  have h1 := hwf.tensors_lt
  have h2 := length_le_flatMap TensorInfo.encode h.tensors fun t _ => by
    have := length_le_encodeString t.name
    rw [TensorInfo.encode, List.length_append]
    omega
  omega

end Header

end Xdragon.Gguf
