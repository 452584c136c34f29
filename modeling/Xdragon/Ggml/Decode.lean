import Mathlib.Data.List.AList
import Xdragon.Gguf.Format

/-!
# Decoding a GGUF file

`ggml.Decode` of `fs/ggml/ggml.go` and `fs/ggml/gguf.go`. The buffered seeker is the position in the file. `none`
stands for a panic.
-/

namespace Xdragon.Ggml

open Xdragon.Lib Xdragon.Gguf

/-! ## Key-values -/

/-- `array[T]`. -/
structure ArrayValue (α : Type) where
  size : Int
  /-- Nil if the array is larger than the limit. -/
  values : Option (List α)

/-- A value of `KV`. The arrays of a datum are slices. -/
inductive Value where
  | datum (d : Datum)
  | fileType (v : UInt32)
  | array (t : ScalarType) (a : ArrayValue t.Carrier)
  | stringArray (a : ArrayValue Bytes)

abbrev KV := AList fun _ : Bytes => Value

namespace KV

def getString (kv : KV) (key : Bytes) : Option Bytes :=
  match kv.lookup key with
  | some (.datum (.string s)) => some s
  | _ => none

/-- `general.architecture` needs no prefix. -/
def architecture (kv : KV) : Bytes := (kv.getString (ascii "general.architecture")).getD (ascii "unknown")

/-- The key that `keyValue` looks up. -/
def keyName (kv : KV) (key : Bytes) : Bytes :=
  if ¬ ascii "tokenizer." <+: key ∧ ¬ ascii "general." <+: key then kv.architecture ++ ascii "." ++ key else key

def string (kv : KV) (key : Bytes) (default : Bytes) : Bytes := (kv.getString (kv.keyName key)).getD default

def uint (kv : KV) (key : Bytes) (default : UInt32) : UInt32 :=
  match kv.lookup (kv.keyName key) with
  | some (.datum (.scalar .uint32 v)) => v
  | _ => default

end KV

/-! ## Tensors -/

namespace TensorType

abbrev f32 : UInt32 := 0
abbrev f16 : UInt32 := 1
abbrev q4_0 : UInt32 := 2
abbrev q4_1 : UInt32 := 3
abbrev q4_2 : UInt32 := 4
abbrev q5_0 : UInt32 := 6
abbrev q5_1 : UInt32 := 7
abbrev q8_0 : UInt32 := 8
abbrev q8_1 : UInt32 := 9
abbrev q2_K : UInt32 := 10
abbrev q3_K : UInt32 := 11
abbrev q4_K : UInt32 := 12
abbrev q5_K : UInt32 := 13
abbrev q6_K : UInt32 := 14
abbrev q8_K : UInt32 := 15
abbrev iq2_XXS : UInt32 := 16
abbrev iq2_XS : UInt32 := 17
abbrev iq3_XXS : UInt32 := 18
abbrev iq1_S : UInt32 := 19
abbrev iq4_NL : UInt32 := 20
abbrev iq3_S : UInt32 := 21
abbrev iq2_S : UInt32 := 22
abbrev iq4_XS : UInt32 := 23
abbrev i8 : UInt32 := 24
abbrev i16 : UInt32 := 25
abbrev i32 : UInt32 := 26
abbrev i64 : UInt32 := 27
abbrev f64 : UInt32 := 28
abbrev iq1_M : UInt32 := 29
abbrev bf16 : UInt32 := 30
abbrev mxfp4 : UInt32 := 39

def blockSize (t : UInt32) : UInt64 :=
  if t ∈ [f32, f16, i8, i16, i32, i64, f64, bf16] then 1
  else if t ∈ [q4_0, q4_1, q5_0, q5_1, q8_0, q8_1, iq4_NL, q4_2, mxfp4] then 32
  else 256

def typeSize (t : UInt32) : UInt64 :=
  let blockSize := blockSize t
  if t = f32 then 4
  else if t = f16 then 2
  else if t = q4_0 then 2 + blockSize / 2
  else if t = q4_1 then 2 + 2 + blockSize / 2
  else if t = q5_0 then 2 + 4 + blockSize / 2
  else if t = q5_1 then 2 + 2 + 4 + blockSize / 2
  else if t = q8_0 then 2 + blockSize
  else if t = q8_1 then 2 + 2 + blockSize
  else if t = q2_K then blockSize / 16 + blockSize / 4 + 2 + 2
  else if t = q3_K then blockSize / 8 + blockSize / 4 + 12 + 2
  else if t = q4_K then 2 + 2 + 12 + blockSize / 2
  else if t = q5_K then 2 + 2 + 12 + blockSize / 8 + blockSize / 2
  else if t = q6_K then blockSize / 2 + blockSize / 4 + blockSize / 16 + 2
  else if t = q8_K then 4 + blockSize + 2 * blockSize / 16
  else if t = iq2_XXS then 2 + 2 * blockSize / 8
  else if t = iq2_XS then 2 + 2 * blockSize / 8 + blockSize / 32
  else if t = iq3_XXS then 2 + blockSize / 4 + blockSize / 8
  else if t = iq1_S then 2 + blockSize / 8 + blockSize / 16
  else if t = iq4_NL then 2 + blockSize / 2
  else if t = iq3_S then 2 + blockSize / 4 + blockSize / 8 + blockSize / 32 + 4
  else if t = iq2_S then 2 + blockSize / 4 + blockSize / 16
  else if t = iq4_XS then 2 + 2 + blockSize / 2 + blockSize / 64
  else if t = i8 then 1
  else if t = i16 then 2
  else if t = i32 then 4
  else if t = i64 then 8
  else if t = f64 then 8
  else if t = iq1_M then blockSize / 8 + blockSize / 16 + blockSize / 32
  else if t = bf16 then 2
  else if t = q4_2 ∨ t = mxfp4 then 1 + blockSize / 2
  else 0

end TensorType

/-- `Elements` of a tensor of this shape. -/
def elements (shape : List UInt64) : UInt64 := shape.foldl (· * ·) 1

/-- `Size` of a tensor. -/
def tensorSize (kind : UInt32) (shape : List UInt64) : UInt64 :=
  elements shape * TensorType.typeSize kind / TensorType.blockSize kind

/-! ## Reading -/

inductive DecodeError where
  | eof
  | unexpectedEof
  | invalidMagic
  | invalidType (t : Nat)
  | invalidArrayType (t : Nat)
  /-- While `what` of a tensor was read. -/
  | tensor (what : String) (e : DecodeError)
  | seek (target : String)

def DecodeError.text : DecodeError → String
  | .eof => "EOF"
  | .unexpectedEof => "unexpected EOF"
  | .invalidMagic => "invalid file magic"
  | .invalidType t => "invalid type: " ++ toString t
  | .invalidArrayType t => "invalid array type: " ++ toString t
  | .tensor what e => "failed to read tensor " ++ what ++ ": " ++ e.text
  | .seek target => "failed to seek to " ++ target

/-- The error of `io.ReadFull`. -/
def shortError (input : Bytes) : DecodeError := if input = [] then .eof else .unexpectedEof

structure ContainerGGUF where
  byteOrder : ByteOrder
  version : Nat
  numTensor : Nat
  numKV : Nat
  maxArraySize : Int
  /-- The largest slice that can be made, in bytes. `none` is no limit. -/
  maxAlloc : Option Nat

section
variable (c : ContainerGGUF)

/-- `make` of a slice. A length that is negative, or too large, is a panic. -/
def make (width : Nat) (n : Int) : Reader DecodeError Unit :=
  if n < 0 ∨ c.maxAlloc.any (· < width * n.toNat) then .crash else pure ()

def readNumber (width : Nat) : Reader DecodeError Nat := .number shortError c.byteOrder width

def readGGUF (t : ScalarType) : Reader DecodeError t.Carrier := do
  let n ← readNumber c t.size
  return t.ofNumber n

/-- `io.CopyN` copies nothing for a negative length. -/
def readGGUFV1String : Reader DecodeError Bytes := do
  let length ← readNumber c 8
  let b ← Reader.bytes (fun _ => .eof) (toInt64 length).toNat
  -- gguf v1 strings are null-terminated
  if b = [] then .crash else return b.dropLast

/-- The buffer for a string: a part of `scratch`, if it is large enough. -/
def stringBuffer (length : Int) : Reader DecodeError Unit :=
  if 16 <<< 10 < length then make c 1 length
  else if length < 0 then .crash
  else pure ()

def readGGUFString : Reader DecodeError Bytes :=
  if c.version = 1 then readGGUFV1String c
  else do
    let length ← readNumber c 8
    stringBuffer c (toInt64 length)
    .bytes shortError (toInt64 length).toNat

def discardGGUFString : Reader DecodeError Unit := do
  let size ← readNumber c 8
  let _ ← Reader.bytes (fun _ => DecodeError.eof) (toInt64 size).toNat
  return ()

/-- The values of `newArray` are not nil. -/
def keepsArray (size : Int) : Bool := c.maxArraySize < 0 ∨ size ≤ c.maxArraySize

/-- An element takes `width` bytes in memory. -/
def newArray (width : Nat) (size : Int) : Reader DecodeError Unit :=
  if keepsArray c size then make c width size else pure ()

def readGGUFArrayData (t : ScalarType) (size : Nat) : Reader DecodeError (ArrayValue t.Carrier) := do
  let values ← (readGGUF c t).times size
  return { size := size, values := if keepsArray c size then some values else none }

/-- `readGGUFStringsData` and `readGGUFV1StringsData`. -/
def readGGUFStringsData (size : Nat) : Reader DecodeError (ArrayValue Bytes) :=
  if keepsArray c size then do
    let values ← (readGGUFString c).times size
    return { size := size, values := some values }
  else do
    let _ ← (Reader.ignore (discardGGUFString c)).times size
    return { size := size, values := none }

end

def ggufType : Nat → Option ScalarType
  | 0 => some .uint8
  | 1 => some .int8
  | 2 => some .uint16
  | 3 => some .int16
  | 4 => some .uint32
  | 5 => some .int32
  | 6 => some .float32
  | 7 => some .bool
  | 10 => some .uint64
  | 11 => some .int64
  | 12 => some .float64
  | _ => none

def ggufTypeString : Nat := 8
def ggufTypeArray : Nat := 9

section
variable (c : ContainerGGUF)

def readGGUFArray : Reader DecodeError Value := do
  let t ← readNumber c 4
  let n ← readNumber c 8
  match ggufType t with
  | some t =>
    newArray c t.size (toInt64 n)
    let a ← readGGUFArrayData c t (toInt64 n).toNat
    return .array t a
  | none =>
    if t = ggufTypeString then
      newArray c 16 (toInt64 n)
      let a ← readGGUFStringsData c (toInt64 n).toNat
      return .stringArray a
    else .fail (.invalidArrayType t)

def readKeyValue : Reader DecodeError (Bytes × Value) := do
  let k ← readGGUFString c
  let t ← readNumber c 4
  match ggufType t with
  | some t =>
    let v ← readGGUF c t
    return (k, .datum (.scalar t v))
  | none =>
    if t = ggufTypeString then
      let s ← readGGUFString c
      return (k, .datum (.string s))
    else if t = ggufTypeArray then
      let v ← readGGUFArray c
      return (k, v)
    else .fail (.invalidType t)

def readTensor : Reader DecodeError TensorInfo := do
  let name ← (readGGUFString c).wrap (.tensor "name")
  let dims ← (readNumber c 4).wrap (.tensor "dimensions")
  make c 8 dims
  let shape ← ((readGGUF c .uint64).wrap (.tensor "shape")).times dims
  let kind ← (readGGUF c .uint32).wrap (.tensor "kind")
  let offset ← (readGGUF c .uint64).wrap (.tensor "offset")
  return { name := name, shape := shape, kind := kind, offset := offset }

/-- The key-values and tensors of `gguf.Decode`. -/
def readContents : Reader DecodeError (KV × List TensorInfo) := do
  let kvs ← (readKeyValue c).times c.numKV
  let tensors ← (readTensor c).times c.numTensor
  return (kvs.foldl (fun kv e => kv.insert e.1 e.2) ∅, tensors)

end

/-- `containerGGUF.Decode` before the contents. The counts are one struct. -/
def readContainer (maxAlloc : Option Nat) (byteOrder : ByteOrder) (maxArraySize : Int) :
    Reader DecodeError ContainerGGUF := do
  let version ← Reader.number shortError byteOrder 4
  let width := if version = 1 then 4 else 8
  let counts ← Reader.bytes shortError (width + width)
  return {
    byteOrder := byteOrder
    version := version
    numTensor := byteOrder.number (counts.take width)
    numKV := byteOrder.number (counts.drop width)
    maxArraySize := maxArraySize
    maxAlloc := maxAlloc }

def FILE_MAGIC_GGUF_LE : Nat := 0x46554747
def FILE_MAGIC_GGUF_BE : Nat := 0x47475546

def readFile (maxAlloc : Option Nat) (maxArraySize : Int) : Reader DecodeError (KV × List TensorInfo) := do
  let magic ← Reader.number shortError .little 4
  if magic = FILE_MAGIC_GGUF_LE then
    let c ← readContainer maxAlloc .little maxArraySize
    readContents c
  else if magic = FILE_MAGIC_GGUF_BE then
    let c ← readContainer maxAlloc .big maxArraySize
    readContents c
  else .fail .invalidMagic

/-! ## The positions -/

/-- `%` of Go has the sign of the first number. -/
def ggufPadding (offset align : Int) : Option Int :=
  if align = 0 then none else some ((align - offset.tmod align).tmod align)

/-- `Seek` from the current position. -/
def seek (target : String) (pos offset : Int) : Except DecodeError Int :=
  if pos + offset < 0 ∨ 2 ^ 63 ≤ pos + offset then .error (.seek target) else .ok (pos + offset)

/-- The loop of `gguf.Decode` over the data of the tensors. -/
def skipTensors (alignment : Int) : Int → List TensorInfo → Option (Except DecodeError Int)
  | pos, [] => some (.ok pos)
  | pos, t :: ts => match ggufPadding pos alignment with
    | none => none
    | some padding => match seek "init padding" pos padding with
      | .error e => some (.error e)
      | .ok pos => match seek "tensor" pos (toInt64 (tensorSize t.kind t.shape).toNat) with
        | .error e => some (.error e)
        | .ok pos => skipTensors alignment pos ts

structure GGML where
  kv : KV
  tensors : List TensorInfo
  tensorOffset : Int
  /-- The position after the last tensor. -/
  length : Int

/-- The end of `gguf.Decode`. The file was read up to `offset`. -/
def finishDecode (kv : KV) (tensors : List TensorInfo) (offset : Int) : Option (Except DecodeError GGML) :=
  let parameters := tensors.foldl (fun n t => n + elements t.shape) 0
  let kv : KV := kv.insert (ascii "general.parameter_count") (.datum (.scalar .uint64 parameters))
  let alignment := KV.uint kv (ascii "general.alignment") 32
  match ggufPadding offset alignment.toNat with
  | none => none
  | some padding => match skipTensors alignment.toNat offset tensors with
    | none => none
    | some (.error e) => some (.error e)
    | some (.ok length) => some (.ok
        { kv := kv, tensors := tensors, tensorOffset := offset + padding, length := length })

/-- `Decode` with slices of limited size. -/
def decodeWithin (maxAlloc : Option Nat) (file : Bytes) (maxArraySize : Int) : Option (Except DecodeError GGML) :=
  match readFile maxAlloc maxArraySize file with
  | none => none
  | some (.error e, _) => some (.error e)
  | some (.ok (kv, tensors), rest) => finishDecode kv tensors (file.length - rest.length)

/-- `Decode`, where memory is no limit. -/
def decode (file : Bytes) (maxArraySize : Int) : Option (Except DecodeError GGML) := decodeWithin none file maxArraySize

end Xdragon.Ggml
