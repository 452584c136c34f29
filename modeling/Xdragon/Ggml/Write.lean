import Mathlib.Data.List.Sort
import Xdragon.Ggml.Decode
import Xdragon.Lib.Writes

/-!
# Writing a GGUF file

`WriteGGUF` of `fs/ggml/gguf.go`. It writes the header of the file, and then the data of the tensors in goroutines. What
`fmt.Sscanf` makes of the name of a tensor is a parameter. `none` stands for a panic.
-/

namespace Xdragon.Ggml

open Xdragon.Lib Xdragon.Gguf

/-! ## Key-values -/

/-- The cases of `ggufWriteKV` for a value. A nil slice is written as an empty one. -/
def Value.written : Value → Option Datum
  | .datum (.scalar t v) =>
    if t ∈ [ScalarType.int32, .int64, .uint32, .uint64, .float32, .bool] then some (.scalar t v) else none
  | .datum (.string s) => some (.string s)
  | .datum (.array t vs) =>
    if t ∈ [ScalarType.int32, .int64, .uint32, .float32, .bool] then some (.array t vs) else none
  | .datum (.strings vs) => some (.strings vs)
  | .fileType v => some (.scalar .uint32 v)
  | .array t a =>
    if t ∈ [ScalarType.int32, .int64, .uint32, .float32, .bool] then some (.array t (a.values.getD [])) else none
  | .stringArray a => some (.strings (a.values.getD []))

/-- The key in the file. -/
def storedKey (arch k : Bytes) : Bytes :=
  if ¬ arch ++ ascii "." <+: k ∧ ¬ ascii "general." <+: k ∧ ¬ ascii "adapter." <+: k ∧ ¬ ascii "tokenizer." <+: k then
    arch ++ ascii "." ++ k
  else k

inductive WriteError where
  | architectureNotSet
  | improperType (key : Bytes)

def ggufWriteKV (arch k : Bytes) (v : Option Value) : Except WriteError (Bytes × Datum) :=
  match v.bind Value.written with
  | some d => .ok (storedKey arch k, d)
  | none => .error (.improperType (storedKey arch k))

/-- The loop over the sorted keys. -/
def writeKVs (kv : KV) (arch : Bytes) : List Bytes → Except WriteError (List (Bytes × Datum))
  | [] => .ok []
  | k :: ks =>
    match ggufWriteKV arch k (kv.lookup k) with
    | .error e => .error e
    | .ok e => match writeKVs kv arch ks with
      | .error e => .error e
      | .ok es => .ok (e :: es)

/-! ## Tensors -/

/-- A tensor to write. Its `WriterTo` gives the pieces one after another. -/
structure Tensor where
  name : Bytes
  kind : UInt32
  shape : List UInt64
  pieces : List Bytes

namespace Tensor

variable (t : Tensor)

def content : Bytes := t.pieces.flatten

def size : UInt64 := tensorSize t.kind t.shape

/-- `math.MaxInt` if the name has no number. -/
def block (sscanf : Bytes → Option Int) : Int := (sscanf t.name).getD (2 ^ 63 - 1)

/-- The order of the tensors in the file. -/
def le (sscanf : Bytes → Option Int) (t u : Tensor) : Prop :=
  t.block sscanf < u.block sscanf ∨ t.block sscanf = u.block sscanf ∧ t.name ≤ u.name

instance (sscanf : Bytes → Option Int) : DecidableRel (le sscanf) :=
  fun _ _ => inferInstanceAs (Decidable (_ ∨ _))

/-- The offset of the tensor is assigned by the writer. -/
def info (offset : UInt64) : TensorInfo :=
  { name := t.name, shape := t.shape, kind := t.kind, offset := offset }

end Tensor

/-- `uint64` of an `int64`. -/
def toUInt64 (n : Int) : UInt64 := .ofBitVec (.ofInt 64 n)

/-- The loop that assigns the offsets, from `s` on. -/
def assignOffsets (alignment : Int) : UInt64 → List Tensor → Option (List TensorInfo)
  | _, [] => some []
  | s, t :: ts =>
    let next := s + t.size
    match ggufPadding (toInt64 next.toNat) alignment with
    | none => none
    | some padding => (assignOffsets alignment (next + toUInt64 padding) ts).map (t.info s :: ·)

/-- The writes of an `OffsetWriter` from `pos` on. -/
def writesFrom : Int → List Bytes → List (Int × Bytes)
  | _, [] => []
  | pos, p :: ps => (pos, p) :: writesFrom (pos + p.length) ps

/-! ## The file -/

/-- The header that `WriteGGUF` writes, and the writes of the data. -/
def writeGGUF (sscanf : Bytes → Option Int) (kv : KV) (ts : List Tensor) :
    Option (Except WriteError (Header × List (Int × Bytes))) :=
  let arch := kv.string (ascii "general.architecture") []
  if arch = [] then some (.error .architectureNotSet)
  else match writeKVs kv arch (kv.keys.insertionSort (· ≤ ·)) with
    | .error e => some (.error e)
    | .ok kvs =>
      let ts := ts.insertionSort (Tensor.le sscanf)
      let alignment : Int := (KV.uint kv (ascii "general.alignment") 32).toNat
      match assignOffsets alignment 0 ts with
      | none => none
      | some infos =>
        let header : Header := { version := 3, kvs := kvs, tensors := infos }
        match ggufPadding header.encode.length alignment with
        | none => none
        | some padding =>
          let offset := header.encode.length + padding
          some (.ok (header, (ts.zip infos).flatMap fun e => writesFrom (offset + toInt64 e.2.offset.toNat) e.1.pieces))

/-- The file after the header and the writes of the data. -/
def writtenFile (h : Header) (ws : List (Int × Bytes)) : Bytes :=
  writeAll h.encode (ws.map fun w => (w.1.toNat, w.2))

end Xdragon.Ggml
