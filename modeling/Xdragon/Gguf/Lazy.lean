import Xdragon.Gguf.Format

/-!
# The lazy reader

`gguf.File` of `fs/gguf/gguf.go`, with the two sequences of `fs/gguf/lazy.go` that pull from one reader. An
iteration goes on one step at a time, between any other calls. `none` stands for a panic.
-/

namespace Xdragon.Gguf

open Xdragon.Lib

/-! ## Reading -/

inductive ReadError where
  | eof
  | unexpectedEof
  /-- `ErrUnsupported`. -/
  | unsupported (what : String)

def ReadError.text : ReadError → String
  | .eof => "EOF"
  | .unexpectedEof => "unexpected EOF"
  | .unsupported what => "unsupported " ++ what

def shortError (input : Bytes) : ReadError := if input = [] then .eof else .unexpectedEof

def readNumber (width : Nat) : Reader ReadError Nat := .number shortError .little width

def read (t : ScalarType) : Reader ReadError t.Carrier := do
  let n ← readNumber t.size
  return t.ofNumber n

/-- A slice of `n` is a panic if `n` is negative as an `int`. -/
def readString : Reader ReadError Bytes := do
  let n ← readNumber 8
  if 2 ^ 63 ≤ n then .crash else .bytes shortError n

def scalarType : Nat → Option ScalarType
  | 0 => some .uint8
  | 1 => some .int8
  | 2 => some .uint16
  | 3 => some .int16
  | 4 => some .uint32
  | 5 => some .int32
  | 6 => some .float32
  | 7 => some .bool
  | 10 => some .uint64
  | 11 => some .int64
  | 12 => some .float64
  | _ => none

def typeString : Nat := 8
def typeArray : Nat := 9

/-- `readArrayData` and `readArrayString`. -/
def readArrayData {α : Type} (p : Reader ReadError α) (n : Nat) : Reader ReadError (List α) :=
  if 2 ^ 63 ≤ n then .crash else p.times n

def readArray : Reader ReadError Datum := do
  let t ← readNumber 4
  let n ← readNumber 8
  match scalarType t with
  | some t =>
    let s ← readArrayData (read t) n
    return .array t s
  | none =>
    if t = typeString then
      let s ← readArrayData readString n
      return .strings s
    else .fail (.unsupported ("type " ++ toString t))

structure KeyValue where
  key : Bytes := []
  /-- Nil if there is no such key. -/
  value : Option Datum := none

def readKeyValue : Reader ReadError KeyValue := do
  let key ← readString
  let t ← readNumber 4
  match scalarType t with
  | some t =>
    let v ← read t
    return { key := key, value := some (.scalar t v) }
  | none =>
    if t = typeString then
      let s ← readString
      return { key := key, value := some (.string s) }
    else if t = typeArray then
      let v ← readArray
      return { key := key, value := some v }
    else .fail (.unsupported ("type " ++ toString t))

def readTensor : Reader ReadError TensorInfo := do
  let name ← readString
  let dims ← readNumber 4
  let shape ← (read .uint64).times dims
  let kind ← read .uint32
  let offset ← read .uint64
  return { name := name, shape := shape, kind := kind, offset := offset }

namespace KeyValue

/-- `Int` of a value: 0 if it is not a signed integer. -/
def int (kv : KeyValue) : Int :=
  match kv.value with
  | some (.scalar .int8 v) => Int8.toInt v
  | some (.scalar .int16 v) => Int16.toInt v
  | some (.scalar .int32 v) => Int32.toInt v
  | some (.scalar .int64 v) => Int64.toInt v
  | _ => 0

/-- `String` of a value: empty if it is not a string. -/
def string (kv : KeyValue) : Bytes :=
  match kv.value with
  | some (.string s) => s
  | _ => []

end KeyValue

/-! ## Lazy sequences -/

/-- `bufferedReader`. -/
structure BufferedReader where
  offset : Nat
  rest : Bytes

def BufferedReader.run {α : Type} (r : BufferedReader) (p : Reader ReadError α) :
    Option (Except ReadError α × BufferedReader) :=
  (p r.rest).map fun out => (out.1, { offset := r.offset + (r.rest.length - out.2.length), rest := out.2 })

structure Lazy (α : Type) where
  count : Nat
  values : List α := []
  /-- The function that is pulled from has returned. -/
  done : Bool := false

inductive Pulled (α : Type) where
  | value (a : α)
  /-- An error was logged. -/
  | failed
  /-- All values were read, and `successFunc` runs. -/
  | complete
  | stopped

/-- `next` of a sequence, without `successFunc`. -/
def Lazy.next {α : Type} (g : Lazy α) (fn : Reader ReadError α) (r : BufferedReader) :
    Option (Lazy α × BufferedReader × Pulled α) :=
  if g.done then some (g, r, .stopped)
  else if g.values.length < g.count then match r.run fn with
    | none => none
    | some (.error _, r) => some ({ g with done := true }, r, .failed)
    | some (.ok a, r) => some ({ g with values := g.values ++ [a] }, r, .value a)
  else some ({ g with done := true }, r, .complete)

structure File where
  version : Nat
  keyValues : Lazy KeyValue
  tensors : Lazy TensorInfo
  offset : Int := 0
  reader : BufferedReader

/-- The reads of `Open`. Only a magic in small letters is refused. -/
def readHeader : Reader ReadError (Nat × Nat × Nat) := do
  let magic ← Reader.bytes shortError 4
  if magic = ascii "gguf" then .fail (.unsupported "file type [103 103 117 102]")
  else
    let version ← readNumber 4
    if version < 2 then .fail (.unsupported ("version " ++ toString version))
    else
      let tensors ← readNumber 8
      let keyValues ← readNumber 8
      return (version, tensors, keyValues)

def openFile (file : Bytes) : Option (Except ReadError File) :=
  match BufferedReader.run { offset := 0, rest := file } readHeader with
  | none => none
  | some (.error e, _) => some (.error e)
  | some (.ok (version, tensors, keyValues), reader) => some (.ok
      { version := version, keyValues := { count := keyValues }, tensors := { count := tensors }, reader := reader })

namespace File

def nextKeyValue (f : File) : Option (File × Option KeyValue) :=
  match f.keyValues.next readKeyValue f.reader with
  | none => none
  | some (g, r, .value kv) => some ({ f with keyValues := g, reader := r }, some kv)
  | some (g, r, _) => some ({ f with keyValues := g, reader := r }, none)

/-- Pulls key-values until one is wanted. The last argument bounds the loop: each round but the last one adds a
value. -/
def scanKeyValues (wanted : KeyValue → Bool) : File → Nat → Option (File × Option KeyValue)
  | f, 0 => some (f, none)
  | f, n + 1 => match f.nextKeyValue with
    | none => none
    | some (f, none) => some (f, none)
    | some (f, some kv) => if wanted kv then some (f, some kv) else scanKeyValues wanted f n

/-- How often a sequence can be pulled from until it ends. -/
def rounds {α : Type} (g : Lazy α) : Nat := g.count + 1 - g.values.length

/-- `rest` of the key-values. -/
def restKeyValues (f : File) : Option File := (f.scanKeyValues (fun _ => false) (rounds f.keyValues)).map Prod.fst

/-- `KeyValue` for a key with its prefix. -/
def findKeyValue (f : File) (key : Bytes) : Option (File × KeyValue) :=
  match f.keyValues.values.find? (·.key = key) with
  | some kv => some (f, kv)
  | none => (f.scanKeyValues (·.key = key) (rounds f.keyValues)).map fun out => (out.1, out.2.getD {})

def keyValue (f : File) (key : Bytes) : Option (File × KeyValue) :=
  if ¬ ascii "general." <+: key ∧ ¬ ascii "tokenizer." <+: key then
    match f.findKeyValue (ascii "general.architecture") with
    | none => none
    | some (f, arch) => f.findKeyValue (arch.string ++ ascii "." ++ key)
  else f.findKeyValue key

/-- `successFunc` of the tensors. -/
def success (f : File) : Option File :=
  let offset : Int := f.reader.offset
  match f.keyValue (ascii "general.alignment") with
  | none => none
  | some (f, kv) =>
    let alignment := if kv.int ≠ 0 then kv.int else 32
    some { f with offset := offset + (alignment - offset.tmod alignment).tmod alignment }

def nextTensor (f : File) : Option (File × Option TensorInfo) :=
  match f.tensors.next readTensor f.reader with
  | none => none
  | some (g, r, .value t) => some ({ f with tensors := g, reader := r }, some t)
  | some (g, r, .complete) => (success { f with tensors := g, reader := r }).map fun f => (f, none)
  | some (g, r, _) => some ({ f with tensors := g, reader := r }, none)

def scanTensors (wanted : TensorInfo → Bool) : File → Nat → Option (File × Option TensorInfo)
  | f, 0 => some (f, none)
  | f, n + 1 => match f.nextTensor with
    | none => none
    | some (f, none) => some (f, none)
    | some (f, some t) => if wanted t then some (f, some t) else scanTensors wanted f n

def restTensors (f : File) : Option File := (f.scanTensors (fun _ => false) (rounds f.tensors)).map Prod.fst

/-- `TensorInfo{}`. -/
def noTensor : TensorInfo := { name := [], shape := [], kind := 0, offset := 0 }

def tensorInfo (f : File) (name : Bytes) : Option (File × TensorInfo) :=
  match f.tensors.values.find? (·.name = name) with
  | some t => some (f, t)
  | none => match f.restKeyValues with
    | none => none
    | some f => (f.scanTensors (·.name = name) (rounds f.tensors)).map fun out => (out.1, out.2.getD noTensor)

/-- A tensor and the section of the file that its reader reads. -/
structure TensorSection where
  tensor : TensorInfo
  offset : Int
  length : Int

/-- `none` in the result is the error that the tensor was not found. `numBytes` is `NumBytes` of a tensor, which
is computed with floats. -/
def tensorReader (numBytes : TensorInfo → Int) (f : File) (name : Bytes) : Option (File × Option TensorSection) :=
  match f.tensorInfo name with
  | none => none
  | some (f, t) =>
    if numBytes t = 0 then some (f, none)
    else f.restTensors.map fun f =>
      (f, some { tensor := t, offset := f.offset + toInt64 t.offset.toNat, length := numBytes t })

end File

/-! ## Calls -/

/-- A file with iterations that were begun: the next index of each one that has not ended. -/
structure Session where
  file : File
  keyValues : List (Option Nat) := []
  tensorInfos : List (Option Nat) := []

inductive Call where
  | keyValue (key : Bytes)
  /-- Begins an iteration. -/
  | keyValues
  /-- One iteration goes on. -/
  | nextKeyValue (k : Nat)
  | tensorInfo (name : Bytes)
  | tensorInfos
  | nextTensorInfo (k : Nat)
  | tensorReader (name : Bytes)

inductive Answer where
  | keyValue (kv : KeyValue)
  | begun
  /-- What an iteration yields, if it goes on. -/
  | yieldKeyValue (item : Option (Nat × KeyValue))
  | tensorInfo (t : TensorInfo)
  | yieldTensorInfo (item : Option (Nat × TensorInfo))
  | tensorReader (s : Option File.TensorSection)

namespace Session

/-- The round of `All` at index `i`: a value that is there, or the next one. A count that is negative as an `int`
has no rounds. -/
def pull {α : Type} (i : Nat) (g : Lazy α) (next : Option (File × Option α)) (f : File) : Option (File × Option α) :=
  if toInt64 g.count ≤ i then some (f, none)
  else match g.values[i]? with
    | some a => some (f, some a)
    | none => next

def call (numBytes : TensorInfo → Int) (s : Session) : Call → Option (Session × Answer)
  | .keyValue key => (s.file.keyValue key).map fun out => ({ s with file := out.1 }, .keyValue out.2)
  | .keyValues => some ({ s with keyValues := s.keyValues ++ [some 0] }, .begun)
  | .nextKeyValue k => match (s.keyValues[k]?).join with
    | none => some (s, .yieldKeyValue none)
    | some i => (pull i s.file.keyValues s.file.nextKeyValue s.file).map fun out =>
      ({ s with file := out.1, keyValues := s.keyValues.set k (out.2.map fun _ => i + 1) },
        .yieldKeyValue (out.2.map (i, ·)))
  | .tensorInfo name => (s.file.tensorInfo name).map fun out => ({ s with file := out.1 }, .tensorInfo out.2)
  | .tensorInfos => s.file.restKeyValues.map fun f =>
      ({ s with file := f, tensorInfos := s.tensorInfos ++ [some 0] }, .begun)
  | .nextTensorInfo k => match (s.tensorInfos[k]?).join with
    | none => some (s, .yieldTensorInfo none)
    | some i => (pull i s.file.tensors s.file.nextTensor s.file).map fun out =>
      ({ s with file := out.1, tensorInfos := s.tensorInfos.set k (out.2.map fun _ => i + 1) },
        .yieldTensorInfo (out.2.map (i, ·)))
  | .tensorReader name => (s.file.tensorReader numBytes name).map fun out =>
      ({ s with file := out.1 }, .tensorReader out.2)

end Session

end Xdragon.Gguf
