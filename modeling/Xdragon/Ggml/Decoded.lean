import Xdragon.Ggml.Decode

/-!
# Decoding what the format says

`Decode` without a limit for arrays reads the header of a file back.
-/

open Xdragon.Lib

namespace Xdragon.Ggml

open Xdragon.Gguf

/-! ## Values -/

/-- The value of a key after `Decode`. -/
def Value.ofDatum : Datum → Value
  | .array t vs => .array t { size := vs.length, values := some vs }
  | .strings vs => .stringArray { size := vs.length, values := some vs }
  | d => .datum d

theorem ggufType_tag (t : ScalarType) : ggufType t.tag = some t := by
  cases t <;> rfl

section
variable {c : ContainerGGUF} (hlittle : c.byteOrder = .little)
include hlittle

theorem reads_number (width : Nat) {n : Nat} (hn : n < 256 ^ width) :
    Reads (readNumber c width) (toLittle width n) n := by
  unfold readNumber
  rw [hlittle]
  exact Reads.number _ _ hn

theorem reads_length {n : Nat} (hn : n < 2 ^ 63) : Reads (readNumber c 8) (toLittle 8 n) n :=
  reads_number hlittle 8 (by omega)

theorem reads_GGUF (t : ScalarType) (v : t.Carrier) : Reads (readGGUF c t) (encodeScalar t v) v := by
  have := (reads_number hlittle t.size (t.toNumber_lt v)).bind_pure (f := t.ofNumber)
  rwa [ScalarType.ofNumber_toNumber] at this

variable (hversion : c.version ≠ 1) (hmemory : c.maxAlloc = none)

omit hlittle in
include hmemory in
/-- Without a limit, a slice can be made. -/
theorem reads_make (width : Nat) {n : Int} (hn : 0 ≤ n) : Reads (make c width n) [] () := by
  unfold make
  rw [hmemory, if_neg (by simpa using hn)]
  exact Reads.pure ()

omit hlittle in
include hmemory in
theorem reads_newArray (width : Nat) {size : Int} (hsize : 0 ≤ size) : Reads (newArray c width size) [] () := by
  unfold newArray
  split
  · exact reads_make hmemory width hsize
  · exact Reads.pure ()

include hversion hmemory

theorem reads_string {s : Bytes} (hs : s.length < 2 ^ 63) : Reads (readGGUFString c) (encodeString s) s := by
  unfold readGGUFString
  rw [if_neg hversion]
  refine (reads_length hlittle hs).bind ?_
  rw [toInt64_of_lt hs, Int.toNat_natCast]
  have hbuffer : Reads (stringBuffer c s.length) [] () := by
    unfold stringBuffer
    split
    · exact reads_make hmemory 1 (by omega)
    · rw [if_neg (by omega)]
      exact Reads.pure ()
  exact hbuffer.bind (Reads.bytes _ _)

variable (hall : c.maxArraySize < 0)
include hall

omit hlittle hversion hmemory in
theorem keepsArray_all (size : Int) : keepsArray c size = true := by
  simp [keepsArray, hall]

omit hversion hmemory in
theorem reads_arrayData {t : ScalarType} (vs : List t.Carrier) :
    Reads (readGGUFArrayData c t vs.length) (vs.flatMap (encodeScalar t))
      { size := vs.length, values := some vs } := by
  have htimes := Reads.times (encodeScalar t) fun v (_ : v ∈ vs) => reads_GGUF hlittle t v
  unfold readGGUFArrayData
  simp only [keepsArray_all hall, if_true]
  exact htimes.bind_pure

theorem reads_stringsData {vs : List Bytes} (hvs : ∀ s ∈ vs, s.length < 2 ^ 63) :
    Reads (readGGUFStringsData c vs.length) (vs.flatMap encodeString) { size := vs.length, values := some vs } := by
  have htimes := Reads.times encodeString fun s hs => reads_string hlittle hversion hmemory (hvs s hs)
  unfold readGGUFStringsData
  rw [keepsArray_all hall, if_pos rfl]
  exact htimes.bind_pure

omit hversion in
theorem reads_array {t : ScalarType} {vs : List t.Carrier} (hvs : vs.length < 2 ^ 63) :
    Reads (readGGUFArray c) (toLittle 4 t.tag ++ (toLittle 8 vs.length ++ vs.flatMap (encodeScalar t)))
      (Value.ofDatum (.array t vs)) := by
  refine (reads_number hlittle 4 t.tag_lt).bind ((reads_length hlittle hvs).bind ?_)
  rw [ggufType_tag, toInt64_of_lt hvs, Int.toNat_natCast]
  exact (reads_newArray hmemory t.size (by omega)).bind (reads_arrayData hlittle hall vs).bind_pure

theorem reads_strings {vs : List Bytes} (hvs : (Datum.strings vs).Small) :
    Reads (readGGUFArray c) (toLittle 4 8 ++ (toLittle 8 vs.length ++ vs.flatMap encodeString))
      (Value.ofDatum (.strings vs)) := by
  refine (reads_number hlittle 4 (by decide)).bind ((reads_length hlittle hvs.1).bind ?_)
  have hnone : ggufType 8 = none := rfl
  have hstring : (8 : Nat) = ggufTypeString := rfl
  rw [hnone, toInt64_of_lt hvs.1]
  dsimp only
  rw [if_pos hstring, Int.toNat_natCast]
  exact (reads_newArray hmemory 16 (by omega)).bind (reads_stringsData hlittle hversion hmemory hall hvs.2).bind_pure

/-! ## The contents -/

theorem reads_keyValue {kv : Bytes × Datum} (hkey : kv.1.length < 2 ^ 63) (hsmall : kv.2.Small) :
    Reads (readKeyValue c) (encodeKeyValue kv) (kv.1, Value.ofDatum kv.2) := by
  obtain ⟨k, d⟩ := kv
  refine (reads_string hlittle hversion hmemory hkey).bind ?_
  cases d with
  | scalar t v =>
    refine (reads_number hlittle 4 t.tag_lt).bind ?_
    rw [ggufType_tag]
    exact (reads_GGUF hlittle t v).bind_pure
  | string s =>
    refine (reads_number hlittle 4 (by decide)).bind ?_
    exact (reads_string hlittle hversion hmemory hsmall).bind_pure
  | array t vs =>
    refine (reads_number hlittle 4 (by decide)).bind ?_
    exact (reads_array hlittle hmemory hall hsmall).bind_pure
  | strings vs =>
    refine (reads_number hlittle 4 (by decide)).bind ?_
    exact (reads_strings hlittle hversion hmemory hall hsmall).bind_pure

omit hall in
theorem reads_tensor {t : TensorInfo} (hname : t.name.length < 2 ^ 63) (hdims : t.shape.length < 2 ^ 32) :
    Reads (readTensor c) t.encode t := by
  refine ((reads_string hlittle hversion hmemory hname).wrap _).bind ?_
  refine ((reads_number hlittle 4 (by omega)).wrap _).bind ?_
  refine (reads_make hmemory 8 (by omega)).bind ?_
  refine (Reads.times _ fun n _ => (reads_GGUF hlittle .uint64 n).wrap _).bind ?_
  refine ((reads_GGUF hlittle .uint32 t.kind).wrap _).bind ?_
  exact ((reads_GGUF hlittle .uint64 t.offset).wrap _).bind_pure

/-- The map of some key-values, the later ones over the earlier ones. -/
def KV.ofList (kvs : List (Bytes × Datum)) : KV :=
  kvs.foldl (fun kv e => kv.insert e.1 (Value.ofDatum e.2)) ∅

theorem reads_contents {h : Header} (hwf : h.WellFormed) (hKV : c.numKV = h.kvs.length)
    (hTensor : c.numTensor = h.tensors.length) :
    Reads (readContents c) (h.kvs.flatMap encodeKeyValue ++ h.tensors.flatMap TensorInfo.encode)
      (KV.ofList h.kvs, h.tensors) := by
  unfold readContents
  rw [hKV, hTensor]
  have hkvs := Reads.times_map encodeKeyValue (fun kv : Bytes × Datum => (kv.1, Value.ofDatum kv.2)) fun kv hkv =>
    reads_keyValue hlittle hversion hmemory hall (hwf.kv hkv).1 (hwf.kv hkv).2
  have htensors := Reads.times TensorInfo.encode fun t ht => reads_tensor hlittle hversion hmemory (hwf.name ht) (hwf.dims t ht)
  refine hkvs.bind ?_
  have hlist : KV.ofList h.kvs = (h.kvs.map fun kv => (kv.1, Value.ofDatum kv.2)).foldl
      (fun kv e => kv.insert e.1 e.2) (∅ : KV) := by
    rw [List.foldl_map]
    rfl
  rw [hlist]
  exact htensors.bind_pure

end

theorem reads_container {h : Header} (hwf : h.WellFormed) (maxArraySize : Int) :
    Reads (readContainer none .little maxArraySize)
      (toLittle 4 h.version ++ (toLittle 8 h.tensors.length ++ toLittle 8 h.kvs.length))
      { byteOrder := .little
        version := h.version
        numTensor := h.tensors.length
        numKV := h.kvs.length
        maxArraySize := maxArraySize
        maxAlloc := none } := by
  have hversion : h.version < 256 ^ 4 ∧ h.version ≠ 1 := by
    obtain hv | hv := hwf.version <;> rw [hv] <;> decide
  have hKV := hwf.numKV
  have hTensor := hwf.numTensor
  refine (Reads.number _ 4 hversion.1).bind ?_
  have hcounts := (Reads.bytes shortError (toLittle 8 h.tensors.length ++ toLittle 8 h.kvs.length)).bind_pure (f :=
    fun counts => ({
      byteOrder := .little
      version := h.version
      numTensor := ByteOrder.number .little (counts.take 8)
      numKV := ByteOrder.number .little (counts.drop 8)
      maxArraySize := maxArraySize
      maxAlloc := none } : ContainerGGUF))
  dsimp only
  rw [if_neg hversion.2]
  rw [List.length_append, length_toLittle, length_toLittle, List.take_left' (length_toLittle _ _),
    List.drop_left' (length_toLittle _ _)] at hcounts
  simp only [ByteOrder.number, ofLittle_toLittle] at hcounts
  rw [Nat.mod_eq_of_lt (by omega : h.tensors.length < 256 ^ 8), Nat.mod_eq_of_lt (by omega : h.kvs.length < 256 ^ 8)] at hcounts
  exact hcounts

theorem reads_file {h : Header} (hwf : h.WellFormed) {maxArraySize : Int} (hall : maxArraySize < 0) :
    Reads (readFile none maxArraySize) h.encode (KV.ofList h.kvs, h.tensors) := by
  have hversion : h.version ≠ 1 := by
    obtain hv | hv := hwf.version <;> rw [hv] <;> decide
  have hmagic : toLittle 4 FILE_MAGIC_GGUF_LE = magic := by decide
  have hfirst := Reads.number shortError 4 (by decide : FILE_MAGIC_GGUF_LE < 256 ^ 4)
  rw [hmagic] at hfirst
  refine hfirst.bind ?_
  rw [if_pos rfl, ← List.append_assoc (toLittle 8 _), ← List.append_assoc (toLittle 4 _)]
  exact (reads_container hwf maxArraySize).bind (reads_contents rfl hversion rfl hall hwf rfl rfl)

/-- `Decode` reads the header of a file and goes on behind it. -/
theorem decode_eq {h : Header} (hwf : h.WellFormed) {maxArraySize : Int} (hall : maxArraySize < 0) (data : Bytes) :
    decode (h.encode ++ data) maxArraySize = finishDecode (KV.ofList h.kvs) h.tensors h.encode.length := by
  unfold decode decodeWithin
  rw [reads_file hwf hall data, List.length_append]
  dsimp only
  congr 1
  push_cast
  omega

/-! ## The map -/

theorem lookup_ofList_fold {kvs : List (Bytes × Datum)} (hnd : (kvs.map Prod.fst).Nodup) (kv : KV) (k : Bytes) :
    (kvs.foldl (fun kv e => kv.insert e.1 (Value.ofDatum e.2)) kv).lookup k =
      ((kvs.find? (·.1 = k)).map fun e => Value.ofDatum e.2).or (kv.lookup k) := by
  induction kvs generalizing kv with
  | nil => rfl
  | cons e kvs ih =>
    rw [List.map_cons, List.nodup_cons] at hnd
    rw [List.foldl_cons, ih hnd.2, List.find?_cons]
    by_cases he : e.1 = k
    · subst he
      have hnone : kvs.find? (·.1 = e.1) = none := by
        rw [List.find?_eq_none]
        intro e' he'
        have : e'.1 ∈ kvs.map Prod.fst := List.mem_map_of_mem he'
        simp only [decide_eq_true_eq]
        exact fun h => hnd.1 (h ▸ this)
      rw [hnone, AList.lookup_insert]
      simp
    · rw [AList.lookup_insert_ne (Ne.symm he)]
      simp [he]

theorem lookup_ofList {kvs : List (Bytes × Datum)} (hnd : (kvs.map Prod.fst).Nodup) (k : Bytes) :
    (KV.ofList kvs).lookup k = (kvs.find? (·.1 = k)).map fun e => Value.ofDatum e.2 := by
  unfold KV.ofList
  rw [lookup_ofList_fold hnd, AList.lookup_empty, Option.or_none]

/-! ## The positions -/

/-- Where the tensors end if they lie one after another from `pos` on. -/
def dataEnd (alignment : Nat) : Nat → List TensorInfo → Nat
  | pos, [] => pos
  | pos, t :: ts => dataEnd alignment (alignUp alignment pos + (tensorSize t.kind t.shape).toNat) ts

theorem le_dataEnd (alignment pos : Nat) (ts : List TensorInfo) : pos ≤ dataEnd alignment pos ts := by
  induction ts generalizing pos with
  | nil => exact Nat.le_refl _
  | cons t ts ih =>
    have h1 := le_alignUp alignment pos
    have h2 := ih (alignUp alignment pos + (tensorSize t.kind t.shape).toNat)
    rw [dataEnd]
    omega

theorem ggufPadding_eq {alignment : Nat} (ha : 0 < alignment) (n : Nat) :
    ggufPadding n alignment = some (alignUp alignment n - n : Int) := by
  have hlt := Nat.mod_lt n ha
  have hmod : (n : Int).tmod alignment = (n % alignment : Nat) := by
    rw [Int.tmod_eq_emod_of_nonneg (by omega)]
    rfl
  unfold ggufPadding alignUp
  rw [if_neg (by omega), hmod, Int.tmod_eq_emod_of_nonneg (by omega)]
  have hcast : ((alignment : Int) - (n % alignment : Nat)) = (alignment - n % alignment : Nat) := by omega
  rw [hcast]
  push_cast
  congr 1
  omega

theorem skipTensors_ok {alignment : Nat} (ha : 0 < alignment) {ts : List TensorInfo}
    (hsize : ∀ t ∈ ts, (tensorSize t.kind t.shape).toNat < 2 ^ 63) {pos : Nat} (hend : dataEnd alignment pos ts < 2 ^ 63) :
    skipTensors alignment pos ts = some (.ok (dataEnd alignment pos ts)) := by
  induction ts generalizing pos with
  | nil => rfl
  | cons t ts ih =>
    rw [dataEnd] at hend ⊢
    have hle := le_dataEnd alignment (alignUp alignment pos + (tensorSize t.kind t.shape).toNat) ts
    have hpos : (pos : Int) + (alignUp alignment pos - pos) = (alignUp alignment pos : Nat) := by omega
    unfold skipTensors
    rw [ggufPadding_eq ha]
    dsimp only
    rw [seek, hpos, if_neg (by omega)]
    dsimp only
    rw [seek, toInt64_of_lt (hsize t (by simp)), if_neg (by omega)]
    exact ih (fun t ht => hsize t (List.mem_cons_of_mem _ ht)) hend

theorem skipTensors_error {alignment : Nat} (ha : 0 < alignment) {ts : List TensorInfo}
    (hsize : ∀ t ∈ ts, (tensorSize t.kind t.shape).toNat < 2 ^ 63) {pos : Nat} (hpos : pos < 2 ^ 63)
    (hend : 2 ^ 63 ≤ dataEnd alignment pos ts) : ∃ e, skipTensors alignment pos ts = some (.error e) := by
  induction ts generalizing pos with
  | nil =>
    rw [dataEnd] at hend
    omega
  | cons t ts ih =>
    rw [dataEnd] at hend
    have hsum : (pos : Int) + (alignUp alignment pos - pos) = (alignUp alignment pos : Nat) := by omega
    unfold skipTensors
    rw [ggufPadding_eq ha]
    dsimp only
    rw [seek, hsum]
    by_cases h1 : alignUp alignment pos < 2 ^ 63
    · rw [if_neg (by omega)]
      dsimp only
      rw [seek, toInt64_of_lt (hsize t (by simp))]
      by_cases h2 : alignUp alignment pos + (tensorSize t.kind t.shape).toNat < 2 ^ 63
      · rw [if_neg (by omega)]
        exact ih (fun t ht => hsize t (List.mem_cons_of_mem _ ht)) h2 hend
      · rw [if_pos (by omega)]
        exact ⟨_, rfl⟩
    · rw [if_pos (by omega)]
      exact ⟨_, rfl⟩

def parameters (tensors : List TensorInfo) : UInt64 := tensors.foldl (fun n t => n + elements t.shape) 0

theorem uint_alignment_insert (kv : KV) (v : Value) (default : UInt32) :
    KV.uint (kv.insert (ascii "general.parameter_count") v) (ascii "general.alignment") default =
      KV.uint kv (ascii "general.alignment") default := by
  have hname : ∀ kv : KV, KV.keyName kv (ascii "general.alignment") = ascii "general.alignment" := by
    intro kv
    unfold KV.keyName
    rw [if_neg (by decide)]
  unfold KV.uint
  rw [hname, hname, AList.lookup_insert_ne (by decide)]

theorem uint_alignment (kv : KV) (default : UInt32) : KV.uint kv (ascii "general.alignment") default =
    match kv.lookup (ascii "general.alignment") with
    | some (.datum (.scalar .uint32 v)) => v
    | _ => default := by
  have hname : KV.keyName kv (ascii "general.alignment") = ascii "general.alignment" := if_neg (by decide)
  have hread (key : Bytes) : KV.uint kv key default =
      match kv.lookup (KV.keyName kv key) with
      | some (.datum (.scalar .uint32 v)) => v
      | _ => default := rfl
  rw [hread, hname]

section
variable {kv : KV} {tensors : List TensorInfo} {offset : Nat}
  (ha : 0 < (KV.uint kv (ascii "general.alignment") 32).toNat)
  (hsize : ∀ t ∈ tensors, (tensorSize t.kind t.shape).toNat < 2 ^ 63)
include ha hsize

theorem finishDecode_ok
    (hend : dataEnd (KV.uint kv (ascii "general.alignment") 32).toNat offset tensors < 2 ^ 63) :
    finishDecode kv tensors offset = some (.ok
      { kv := kv.insert (ascii "general.parameter_count") (.datum (.scalar .uint64 (parameters tensors)))
        tensors := tensors
        tensorOffset := alignUp (KV.uint kv (ascii "general.alignment") 32).toNat offset
        length := dataEnd (KV.uint kv (ascii "general.alignment") 32).toNat offset tensors }) := by
  unfold finishDecode
  dsimp only
  rw [uint_alignment_insert, ggufPadding_eq ha, skipTensors_ok ha hsize hend]
  dsimp only
  congr 3
  omega

theorem finishDecode_error (hoffset : offset < 2 ^ 63)
    (hend : 2 ^ 63 ≤ dataEnd (KV.uint kv (ascii "general.alignment") 32).toNat offset tensors) :
    ∃ e, finishDecode kv tensors offset = some (.error e) := by
  obtain ⟨e, he⟩ := skipTensors_error ha hsize hoffset hend
  unfold finishDecode
  dsimp only
  rw [uint_alignment_insert, ggufPadding_eq ha, he]
  exact ⟨e, rfl⟩

end

end Xdragon.Ggml
