import Xdragon.Ggml.Lengths
import Xdragon.Lib.Lenient

/-!
# Decoding without large arrays

With a limit for arrays `Decode` reads the same file to the same places and keeps less of it. But it does not look at the
strings that it skips, nor at the errors in them.
-/

namespace Xdragon.Ggml

open Xdragon.Lib Xdragon.Gguf

/-! ## What is kept -/

/-- An array of at most `m` values is kept. -/
def ArrayValue.limited {α : Type} (m : Nat) (a : ArrayValue α) : ArrayValue α :=
  if a.size ≤ m then a else { a with values := none }

def Value.limited (m : Nat) : Value → Value
  | .array t a => .array t (a.limited m)
  | .stringArray a => .stringArray (a.limited m)
  | v => v

namespace KV

def limited (m : Nat) (kv : KV) : KV :=
  ⟨kv.entries.map (.map id fun _ v => v.limited m), List.NodupKeys.map₂ _ _ kv.nodupKeys⟩

theorem lookup_limited (m : Nat) (kv : KV) (k : Bytes) : (kv.limited m).lookup k = (kv.lookup k).map (·.limited m) :=
  List.dlookup_map₂ k

theorem keys_limited (m : Nat) (kv : KV) : (kv.limited m).keys = kv.keys :=
  List.map₂_keys _ _

theorem kerase_limited (m : Nat) (k : Bytes) (l : List (Sigma fun _ : Bytes => Value)) :
    (List.kerase k l).map (Sigma.map id fun _ v => Value.limited m v) =
      List.kerase k (l.map (Sigma.map id fun _ v => Value.limited m v) : List (Sigma fun _ : Bytes => Value)) := by
  induction l with
  | nil => rfl
  | cons e l ih =>
    obtain ⟨k', v⟩ := e
    have hmap : Sigma.map id (fun _ v => Value.limited m v) ⟨k', v⟩ =
        (⟨k', v.limited m⟩ : Sigma fun _ : Bytes => Value) := rfl
    rw [List.map_cons, hmap]
    by_cases hk : k = k'
    · rw [List.kerase_cons_eq hk, List.kerase_cons_eq hk]
    · rw [List.kerase_cons_ne hk, List.kerase_cons_ne hk, List.map_cons, hmap, ih]

theorem limited_insert (m : Nat) (kv : KV) (k : Bytes) (v : Value) :
    KV.limited m (kv.insert k v) = (kv.limited m).insert k (v.limited m) := by
  have hentries (kv : KV) : (kv.limited m).entries = kv.entries.map (Sigma.map id fun _ v => Value.limited m v) := rfl
  apply AList.ext
  rw [hentries, AList.entries_insert, AList.entries_insert, hentries, ← kerase_limited]
  rfl

theorem limited_foldl (m : Nat) (kvs : List (Bytes × Value)) (kv : KV) :
    KV.limited m (kvs.foldl (fun kv e => kv.insert e.1 e.2) kv) =
      (kvs.map fun e => (e.1, e.2.limited m)).foldl (fun kv e => kv.insert e.1 e.2) (kv.limited m) := by
  induction kvs generalizing kv with
  | nil => rfl
  | cons e kvs ih => rw [List.foldl_cons, List.map_cons, List.foldl_cons, ih, limited_insert]

/-- The limit does not touch the alignment. -/
theorem uint_limited (m : Nat) (kv : KV) : KV.uint (kv.limited m) (ascii "general.alignment") 32 =
    KV.uint kv (ascii "general.alignment") 32 := by
  have hvalue (v : Value) : uint32Of (v.limited m) = uint32Of v := by
    cases v <;> rfl
  rw [uint_alignment_of, uint_alignment_of, lookup_limited]
  cases kv.lookup (ascii "general.alignment") with
  | none => rfl
  | some v => rw [Option.map_some, Option.bind_some, Option.bind_some, hvalue]

end KV

/-! ## What is skipped -/

/-- A string that is skipped. -/
structure Skipped where
  /-- In version 1, with a null behind it. -/
  terminated : Bool
  /-- The declared length, if the file has all bytes of it. -/
  length : Option Int
  /-- The bytes that are left in the file. -/
  available : Nat

/-- The string could be read. -/
def Skipped.Whole (s : Skipped) : Prop :=
  ∃ n ∈ s.length, (if s.terminated then 0 < n else 0 ≤ n) ∧ n ≤ s.available

section
variable (c : ContainerGGUF)

def skippedString (input : Bytes) : List Skipped :=
  [{ terminated := c.version = 1
     length := if 8 ≤ input.length then some (toInt64 (c.byteOrder.number (input.take 8))) else none
     available := input.length - 8 }]

def skippedStrings (size : Nat) : Bytes → List Skipped :=
  if keepsArray c size then fun _ => []
  else (Reader.ignore (discardGGUFString c)).logTimes (skippedString c) size

def skippedArray : Bytes → List Skipped :=
  (readNumber c 4).logBind (fun _ => []) fun t => (readNumber c 8).logBind (fun _ => []) fun n =>
    if t = ggufTypeString then skippedStrings c (toInt64 n).toNat else fun _ => []

def skippedKeyValue : Bytes → List Skipped :=
  (readGGUFString c).logBind (fun _ => []) fun _ => (readNumber c 4).logBind (fun _ => []) fun t =>
    if t = ggufTypeArray then skippedArray c else fun _ => []

def skippedContents : Bytes → List Skipped := (readKeyValue c).logTimes (skippedKeyValue c) c.numKV

end

/-- The strings of the file that are skipped, in their order. -/
def skippedFile (maxArraySize : Int) : Bytes → List Skipped :=
  (Reader.number shortError .little 4).logBind (fun _ => []) fun magic =>
    if magic = FILE_MAGIC_GGUF_LE then (readContainer none .little maxArraySize).logBind (fun _ => []) skippedContents
    else if magic = FILE_MAGIC_GGUF_BE then (readContainer none .big maxArraySize).logBind (fun _ => []) skippedContents
    else fun _ => []

section
variable {c : ContainerGGUF}

/-- The rest of a string behind its length. -/
theorem readGGUFString_of_length {input : Bytes} (h : 8 ≤ input.length) : readGGUFString c input =
    if c.version = 1 then
      (Reader.bytes (fun _ => DecodeError.eof) (toInt64 (c.byteOrder.number (input.take 8))).toNat >>= fun b =>
        if b = [] then .crash else pure b.dropLast) (input.drop 8)
    else
      (stringBuffer c (toInt64 (c.byteOrder.number (input.take 8))) >>= fun _ =>
        Reader.bytes shortError (toInt64 (c.byteOrder.number (input.take 8))).toNat) (input.drop 8) := by
  have hnumber : readNumber c 8 input = some (.ok (c.byteOrder.number (input.take 8)), input.drop 8) :=
    Reader.bind_ok (Reader.bytes_ok h)
  unfold readGGUFString
  split
  · unfold readGGUFV1String
    rw [Reader.bind_ok hnumber]
  · rw [Reader.bind_ok hnumber]

theorem make_eq (hmemory : c.maxAlloc = none) (width : Nat) (n : Int) :
    make c width n = if 0 ≤ n then pure () else .crash := by
  unfold make
  rw [hmemory]
  by_cases hn : 0 ≤ n
  · rw [if_pos hn, if_neg (by simpa using hn)]
  · rw [if_neg hn, if_pos (.inl (by omega))]

theorem stringBuffer_eq (hmemory : c.maxAlloc = none) (n : Int) :
    stringBuffer c n = if 0 ≤ n then pure () else .crash := by
  unfold stringBuffer
  rw [make_eq hmemory]
  by_cases hn : 0 ≤ n
  · rw [if_pos hn, if_neg (by omega : ¬ n < 0), ite_self]
  · rw [if_neg hn, if_pos (by omega : n < 0), ite_self]

/-- A string is read if and only if it is whole. -/
theorem readGGUFString_iff (hmemory : c.maxAlloc = none) (input rest : Bytes) :
    (∃ s, readGGUFString c input = some (.ok s, rest)) ↔
      (input.drop 8).drop (toInt64 (c.byteOrder.number (input.take 8))).toNat = rest ∧
        ∀ s ∈ skippedString c input, s.Whole := by
  unfold skippedString Skipped.Whole
  rw [List.forall_mem_singleton]
  by_cases h8 : 8 ≤ input.length
  · rw [readGGUFString_of_length h8]
    simp only [if_pos h8, Option.mem_some_iff, exists_eq_left', decide_eq_true_eq]
    generalize toInt64 (c.byteOrder.number (input.take 8)) = n
    have hlength := List.length_drop (i := 8) (l := input)
    by_cases hversion : c.version = 1
    · simp only [if_pos hversion]
      rw [terminated_eq]
      by_cases hn : 0 < n
      · rw [if_pos hn, Reader.bind_ok (show (pure () : Reader DecodeError Unit) _ = some (.ok (), _) from rfl)]
        constructor
        · rintro ⟨s, hs⟩
          obtain ⟨bs, mid, hbs, hs⟩ := Reader.of_bind_ok hs
          obtain ⟨hle, -, rfl⟩ := Reader.bytes_iff.mp hbs
          cases hs
          exact ⟨rfl, hn, by omega⟩
        · rintro ⟨rfl, -, hle⟩
          exact ⟨_, Reader.bind_ok (Reader.bytes_ok (by omega))⟩
      · rw [if_neg hn]
        refine iff_of_false ?_ fun h => hn h.2.1
        rintro ⟨s, hs⟩
        cases hs
    · simp only [if_neg hversion]
      rw [stringBuffer_eq hmemory]
      by_cases hn : 0 ≤ n
      · rw [if_pos hn, Reader.bind_ok (show (pure () : Reader DecodeError Unit) _ = some (.ok (), _) from rfl)]
        constructor
        · rintro ⟨s, hs⟩
          obtain ⟨hle, -, rfl⟩ := Reader.bytes_iff.mp hs
          exact ⟨rfl, hn, by omega⟩
        · rintro ⟨rfl, -, hle⟩
          exact ⟨_, Reader.bytes_ok (by omega)⟩
      · rw [if_neg hn]
        refine iff_of_false ?_ fun h => hn h.2.1
        rintro ⟨s, hs⟩
        cases hs
  · have hnumber : readNumber c 8 input = some (.error (shortError input), []) :=
      Reader.bind_error (Reader.bytes_error h8)
    have hread : readGGUFString c input = some (.error (shortError input), []) := by
      unfold readGGUFString
      split
      · exact Reader.bind_error hnumber
      · exact Reader.bind_error hnumber
    rw [hread, if_neg h8]
    refine iff_of_false ?_ ?_
    · rintro ⟨s, hs⟩
      cases hs
    · rintro ⟨-, n, hn, -⟩
      cases hn

/-! ## The readers -/

/-- The same file, read without a limit. -/
def ContainerGGUF.unlimited (c : ContainerGGUF) : ContainerGGUF := { c with maxArraySize := -1 }

variable {m : Nat} (hm : c.maxArraySize = m) (hmemory : c.maxAlloc = none)

omit hm in
include hmemory in
theorem lenient_string : Lenient Skipped.Whole (Reader.ignore (discardGGUFString c)) (readGGUFString c) (skippedString c)
    fun _ => () := by
  intro input _ rest
  rw [ignore_discarded]
  have hiff := readGGUFString_iff hmemory input rest
  constructor
  · rintro ⟨s, hs, -⟩
    obtain ⟨rfl, hwhole⟩ := hiff.mp ⟨s, hs⟩
    exact ⟨rfl, hwhole⟩
  · rintro ⟨hrest, hwhole⟩
    cases hrest
    obtain ⟨s, hs⟩ := hiff.mpr ⟨rfl, hwhole⟩
    exact ⟨s, hs, rfl⟩

include hm

theorem keepsArray_iff (size : Int) : keepsArray c size = true ↔ size ≤ m := by
  unfold keepsArray
  rw [hm, decide_eq_true_eq]
  omega

omit hm in
theorem keepsArray_unlimited (size : Int) : keepsArray c.unlimited size = true :=
  keepsArray_all (show (-1 : Int) < 0 by decide) size

include hmemory

/-- An array that is kept or not: only a negative size is a crash. -/
theorem newArray_eq (width : Nat) (size : Int) : newArray c width size = if 0 ≤ size then pure () else .crash := by
  unfold newArray
  rw [make_eq hmemory]
  by_cases hsize : 0 ≤ size
  · rw [if_pos hsize, ite_self]
  · rw [if_neg hsize, if_pos ((keepsArray_iff hm size).mpr (by omega))]

omit hm in
theorem newArray_unlimited (width : Nat) (size : Int) :
    newArray c.unlimited width size = if 0 ≤ size then pure () else .crash := by
  unfold newArray
  rw [if_pos (keepsArray_unlimited size)]
  exact make_eq (c := c.unlimited) hmemory width size

omit hmemory in
theorem lenient_arrayData (t : ScalarType) (size : Nat) : Lenient Skipped.Whole (readGGUFArrayData c t size)
    (readGGUFArrayData c.unlimited t size) (fun _ => []) (ArrayValue.limited m) := by
  unfold readGGUFArrayData
  refine (Lenient.refl _).bind_pure fun vs _ => ?_
  rw [if_pos (keepsArray_unlimited _)]
  unfold ArrayValue.limited
  by_cases hsize : (size : Int) ≤ m
  · rw [if_pos ((keepsArray_iff hm _).mpr hsize), if_pos hsize]
    rfl
  · rw [if_neg (fun h => hsize ((keepsArray_iff hm _).mp h)), if_neg hsize]

theorem lenient_stringsData (size : Nat) : Lenient Skipped.Whole (readGGUFStringsData c size)
    (readGGUFStringsData c.unlimited size) (skippedStrings c size) (ArrayValue.limited m) := by
  unfold readGGUFStringsData skippedStrings
  rw [if_pos (keepsArray_unlimited _)]
  by_cases hsize : (size : Int) ≤ m
  · have hkeeps := (keepsArray_iff hm _).mpr hsize
    rw [if_pos hkeeps, if_pos hkeeps]
    refine (Lenient.refl _).bind_pure fun vs _ => ?_
    exact if_pos hsize
  · have hkeeps : ¬ keepsArray c size = true := fun h => hsize ((keepsArray_iff hm _).mp h)
    rw [if_neg hkeeps, if_neg hkeeps]
    refine ((lenient_string hmemory).times size).bind_pure fun vs _ => ?_
    exact if_neg hsize

theorem lenient_array : Lenient Skipped.Whole (readGGUFArray c) (readGGUFArray c.unlimited) (skippedArray c)
    (Value.limited m) := by
  unfold readGGUFArray skippedArray
  refine .after fun t _ => .after fun n _ => ?_
  by_cases hn : 0 ≤ toInt64 n
  · simp only [newArray_eq hm hmemory, newArray_unlimited hmemory, if_pos hn]
    cases htype : ggufType t with
    | some t' =>
      have hne : t ≠ ggufTypeString := by
        rintro rfl
        cases htype
      dsimp only
      rw [if_neg hne]
      exact (lenient_arrayData hm _ _).bind_pure fun _ _ => rfl
    | none =>
      dsimp only
      by_cases hstring : t = ggufTypeString
      · rw [if_pos hstring, if_pos hstring, if_pos hstring]
        exact (lenient_stringsData hm hmemory _).bind_pure fun _ _ => rfl
      · rw [if_neg hstring, if_neg hstring]
        exact .of_failing (fun _ => rfl) (fun _ => rfl) _ _
  · simp only [newArray_eq hm hmemory, newArray_unlimited hmemory, if_neg hn]
    cases ggufType t with
    | some t' => exact .of_failing (fun _ => rfl) (fun _ => rfl) _ _
    | none =>
      dsimp only
      split
      · exact .of_failing (fun _ => rfl) (fun _ => rfl) _ _
      · exact .of_failing (fun _ => rfl) (fun _ => rfl) _ _

theorem lenient_keyValue : Lenient Skipped.Whole (readKeyValue c) (readKeyValue c.unlimited) (skippedKeyValue c)
    fun e => (e.1, e.2.limited m) := by
  unfold readKeyValue skippedKeyValue
  refine .after fun k _ => .after fun t _ => ?_
  cases htype : ggufType t with
  | some t' =>
    have hne : t ≠ ggufTypeArray := by
      rintro rfl
      cases htype
    dsimp only
    rw [if_neg hne]
    exact (Lenient.refl _).bind_pure fun _ _ => rfl
  | none =>
    dsimp only
    by_cases hstring : t = ggufTypeString
    · have hne : t ≠ ggufTypeArray := by
        rw [hstring]
        decide
      rw [if_pos hstring, if_pos hstring, if_neg hne]
      exact (Lenient.refl _).bind_pure fun _ _ => rfl
    · rw [if_neg hstring, if_neg hstring]
      by_cases harray : t = ggufTypeArray
      · rw [if_pos harray, if_pos harray, if_pos harray]
        exact (lenient_array hm hmemory).bind_pure fun _ _ => rfl
      · rw [if_neg harray, if_neg harray, if_neg harray]
        exact .of_failing (fun _ => rfl) (fun _ => rfl) _ _

theorem lenient_contents : Lenient Skipped.Whole (readContents c) (readContents c.unlimited) (skippedContents c)
    fun e => (e.1.limited m, e.2) := by
  unfold readContents skippedContents
  rw [← Reader.logBind_nil ((readKeyValue c).times c.numKV) ((readKeyValue c).logTimes _ _)]
  refine ((lenient_keyValue hm hmemory).times _).bind fun kvs _ => ?_
  refine (Lenient.refl _).bind_pure fun ts _ => ?_
  rw [KV.limited_foldl]
  rfl

end

theorem lenient_container (byteOrder : ByteOrder) (m : Nat) : Lenient Skipped.Whole (readContainer none byteOrder m)
    (readContainer none byteOrder (-1)) (fun _ => []) fun c => { c with maxArraySize := m } := by
  unfold readContainer
  rw [← Reader.logBind_nil (Reader.number shortError byteOrder 4) fun _ => []]
  exact .after fun _ _ => (Lenient.refl _).bind_pure fun _ _ => rfl

theorem container_maxArraySize {maxAlloc : Option Nat} {byteOrder : ByteOrder} {maxArraySize : Int} {c : ContainerGGUF}
    (h : ∃ input rest, readContainer maxAlloc byteOrder maxArraySize input = some (.ok c, rest)) :
    c.maxArraySize = maxArraySize := by
  obtain ⟨input, rest, h⟩ := h
  obtain ⟨version, mid, -, h⟩ := Reader.of_bind_ok h
  obtain ⟨counts, mid', -, h⟩ := Reader.of_bind_ok h
  cases h
  rfl

theorem lenient_file (m : Nat) : Lenient Skipped.Whole (readFile none m) (readFile none (-1)) (skippedFile m)
    fun e => (e.1.limited m, e.2) := by
  have hbody (byteOrder : ByteOrder) : Lenient Skipped.Whole (readContainer none byteOrder m >>= readContents)
      (readContainer none byteOrder (-1) >>= readContents)
      ((readContainer none byteOrder m).logBind (fun _ => []) skippedContents) fun e => (e.1.limited m, e.2) := by
    refine (lenient_container byteOrder m).bind fun c hc => ?_
    have hsame : c = ContainerGGUF.unlimited { c with maxArraySize := m } := by
      unfold ContainerGGUF.unlimited
      rw [← container_maxArraySize hc]
    have hmemory := container_maxAlloc hc
    have hcontents := @lenient_contents { c with maxArraySize := m } m rfl hmemory
    rwa [← hsame] at hcontents
  unfold readFile skippedFile
  refine .after fun magic _ => ?_
  by_cases hle : magic = FILE_MAGIC_GGUF_LE
  · rw [if_pos hle, if_pos hle, if_pos hle]
    exact hbody .little
  · rw [if_neg hle, if_neg hle, if_neg hle]
    by_cases hbe : magic = FILE_MAGIC_GGUF_BE
    · rw [if_pos hbe, if_pos hbe, if_pos hbe]
      exact hbody .big
    · rw [if_neg hbe, if_neg hbe, if_neg hbe]
      exact .of_failing (fun _ => rfl) (fun _ => rfl) _ _

/-! ## Decoding -/

def GGML.limited (m : Nat) (g : GGML) : GGML := { g with kv := g.kv.limited m }

theorem finishDecode_limited (m : Nat) (kv : KV) (tensors : List TensorInfo) (offset : Int) :
    finishDecode (kv.limited m) tensors offset = (finishDecode kv tensors offset).map (Except.map (GGML.limited m)) := by
  have hinsert (v : UInt64) : (kv.limited m).insert (ascii "general.parameter_count") (.datum (.scalar .uint64 v)) =
      KV.limited m (kv.insert (ascii "general.parameter_count") (.datum (.scalar .uint64 v))) := by
    rw [KV.limited_insert]
    rfl
  unfold finishDecode
  dsimp only
  rw [hinsert, KV.uint_limited]
  split
  · rfl
  · split <;> rfl

theorem decode_eq_ok {maxArraySize : Int} {file : Bytes} {g : GGML} : decode file maxArraySize = some (.ok g) ↔
    ∃ kv tensors rest, readFile none maxArraySize file = some (.ok (kv, tensors), rest) ∧
      finishDecode kv tensors (file.length - rest.length) = some (.ok g) := by
  unfold decode decodeWithin
  constructor
  · intro h
    split at h
    · cases h
    · cases h
    · rename_i kv tensors rest hread
      exact ⟨kv, tensors, rest, hread, h⟩
  · rintro ⟨kv, tensors, rest, hread, hfinish⟩
    rw [hread]
    exact hfinish

/-- What is decoded without a limit, and what of it with one. -/
theorem decode_limited_iff (m : Nat) (file : Bytes) (g : GGML) :
    (∃ g', decode file (-1) = some (.ok g') ∧ g'.limited m = g) ↔
      decode file m = some (.ok g) ∧ ∀ s ∈ skippedFile m file, s.Whole := by
  simp only [decode_eq_ok]
  constructor
  · rintro ⟨g', ⟨kv, tensors, rest, hread, hfinish⟩, rfl⟩
    obtain ⟨hlimited, hwhole⟩ := (lenient_file m file (kv.limited m, tensors) rest).mp ⟨_, hread, rfl⟩
    refine ⟨⟨_, _, _, hlimited, ?_⟩, hwhole⟩
    rw [finishDecode_limited, hfinish]
    rfl
  · rintro ⟨⟨kv, tensors, rest, hlimited, hfinish⟩, hwhole⟩
    obtain ⟨⟨kv', tensors'⟩, hread, heq⟩ := (lenient_file m file (kv, tensors) rest).mpr ⟨hlimited, hwhole⟩
    obtain ⟨rfl, rfl⟩ := Prod.mk.injEq .. ▸ heq
    rw [finishDecode_limited] at hfinish
    obtain ⟨r, hr, hmap⟩ := Option.map_eq_some_iff.mp hfinish
    cases r with
    | error e => cases hmap
    | ok g' =>
      refine ⟨g', ⟨_, _, _, hread, hr⟩, ?_⟩
      exact Except.ok.inj hmap

/-- The key-values and tensors can be read, and the data has an end. What is skipped is not looked at. -/
def Readable (maxArraySize : Int) (file : Bytes) : Prop :=
  ∃ kv tensors rest, readFile none maxArraySize file = some (.ok (kv, tensors), rest) ∧
    KV.uint kv (ascii "general.alignment") 32 ≠ 0 ∧
    ∃ pos, skipTensors (KV.uint kv (ascii "general.alignment") 32).toNat (file.length - rest.length) tensors =
      some (.ok pos)

theorem finishDecode_ok_iff (kv : KV) (tensors : List TensorInfo) (offset : Int) :
    (∃ g, finishDecode kv tensors offset = some (.ok g)) ↔ KV.uint kv (ascii "general.alignment") 32 ≠ 0 ∧
      ∃ pos, skipTensors (KV.uint kv (ascii "general.alignment") 32).toNat offset tensors = some (.ok pos) := by
  by_cases hzero : KV.uint kv (ascii "general.alignment") 32 = 0
  · rw [(finishDecode_none kv tensors offset).mpr hzero]
    exact iff_of_false (by simp) fun h => h.1 hzero
  · have hne : ((KV.uint kv (ascii "general.alignment") 32).toNat : Int) ≠ 0 := by
      intro h
      exact hzero (UInt32.toNat_inj.mp (by simpa using h))
    unfold finishDecode
    dsimp only
    rw [uint_alignment_insert]
    cases hpad : ggufPadding offset (KV.uint kv (ascii "general.alignment") 32).toNat with
    | none => exact absurd ((ggufPadding_none _ _).mp hpad) hne
    | some padding =>
      dsimp only
      cases hskip : skipTensors (KV.uint kv (ascii "general.alignment") 32).toNat offset tensors with
      | none => simp
      | some r =>
        cases r with
        | error e => simp
        | ok pos => simp [hzero]

theorem decode_ok_iff (maxArraySize : Int) (file : Bytes) :
    (∃ g, decode file maxArraySize = some (.ok g)) ↔ Readable maxArraySize file := by
  unfold Readable
  simp only [decode_eq_ok]
  constructor
  · rintro ⟨g, kv, tensors, rest, hread, hfinish⟩
    exact ⟨kv, tensors, rest, hread, (finishDecode_ok_iff _ _ _).mp ⟨g, hfinish⟩⟩
  · rintro ⟨kv, tensors, rest, hread, hend⟩
    obtain ⟨g, hfinish⟩ := (finishDecode_ok_iff _ _ _).mpr hend
    exact ⟨g, kv, tensors, rest, hread, hfinish⟩

/-- The same file, but for the values of large arrays. -/
structure SameFile (m : Nat) (g g' : GGML) : Prop where
  keys : g.kv.keys = g'.kv.keys
  values : ∀ k v, g'.kv.lookup k = some v → g.kv.lookup k = some (v.limited m)
  tensors : g.tensors = g'.tensors
  tensorOffset : g.tensorOffset = g'.tensorOffset

/-- The limit only decides whether values are kept. -/
def Unaffected (m : Nat) (file : Bytes) : Prop :=
  ((∃ g, decode file m = some (.ok g)) ↔ ∃ g, decode file (-1) = some (.ok g)) ∧
    ∀ g g', decode file m = some (.ok g) → decode file (-1) = some (.ok g') → SameFile m g g'

/-- One key-value: an array of one string, where the file ends. -/
def cutFile : Bytes :=
  [0x47, 0x47, 0x55, 0x46, 3, 0, 0, 0] ++ toLittle 8 0 ++ toLittle 8 1 ++ encodeString (ascii "k") ++ toLittle 4 9 ++
    toLittle 4 8 ++ toLittle 8 1

end Xdragon.Ggml
