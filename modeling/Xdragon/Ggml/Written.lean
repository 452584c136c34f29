import Xdragon.Ggml.Layout
import Xdragon.Ggml.Lengths

/-!
# What `WriteGGUF` leaves behind

The key-values of the file are those of the map, under the keys of the file. Its data is that of the tensors, and zero
between them.
-/

namespace Xdragon.Ggml

open Xdragon.Lib Xdragon.Gguf

/-! ## Values -/

/-- The value as `Decode` gives it: an array has all its values, and a number its own type. -/
def Value.loaded : Value → Value
  | .datum (.array t vs) => .array t { size := vs.length, values := some vs }
  | .datum (.strings vs) => .stringArray { size := vs.length, values := some vs }
  | .fileType v => .datum (.scalar .uint32 v)
  | .array t a => .array t { size := a.size, values := some (a.values.getD []) }
  | .stringArray a => .stringArray { size := a.size, values := some (a.values.getD []) }
  | v => v

/-- An array has as many values as its size says. -/
def Value.Complete : Value → Prop
  | .array _ a => a.size = (a.values.getD []).length
  | .stringArray a => a.size = (a.values.getD []).length
  | _ => True

instance : DecidablePred Value.Complete
  | .datum _ => .isTrue trivial
  | .fileType _ => .isTrue trivial
  | .array _ a => inferInstanceAs (Decidable (a.size = (a.values.getD []).length))
  | .stringArray a => inferInstanceAs (Decidable (a.size = (a.values.getD []).length))

/-- A value that is written is read back if it is complete. -/
theorem loaded_iff {v : Value} {d : Datum} (h : v.written = some d) : Value.ofDatum d = v.loaded ↔ v.Complete := by
  cases v with
  | datum e =>
    cases e with
    | scalar t v =>
      obtain ⟨-, heq⟩ := Option.ite_none_right_eq_some.mp h
      obtain rfl := Option.some.inj heq
      exact iff_of_true rfl trivial
    | string s =>
      obtain rfl := Option.some.inj h
      exact iff_of_true rfl trivial
    | array t vs =>
      obtain ⟨-, heq⟩ := Option.ite_none_right_eq_some.mp h
      obtain rfl := Option.some.inj heq
      exact iff_of_true rfl trivial
    | strings vs =>
      obtain rfl := Option.some.inj h
      exact iff_of_true rfl trivial
  | fileType v =>
    obtain rfl := Option.some.inj h
    exact iff_of_true rfl trivial
  | array t a =>
    obtain ⟨-, heq⟩ := Option.ite_none_right_eq_some.mp h
    obtain rfl := Option.some.inj heq
    simp [Value.ofDatum, Value.loaded, Value.Complete, eq_comm]
  | stringArray a =>
    obtain rfl := Option.some.inj h
    simp [Value.ofDatum, Value.loaded, Value.Complete, eq_comm]

theorem complete_of_scalar {v : Value} {t : ScalarType} {n : t.Carrier} (h : v.loaded = .datum (.scalar t n)) :
    v.Complete := by
  cases v with
  | datum e => trivial
  | fileType v => trivial
  | array t a => cases h
  | stringArray a => cases h

/-! ## The header -/

section
variable {kv : KV} {arch : Bytes}

theorem writeKVs_cons {k : Bytes} {ks : List Bytes} {es : List (Bytes × Datum)}
    (h : writeKVs kv arch (k :: ks) = .ok es) : ∃ v d es', kv.lookup k = some v ∧ v.written = some d ∧
      es = (storedKey arch k, d) :: es' ∧ writeKVs kv arch ks = .ok es' := by
  unfold writeKVs ggufWriteKV at h
  cases hv : (kv.lookup k).bind Value.written with
  | none =>
    rw [hv] at h
    cases h
  | some d =>
    rw [hv] at h
    obtain ⟨v, hv, hd⟩ := Option.bind_eq_some_iff.mp hv
    dsimp only at h
    cases hrest : writeKVs kv arch ks with
    | error e =>
      rw [hrest] at h
      cases h
    | ok es' =>
      rw [hrest] at h
      obtain rfl := Except.ok.inj h
      exact ⟨v, d, es', hv, hd, rfl, rfl⟩

/-- The length of a key-value in the file. -/
def entryLength (kv : KV) (arch k : Bytes) : Nat :=
  ((kv.lookup k).bind Value.written).elim 0 fun d => (encodeKeyValue (storedKey arch k, d)).length

theorem writeKVs_length {ks : List Bytes} {es : List (Bytes × Datum)} (h : writeKVs kv arch ks = .ok es) :
    (es.flatMap encodeKeyValue).length = (ks.map (entryLength kv arch)).sum := by
  induction ks generalizing es with
  | nil =>
    obtain rfl := Except.ok.inj h
    rfl
  | cons k ks ih =>
    obtain ⟨v, d, es', hv, hd, rfl, hrest⟩ := writeKVs_cons h
    have hentry : entryLength kv arch k = (encodeKeyValue (storedKey arch k, d)).length := by
      unfold entryLength
      rw [hv, Option.bind_some, hd]
      rfl
    rw [List.flatMap_cons, List.length_append, ih hrest, List.map_cons, List.sum_cons, hentry]

theorem writeKVs_keys {ks : List Bytes} {es : List (Bytes × Datum)} (h : writeKVs kv arch ks = .ok es) :
    es.map Prod.fst = ks.map (storedKey arch) := by
  induction ks generalizing es with
  | nil =>
    obtain rfl := Except.ok.inj h
    rfl
  | cons k ks ih =>
    obtain ⟨v, d, es', -, -, rfl, hrest⟩ := writeKVs_cons h
    rw [List.map_cons, List.map_cons, ih hrest]

/-- Each key of the map is in the file, with what is written of its value. -/
theorem mem_writeKVs {ks : List Bytes} {es : List (Bytes × Datum)} (h : writeKVs kv arch ks = .ok es) {k : Bytes}
    (hk : k ∈ ks) : ∃ v d, kv.lookup k = some v ∧ v.written = some d ∧ (storedKey arch k, d) ∈ es := by
  induction ks generalizing es with
  | nil => cases hk
  | cons k' ks ih =>
    obtain ⟨v, d, es', hv, hd, rfl, hrest⟩ := writeKVs_cons h
    rcases List.mem_cons.mp hk with rfl | hk
    · exact ⟨v, d, hv, hd, List.mem_cons_self ..⟩
    · obtain ⟨v', d', hv', hd', hmem⟩ := ih hrest hk
      exact ⟨v', d', hv', hd', List.mem_cons_of_mem _ hmem⟩

end

/-- The architecture that is written. -/
def writtenArch (kv : KV) : Bytes := kv.string (ascii "general.architecture") []

/-- What a header of the writer says of the map and the tensors. -/
structure HeaderOf (sscanf : Bytes → Option Int) (kv : KV) (ts : List Tensor) (h : Header) : Prop where
  version : h.version = 3
  keys : (h.kvs.map Prod.fst).Perm (kv.keys.map (storedKey (writtenArch kv)))
  values : ∀ k v, kv.lookup k = some v → ∃ d, v.written = some d ∧ (storedKey (writtenArch kv) k, d) ∈ h.kvs
  length : (h.kvs.flatMap encodeKeyValue).length = (kv.keys.map (entryLength kv (writtenArch kv))).sum
  offsets : assignOffsets (KV.uint kv (ascii "general.alignment") 32).toNat 0
    (ts.insertionSort (Tensor.le sscanf)) = some h.tensors

theorem writeGGUF_ok {sscanf : Bytes → Option Int} {kv : KV} {ts : List Tensor} {h : Header} {ws : List (Int × Bytes)}
    (hw : writeGGUF sscanf kv ts = some (.ok (h, ws))) : HeaderOf sscanf kv ts h ∧
      ∃ padding, ggufPadding h.encode.length (KV.uint kv (ascii "general.alignment") 32).toNat = some padding ∧
        ws = ((ts.insertionSort (Tensor.le sscanf)).zip h.tensors).flatMap
          fun e => writesFrom (h.encode.length + padding + toInt64 e.2.offset.toNat) e.1.pieces := by
  unfold writeGGUF at hw
  dsimp only at hw
  split at hw
  · cases hw
  cases hkvs : writeKVs kv (kv.string (ascii "general.architecture") []) (kv.keys.insertionSort (· ≤ ·)) with
  | error e =>
    rw [hkvs] at hw
    cases hw
  | ok kvs =>
    rw [hkvs] at hw
    dsimp only at hw
    cases hinfos : assignOffsets (KV.uint kv (ascii "general.alignment") 32).toNat 0
        (ts.insertionSort (Tensor.le sscanf)) with
    | none =>
      rw [hinfos] at hw
      cases hw
    | some infos =>
      rw [hinfos] at hw
      dsimp only at hw
      cases hpad : ggufPadding (Header.encode { version := 3, kvs := kvs, tensors := infos }).length
          (KV.uint kv (ascii "general.alignment") 32).toNat with
      | none =>
        rw [hpad] at hw
        cases hw
      | some padding =>
        rw [hpad] at hw
        simp only [Option.some.injEq, Except.ok.injEq, Prod.mk.injEq] at hw
        obtain ⟨rfl, rfl⟩ := hw
        refine ⟨⟨rfl, ?_, ?_, ?_, hinfos⟩, padding, hpad, rfl⟩
        · rw [writeKVs_keys hkvs]
          exact (List.perm_insertionSort _ _).map _
        · intro k v hv
          have hk : k ∈ kv.keys.insertionSort (· ≤ ·) := by
            rw [(List.perm_insertionSort _ _).mem_iff]
            exact AList.lookup_isSome.mp (by rw [hv]; rfl)
          obtain ⟨v', d, hv', hd, hmem⟩ := mem_writeKVs hkvs hk
          rw [hv, Option.some.injEq] at hv'
          exact ⟨d, hv' ▸ hd, hmem⟩
        · rw [writeKVs_length hkvs]
          exact ((List.perm_insertionSort _ _).map _).sum_eq

/-! ## The map -/

theorem lookup_of_mem {kvs : List (Bytes × Datum)} (hnd : (kvs.map Prod.fst).Nodup) {e : Bytes × Datum} (he : e ∈ kvs) :
    (KV.ofList kvs).lookup e.1 = some (Value.ofDatum e.2) := by
  rw [lookup_ofList hnd]
  cases hfind : kvs.find? (·.1 = e.1) with
  | none =>
    rw [List.find?_eq_none] at hfind
    exact absurd (decide_eq_true rfl) (hfind e he)
  | some e' =>
    have hkey : e'.1 = e.1 := by simpa using List.find?_some hfind
    rw [Option.map_some, List.inj_on_of_nodup_map hnd (List.mem_of_find?_eq_some hfind) he hkey]

theorem lookup_of_not_mem {kvs : List (Bytes × Datum)} (hnd : (kvs.map Prod.fst).Nodup) {k : Bytes}
    (hk : k ∉ kvs.map Prod.fst) : (KV.ofList kvs).lookup k = none := by
  rw [lookup_ofList hnd, Option.map_eq_none_iff, List.find?_eq_none]
  intro e he
  rw [decide_eq_true_eq]
  rintro rfl
  exact hk (List.mem_map_of_mem he)

/-- The alignment of the file, for its readers. -/
def readAlignment (kv : KV) : UInt32 :=
  match kv.keys.find? (storedKey (writtenArch kv) · = ascii "general.alignment") with
  | none => 32
  | some k => ((kv.lookup k).bind fun v => uint32Of v.loaded).getD 32

theorem uint32Of_written {v : Value} {d : Datum} (h : v.written = some d) :
    uint32Of (Value.ofDatum d) = uint32Of v.loaded := by
  by_cases hc : v.Complete
  · rw [(loaded_iff h).mpr hc]
  · cases v with
    | datum e => exact absurd trivial hc
    | fileType v => exact absurd trivial hc
    | array t a =>
      obtain ⟨-, heq⟩ := Option.ite_none_right_eq_some.mp h
      obtain rfl := Option.some.inj heq
      rfl
    | stringArray a =>
      obtain rfl := Option.some.inj h
      rfl

section
variable {sscanf : Bytes → Option Int} {kv : KV} {ts : List Tensor} {h : Header}
  (hheader : HeaderOf sscanf kv ts h) (hnd : (kv.keys.map (storedKey (writtenArch kv))).Nodup)
include hheader hnd

theorem HeaderOf.lookup {k : Bytes} {v : Value} (hv : kv.lookup k = some v) : ∃ d, v.written = some d ∧
    (KV.ofList h.kvs).lookup (storedKey (writtenArch kv) k) = some (Value.ofDatum d) := by
  obtain ⟨d, hd, hmem⟩ := hheader.values k v hv
  exact ⟨d, hd, lookup_of_mem (hheader.keys.nodup_iff.mpr hnd) hmem⟩

theorem HeaderOf.readAlignment : KV.uint (KV.ofList h.kvs) (ascii "general.alignment") 32 = readAlignment kv := by
  rw [uint_alignment_of]
  unfold Ggml.readAlignment
  cases hfind : kv.keys.find? (storedKey (writtenArch kv) · = ascii "general.alignment") with
  | none =>
    rw [lookup_of_not_mem (hheader.keys.nodup_iff.mpr hnd)]
    · rfl
    · rw [hheader.keys.mem_iff, List.mem_map]
      rintro ⟨k, hk, heq⟩
      exact List.find?_eq_none.mp hfind k hk (decide_eq_true heq)
  | some k =>
    have hkey : storedKey (writtenArch kv) k = ascii "general.alignment" := by simpa using List.find?_some hfind
    obtain ⟨v, hv⟩ := Option.isSome_iff_exists.mp (AList.lookup_isSome.mpr (List.mem_of_find?_eq_some hfind))
    obtain ⟨d, hd, hlookup⟩ := hheader.lookup hnd hv
    rw [← hkey, hlookup]
    dsimp only
    rw [hv, Option.bind_some, Option.bind_some, uint32Of_written hd]

end

/-! ## The file -/

/-- The alignment of the writer. -/
def writtenAlignment (kv : KV) : Nat := (KV.uint kv (ascii "general.alignment") 32).toNat

/-- The tensors in the order of the file. -/
def sortedTensors (sscanf : Bytes → Option Int) (ts : List Tensor) : List Tensor := ts.insertionSort (Tensor.le sscanf)

def headerLength (kv : KV) (ts : List Tensor) : Nat :=
  24 + (kv.keys.map (entryLength kv (writtenArch kv))).sum + (ts.map fun t => (t.info 0).encode.length).sum

/-- `WriteGGUF` writes this header and returns no error, and the goroutines leave this file. The end of the data is an
`int64`. -/
def Written (sscanf : Bytes → Option Int) (kv : KV) (ts : List Tensor) (h : Header) (file : Bytes) : Prop :=
  ∃ ws order, writeGGUF sscanf kv ts = some (.ok (h, ws)) ∧ order.Perm ws ∧ file = writtenFile h order ∧
    dataEnd (writtenAlignment kv) h.encode.length h.tensors < 2 ^ 63

/-- The keys stay distinct in the file, and so are the names; each tensor has the bytes of its size. -/
structure Proper (kv : KV) (ts : List Tensor) : Prop where
  keys : (kv.keys.map (storedKey (writtenArch kv))).Nodup
  names : (ts.map Tensor.name).Nodup
  sizes : ∀ t ∈ ts, t.content.length = t.size.toNat

/-- The file, with the alignment `a` and the start `d` of the data. -/
structure Stands (sscanf : Bytes → Option Int) (kv : KV) (ts : List Tensor) (h : Header) (file : Bytes) (a d : Nat) :
    Prop where
  header : HeaderOf sscanf kv ts h
  alignment : writtenAlignment kv = a
  pos : 0 < a
  start : alignUp a h.encode.length = d
  laid : Laid a 0 (sortedTensors sscanf ts) h.tensors
  fits : dataEnd a h.encode.length h.tensors < 2 ^ 63
  data : ∃ data, file = h.encode ++ data
  content : ∀ e ∈ (sortedTensors sscanf ts).zip h.tensors,
    (file.drop (d + e.2.offset.toNat)).take e.1.content.length = e.1.content
  length : file.length = h.encode.length ∨ ∃ e ∈ (sortedTensors sscanf ts).zip h.tensors,
    e.1.content ≠ [] ∧ file.length ≤ d + e.2.offset.toNat + e.1.content.length
  hole : ∀ x b, h.encode.length ≤ x → file[x]? = some b → b = 0 ∨ ∃ e ∈ (sortedTensors sscanf ts).zip h.tensors,
    d + e.2.offset.toNat ≤ x ∧ x < d + e.2.offset.toNat + e.1.content.length

section
variable {sscanf : Bytes → Option Int} {kv : KV} {ts : List Tensor} {h : Header} {file : Bytes} {a d : Nat}

theorem mem_sortedTensors {t : Tensor} : t ∈ sortedTensors sscanf ts ↔ t ∈ ts :=
  (List.perm_insertionSort _ _).mem_iff

theorem Written.stands (hw : Written sscanf kv ts h file) (hp : Proper kv ts) :
    ∃ a d, Stands sscanf kv ts h file a d := by
  obtain ⟨ws, order, hwrite, hperm, rfl, hend⟩ := hw
  obtain ⟨hheader, padding, hpad, rfl⟩ := writeGGUF_ok hwrite
  have hoffsets := hheader.offsets
  have hsmall : writtenAlignment kv < 2 ^ 32 := (KV.uint kv (ascii "general.alignment") 32).toNat_lt
  change ggufPadding _ (writtenAlignment kv) = _ at hpad
  change assignOffsets (writtenAlignment kv) 0 _ = _ at hoffsets
  generalize ha : writtenAlignment kv = a at hpad hend hoffsets hsmall
  have hpos : 0 < a := by
    apply Nat.pos_of_ne_zero
    rintro rfl
    cases hpad
  rw [ggufPadding_eq hpos] at hpad
  obtain rfl := Option.some.inj hpad
  have hd : a ∣ alignUp a h.encode.length := dvd_alignUp _ hpos
  have hlaid : Laid a 0 (sortedTensors sscanf ts) h.tensors :=
    assignOffsets_laid hpos hsmall hd hoffsets (Nat.add_zero _).symm hend
  have hsizes : ∀ t ∈ sortedTensors sscanf ts, t.content.length = t.size.toNat := fun t ht =>
    hp.sizes t (mem_sortedTensors.mp ht)
  have hplaced : ((sortedTensors sscanf ts).zip h.tensors).flatMap (fun e => (writesFrom
      (h.encode.length + (alignUp a h.encode.length - h.encode.length) + toInt64 e.2.offset.toNat) e.1.pieces).map
        (fun w => (w.1.toNat, w.2))) =
      placedAll (alignUp a h.encode.length) (sortedTensors sscanf ts) h.tensors := by
    refine List.flatMap_congr fun e he => ?_
    have hle := hlaid.end_le hd (Nat.add_zero _).symm e.2 (List.of_mem_zip he).2
    have hcast : (h.encode.length + (alignUp a h.encode.length - h.encode.length) + e.2.offset.toNat : Int) =
        (alignUp a h.encode.length + e.2.offset.toNat : Nat) := by omega
    rw [toInt64_of_lt (by omega), hcast, writesFrom_placed]
  rw [← List.map_flatMap] at hplaced
  refine ⟨a, alignUp a h.encode.length, hheader, ha, hpos, rfl, hlaid, hend, ?_, ?_, ?_, ?_⟩
  · exact writtenFile_header hperm hplaced (le_alignUp _ _)
  · exact fun e he => writtenFile_content hperm hplaced hlaid hsizes he
  · exact length_writtenFile hperm hplaced
  · exact fun x b hx hb => writtenFile_hole hperm hplaced hx hb

namespace Stands

variable (hs : Stands sscanf kv ts h file a d)
include hs

theorem headerLength : h.encode.length = headerLength kv ts := by
  have hinfos : (h.tensors.flatMap TensorInfo.encode).length = (ts.map fun t => (t.info 0).encode.length).sum := by
    rw [List.length_flatMap, hs.laid.lengths]
    exact ((List.perm_insertionSort _ _).map _).sum_eq
  have hmagic : magic.length = 4 := rfl
  simp only [Header.encode, List.length_append, length_toLittle, hs.header.length, hinfos, hmagic, Ggml.headerLength]
  omega

theorem header_le : h.encode.length ≤ d := by
  rw [← hs.start]
  exact le_alignUp _ _

/-- A byte of a tensor in the file. -/
theorem getElem? {e : Tensor × TensorInfo} (he : e ∈ (sortedTensors sscanf ts).zip h.tensors) {i : Nat}
    (hi : i < e.1.content.length) : file[d + e.2.offset.toNat + i]? = e.1.content[i]? :=
  take_drop_eq_iff.mp (hs.content e he) i hi

end Stands

end

end Xdragon.Ggml
