import Mathlib.Data.Fintype.EquivFin
import Xdragon.Ggml.Decoded
import Xdragon.Gguf.Pulls
import Xdragon.Lib.Run

/-!
# The two readers of GGUF files

`ggml.Decode` and `gguf.File` read the same key-values and tensors of a file, in whatever order the lazy reader is
called. They see the data at the same place exactly when an alignment of 32 leads there as well: the lazy reader
looks for a signed alignment.
-/

open Xdragon.Lib

namespace Xdragon.Gguf

/-! ## Sessions -/

/-- The answer of a whole header to a call, if the data starts at `start`. -/
def Header.answer (h : Header) (start : Int) (numBytes : TensorInfo → Int) (s : Session) : Call → Answer
  | .keyValue key => .keyValue (h.keyValue key)
  | .keyValues => .begun
  | .nextKeyValue k => .yieldKeyValue ((s.keyValues[k]?).join.bind fun i => h.items[i]?.map (i, ·))
  | .tensorInfo name => .tensorInfo (h.tensorInfo name)
  | .tensorInfos => .begun
  | .nextTensorInfo k => .yieldTensorInfo ((s.tensorInfos[k]?).join.bind fun i => h.tensors[i]?.map (i, ·))
  | .tensorReader name => .tensorReader (h.tensorReader start numBytes name)

/-- No iteration is ahead of what was read. -/
structure Followed (h : Header) (data : Bytes) (s : Session) : Prop where
  tracks : Tracks h data s.file
  keyValues : ∀ (k : Nat) i, (s.keyValues[k]?).join = some i → i ≤ s.file.keyValues.values.length
  tensorInfos : ∀ (k : Nat) i, (s.tensorInfos[k]?).join = some i →
    i ≤ s.file.tensors.values.length ∧ s.file.keyValues.done = true

theorem Followed.later {h : Header} {data : Bytes} {s : Session} (hs : Followed h data s) {f : File}
    (hf : Tracks h data f) (hl : Later s.file f) : Followed h data { s with file := f } := by
  refine ⟨hf, fun k i hi => (hs.keyValues k i hi).trans hl.keyValues, fun k i hi => ?_⟩
  obtain ⟨hle, hdone⟩ := hs.tensorInfos k i hi
  exact ⟨hle.trans hl.tensors, hl.done hdone⟩

theorem join_set {l : List (Option Nat)} {k j : Nat} {o : Option Nat} {i : Nat}
    (h : ((l.set k o)[j]?).join = some i) : o = some i ∨ (l[j]?).join = some i := by
  rw [List.getElem?_set] at h
  split at h
  · split at h
    · exact .inl h
    · cases h
  · exact .inr h

theorem join_append {l : List (Option Nat)} {j i : Nat} (h : ((l ++ [some 0])[j]?).join = some i) :
    i = 0 ∨ (l[j]?).join = some i := by
  rw [List.getElem?_append] at h
  split at h
  · exact .inr h
  · cases hk : j - l.length with
    | zero =>
      rw [hk] at h
      exact .inl (Option.some.inj h).symm
    | succ n =>
      rw [hk] at h
      cases h

/-- A round of an iteration yields the value at its index. -/
theorem pull_spec {α : Type} {full : List α} {g : Lazy α} (hpart : Part full g) (hcount : full.length < 2 ^ 63) {i : Nat}
    (hi : i ≤ g.values.length) (next : Option (File × Option α)) (f : File) :
    (Session.pull i g next f = some (f, full[i]?) ∧ (full[i]? ≠ none → i < g.values.length)) ∨
      (i = g.values.length ∧ Session.pull i g next f = next) := by
  unfold Session.pull
  rw [hpart.count, toInt64_of_lt hcount]
  split
  · left
    have hnone : full[i]? = none := List.getElem?_eq_none (by omega)
    rw [hnone]
    exact ⟨rfl, fun h => absurd rfl h⟩
  · split
    · rename_i a ha
      have hlt := (List.getElem?_eq_some_iff.mp ha).1
      rw [← hpart.getElem? hlt, ha]
      exact .inl ⟨rfl, fun _ => hlt⟩
    · rename_i hnone
      rw [List.getElem?_eq_none_iff] at hnone
      exact .inr ⟨by omega, rfl⟩

section
variable {h : Header} (hwf : h.WellFormed) (halign : h.Unsigned) (numBytes : TensorInfo → Int) {data : Bytes} {s : Session}
  (hs : Followed h data s)
include hwf hs

theorem pullKeyValue_spec {i : Nat} (hi : i ≤ s.file.keyValues.values.length) : ∃ f',
    Session.pull i s.file.keyValues s.file.nextKeyValue s.file = some (f', h.items[i]?) ∧ Tracks h data f' ∧
      Later s.file f' ∧ (h.items[i]? ≠ none → i < f'.keyValues.values.length) := by
  have hcount : h.items.length < 2 ^ 63 := by
    rw [Header.items, List.length_map]
    exact hwf.numKV
  obtain ⟨hpull, hlt⟩ | ⟨rfl, hpull⟩ := pull_spec hs.tracks.keyValues hcount hi s.file.nextKeyValue s.file
  · exact ⟨s.file, hpull, hs.tracks, Later.refl _, hlt⟩
  · obtain ⟨f', hnext, hspec⟩ := nextKeyValue_spec hwf hs.tracks
    refine ⟨f', hpull.trans hnext, hspec.tracks, hspec.later, fun hne => ?_⟩
    have hlt : s.file.keyValues.values.length < h.items.length := by
      by_contra hge
      exact hne (List.getElem?_eq_none (by omega))
    rw [hspec.values, List.length_take]
    omega

include halign

theorem pullTensor_spec {i : Nat} (hi : i ≤ s.file.tensors.values.length) (hkv : s.file.keyValues.done = true) : ∃ f',
    Session.pull i s.file.tensors s.file.nextTensor s.file = some (f', h.tensors[i]?) ∧ Tracks h data f' ∧
      Later s.file f' ∧ (h.tensors[i]? ≠ none → i < f'.tensors.values.length) := by
  obtain ⟨hpull, hlt⟩ | ⟨rfl, hpull⟩ := pull_spec hs.tracks.tensors hwf.numTensor hi s.file.nextTensor s.file
  · exact ⟨s.file, hpull, hs.tracks, Later.refl _, hlt⟩
  · obtain ⟨f', hnext, hspec⟩ := nextTensor_spec hwf halign hs.tracks hkv
    refine ⟨f', hpull.trans hnext, hspec.tracks, hspec.later, fun hne => ?_⟩
    have hlt : s.file.tensors.values.length < h.tensors.length := by
      by_contra hge
      exact hne (List.getElem?_eq_none (by omega))
    rw [hspec.values, List.length_take]
    omega

/-- Each call is answered from the whole header. -/
theorem call_spec (c : Call) : ∃ s',
    s.call numBytes c = some (s', h.answer (alignUp 32 h.encode.length) numBytes s c) ∧ Followed h data s' := by
  cases c with
  | keyValue key =>
    obtain ⟨f', hf', ht, hl⟩ := keyValue_spec hwf key hs.tracks
    simp only [Session.call, hf', Option.map_some, Header.answer]
    exact ⟨_, rfl, hs.later ht hl⟩
  | keyValues =>
    refine ⟨_, rfl, hs.tracks, fun k i hi => ?_, hs.tensorInfos⟩
    obtain rfl | hi := join_append hi
    · exact Nat.zero_le _
    · exact hs.keyValues k i hi
  | nextKeyValue k =>
    simp only [Session.call, Header.answer]
    cases hk : (s.keyValues[k]?).join with
    | none => exact ⟨s, rfl, hs⟩
    | some i =>
      obtain ⟨f', hpull, ht, hl, hlt⟩ := pullKeyValue_spec hwf hs (hs.keyValues k i hk)
      dsimp only
      rw [hpull]
      refine ⟨_, rfl, ht, fun j n hn => ?_, (hs.later ht hl).tensorInfos⟩
      obtain hn | hn := join_set hn
      · obtain ⟨kv, hkv, rfl⟩ := Option.map_eq_some_iff.mp hn
        have hsome : h.items[i]? = some kv := hkv
        exact hlt (by rw [hsome]; simp)
      · exact (hs.later ht hl).keyValues j n hn
  | tensorInfo name =>
    obtain ⟨f', hf', ht, hl, -⟩ := tensorInfo_spec hwf halign name hs.tracks
    simp only [Session.call, hf', Option.map_some, Header.answer]
    exact ⟨_, rfl, hs.later ht hl⟩
  | tensorInfos =>
    obtain ⟨f', hf', ht, hl, -, hdone⟩ := restKeyValues_spec hwf hs.tracks
    simp only [Session.call, hf', Option.map_some, Header.answer]
    refine ⟨_, rfl, ht, (hs.later ht hl).keyValues, fun k i hi => ?_⟩
    obtain rfl | hi := join_append hi
    · exact ⟨Nat.zero_le _, hdone⟩
    · exact (hs.later ht hl).tensorInfos k i hi
  | nextTensorInfo k =>
    simp only [Session.call, Header.answer]
    cases hk : (s.tensorInfos[k]?).join with
    | none => exact ⟨s, rfl, hs⟩
    | some i =>
      obtain ⟨hle, hkv⟩ := hs.tensorInfos k i hk
      obtain ⟨f', hpull, ht, hl, hlt⟩ := pullTensor_spec hwf halign hs hle hkv
      dsimp only
      rw [hpull]
      refine ⟨_, rfl, ht, (hs.later ht hl).keyValues, fun j n hn => ?_⟩
      obtain hn | hn := join_set hn
      · obtain ⟨t, ht', rfl⟩ := Option.map_eq_some_iff.mp hn
        have hsome : h.tensors[i]? = some t := ht'
        exact ⟨hlt (by rw [hsome]; simp), hl.done hkv⟩
      · exact (hs.later ht hl).tensorInfos j n hn
  | tensorReader name =>
    obtain ⟨f', hf', ht, hl⟩ := tensorReader_spec hwf halign numBytes name hs.tracks
    simp only [Session.call, hf', Option.map_some, Header.answer]
    exact ⟨_, rfl, hs.later ht hl⟩

end

/-- A file that was opened is at the start of its header. -/
theorem openFile_spec {h : Header} (hwf : h.WellFormed) (data : Bytes) : ∃ f,
    openFile (h.encode ++ data) = some (.ok f) ∧ Tracks h data f := by
  have hversion : 2 ≤ h.version ∧ h.version < 256 ^ 4 := by
    obtain hv | hv := hwf.version <;> rw [hv] <;> decide
  have hKV := hwf.numKV
  have hTensor := hwf.numTensor
  have hread : Reads readHeader (magic ++ (toLittle 4 h.version ++ (toLittle 8 h.tensors.length ++
      toLittle 8 h.kvs.length))) (h.version, h.tensors.length, h.kvs.length) := by
    refine (Reads.bytes shortError magic).bind ?_
    rw [if_neg (by decide)]
    refine (reads_number 4 hversion.2).bind ?_
    rw [if_neg (by omega)]
    exact (reads_number 8 (by omega)).bind (reads_number 8 (by omega)).bind_pure
  let r : BufferedReader := { offset := 0, rest := h.encode ++ data }
  have hrest : r.rest = (magic ++ (toLittle 4 h.version ++ (toLittle 8 h.tensors.length ++ toLittle 8 h.kvs.length))) ++
      (h.items.flatMap KeyValue.encode ++ (h.tensors.flatMap TensorInfo.encode ++ data)) := by
    rw [h.items_encode]
    simp only [r, Header.encode, List.append_assoc]
  unfold openFile
  rw [BufferedReader.run_reads hread hrest]
  have hlen := congrArg List.length hrest
  refine ⟨_, rfl, ⟨?_, rfl, fun hd => by cases hd⟩, ⟨rfl, rfl, fun hd => by cases hd⟩, rfl, ?_, fun _ => ⟨rfl, rfl⟩,
    fun hd => by cases hd⟩
  · rw [Header.items, List.length_map]
  · simp only [r, List.length_append] at hlen ⊢
    omega

/-! ## Files -/

/-- The value of `general.alignment`. -/
def Header.alignment (h : Header) : Nat :=
  match (h.find (ascii "general.alignment")).value with
  | some (.scalar .uint32 v) => UInt32.toNat v
  | _ => 32

/-- A header and the rest of its file: the keys are distinct, the alignment is a positive number without a sign, and
the data of each tensor is there. -/
structure WellFormed (h : Header) (data : Bytes) : Prop where
  header : h.WellFormed
  keys : (h.kvs.map Prod.fst).Nodup
  alignment : ∀ d, (ascii "general.alignment", d) ∈ h.kvs → ∃ v : UInt32, d = .scalar .uint32 v ∧ 0 < v
  length : (h.encode ++ data).length < 2 ^ 63
  present : ∀ t ∈ h.tensors, alignUp h.alignment h.encode.length + t.offset.toNat +
    (Ggml.tensorSize t.kind t.shape).toNat ≤ (h.encode ++ data).length

theorem Header.find_value (h : Header) (key : Bytes) :
    (h.find key).value = (h.kvs.find? (·.1 = key)).map Prod.snd := by
  unfold find items
  rw [List.find?_map]
  have hcomp : ((fun kv : KeyValue => decide (kv.key = key)) ∘ fun kv : Bytes × Datum =>
      ({ key := kv.1, value := some kv.2 } : KeyValue)) = fun e => decide (e.1 = key) := rfl
  rw [hcomp]
  cases h.kvs.find? (·.1 = key) <;> rfl

section
variable {h : Header} {data : Bytes} (hfile : WellFormed h data)
include hfile

theorem WellFormed.find_alignment : (h.find (ascii "general.alignment")).value = none ∨
    ∃ v : UInt32, (h.find (ascii "general.alignment")).value = some (.scalar .uint32 v) ∧ 0 < v := by
  rw [h.find_value]
  cases hfind : h.kvs.find? (·.1 = ascii "general.alignment") with
  | none => exact .inl rfl
  | some e =>
    have hmem := List.mem_of_find?_eq_some hfind
    have hkey : e.1 = ascii "general.alignment" := by simpa using List.find?_some hfind
    obtain ⟨v, hv, hpos⟩ := hfile.alignment e.2 (hkey ▸ hmem)
    exact .inr ⟨v, congrArg some hv, hpos⟩

theorem WellFormed.unsigned : h.Unsigned := by
  unfold Header.Unsigned KeyValue.int
  obtain hv | ⟨v, hv, -⟩ := hfile.find_alignment
  · rw [hv]
  · rw [hv]

theorem WellFormed.uint : (Ggml.KV.uint (Ggml.KV.ofList h.kvs) (ascii "general.alignment") 32).toNat = h.alignment := by
  have hvalue := h.find_value (ascii "general.alignment")
  rw [Ggml.uint_alignment, Ggml.lookup_ofList hfile.keys]
  unfold Header.alignment
  obtain hv | ⟨v, hv, -⟩ := hfile.find_alignment
  · rw [hv] at hvalue ⊢
    rw [Option.map_eq_none_iff.mp hvalue.symm]
    rfl
  · rw [hv] at hvalue ⊢
    obtain ⟨e, he, hsnd⟩ := Option.map_eq_some_iff.mp hvalue.symm
    rw [he, Option.map_some, hsnd]
    rfl

theorem WellFormed.alignment_pos : 0 < h.alignment := by
  unfold Header.alignment
  obtain hv | ⟨v, hv, hpos⟩ := hfile.find_alignment
  · rw [hv]
    exact Nat.succ_pos _
  · rw [hv]
    exact hpos

theorem WellFormed.size {t : TensorInfo} (ht : t ∈ h.tensors) : (Ggml.tensorSize t.kind t.shape).toNat < 2 ^ 63 := by
  have h1 := hfile.present t ht
  have h2 := hfile.length
  omega

end

/-- The two readers have the same key-values, apart from the parameter count, the same tensors and the same start of
the data, in every session of the lazy reader. -/
def ReadersAgree (h : Header) (data : Bytes) (numBytes : TensorInfo → Int) : Prop :=
  ∃ g f, Ggml.decode (h.encode ++ data) (-1) = some (.ok g) ∧ openFile (h.encode ++ data) = some (.ok f) ∧
    g.tensors = h.tensors ∧
    (∀ k, k ≠ ascii "general.parameter_count" → g.kv.lookup k = (h.find k).value.map Ggml.Value.ofDatum) ∧
    ∀ s, Reaches (fun s c => (Session.call numBytes s c).map Prod.fst) (fun _ _ => True) (· = { file := f }) s →
      (∀ c, ∃ s', s.call numBytes c = some (s', h.answer g.tensorOffset numBytes s c)) ∧
        (s.file.tensors.done = true → s.file.offset = g.tensorOffset)

theorem followed_of_reaches {h : Header} {data : Bytes} (hfile : WellFormed h data) {numBytes : TensorInfo → Int} {f : File}
    (hf : Tracks h data f) {s : Session}
    (hs : Reaches (fun s c => (Session.call numBytes s c).map Prod.fst) (fun _ _ => True) (· = { file := f }) s) :
    Followed h data s := by
  refine hs.invariant (fun s hs => ?_) fun s c s' hs _ hc => ?_
  · rw [hs]
    exact ⟨hf, fun k i hi => (nomatch hi), fun k i hi => (nomatch hi)⟩
  · obtain ⟨s₁, h₁, hs₁⟩ := call_spec hfile.header hfile.unsigned numBytes hs c
    rw [h₁] at hc
    cases hc
    exact hs₁

section
variable {h : Header} {data : Bytes} (hfile : WellFormed h data) (numBytes : TensorInfo → Int)
include hfile

theorem ReadersAgree.starts (hagree : ReadersAgree h data numBytes) :
    alignUp h.alignment h.encode.length = alignUp 32 h.encode.length ∧
      Ggml.dataEnd h.alignment h.encode.length h.tensors < 2 ^ 63 := by
  have ha := hfile.alignment_pos
  have hdecode := Ggml.decode_eq hfile.header (by decide : (-1 : Int) < 0) data
  obtain ⟨f, hopen, hf⟩ := openFile_spec hfile.header data
  rw [← hfile.uint] at ha ⊢
  obtain ⟨g, f', hg, hf', -, -, hsessions⟩ := hagree
  rw [hopen] at hf'
  cases hf'
  rw [hdecode] at hg
  have hend : Ggml.dataEnd (Ggml.KV.uint (Ggml.KV.ofList h.kvs) (ascii "general.alignment") 32).toNat h.encode.length
      h.tensors < 2 ^ 63 := by
    by_contra hge
    obtain ⟨e, he⟩ := Ggml.finishDecode_error ha (fun t ht => hfile.size ht) hfile.header.length (by omega)
    rw [he] at hg
    cases hg
  rw [Ggml.finishDecode_ok ha (fun t ht => hfile.size ht) hend] at hg
  cases hg
  -- a name that no tensor has makes the lazy reader read all of them
  obtain ⟨name, hname⟩ := Infinite.exists_notMem_finset (h.tensors.map (·.name)).toFinset
  have hnone : h.tensors.find? (·.name = name) = none := by
    rw [List.find?_eq_none]
    intro t ht htn
    refine hname (List.mem_toFinset.mpr (List.mem_map.mpr ⟨t, ht, ?_⟩))
    simpa using htn
  obtain ⟨f₁, h₁, ht₁, -, -, hdone⟩ := tensorInfo_spec hfile.header hfile.unsigned name hf
  have hreach : Reaches (fun s c => (Session.call numBytes s c).map Prod.fst) (fun _ _ => True) (· = { file := f })
      { file := f₁ } := by
    refine .step (.tensorInfo name) (.init rfl) trivial ?_
    simp only [Session.call, h₁, Option.map_some]
  have hstart := (hsessions _ hreach).2 (hdone hnone)
  rw [ht₁.start (hdone hnone)] at hstart
  dsimp only at hstart
  exact ⟨by exact_mod_cast hstart.symm, hend⟩

theorem readersAgree_of_starts (hsame : alignUp h.alignment h.encode.length = alignUp 32 h.encode.length)
    (hend : Ggml.dataEnd h.alignment h.encode.length h.tensors < 2 ^ 63) : ReadersAgree h data numBytes := by
  have ha := hfile.alignment_pos
  have hdecode := Ggml.decode_eq hfile.header (by decide : (-1 : Int) < 0) data
  obtain ⟨f, hopen, hf⟩ := openFile_spec hfile.header data
  rw [← hfile.uint] at ha hsame hend
  refine ⟨_, f, hdecode.trans (Ggml.finishDecode_ok ha (fun t ht => hfile.size ht) hend), hopen, rfl, fun k hk => ?_,
    fun s hs => ?_⟩
  · dsimp only
    rw [AList.lookup_insert_ne hk, Ggml.lookup_ofList hfile.keys, h.find_value, Option.map_map]
    rfl
  · have hfollowed := followed_of_reaches hfile hf hs
    dsimp only
    rw [hsame]
    refine ⟨fun c => ?_, hfollowed.tracks.start⟩
    obtain ⟨s', hs', -⟩ := call_spec hfile.header hfile.unsigned numBytes hfollowed c
    exact ⟨s', hs'⟩

/-- The readers agree exactly if the data would start at the same place with an alignment of 32, and the tensors one
after another end where a position can be. -/
theorem readers_agree_iff :
    ReadersAgree h data numBytes ↔ alignUp h.alignment h.encode.length = alignUp 32 h.encode.length ∧
      Ggml.dataEnd h.alignment h.encode.length h.tensors < 2 ^ 63 :=
  ⟨ReadersAgree.starts hfile numBytes, fun hs => readersAgree_of_starts hfile numBytes hs.1 hs.2⟩

end

/-- A file with one tensor of one number. -/
def single (alignment : UInt32) : Header :=
  { version := 3
    kvs := [(ascii "general.alignment", .scalar .uint32 alignment)]
    tensors := [{ name := ascii "a", shape := [1], kind := 0, offset := 0 }] }

theorem single_wellFormed {alignment : UInt32} (hpos : 0 < alignment) {data : Bytes} (hdata : data.length < 2 ^ 32)
    (hpresent : alignUp (single alignment).alignment 90 + 4 ≤ 90 + data.length) : WellFormed (single alignment) data := by
  have hlength : (single alignment).encode.length = 90 := by
    simp only [single, Header.encode, List.length_append, List.flatMap_cons, List.flatMap_nil, encodeKeyValue,
      TensorInfo.encode, encodeString, Datum.encode, encodeScalar, length_toLittle, List.length_nil]
    decide
  refine ⟨⟨.inr rfl, by simp [single], by omega⟩, by simp [single], ?_, by rw [List.length_append]; omega, ?_⟩
  · intro d hd
    simp only [single, List.mem_singleton, Prod.mk.injEq, true_and] at hd
    exact ⟨alignment, hd, hpos⟩
  · intro t ht
    rw [List.length_append, hlength]
    obtain rfl : t = { name := ascii "a", shape := [1], kind := 0, offset := 0 } := List.mem_singleton.mp ht
    have hsize : (Ggml.tensorSize 0 [1]).toNat = 4 := by decide
    dsimp only
    rw [hsize]
    exact hpresent

theorem single_agree : ReadersAgree (single 32) (List.replicate 10 0) fun _ => 4 :=
  (readers_agree_iff (single_wellFormed (by decide) (by decide) (by decide)) _).mpr (by decide)

theorem single_disagree : WellFormed (single 128) (List.replicate 42 0) ∧
    ¬ ReadersAgree (single 128) (List.replicate 42 0) fun _ => 4 := by
  have hfile : WellFormed (single 128) (List.replicate 42 0) := single_wellFormed (by decide) (by decide) (by decide)
  refine ⟨hfile, fun hagree => ?_⟩
  have hstarts := (hagree.starts hfile).1
  revert hstarts
  decide

end Xdragon.Gguf
