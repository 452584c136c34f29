import Xdragon.Ggml.Written

/-!
# What is written is read back

`Decode` of a file of `WriteGGUF` gives the key-values and the tensors again. Three things are lost on the way: the size
of an array whose values were not kept, a shape of too many dimensions, and bare keys of an architecture "general",
which the file has under the names that the readers take for their own.
-/

namespace Xdragon.Ggml

open Xdragon.Lib Xdragon.Gguf

/-! ## Shapes that are read -/

theorem ofLittle_lt (bs : Bytes) : ofLittle bs < 256 ^ bs.length := by
  induction bs with
  | nil => decide
  | cons b bs ih =>
    have hb := b.toNat_lt
    rw [ofLittle, List.length_cons, pow_succ]
    omega

theorem number_lt {ε : Type} {short : Bytes → ε} {order : ByteOrder} {width n : Nat} {input rest : Bytes}
    (h : Reader.number short order width input = some (.ok n, rest)) : n < 256 ^ width := by
  obtain ⟨bs, mid, hbs, h⟩ := Reader.of_bind_ok h
  obtain ⟨rfl, -⟩ : order.number bs = n ∧ mid = rest := by
    have := Option.some.inj h
    simp only [Prod.mk.injEq, Except.ok.injEq] at this
    exact this
  have hlen : bs.length = width := by
    unfold Reader.bytes at hbs
    split at hbs
    · obtain ⟨rfl, -⟩ : _ = bs ∧ _ = mid := by
        have := Option.some.inj hbs
        simp only [Prod.mk.injEq, Except.ok.injEq] at this
        exact this
      rw [List.length_take]
      omega
    · cases hbs
  cases order with
  | little => exact hlen ▸ ofLittle_lt bs
  | big =>
    have := ofLittle_lt bs.reverse
    rwa [List.length_reverse, hlen] at this

theorem wrap_ok {ε α : Type} {p : Reader ε α} {f : ε → ε} {a : α} {input rest : Bytes}
    (h : p.wrap f input = some (.ok a, rest)) : p input = some (.ok a, rest) := by
  unfold Reader.wrap at h
  split at h
  · cases h
  · exact h

theorem times_ok {ε α : Type} {p : Reader ε α} {n : Nat} {as : List α} {input rest : Bytes}
    (h : p.times n input = some (.ok as, rest)) :
    as.length = n ∧ ∀ a ∈ as, ∃ input rest, p input = some (.ok a, rest) := by
  induction n generalizing as input rest with
  | zero =>
    obtain ⟨rfl, -⟩ : [] = as ∧ input = rest := by
      have := Option.some.inj h
      simp only [Prod.mk.injEq, Except.ok.injEq] at this
      exact this
    simp
  | succ n ih =>
    obtain ⟨a, mid, ha, h⟩ := Reader.of_bind_ok h
    obtain ⟨as', mid', has, h⟩ := Reader.of_bind_ok h
    obtain ⟨rfl, -⟩ : a :: as' = as ∧ mid' = rest := by
      have := Option.some.inj h
      simp only [Prod.mk.injEq, Except.ok.injEq] at this
      exact this
    obtain ⟨hlen, hall⟩ := ih has
    refine ⟨by rw [List.length_cons, hlen], ?_⟩
    rw [List.forall_mem_cons]
    exact ⟨⟨_, _, ha⟩, hall⟩

theorem readTensor_dims {c : ContainerGGUF} {i : TensorInfo} {input rest : Bytes}
    (h : readTensor c input = some (.ok i, rest)) : i.shape.length < 2 ^ 32 := by
  obtain ⟨name, m1, -, h⟩ := Reader.of_bind_ok h
  obtain ⟨dims, m2, hdims, h⟩ := Reader.of_bind_ok h
  obtain ⟨-, m3, -, h⟩ := Reader.of_bind_ok h
  obtain ⟨shape, m4, hshape, h⟩ := Reader.of_bind_ok h
  obtain ⟨kind, m5, -, h⟩ := Reader.of_bind_ok h
  obtain ⟨offset, m6, -, h⟩ := Reader.of_bind_ok h
  have hlt : dims < 256 ^ 4 := number_lt (wrap_ok hdims)
  have hlen := (times_ok hshape).1
  cases h
  exact hlen.trans_lt (by omega)

theorem finishDecode_tensors {kv : KV} {tensors : List TensorInfo} {offset : Int} {g : GGML}
    (h : finishDecode kv tensors offset = some (.ok g)) : g.tensors = tensors := by
  unfold finishDecode at h
  dsimp only at h
  split at h
  · cases h
  · split at h
    · cases h
    · cases h
    · cases h
      rfl

theorem decode_dims {maxAlloc : Option Nat} {maxArraySize : Int} {file : Bytes} {g : GGML}
    (h : decodeWithin maxAlloc file maxArraySize = some (.ok g)) : ∀ i ∈ g.tensors, i.shape.length < 2 ^ 32 := by
  unfold decodeWithin at h
  cases hread : readFile maxAlloc maxArraySize file with
  | none =>
    rw [hread] at h
    cases h
  | some e =>
    obtain ⟨r, rest⟩ := e
    rw [hread] at h
    cases r with
    | error e => cases h
    | ok e =>
      obtain ⟨kv, tensors⟩ := e
      rw [finishDecode_tensors h]
      have hcontents : ∃ c input rest, readContents c input = some (.ok (kv, tensors), rest) := by
        obtain ⟨magic, m1, -, hread⟩ := Reader.of_bind_ok hread
        split at hread
        · obtain ⟨c, m2, -, hread⟩ := Reader.of_bind_ok hread
          exact ⟨c, m2, rest, hread⟩
        · split at hread
          · obtain ⟨c, m2, -, hread⟩ := Reader.of_bind_ok hread
            exact ⟨c, m2, rest, hread⟩
          · cases hread
      obtain ⟨c, input, rest, hcontents⟩ := hcontents
      obtain ⟨kvs, m1, -, hcontents⟩ := Reader.of_bind_ok hcontents
      obtain ⟨ts, m2, hts, hcontents⟩ := Reader.of_bind_ok hcontents
      cases hcontents
      intro i hi
      obtain ⟨input, rest, hi⟩ := (times_ok hts).2 i hi
      exact readTensor_dims hi

/-! ## The round trip -/

/-- The sum over the tensors. -/
def parameterCount (ts : List Tensor) : UInt64 := ts.foldl (fun n t => n + elements t.shape) 0

/-- The map and the tensors are those that were written, and so is the data of each tensor. -/
structure ReadBack (kv : KV) (ts : List Tensor) (file : Bytes) (g : GGML) : Prop where
  values : ∀ k v, kv.lookup k = some v → g.kv.lookup (storedKey (writtenArch kv) k) = some v.loaded
  keys : ∀ k ∈ g.kv, k = ascii "general.parameter_count" ∨ ∃ k' ∈ kv, storedKey (writtenArch kv) k' = k
  count : g.kv.lookup (ascii "general.parameter_count") = some (.datum (.scalar .uint64 (parameterCount ts)))
  tensors : (g.tensors.map fun i => (i.name, i.kind, i.shape)).Perm (ts.map fun t => (t.name, t.kind, t.shape))
  aligned : ∀ i ∈ g.tensors, (KV.uint g.kv (ascii "general.alignment") 32).toNat ∣ i.offset.toNat
  disjoint : g.tensors.Pairwise fun i j => i.offset.toNat + (tensorSize i.kind i.shape).toNat ≤ j.offset.toNat ∨
    j.offset.toNat + (tensorSize j.kind j.shape).toNat ≤ i.offset.toNat
  content : ∀ t ∈ ts, ∀ i ∈ g.tensors, i.name = t.name →
    (file.drop (g.tensorOffset.toNat + i.offset.toNat)).take t.content.length = t.content

/-- Where the data starts with the alignment `a`. -/
def dataStart (a : Nat) (kv : KV) (ts : List Tensor) : Nat := alignUp a (headerLength kv ts)

/-- With the alignment of the file, the data is found although it is not the one of the writer. -/
structure Found (sscanf : Bytes → Option Int) (kv : KV) (ts : List Tensor) : Prop where
  pos : 0 < (readAlignment kv).toNat
  fits : dataEnd (readAlignment kv).toNat (headerLength kv ts) ((sortedTensors sscanf ts).map (·.info 0)) < 2 ^ 63
  aligned : ∀ s ∈ starts (writtenAlignment kv) 0 (sortedTensors sscanf ts), (readAlignment kv).toNat ∣ s
  start : dataStart (readAlignment kv).toNat kv ts = dataStart (writtenAlignment kv) kv ts ∨
    (dataStart (readAlignment kv).toNat kv ts < dataStart (writtenAlignment kv) kv ts ∧
      ∀ t ∈ ts, ∀ b ∈ t.content, b = 0) ∨
    ∀ t ∈ ts, t.content = []

/-- What is needed for the round trip. -/
structure Preserved (sscanf : Bytes → Option Int) (kv : KV) (ts : List Tensor) : Prop where
  complete : ∀ k v, kv.lookup k = some v → v.Complete
  dims : ∀ t ∈ ts, t.shape.length < 2 ^ 32
  count : ∀ k v, kv.lookup k = some v → storedKey (writtenArch kv) k = ascii "general.parameter_count" →
    v.loaded = .datum (.scalar .uint64 (parameterCount ts))
  alignment : (readAlignment kv).toNat = writtenAlignment kv ∨ Found sscanf kv ts

/-! ## The data at another place -/

namespace Stands

variable {sscanf : Bytes → Option Int} {kv : KV} {ts : List Tensor} {h : Header} {file : Bytes} {a d : Nat}
  (hs : Stands sscanf kv ts h file a d)
include hs

section
variable {d' : Nat} (hread : ∀ e ∈ (sortedTensors sscanf ts).zip h.tensors,
    (file.drop (d' + e.2.offset.toNat)).take e.1.content.length = e.1.content)
include hread

/-- Each byte is one that stands before it, down to the header. -/
theorem zero_of_earlier (hd' : h.encode.length ≤ d') (hlt : d' < d) :
    ∀ e ∈ (sortedTensors sscanf ts).zip h.tensors, ∀ b ∈ e.1.content, b = 0 := by
  have hbyte : ∀ x, ∀ e ∈ (sortedTensors sscanf ts).zip h.tensors, ∀ i b, d + e.2.offset.toNat + i = x →
      e.1.content[i]? = some b → b = 0 := by
    intro x
    induction x using Nat.strong_induction_on with
    | h x ih =>
      intro e he i b hx hb
      have hi := (List.getElem?_eq_some_iff.mp hb).1
      have hfile := (take_drop_eq_iff.mp (hread e he) i hi).trans hb
      rcases hs.hole _ b (by omega) hfile with hb | ⟨e', he', hle, hlt'⟩
      · exact hb
      · obtain ⟨j, hj⟩ := Nat.exists_eq_add_of_le hle
        rw [hj, hs.getElem? he' (by omega)] at hfile
        exact ih (d' + e.2.offset.toNat + i) (by omega) e' he' j b hj.symm hfile
  intro e he b hb
  obtain ⟨i, hi⟩ := List.getElem?_of_mem hb
  exact hbyte _ e he i b rfl hi

/-- The file has an end. -/
theorem empty_of_later (hlt : d < d') : ∀ e ∈ (sortedTensors sscanf ts).zip h.tensors, e.1.content = [] := by
  intro e he
  by_contra hne
  have hpos := List.length_pos_iff.mpr hne
  have hd := hs.header_le
  rcases hs.length with hlen | ⟨e', he', hne', hlen⟩
  · have hfirst := (hs.getElem? he hpos).trans (List.getElem?_eq_getElem hpos)
    have := (List.getElem?_eq_some_iff.mp hfirst).1
    omega
  · have hpos' := List.length_pos_iff.mpr hne'
    have hlast := (take_drop_eq_iff.mp (hread e' he') (e'.1.content.length - 1) (by omega)).trans
      (List.getElem?_eq_getElem (by omega))
    have := (List.getElem?_eq_some_iff.mp hlast).1
    omega

end

/-- Zeros are also found before their place. -/
theorem read_of_zero {d' : Nat} (hd' : h.encode.length ≤ d') (hlt : d' < d)
    (hzero : ∀ e ∈ (sortedTensors sscanf ts).zip h.tensors, ∀ b ∈ e.1.content, b = 0) :
    ∀ e ∈ (sortedTensors sscanf ts).zip h.tensors,
      (file.drop (d' + e.2.offset.toNat)).take e.1.content.length = e.1.content := by
  intro e he
  rw [take_drop_eq_iff]
  intro i hi
  have hcontent := List.getElem?_eq_getElem hi
  have hin := (List.getElem?_eq_some_iff.mp ((hs.getElem? he hi).trans hcontent)).1
  obtain ⟨b, hb⟩ : ∃ b, file[d' + e.2.offset.toNat + i]? = some b := ⟨_, List.getElem?_eq_getElem (by omega)⟩
  have hzeros : b = 0 := by
    rcases hs.hole _ b (by omega) hb with hb0 | ⟨e', he', hle, hlt'⟩
    · exact hb0
    · obtain ⟨j, hj⟩ := Nat.exists_eq_add_of_le hle
      rw [hj, hs.getElem? he' (by omega)] at hb
      exact hzero e' he' b (List.mem_of_getElem? hb)
  rw [hb, hcontent, hzeros, hzero e he _ (List.getElem_mem hi)]

/-- Where the data is found. -/
theorem read_iff {d' : Nat} (hd' : h.encode.length ≤ d') : (∀ e ∈ (sortedTensors sscanf ts).zip h.tensors,
      (file.drop (d' + e.2.offset.toNat)).take e.1.content.length = e.1.content) ↔
    d' = d ∨ (d' < d ∧ ∀ e ∈ (sortedTensors sscanf ts).zip h.tensors, ∀ b ∈ e.1.content, b = 0) ∨
      ∀ e ∈ (sortedTensors sscanf ts).zip h.tensors, e.1.content = [] := by
  constructor
  · intro hread
    rcases Nat.lt_trichotomy d' d with hlt | heq | hlt
    · exact .inr (.inl ⟨hlt, hs.zero_of_earlier hread hd' hlt⟩)
    · exact .inl heq
    · exact .inr (.inr (hs.empty_of_later hread hlt))
  · rintro (rfl | ⟨hlt, hzero⟩ | hempty)
    · exact hs.content
    · exact hs.read_of_zero hd' hlt hzero
    · intro e he
      rw [hempty e he]
      rfl

/-! ## What is decoded -/

theorem tensors_perm : (h.tensors.map fun i => (i.name, i.kind, i.shape)).Perm
    (ts.map fun t => (t.name, t.kind, t.shape)) := by
  rw [hs.laid.tensors]
  exact (List.perm_insertionSort _ _).map _

theorem forall_zip {p : Tensor → Prop} :
    (∀ e ∈ (sortedTensors sscanf ts).zip h.tensors, p e.1) ↔ ∀ t ∈ ts, p t := by
  have hlen : (sortedTensors sscanf ts).length ≤ h.tensors.length := by
    have := congrArg List.length hs.laid.tensors
    rw [List.length_map, List.length_map] at this
    exact this.ge
  have hfst := List.map_fst_zip hlen
  rw [← List.forall_mem_map (f := Prod.fst) (P := p), hfst]
  exact forall_congr' fun t => by rw [mem_sortedTensors]

theorem wellFormed (hdims : ∀ t ∈ ts, t.shape.length < 2 ^ 32) : h.WellFormed := by
  refine ⟨.inr hs.header.version, fun i hi => ?_, ?_⟩
  · have hmem := hs.tensors_perm.mem_iff.mp (List.mem_map_of_mem hi)
    obtain ⟨t, ht, heq⟩ := List.mem_map.mp hmem
    have hshape : t.shape = i.shape := (Prod.ext_iff.mp (Prod.ext_iff.mp heq).2).2
    exact hshape ▸ hdims t ht
  · exact Nat.lt_of_le_of_lt (le_dataEnd a _ h.tensors) hs.fits

theorem size_lt : ∀ i ∈ h.tensors, (tensorSize i.kind i.shape).toNat < 2 ^ 63 := by
  intro i hi
  have hdvd : a ∣ d := hs.start ▸ dvd_alignUp _ hs.pos
  have := hs.laid.end_le hdvd hs.start i hi
  have := hs.fits
  omega

theorem parameters : parameters h.tensors = parameterCount ts := by
  have hfold := hs.tensors_perm.foldl_eq' (f := fun n e => n + elements e.2.2)
    (fun _ _ _ _ n => by rw [UInt64.add_assoc, UInt64.add_assoc, UInt64.add_comm (elements _)]) 0
  rw [List.foldl_map, List.foldl_map] at hfold
  exact hfold

end Stands

/-- What `Decode` gives for a header, if there are no errors. -/
def decoded (kv : KV) (h : Header) : GGML :=
  { kv := (KV.ofList h.kvs).insert (ascii "general.parameter_count") (.datum (.scalar .uint64 (parameters h.tensors)))
    tensors := h.tensors
    tensorOffset := alignUp (readAlignment kv).toNat h.encode.length
    length := dataEnd (readAlignment kv).toNat h.encode.length h.tensors }

namespace Stands

variable {sscanf : Bytes → Option Int} {kv : KV} {ts : List Tensor} {h : Header} {file : Bytes} {a d : Nat}
  (hs : Stands sscanf kv ts h file a d) (hp : Proper kv ts)
include hs hp

theorem decode_iff (hdims : ∀ t ∈ ts, t.shape.length < 2 ^ 32) (g : GGML) : decode file (-1) = some (.ok g) ↔
    0 < (readAlignment kv).toNat ∧ dataEnd (readAlignment kv).toNat h.encode.length h.tensors < 2 ^ 63 ∧
      g = decoded kv h := by
  obtain ⟨data, hdata⟩ := hs.data
  have halign := hs.header.readAlignment hp.keys
  rw [hdata, decode_eq (hs.wellFormed hdims) (by decide)]
  by_cases hpos : 0 < (readAlignment kv).toNat
  · rw [← halign] at hpos
    by_cases hend : dataEnd (readAlignment kv).toNat h.encode.length h.tensors < 2 ^ 63
    · rw [← halign] at hend
      rw [finishDecode_ok hpos hs.size_lt hend, halign]
      simp only [Option.some.injEq, Except.ok.injEq]
      rw [halign] at hpos hend
      exact ⟨fun heq => ⟨hpos, hend, heq.symm⟩, fun heq => heq.2.2.symm⟩
    · have hlength := (hs.wellFormed hdims).length
      obtain ⟨e, he⟩ := finishDecode_error hpos hs.size_lt hlength (by rw [halign]; omega)
      rw [he]
      exact iff_of_false (by simp) fun heq => hend heq.2.1
  · have hzero : KV.uint (KV.ofList h.kvs) (ascii "general.alignment") 32 = 0 := by
      rw [halign]
      exact UInt32.toNat_inj.mp (Nat.eq_zero_of_not_pos hpos)
    rw [(finishDecode_none _ _ _).mpr hzero]
    exact iff_of_false (by simp) fun heq => hpos heq.1

theorem lookup_decoded {k : Bytes} {v : Value} (hv : kv.lookup k = some v)
    (hk : storedKey (writtenArch kv) k ≠ ascii "general.parameter_count") : ∃ d, v.written = some d ∧
      (decoded kv h).kv.lookup (storedKey (writtenArch kv) k) = some (Value.ofDatum d) := by
  obtain ⟨d, hd, hlookup⟩ := hs.header.lookup hp.keys hv
  refine ⟨d, hd, ?_⟩
  unfold decoded
  rw [AList.lookup_insert_ne hk, hlookup]

omit hp in
theorem lookup_count : (decoded kv h).kv.lookup (ascii "general.parameter_count") =
    some (.datum (.scalar .uint64 (parameterCount ts))) := by
  unfold decoded
  rw [AList.lookup_insert, hs.parameters]

theorem values_iff : (∀ k v, kv.lookup k = some v →
      (decoded kv h).kv.lookup (storedKey (writtenArch kv) k) = some v.loaded) ↔
    (∀ k v, kv.lookup k = some v → v.Complete) ∧
      ∀ k v, kv.lookup k = some v → storedKey (writtenArch kv) k = ascii "general.parameter_count" →
        v.loaded = .datum (.scalar .uint64 (parameterCount ts)) := by
  have hcount {k : Bytes} {v : Value} (hk : storedKey (writtenArch kv) k = ascii "general.parameter_count") :
      (decoded kv h).kv.lookup (storedKey (writtenArch kv) k) = some v.loaded ↔
        v.loaded = .datum (.scalar .uint64 (parameterCount ts)) := by
    rw [hk, hs.lookup_count, Option.some.injEq, eq_comm]
  have hother {k : Bytes} {v : Value} (hv : kv.lookup k = some v)
      (hk : storedKey (writtenArch kv) k ≠ ascii "general.parameter_count") :
      (decoded kv h).kv.lookup (storedKey (writtenArch kv) k) = some v.loaded ↔ v.Complete := by
    obtain ⟨d, hd, hlookup⟩ := hs.lookup_decoded hp hv hk
    rw [hlookup, Option.some.injEq, loaded_iff hd]
  constructor
  · intro hall
    refine ⟨fun k v hv => ?_, fun k v hv hk => (hcount hk).mp (hall k v hv)⟩
    by_cases hk : storedKey (writtenArch kv) k = ascii "general.parameter_count"
    · exact complete_of_scalar ((hcount hk).mp (hall k v hv))
    · exact (hother hv hk).mp (hall k v hv)
  · rintro ⟨hcomplete, hpc⟩ k v hv
    by_cases hk : storedKey (writtenArch kv) k = ascii "general.parameter_count"
    · exact (hcount hk).mpr (hpc k v hv hk)
    · exact (hother hv hk).mpr (hcomplete k v hv)

theorem keys_decoded : ∀ k ∈ (decoded kv h).kv, k = ascii "general.parameter_count" ∨
    ∃ k' ∈ kv, storedKey (writtenArch kv) k' = k := by
  intro k hk
  unfold decoded at hk
  rw [AList.mem_insert] at hk
  refine hk.imp_right fun hk => ?_
  by_contra hnone
  have hnot : k ∉ h.kvs.map Prod.fst := by
    rw [hs.header.keys.mem_iff, List.mem_map]
    exact hnone
  have hlookup := lookup_of_not_mem (hs.header.keys.nodup_iff.mpr hp.keys) hnot
  rw [AList.lookup_eq_none] at hlookup
  exact hlookup hk

theorem aligned_iff : (∀ i ∈ (decoded kv h).tensors,
      (KV.uint (decoded kv h).kv (ascii "general.alignment") 32).toNat ∣ i.offset.toNat) ↔
    ∀ s ∈ starts (writtenAlignment kv) 0 (sortedTensors sscanf ts), (readAlignment kv).toNat ∣ s := by
  unfold decoded
  rw [uint_alignment_insert, hs.header.readAlignment hp.keys, hs.alignment, ← hs.laid.offsets, List.forall_mem_map]

theorem content_iff : (∀ t ∈ ts, ∀ i ∈ (decoded kv h).tensors, i.name = t.name →
      (file.drop ((decoded kv h).tensorOffset.toNat + i.offset.toNat)).take t.content.length = t.content) ↔
    dataStart (readAlignment kv).toNat kv ts = dataStart (writtenAlignment kv) kv ts ∨
      (dataStart (readAlignment kv).toNat kv ts < dataStart (writtenAlignment kv) kv ts ∧
        ∀ t ∈ ts, ∀ b ∈ t.content, b = 0) ∨
      ∀ t ∈ ts, t.content = [] := by
  have hread := hs.read_iff (le_alignUp (readAlignment kv).toNat h.encode.length)
  rw [hs.forall_zip (p := fun t => ∀ b ∈ t.content, b = 0), hs.forall_zip (p := fun t => t.content = []),
    ← hs.start, ← hs.alignment, hs.headerLength] at hread
  refine Iff.trans ?_ hread
  have hnames : ((sortedTensors sscanf ts).map Tensor.name).Nodup :=
    ((List.perm_insertionSort _ _).map _).nodup_iff.mpr hp.names
  unfold decoded
  rw [hs.headerLength]
  constructor
  · intro hall e he
    obtain ⟨ht, hi⟩ := List.of_mem_zip he
    exact hall e.1 (mem_sortedTensors.mp ht) e.2 hi (hs.laid.zip_name e he)
  · intro hall t ht i hi hname
    exact hall (t, i) (hs.laid.mem_zip hnames (mem_sortedTensors.mpr ht) hi hname)

theorem readBack_iff : ReadBack kv ts file (decoded kv h) ↔
    ((∀ k v, kv.lookup k = some v → v.Complete) ∧
      ∀ k v, kv.lookup k = some v → storedKey (writtenArch kv) k = ascii "general.parameter_count" →
        v.loaded = .datum (.scalar .uint64 (parameterCount ts))) ∧
    (∀ s ∈ starts (writtenAlignment kv) 0 (sortedTensors sscanf ts), (readAlignment kv).toNat ∣ s) ∧
    (dataStart (readAlignment kv).toNat kv ts = dataStart (writtenAlignment kv) kv ts ∨
      (dataStart (readAlignment kv).toNat kv ts < dataStart (writtenAlignment kv) kv ts ∧
        ∀ t ∈ ts, ∀ b ∈ t.content, b = 0) ∨
      ∀ t ∈ ts, t.content = []) := by
  rw [← hs.values_iff hp, ← hs.aligned_iff hp, ← hs.content_iff hp]
  constructor
  · intro hread
    exact ⟨hread.values, hread.aligned, hread.content⟩
  · rintro ⟨hvalues, haligned, hcontent⟩
    exact ⟨hvalues, hs.keys_decoded hp, hs.lookup_count, hs.tensors_perm, haligned, hs.laid.ordered.imp .inl, hcontent⟩

omit hp in
/-- The writer's own alignment is a good one. -/
theorem found (heq : (readAlignment kv).toNat = writtenAlignment kv) : Found sscanf kv ts := by
  have hpos := hs.pos
  rw [← hs.alignment] at hpos
  refine ⟨by omega, ?_, ?_, .inl (by rw [heq])⟩
  · have hfits := hs.fits
    rwa [heq, ← hs.headerLength, hs.alignment, ← hs.laid.dataEnd_eq]
  · rw [heq, hs.alignment, ← hs.laid.offsets, List.forall_mem_map]
    exact hs.laid.dvd hs.pos (Nat.dvd_zero _)

end Stands

section
variable {sscanf : Bytes → Option Int} {kv : KV} {ts : List Tensor} {h : Header} {file : Bytes}
  (hw : Written sscanf kv ts h file) (hp : Proper kv ts)
include hw hp

theorem Written.preserved {g : GGML} (hg : decode file (-1) = some (.ok g)) (hread : ReadBack kv ts file g) :
    Preserved sscanf kv ts := by
  obtain ⟨a, d, hs⟩ := hw.stands hp
  have hdims : ∀ t ∈ ts, t.shape.length < 2 ^ 32 := by
    intro t ht
    have hmem := hread.tensors.mem_iff.mpr (List.mem_map_of_mem ht)
    obtain ⟨i, hi, heq⟩ := List.mem_map.mp hmem
    have hshape : i.shape = t.shape := (Prod.ext_iff.mp (Prod.ext_iff.mp heq).2).2
    exact hshape ▸ decode_dims hg i hi
  obtain ⟨hpos, hend, rfl⟩ := (hs.decode_iff hp hdims g).mp hg
  obtain ⟨⟨hcomplete, hcount⟩, haligned, hstart⟩ := (hs.readBack_iff hp).mp hread
  rw [hs.laid.dataEnd_eq, hs.headerLength] at hend
  exact ⟨hcomplete, hdims, hcount, .inr ⟨hpos, hend, haligned, hstart⟩⟩

theorem Written.readBack (hpre : Preserved sscanf kv ts) :
    ∃ g, decode file (-1) = some (.ok g) ∧ ReadBack kv ts file g := by
  obtain ⟨a, d, hs⟩ := hw.stands hp
  obtain ⟨hpos, hend, haligned, hstart⟩ := hpre.alignment.elim hs.found id
  rw [← hs.headerLength, ← hs.laid.dataEnd_eq] at hend
  exact ⟨decoded kv h, (hs.decode_iff hp hpre.dims _).mpr ⟨hpos, hend, rfl⟩,
    (hs.readBack_iff hp).mpr ⟨⟨hpre.complete, hpre.count⟩, haligned, hstart⟩⟩

end

/-! ## Ordinary files -/

/-- Of two texts cut at a dot, the part before it is the same if the second has only one dot. -/
theorem cut_dot {c : UInt8} {a k g x : Bytes} (hg : c ∉ g) (hx : c ∉ x) (h : a ++ c :: k = g ++ c :: x) : a = g := by
  rcases List.append_eq_append_iff.mp h with ⟨m, hm, hrest⟩ | ⟨m, hm, hrest⟩
  · cases m with
    | nil => rw [hm, List.append_nil]
    | cons b m =>
      obtain ⟨rfl, -⟩ := List.cons.inj hrest
      exact (hg (by simp [hm])).elim
  · cases m with
    | nil => rw [hm, List.append_nil]
    | cons b m =>
      obtain ⟨rfl, hsuffix⟩ := List.cons.inj hrest
      exact (hx (by simp [hsuffix])).elim

theorem storedKey_general {arch k x : Bytes} (harch : arch ≠ ascii "general") (hx : 0x2e ∉ x)
    (h : storedKey arch k = ascii "general." ++ x) : k = ascii "general." ++ x := by
  unfold storedKey at h
  split at h
  · rw [List.append_assoc] at h
    exact absurd (@cut_dot 0x2e arch k (ascii "general") x (by decide) hx h) harch
  · exact h

theorem uint32Of_loaded {v : Value} (h : ∀ n, v ≠ .fileType n) : uint32Of v.loaded = uint32Of v := by
  cases v with
  | datum e => cases e <;> rfl
  | fileType n => exact absurd rfl (h n)
  | array t a => rfl
  | stringArray a => rfl

theorem readAlignment_of_arch {kv : KV} (harch : writtenArch kv ≠ ascii "general")
    (halign : ∀ v, kv.lookup (ascii "general.alignment") ≠ some (.fileType v)) :
    readAlignment kv = KV.uint kv (ascii "general.alignment") 32 := by
  rw [uint_alignment_of]
  unfold readAlignment
  cases hfind : kv.keys.find? (storedKey (writtenArch kv) · = ascii "general.alignment") with
  | none =>
    have hself : storedKey (writtenArch kv) (ascii "general.alignment") = ascii "general.alignment" :=
      if_neg fun h => h.2.1 (by decide)
    have hnot : ascii "general.alignment" ∉ kv := fun hmem => List.find?_eq_none.mp hfind _ hmem (decide_eq_true hself)
    rw [AList.lookup_eq_none.mpr hnot]
    rfl
  | some k =>
    have hk : storedKey (writtenArch kv) k = ascii "general.alignment" := by simpa using List.find?_some hfind
    obtain rfl : k = ascii "general.alignment" := @storedKey_general _ k (ascii "alignment") harch (by decide) hk
    dsimp only
    cases hv : kv.lookup (ascii "general.alignment") with
    | none => rfl
    | some v =>
      rw [Option.bind_some, Option.bind_some, uint32Of_loaded]
      rintro n rfl
      exact halign n hv

/-- For the files of a model only the arrays and the shapes matter. -/
theorem Preserved.of_arch {sscanf : Bytes → Option Int} {kv : KV} {ts : List Tensor}
    (harch : writtenArch kv ≠ ascii "general") (hcount : ascii "general.parameter_count" ∉ kv)
    (halign : ∀ v, kv.lookup (ascii "general.alignment") ≠ some (.fileType v))
    (hcomplete : ∀ k v, kv.lookup k = some v → v.Complete) (hdims : ∀ t ∈ ts, t.shape.length < 2 ^ 32) :
    Preserved sscanf kv ts := by
  refine ⟨hcomplete, hdims, fun k v hv hk => ?_, .inl ?_⟩
  · obtain rfl : k = ascii "general.parameter_count" := @storedKey_general _ k (ascii "parameter_count") harch (by decide) hk
    exact absurd (AList.lookup_isSome.mp (hv ▸ rfl)) hcount
  · rw [readAlignment_of_arch harch halign]
    rfl

/-- `Decode` gives back what `WriteGGUF` wrote if and only if this is preserved. -/
theorem written_readBack_iff {sscanf : Bytes → Option Int} {kv : KV} {ts : List Tensor} {h : Header} {file : Bytes}
    (hw : Written sscanf kv ts h file) (hp : Proper kv ts) :
    (∃ g, decode file (-1) = some (.ok g) ∧ ReadBack kv ts file g) ↔ Preserved sscanf kv ts :=
  ⟨fun ⟨_, hg, hread⟩ => hw.preserved hp hg hread, hw.readBack hp⟩

def llamaMap : KV :=
  ((∅ : KV).insert (ascii "general.architecture") (.datum (.string (ascii "llama")))).insert (ascii "block_count")
    (.datum (.scalar .uint32 (1 : UInt32)))

def outputTensor : Tensor :=
  { name := ascii "output", kind := TensorType.f32, shape := [2], pieces := [[1, 2, 3], [4, 5, 6, 7, 8]] }

def llamaHeader : Header :=
  { version := 3
    kvs := [(ascii "llama.block_count", .scalar .uint32 (1 : UInt32)),
      (ascii "general.architecture", .string (ascii "llama"))]
    tensors := [outputTensor.info 0] }

/-- The second piece is written first. -/
def llamaFile : Bytes := writtenFile llamaHeader [(163, [4, 5, 6, 7, 8]), (160, [1, 2, 3])]

set_option maxRecDepth 20000 in
theorem llamaFile_written : Written (fun _ => none) llamaMap [outputTensor] llamaHeader llamaFile :=
  ⟨[(160, [1, 2, 3]), (163, [4, 5, 6, 7, 8])], _, rfl, .swap _ _ _, rfl, by decide⟩

theorem llamaFile_readBack : ∃ g, decode llamaFile (-1) = some (.ok g) ∧ ReadBack llamaMap [outputTensor] llamaFile g := by
  refine (written_readBack_iff llamaFile_written ⟨by decide, by decide, by decide⟩).mpr ?_
  have hcomplete : ∀ e ∈ llamaMap.entries, e.2.Complete := by decide
  have halign : llamaMap.lookup (ascii "general.alignment") = none := by decide
  refine .of_arch (by decide) (by decide) (fun v hv => ?_) (fun k v hv => ?_) (by decide)
  · rw [halign] at hv
    cases hv
  · exact hcomplete ⟨k, v⟩ (AList.mem_lookup_iff.mp hv)

/-- The architecture "general", and a bare key for its alignment. -/
def generalMap : KV :=
  ((∅ : KV).insert (ascii "general.architecture") (.datum (.string (ascii "general")))).insert (ascii "alignment")
    (.datum (.scalar .uint32 (64 : UInt32)))

def generalTensors : List Tensor :=
  [{ name := ascii "a", kind := TensorType.i8, shape := [32], pieces := [List.replicate 32 1] },
    { name := ascii "b", kind := TensorType.i8, shape := [32], pieces := [List.replicate 32 2] }]

def generalHeader : Header :=
  { version := 3
    kvs := [(ascii "general.alignment", .scalar .uint32 (64 : UInt32)),
      (ascii "general.architecture", .string (ascii "general"))]
    tensors := [{ name := ascii "a", kind := TensorType.i8, shape := [32], offset := 0 },
      { name := ascii "b", kind := TensorType.i8, shape := [32], offset := 32 }] }

def generalFile : Bytes := writtenFile generalHeader [(192, List.replicate 32 1), (224, List.replicate 32 2)]

set_option maxRecDepth 20000 in
theorem generalFile_written : Written (fun _ => none) generalMap generalTensors generalHeader generalFile :=
  ⟨_, _, rfl, .refl _, rfl, by decide⟩

theorem generalFile_lost : Written (fun _ => none) generalMap generalTensors generalHeader generalFile ∧
    Proper generalMap generalTensors ∧ ascii "general.parameter_count" ∉ generalMap ∧
    ascii "general.alignment" ∉ generalMap ∧
    ¬ ∃ g, decode generalFile (-1) = some (.ok g) ∧ ReadBack generalMap generalTensors generalFile g := by
  have hp : Proper generalMap generalTensors := ⟨by decide, by decide, by decide⟩
  refine ⟨generalFile_written, hp, by decide, by decide, ?_⟩
  rintro ⟨g, hg, hread⟩
  rcases (generalFile_written.preserved hp hg hread).alignment with heq | hfound
  · revert heq
    decide
  · -- The second tensor is at 32, which is no multiple of 64.
    have hdvd := hfound.aligned 32 (by decide)
    revert hdvd
    decide

end Xdragon.Ggml
