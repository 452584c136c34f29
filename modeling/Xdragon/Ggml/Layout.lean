import Xdragon.Ggml.Decoded
import Xdragon.Ggml.Write

/-!
# Where the data of a written file lies

The offsets that `WriteGGUF` assigns put the tensors one after another, each at a multiple of the alignment. So the
goroutines write to places that have no byte in common.
-/

namespace Xdragon.Ggml

open Xdragon.Lib Xdragon.Gguf

/-! ## The offsets -/

/-- The tensors lie one after another from `s` on. -/
inductive Laid (a : Nat) : Nat → List Tensor → List TensorInfo → Prop
  | nil (s : Nat) : Laid a s [] []
  | cons {t : Tensor} {ts : List Tensor} {infos : List TensorInfo} (offset : UInt64)
      (rest : Laid a (alignUp a (offset.toNat + t.size.toNat)) ts infos) :
      Laid a offset.toNat (t :: ts) (t.info offset :: infos)

/-- The offsets of tensors that lie one after another from `s` on. -/
def starts (a : Nat) : Nat → List Tensor → List Nat
  | _, [] => []
  | s, t :: ts => s :: starts a (alignUp a (s + t.size.toNat)) ts

theorem alignUp_add {a d : Nat} (h : a ∣ d) (n : Nat) : alignUp a (d + n) = d + alignUp a n := by
  unfold alignUp
  obtain ⟨k, rfl⟩ := h
  rw [Nat.mul_add_mod, Nat.add_assoc]

theorem alignUp_lt {a : Nat} (ha : 0 < a) (n : Nat) : alignUp a n < n + a :=
  Nat.add_lt_add_left (Nat.mod_lt _ ha) n

theorem toUInt64_toNat {n : Nat} (h : n < 2 ^ 64) : (toUInt64 n).toNat = n := by
  unfold toUInt64
  simp only [UInt64.toNat_ofBitVec, BitVec.toNat_ofInt]
  omega

/-- The offsets do not overflow if the data has an end. -/
theorem assignOffsets_laid {a : Nat} (ha : 0 < a) (hsmall : a < 2 ^ 32) {d : Nat} (hd : a ∣ d) {ts : List Tensor}
    {infos : List TensorInfo} {s : UInt64} (h : assignOffsets a s ts = some infos) {pos : Nat}
    (hpos : alignUp a pos = d + s.toNat) (hend : dataEnd a pos infos < 2 ^ 63) : Laid a s.toNat ts infos := by
  induction ts generalizing s infos pos with
  | nil =>
    obtain rfl := Option.some.inj h
    exact .nil _
  | cons t ts ih =>
    unfold assignOffsets at h
    dsimp only at h
    cases hpad : ggufPadding (toInt64 (s + t.size).toNat) a with
    | none =>
      rw [hpad] at h
      cases h
    | some padding =>
      rw [hpad] at h
      obtain ⟨rest, hrest, rfl⟩ := Option.map_eq_some_iff.mp h
      rw [dataEnd, hpos] at hend
      have hle := le_dataEnd a (d + s.toNat + (tensorSize (t.info s).kind (t.info s).shape).toNat) rest
      have hsize : (tensorSize (t.info s).kind (t.info s).shape).toNat = t.size.toNat := rfl
      rw [hsize] at hend hle
      have hnext : (s + t.size).toNat = s.toNat + t.size.toNat := by
        rw [UInt64.toNat_add]
        exact Nat.mod_eq_of_lt (by omega)
      have hlt := alignUp_lt ha (s.toNat + t.size.toNat)
      have hup := le_alignUp a (s.toNat + t.size.toNat)
      rw [hnext, toInt64_of_lt (by omega), ggufPadding_eq ha] at hpad
      obtain rfl := Option.some.inj hpad
      have hnat : (alignUp a (s.toNat + t.size.toNat) - (s.toNat + t.size.toNat : Nat) : Int) =
          (alignUp a (s.toNat + t.size.toNat) - (s.toNat + t.size.toNat) : Nat) := by omega
      have hoffset : (s + t.size + toUInt64 (alignUp a (s.toNat + t.size.toNat) - (s.toNat + t.size.toNat : Nat))).toNat =
          alignUp a (s.toNat + t.size.toNat) := by
        rw [UInt64.toNat_add, hnext, hnat, toUInt64_toNat (by omega)]
        omega
      refine .cons s ?_
      rw [← hoffset]
      refine ih hrest ?_ hend
      rw [hoffset, Nat.add_assoc, alignUp_add hd]

namespace Laid

variable {a s : Nat} {ts : List Tensor} {infos : List TensorInfo}

theorem tensors (h : Laid a s ts infos) : infos.map (fun i => (i.name, i.kind, i.shape)) =
    ts.map fun t => (t.name, t.kind, t.shape) := by
  induction h with
  | nil => rfl
  | cons offset rest ih =>
    rw [List.map_cons, List.map_cons, ih]
    rfl

theorem le (h : Laid a s ts infos) : ∀ i ∈ infos, s ≤ i.offset.toNat := by
  induction h with
  | nil => simp
  | cons offset rest ih =>
    rw [List.forall_mem_cons]
    refine ⟨Nat.le_refl _, fun i hi => ?_⟩
    exact Nat.le_trans (Nat.le_add_right _ _) (Nat.le_trans (le_alignUp _ _) (ih i hi))

theorem dvd (h : Laid a s ts infos) (ha : 0 < a) (hs : a ∣ s) : ∀ i ∈ infos, a ∣ i.offset.toNat := by
  induction h with
  | nil => simp
  | cons offset rest ih =>
    rw [List.forall_mem_cons]
    exact ⟨hs, ih (dvd_alignUp _ ha)⟩

/-- The header has the same length with any offsets. -/
theorem lengths (h : Laid a s ts infos) :
    infos.map (fun i => i.encode.length) = ts.map fun t => (t.info 0).encode.length := by
  induction h with
  | nil => rfl
  | cons offset rest ih =>
    rw [List.map_cons, List.map_cons, ih]
    simp only [TensorInfo.encode, Tensor.info, List.length_append, length_toLittle]

theorem offsets (h : Laid a s ts infos) : infos.map (fun i => i.offset.toNat) = starts a s ts := by
  induction h with
  | nil => rfl
  | cons offset rest ih =>
    rw [List.map_cons, ih]
    rfl

theorem dataEnd_eq (h : Laid a s ts infos) (a' pos : Nat) : dataEnd a' pos infos =
    dataEnd a' pos (ts.map (·.info 0)) := by
  induction h generalizing pos with
  | nil => rfl
  | cons offset rest ih =>
    rw [List.map_cons, dataEnd, dataEnd, ih]
    rfl

theorem zip_name (h : Laid a s ts infos) : ∀ e ∈ ts.zip infos, e.2.name = e.1.name := by
  induction h with
  | nil => simp
  | cons offset rest ih =>
    rw [List.zip_cons_cons, List.forall_mem_cons]
    exact ⟨rfl, ih⟩

/-- Each tensor ends before the next one starts. -/
theorem ordered (h : Laid a s ts infos) :
    infos.Pairwise fun i j => i.offset.toNat + (tensorSize i.kind i.shape).toNat ≤ j.offset.toNat := by
  induction h with
  | nil => exact .nil
  | cons offset rest ih =>
    refine List.pairwise_cons.mpr ⟨fun j hj => ?_, ih⟩
    exact Nat.le_trans (le_alignUp _ _) (rest.le j hj)

/-- The data ends where the reader finds its end. -/
theorem end_le (h : Laid a s ts infos) {d pos : Nat} (hd : a ∣ d) (hpos : alignUp a pos = d + s) :
    ∀ i ∈ infos, d + i.offset.toNat + (tensorSize i.kind i.shape).toNat ≤ dataEnd a pos infos := by
  induction h generalizing pos with
  | nil => simp
  | cons offset rest ih =>
    rw [List.forall_mem_cons, dataEnd, hpos]
    refine ⟨le_dataEnd _ _ _, ih ?_⟩
    rw [Nat.add_assoc, alignUp_add hd]
    rfl

theorem mem_zip (h : Laid a s ts infos) (hnames : (ts.map Tensor.name).Nodup) {t : Tensor} (ht : t ∈ ts) {i : TensorInfo}
    (hi : i ∈ infos) (hname : i.name = t.name) : (t, i) ∈ ts.zip infos := by
  induction h with
  | nil => cases ht
  | cons offset rest ih =>
    rename_i t' ts infos
    have hrest : infos.map (·.name) = ts.map Tensor.name := by
      have := congrArg (List.map Prod.fst) rest.tensors
      rwa [List.map_map, List.map_map] at this
    rw [List.map_cons, List.nodup_cons] at hnames
    rw [List.zip_cons_cons]
    rcases List.mem_cons.mp ht with rfl | ht <;> rcases List.mem_cons.mp hi with rfl | hi
    · exact List.mem_cons_self ..
    · exact absurd (hrest ▸ List.mem_map_of_mem hi) (hname ▸ hnames.1)
    · have hsame : t'.name = t.name := hname
      exact absurd (List.mem_map_of_mem ht) (hsame ▸ hnames.1)
    · exact List.mem_cons_of_mem _ (ih hnames.2 ht hi)

end Laid

/-! ## The writes -/

/-- The writes of the pieces from `pos` on. -/
def placed : Nat → List Bytes → List (Nat × Bytes)
  | _, [] => []
  | pos, p :: ps => (pos, p) :: placed (pos + p.length) ps

theorem writesFrom_placed (pos : Nat) (ps : List Bytes) :
    (writesFrom pos ps).map (fun w => (w.1.toNat, w.2)) = placed pos ps := by
  induction ps generalizing pos with
  | nil => rfl
  | cons p ps ih =>
    rw [writesFrom, placed, List.map_cons, ← ih]
    rfl

theorem placed_bounds (pos : Nat) (ps : List Bytes) :
    ∀ w ∈ placed pos ps, pos ≤ w.1 ∧ w.1 + w.2.length ≤ pos + ps.flatten.length := by
  induction ps generalizing pos with
  | nil => simp [placed]
  | cons p ps ih =>
    rw [placed, List.forall_mem_cons, List.flatten_cons, List.length_append]
    refine ⟨⟨Nat.le_refl _, by dsimp only; omega⟩, fun w hw => ?_⟩
    have := ih (pos + p.length) w hw
    omega

theorem placed_separate (pos : Nat) (ps : List Bytes) : (placed pos ps).Pairwise Separate := by
  induction ps generalizing pos with
  | nil => exact .nil
  | cons p ps ih =>
    refine List.pairwise_cons.mpr ⟨fun w hw => ?_, ih _⟩
    exact .inr (.inr (.inl (placed_bounds _ _ w hw).1))

/-- Each byte of the content is in one of the writes. -/
theorem placed_covers {pos x : Nat} {ps : List Bytes} (hx : x < ps.flatten.length) :
    ∃ w ∈ placed pos ps, ∃ i, i < w.2.length ∧ w.1 + i = pos + x ∧ w.2[i]? = ps.flatten[x]? := by
  induction ps generalizing pos x with
  | nil => cases hx
  | cons p ps ih =>
    rw [List.flatten_cons] at hx ⊢
    by_cases hp : x < p.length
    · exact ⟨(pos, p), List.mem_cons_self .., x, hp, rfl, (List.getElem?_append_left hp).symm⟩
    · rw [List.length_append] at hx
      obtain ⟨w, hw, i, hi, hpos, hget⟩ := @ih (pos + p.length) (x - p.length) (by omega)
      refine ⟨w, List.mem_cons_of_mem _ hw, i, hi, by omega, ?_⟩
      rw [hget, List.getElem?_append_right (by omega)]

/-- All writes of the data. -/
def placedAll (d : Nat) (ts : List Tensor) (infos : List TensorInfo) : List (Nat × Bytes) :=
  (ts.zip infos).flatMap fun e => placed (d + e.2.offset.toNat) e.1.pieces

theorem Laid.separate {a s : Nat} {ts : List Tensor} {infos : List TensorInfo} (h : Laid a s ts infos)
    (hsize : ∀ t ∈ ts, t.content.length = t.size.toNat) (d : Nat) : (placedAll d ts infos).Pairwise Separate := by
  have hbounds : ∀ {a s ts infos}, Laid a s ts infos → ∀ w ∈ placedAll d ts infos, d + s ≤ w.1 := by
    intro a s ts infos h w hw
    obtain ⟨e, he, hw⟩ := List.mem_flatMap.mp hw
    have h1 := h.le e.2 (List.of_mem_zip he).2
    have h2 := (placed_bounds _ _ w hw).1
    omega
  induction h with
  | nil => exact .nil
  | cons offset rest ih =>
    rename_i t ts infos
    rw [List.forall_mem_cons] at hsize
    unfold placedAll
    rw [List.zip_cons_cons, List.flatMap_cons, List.pairwise_append]
    refine ⟨placed_separate _ _, ih hsize.2, fun w hw w' hw' => .inr (.inr (.inl ?_))⟩
    have h1 := (placed_bounds _ _ w hw).2
    have h2 := hbounds rest w' hw'
    have h3 := le_alignUp a (offset.toNat + t.size.toNat)
    have h4 : (t.info offset).offset = offset := rfl
    have h5 : t.pieces.flatten.length = t.size.toNat := hsize.1
    dsimp only at h1
    rw [h4, h5] at h1
    omega

/-! ## The file -/

section
variable {h : Header} {order ws : List (Int × Bytes)} {d : Nat} {ts : List Tensor}
  (hperm : order.Perm ws) (hplaced : ws.map (fun w => (w.1.toNat, w.2)) = placedAll d ts h.tensors)
include hperm hplaced

omit hperm hplaced in
theorem placedAll_le {infos : List TensorInfo} : ∀ w ∈ placedAll d ts infos, d ≤ w.1 := by
  intro w hw
  obtain ⟨e, -, hw⟩ := List.mem_flatMap.mp hw
  have := (placed_bounds _ _ w hw).1
  omega

/-- The header is not overwritten. -/
theorem writtenFile_header (hd : h.encode.length ≤ d) : ∃ data, writtenFile h order = h.encode ++ data := by
  refine ⟨(writtenFile h order).drop h.encode.length, ?_⟩
  have hfirst : (writtenFile h order).take h.encode.length = h.encode := by
    refine take_writeAll fun w hw => ?_
    have hmem : w ∈ placedAll d ts h.tensors := hplaced ▸ ((hperm.map _).mem_iff.mp hw)
    exact Nat.le_trans hd (placedAll_le w hmem)
  calc writtenFile h order
      = (writtenFile h order).take h.encode.length ++ (writtenFile h order).drop h.encode.length :=
        (List.take_append_drop _ _).symm
    _ = h.encode ++ (writtenFile h order).drop h.encode.length := by rw [hfirst]

/-- Each tensor is found at its offset, in any order of the writes. -/
theorem writtenFile_content {a s : Nat} (hlaid : Laid a s ts h.tensors)
    (hsize : ∀ t ∈ ts, t.content.length = t.size.toNat) {e : Tensor × TensorInfo} (he : e ∈ ts.zip h.tensors) :
    ((writtenFile h order).drop (d + e.2.offset.toNat)).take e.1.content.length = e.1.content := by
  have hsep : (order.map fun w => (w.1.toNat, w.2)).Pairwise Separate := by
    rw [List.Perm.pairwise_iff Separate.symm (hperm.map _), hplaced]
    exact hlaid.separate hsize d
  rw [take_drop_eq_iff]
  intro x hx
  obtain ⟨w, hw, i, hi, hpos, hget⟩ := @placed_covers (d + e.2.offset.toNat) x e.1.pieces hx
  have hmem : w ∈ order.map fun w => (w.1.toNat, w.2) := by
    rw [(hperm.map _).mem_iff, hplaced]
    exact List.mem_flatMap.mpr ⟨e, he, hw⟩
  rw [← hpos, writtenFile, getElem?_writeAll hsep hmem hi, hget]
  rfl

/-- The file ends with its header or with a tensor. -/
theorem length_writtenFile : (writtenFile h order).length = h.encode.length ∨ ∃ e ∈ ts.zip h.tensors,
    e.1.content ≠ [] ∧ (writtenFile h order).length ≤ d + e.2.offset.toNat + e.1.content.length := by
  refine (length_writeAll h.encode (order.map fun w => (w.1.toNat, w.2))).imp_right ?_
  rintro ⟨w, hw, hne, hlen⟩
  rw [(hperm.map _).mem_iff, hplaced] at hw
  obtain ⟨e, he, hw⟩ := List.mem_flatMap.mp hw
  have hbounds := placed_bounds _ _ w hw
  have hpos : 0 < w.2.length := List.length_pos_iff.mpr hne
  refine ⟨e, he, ?_, ?_⟩
  · apply List.ne_nil_of_length_pos
    unfold Tensor.content
    omega
  · rw [writtenFile, hlen]
    exact hbounds.2

/-- Between the tensors the file is zero. -/
theorem writtenFile_hole {x : Nat} {b : UInt8} (hx : h.encode.length ≤ x) (hb : (writtenFile h order)[x]? = some b) :
    b = 0 ∨ ∃ e ∈ ts.zip h.tensors, d + e.2.offset.toNat ≤ x ∧ x < d + e.2.offset.toNat + e.1.content.length := by
  by_cases hout : ∀ w ∈ order.map fun w => (w.1.toNat, w.2), x < w.1 ∨ w.1 + w.2.length ≤ x
  · exact .inl (getElem?_writeAll_hole hx hb hout)
  · push Not at hout
    obtain ⟨w, hw, hle, hlt⟩ := hout
    rw [(hperm.map _).mem_iff, hplaced] at hw
    obtain ⟨e, he, hw⟩ := List.mem_flatMap.mp hw
    have hbounds := placed_bounds _ _ w hw
    refine .inr ⟨e, he, by omega, ?_⟩
    unfold Tensor.content
    omega

end

end Xdragon.Ggml
