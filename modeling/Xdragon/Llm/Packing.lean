import Xdragon.Lib.NextFit
import Xdragon.Llm.Layout

/-!
# What `greedyFit` places

A run of layers at the end of the list, no more on a GPU than its free space holds, and as many as
next fit places.
-/

open Xdragon.Lib

namespace Xdragon.Llm

/-- The indices of a layout, in list order. -/
def GPULayersList.indices (l : GPULayersList) : List Nat := l.flatMap (·.layers)

theorem GPULayersList.length_indices (l : GPULayersList) : l.indices.length = l.sum := by
  simp [indices, sum, List.length_flatMap]

/-- The size of the layers of an entry. -/
def GPULayers.load (layers : List Nat) (e : GPULayers) : Nat := (e.layers.map fun i => layers.getD i 0).sum

/-- The entry belongs to the GPU, and its layers need no more than so much space. -/
def Fits (layers : List Nat) (space : DeviceInfo → Nat) (e : GPULayers) (gpu : DeviceInfo) : Prop :=
  e.deviceID = gpu.deviceID ∧ e.load layers ≤ space gpu

/-- In the loops of `greedyFit`: the GPUs from the open one on are filled, and `free` is left there. -/
structure Filling (layers : List Nat) (gpus : List DeviceInfo) (capacity : ℚ) (devices : List DeviceInfo)
    (gpuLayers : GPULayersList) (free : Nat) : Prop where
  filled : ∃ e rest gpu used, gpuLayers = e :: rest ∧ gpus = devices.reverse ++ gpu :: used ∧
    e.deviceID = gpu.deviceID ∧ e.load layers + free ≤ freeSpace gpu capacity ∧
    List.Forall₂ (Fits layers (freeSpace · capacity)) rest used

section
variable {layers : List Nat} {gpus devices : List DeviceInfo} {capacity : ℚ} {gpuLayers : GPULayersList}
  {free : Nat}

/-- What the loops leave at any exit. -/
theorem Filling.packed (h : Filling layers gpus capacity devices gpuLayers free) :
    ∃ used, used <:+ gpus ∧ List.Forall₂ (Fits layers (freeSpace · capacity)) gpuLayers used := by
  obtain ⟨e, rest, gpu, used, rfl, rfl, hid, hload, hrest⟩ := h.filled
  exact ⟨gpu :: used, List.suffix_append .., .cons ⟨hid, Nat.le_of_add_right_le hload⟩ hrest⟩

theorem Filling.start (layers : List Nat) (gpu : DeviceInfo) (devices : List DeviceInfo) (capacity : ℚ) :
    Filling layers (devices.reverse ++ [gpu]) capacity devices [⟨gpu.deviceID, []⟩] (freeSpace gpu capacity) :=
  ⟨⟨_, [], gpu, [], rfl, rfl, rfl, by simp [GPULayers.load], .nil⟩⟩

theorem Filling.next {gpu : DeviceInfo} (h : Filling layers gpus capacity (gpu :: devices) gpuLayers free) :
    Filling layers gpus capacity devices (⟨gpu.deviceID, []⟩ :: gpuLayers) (freeSpace gpu capacity) := by
  obtain ⟨e, rest, open', used, rfl, rfl, hid, hload, hrest⟩ := h.filled
  refine ⟨⟨_, e :: rest, gpu, open' :: used, rfl, by simp, rfl, by simp [GPULayers.load], ?_⟩⟩
  exact .cons ⟨hid, Nat.le_of_add_right_le hload⟩ hrest

theorem Filling.prepend (h : Filling layers gpus capacity devices gpuLayers free) {i : Nat}
    (hfit : layers.getD i 0 ≤ free) :
    Filling layers gpus capacity devices (gpuLayers.prepend i) (free - layers.getD i 0) := by
  obtain ⟨e, rest, gpu, used, rfl, rfl, hid, hload, hrest⟩ := h.filled
  refine ⟨⟨_, rest, gpu, used, rfl, rfl, hid, ?_, hrest⟩⟩
  simp only [GPULayers.load, List.map_cons, List.sum_cons] at hload ⊢
  omega

theorem Filling.indices_prepend (h : Filling layers gpus capacity devices gpuLayers free) (i : Nat) :
    (gpuLayers.prepend i).indices = i :: gpuLayers.indices := by
  obtain ⟨e, rest, gpu, used, rfl, -⟩ := h.filled
  rfl

/-- One layer: it is placed as next fit does, or it ends the loop. -/
theorem fitLayer_spec (h : Filling layers gpus capacity devices gpuLayers free) (i : Nat) :
    (∃ out free', fitLayer (layers.getD i 0) i capacity devices gpuLayers free = (out, none) ∧
      Filling layers gpus capacity [] out free' ∧ out.indices = gpuLayers.indices ∧
      ∀ sizes, nextFit (layers.getD i 0 :: sizes) free (devices.map (freeSpace · capacity)) = 0) ∨
    (∃ out free' devices', fitLayer (layers.getD i 0) i capacity devices gpuLayers free =
        (out, some (free', devices')) ∧
      Filling layers gpus capacity devices' out free' ∧ out.indices = i :: gpuLayers.indices ∧
      ∀ sizes, nextFit (layers.getD i 0 :: sizes) free (devices.map (freeSpace · capacity)) =
        nextFit sizes free' (devices'.map (freeSpace · capacity)) + 1) := by
  induction devices generalizing gpuLayers free with
  | nil =>
    unfold fitLayer
    by_cases hfit : layers.getD i 0 ≤ free
    · rw [if_pos hfit]
      exact Or.inr ⟨_, _, [], rfl, h.prepend hfit, h.indices_prepend i, fun sizes => nextFit_cons_fits hfit ..⟩
    · rw [if_neg hfit]
      exact Or.inl ⟨_, free, rfl, h, rfl, fun sizes => by rw [List.map_nil, nextFit, if_neg hfit]⟩
  | cons gpu devices ih =>
    unfold fitLayer
    by_cases hfit : layers.getD i 0 ≤ free
    · rw [if_pos hfit]
      exact Or.inr ⟨_, _, _, rfl, h.prepend hfit, h.indices_prepend i, fun sizes => nextFit_cons_fits hfit ..⟩
    · rw [if_neg hfit]
      have hskip : ∀ sizes, nextFit (layers.getD i 0 :: sizes) free ((gpu :: devices).map (freeSpace · capacity)) =
          nextFit (layers.getD i 0 :: sizes) (freeSpace gpu capacity) (devices.map (freeSpace · capacity)) :=
        fun sizes => by rw [List.map_cons, nextFit, if_neg hfit]
      have hsame : GPULayersList.indices (⟨gpu.deviceID, []⟩ :: gpuLayers) = gpuLayers.indices := rfl
      rcases ih h.next with ⟨out, free', hout, hfill, hind, hnext⟩ | ⟨out, free', devices', hout, hfill, hind, hnext⟩
      · exact Or.inl ⟨out, free', hout, hfill, hind.trans hsame, fun sizes => (hskip sizes).trans (hnext sizes)⟩
      · exact Or.inr ⟨out, free', devices', hout, hfill, hind, fun sizes => (hskip sizes).trans (hnext sizes)⟩

end

/-- How many of the last layers may be placed. -/
def quota (requestedLayers : Int) (total : Nat) : Nat :=
  if 0 ≤ requestedLayers then min requestedLayers.toNat total else total

/-- The loop over the layers, when the layers behind `rest` are placed already. -/
theorem greedyFitLoop_spec {layers : List Nat} {gpus : List DeviceInfo} {capacity : ℚ} (requestedLayers : Int)
    (n : Nat) {devices : List DeviceInfo} {gpuLayers : GPULayersList} {free : Nat}
    (h : Filling layers gpus capacity devices gpuLayers free) (hn : n ≤ layers.length)
    (hind : gpuLayers.indices = List.range' n (layers.length - n))
    (hquota : layers.length - n ≤ quota requestedLayers layers.length) :
    ∃ out placed, greedyFitLoop capacity requestedLayers layers.length (layers.take n).reverse devices gpuLayers
        free = out ∧
      placed ≤ n ∧ out.indices = List.range' (n - placed) (layers.length - (n - placed)) ∧
      placed = nextFit ((layers.take n).reverse.take
          (quota requestedLayers layers.length - (layers.length - n))) free (devices.map (freeSpace · capacity)) ∧
      ∃ used, used <:+ gpus ∧ List.Forall₂ (Fits layers (freeSpace · capacity)) out used := by
  induction n generalizing devices gpuLayers free with
  | zero => exact ⟨_, 0, rfl, Nat.le_refl 0, hind, by simp [nextFit], h.packed⟩
  | succ n ih =>
    have hget : layers[n]? = some (layers.getD n 0) := by
      rw [List.getD_eq_getElem?_getD, List.getElem?_eq_getElem (by omega), Option.getD_some]
    have hrev : (layers.take (n + 1)).reverse = layers.getD n 0 :: (layers.take n).reverse := by
      rw [List.take_add_one, hget, Option.toList_some, List.reverse_append, List.reverse_singleton,
        List.singleton_append]
    rw [hrev]
    unfold greedyFitLoop
    have hlen : (layers.take n).reverse.length = n := by
      rw [List.length_reverse, List.length_take]
      omega
    rw [hlen]
    by_cases hstop : 0 ≤ requestedLayers ∧ requestedLayers ≤ (layers.length - 1 - n : Nat)
    · rw [if_pos hstop]
      have hnone : quota requestedLayers layers.length - (layers.length - (n + 1)) = 0 := by
        unfold quota
        rw [if_pos hstop.1]
        omega
      rw [hnone, List.take_zero]
      exact ⟨_, 0, rfl, Nat.zero_le _, hind, by simp [nextFit], h.packed⟩
    · rw [if_neg hstop]
      have hmore : quota requestedLayers layers.length - (layers.length - (n + 1)) =
          quota requestedLayers layers.length - (layers.length - n) + 1 := by
        unfold quota at hquota ⊢
        split <;> omega
      rw [hmore, List.take_succ_cons]
      rcases fitLayer_spec h n with ⟨out, free', hout, hfill, hsame, hnext⟩ |
        ⟨out, free', devices', hout, hfill, hplaced, hnext⟩
      · rw [hout, hnext]
        exact ⟨out, 0, rfl, Nat.zero_le _, hsame.trans hind, rfl, hfill.packed⟩
      · rw [hout, hnext]
        have hrange : out.indices = List.range' n (layers.length - n) := by
          rw [hplaced, hind, show layers.length - n = layers.length - (n + 1) + 1 by omega, List.range'_succ]
        obtain ⟨out', placed, hout', hle, hind', hplaced', hused⟩ := ih hfill (by omega) hrange (by
          unfold quota
          split <;> omega)
        refine ⟨out', placed + 1, hout', by omega, ?_, by rw [hplaced'], hused⟩
        rw [show n + 1 - (placed + 1) = n - placed by omega]
        exact hind'

/-- The space of the GPUs in the order they are filled, the first one apart. -/
def spaces (gpus : List DeviceInfo) (capacity : ℚ) : List Nat := gpus.reverse.map (freeSpace · capacity)

/-- The layers in the order they are placed. -/
def wanted (layers : List Nat) (requestedLayers : Int) : List Nat :=
  layers.reverse.take (quota requestedLayers layers.length)

/-- What one call places. -/
structure Greedy (layers : List Nat) (gpus : List DeviceInfo) (capacity : ℚ) (requestedLayers : Int)
    (out : GPULayersList) : Prop where
  sum_le : out.sum ≤ layers.length
  indices : out.indices = List.range' (layers.length - out.sum) out.sum
  requested : 0 ≤ requestedLayers → out.sum ≤ requestedLayers
  used : ∃ used, used <:+ gpus ∧ List.Forall₂ (Fits layers (freeSpace · capacity)) out used
  most : ∀ space rest, spaces gpus capacity = space :: rest → out.sum = nextFit (wanted layers requestedLayers) space rest

theorem greedyFit_spec (layers : List Nat) {gpus : List DeviceInfo} (hne : gpus ≠ []) (capacity : ℚ)
    (requestedLayers : Int) :
    Greedy layers gpus capacity requestedLayers (greedyFit layers gpus capacity requestedLayers) := by
  obtain ⟨gpu, devices, hrev⟩ : ∃ gpu devices, gpus.reverse = gpu :: devices :=
    List.exists_cons_of_ne_nil (by simpa using hne)
  have hgpus : gpus = devices.reverse ++ [gpu] := by
    rw [← List.reverse_reverse gpus, hrev, List.reverse_cons]
  have hstart := Filling.start layers gpu devices capacity
  rw [← hgpus] at hstart
  obtain ⟨out, placed, hout, hle, hind, hplaced, hused⟩ := greedyFitLoop_spec requestedLayers layers.length hstart
    (Nat.le_refl _) (by simp [GPULayersList.indices]) (by simp)
  rw [List.take_length] at hout hplaced
  have hcall : greedyFit layers gpus capacity requestedLayers = out := by
    unfold greedyFit
    rw [hrev]
    exact hout
  rw [hcall]
  rw [show layers.length - (layers.length - placed) = placed by omega] at hind
  have hsum : out.sum = placed := by
    rw [← GPULayersList.length_indices, hind, List.length_range']
  rw [Nat.sub_self, Nat.sub_zero] at hplaced
  refine ⟨by omega, by rw [hsum, hind], ?_, hused, ?_⟩
  · intro h0
    have hfit := nextFit_le_length (layers.reverse.take (quota requestedLayers layers.length))
      (freeSpace gpu capacity) (devices.map (freeSpace · capacity))
    have hquota : quota requestedLayers layers.length ≤ requestedLayers.toNat := by
      unfold quota
      rw [if_pos h0]
      exact Nat.min_le_left ..
    rw [← hplaced, List.length_take] at hfit
    omega
  · intro space rest hspaces
    unfold spaces at hspaces
    rw [hrev, List.map_cons, List.cons.injEq] at hspaces
    rw [hsum, hplaced, ← hspaces.1, ← hspaces.2]
    rfl

/-! ## More room -/

theorem freeSpace_mono (gpu : DeviceInfo) {c d : ℚ} (h : c ≤ d) : freeSpace gpu c ≤ freeSpace gpu d := by
  unfold freeSpace
  exact Int.toNat_le_toNat (Int.floor_le_floor (mul_le_mul_of_nonneg_left h (Nat.cast_nonneg _)))

/-- At capacity 1 and below, no more is placed on a GPU than it has free. -/
theorem freeSpace_le (gpu : DeviceInfo) {c : ℚ} (h : c ≤ 1) : freeSpace gpu c ≤ gpu.freeMemory := by
  refine (freeSpace_mono gpu h).trans ?_
  simp [freeSpace]

/-- More capacity never places fewer layers. -/
theorem greedyFit_mono (layers : List Nat) {gpus : List DeviceInfo} (hne : gpus ≠ []) {c d : ℚ} (h : c ≤ d)
    (requestedLayers : Int) :
    (greedyFit layers gpus c requestedLayers).sum ≤ (greedyFit layers gpus d requestedLayers).sum := by
  obtain ⟨gpu, devices, hrev⟩ : ∃ gpu devices, gpus.reverse = gpu :: devices :=
    List.exists_cons_of_ne_nil (by simpa using hne)
  have hspaces : ∀ capacity, spaces gpus capacity = freeSpace gpu capacity :: devices.map (freeSpace · capacity) :=
    fun capacity => by rw [spaces, hrev, List.map_cons]
  rw [(greedyFit_spec layers hne c requestedLayers).most _ _ (hspaces c),
    (greedyFit_spec layers hne d requestedLayers).most _ _ (hspaces d)]
  refine nextFit_mono _ (.same (freeSpace_mono gpu h) ?_)
  rw [List.forall₂_map_left_iff, List.forall₂_map_right_iff, List.forall₂_same]
  exact fun gpu _ => freeSpace_mono gpu h

/-- More GPUs behind the others never place fewer layers. -/
theorem greedyFit_take (layers : List Nat) {gpus more : List DeviceInfo} (hne : gpus ≠ []) (capacity : ℚ)
    (requestedLayers : Int) :
    (greedyFit layers gpus capacity requestedLayers).sum ≤
      (greedyFit layers (gpus ++ more) capacity requestedLayers).sum := by
  obtain ⟨space, rest, hspaces⟩ : ∃ space rest, spaces gpus capacity = space :: rest :=
    List.exists_cons_of_ne_nil (by simpa [spaces] using hne)
  obtain ⟨first, others, hall⟩ : ∃ first others, spaces (gpus ++ more) capacity = first :: others :=
    List.exists_cons_of_ne_nil (by simp [spaces, hne])
  rw [(greedyFit_spec layers hne capacity requestedLayers).most _ _ hspaces,
    (greedyFit_spec layers (by simp [hne]) capacity requestedLayers).most _ _ hall]
  have hfront : spaces more capacity ++ space :: rest = first :: others := by
    rw [← hspaces, ← hall, spaces, spaces, spaces, List.reverse_append, List.map_append]
  exact nextFit_mono _ (hasRoom_front hfront)

end Xdragon.Llm
