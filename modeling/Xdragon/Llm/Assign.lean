import Xdragon.Llm.Rounds

/-!
# The assignment of layers

A layout is a run of layers that starts at the end of the list, or one before it. It comes back for
every request that is not forced, and for a forced one if 16 times the free memory is enough.
-/

open Xdragon.Lib

namespace Xdragon.Llm

/-- What `assignLayers` promises. -/
structure ValidLayout (layers : List Nat) (gpus : List DeviceInfo) (requireFull : Bool) (requestedLayers : Int)
    (out : GPULayersList) : Prop where
  /-- All layers, or a run that ends before the output layer. -/
  run : out.indices = List.range layers.length ∨
    ∃ first ≤ layers.length - 1, out.indices = List.range' first (layers.length - 1 - first)
  increasing : out.indices.Pairwise (· < ·)
  requested : 0 ≤ requestedLayers → out.indices.length ≤ requestedLayers
  /-- Each entry has a GPU of its own, with enough free memory for its layers. -/
  gpus : ∃ used : List (DeviceID × Nat), used.Subperm (gpus.map fun gpu => (gpu.deviceID, gpu.freeMemory)) ∧
    List.Forall₂ (fun e u => e.deviceID = u.1 ∧
      (requestedLayers < 0 ∨ requireFull = true → (e.layers.map fun i => layers.getD i 0).sum ≤ u.2)) out used

/-- The GPUs as `assignLayers` looks at them. -/
def seen (spread : Bool) (gpus : List DeviceInfo) (requestedLayers : Int) : List DeviceInfo :=
  if 0 ≤ requestedLayers ∨ spread then gpus.map fun gpu => { gpu with integrated := false } else gpus

theorem seen_map (spread : Bool) (gpus : List DeviceInfo) (requestedLayers : Int) :
    (seen spread gpus requestedLayers).map (fun gpu => (gpu.deviceID, gpu.freeMemory)) =
      gpus.map fun gpu => (gpu.deviceID, gpu.freeMemory) := by
  unfold seen
  split
  · rw [List.map_map]
    rfl
  · rfl

theorem seen_length (spread : Bool) (gpus : List DeviceInfo) (requestedLayers : Int) :
    (seen spread gpus requestedLayers).length = gpus.length := by
  unfold seen
  split <;> simp

theorem seen_same {spread : Bool} {gpus : List DeviceInfo} {requestedLayers : Int} (h0 : 0 ≤ requestedLayers) :
    ∀ gpu ∈ seen spread gpus requestedLayers, gpu.integrated = false := by
  intro gpu hgpu
  rw [seen, if_pos (Or.inl h0)] at hgpu
  obtain ⟨g, -, rfl⟩ := List.mem_map.mp hgpu
  rfl

/-- `greedyFit` does not look at the kind of a GPU. -/
theorem greedyFit_seen (layers : List Nat) (spread : Bool) {gpus : List DeviceInfo} (hne : gpus ≠ [])
    (requestedLayers : Int) (capacity : ℚ) (r : Int) :
    (greedyFit layers (seen spread gpus requestedLayers) capacity r).sum = (greedyFit layers gpus capacity r).sum := by
  have hseen : seen spread gpus requestedLayers ≠ [] := by
    rw [← List.length_pos_iff, seen_length, List.length_pos_iff]
    exact hne
  have hspaces : spaces (seen spread gpus requestedLayers) capacity = spaces gpus capacity := by
    unfold spaces seen
    split
    · rw [← List.map_reverse, List.map_map]
      rfl
    · rfl
  obtain ⟨space, rest, h⟩ : ∃ space rest, spaces gpus capacity = space :: rest :=
    List.exists_cons_of_ne_nil (by simpa [spaces] using hne)
  rw [(greedyFit_spec layers hseen capacity r).most space rest (hspaces.trans h),
    (greedyFit_spec layers hne capacity r).most space rest h]

/-- A round over the first `n` layers, all of them or all but the output layer, leaves a valid layout. -/
theorem Round.valid {layers : List Nat} {spread : Bool} {gpus : List DeviceInfo} {requireFull : Bool}
    {requestedLayers : Int} {n : Nat} {out : GPULayersList} (hn : n = layers.length - 1 ∨ n = layers.length)
    (hrun : n = layers.length → out.sum = layers.length)
    (h : Round (layers.take n) (seen spread gpus requestedLayers) requireFull (min (n : Int) requestedLayers) out) :
    ValidLayout layers gpus requireFull requestedLayers out := by
  have hlen : (layers.take n).length = n := by
    rw [List.length_take]
    omega
  have hle := h.sum_le
  have hind := h.indices
  rw [hlen] at hle hind
  refine ⟨?_, ?_, ?_, ?_⟩
  · rcases hn with hn | hn
    · refine Or.inr ⟨n - out.sum, by omega, ?_⟩
      rw [hind]
      congr 1
      omega
    · refine Or.inl ?_
      rw [hind, hrun hn, hn, Nat.sub_self, List.range_eq_range']
  · rw [hind]
    exact List.pairwise_lt_range' 1
  · intro h0
    have := h.requested (by omega)
    rw [GPULayersList.length_indices]
    omega
  · obtain ⟨space, ⟨used, hsub, hfits⟩, hlimit⟩ := h.onGPUs
    refine ⟨used.map fun gpu => (gpu.deviceID, gpu.freeMemory), ?_, ?_⟩
    · obtain ⟨l, hperm, hsub⟩ := hsub
      rw [← seen_map spread gpus requestedLayers]
      exact ⟨_, hperm.map _, hsub.map _⟩
    · have hlt : ∀ i ∈ out.indices, i < n := by
        intro i hi
        rw [hind, List.mem_range'_1] at hi
        omega
      rw [List.forall₂_map_right_iff]
      refine (fits_take hlt hfits).imp ?_
      rintro e gpu ⟨hid, hload⟩
      refine ⟨hid, fun hfree => hload.trans (hlimit ?_ gpu)⟩
      exact hfree.imp_left fun hneg => by omega

section
variable {spread : Bool} {layers : List Nat} {gpus : List DeviceInfo} {requireFull : Bool} {requestedLayers : Int}
  {lastUsedGPU : Nat}

theorem assignLayers_eq (fuel : Nat) :
    assignLayers fuel spread layers gpus requireFull requestedLayers lastUsedGPU =
      (assignRound fuel spread layers (seen spread gpus requestedLayers) requireFull
        (min (layers.length : Int) requestedLayers) lastUsedGPU []).bind fun gpuLayers =>
        if gpuLayers.sum = layers.length then some gpuLayers
        else assignRound fuel spread layers.dropLast (seen spread gpus requestedLayers) requireFull
          (min (layers.dropLast.length : Int) (min (layers.length : Int) requestedLayers)) lastUsedGPU gpuLayers := rfl

theorem assignLayers_more {fuel fuel' : Nat} (hle : fuel ≤ fuel') {out : GPULayersList}
    (h : assignLayers fuel spread layers gpus requireFull requestedLayers lastUsedGPU = some out) :
    assignLayers fuel' spread layers gpus requireFull requestedLayers lastUsedGPU = some out := by
  rw [assignLayers_eq, Option.bind_eq_some_iff] at h ⊢
  obtain ⟨first, hfirst, h⟩ := h
  refine ⟨first, assignRound_more hle hfirst, ?_⟩
  split at h
  · rename_i hall
    rwa [if_pos hall]
  · rename_i hall
    rw [if_neg hall]
    exact assignRound_more hle h

theorem assignLayers_valid (hlast : lastUsedGPU < gpus.length) {fuel : Nat} {out : GPULayersList}
    (h : assignLayers fuel spread layers gpus requireFull requestedLayers lastUsedGPU = some out) :
    ValidLayout layers gpus requireFull requestedLayers out := by
  have hseen : lastUsedGPU < (seen spread gpus requestedLayers).length := by rwa [seen_length]
  rw [assignLayers_eq, Option.bind_eq_some_iff] at h
  obtain ⟨first, hfirst, h⟩ := h
  have hround := assignRound_round hseen hfirst
  split at h
  · rename_i hall
    rw [Option.some.injEq] at h
    subst h
    have htake : layers.take layers.length = layers := List.take_length
    rw [← htake, List.length_take, Nat.min_self] at hround
    exact hround.valid (Or.inr rfl) fun _ => hall
  · have hround := assignRound_round hseen h
    have hle := hround.sum_le
    rw [List.dropLast_eq_take] at hround
    rw [List.length_dropLast] at hle
    have hreq : min (((layers.take (layers.length - 1)).length : Nat) : Int) (min (layers.length : Int) requestedLayers) =
        min ((layers.length - 1 : Nat) : Int) requestedLayers := by
      rw [List.length_take]
      omega
    rw [hreq] at hround
    exact hround.valid (Or.inl rfl) fun hn => by omega

/-- It comes back, with one and the same layout however long it may run. -/
def Returns (spread : Bool) (layers : List Nat) (gpus : List DeviceInfo) (requireFull : Bool) (requestedLayers : Int)
    (lastUsedGPU : Nat) (out : GPULayersList) : Prop :=
  ∃ fuel, ∀ fuel' ≥ fuel, assignLayers fuel' spread layers gpus requireFull requestedLayers lastUsedGPU = some out

/-- 16 times the free memory holds as many layers as 1000 times, with the output layer, and also
without it if there is a second round. -/
def EnoughAtSixteen (layers : List Nat) (gpus : List DeviceInfo) (requestedLayers : Int) : Prop :=
  RoomAtSixteen layers (min (layers.length : Int) requestedLayers) gpus ∧
    ((greedyFit layers gpus 1000 (min (layers.length : Int) requestedLayers)).sum = layers.length ∨
      RoomAtSixteen layers.dropLast (min (layers.dropLast.length : Int) requestedLayers) gpus)

instance (layers : List Nat) (gpus : List DeviceInfo) (requestedLayers : Int) :
    Decidable (EnoughAtSixteen layers gpus requestedLayers) := by
  unfold EnoughAtSixteen; infer_instance

theorem roomAtSixteen_seen (hne : gpus ≠ []) (r : Int) :
    RoomAtSixteen layers r (seen spread gpus requestedLayers) ↔ RoomAtSixteen layers r gpus := by
  unfold RoomAtSixteen
  rw [greedyFit_seen layers spread hne, greedyFit_seen layers spread hne]

/-- Two rounds, the second one unless the first one places all layers. -/
theorem assignLayers_ends (hlast : lastUsedGPU < gpus.length) :
    (∃ fuel out, assignLayers fuel spread layers gpus requireFull requestedLayers lastUsedGPU = some out) ↔
      requestedLayers < 0 ∨ requireFull = true ∨ EnoughAtSixteen layers gpus requestedLayers := by
  have hne : gpus ≠ [] := by
    rintro rfl
    exact absurd hlast (Nat.not_lt_zero _)
  have hseen : lastUsedGPU < (seen spread gpus requestedLayers).length := by rwa [seen_length]
  have hseenNe : seen spread gpus requestedLayers ≠ [] := by
    rw [← List.length_pos_iff]
    omega
  have hreq : min (layers.dropLast.length : Int) (min (layers.length : Int) requestedLayers) =
      min (layers.dropLast.length : Int) requestedLayers := by
    rw [List.length_dropLast]
    omega
  simp only [assignLayers_eq, hreq, Option.bind_eq_some_iff]
  by_cases hfree : requestedLayers < 0 ∨ requireFull = true
  · refine iff_of_true ?_ (or_assoc.mp (Or.inl hfree))
    have hfree1 : min (layers.length : Int) requestedLayers < 0 ∨ requireFull = true :=
      hfree.imp_left fun hneg => by omega
    have hfree2 : min (layers.dropLast.length : Int) requestedLayers < 0 ∨ requireFull = true :=
      hfree.imp_left fun hneg => by omega
    obtain ⟨fuel, first, hfirst⟩ := assignRound_ends hfree1 spread lastUsedGPU []
    obtain ⟨fuel', second, hsecond⟩ := assignRound_ends hfree2 spread lastUsedGPU first
    by_cases hall : first.sum = layers.length
    · exact ⟨fuel, first, first, hfirst, if_pos hall⟩
    · refine ⟨max fuel fuel', second, first, assignRound_more (le_max_left ..) hfirst, ?_⟩
      rw [if_neg hall]
      exact assignRound_more (le_max_right ..) hsecond
  · obtain ⟨hnonneg, hpart⟩ := not_or.mp hfree
    have h0 : 0 ≤ requestedLayers := by omega
    have hfull : requireFull = false := by simpa using hpart
    subst hfull
    have hsame := @seen_same spread gpus requestedLayers h0
    obtain ⟨hends1, hsum1⟩ := @assignRound_forced layers _ (min (layers.length : Int) requestedLayers) hseenNe hsame
      (by omega) spread lastUsedGPU hseen []
    have hforced2 := @assignRound_forced layers.dropLast _ (min (layers.dropLast.length : Int) requestedLayers)
      hseenNe hsame (by omega) spread lastUsedGPU hseen
    rw [roomAtSixteen_seen hne] at hends1
    simp only [greedyFit_seen layers spread hne] at hsum1
    simp only [roomAtSixteen_seen hne] at hforced2
    constructor
    · rintro ⟨fuel, out, first, hfirst, h⟩
      refine Or.inr (Or.inr ⟨hends1.mp ⟨fuel, first, hfirst⟩, ?_⟩)
      split at h
      · rename_i hall
        exact Or.inl ((hsum1 fuel first hfirst).symm.trans hall)
      · exact Or.inr ((hforced2 first).1.mp ⟨fuel, out, h⟩)
    · rintro (hneg | hfull | ⟨hroom, hnext⟩)
      · exact absurd hneg hnonneg
      · cases hfull
      · obtain ⟨fuel, first, hfirst⟩ := hends1.mpr hroom
        by_cases hall : first.sum = layers.length
        · exact ⟨fuel, first, first, hfirst, if_pos hall⟩
        · have hroom2 := hnext.resolve_left fun he => hall ((hsum1 fuel first hfirst).trans he)
          obtain ⟨fuel', second, hsecond⟩ := (hforced2 first).1.mpr hroom2
          refine ⟨max fuel fuel', second, first, assignRound_more (le_max_left ..) hfirst, ?_⟩
          rw [if_neg hall]
          exact assignRound_more (le_max_right ..) hsecond

/-- A layout comes back exactly if the request is not forced, or 16 times the free memory is enough, and
then it is valid. Without a forced request each class of GPUs gets as many layers as fit. -/
theorem assignLayers_valid_iff (hlast : lastUsedGPU < gpus.length) :
    ((∃ out, Returns spread layers gpus requireFull requestedLayers lastUsedGPU out ∧
        ValidLayout layers gpus requireFull requestedLayers out) ↔
      requestedLayers < 0 ∨ requireFull = true ∨ EnoughAtSixteen layers gpus requestedLayers) ∧
    ∀ fuel layers gpus requestedLayers forceRequest out, requestedLayers < 0 ∨ forceRequest = false →
      findBestFit fuel layers gpus requestedLayers forceRequest = some out →
      ∃ parts : List GPULayersList, out = parts.reverse.flatten ∧
        List.Forall₂ (fun part gl => ∃ used, used <:+ gl ∧ part.map (·.deviceID) = used.map (·.deviceID))
          parts (byPerformance gpus) ∧
        parts.map (·.sum) = classCounts 1 (byPerformance gpus) layers requestedLayers := by
  refine ⟨?_, ?_⟩
  · rw [← assignLayers_ends hlast]
    constructor
    · rintro ⟨out, ⟨fuel, hret⟩, -⟩
      exact ⟨fuel, out, hret fuel le_rfl⟩
    · rintro ⟨fuel, out, hout⟩
      exact ⟨out, ⟨fuel, fun fuel' hle => assignLayers_more hle hout⟩, assignLayers_valid hlast hout⟩
  · intro fuel layers gpus requestedLayers forceRequest out hfree h
    obtain ⟨parts, hout, hplaced⟩ := findBestFit_placed h
    have htop : highest requestedLayers forceRequest = 1 := by
      refine if_neg fun hforce => ?_
      rcases hfree with hneg | hno
      · omega
      · rw [hno] at hforce
        exact absurd hforce.2 (by decide)
    rw [htop] at hplaced
    refine ⟨parts, hout, hplaced.used.imp ?_, hplaced.counts⟩
    rintro part gl ⟨used, hsuffix, hfits⟩
    refine ⟨used, hsuffix, ?_⟩
    rw [← List.forall₂_eq_eq_eq, List.forall₂_map_left_iff, List.forall₂_map_right_iff]
    exact hfits.imp fun _ _ hf => hf.1

end

/-- A GPU on the board and a slower one in the chip. -/
def twoGPUs : List DeviceInfo := [⟨⟨"0", "CUDA"⟩, 5, false⟩, ⟨⟨"1", "CUDA"⟩, 4, true⟩]

theorem twoGPUs_layout : ∃ out, Returns false [3, 1, 2, 4] twoGPUs false 3 0 out ∧
    ValidLayout [3, 1, 2, 4] twoGPUs false 3 out :=
  (assignLayers_valid_iff (by decide)).1.mpr (Or.inr (Or.inr (by decide +kernel)))

/-- One layer of 20 GiB, requested on a GPU with 1 GiB: the bisection stays between two capacities. -/
theorem smallGPU_hangs : ¬ ∃ out, Returns false [21474836480] [⟨⟨"0", "CUDA"⟩, 1073741824, false⟩] false 1 0 out := by
  rintro ⟨out, fuel, hret⟩
  have hends := assignLayers_ends (by decide) |>.mp ⟨fuel, out, hret fuel le_rfl⟩
  exact absurd hends (by decide +kernel)

end Xdragon.Llm
