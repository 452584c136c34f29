import Xdragon.Llm.Rounds

/-!
# The bisection with rounded products

`findBestFit`, where the product of free memory and capacity is a `float32` as well. More capacity still never makes less space,
so that again only the bisection up to 1000 can go on for ever.
-/

open Xdragon.Lib

namespace Xdragon.Llm

/-- `uint64(x)`. What a number from `2 ^ 64` on becomes is up to the implementation; here it is the highest value. -/
def toUint64 (x : ℚ) : Nat := min ⌊x⌋.toNat (2 ^ 64 - 1)

/-- `uint64(float32(FreeMemory) * capacity)`. -/
def roundedSpace (gpu : DeviceInfo) (capacity : ℚ) : Nat := toUint64 (float32 (float32 gpu.freeMemory * capacity))

/-- A GPU that has free what `greedyFit` takes for it. -/
def scaled (capacity : ℚ) (gpu : DeviceInfo) : DeviceInfo := { gpu with freeMemory := roundedSpace gpu capacity }

/-- `greedyFit`. -/
def greedyFitRounded (layers : List Nat) (gpus : List DeviceInfo) (capacity : ℚ) (requestedLayers : Int) : GPULayersList :=
  greedyFit layers (gpus.map (scaled capacity)) 1 requestedLayers

/-- The best assignments of one class of GPUs. -/
def bestFitRounded (fuel : Nat) (layers : List Nat) (gl : List DeviceInfo) (requestedLayers : Int) (forceRequest : Bool) :
    Option GPULayersList :=
  let high := highest requestedLayers forceRequest
  let bestAssignments := greedyFitRounded layers gl high requestedLayers
  bisect (fun capacity => greedyFitRounded layers gl capacity requestedLayers) bestAssignments.sum fuel 0 high bestAssignments

def findBestFitRoundedLoop (fuel : Nat) (forceRequest : Bool) :
    List (List DeviceInfo) → List Nat → Int → GPULayersList → Option GPULayersList
  | [], _, _, gpuLayers => some gpuLayers
  | gl :: rest, layers, requestedLayers, gpuLayers =>
    (bestFitRounded fuel layers gl requestedLayers forceRequest).bind fun bestAssignments =>
      findBestFitRoundedLoop fuel forceRequest rest (layers.take (layers.length - bestAssignments.sum))
        (requestedLayers - bestAssignments.sum) (bestAssignments ++ gpuLayers)

/-- `findBestFit`. -/
def findBestFitRounded (fuel : Nat) (layers : List Nat) (gpus : List DeviceInfo) (requestedLayers : Int) (forceRequest : Bool) :
    Option GPULayersList :=
  findBestFitRoundedLoop fuel forceRequest (byPerformance gpus) layers requestedLayers []

/-! ## More capacity -/

theorem freeSpace_scaled (gpu : DeviceInfo) (capacity : ℚ) : freeSpace (scaled capacity gpu) 1 = roundedSpace gpu capacity := by
  rw [freeSpace, mul_one, scaled]
  exact congrArg Int.toNat (Int.floor_natCast _)

theorem roundedSpace_mono (gpu : DeviceInfo) {c d : ℚ} (h : c ≤ d) : roundedSpace gpu c ≤ roundedSpace gpu d := by
  have hmemory : 0 ≤ float32 gpu.freeMemory := float32_nonneg (Nat.cast_nonneg _)
  have hproduct := float32_mono (mul_le_mul_of_nonneg_left h hmemory)
  exact min_le_min_right _ (Int.toNat_le_toNat (Int.floor_le_floor hproduct))

theorem spaces_scaled (gpus : List DeviceInfo) (capacity : ℚ) :
    spaces (gpus.map (scaled capacity)) 1 = gpus.reverse.map (roundedSpace · capacity) := by
  rw [spaces, ← List.map_reverse, List.map_map]
  exact List.map_congr_left fun gpu _ => freeSpace_scaled gpu capacity

/-- What is placed is what next fit places in the rounded spaces. -/
theorem greedyFitRounded_sum (layers : List Nat) {gpus : List DeviceInfo} {gpu : DeviceInfo} {devices : List DeviceInfo}
    (hrev : gpus.reverse = gpu :: devices) (capacity : ℚ) (requestedLayers : Int) :
    (greedyFitRounded layers gpus capacity requestedLayers).sum =
      nextFit (wanted layers requestedLayers) (roundedSpace gpu capacity) (devices.map (roundedSpace · capacity)) := by
  have hne : gpus.map (scaled capacity) ≠ [] := by
    rw [ne_eq, List.map_eq_nil_iff]
    rintro rfl
    cases hrev
  exact (greedyFit_spec layers hne 1 requestedLayers).most _ _ (by rw [spaces_scaled, hrev, List.map_cons])

/-- More capacity never places fewer layers. -/
theorem greedyFitRounded_mono (layers : List Nat) {gpus : List DeviceInfo} (hne : gpus ≠ []) {c d : ℚ} (h : c ≤ d)
    (requestedLayers : Int) :
    (greedyFitRounded layers gpus c requestedLayers).sum ≤ (greedyFitRounded layers gpus d requestedLayers).sum := by
  obtain ⟨gpu, devices, hrev⟩ : ∃ gpu devices, gpus.reverse = gpu :: devices :=
    List.exists_cons_of_ne_nil (by simpa using hne)
  rw [greedyFitRounded_sum layers hrev, greedyFitRounded_sum layers hrev]
  refine nextFit_mono _ (.same (roundedSpace_mono gpu h) ?_)
  rw [List.forall₂_map_left_iff, List.forall₂_map_right_iff, List.forall₂_same]
  exact fun gpu _ => roundedSpace_mono gpu h

theorem greedyFitRounded_requested (layers : List Nat) {gpus : List DeviceInfo} (hne : gpus ≠ []) (capacity : ℚ) {requestedLayers : Int}
    (h0 : 0 ≤ requestedLayers) : (greedyFitRounded layers gpus capacity requestedLayers).sum ≤ requestedLayers :=
  (greedyFit_spec layers (by simpa using hne) 1 requestedLayers).requested h0

/-! ## When the bisections end -/

section
variable {layers : List Nat} {requestedLayers : Int} {forceRequest : Bool}

theorem bestFitRounded_some {fuel : Nat} {gl : List DeviceInfo} {out : GPULayersList}
    (h : bestFitRounded fuel layers gl requestedLayers forceRequest = some out) : ∃ c, out = greedyFitRounded layers gl c requestedLayers ∧
      out.sum = (greedyFitRounded layers gl (highest requestedLayers forceRequest) requestedLayers).sum := by
  obtain ⟨c, -, hout, hsum⟩ := bisect_some le_rfl (highest_pos requestedLayers forceRequest).le (isFloat32_highest ..) rfl rfl h
  exact ⟨c, hout, hsum⟩

theorem findBestFitRoundedLoop_more {fuel fuel' : Nat} (hle : fuel ≤ fuel') {classes : List (List DeviceInfo)} {gpuLayers out : GPULayersList}
    (h : findBestFitRoundedLoop fuel forceRequest classes layers requestedLayers gpuLayers = some out) :
    findBestFitRoundedLoop fuel' forceRequest classes layers requestedLayers gpuLayers = some out := by
  induction classes generalizing layers requestedLayers gpuLayers with
  | nil => exact h
  | cons gl rest ih =>
    simp only [findBestFitRoundedLoop, Option.bind_eq_some_iff] at h ⊢
    obtain ⟨part, hpart, hrest⟩ := h
    exact ⟨part, bisect_more hle hpart, ih hrest⟩

end

/-- In each class as many layers fit at capacity 16 as at 1000, which are the ones that the class takes. -/
def RoomInClasses : List (List DeviceInfo) → List Nat → Int → Prop
  | [], _, _ => True
  | gl :: rest, layers, requestedLayers =>
    let taken := (greedyFitRounded layers gl 1000 requestedLayers).sum
    (greedyFitRounded layers gl 16 requestedLayers).sum = taken ∧
      RoomInClasses rest (layers.take (layers.length - taken)) (requestedLayers - taken)

theorem findBestFitRoundedLoop_ends (forceRequest : Bool) {classes : List (List DeviceInfo)} (hne : ∀ gl ∈ classes, gl ≠ []) (layers : List Nat)
    (requestedLayers : Int) (gpuLayers : GPULayersList) :
    (∃ fuel out, findBestFitRoundedLoop fuel forceRequest classes layers requestedLayers gpuLayers = some out) ↔
      (0 ≤ requestedLayers ∧ forceRequest = true → RoomInClasses classes layers requestedLayers) := by
  induction classes generalizing layers requestedLayers gpuLayers with
  | nil => exact iff_of_true ⟨0, gpuLayers, rfl⟩ fun _ => trivial
  | cons gl rest ih =>
    have hgl := hne gl (List.mem_cons_self ..)
    have ih := @ih fun gl hgl => hne gl (List.mem_cons_of_mem _ hgl)
    have hends : (∃ fuel out, bestFitRounded fuel layers gl requestedLayers forceRequest = some out) ↔
        (0 ≤ requestedLayers ∧ forceRequest = true → (greedyFitRounded layers gl 16 requestedLayers).sum =
          (greedyFitRounded layers gl 1000 requestedLayers).sum) :=
      bisect_highest (fun h => greedyFitRounded_mono layers hgl h requestedLayers) requestedLayers forceRequest
    -- what is left of the request, and what the class takes when it is forced
    have hleft : ∀ {fuel part}, bestFitRounded fuel layers gl requestedLayers forceRequest = some part →
        (0 ≤ requestedLayers - part.sum ↔ 0 ≤ requestedLayers) := by
      intro fuel part hpart
      obtain ⟨c, rfl, -⟩ := bestFitRounded_some hpart
      exact (highest_sub (greedyFitRounded_requested layers hgl c) forceRequest).1
    have htaken : ∀ {fuel part}, bestFitRounded fuel layers gl requestedLayers forceRequest = some part →
        0 ≤ requestedLayers ∧ forceRequest = true → part.sum = (greedyFitRounded layers gl 1000 requestedLayers).sum := by
      intro fuel part hpart hforced
      obtain ⟨c, -, hsum⟩ := bestFitRounded_some hpart
      rw [hsum, highest, if_pos hforced]
    constructor
    · rintro ⟨fuel, out, hout⟩ hforced
      simp only [findBestFitRoundedLoop, Option.bind_eq_some_iff] at hout
      obtain ⟨part, hpart, hrest⟩ := hout
      have hroom := (ih _ _ _).mp ⟨fuel, out, hrest⟩ ⟨(hleft hpart).mpr hforced.1, hforced.2⟩
      rw [htaken hpart hforced] at hroom
      exact ⟨hends.mp ⟨fuel, part, hpart⟩ hforced, hroom⟩
    · intro hroom
      obtain ⟨fuel, part, hpart⟩ := hends.mpr fun hforced => (hroom hforced).1
      obtain ⟨fuel', out, hout⟩ := (ih (layers.take (layers.length - part.sum)) (requestedLayers - part.sum) (part ++ gpuLayers)).mpr
        fun hforced => by
          have hforced : 0 ≤ requestedLayers ∧ forceRequest = true := ⟨(hleft hpart).mp hforced.1, hforced.2⟩
          rw [htaken hpart hforced]
          exact (hroom hforced).2
      refine ⟨max fuel fuel', out, ?_⟩
      simp only [findBestFitRoundedLoop, Option.bind_eq_some_iff]
      exact ⟨part, bisect_more (le_max_left ..) hpart, findBestFitRoundedLoop_more (le_max_right ..) hout⟩

/-- `findBestFit` comes back unless a forced request needs a capacity above 16. -/
theorem findBestFitRounded_ends_iff (layers : List Nat) (gpus : List DeviceInfo) (requestedLayers : Int) (forceRequest : Bool) :
    (∃ fuel out, findBestFitRounded fuel layers gpus requestedLayers forceRequest = some out) ↔
      (0 ≤ requestedLayers ∧ forceRequest = true → RoomInClasses (byPerformance gpus) layers requestedLayers) :=
  findBestFitRoundedLoop_ends forceRequest (byPerformance_spec gpus).2 layers requestedLayers []

/-- A layer of 20 GiB, a GPU with 1 GiB: the capacity stays between two neighbours at 20. -/
theorem twentyGiB_hangs : ¬ ∀ (layers : List Nat) (gpus : List DeviceInfo) (requestedLayers : Int) (forceRequest : Bool),
    ∃ fuel out, findBestFitRounded fuel layers gpus requestedLayers forceRequest = some out := by
  intro h
  let gpu : DeviceInfo :=
    { deviceID := ⟨"0", "CUDA"⟩
      freeMemory := 2 ^ 30 }
  obtain ⟨fuel, out, hout⟩ := h [20 * 2 ^ 30] [gpu] 1 true
  have hroom := (findBestFitRoundedLoop_ends true (byPerformance_spec [gpu]).2 [20 * 2 ^ 30] 1 []).mp ⟨fuel, out, hout⟩ ⟨by decide, rfl⟩
  have hclasses : byPerformance [gpu] = [[gpu]] := rfl
  have hspace : ∀ n : Nat, n ≤ 1000 → roundedSpace gpu n = 2 ^ 30 * n := by
    intro n hn
    have hmemory : float32 gpu.freeMemory = 2 ^ 30 :=
      float32_eq_self (by positivity) ⟨1, 30, by norm_num, by norm_num [gpu]⟩
    have hproduct : float32 (2 ^ 30 * n) = 2 ^ 30 * n :=
      float32_eq_self (by positivity) ⟨n, 30, by omega, by norm_num [mul_comm]⟩
    have hfloor : ⌊(2 ^ 30 * n : ℚ)⌋ = (2 ^ 30 * n : ℕ) := by
      rw [← Int.floor_natCast (2 ^ 30 * n) (R := ℚ)]
      push_cast
      rfl
    rw [roundedSpace, hmemory, hproduct, toUint64, hfloor, Int.toNat_natCast]
    omega
  have hsum : ∀ n : Nat, n ≤ 1000 → (greedyFitRounded [20 * 2 ^ 30] [gpu] n 1).sum = nextFit [20 * 2 ^ 30] (2 ^ 30 * n) [] := by
    intro n hn
    rw [@greedyFitRounded_sum [20 * 2 ^ 30] [gpu] gpu [] rfl, hspace n hn]
    rfl
  have h16 := hsum 16 (by norm_num)
  have h1000 := hsum 1000 le_rfl
  rw [Nat.cast_ofNat] at h16 h1000
  rw [hclasses, RoomInClasses, h16, h1000] at hroom
  exact absurd hroom.1 (by simp [nextFit])

end Xdragon.Llm
