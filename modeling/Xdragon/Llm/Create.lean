import Xdragon.Lib.Nested
import Xdragon.Lib.Wire
import Xdragon.Llm.Rounded

/-!
# A layout from a memory report

`createLayout` of `llm/server.go`, with `buildLayout`, `verifyLayout` and what they use of `ml/device.go`. `none` says that it does
not come back: the fuel of a bisection ran out, or an index is out of range.
-/

open Xdragon.Lib

namespace Xdragon.Llm

/-! ## What is known of the memory -/

/-- The memory of one device: a number for each layer, and the graph. -/
structure DeviceMemory where
  deviceID : DeviceID := ⟨"", ""⟩
  weights : List UInt64 := []
  cache : List UInt64 := []
  graph : UInt64 := 0

structure BackendMemory where
  inputWeights : UInt64 := 0
  cpu : DeviceMemory
  gpus : List DeviceMemory := []

structure SystemInfo where
  totalMemory : UInt64
  freeMemory : UInt64
  freeSwap : UInt64

/-- `ByFreeMemory.Less`: integrated GPUs first. -/
def freeLess (a b : DeviceInfo) : Bool :=
  if a.integrated && !b.integrated then true
  else if !a.integrated && b.integrated then false
  else decide (a.freeMemory < b.freeMemory)

/-- `sort.Sort(sort.Reverse(ByFreeMemory(gpus)))`, which leaves open how equals are ordered. -/
structure Sorting where
  sort : List DeviceInfo → List DeviceInfo
  perm : ∀ gpus, (sort gpus).Perm gpus
  sorted : ∀ gpus, (sort gpus).Pairwise fun a b => freeLess a b = false

/-- A stable sort is one of them. -/
def largestFirst : Sorting where
  sort gpus := gpus.mergeSort fun a b => !freeLess a b
  perm gpus := List.mergeSort_perm gpus _
  sorted gpus := by
    have htrans : ∀ a b c, (!freeLess a b) = true → (!freeLess b c) = true → (!freeLess a c) = true := by
      intro a b c hab hbc
      simp only [freeLess] at *
      grind
    have htotal : ∀ a b, ((!freeLess a b) || !freeLess b a) = true := by
      intro a b
      simp only [freeLess]
      grind
    simpa using List.pairwise_mergeSort htrans htotal gpus

/-- What the process finds around it. -/
structure Environment where
  /-- `runtime.GOOS == "darwin"`. -/
  darwin : Bool
  schedSpread : Bool
  gpuOverhead : UInt64
  sorting : Sorting
  /-- `Sum64` of the bytes written to a `maphash.Hash`. -/
  sum64 : Bytes → UInt64

/-- Why a model is not loaded. -/
inductive LoadError where
  /-- `ErrLoadRequiredFull`: "unable to load full model on GPU". -/
  | requiredFull
  /-- "model requires more system memory than is currently available", around `ErrLoadRequiredFull`. -/
  | moreSystemMemory
  /-- "model requires more system memory (%s) than is available (%s)". -/
  | tooLarge (requested available : UInt64)
  /-- "memory layout cannot be allocated with num_gpu = %v". -/
  | withNumGPU (numGPU : Int)
  /-- "memory layout cannot be allocated". -/
  | notAllocated
  /-- "failed to commit memory for model". -/
  | notCommitted
  /-- What the runner, or the way to it, has to say. -/
  | runner (message : String)

/-! ## `assignLayers` over any `findBestFit` -/

section
variable (best : List Nat → List DeviceInfo → Int → Bool → Option GPULayersList)

def packLoopWith (layers : List Nat) (gpus : List DeviceInfo) (requireFull : Bool) (requestedLayers : Int) :
    Nat → Nat → GPULayersList → Option GPULayersList
  | 0, _, gpuLayers => some gpuLayers
  | left + 1, i, _ =>
    let forceRequest := i + 1 = gpus.length && !requireFull
    (best layers (gpus.take (i + 1)) requestedLayers forceRequest).bind fun gpuLayers =>
      if gpuLayers.sum = layers.length ∨ (gpuLayers.sum : Int) = requestedLayers then some gpuLayers
      else packLoopWith layers gpus requireFull requestedLayers left (i + 1) gpuLayers

def assignRoundWith (spread : Bool) (layers : List Nat) (gpus : List DeviceInfo) (requireFull : Bool)
    (requestedLayers : Int) (lastUsedGPU : Nat) (gpuLayers : GPULayersList) : Option GPULayersList :=
  if spread then best layers gpus requestedLayers (!requireFull)
  else packLoopWith best layers gpus requireFull requestedLayers (gpus.length - lastUsedGPU) lastUsedGPU gpuLayers

def assignLayersWith (spread : Bool) (layers : List Nat) (gpus : List DeviceInfo) (requireFull : Bool)
    (requestedLayers : Int) (lastUsedGPU : Nat) : Option GPULayersList :=
  let gpus := if 0 ≤ requestedLayers ∨ spread then gpus.map fun gpu => { gpu with integrated := false } else gpus
  let requestedLayers := min (layers.length : Int) requestedLayers
  (assignRoundWith best spread layers gpus requireFull requestedLayers lastUsedGPU []).bind fun gpuLayers =>
    if gpuLayers.sum = layers.length then some gpuLayers
    else
      let layers := layers.dropLast
      assignRoundWith best spread layers gpus requireFull (min (layers.length : Int) requestedLayers) lastUsedGPU gpuLayers

end

/-- `assignLayers`, with rounded products. -/
def assignLayersRounded (fuel : Nat) : Bool → List Nat → List DeviceInfo → Bool → Int → Nat → Option GPULayersList :=
  assignLayersWith (findBestFitRounded fuel)

/-! ## `buildLayout` -/

/-- `ByLibrary`: the devices of each library, in order of appearance. -/
def addByLibrary (info : DeviceInfo) : List (String × List DeviceInfo) → List (String × List DeviceInfo)
  | [] => [(info.deviceID.library, [info])]
  | (lib, devices) :: rest =>
    if lib = info.deviceID.library then (lib, devices ++ [info]) :: rest
    else (lib, devices) :: addByLibrary info rest

def byLibrary (l : List DeviceInfo) : List (List DeviceInfo) :=
  (l.foldl (fun resp info => addByLibrary info resp) []).map (·.2)

def mebiByte : UInt64 := 1024 * 1024

/-- `MinimumMemory`. -/
def DeviceInfo.minimumMemory (gpu : DeviceInfo) : UInt64 :=
  if gpu.deviceID.library = "Metal" then 512 * mebiByte else 457 * mebiByte

/-- What a device needs for layer `i`. It may report too few layers. -/
def DeviceMemory.layer (m : DeviceMemory) (i : Nat) : Option UInt64 := do
  return (← m.weights[i]?) + (← m.cache[i]?)

/-- What all devices need for layer `i`. -/
def layerSize (memory : BackendMemory) (i : Nat) : Option UInt64 := do
  let onGPUs ← memory.gpus.mapM (·.layer i)
  return onGPUs.foldl (· + ·) 0 + (← memory.cpu.layer i)

def layerSizes (memory : BackendMemory) : Option (List UInt64) :=
  (List.range memory.cpu.weights.length).mapM (layerSize memory)

/-- The report on a GPU. -/
def BackendMemory.report (memory : BackendMemory) (gpu : DeviceInfo) : Option DeviceMemory :=
  memory.gpus.find? fun m => gpu.deviceID = m.deviceID

/-- The free memory without what is reserved, and none on a GPU that the runner does not see. -/
def reserve (env : Environment) (memory : BackendMemory) (backoff : ℚ) (gpu : DeviceInfo) : DeviceInfo :=
  match memory.report gpu with
  | none => { gpu with freeMemory := 0 }
  | some m =>
    let reserved := UInt64.ofNat (roundedSpace gpu backoff) + gpu.minimumMemory + env.gpuOverhead + m.graph
    { gpu with freeMemory := if reserved.toNat < gpu.freeMemory then gpu.freeMemory - reserved.toNat else 0 }

/-- The last GPU that has a graph already. -/
def lastUsedGPU (memory : BackendMemory) (gl : List DeviceInfo) : Nat :=
  gl.zipIdx.foldl (fun last (gpu, i) => if ((memory.report gpu).map (·.graph)).getD 0 ≠ 0 then i else last) 0

/-- The loop over the libraries. The one with the most layers wins. -/
def buildLoop (fuel : Nat) (env : Environment) (memory : BackendMemory) (requireFull : Bool) (backoff : ℚ) (numGPU : Int)
    (layers : List UInt64) : List (List DeviceInfo) → GPULayersList → Option GPULayersList
  | [], gpuLayers => some gpuLayers
  | gl :: rest, gpuLayers =>
    (assignLayersRounded fuel env.schedSpread (layers.map UInt64.toNat) (gl.map (reserve env memory backoff)) requireFull numGPU
        (lastUsedGPU memory gl)).bind fun libraryGpuLayers =>
      buildLoop fuel env memory requireFull backoff numGPU layers rest
        (if gpuLayers.sum < libraryGpuLayers.sum then libraryGpuLayers else gpuLayers)

def buildLayout (fuel : Nat) (env : Environment) (systemGPUs : List DeviceInfo) (memory : BackendMemory) (requireFull : Bool)
    (backoff : ℚ) (numGPU : Int) : Option (GPULayersList × List UInt64) :=
  (layerSizes memory).bind fun layers =>
    (buildLoop fuel env memory requireFull backoff numGPU layers (byLibrary (env.sorting.sort systemGPUs)) []).map fun gpuLayers =>
      (gpuLayers, layers)

/-! ## `verifyLayout` -/

/-- Whether a layer is on a GPU. -/
def GPULayersList.has (gpuLayers : GPULayersList) (i : Nat) : Bool := gpuLayers.any fun g => g.layers.contains i

/-- The sizes that go to the CPU and to the GPUs. -/
def sizes (memory : BackendMemory) (gpuLayers : GPULayersList) (layers : List UInt64) : UInt64 × UInt64 :=
  let graphs := gpuLayers.foldl (fun vramSize gl =>
    vramSize + (((memory.gpus.find? fun gpu => gl.deviceID = gpu.deviceID).map (·.graph)).getD 0)) 0
  layers.zipIdx.foldl (fun (cpuSize, vramSize) (size, i) =>
    if gpuLayers.has i then (cpuSize, vramSize + size) else (cpuSize + size, vramSize))
    (memory.inputWeights + memory.cpu.graph, graphs)

/-- Whether the limits are kept, and `NumGPU`, which it may turn off. -/
def verifyLayout (env : Environment) (systemInfo : SystemInfo) (systemGPUs : List DeviceInfo) (memory : BackendMemory)
    (requireFull : Bool) (numGPU : Int) (gpuLayers : GPULayersList) (layers : List UInt64) : Except LoadError Unit × Int :=
  let (cpuSize, vramSize) := sizes memory gpuLayers layers
  let available := systemInfo.freeMemory + systemInfo.freeSwap
  if requireFull ∧ 0 < systemGPUs.length ∧ gpuLayers.sum < layers.length ∧ (numGPU < 0 ∨ gpuLayers.sum < numGPU) then
    (.error .requiredFull, numGPU)
  else if requireFull ∧ systemInfo.freeMemory < cpuSize then (.error .moreSystemMemory, numGPU)
  else if env.darwin then
    -- no partial offloading when the model is greater than the memory of the system
    (.ok (), if systemInfo.totalMemory < vramSize then 0 else numGPU)
  else if available < cpuSize then (.error (.tooLarge cpuSize available), numGPU)
  else (.ok (), numGPU)

/-! ## `createLayout` -/

/-- What is known before any report: that there are layers. -/
def unknownMemory (totalLayers : Nat) : BackendMemory where
  cpu := { weights := List.replicate totalLayers 0, cache := List.replicate totalLayers 0 }

/-- The layout or why there is none, and `NumGPU`. -/
def createLayout (fuel : Nat) (env : Environment) (totalLayers : Nat) (systemInfo : SystemInfo) (systemGPUs : List DeviceInfo)
    (memory : Option BackendMemory) (requireFull : Bool) (backoff : ℚ) (numGPU : Int) :
    Option (Except LoadError GPULayersList × Int) :=
  let memory := memory.getD (unknownMemory totalLayers)
  (buildLayout fuel env systemGPUs memory requireFull backoff numGPU).map fun (gpuLayers, layers) =>
    let (verified, numGPU) := verifyLayout env systemInfo systemGPUs memory requireFull numGPU gpuLayers layers
    (verified.map fun _ => gpuLayers, numGPU)

/-! ## More fuel -/

section
variable {best best' : List Nat → List DeviceInfo → Int → Bool → Option GPULayersList}

/-- The second search comes back whenever the first one does, with the same layout. -/
def Answers (best best' : List Nat → List DeviceInfo → Int → Bool → Option GPULayersList) : Prop :=
  ∀ layers gpus requestedLayers forceRequest out, best layers gpus requestedLayers forceRequest = some out →
    best' layers gpus requestedLayers forceRequest = some out

theorem packLoopWith_more (hbest : Answers best best') {layers : List Nat} {gpus : List DeviceInfo} {requireFull : Bool}
    {requestedLayers : Int} (left : Nat) {i : Nat} {gpuLayers out : GPULayersList}
    (h : packLoopWith best layers gpus requireFull requestedLayers left i gpuLayers = some out) :
    packLoopWith best' layers gpus requireFull requestedLayers left i gpuLayers = some out := by
  induction left generalizing i gpuLayers with
  | zero => exact h
  | succ left ih =>
    simp only [packLoopWith, Option.bind_eq_some_iff] at h ⊢
    obtain ⟨next, hnext, h⟩ := h
    refine ⟨next, hbest _ _ _ _ _ hnext, ?_⟩
    split at h
    · rename_i hdone
      rwa [if_pos hdone]
    · rename_i hdone
      rw [if_neg hdone]
      exact ih h

theorem assignRoundWith_more (hbest : Answers best best') {spread : Bool} {layers : List Nat} {gpus : List DeviceInfo}
    {requireFull : Bool} {requestedLayers : Int} {lastUsedGPU : Nat} {gpuLayers out : GPULayersList}
    (h : assignRoundWith best spread layers gpus requireFull requestedLayers lastUsedGPU gpuLayers = some out) :
    assignRoundWith best' spread layers gpus requireFull requestedLayers lastUsedGPU gpuLayers = some out := by
  unfold assignRoundWith at h ⊢
  split at h
  · rename_i hspread
    rw [if_pos hspread]
    exact hbest _ _ _ _ _ h
  · rename_i hspread
    rw [if_neg hspread]
    exact packLoopWith_more hbest _ h

theorem assignLayersWith_more (hbest : Answers best best') {spread : Bool} {layers : List Nat} {gpus : List DeviceInfo}
    {requireFull : Bool} {requestedLayers : Int} {lastUsedGPU : Nat} {out : GPULayersList}
    (h : assignLayersWith best spread layers gpus requireFull requestedLayers lastUsedGPU = some out) :
    assignLayersWith best' spread layers gpus requireFull requestedLayers lastUsedGPU = some out := by
  simp only [assignLayersWith, Option.bind_eq_some_iff] at h ⊢
  obtain ⟨first, hfirst, h⟩ := h
  refine ⟨first, assignRoundWith_more hbest hfirst, ?_⟩
  split at h
  · rename_i hall
    rwa [if_pos hall]
  · rename_i hall
    rw [if_neg hall]
    exact assignRoundWith_more hbest h

theorem answers_more {fuel fuel' : Nat} (hle : fuel ≤ fuel') : Answers (findBestFitRounded fuel) (findBestFitRounded fuel') :=
  fun _ _ _ _ _ h => findBestFitRoundedLoop_more hle h

/-- The loops are those of `assignLayers`. -/
theorem assignLayers_with (fuel : Nat) : assignLayers fuel = assignLayersWith (findBestFit fuel) := by
  have hpack : packLoop fuel = packLoopWith (findBestFit fuel) := by
    funext layers gpus requireFull requestedLayers left
    induction left with
    | zero => rfl
    | succ left ih =>
      funext i gpuLayers
      simp only [packLoop, packLoopWith, ih]
  have hround : assignRound fuel = assignRoundWith (findBestFit fuel) := by
    unfold assignRound assignRoundWith
    rw [hpack]
  unfold assignLayers assignLayersWith
  rw [hround]

end

section
variable {fuel fuel' : Nat} (hle : fuel ≤ fuel') {env : Environment} {memory : BackendMemory} {requireFull : Bool} {backoff : ℚ}
  {numGPU : Int}
include hle

theorem buildLoop_more {layers : List UInt64} {libraries : List (List DeviceInfo)} {gpuLayers out : GPULayersList}
    (h : buildLoop fuel env memory requireFull backoff numGPU layers libraries gpuLayers = some out) :
    buildLoop fuel' env memory requireFull backoff numGPU layers libraries gpuLayers = some out := by
  induction libraries generalizing gpuLayers with
  | nil => exact h
  | cons gl rest ih =>
    simp only [buildLoop, Option.bind_eq_some_iff] at h ⊢
    obtain ⟨part, hpart, h⟩ := h
    exact ⟨part, assignLayersWith_more (answers_more hle) hpart, ih h⟩

theorem createLayout_more {totalLayers : Nat} {systemInfo : SystemInfo} {systemGPUs : List DeviceInfo} {memory : Option BackendMemory}
    {out : Except LoadError GPULayersList × Int}
    (h : createLayout fuel env totalLayers systemInfo systemGPUs memory requireFull backoff numGPU = some out) :
    createLayout fuel' env totalLayers systemInfo systemGPUs memory requireFull backoff numGPU = some out := by
  simp only [createLayout, buildLayout, Option.map_eq_some_iff, Option.bind_eq_some_iff] at h ⊢
  obtain ⟨built, ⟨layers, hlayers, gpuLayers, hloop, rfl⟩, rfl⟩ := h
  exact ⟨_, ⟨layers, hlayers, gpuLayers, buildLoop_more hle hloop, rfl⟩, rfl⟩

end

/-! ## When the full model has to fit -/

/-- The device reports on `n` layers at least. -/
structure DeviceMemory.Covers (m : DeviceMemory) (n : Nat) : Prop where
  weights : n ≤ m.weights.length
  cache : n ≤ m.cache.length

/-- Every device reports on all layers. -/
structure BackendMemory.Complete (memory : BackendMemory) : Prop where
  cpu : memory.cpu.Covers memory.cpu.weights.length
  gpus : ∀ gpu ∈ memory.gpus, gpu.Covers memory.cpu.weights.length

theorem unknownMemory_complete (totalLayers : Nat) : (unknownMemory totalLayers).Complete where
  cpu := ⟨le_rfl, by simp [unknownMemory]⟩
  gpus := List.forall_mem_nil _

theorem DeviceMemory.Covers.layer_ne_none {m : DeviceMemory} {n i : Nat} (h : m.Covers n) (hi : i < n) : m.layer i ≠ none := by
  simp [DeviceMemory.layer, List.getElem?_eq_getElem (hi.trans_le h.weights), List.getElem?_eq_getElem (hi.trans_le h.cache)]

theorem layerSizes_some {memory : BackendMemory} (h : memory.Complete) : ∃ layers, layerSizes memory = some layers := by
  rw [← Option.ne_none_iff_exists']
  intro hnone
  obtain ⟨i, hi, hsize⟩ := mapM_eq_none.mp hnone
  rw [List.mem_range] at hi
  unfold layerSize at hsize
  cases honGPUs : memory.gpus.mapM (·.layer i) with
  | none =>
    obtain ⟨gpu, hgpu, hnone⟩ := mapM_eq_none.mp honGPUs
    exact (h.gpus gpu hgpu).layer_ne_none hi hnone
  | some onGPUs =>
    obtain ⟨size, hcpu⟩ := Option.ne_none_iff_exists'.mp (h.cpu.layer_ne_none hi)
    simp [honGPUs, hcpu] at hsize

section
variable {requireFull : Bool} {requestedLayers : Int}

theorem findBestFitRounded_free (layers : List Nat) (gpus : List DeviceInfo) {forceRequest : Bool}
    (hfree : ¬ (0 ≤ requestedLayers ∧ forceRequest = true)) :
    ∃ fuel out, findBestFitRounded fuel layers gpus requestedLayers forceRequest = some out :=
  (findBestFitRoundedLoop_ends forceRequest (byPerformance_spec gpus).2 layers requestedLayers []).mpr fun h => absurd h hfree

variable (hfree : requestedLayers < 0 ∨ requireFull = true)
include hfree

theorem not_forced (last : Bool) : ¬ (0 ≤ requestedLayers ∧ (last && !requireFull) = true) := by
  rintro ⟨h0, hforce⟩
  rcases hfree with hneg | hfull
  · omega
  · simp [hfull] at hforce

theorem packLoopWith_free (layers : List Nat) (gpus : List DeviceInfo) (left i : Nat) (gpuLayers : GPULayersList) :
    ∃ fuel out, packLoopWith (findBestFitRounded fuel) layers gpus requireFull requestedLayers left i gpuLayers = some out := by
  induction left generalizing i gpuLayers with
  | zero => exact ⟨0, gpuLayers, rfl⟩
  | succ left ih =>
    obtain ⟨fuel, next, hnext⟩ := findBestFitRounded_free layers (gpus.take (i + 1)) (not_forced hfree (i + 1 = gpus.length))
    obtain ⟨fuel', out, hout⟩ := ih (i + 1) next
    by_cases hdone : next.sum = layers.length ∨ (next.sum : Int) = requestedLayers
    · refine ⟨fuel, next, ?_⟩
      simp only [packLoopWith, hnext, Option.bind_some, if_pos hdone]
    · refine ⟨max fuel fuel', out, ?_⟩
      simp only [packLoopWith, answers_more (le_max_left fuel fuel') _ _ _ _ _ hnext, Option.bind_some, if_neg hdone]
      exact packLoopWith_more (answers_more (le_max_right ..)) _ hout

theorem assignRoundWith_free (spread : Bool) (layers : List Nat) (gpus : List DeviceInfo) (lastUsedGPU : Nat)
    (gpuLayers : GPULayersList) : ∃ fuel out,
      assignRoundWith (findBestFitRounded fuel) spread layers gpus requireFull requestedLayers lastUsedGPU gpuLayers = some out := by
  unfold assignRoundWith
  split
  · have hforced := not_forced hfree true
    rw [Bool.true_and] at hforced
    exact findBestFitRounded_free layers gpus hforced
  · exact packLoopWith_free hfree ..

end

section
variable {requireFull : Bool} {numGPU : Int} (hfree : numGPU < 0 ∨ requireFull = true)
include hfree

theorem assignLayersRounded_free (spread : Bool) (layers : List Nat) (gpus : List DeviceInfo) (lastUsedGPU : Nat) :
    ∃ fuel out, assignLayersRounded fuel spread layers gpus requireFull numGPU lastUsedGPU = some out := by
  have hmin : ∀ n : Nat, min (n : Int) numGPU < 0 ∨ requireFull = true := fun n => hfree.imp_left (min_lt_of_right_lt ·)
  simp only [assignLayersRounded, assignLayersWith]
  generalize (if 0 ≤ numGPU ∨ spread = true then _ else _ : List DeviceInfo) = gpus
  obtain ⟨fuel, first, hfirst⟩ := assignRoundWith_free (hmin layers.length) spread layers gpus lastUsedGPU []
  by_cases hall : first.sum = layers.length
  · refine ⟨fuel, first, ?_⟩
    rw [hfirst, Option.bind_some, if_pos hall]
  · have hmin' : min (layers.dropLast.length : Int) (min (layers.length : Int) numGPU) < 0 ∨ requireFull = true :=
      (hmin layers.length).imp_left (min_lt_of_right_lt ·)
    obtain ⟨fuel', out, hout⟩ := assignRoundWith_free hmin' spread layers.dropLast gpus lastUsedGPU first
    refine ⟨max fuel fuel', out, ?_⟩
    rw [assignRoundWith_more (answers_more (le_max_left ..)) hfirst, Option.bind_some, if_neg hall]
    exact assignRoundWith_more (answers_more (le_max_right ..)) hout

theorem buildLoop_free (env : Environment) (memory : BackendMemory) (backoff : ℚ) (layers : List UInt64)
    (libraries : List (List DeviceInfo)) (gpuLayers : GPULayersList) :
    ∃ fuel out, buildLoop fuel env memory requireFull backoff numGPU layers libraries gpuLayers = some out := by
  induction libraries generalizing gpuLayers with
  | nil => exact ⟨0, gpuLayers, rfl⟩
  | cons gl rest ih =>
    obtain ⟨fuel, part, hpart⟩ := assignLayersRounded_free hfree env.schedSpread (layers.map UInt64.toNat)
      (gl.map (reserve env memory backoff)) (lastUsedGPU memory gl)
    obtain ⟨fuel', out, hout⟩ := ih (if gpuLayers.sum < part.sum then part else gpuLayers)
    refine ⟨max fuel fuel', out, ?_⟩
    simp only [buildLoop, Option.bind_eq_some_iff]
    exact ⟨part, assignLayersWith_more (answers_more (le_max_left ..)) hpart, buildLoop_more (le_max_right ..) hout⟩

/-- Unless a number of layers is forced, `createLayout` comes back with every complete report. -/
theorem createLayout_free (env : Environment) (totalLayers : Nat) (systemInfo : SystemInfo) (systemGPUs : List DeviceInfo)
    {memory : Option BackendMemory} (hmemory : (memory.getD (unknownMemory totalLayers)).Complete) (backoff : ℚ) :
    ∃ fuel out, createLayout fuel env totalLayers systemInfo systemGPUs memory requireFull backoff numGPU = some out := by
  obtain ⟨layers, hlayers⟩ := layerSizes_some hmemory
  obtain ⟨fuel, gpuLayers, hloop⟩ := buildLoop_free hfree env (memory.getD (unknownMemory totalLayers)) backoff layers
    (byLibrary (env.sorting.sort systemGPUs)) []
  refine ⟨fuel, Option.isSome_iff_exists.mp ?_⟩
  simp only [createLayout, buildLayout, hlayers, hloop, Option.bind_some, Option.map_some, Option.isSome_some]

end

end Xdragon.Llm
