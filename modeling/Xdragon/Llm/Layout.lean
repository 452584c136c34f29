import Xdragon.Lib.Float32

/-!
# The layout of a model on GPUs

`assignLayers`, `findBestFit` and `greedyFit` of `llm/server.go`. A size is a `Nat`. A capacity is a
`float32`, whose sums, halves and differences are rounded, but what it leaves of the free memory is
exact. The bisection has fuel, and `none` says that it ran out.
-/

open Xdragon.Lib

namespace Xdragon.Llm

structure DeviceID where
  id : String
  library : String
deriving DecidableEq

structure DeviceInfo where
  deviceID : DeviceID
  freeMemory : Nat
  integrated : Bool := false

/-- The layers of a GPU. -/
structure GPULayers where
  deviceID : DeviceID
  layers : List Nat := []

abbrev GPULayersList := List GPULayers

namespace GPULayersList

/-- `Sum`: how many layers there are. -/
def sum (l : GPULayersList) : Nat := (l.map (·.layers.length)).sum

/-- `gpuLayers[0].Layers = append([]int{i}, gpuLayers[0].Layers...)`. -/
def prepend (i : Nat) : GPULayersList → GPULayersList
  | [] => []
  | gl :: rest => { gl with layers := i :: gl.layers } :: rest

end GPULayersList

/-- `uint64(float32(FreeMemory) * capacity)`, with an exact product. -/
def freeSpace (gpu : DeviceInfo) (capacity : ℚ) : Nat := ⌊gpu.freeMemory * capacity⌋.toNat

/-- The inner loop of `greedyFit`: layer `i` goes to the first of the devices that has room. What is
left is the space on that device and the devices behind it, and nothing if there is none. -/
def fitLayer (size i : Nat) (capacity : ℚ) :
    List DeviceInfo → GPULayersList → Nat → GPULayersList × Option (Nat × List DeviceInfo)
  | [], gpuLayers, free =>
    if size ≤ free then (gpuLayers.prepend i, some (free - size, [])) else (gpuLayers, none)
  | gpu :: devices, gpuLayers, free =>
    if size ≤ free then (gpuLayers.prepend i, some (free - size, gpu :: devices))
    else fitLayer size i capacity devices (⟨gpu.deviceID, []⟩ :: gpuLayers) (freeSpace gpu capacity)

/-- The outer loop of `greedyFit`, over the `total` layers from the last one on. -/
def greedyFitLoop (capacity : ℚ) (requestedLayers : Int) (total : Nat) :
    List Nat → List DeviceInfo → GPULayersList → Nat → GPULayersList
  | [], _, gpuLayers, _ => gpuLayers
  | size :: rest, devices, gpuLayers, free =>
    -- The index of the layer is the number of those before it.
    if 0 ≤ requestedLayers ∧ requestedLayers ≤ (total - 1 - rest.length : Nat) then gpuLayers
    else match fitLayer size rest.length capacity devices gpuLayers free with
      | (gpuLayers, none) => gpuLayers
      | (gpuLayers, some (free, devices)) =>
        greedyFitLoop capacity requestedLayers total rest devices gpuLayers free

/-- Spills over to the GPU before as each runs out of free space, from the last one on. -/
def greedyFit (layers : List Nat) (gpus : List DeviceInfo) (capacity : ℚ) (requestedLayers : Int) :
    GPULayersList :=
  match gpus.reverse with
  | [] => []
  | gpu :: devices =>
    greedyFitLoop capacity requestedLayers layers.length layers.reverse devices [⟨gpu.deviceID, []⟩]
      (freeSpace gpu capacity)

/-! ## The smallest capacity -/

/-- `ByPerformance`: the devices that are integrated and those that are not, in order of appearance. -/
def addByPerformance (info : DeviceInfo) : List (Bool × List DeviceInfo) → List (Bool × List DeviceInfo)
  | [] => [(info.integrated, [info])]
  | (score, devices) :: rest =>
    if score = info.integrated then (score, devices ++ [info]) :: rest
    else (score, devices) :: addByPerformance info rest

def byPerformance (l : List DeviceInfo) : List (List DeviceInfo) :=
  (l.foldl (fun resp info => addByPerformance info resp) []).map (·.2)

/-- The bisection of `findBestFit`. `fit` gives the assignments at a capacity. -/
def bisect (fit : ℚ → GPULayersList) (maxNumGPU : Nat) : Nat → ℚ → ℚ → GPULayersList → Option GPULayersList
  | 0, _, _, _ => none
  | fuel + 1, low, high, bestAssignments =>
    if float32 (1 / 1000000) < float32 (high - low) then
      let mid := middle low high
      let assignments := fit mid
      if assignments.sum = maxNumGPU then bisect fit maxNumGPU fuel low mid assignments
      else bisect fit maxNumGPU fuel mid high bestAssignments
    else some bestAssignments

/-- The highest capacity: almost infinite if the requested number has to be met. -/
def highest (requestedLayers : Int) (forceRequest : Bool) : ℚ :=
  if 0 ≤ requestedLayers ∧ forceRequest then 1000 else 1

/-- The best assignments of one class of GPUs. -/
def bestFit (fuel : Nat) (layers : List Nat) (gl : List DeviceInfo) (requestedLayers : Int)
    (forceRequest : Bool) : Option GPULayersList :=
  let high := highest requestedLayers forceRequest
  let bestAssignments := greedyFit layers gl high requestedLayers
  bisect (fun capacity => greedyFit layers gl capacity requestedLayers) bestAssignments.sum fuel 0 high
    bestAssignments

def findBestFitLoop (fuel : Nat) (forceRequest : Bool) :
    List (List DeviceInfo) → List Nat → Int → GPULayersList → Option GPULayersList
  | [], _, _, gpuLayers => some gpuLayers
  | gl :: rest, layers, requestedLayers, gpuLayers =>
    (bestFit fuel layers gl requestedLayers forceRequest).bind fun bestAssignments =>
      findBestFitLoop fuel forceRequest rest (layers.take (layers.length - bestAssignments.sum))
        (requestedLayers - bestAssignments.sum) (bestAssignments ++ gpuLayers)

def findBestFit (fuel : Nat) (layers : List Nat) (gpus : List DeviceInfo) (requestedLayers : Int)
    (forceRequest : Bool) : Option GPULayersList :=
  findBestFitLoop fuel forceRequest (byPerformance gpus) layers requestedLayers []

/-! ## The assignment -/

/-- The loop over the numbers of GPUs, `left` of them from `i` on. -/
def packLoop (fuel : Nat) (layers : List Nat) (gpus : List DeviceInfo) (requireFull : Bool)
    (requestedLayers : Int) : Nat → Nat → GPULayersList → Option GPULayersList
  | 0, _, gpuLayers => some gpuLayers
  | left + 1, i, _ =>
    let forceRequest := i + 1 = gpus.length && !requireFull
    (findBestFit fuel layers (gpus.take (i + 1)) requestedLayers forceRequest).bind fun gpuLayers =>
      if gpuLayers.sum = layers.length ∨ (gpuLayers.sum : Int) = requestedLayers then some gpuLayers
      else packLoop fuel layers gpus requireFull requestedLayers left (i + 1) gpuLayers

/-- One of the two rounds of `assignLayers`. -/
def assignRound (fuel : Nat) (spread : Bool) (layers : List Nat) (gpus : List DeviceInfo) (requireFull : Bool)
    (requestedLayers : Int) (lastUsedGPU : Nat) (gpuLayers : GPULayersList) : Option GPULayersList :=
  if spread then findBestFit fuel layers gpus requestedLayers (!requireFull)
  else packLoop fuel layers gpus requireFull requestedLayers (gpus.length - lastUsedGPU) lastUsedGPU gpuLayers

def assignLayers (fuel : Nat) (spread : Bool) (layers : List Nat) (gpus : List DeviceInfo) (requireFull : Bool)
    (requestedLayers : Int) (lastUsedGPU : Nat) : Option GPULayersList :=
  let gpus := if 0 ≤ requestedLayers ∨ spread then gpus.map fun gpu => { gpu with integrated := false } else gpus
  let requestedLayers := min (layers.length : Int) requestedLayers
  (assignRound fuel spread layers gpus requireFull requestedLayers lastUsedGPU []).bind fun gpuLayers =>
    if gpuLayers.sum = layers.length then some gpuLayers
    else
      -- All did not fit: the output layer stays out.
      let layers := layers.dropLast
      assignRound fuel spread layers gpus requireFull (min (layers.length : Int) requestedLayers) lastUsedGPU gpuLayers

end Xdragon.Llm
