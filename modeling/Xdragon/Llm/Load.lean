import Xdragon.Lib.Fuelled
import Xdragon.Llm.Create

/-!
# Finding a layout together with the runner

`ollamaServer.Load` of `llm/server.go`. The runner is asked to load a layout and reports the memory that it takes, and from the
report comes the next layout. The replies are given one after another, whatever the requests are.
-/

open Xdragon.Lib

namespace Xdragon.Llm

/-- What is written to the hash, on a machine with the lowest byte first. -/
def GPULayersList.written (l : GPULayersList) : Bytes :=
  l.flatMap fun g =>
    if g.layers = [] then []
    else (g.deviceID.id ++ g.deviceID.library).toUTF8.toList ++ g.layers.flatMap (toLittle 8)

/-- `uniqueDeviceIDs`. -/
def uniqueDeviceIDs (gpuLayers : GPULayersList) : List DeviceID :=
  gpuLayers.foldl (fun devices layer => if layer.deviceID ∈ devices then devices else devices ++ [layer.deviceID]) []

inductive LoadOperation where
  | fit
  | alloc
  | commit
  | close

structure LoadRequest where
  operation : LoadOperation
  gpuLayers : GPULayersList

structure LoadResponse where
  success : Bool
  memory : BackendMemory

/-- The other side: whether it comes up at all, and what each `initModel` gets from it. -/
structure Runner where
  launched : Except String Unit
  reply : Nat → Except String LoadResponse

/-- The server's fields that change, the variables of `Load`, and the requests sent. -/
structure LoadState where
  calls : List LoadRequest := []
  mem : Option BackendMemory
  numGPU : Int
  gpuLayers : GPULayersList := []
  /-- The hashes of the layouts that were tried. -/
  pastAllocations : Finset UInt64 := ∅
  backoff : ℚ := 0

/-- What `Load` is called on. -/
structure Loader where
  env : Environment
  runner : Runner
  totalLayers : Nat
  systemInfo : SystemInfo
  gpus : List DeviceInfo
  requireFull : Bool

/-- Where a round of the inner loop goes on. -/
inductive Label where
  | nextLoad
  | nextOperation

/-- `backoff += 0.1`. -/
def moreBackoff (backoff : ℚ) : ℚ := float32 (backoff + float32 (1 / 10))

namespace Loader

variable (l : Loader)

/-- `Hash`. -/
def hash (gpuLayers : GPULayersList) : UInt64 := l.env.sum64 gpuLayers.written

def initModel (operation : LoadOperation) (gpuLayers : GPULayersList) : Fuelled LoadError LoadState LoadResponse := do
  let s ← Fuelled.get
  Fuelled.modify fun s => { s with calls := s.calls ++ [⟨operation, gpuLayers⟩] }
  Fuelled.ofExcept ((l.runner.reply s.calls.length).mapError LoadError.runner)

/-- `createLayout` with the options as they are. -/
def tryLayout (memory : Option BackendMemory) : Fuelled LoadError LoadState (Except LoadError GPULayersList) := fun fuel s =>
  (Llm.createLayout fuel l.env l.totalLayers l.systemInfo l.gpus memory l.requireFull s.backoff s.numGPU).map
    fun (created, numGPU) => (.ok created, { s with numGPU })

def createLayout (memory : Option BackendMemory) : Fuelled LoadError LoadState GPULayersList := do
  let created ← l.tryLayout memory
  Fuelled.ofExcept created

/-- Tries the numbers of layers between the last layout and a larger one, `left` of them. The last reply comes back, or `none` if a
layout held up. -/
def explore (operation : LoadOperation) : Nat → LoadResponse → Fuelled LoadError LoadState (Option LoadResponse)
  | 0, resp => pure (some resp)
  | left + 1, _ => do
    let s ← Fuelled.get
    Fuelled.modify fun s => { s with numGPU := s.gpuLayers.sum + left }
    let created ← l.tryLayout s.mem
    Fuelled.modify fun s => { s with numGPU := -1 }
    let newGPULayers ← Fuelled.ofExcept created
    let resp ← l.initModel operation newGPULayers
    if resp.success then
      let verifyGPULayers ← l.createLayout (some resp.memory)
      if newGPULayers.sum ≤ verifyGPULayers.sum then
        Fuelled.modify fun s => { s with gpuLayers := newGPULayers, pastAllocations := ∅ }
        return none
      else explore operation left resp
    else explore operation left resp

/-- The end of a round of the inner loop: the layout that is there has to do, or the GPUs have less memory than they say. -/
def giveWay (resp : LoadResponse) : Fuelled LoadError LoadState (LoadResponse ⊕ Label) := do
  if resp.success then return .inr .nextOperation
  else
    let s ← Fuelled.get
    if 0 ≤ s.numGPU then Fuelled.fail (.withNumGPU s.numGPU)
    else if 1 < s.backoff then Fuelled.fail .notAllocated
    else
      Fuelled.modify fun s => { s with backoff := moreBackoff s.backoff }
      return .inl resp

/-- A round of the inner loop, with the last reply. -/
def settle (operation : LoadOperation) (resp : LoadResponse) : Fuelled LoadError LoadState (LoadResponse ⊕ Label) := do
  let s ← Fuelled.get
  let newGPULayers ← l.createLayout s.mem
  let s ← Fuelled.get
  if l.hash newGPULayers ∉ s.pastAllocations ∧ newGPULayers.sum ≤ s.gpuLayers.sum then
    Fuelled.modify fun s => { s with gpuLayers := newGPULayers }
    return .inr .nextLoad
  else
    let more := newGPULayers.sum - s.gpuLayers.sum
    let explored ← l.explore operation (if s.numGPU < 0 ∧ 1 < more then more else 0) resp
    match explored with
    | none => return .inr .nextOperation
    | some resp => giveWay resp

/-- A round of the loop at `nextLoad`. -/
def tryLoad (operation : LoadOperation) : Fuelled LoadError LoadState (Unit ⊕ Unit) := do
  let s ← Fuelled.get
  let resp ← l.initModel operation s.gpuLayers
  Fuelled.modify fun s =>
    { s with pastAllocations := insert (l.hash s.gpuLayers) s.pastAllocations, mem := some resp.memory }
  let label ← Fuelled.loop (l.settle operation) resp
  match label with
  | .nextLoad => return .inl ()
  | .nextOperation => return .inr ()

def loadAt (operation : LoadOperation) : Fuelled LoadError LoadState Unit := Fuelled.loop (fun _ => l.tryLoad operation) ()

def body : Fuelled LoadError LoadState (List DeviceID) := do
  let s ← Fuelled.get
  let gpuLayers ← l.createLayout s.mem
  Fuelled.modify fun s => { s with gpuLayers }
  -- `waitUntilRunnerLaunched`
  Fuelled.ofExcept (l.runner.launched.mapError LoadError.runner)
  l.loadAt .fit
  l.loadAt .alloc
  let s ← Fuelled.get
  let resp ← l.initModel .commit s.gpuLayers
  Fuelled.modify fun s => { s with mem := some resp.memory }
  if resp.success then return uniqueDeviceIDs s.gpuLayers else Fuelled.fail .notCommitted

/-- The deferred function of `Load`: without success the model is closed. -/
def deferred : Except LoadError (List DeviceID) × LoadState → Except LoadError (List DeviceID) × LoadState
  | (.ok ids, s) => (.ok ids, s)
  | (.error e, s) => (.error e, { s with calls := s.calls ++ [⟨.close, []⟩] })

def load (fuel : Nat) (s : LoadState) : Option (Except LoadError (List DeviceID) × LoadState) :=
  (l.body fuel s).map deferred

end Loader

end Xdragon.Llm
