import Mathlib.Data.List.AList
import Mathlib.Data.Int.Basic
import Xdragon.Lib.Hull

/-!
# The causal cache

`kvcache/causal.go`. A Go `int` that counts is a `Nat`, and an `int32` is an `Int`. A Go map is
an association list, and its `range` goes through the list: no result below depends on the order.
Positions and window sizes are not negative, so that no difference of two of them overflows.
The key and value tensors are `rows`: what `Put` stored at each location. The mask holds `true`
where the code writes minus infinity.
-/

open Xdragon.Lib

namespace Xdragon.Kvcache

/-- `math.MaxInt32`: no limit for a window, and the end of the sequence for `Remove`. -/
def maxInt32 : Int := 2147483647

/-- `math.MaxInt`. -/
def maxInt : Nat := 9223372036854775807

/-- Wraps around as `int32` does. -/
def toInt32 (x : Int) : Int := x.bmod 4294967296

inductive CacheError where
  /-- `ErrKvCacheFull`, with the sizes that `findLocs` adds to it. -/
  | kvCacheFull (sizes : Option (Nat × Nat))
  | notSupported
  | sharedCells
  /-- The error that the model's shift function returned for a layer. -/
  | shiftFailed (layer : Nat)
deriving DecidableEq

def CacheError.text : CacheError → String
  | .kvCacheFull none => "could not find a kv cache slot"
  | .kvCacheFull (some (cache, batch)) =>
    "could not find a kv cache slot (cache: " ++ toString cache ++ " batch: " ++ toString batch ++ ")"
  | .notSupported => "model does not support operation"
  | .sharedCells => "shifting cells shared by multiple sequences not supported"
  | .shiftFailed _ => ""

abbrev CellRange := Hull

def newRange : CellRange := ⟨maxInt, 0⟩

structure CacheCell where
  pos : Int
  sequences : List Int
deriving DecidableEq, Inhabited

/-- `Sequences[i]` and `Positions[i]` of an `input.Batch`. -/
structure Token where
  seq : Int
  pos : Int

structure CausalOptions where
  except : List Nat := []

structure LowestPosition where
  pos : Int
  curBatch : Bool

structure Causal (α : Type) where
  swaWindowSize : Int := 0
  swaMemorySize : Int := 0
  chunkSize : Int := 0
  opts : CausalOptions := {}
  maxBatch : Nat := 0
  /-- `config.CachePadding`. -/
  cachePadding : Nat := 0
  curBatch : List Token := []
  curLoc : List Nat := []
  curMask : List (List Bool) := []
  curCellRange : CellRange := ⟨0, 0⟩
  cells : List CacheCell := []
  cellRanges : AList (fun _ : Int => CellRange) := ∅
  /-- The model has a shift function. -/
  shiftFn : Bool
  /-- The layers that have keys. -/
  keys : List Nat := []
  rows : Nat → Option α := fun _ => none

namespace Causal

variable {α : Type}

/-! ## Construction -/

def newCausalCache (shift : Bool) : Causal α := { shiftFn := shift }

def newSWACache (windowSize : Int) (shift : Bool) : Causal α :=
  { swaWindowSize := windowSize, shiftFn := shift }

def newSWAMemCache (windowSize memorySize : Int) (shift : Bool) : Causal α :=
  { swaWindowSize := windowSize, swaMemorySize := memorySize, shiftFn := shift }

def newChunkedAttentionCache (chunkSize : Int) (shift : Bool) : Causal α :=
  { chunkSize := chunkSize, shiftFn := shift }

/-- Division of Go rounds towards zero. -/
def roundDown (length pad : Int) : Int := (length.tdiv pad) * pad

def roundUp (length pad : Int) : Int := ((length + pad - 1).tdiv pad) * pad

def initWindow (c : Causal α) : Int := if c.swaWindowSize = 0 then maxInt32 else c.swaWindowSize

/-- More sequences than one need an extra position, and memory for a whole context is no limit. -/
def initMemory (c : Causal α) (maxSequences capacity : Nat) : Int :=
  let memory := if c.swaMemorySize = 0 then c.initWindow else c.swaMemorySize
  let memory :=
    if memory ≠ maxInt32 ∧ 1 < maxSequences then max memory (toInt32 (c.initWindow + 1)) else memory
  if (capacity : Int) ≤ memory then maxInt32 else memory

def initSize (memory : Int) (maxSequences capacity maxBatch padding : Nat) : Int :=
  roundUp (if memory = maxInt32 then maxSequences * capacity else maxSequences * memory + maxBatch) padding

/-- `none` stands for a panic: the memory is smaller than the window, or a negative length. -/
def init (c : Causal α) (maxSequences capacity maxBatch : Nat) : Option (Causal α) :=
  let padding := if c.cachePadding = 0 then 1 else c.cachePadding
  let memory := c.initMemory maxSequences capacity
  let cacheSize := initSize memory maxSequences capacity maxBatch padding
  if memory < c.initWindow then none
  else if cacheSize < 0 then none
  else some { c with
    swaWindowSize := c.initWindow
    swaMemorySize := memory
    cachePadding := padding
    maxBatch := maxBatch
    cells := List.replicate cacheSize.toNat ⟨0, []⟩
    cellRanges := ∅ }

/-! ## The forward pass -/

@[grind =]
def findLocsLoop (curBatchSize : Nat) : List CacheCell → Nat → List Nat → Option (List Nat)
  | [], _, _ => none
  | cell :: rest, i, loc =>
    if cell.sequences = [] then
      if curBatchSize ≤ (loc ++ [i]).length then some (loc ++ [i])
      else findLocsLoop curBatchSize rest (i + 1) (loc ++ [i])
    else findLocsLoop curBatchSize rest (i + 1) loc

def findLocs (c : Causal α) : Option (List Nat) := findLocsLoop c.curBatch.length c.cells 0 []

/-- The lowest position of each sequence of the batch. -/
def noteLowest (m : AList (fun _ : Int => LowestPosition)) (t : Token) :
    AList (fun _ : Int => LowestPosition) :=
  match m.lookup t.seq with
  | none => m.insert t.seq ⟨t.pos, true⟩
  | some lowest => m.insert t.seq (if t.pos < lowest.pos then { lowest with pos := t.pos } else lowest)

/-- The last stored position of a sequence, 0 if there is none. -/
def lastPos (c : Causal α) (seq : Int) (seqRange : CellRange) : Int :=
  seqRange.indices.foldl (fun last i =>
    let cell := c.cells.getD i default
    if seq ∈ cell.sequences then max last cell.pos else last) 0

/-- Sequences outside the batch only keep what the next batch can need. -/
def noteIdle (c : Causal α) (m : AList (fun _ : Int => LowestPosition))
    (e : (_ : Int) × CellRange) : AList (fun _ : Int => LowestPosition) :=
  match m.lookup e.1 with
  | none => m.insert e.1 ⟨c.lastPos e.1 e.2 + 1, false⟩
  | some _ => m

/-- One cell of the eviction loop, with the new range of the sequence. -/
def slideCell (seq : Int) (lowest : LowestPosition) (st : Causal α × CellRange) (i : Nat) :
    Causal α × CellRange :=
  let c := st.1
  let cell := c.cells.getD i default
  if seq ∈ cell.sequences then
    let cur := if lowest.curBatch ∧ lowest.pos - c.swaWindowSize ≤ cell.pos
      then c.curCellRange.add i else c.curCellRange
    if cell.pos < lowest.pos - c.swaMemorySize then
      ({ c with cells := c.cells.set i { cell with sequences := cell.sequences.filter (· != seq) }
                curCellRange := cur }, st.2)
    else ({ c with curCellRange := cur }, st.2.add i)
  else st

def slide (c : Causal α) (e : (_ : Int) × LowestPosition) : Causal α :=
  match c.cellRanges.lookup e.1 with
  | none => c
  | some oldRange =>
    let st := oldRange.indices.foldl (slideCell e.1 e.2) (c, newRange)
    { st.1 with cellRanges := st.1.cellRanges.insert e.1 st.2 }

def joinRange (ranges : AList (fun _ : Int => CellRange)) (r : CellRange) (t : Token) : CellRange :=
  match ranges.lookup t.seq with
  | none => r
  | some seqRange => r.join seqRange

def lowestPos (c : Causal α) : AList (fun _ : Int => LowestPosition) :=
  c.cellRanges.entries.foldl c.noteIdle (c.curBatch.foldl noteLowest ∅)

def updateSlidingWindow (c : Causal α) : Causal α :=
  let c := { c with curCellRange := newRange }
  if c.swaMemorySize = maxInt32 then
    { c with curCellRange := c.curBatch.foldl (joinRange c.cellRanges) c.curCellRange }
  else c.lowestPos.entries.foldl slide c

/-- The entry of row `i` (token `t`) at location `j`. -/
def masked (c : Causal α) (i : Nat) (t : Token) (j : Nat) : Bool :=
  let cell := c.cells.getD j default
  let enabled := !c.opts.except.contains i
  !cell.sequences.contains t.seq || (enabled && t.pos < cell.pos) ||
    (0 < c.chunkSize && cell.pos < t.pos - t.pos.tmod c.chunkSize) || cell.pos < t.pos - c.swaWindowSize

def buildMask (c : Causal α) : Causal α :=
  let range : CellRange := ⟨(roundDown c.curCellRange.min c.cachePadding).toNat,
    (roundUp (c.curCellRange.max + 1) c.cachePadding - 1).toNat⟩
  { c with
    curCellRange := range
    curMask := c.curBatch.mapIdx fun i t => range.indices.map (c.masked i t) }

def storeToken (c : Causal α) (e : Token × Nat) : Causal α :=
  let seqRange := (c.cellRanges.lookup e.1.seq).getD newRange
  { c with
    cells := c.cells.set e.2 ⟨e.1.pos, [e.1.seq]⟩
    curCellRange := c.curCellRange.add e.2
    cellRanges := c.cellRanges.insert e.1.seq (seqRange.add e.2) }

def startForward (c : Causal α) (batch : List Token) (reserve : Bool) : Causal α × Option CacheError :=
  let c := { c with curBatch := batch, opts := {} }
  if reserve then
    ({ c with curCellRange := ⟨0, c.cells.length - 1⟩, curLoc := List.range batch.length }.buildMask, none)
  else
    let c := c.updateSlidingWindow
    match c.findLocs with
    | none => (c, some (.kvCacheFull (some (c.cells.length, batch.length))))
    | some locs =>
      let c := (batch.zip locs).foldl storeToken c
      ({ c with curLoc := locs }.buildMask, none)

def setCausal (c : Causal α) (opts : CausalOptions) : Causal α :=
  if c.opts.except = opts.except then c else { c with opts := opts }.buildMask

def putRow (rows : Nat → Option α) (e : Nat × α) : Nat → Option α := Function.update rows e.1 (some e.2)

/-- `Put`: the rows of the batch go to the locations that `StartForward` found. -/
def put (c : Causal α) (xs : List α) : Causal α := { c with rows := (c.curLoc.zip xs).foldl putRow c.rows }

/-! ## Copies and removals -/

@[grind =]
def copyLoop (srcSeq dstSeq len : Int) : List CacheCell → Nat → CellRange → List CacheCell × CellRange
  | [], _, r => ([], r)
  | cell :: rest, i, r =>
    let sequences := cell.sequences.filter (· != dstSeq)
    if srcSeq ∈ sequences ∧ cell.pos < len then
      let out := copyLoop srcSeq dstSeq len rest (i + 1) (r.add i)
      ({ cell with sequences := sequences ++ [dstSeq] } :: out.1, out.2)
    else
      let out := copyLoop srcSeq dstSeq len rest (i + 1) r
      ({ cell with sequences := sequences } :: out.1, out.2)

def copyPrefix (c : Causal α) (srcSeq dstSeq len : Int) : Causal α :=
  let out := copyLoop srcSeq dstSeq len c.cells 0 newRange
  { c with cells := out.1, cellRanges := c.cellRanges.insert dstSeq out.2 }

def canResume (c : Causal α) (seq pos : Int) : Bool :=
  if c.swaMemorySize = maxInt32 then true
  else match c.cellRanges.lookup seq with
    | none => false
    | some seqRange =>
      let ends := seqRange.indices.foldl (fun ends i =>
        let cell := c.cells.getD i default
        if seq ∈ cell.sequences then (min ends.1 cell.pos, max ends.2 cell.pos) else ends) (maxInt32, -1)
      if ends.2 = -1 then false
      else ends.1 ≤ max 0 (pos - c.swaWindowSize) && pos ≤ ends.2 + 1

/-- The first and the last index of a chunk that has a cell to shift. -/
def shiftEnds (c : Causal α) (seq beginIndex : Int) (start size : Nat) : Option (Nat × Nat) :=
  (List.range size).foldl (fun ends i =>
    let cell := c.cells.getD (start + i) default
    if seq ∈ cell.sequences ∧ beginIndex ≤ cell.pos then some ((ends.map (·.1)).getD i, i) else ends) none

/-- `fails layer first size` says that the shift function rejects these keys of the layer.
A `maxBatch` of 0 would loop for ever: here the fuel ends it. -/
@[grind =]
def shiftLoop (c : Causal α) (seq beginIndex : Int) (seqMax : Nat) (fails : Nat → Nat → Nat → Bool) :
    Nat → Nat → Option CacheError
  | 0, _ => none
  | fuel + 1, start =>
    if seqMax < start then none
    else
      let size := min (seqMax - start + 1) c.maxBatch
      match c.shiftEnds seq beginIndex start size with
      | none => c.shiftLoop seq beginIndex seqMax fails fuel (start + c.maxBatch)
      | some (batchFirst, batchLast) =>
        match c.keys.find? fun layer => fails layer (start + batchFirst) (batchLast + 1 - batchFirst) with
        | some layer => some (.shiftFailed layer)
        | none => c.shiftLoop seq beginIndex seqMax fails fuel (start + c.maxBatch)

/-- Rotates the stored keys. It moves no row, so that only its error is left here. -/
def shift (c : Causal α) (seq beginIndex : Int) (fails : Nat → Nat → Nat → Bool) : Option CacheError :=
  if c.shiftFn then
    let seqRange := (c.cellRanges.lookup seq).getD ⟨0, 0⟩
    c.shiftLoop seq beginIndex seqRange.max fails (seqRange.max + 1 - seqRange.min) seqRange.min
  else some .notSupported

/-- The loop of `Remove`. The flag says that it met a shared cell that it would have to shift. -/
@[grind =]
def removeLoop (seq beginIndex endIndex offset : Int) :
    List CacheCell → Nat → CellRange → List CacheCell × CellRange × Bool
  | [], _, r => ([], r, false)
  | cell :: rest, i, r =>
    if seq ∈ cell.sequences then
      if beginIndex ≤ cell.pos ∧ cell.pos < endIndex then
        let out := removeLoop seq beginIndex endIndex offset rest (i + 1) r
        ({ cell with sequences := cell.sequences.filter (· != seq) } :: out.1, out.2)
      else if endIndex ≤ cell.pos then
        if cell.sequences.any (· != seq) then (cell :: rest, r, true)
        else
          let out := removeLoop seq beginIndex endIndex offset rest (i + 1) (r.add i)
          ({ cell with pos := cell.pos + offset } :: out.1, out.2)
      else
        let out := removeLoop seq beginIndex endIndex offset rest (i + 1) (r.add i)
        (cell :: out.1, out.2)
    else
      let out := removeLoop seq beginIndex endIndex offset rest (i + 1) r
      (cell :: out.1, out.2)

/-- How far the positions after the removed ones move. -/
def removeOffset (beginIndex endIndex : Int) : Int :=
  if endIndex ≠ maxInt32 then beginIndex - endIndex else 0

def remove (c : Causal α) (seq beginIndex endIndex : Int) (fails : Nat → Nat → Nat → Bool) :
    Causal α × Option CacheError :=
  let offset := removeOffset beginIndex endIndex
  let out := removeLoop seq beginIndex endIndex offset c.cells 0 newRange
  let c := { c with cells := out.1 }
  if out.2.2 then (c, some .sharedCells)
  else if out.2.1 = newRange then ({ c with cellRanges := c.cellRanges.erase seq }, none)
  else
    let c := { c with cellRanges := c.cellRanges.insert seq out.2.1 }
    if endIndex ≠ maxInt32 then (c, c.shift seq (endIndex + offset) fails) else (c, none)

end Causal

end Xdragon.Kvcache
