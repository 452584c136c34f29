import Xdragon.Kvcache.Causal

/-!
# The input cache of the runner

`runner/ollamarunner/cache.go` for a model with a causal cache. A pointer to a slot is its index. An `int32`
that counts inputs is an `Int`. `none` stands for a panic. The time is a parameter, and so is what the model's
shift function rejects.
-/

namespace Xdragon.Runner

open Xdragon.Kvcache

/-- `input.Input`. The tensors of an image are known by their hash. -/
structure Input where
  token : Int
  multimodalHash : Nat := 0
  sameBatch : Nat := 0
deriving DecidableEq, Inhabited

structure InputCacheSlot where
  id : Nat
  inputs : List Input := []
  inUse : Bool := false
  lastUsed : Int := 0
deriving Inhabited

structure InputCache where
  numCtx : Int
  slots : List InputCacheSlot
  multiUserCache : Bool
  cache : Causal Input

inductive InputCacheError where
  | kvSize (kvSize batchSize numSlots : Nat)
  | noSlots
  | keepExceeds (keep context : Int)
  /-- `ErrReprocessInputs`. -/
  | reprocess (inputs : List Input)
  /-- An error of the causal cache. -/
  | cache (err : CacheError)

def InputCacheError.text : InputCacheError → String
  | .kvSize kv batch parallel =>
    "kv size must be at least as large as batch size * parallel (kv: " ++ toString kv ++ " batch: " ++
      toString batch ++ " parallel: " ++ toString parallel ++ ")"
  | .noSlots => "no available cache slots"
  | .keepExceeds keep context =>
    "unable to shift context - keep exceeds context (keep: " ++ toString keep ++ " context: " ++
      toString context ++ ")"
  | .reprocess inputs =>
    "kv cache shift not supported, inputs need reprocessing (input count: " ++ toString inputs.length ++ ")"
  | .cache err => err.text

def newInputCache (cache : Causal Input) (kvSize numSlots batchSize : Nat) (multiUserCache : Bool) :
    Option (Except InputCacheError InputCache) :=
  if numSlots = 0 then none
  else
    let numCtx := kvSize / numSlots
    if numCtx < batchSize then some (.error (.kvSize kvSize batchSize numSlots))
    else (cache.init numSlots numCtx batchSize).map fun cache => .ok
      { numCtx := numCtx
        slots := (List.range numSlots).map fun i => { id := i }
        multiUserCache := multiUserCache
        cache := cache }

def countCommonPrefix : List Input → List Input → Nat
  | x :: a, y :: b =>
    if x.token ≠ y.token ∨ x.multimodalHash ≠ y.multimodalHash then 0 else countCommonPrefix a b + 1
  | _, _ => 0

namespace InputCache

/-! ## Finding a slot -/

/-- The loop of `findLongestCacheSlot`. -/
def longer (prompt : List Input) (best : Int × Option Nat) (e : InputCacheSlot × Nat) : Int × Option Nat :=
  if e.1.inUse then best
  else
    let count : Int := countCommonPrefix e.1.inputs prompt
    if best.1 < count then (count, some e.2) else best

def findLongestCacheSlot (c : InputCache) (prompt : List Input) : Except InputCacheError (Nat × Int) :=
  match c.slots.zipIdx.foldl (longer prompt) (-1, none) with
  | (_, none) => .error .noSlots
  | (longest, some longestSlot) => .ok (longestSlot, longest)

/-- The local variables of `findBestCacheSlot`. -/
structure BestSlot where
  oldest : Int
  oldestSlot : Option Nat := none
  longest : Int := -1
  longestSlot : Option Nat := none

/-- The loop of `findBestCacheSlot`. -/
def better (prompt : List Input) (best : BestSlot) (e : InputCacheSlot × Nat) : BestSlot :=
  let count : Int := countCommonPrefix e.1.inputs prompt
  let best := if best.longest < count then { best with longest := count, longestSlot := some e.2 } else best
  if e.1.lastUsed < best.oldest ∧ ¬ e.1.inUse then { best with oldest := e.1.lastUsed, oldestSlot := some e.2 }
  else best

/-- The prefix goes to another slot. -/
def fork (c : InputCache) (longestSlot oldestSlot : Nat) (src dst : InputCacheSlot) (longest : Int) : InputCache :=
  if 0 < longest ∧ longestSlot ≠ oldestSlot then
    { c with
      slots := c.slots.set oldestSlot { dst with inputs := src.inputs.take longest.toNat }
      cache := c.cache.copyPrefix src.id dst.id longest }
  else c

def findBestCacheSlot (c : InputCache) (prompt : List Input) (now : Int) :
    Option (InputCache × Except InputCacheError (Nat × Int)) :=
  let best := c.slots.zipIdx.foldl (better prompt) { oldest := now }
  match best.longestSlot.bind fun i => (c.slots[i]?).map fun slot => (i, slot) with
  | none => none
  | some (longestSlot, src) =>
    if best.longest = src.inputs.length ∧ ¬ src.inUse then some (c, .ok (longestSlot, best.longest))
    else match best.oldestSlot.bind fun i => (c.slots[i]?).map fun slot => (i, slot) with
      | none => none
      | some (oldestSlot, dst) =>
        if dst.inUse then some (c, .error .noSlots)
        else some (c.fork longestSlot oldestSlot src dst best.longest, .ok (oldestSlot, best.longest))

/-- The slot, and how much of it goes with the prompt. -/
def findCacheSlot (c : InputCache) (prompt : List Input) (now : Int) :
    Option (InputCache × Except InputCacheError (Nat × Int)) :=
  if c.multiUserCache then c.findBestCacheSlot prompt now else some (c, c.findLongestCacheSlot prompt)

/-- The end of `LoadCacheSlot`: the slot keeps the first inputs of the prompt, the others are left. -/
def splitPrompt (c : InputCache) (i : Nat) (prompt : List Input) (numPast : Int) :
    Option (InputCache × Except InputCacheError (Nat × List Input)) :=
  if numPast < 0 ∨ prompt.length < numPast then none
  else some ({ c with slots := c.slots.modify i fun slot => { slot with inputs := prompt.take numPast.toNat } },
    .ok (i, prompt.drop numPast.toNat))

/-- Drops what the slot has after the part of the prompt that it can use. -/
def trimSlot (c : InputCache) (i : Nat) (slot : InputCacheSlot) (prompt : List Input) (numPast : Int)
    (fails : Nat → Nat → Nat → Bool) : Option (InputCache × Except InputCacheError (Nat × List Input)) :=
  let numPast := if 0 < numPast ∧ ¬ c.cache.canResume slot.id numPast then 0 else numPast
  match c.cache.remove slot.id numPast maxInt32 fails with
  | (cache, none) => { c with cache := cache }.splitPrompt i prompt numPast
  | (cache, some _) =>
    -- Some models don't support partial erasure.
    match cache.remove slot.id 0 maxInt32 fails with
    | (cache, some err) => some ({ c with cache := cache }, .error (.cache err))
    | (cache, none) => { c with cache := cache }.splitPrompt i prompt 0

/-- `now` is the time when the search starts, and `used` when the slot is taken. -/
def loadCacheSlot (c : InputCache) (prompt : List Input) (cachePrompt : Bool) (now used : Int)
    (fails : Nat → Nat → Nat → Bool) : Option (InputCache × Except InputCacheError (Nat × List Input)) :=
  match c.findCacheSlot prompt now with
  | none => none
  | some (c, .error err) => some (c, .error err)
  | some (c, .ok (i, numPast)) =>
    let numPast := if cachePrompt then numPast else 0
    -- Leave one input to sample so we can get a response.
    let numPast := if numPast = prompt.length then numPast - 1 else numPast
    match c.slots[i]? with
    | none => none
    | some slot =>
      { c with slots := c.slots.set i { slot with inUse := true, lastUsed := used } }.trimSlot i slot prompt
        numPast fails

/-! ## Shifting -/

/-- The loop of `ShiftDiscard`. -/
def discardLoop (targetFree : Int) : List Input → Int → Int → Int → Int
  | [], _, _, discard => discard
  | x :: rest, sameBatch, currentFree, discard =>
    if sameBatch ≤ 0 ∧ targetFree ≤ currentFree then discard
    else discardLoop targetFree rest (if 0 < x.sameBatch then x.sameBatch else sameBatch - 1) (currentFree + 1)
      (discard + 1)

/-- How many inputs after the first `numKeep` are dropped. -/
def shiftDiscard (c : InputCache) (inputs : List Input) (numKeep : Int) : Option Int :=
  if numKeep < 0 ∨ inputs.length < numKeep then none
  else some (discardLoop (max ((c.numCtx - numKeep).tdiv 2) 1) (inputs.drop numKeep.toNat) 0
    (c.numCtx - inputs.length) 0)

/-- The inputs without those that are dropped. -/
def withoutDiscarded (inputs : List Input) (numKeep discard : Int) : List Input :=
  inputs.take numKeep.toNat ++ inputs.drop (numKeep + discard).toNat

def shiftCacheSlot (c : InputCache) (i : Nat) (numKeep : Int) (fails : Nat → Nat → Nat → Bool) :
    Option (InputCache × Option InputCacheError) :=
  if c.numCtx ≤ numKeep then some (c, some (.keepExceeds numKeep c.numCtx))
  else match c.slots[i]? with
    | none => none
    | some slot => match c.shiftDiscard slot.inputs numKeep with
      | none => none
      | some discard =>
        if discard ≤ 0 then some (c, none)
        else
          let newInputs := withoutDiscarded slot.inputs numKeep discard
          match c.cache.remove slot.id numKeep (numKeep + discard) fails with
          | (cache, some _) => some ({ c with
              cache := (cache.remove slot.id 0 maxInt32 fails).1
              slots := c.slots.set i { slot with inputs := [] } }, some (.reprocess newInputs))
          | (cache, none) => some ({ c with
              cache := cache
              slots := c.slots.set i { slot with inputs := newInputs } }, none)

end InputCache

end Xdragon.Runner
