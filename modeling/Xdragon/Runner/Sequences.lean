import Xdragon.Runner.InputCache

/-!
# Sequences of the runner

The parts of `runner/ollamarunner/runner.go` that change the input cache or the causal cache. Everything here
runs under the lock of the server, so that each function is one step. A `Sequence` pointer is a number that
no other sequence has. The token of a generated input is filled in before the input is committed, so that
inputs do not change here.
-/

namespace Xdragon.Runner

open Xdragon.Kvcache

structure Sequence where
  ref : Nat
  /-- The index of its slot. -/
  cache : Nat
  pendingInputs : List Input := []

structure Server where
  cache : InputCache
  seqs : List (Option Sequence)
  /-- The next `Sequence` pointer. -/
  nextRef : Nat := 0
  /-- `seqs` of each batch that waits for `computeBatch`. -/
  batches : List (List (Option Nat)) := []

namespace Server

/-- The part of `completion` that gives a new sequence its slot. -/
def addSequence (s : Server) (prompt : List Input) (cachePrompt : Bool) (now used : Int)
    (fails : Nat → Nat → Nat → Bool) : Option Server :=
  match s.seqs.findIdx? (·.isNone) with
  | none => some s
  | some seqIdx => match s.cache.loadCacheSlot prompt cachePrompt now used fails with
    | none => none
    | some (cache, .error _) => some { s with cache := cache }
    | some (cache, .ok (i, _)) => some { s with
        cache := cache
        seqs := s.seqs.set seqIdx (some { ref := s.nextRef, cache := i })
        nextRef := s.nextRef + 1 }

def sequence (s : Server) (seqIdx : Nat) : Option Sequence := (s.seqs[seqIdx]?).join

def slot (s : Server) (i : Nat) : InputCacheSlot := s.cache.slots.getD i default

/-- The inputs of one sequence for the batch, with their positions. `forwardBatch` shifts or stops before a
sequence is longer than the context. -/
def addInputs (s : Server) (seqIdx : Nat) (seq : Sequence) (inputs : List Input) :
    Option (Server × List Token) :=
  let start := (s.slot seq.cache).inputs.length + seq.pendingInputs.length
  if s.cache.numCtx < start + inputs.length then none
  else some ({ s with
    seqs := s.seqs.set seqIdx (some { seq with pendingInputs := seq.pendingInputs ++ inputs }) },
    (List.range inputs.length).map fun k : Nat => ⟨(s.slot seq.cache).id, start + k⟩)

/-- The loop of `forwardBatch`, with the inputs that it takes from each sequence. -/
def buildBatch : List (Nat × List Input) → Server → Option (Server × List Token × List Input)
  | [], s => some (s, [], [])
  | (seqIdx, inputs) :: rest, s =>
    match s.sequence seqIdx with
    | none => buildBatch rest s
    | some seq => match s.addInputs seqIdx seq inputs with
      | none => none
      | some (s, tokens) =>
        (buildBatch rest s).map fun out => (out.1, tokens ++ out.2.1, inputs ++ out.2.2)

/-- `StartForward` and the `Put` of the layers. An error ends the runner. -/
def forwardBatch (s : Server) (parts : List (Nat × List Input)) : Option Server :=
  match buildBatch parts s with
  | none => none
  | some (s', batch, inputs) =>
    if batch = [] then some s'
    else match s'.cache.cache.startForward batch false with
      | (_, some _) => none
      | (cache, none) => some { s' with
          cache := { s'.cache with cache := cache.put inputs }
          batches := s'.batches ++ [s.seqs.map (·.map (·.ref))] }

/-- `forwardBatch` shifts a slot only if its sequence has no input in the batch yet. -/
def shiftSequence (s : Server) (seqIdx : Nat) (numKeep : Int) (fails : Nat → Nat → Nat → Bool) : Option Server :=
  match s.sequence seqIdx with
  | none => none
  | some seq =>
    if seq.pendingInputs ≠ [] then none
    else match s.cache.shiftCacheSlot seq.cache numKeep fails with
      | some (cache, none) => some { s with cache := cache }
      | some (cache, some (.reprocess _)) => some { s with cache := cache }
      | _ => none

/-- Pending inputs of a sequence that is still the one of the batch. -/
def commitInputs (seqs : List (Option Nat)) (s : Server) (seqIdx : Nat) : Server :=
  match s.sequence seqIdx with
  | none => s
  | some seq =>
    if (seqs[seqIdx]?).join = some seq.ref then { s with
      cache := { s.cache with slots := s.cache.slots.modify seq.cache fun slot =>
        { slot with inputs := slot.inputs ++ seq.pendingInputs } }
      seqs := s.seqs.set seqIdx (some { seq with pendingInputs := [] }) }
    else s

/-- The first section of `computeBatch`. -/
def computeBatch (s : Server) : Option Server :=
  match s.batches with
  | [] => none
  | seqs :: rest => some ((List.range s.seqs.length).foldl (commitInputs seqs) { s with batches := rest })

/-- `removeSequence`. A stop sequence leaves the first `tokenLen` inputs only. -/
def removeSequence (s : Server) (seqIdx : Nat) (tokenLen : Option Nat) : Option Server :=
  match s.sequence seqIdx with
  | none => none
  | some seq =>
    let length := tokenLen.getD (s.slot seq.cache).inputs.length
    if (s.slot seq.cache).inputs.length < length then none
    else some { s with
      cache := { s.cache with slots := s.cache.slots.modify seq.cache fun slot =>
        { slot with inputs := slot.inputs.take length, inUse := false } }
      seqs := s.seqs.set seqIdx none }

inductive Event where
  | addSequence (prompt : List Input) (cachePrompt : Bool) (now used : Int) (fails : Nat → Nat → Nat → Bool)
  | forwardBatch (parts : List (Nat × List Input))
  | shiftSequence (seqIdx : Nat) (numKeep : Int) (fails : Nat → Nat → Nat → Bool)
  | computeBatch
  | removeSequence (seqIdx : Nat) (tokenLen : Option Nat)

def step (s : Server) : Event → Option Server
  | .addSequence prompt cachePrompt now used fails => s.addSequence prompt cachePrompt now used fails
  | .forwardBatch parts => s.forwardBatch parts
  | .shiftSequence seqIdx numKeep fails => s.shiftSequence seqIdx numKeep fails
  | .computeBatch => s.computeBatch
  | .removeSequence seqIdx tokenLen => s.removeSequence seqIdx tokenLen

/-- After `NewInputCache`, with a causal cache without a sliding window. -/
def Initial (s : Server) : Prop :=
  ∃ (cache : Causal Input) (kvSize numSlots batchSize : Nat) (multiUserCache : Bool) (parallel : Nat),
    cache.swaWindowSize = 0 ∧ cache.swaMemorySize = 0 ∧ (kvSize : Int) ≤ maxInt32 ∧
      newInputCache cache kvSize numSlots batchSize multiUserCache = some (.ok s.cache) ∧
      s.seqs = List.replicate parallel none ∧ s.batches = []

end Server

end Xdragon.Runner
