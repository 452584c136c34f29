import Xdragon.Lib.Run
import Xdragon.Runner.Sequences
import Xdragon.Runner.Stop

/-!
# The batch pipeline of the runner

`NewSequence`, `forwardBatch` and `computeBatch` of `runner/ollamarunner/runner.go` with all the loops, for an
enabled cache. `forwardBatch` and the two locked sections of `computeBatch` are one step each, so that
`forwardBatch` of the next batch can run between the sections. `none` stands for a panic.

A placeholder input has from the start the token that is sampled for it. A batch may read it before the token is
there: the cells that were computed so are remembered.
-/

namespace Xdragon.Runner.Pipeline

open Xdragon.Kvcache Xdragon.Lib

/-! ## New sequences -/

structure NewSequenceParams where
  numPredict : Int := 0
  stop : List Bytes := []
  numKeep : Int := 0
  embedding : Bool := false
  shift : Bool := false
  truncate : Bool := false

inductive SequenceError where
  | noInput
  /-- `errorInputTooLong`. -/
  | inputTooLong
  | sameBatchInKeep (index : Nat) (numKeep : Int) (sameBatch : Nat)
  | promptRemoved

def SequenceError.text : SequenceError → String
  | .noInput => "no input provided"
  | .inputTooLong => "the input length exceeds the context length"
  | .sameBatchInKeep index numKeep sameBatch =>
    "SameBatch may not be specified within numKeep (index: " ++ toString index ++ " numKeep: " ++
      toString numKeep ++ " SameBatch: " ++ toString sameBatch ++ ")"
  | .promptRemoved => "entire prompt removed by truncation"

/-- The loop of `NewSequence`: a start of the prompt inside of a group moves behind it. -/
def moveStart (numKeep : Int) : List Input → Nat → Nat → Int → Except SequenceError Int
  | [], _, _, promptStart => .ok promptStart
  | inp :: rest, i, sameBatch, promptStart =>
    if sameBatch = 0 ∧ promptStart = i then .ok promptStart
    else
      let promptStart := if promptStart = i then promptStart + 1 else promptStart
      if inp.sameBatch ≠ 0 then
        if i < numKeep then .error (.sameBatchInKeep i numKeep inp.sameBatch)
        else moveStart numKeep rest (i + 1) inp.sameBatch promptStart
      else moveStart numKeep rest (i + 1) (sameBatch - 1) promptStart

/-- How many inputs at the beginning are kept when the context is shifted. -/
def keepOf (numCtx : Int) (inputs : List Input) (numKeep : Int) : Int :=
  -- Ensure that at least 1 input can be discarded during shift.
  min (if numKeep < 0 then inputs.length else numKeep) (numCtx - 1)

/-- The inputs of `NewSequence`, cut to the context. -/
def truncateInputs (numCtx : Int) (inputs : List Input) (numKeep : Int) (truncate : Bool) :
    Option (Except SequenceError (List Input)) :=
  if inputs.length ≤ numCtx then some (.ok inputs)
  else if ¬ truncate then some (.error .inputTooLong)
  else
    let discard := inputs.length - numCtx
    match moveStart numKeep inputs 0 0 (numKeep + discard) with
    | .error err => some (.error err)
    | .ok promptStart =>
      if inputs.length ≤ promptStart then some (.error .promptRemoved)
      else if numKeep < 0 then none
      else some (.ok (inputs.take numKeep.toNat ++ inputs.drop promptStart.toNat))

/-- The prompt and `numKeep` of a new sequence. -/
def newSequence (numCtx : Int) (inputs : List Input) (params : NewSequenceParams) :
    Option (Except SequenceError (List Input × Int)) :=
  if inputs = [] then some (.error .noInput)
  else
    let numKeep := keepOf numCtx inputs params.numKeep
    (truncateInputs numCtx inputs numKeep params.truncate).map (·.map (·, numKeep))

/-! ## The server -/

structure Sequence where
  ref : Nat
  /-- The index of its slot. -/
  cache : Nat
  iBatch : Nat := 0
  inputs : List Input
  pendingInputs : List Input := []
  pendingResponses : List Bytes := []
  numPredict : Int
  stop : List Bytes
  numKeep : Int
  embeddingOnly : Bool
  shift : Bool
  numPredicted : Nat := 0
  /-- The batch that fills in the token of its last input. -/
  sampledBy : Option Nat := none

structure BatchState where
  id : Nat
  seqs : List (Option Nat)
  batchInputs : List Input
  /-- `Positions` and `Sequences` of the batch. -/
  tokens : List Token
  outputs : List Nat
  /-- The batch that has to be complete before this one is computed. -/
  inputsReady : Option Nat
  nextBatchTokens : List (Option Input) := []
  iBatches : List (Option Nat) := []

structure Tokenizer where
  isEOS : Int → Bool
  decode : Int → Option Bytes

structure Server where
  cache : InputCache
  seqs : List (Option Sequence)
  /-- The next `Sequence` pointer. -/
  nextRef : Nat := 0
  nextSeq : Nat := 0
  batchSize : Nat
  batchID : Nat := 0
  tokenizer : Tokenizer
  /-- The last batch of `forwardBatch`, if it has inputs. -/
  previousBatch : Option Nat := none
  /-- The batch that waits for the first section of `computeBatch`. -/
  built : Option BatchState := none
  /-- The batches between the two sections of `computeBatch`. -/
  computing : List BatchState := []
  /-- The cells that were computed from the token 0 of a placeholder. -/
  unread : List Nat := []

namespace Server

def sequence (s : Server) (seqIdx : Nat) : Option Sequence := (s.seqs[seqIdx]?).join

def slot (s : Server) (i : Nat) : InputCacheSlot := s.cache.slots.getD i default

def removeSequence (s : Server) (seqIdx : Nat) (seq : Sequence) : Server := { s with
  cache := { s.cache with slots := s.cache.slots.modify seq.cache fun slot => { slot with inUse := false } }
  seqs := s.seqs.set seqIdx none }

/-- The part of `completion` that gives a new sequence its slot. -/
def completion (s : Server) (inputs : List Input) (params : NewSequenceParams) (cachePrompt : Bool) (now used : Int)
    (fails : Nat → Nat → Nat → Bool) : Option Server :=
  match newSequence s.cache.numCtx inputs params with
  | none => none
  | some (.error _) => some s
  | some (.ok (prompt, numKeep)) => match s.seqs.findIdx? (·.isNone) with
    | none => some s
    | some seqIdx => match s.cache.loadCacheSlot prompt cachePrompt now used fails with
      | none => none
      | some (cache, .error _) => some { s with cache := cache }
      | some (cache, .ok (i, rest)) => some { s with
          cache := cache
          seqs := s.seqs.set seqIdx (some
            { ref := s.nextRef, cache := i, inputs := rest, numPredict := params.numPredict, stop := params.stop,
              numKeep := numKeep, embeddingOnly := params.embedding, shift := params.shift })
          nextRef := s.nextRef + 1 }

end Server

/-! ## Forwarding a batch -/

/-- The variables of `forwardBatch`. -/
structure Forward where
  server : Server
  /-- `nextBatch.seqs`. -/
  seqs : List (Option Nat)
  batchInputs : List Input := []
  tokens : List Token := []
  batchOutputs : List Nat := []
  resumeSeq : Option Nat := none

namespace Forward

/-- Puts the input at index `i` of the sequence into the batch. `inp` is the input that the loop is at. -/
def addInput (f : Forward) (seq : Sequence) (i : Nat) (inp : Input) : Option (Forward × Sequence) :=
  match seq.inputs[i]? with
  | none => none
  | some x =>
    let slot := f.server.slot seq.cache
    some ({ f with
      batchInputs := f.batchInputs ++ [x]
      tokens := f.tokens ++ [⟨slot.id, slot.inputs.length + seq.pendingInputs.length⟩]
      batchOutputs := if i + 1 = seq.inputs.length ∨ seq.embeddingOnly then f.batchOutputs ++ [f.batchInputs.length]
        else f.batchOutputs },
      { seq with iBatch := f.batchOutputs.length, pendingInputs := seq.pendingInputs ++ [inp] })

/-- The loop over the inputs that the sequence had at its start. A removed sequence is `none`. -/
def takeInputs (fails : Nat → Nat → Nat → Bool) (seqIdx : Nat) :
    List Input → Nat → Nat → Forward → Sequence → Option (Forward × Option Sequence)
  | [], _, _, f, seq => some (f, some seq)
  | inp :: rest, i, batchSize, f, seq =>
    let minBatch := 1 + inp.sameBatch
    let batchSize := if minBatch > batchSize then minBatch else batchSize
    if f.batchInputs.length + minBatch > batchSize then
      some (if seq.pendingInputs.length = 0 ∧ f.resumeSeq = none then { f with resumeSeq := some seqIdx } else f, some seq)
    else if (f.server.slot seq.cache).inputs.length + seq.pendingInputs.length + minBatch > f.server.cache.numCtx then
      if seq.pendingInputs.length ≠ 0 then some (f, some seq)
      else if ¬ seq.shift then
        some ({ f with server := f.server.removeSequence seqIdx seq, seqs := f.seqs.set seqIdx none }, none)
      else match f.server.cache.shiftCacheSlot seq.cache seq.numKeep fails with
        | some (cache, none) =>
          let f := { f with server := { f.server with cache := cache } }
          (f.addInput seq i inp).bind fun out => takeInputs fails seqIdx rest (i + 1) batchSize out.1 out.2
        | some (cache, some (.reprocess inputs)) =>
          -- `continue` goes on with the loop over the old inputs
          takeInputs fails seqIdx rest (i + 1) batchSize
            { f with server := { f.server with cache := cache }, seqs := f.seqs.set seqIdx none }
            { seq with inputs := inputs ++ seq.inputs }
        | _ => none
    else (f.addInput seq i inp).bind fun out => takeInputs fails seqIdx rest (i + 1) batchSize out.1 out.2

/-- One sequence of the batch. -/
def visit (fails : Nat → Nat → Nat → Bool) (f : Forward) (seqIdx : Nat) : Option Forward :=
  match f.server.sequence seqIdx with
  | none => some f
  | some seq => match takeInputs fails seqIdx seq.inputs 0 f.server.batchSize f seq with
    | none => none
    | some (f, none) => some f
    | some (f, some seq) =>
      if seq.inputs.length < seq.pendingInputs.length then none
      else some { f with server := { f.server with
        seqs := f.server.seqs.set seqIdx (some { seq with inputs := seq.inputs.drop seq.pendingInputs.length }) } }

end Forward

namespace Server

/-- The sequences in the order in which `forwardBatch` visits them. -/
def order (s : Server) : List Nat := (List.range s.seqs.length).map fun k => (s.nextSeq + k) % s.seqs.length

def startForward (s : Server) : Forward where
  server := s
  seqs := s.seqs.map (·.map (·.ref))

/-- The end of `forwardBatch`. `StartForward` and the `Put` of the layers are in `model.Forward`, and an error of
it ends the runner. -/
def finishForward (s : Server) (f : Forward) : Option Server :=
  let next := f.resumeSeq.getD ((s.order.getLast?).getD 0 + 1)
  let s := { f.server with nextSeq := next }
  if f.batchInputs = [] then some { s with previousBatch := none }
  else match s.cache.cache.startForward f.tokens false with
    | (_, some _) => none
    | (cache, none) => some { s with
        cache := { s.cache with cache := cache.put f.batchInputs }
        batchID := s.batchID + 1
        previousBatch := some s.batchID
        unread := s.unread.filter (· ∉ cache.curLoc)
        built := some
          { id := s.batchID, seqs := f.seqs, batchInputs := f.batchInputs, tokens := f.tokens
            outputs := f.batchOutputs, inputsReady := s.previousBatch } }

/-- `forwardBatch` waits until the first section of the previous batch is done, and for a sequence. -/
def forwardBatch (s : Server) (fails : Nat → Nat → Nat → Bool) : Option Server :=
  if s.built.isSome ∨ s.seqs.all (·.isNone) then none
  else (exec (Forward.visit fails) s.startForward s.order).bind s.finishForward

/-! ## Computing a batch -/

/-- The cell of the last input of the sequence, if its token is not there yet. -/
def readPlaceholder (s : Server) (seq : Sequence) : List Nat :=
  let slot := s.slot seq.cache
  let pos : Int := slot.inputs.length + seq.pendingInputs.length - 1
  if seq.inputs = [] ∧ s.computing.any (fun b => seq.sampledBy = some b.id) then
    (List.range s.cache.cache.cells.length).filter fun j =>
      let cell := s.cache.cache.cells.getD j default
      (slot.id : Int) ∈ cell.sequences ∧ cell.pos = pos
  else []

/-- The first section for one sequence. -/
def startSequence (tokens : Nat → Int) (st : Server × BatchState) (i : Nat) : Server × BatchState :=
  match st.1.sequence i with
  | none => st
  | some seq =>
    -- Skip over any newly added, skipped or replaced sequences.
    if (st.2.seqs[i]?).join ≠ some seq.ref then st
    else
      let cache := { st.1.cache with slots := st.1.cache.slots.modify seq.cache fun slot =>
        { slot with inputs := slot.inputs ++ seq.pendingInputs } }
      if seq.inputs ≠ [] then
        ({ st.1 with cache := cache, seqs := st.1.seqs.set i (some { seq with pendingInputs := [] }) }, st.2)
      else
        let nextToken : Input := { token := tokens i }
        ({ st.1 with
          cache := cache
          unread := st.1.unread ++ st.1.readPlaceholder seq
          seqs := st.1.seqs.set i (some { seq with
            pendingInputs := [], inputs := [nextToken], sampledBy := some st.2.id }) },
          { st.2 with
            nextBatchTokens := st.2.nextBatchTokens.set i (some nextToken)
            iBatches := st.2.iBatches.set i (some seq.iBatch) })

/-- The first section of `computeBatch`. `tokens` is what will be sampled for each sequence. -/
def startCompute (s : Server) (tokens : Nat → Int) : Option Server :=
  match s.built with
  | none => none
  | some b =>
    if s.computing.any (fun c => b.inputsReady = some c.id) then none
    else
      let out := (List.range s.seqs.length).foldl (startSequence tokens) (s,
        { b with
          nextBatchTokens := List.replicate s.seqs.length none
          iBatches := List.replicate s.seqs.length none })
      some { out.1 with built := none, computing := out.2 :: s.computing }

/-- How many inputs of the slot are left after a stop string. -/
def tokenLen (cacheLen origLen newLen : Nat) (tokenTruncated : Bool) : Int :=
  cacheLen + 1 - (origLen - newLen) - (if tokenTruncated ∨ origLen = newLen then 1 else 0)

/-- What `computeBatch` does with a piece. `quit` says that the client is gone. -/
def addPiece (s : Server) (i : Nat) (seq : Sequence) (piece : Bytes) (quit : Bool) : Option Server :=
  let pending := seq.pendingResponses ++ [piece]
  let seq := { seq with pendingResponses := pending }
  if seq.numPredict > 0 ∧ seq.numPredict ≤ seq.numPredicted then some (s.removeSequence i seq)
  else match findStop pending.flatten seq.stop with
    | some stop =>
      let (pieces, tokenTruncated) := truncateStop pending stop
      let cacheLen := (s.slot seq.cache).inputs.length
      let length := tokenLen cacheLen pending.length pieces.length tokenTruncated
      if length < 0 ∨ cacheLen < length then none
      else
        let slots := s.cache.slots.modify seq.cache fun slot => { slot with inputs := slot.inputs.take length.toNat }
        some (removeSequence { s with cache := { s.cache with slots := slots } } i
          { seq with pendingResponses := pieces })
    | none =>
      if containsStopSuffix pending.flatten seq.stop ∨ incompleteUnicode pending.flatten then
        some { s with seqs := s.seqs.set i (some seq) }
      else if quit ∧ trimInvalid pending.flatten.length pending.flatten ≠ [] then some (s.removeSequence i seq)
      else some { s with seqs := s.seqs.set i (some { seq with pendingResponses := [] }) }

/-- The second section for one sequence. -/
def finishSequence (b : BatchState) (quit : Nat → Bool) (s : Server) (i : Nat) : Option Server :=
  match s.sequence i, (b.nextBatchTokens[i]?).join with
  | some seq, some next =>
    if (b.seqs[i]?).join ≠ some seq.ref then some s
    else
      let seq := { seq with numPredicted := seq.numPredicted + 1 }
      if seq.embeddingOnly then some (s.removeSequence i seq)
      else match (b.iBatches[i]?).join with
        | none => none
        | some iBatch =>
          if b.outputs.length ≤ iBatch then none
          else if s.tokenizer.isEOS next.token then some (s.removeSequence i seq)
          else match s.tokenizer.decode next.token with
            | none => none
            | some piece => s.addPiece i seq piece (quit i)
  | _, _ => some s

/-- The second section of `computeBatch`. -/
def finishCompute (s : Server) (id : Nat) (quit : Nat → Bool) : Option Server :=
  match s.computing.find? (·.id = id) with
  | none => none
  | some b => (exec (finishSequence b quit) s (List.range s.seqs.length)).map fun s' =>
      { s' with computing := s'.computing.filter (·.id ≠ id) }

/-! ## Runs -/

inductive Event where
  | completion (inputs : List Input) (params : NewSequenceParams) (cachePrompt : Bool) (now used : Int)
    (fails : Nat → Nat → Nat → Bool)
  | forwardBatch (fails : Nat → Nat → Nat → Bool)
  | startCompute (tokens : Nat → Int)
  | finishCompute (id : Nat) (quit : Nat → Bool)

def step (s : Server) : Event → Option Server
  | .completion inputs params cachePrompt now used fails => s.completion inputs params cachePrompt now used fails
  | .forwardBatch fails => s.forwardBatch fails
  | .startCompute tokens => s.startCompute tokens
  | .finishCompute id quit => s.finishCompute id quit

/-- After the model was loaded, with a causal cache without a sliding window. -/
def Initial (s : Server) : Prop :=
  ∃ (cache : Causal Input) (kvSize parallel : Nat) (multiUserCache : Bool),
    cache.swaWindowSize = 0 ∧ cache.swaMemorySize = 0 ∧ (kvSize : Int) ≤ maxInt32 ∧
      newInputCache cache kvSize parallel s.batchSize multiUserCache = some (.ok s.cache) ∧
      s.seqs = List.replicate parallel none ∧ s.nextRef = 0 ∧ s.batchID = 0 ∧ s.previousBatch = none ∧
      s.built = none ∧ s.computing = [] ∧ s.unread = []

end Server

end Xdragon.Runner.Pipeline
