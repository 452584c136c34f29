import Xdragon.Kvcache.Checkpoints

/-!
# The recurrent cache

`kvcache/recurrent.go` and the rest of `kvcache/recurrent_checkpoints.go`. A causal cache, and for
each sequence a slot with its recurrent state. Sequences share a slot until one of them writes.
`none` stands for a panic. Contexts and tensor layouts are left out: what is copied is.
-/

namespace Xdragon.Kvcache

structure Recurrent (α : Type) where
  kv : Causal α
  maxSequences : Nat := 0
  slotForSeq : AList (fun _ : Int => Nat) := ∅
  refCount : List Int := []
  freeSlots : List Nat := []
  /-- `convStates` and `recurrentStates`: for each buffer the state of every slot. -/
  states : AList (fun _ : Buffer => Nat → List α) := ∅
  checkpointCount : Nat := 32
  checkpointMinPos : Int := 16
  checkpointInterval : Int := 1280
  checkpoints : AList (fun _ : Nat => SlotCheckpointStore α) := ∅
  pendingRestore : AList (fun _ : Int => CheckpointRestore) := ∅
  curCheckpointPos : List Int := []
  curCheckpointSlots : AList (fun _ : Nat => Nat) := ∅
  reserveCheckpoints : Bool := false
  checkpointReserved : List Buffer := []
  curSeqs : List Int := []
  curSlots : List Nat := []
  curSeqTokens : Nat := 0
  writableEnsured : Bool := false
  writableError : Option CacheError := none

namespace Recurrent

variable {α : Type}

def newRecurrentCache (shift : Bool) : Recurrent α := { kv := Causal.newCausalCache shift }

def init (c : Recurrent α) (maxSequences capacity maxBatch : Nat) : Option (Recurrent α) :=
  (c.kv.init maxSequences capacity maxBatch).map fun kv => { c with
    kv := kv
    maxSequences := maxSequences
    checkpoints := ∅
    pendingRestore := ∅
    curCheckpointPos := []
    curCheckpointSlots := ∅
    checkpointReserved := []
    refCount := List.replicate maxSequences 0
    freeSlots := (List.range maxSequences).reverse }

/-! ## Slots -/

/-- `none` is `ErrKvCacheFull`. -/
def allocSlot (c : Recurrent α) : Option (Nat × Recurrent α) :=
  c.freeSlots.getLast?.map fun slot => (slot, { c with freeSlots := c.freeSlots.dropLast })

def freeSlot (c : Recurrent α) (slot : Nat) : Recurrent α :=
  if slot < c.maxSequences then { c with freeSlots := c.freeSlots ++ [slot] } else c

def validSlot (c : Recurrent α) (slot : Nat) : Bool := slot < c.refCount.length

/-- The state of a slot in one buffer. A buffer that is not allocated yet would be zero. -/
def row (c : Recurrent α) (b : Buffer) (slot : Nat) : List α := ((c.states.lookup b).getD fun _ => []) slot

/-- Writes one row of each given buffer. A map over the entries, as the loops of the source. -/
def setRows (c : Recurrent α) (f : Buffer → (Nat → List α) → Nat → List α) : Recurrent α :=
  { c with states := c.states.entries.foldl (fun states e => states.insert e.1 (f e.1 e.2)) c.states }

def zeroSlots (c : Recurrent α) (slots : List Nat) : Recurrent α :=
  if slots = [] then c else c.setRows fun _ rows slot => if slot ∈ slots then [] else rows slot

def copyRecurrentState (c : Recurrent α) (srcSlot dstSlot : Nat) : Recurrent α :=
  c.setRows fun _ rows => Function.update rows dstSlot (rows srcSlot)

/-- `convBuffer` and `recurrentBuffer`. -/
def buffer (c : Recurrent α) (b : Buffer) : Recurrent α :=
  match c.states.lookup b with
  | some _ => c
  | none => { c with states := c.states.insert b fun _ => [] }

/-! ## Checkpoints -/

def checkpointStore (c : Recurrent α) (slot : Nat) : SlotCheckpointStore α × Recurrent α :=
  match c.checkpoints.lookup slot with
  | some store => (store, c)
  | none =>
    let store := newSlotCheckpointStore α c.checkpointCount
    (store, { c with checkpoints := c.checkpoints.insert slot store })

/-- Changes the store of a slot, if there is one. -/
def onStore (c : Recurrent α) (slot : Nat) (f : SlotCheckpointStore α → SlotCheckpointStore α) :
    Recurrent α :=
  match c.checkpoints.lookup slot with
  | some store => { c with checkpoints := c.checkpoints.insert slot (f store) }
  | none => c

def clearCheckpoints (c : Recurrent α) (slot : Nat) : Recurrent α := c.onStore slot (·.reset)

def shiftCheckpoints (c : Recurrent α) (slot : Nat) (beginIndex endIndex : Int) : Recurrent α :=
  c.onStore slot (·.shiftRange beginIndex endIndex)

def copyCheckpoints (c : Recurrent α) (srcSlot dstSlot : Nat) : Recurrent α :=
  if c.checkpointCount = 0 then c
  else match c.checkpoints.lookup srcSlot with
    | none => c
    | some src =>
      if src.size = 0 then c
      else
        let (dst, c) := c.checkpointStore dstSlot
        { c with checkpoints := c.checkpoints.insert dstSlot (dst.copyFrom src) }

/-- The highest position of a sequence in the batch. -/
def posMax (batch : List Token) (seq : Int) : Option Int :=
  ((batch.filter fun t => t.seq = seq).map (·.pos)).max?

/-- The position to capture for one sequence of the batch, or -1. -/
def planSeq (batch : List Token) (c : Recurrent α) (e : Int × Nat) : Recurrent α :=
  match posMax batch e.1 with
  | none => { c with curCheckpointPos := c.curCheckpointPos ++ [-1] }
  | some pos =>
    if pos < c.checkpointMinPos then { c with curCheckpointPos := c.curCheckpointPos ++ [-1] }
    else
      let (store, c) := c.checkpointStore e.2
      let due := store.lastPos < 0 ∨ c.checkpointInterval ≤ pos - store.lastPos
      { c with curCheckpointPos := c.curCheckpointPos ++ [if due then pos else -1] }

def planCheckpoints (c : Recurrent α) (batch : List Token) : Recurrent α :=
  let c := { c with curCheckpointPos := [], curCheckpointSlots := ∅ }
  if c.checkpointCount = 0 ∨ c.curSeqs = [] then c
  else (c.curSeqs.zip c.curSlots).foldl (planSeq batch) c

/-- `none` is -1. The first buffer of a pass records the entry, the others find it. -/
def checkpointIndexForSlot (c : Recurrent α) (slot : Nat) (pos : Int) : Option Nat × Recurrent α :=
  if c.checkpointCount = 0 then (none, c)
  else match c.curCheckpointSlots.lookup slot with
    | some idx => (some idx, c)
    | none =>
      let (store, c) := c.checkpointStore slot
      let (idx, store) := store.record pos
      let c := { c with checkpoints := c.checkpoints.insert slot store }
      match idx with
      | none => (none, c)
      | some i => (some i, { c with curCheckpointSlots := c.curCheckpointSlots.insert slot i })

/-- One sequence of the loop of `captureConvCheckpoint` and `captureRecurrentCheckpoint`. -/
def captureSeq (b : Buffer) (src : List (List α)) (c : Recurrent α) (e : Int × Nat) : Option (Recurrent α) :=
  if e.1 < 0 then some c
  else c.curSlots[e.2]?.map fun slot =>
    match c.checkpointIndexForSlot slot e.1 with
    | (none, c) => c
    | (some idx, c) => c.onStore slot (·.setTensor idx b (src.getD e.2 []))

/-- `reserveCheckpointConv` and `reserveCheckpointRecurrent`. -/
def reserveCheckpoint (c : Recurrent α) (b : Buffer) : Recurrent α :=
  if b ∈ c.checkpointReserved then c
  else
    let c := (List.range c.maxSequences).foldl (fun c slot =>
      (c.checkpointStore slot).2.onStore slot fun s =>
        { s with entries := s.entries.map (SlotCheckpointStore.ensureTensor · b) }) c
    { c with checkpointReserved := b :: c.checkpointReserved }

def capture (c : Recurrent α) (b : Buffer) (src : List (List α)) : Option (Recurrent α) :=
  if c.checkpointCount = 0 then some c
  else if c.reserveCheckpoints then some (c.reserveCheckpoint b)
  else c.curCheckpointPos.zipIdx.foldlM (captureSeq b src) c

def hasCheckpoint (c : Recurrent α) (seq pos : Int) : Bool :=
  if pos ≤ 0 then false
  else match (c.slotForSeq.lookup seq).bind c.checkpoints.lookup with
    | none => false
    | some store => (store.bestIndex pos).isSome

def canResume (c : Recurrent α) (seq pos : Int) : Bool :=
  c.kv.canResume seq pos && (pos = 0 || c.hasCheckpoint seq pos)

/-- Returns the position to resume at. -/
def prepareRestore (c : Recurrent α) (seq targetPos : Int) : Recurrent α × Option Int :=
  if targetPos ≤ 0 then (c, none)
  else match c.slotForSeq.lookup seq with
    | none => (c, none)
    | some slot => match c.checkpoints.lookup slot with
      | none => (c, none)
      | some store => match store.bestIndex targetPos with
        | none => (c, none)
        | some (idx, pos) =>
          ({ c with pendingRestore := c.pendingRestore.insert seq ⟨slot, idx, pos⟩ }, some (pos + 1))

/-- Every allocated buffer has its tensor in the entry. -/
def entryComplete (c : Recurrent α) (e : CheckpointEntry α) : Bool :=
  c.states.keys.all fun b => (e.tensors.lookup b).isSome

def restoreEntry (c : Recurrent α) (restore : CheckpointRestore) : Option (CheckpointEntry α) :=
  (c.checkpoints.lookup restore.slot).bind fun store =>
    (store.entries[restore.idx]?).filter fun e => 0 ≤ e.pos && c.entryComplete e

/-- Writes one tensor of the entry back to the slot. -/
def restoreTensor (slot : Nat) (c : Recurrent α) (e : (_ : Buffer) × List α) : Recurrent α :=
  let c := c.buffer e.1
  let rows := (c.states.lookup e.1).getD fun _ => []
  { c with states := c.states.insert e.1 (Function.update rows slot e.2) }

def applyCheckpointRestore (c : Recurrent α) (restore : CheckpointRestore) :
    Recurrent α × Option CacheError :=
  match c.restoreEntry restore with
  | none => (c, some .notSupported)
  | some entry =>
    ((entry.tensors.entries.foldl (restoreTensor restore.slot) c).onStore restore.slot
      (·.pruneAfter restore.pos), none)

/-! ## The forward pass -/

def finalizeStartForward (c : Recurrent α) (batch : List Token) (reserve : Bool) : Recurrent α :=
  { c with writableEnsured := false, writableError := none, reserveCheckpoints := reserve }.planCheckpoints
    batch

/-- A new sequence starts in a slot of its own. -/
def useSlot (c : Recurrent α) (seq : Int) (slot : Nat) : Recurrent α :=
  { c with slotForSeq := c.slotForSeq.insert seq slot, refCount := c.refCount.set slot 1 }

/-- A sequence of the batch without a slot gets one, which goes to the list of new slots. -/
def findSlots : List Int → List Nat → Recurrent α → Recurrent α × List Nat × Option CacheError
  | [], newSlots, c => (c, newSlots, none)
  | seq :: rest, newSlots, c =>
    match c.slotForSeq.lookup seq with
    | some slot => findSlots rest newSlots { c with curSlots := c.curSlots ++ [slot] }
    | none => match c.allocSlot with
      | none => (c, newSlots, some (.kvCacheFull none))
      | some (slot, c) =>
        findSlots rest (newSlots ++ [slot]) { c.useSlot seq slot with curSlots := c.curSlots ++ [slot] }

/-- The second half of `StartForward`, for several sequences. -/
def startForwardMultiSeq (c : Recurrent α) (batch : List Token) (reserve : Bool) :
    Recurrent α × Option CacheError :=
  if reserve then ({ c with curSlots := List.range c.curSeqs.length }.finalizeStartForward batch true, none)
  else match findSlots c.curSeqs [] { c with curSlots := [] } with
    | (c, _, some err) => (c, some err)
    | (c, newSlots, none) => ((c.zeroSlots newSlots).finalizeStartForward batch false, none)

def startForwardSingleSeq (c : Recurrent α) (seq : Int) (seqTokens : Nat) (batch : List Token)
    (reserve : Bool) : Recurrent α × Option CacheError :=
  let c := { c with curSeqs := [seq], curSeqTokens := seqTokens }
  if reserve then ({ c with curSlots := [0] }.finalizeStartForward batch true, none)
  else match c.slotForSeq.lookup seq with
    | some slot => ({ c with curSlots := [slot] }.finalizeStartForward batch false, none)
    | none => match c.allocSlot with
      | none => (c, some (.kvCacheFull none))
      | some (slot, c) =>
        ({ (c.useSlot seq slot).zeroSlots [slot] with curSlots := [slot] }.finalizeStartForward batch false, none)

/-- The sequences of the batch, in order of appearance. -/
def seqsOf (batch : List Token) : List Int :=
  batch.foldl (fun seqs t => if t.seq ∈ seqs then seqs else seqs ++ [t.seq]) []

/-- `seqCounts`. -/
def countOf (batch : List Token) (seq : Int) : Nat := batch.countP fun t => t.seq = seq

def startForward (c : Recurrent α) (batch : List Token) (reserve : Bool) :
    Recurrent α × Option CacheError :=
  match c.kv.startForward batch reserve with
  | (kv, some err) => ({ c with kv := kv }, some err)
  | (kv, none) =>
    let c := { c with kv := kv }
    match batch with
    | [] =>
      ({ c with
        curSeqs := [], curSlots := [], curSeqTokens := 0, reserveCheckpoints := false
        writableEnsured := false, writableError := none }, none)
    | first :: rest =>
      if rest.all fun t => t.seq = first.seq then
        c.startForwardSingleSeq first.seq batch.length batch reserve
      else
        let seqs := seqsOf batch
        let c := { c with curSeqs := seqs }
        let want := batch.length / seqs.length
        if seqs.any fun s => countOf batch s ≠ want then (c, some .notSupported)
        else { c with curSeqTokens := want }.startForwardMultiSeq batch reserve

/-- Moves a sequence from a shared slot to a copy of it. -/
def detach (c : Recurrent α) (seq : Int) (slot : Nat) : Option (Nat × Recurrent α) :=
  c.allocSlot.map fun e =>
    let c := (e.2.copyRecurrentState slot e.1).copyCheckpoints slot e.1
    (e.1, { c with
      refCount := (c.refCount.set slot (c.refCount.getD slot 0 - 1)).set e.1 1
      slotForSeq := c.slotForSeq.insert seq e.1 })

def ensureWritableLoop : List Int → Nat → Recurrent α → Option (Recurrent α × Option CacheError)
  | [], _, c => some (c, none)
  | seq :: rest, i, c =>
    match c.slotForSeq.lookup seq with
    | none => ensureWritableLoop rest (i + 1) c
    | some slot =>
      if c.validSlot slot ∧ 1 < c.refCount.getD slot 0 then
        match c.detach seq slot with
        | none => some (c, some (.kvCacheFull none))
        | some (newSlot, c) =>
          if i < c.curSlots.length then
            ensureWritableLoop rest (i + 1) { c with curSlots := c.curSlots.set i newSlot }
          else none
      else ensureWritableLoop rest (i + 1) c

/-- `EnsureWritable`. -/
def ensureWritable (c : Recurrent α) : Option (Recurrent α × Option CacheError) :=
  ensureWritableLoop c.curSeqs 0 c

def needsWritable (c : Recurrent α) (seq : Int) : Bool :=
  match c.slotForSeq.lookup seq with
  | none => false
  | some slot => c.validSlot slot && 1 < c.refCount.getD slot 0

def ensureWritableOnce (c : Recurrent α) : Option (Recurrent α) :=
  if c.writableEnsured then some c
  else if c.curSeqs.any c.needsWritable then
    c.ensureWritable.map fun e =>
      { e.1 with writableError := e.2.orElse fun _ => e.1.writableError, writableEnsured := true }
  else some { c with writableEnsured := true }

/-- `UpdateConvState` and `UpdateRecurrentState`: new states for the current slots. -/
def updateState (c : Recurrent α) (b : Buffer) (src : List (List α)) : Option (Recurrent α) :=
  let c := c.buffer b
  let rows := (c.states.lookup b).getD fun _ => []
  let rows := (c.curSlots.zip src).foldl (fun rows e => Function.update rows e.1 e.2) rows
  { c with states := c.states.insert b rows }.capture b src

/-! ## Copies and removals -/

/-- One user less for a slot, which is free after its last one. Only `Remove` clears its checkpoints. -/
def releaseSlot (c : Recurrent α) (slot : Nat) (clear : Bool) : Recurrent α :=
  let count := c.refCount.getD slot 0 - 1
  if count ≤ 0 then
    let c := { c with refCount := c.refCount.set slot 0 }
    (if clear then c.clearCheckpoints slot else c).freeSlot slot
  else { c with refCount := c.refCount.set slot count }

/-- The target gives up its slot. -/
def leaveSlot (c : Recurrent α) (dstSeq : Int) : Recurrent α :=
  match c.slotForSeq.lookup dstSeq with
  | none => c
  | some dstSlot =>
    let c := if c.validSlot dstSlot then c.releaseSlot dstSlot false else c
    { c with slotForSeq := c.slotForSeq.erase dstSeq }

def copyPrefix (c : Recurrent α) (srcSeq dstSeq prefixLen : Int) : Recurrent α :=
  let c := { c with kv := c.kv.copyPrefix srcSeq dstSeq prefixLen }.leaveSlot dstSeq
  match c.slotForSeq.lookup srcSeq with
  | none => c
  | some srcSlot =>
    if c.validSlot srcSlot then
      { c with
        slotForSeq := c.slotForSeq.insert dstSeq srcSlot
        refCount := c.refCount.set srcSlot (c.refCount.getD srcSlot 0 + 1) }
    else c

/-- `Remove` in the middle: the checkpoints move with the positions. -/
def removeMiddle (c : Recurrent α) (seq beginIndex endIndex : Int) (fails : Nat → Nat → Nat → Bool) :
    Recurrent α × Option CacheError :=
  match c.kv.remove seq beginIndex endIndex fails with
  | (kv, some err) => ({ c with kv := kv }, some err)
  | (kv, none) =>
    let c := { c with kv := kv, pendingRestore := c.pendingRestore.erase seq }
    match c.slotForSeq.lookup seq with
    | none => (c, none)
    | some slot =>
      if ¬ c.validSlot slot then (c, none)
      else if 1 < c.refCount.getD slot 0 then
        match c.detach seq slot with
        | none => (c, some (.kvCacheFull none))
        | some (newSlot, c) => (c.shiftCheckpoints newSlot beginIndex endIndex, none)
      else (c.shiftCheckpoints slot beginIndex endIndex, none)

/-- The sequence gets a slot of its own to restore to. -/
def detachToRestore (c : Recurrent α) (seq : Int) (restore : CheckpointRestore) : Option (Recurrent α) :=
  match c.slotForSeq.lookup seq with
  | none => some c
  | some slot =>
    if c.validSlot slot ∧ 1 < c.refCount.getD slot 0 then
      (c.detach seq slot).map fun e =>
        { e.2 with pendingRestore := e.2.pendingRestore.insert seq { restore with slot := e.1 } }
    else some c

/-- `Remove` of the end: back to the checkpoint that `PrepareRestore` chose. -/
def removeTail (c : Recurrent α) (seq beginIndex endIndex : Int) (fails : Nat → Nat → Nat → Bool) :
    Recurrent α × Option CacheError :=
  match c.pendingRestore.lookup seq with
  | none => (c, some .notSupported)
  | some restore =>
    if restore.pos + 1 ≠ beginIndex ∨ (c.restoreEntry restore).isNone then (c, some .notSupported)
    else match c.detachToRestore seq restore with
      | none => (c, some (.kvCacheFull none))
      | some c => match c.kv.remove seq beginIndex endIndex fails with
        | (kv, some err) => ({ c with kv := kv }, some err)
        | (kv, none) =>
          let restore := (c.pendingRestore.lookup seq).getD default
          { c with kv := kv, pendingRestore := c.pendingRestore.erase seq }.applyCheckpointRestore restore

/-- `Remove` from the start: the sequence gives up its slot. -/
def removeAll (c : Recurrent α) (seq beginIndex endIndex : Int) (fails : Nat → Nat → Nat → Bool) :
    Recurrent α × Option CacheError :=
  match c.kv.remove seq beginIndex endIndex fails with
  | (kv, some err) => ({ c with kv := kv }, some err)
  | (kv, none) =>
    let c := { c with kv := kv, pendingRestore := c.pendingRestore.erase seq }
    match c.slotForSeq.lookup seq with
    | none => (c, none)
    | some slot =>
      if ¬ c.validSlot slot then ({ c with slotForSeq := c.slotForSeq.erase seq }, none)
      else
        let c := c.releaseSlot slot true
        ({ c with slotForSeq := c.slotForSeq.erase seq }, none)

def remove (c : Recurrent α) (seq beginIndex endIndex : Int) (fails : Nat → Nat → Nat → Bool) :
    Recurrent α × Option CacheError :=
  if 0 < beginIndex ∧ endIndex ≠ maxInt32 then c.removeMiddle seq beginIndex endIndex fails
  else if 0 < beginIndex then c.removeTail seq beginIndex endIndex fails
  else c.removeAll seq beginIndex endIndex fails

end Recurrent

end Xdragon.Kvcache
