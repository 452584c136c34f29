import Xdragon.Kvcache.Causal

/-!
# Checkpoint stores

`kvcache/recurrent_checkpoints.go`, the part about one slot. A recurrent state is modelled by the
inputs that it was computed from: the zero state is the empty list.
-/

namespace Xdragon.Kvcache

inductive StateKind where
  | conv
  | recurrent
deriving DecidableEq

/-- One of the per-layer state buffers. -/
structure Buffer where
  layer : Nat
  kind : StateKind
deriving DecidableEq

/-- `conv` and `recurrent` of the source are one map here. -/
structure CheckpointEntry (α : Type) where
  pos : Int
  tensors : AList (fun _ : Buffer => List α) := ∅

instance {α : Type} : Inhabited (CheckpointEntry α) := ⟨{ pos := -1 }⟩

structure SlotCheckpointStore (α : Type) where
  entries : List (CheckpointEntry α)
  size : Nat := 0
  next : Nat := 0
  lastPos : Int := -1

structure CheckpointRestore where
  slot : Nat
  idx : Nat
  pos : Int
deriving Inhabited

def newSlotCheckpointStore (α : Type) (n : Nat) : SlotCheckpointStore α :=
  { entries := List.replicate n { pos := -1 } }

namespace SlotCheckpointStore

variable {α : Type}

def reset (s : SlotCheckpointStore α) : SlotCheckpointStore α :=
  { entries := s.entries.map fun e => { e with pos := -1 } }

def setPos (s : SlotCheckpointStore α) (idx : Nat) (pos : Int) : SlotCheckpointStore α :=
  { s with entries := s.entries.modify idx fun e => { e with pos := pos } }

/-- The ring is full after `len(entries)` records and overwrites the oldest one then. -/
def record (s : SlotCheckpointStore α) (pos : Int) : Option Nat × SlotCheckpointStore α :=
  if s.entries = [] then (none, s)
  else (some s.next, { s.setPos s.next pos with
    next := (s.next + 1) % s.entries.length
    size := if s.size < s.entries.length then s.size + 1 else s.size
    lastPos := pos })

def betterIndex (targetPos : Int) (best : Option (Nat × Int)) (e : CheckpointEntry α × Nat) :
    Option (Nat × Int) :=
  if e.1.pos < 0 ∨ targetPos ≤ e.1.pos then best
  else match best with
    | none => some (e.2, e.1.pos)
    | some (_, bestPos) => if bestPos < e.1.pos then some (e.2, e.1.pos) else best

/-- The checkpoint closest to the target, with its position. -/
def bestIndex (s : SlotCheckpointStore α) (targetPos : Int) : Option (Nat × Int) :=
  s.entries.zipIdx.foldl (betterIndex targetPos) none

/-- The index of the lowest position, as the loops of `pruneAfter` and `shiftRange` find it. -/
def minIdx (entries : List (CheckpointEntry α)) : Nat :=
  (entries.zipIdx.foldl (fun (best : Int × Nat) e =>
    if 0 ≤ e.1.pos ∧ e.1.pos < best.1 then (e.1.pos, e.2) else best) (maxInt32, 0)).2

/-- Counts the entries again after some of them changed. -/
def recount (entries : List (CheckpointEntry α)) (lastPos : Int) : SlotCheckpointStore α :=
  let size := entries.countP fun e => 0 ≤ e.pos
  if size = 0 then { entries := entries }
  else
    { entries := entries
      size := size
      next := (entries.findIdx? fun e => e.pos < 0).getD (minIdx entries)
      lastPos := lastPos }

theorem recount_entries (entries : List (CheckpointEntry α)) (lastPos : Int) :
    (recount entries lastPos).entries = entries := by
  unfold recount
  dsimp only
  split <;> rfl

def pruneAfter (s : SlotCheckpointStore α) (pos : Int) : SlotCheckpointStore α :=
  recount (s.entries.map fun e => if pos < e.pos then { e with pos := -1 } else e) pos

def shiftEntry (beginIndex endIndex : Int) (e : CheckpointEntry α) : CheckpointEntry α :=
  if e.pos < 0 then e
  else if beginIndex ≤ e.pos ∧ e.pos < endIndex then { e with pos := -1 }
  else if endIndex ≤ e.pos then { e with pos := e.pos + (beginIndex - endIndex) }
  else e

def shiftRange (s : SlotCheckpointStore α) (beginIndex endIndex : Int) : SlotCheckpointStore α :=
  let entries := s.entries.map (shiftEntry beginIndex endIndex)
  recount entries (entries.foldl (fun maxPos e => max maxPos e.pos) (-1))

/-- `ensureCheckpointConv` and `ensureCheckpointRecurrent`: a zero tensor if there is none. -/
def ensureTensor (e : CheckpointEntry α) (b : Buffer) : CheckpointEntry α :=
  match e.tensors.lookup b with
  | some _ => e
  | none => { e with tensors := e.tensors.insert b [] }

def setTensor (s : SlotCheckpointStore α) (idx : Nat) (b : Buffer) (state : List α) :
    SlotCheckpointStore α :=
  { s with entries := s.entries.modify idx fun e => { e with tensors := e.tensors.insert b state } }

/-- One entry of `copyCheckpoints`: tensors that only the target has stay. -/
def copyEntry (src dst : CheckpointEntry α) : CheckpointEntry α :=
  { pos := src.pos
    tensors := src.tensors.entries.foldl (fun tensors e => tensors.insert e.1 e.2) dst.tensors }

def copyFrom (dst src : SlotCheckpointStore α) : SlotCheckpointStore α :=
  { entries := dst.entries.mapIdx fun i e => (src.entries[i]?).elim e fun s => copyEntry s e
    size := src.size
    next := src.next
    lastPos := src.lastPos }

end SlotCheckpointStore

end Xdragon.Kvcache
