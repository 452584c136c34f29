import Xdragon.Lib.Text

/-!
# Stop strings

The helpers of the runners that look for stop strings in a response, and the part of `computeBatch`
that handles a sampled token: the pieces that may be the start of a stop string are held back, the
others are sent. Strings are their bytes.
-/

namespace Xdragon.Runner

open Xdragon.Lib

/-! ## The helpers -/

/-- `strings.Contains`. -/
def contains (s sub : Bytes) : Bool := (firstIndex [sub] s).isSome

/-- `strings.Index`. -/
def index (s sub : Bytes) : Option Nat := firstIndex [sub] s

/-- The first stop in the order of the list that occurs in the sequence. -/
def findStop (sequence : Bytes) (stops : List Bytes) : Option Bytes := stops.find? (contains sequence)

def containsStopSuffix (sequence : Bytes) (stops : List Bytes) : Bool :=
  stops.any fun stop => (List.range' 1 stop.length).any fun i => (stop.take i).isSuffixOf sequence

/-- Splits the text back into pieces of the given lengths. -/
def splitPieces (joined : Bytes) : Nat → List Nat → List Bytes × Bool
  | _, [] => ([], false)
  | start, length :: lengths =>
    if start ≥ joined.length then ([], false)
    else if start + length > joined.length then
      -- the next round finds `start` at the end and breaks
      ([joined.drop start], true)
    else
      let (pieces, truncated) := splitPieces joined (start + length) lengths
      ((joined.drop start).take length :: pieces, truncated)

/-- The pieces without the stop and what follows it, and whether a piece was cut. -/
def truncateStop (pieces : List Bytes) (stop : Bytes) : List Bytes × Bool :=
  match index pieces.flatten stop with
  | none => (pieces, false)
  | some i => splitPieces (pieces.flatten.take i) 0 (pieces.map (·.length))

/-- The loop of `IncompleteUnicode` over the bytes from the end, with the number of the round. -/
def incompleteFrom : Nat → Bytes → Bool
  | _, [] => false
  | i, c :: cs =>
    if i ≥ 5 then false
    else if c &&& 0xc0 = 0x80 then incompleteFrom (i + 1) cs
    else if c &&& 0xe0 = 0xc0 then i < 2
    else if c &&& 0xf0 = 0xe0 then i < 3
    else if c &&& 0xf8 = 0xf0 then i < 4
    else false

def incompleteUnicode (token : Bytes) : Bool := incompleteFrom 1 token.reverse

/-! ## The response of a sequence -/

/-- Drops bytes from the end until the text is valid. -/
def trimInvalid : Nat → Bytes → Bytes
  | 0, b => b
  | n + 1, b => if validString b then b else trimInvalid n b.dropLast

/-- The part of `Sequence` that the response is made of. `sent` is what `flushPending` has sent. -/
structure Response where
  pending : List Bytes
  sent : Bytes
  numPredicted : Nat
  removed : Bool

def Response.start : Response := ⟨[], [], 0, false⟩

def Response.flushPending (r : Response) : Response :=
  let joined := r.pending.flatten
  { r with pending := [], sent := r.sent ++ trimInvalid joined.length joined }

/-- `removeSequence`. -/
def Response.remove (r : Response) : Response := { r.flushPending with removed := true }

/-- What `computeBatch` does with a piece that is not the end of the sequence. -/
def Response.piece (stops : List Bytes) (numPredict : Int) (r : Response) (piece : Bytes) : Response :=
  let r := { r with pending := r.pending ++ [piece], numPredicted := r.numPredicted + 1 }
  if numPredict > 0 ∧ r.numPredicted ≥ numPredict then r.remove
  else
    let sequence := r.pending.flatten
    match findStop sequence stops with
    | some stop => { r with pending := (truncateStop r.pending stop).1 }.remove
    | none =>
      if containsStopSuffix sequence stops then r
      else if incompleteUnicode sequence then r
      else r.flushPending

/-- The response to pieces that are followed by the end of the sequence, and the pieces that were
sampled before the sequence was removed. -/
def Response.pieces (stops : List Bytes) (numPredict : Int) : Response → List Bytes → Response × List Bytes
  | r, [] => (r.remove, [])
  | r, p :: ps =>
    let r := r.piece stops numPredict p
    if r.removed then (r, [p])
    else
      let (r, sampled) := Response.pieces stops numPredict r ps
      (r, p :: sampled)

/-! ## What the helpers do -/

theorem contains_iff {s sub : Bytes} : contains s sub = true ↔ ∃ i ≤ s.length, sub <+: s.drop i := by
  unfold contains
  rw [← Option.ne_none_iff_isSome, ne_eq, firstIndex_eq_none]
  simp

theorem flatten_splitPieces (joined : Bytes) (start : Nat) (pieces : List Bytes)
    (h : joined.drop start <+: pieces.flatten) :
    (splitPieces joined start (pieces.map (·.length))).1.flatten = joined.drop start := by
  induction pieces generalizing start with
  | nil =>
    rw [List.flatten_nil, List.prefix_nil] at h
    simp [splitPieces, h]
  | cons p ps ih =>
    rw [List.flatten_cons] at h
    rw [List.map_cons, splitPieces]
    split_ifs with hend hcut
    · rw [List.drop_eq_nil_of_le hend]
      rfl
    · simp
    · -- the piece is the next part of the text
      have hlen : p.length ≤ (joined.drop start).length := by
        rw [List.length_drop]
        omega
      have hp : (joined.drop start).take p.length = p := by
        obtain ⟨t, ht⟩ := h
        have := congrArg (List.take p.length) ht
        rwa [List.take_append_of_le_length hlen, List.take_left] at this
      have hrest : joined.drop (start + p.length) <+: ps.flatten := by
        rw [← List.drop_drop]
        rw [← List.take_append_drop p.length (joined.drop start), hp, List.prefix_append_right_inj] at h
        exact h
      simp only [List.flatten_cons, ih _ hrest]
      rw [← List.drop_drop, List.take_append_drop]

/-- The text before the stop is left. -/
theorem flatten_truncateStop {pieces : List Bytes} {stop : Bytes} {i : Nat} (h : index pieces.flatten stop = some i) :
    (truncateStop pieces stop).1.flatten = pieces.flatten.take i := by
  unfold truncateStop
  rw [h]
  apply flatten_splitPieces
  exact List.take_prefix i pieces.flatten

theorem trimInvalid_eq {b : Bytes} (h : validString b = true) (n : Nat) : trimInvalid n b = b := by
  cases n <;> simp [trimInvalid, h]

theorem Response.flushPending_sent {r : Response} (h : validString r.pending.flatten = true) :
    r.flushPending.sent = r.sent ++ r.pending.flatten := by
  simp [flushPending, trimInvalid_eq h]

end Xdragon.Runner
