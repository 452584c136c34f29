import Xdragon.Lib.Run
import Xdragon.Lib.Window
import Xdragon.Mlx.Cache

/-!
# The rotating cache of a layer

`RotatingKVCache` of `x/mlxrunner/cache/cache.go`, for attention to a sliding window. One token at a time is written in a ring,
and several tokens are put behind the rows in front of the ring pointer. `none` is a panic.
-/

open Xdragon.Lib

namespace Xdragon.Mlx

universe u

section
variable {ρ : Type u}

/-- `Slice(start, stop)`. A `stop` of 0 is the end of the axis, and nothing lies outside of the axis. -/
def sliceIn (rows : List ρ) (start stop : Int) : Option (List ρ) :=
  let stop := if stop = 0 then (rows.length : Int) else stop
  if 0 ≤ start ∧ start ≤ stop ∧ stop ≤ rows.length then some ((rows.take stop.toNat).drop start.toNat) else none

/-- A slice that is made under a condition. -/
def sliceWhen (p : Prop) [Decidable p] (rows : List ρ) (start stop : Int) : Option (List ρ) :=
  if p then sliceIn rows start stop else some rows

def sliceUpdateIn (rows other : List ρ) (start stop : Int) : Option (List ρ) :=
  let stop := if stop = 0 then (rows.length : Int) else stop
  if 0 ≤ start ∧ start + other.length = stop ∧ stop ≤ rows.length then
    some (rows.take start.toNat ++ other ++ rows.drop stop.toNat)
  else none

def zeros (zero : ρ) (size : Int) : Option (List ρ) := if 0 ≤ size then some (List.replicate size.toNat zero) else none

end

structure RotatingKVCache (κ ν : Type u) extends KVCache κ ν where
  maxSize : Nat
  idx : Int := 0

namespace RotatingKVCache

variable {κ ν : Type u}

def newRotatingKVCache (maxSize : Nat) : RotatingKVCache κ ν := { KVCache.newKVCache with maxSize := maxSize }

/-- The two arrays and the ring pointer, while an update is under way. -/
structure Arrays (κ ν : Type u) where
  keys : List κ
  values : List ν
  idx : Int

/-- Several tokens. The rows in front of the ring pointer are kept, without the oldest ones if they are too many. -/
def concat (c : RotatingKVCache κ ν) (keys : List κ) (values : List ν) : Option (RotatingKVCache κ ν × List κ × List ν) :=
  match c.keys with
  | none => some ({ c with keys := some keys, values := some values, offset := c.offset + keys.length, idx := keys.length }, keys, values)
  | some oldKeys => do
    let oldValues := c.values.getD []
    let keptKeys ← sliceWhen (c.idx < oldKeys.length) oldKeys 0 c.idx
    let keptValues ← sliceWhen (c.idx < oldKeys.length) oldValues 0 c.idx
    -- the window takes `maxSize - 1` rows beside the first new one
    let trim := c.idx - c.maxSize + 1
    let keptKeys ← sliceWhen (0 < trim) keptKeys trim keptKeys.length
    let keptValues ← sliceWhen (0 < trim) keptValues trim keptValues.length
    let newK := keptKeys ++ keys
    let newV := keptValues ++ values
    return ({ c with keys := some newK, values := some newV, offset := c.offset + keys.length, idx := newK.length }, newK, newV)

/-- The arrays of `update`, grown if they are not yet at their maximum. -/
def grow (zeroKey : κ) (zeroValue : ν) (c : RotatingKVCache κ ν) : Option (Arrays κ ν) :=
  let prev := c.offset
  let newSize : Int := min c.step (c.maxSize - prev)
  match c.keys with
  | none => do return ⟨← zeros zeroKey newSize, ← zeros zeroValue newSize, prev⟩
  | some keys =>
    let values := c.values.getD []
    if keys.length ≤ prev ∧ keys.length < c.maxSize then do
      return ⟨keys ++ (← zeros zeroKey newSize), values ++ (← zeros zeroValue newSize), prev⟩
    else some ⟨keys, values, c.idx⟩

/-- The arrays without their oldest rows, so that they are no longer than the window. -/
def trimToMax (maxSize : Nat) (a : Arrays κ ν) : Option (Arrays κ ν) :=
  let trim : Int := a.keys.length - maxSize
  if 0 < trim then do
    let keys ← sliceIn a.keys trim a.keys.length
    let values ← sliceIn a.values trim a.values.length
    return ⟨keys, values, maxSize⟩
  else some a

/-- One token, which is written at the ring pointer. -/
def update (zeroKey : κ) (zeroValue : ν) (c : RotatingKVCache κ ν) (keys : List κ) (values : List ν) :
    Option (RotatingKVCache κ ν × List κ × List ν) := do
  let L := keys.length
  let a ← (grow zeroKey zeroValue c).bind (trimToMax c.maxSize)
  let idx := if c.maxSize ≤ a.idx then 0 else a.idx
  let newKeys ← sliceUpdateIn a.keys keys idx (idx + L)
  let newValues ← sliceUpdateIn a.values values idx (idx + L)
  let offset := c.offset + L
  let validLen := min offset c.maxSize
  return ({ c with keys := some newKeys, values := some newValues, offset := offset, idx := idx + L },
    ← sliceIn newKeys 0 validLen, ← sliceIn newValues 0 validLen)

/-- `Update`, with the cache and the arrays that it returns. -/
def Update (zeroKey : κ) (zeroValue : ν) (c : RotatingKVCache κ ν) (keys : List κ) (values : List ν) :
    Option (RotatingKVCache κ ν × List κ × List ν) :=
  if 1 < keys.length then c.concat keys values else c.update zeroKey zeroValue keys values

/-- `Trim`, with the number of tokens that it dropped. -/
def trim (c : RotatingKVCache κ ν) (n : Nat) : RotatingKVCache κ ν × Nat :=
  let n := min c.offset n
  ({ c with offset := c.offset - n, idx := c.idx - n }, n)

end RotatingKVCache

end Xdragon.Mlx
