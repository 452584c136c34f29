import Mathlib.Data.List.Basic

/-!
# Shards

Work on a list that is cut into shards of one size, each of which a worker of its own puts into its slot.
-/

namespace Xdragon.Lib

variable {α β : Type*}

/-- The part of a worker. -/
def shard (per : Nat) (xs : List α) (i : Nat) : List α := (xs.drop (i * per)).take per

theorem take_shards (per : Nat) (xs : List α) (n : Nat) : (List.range n).flatMap (shard per xs) = xs.take (n * per) := by
  induction n with
  | zero => rw [Nat.zero_mul, List.take_zero]; rfl
  | succ n ih =>
    rw [List.range_succ, List.flatMap_append, ih, List.flatMap_singleton, shard, Nat.succ_mul, List.take_add]

theorem flatMap_shards {per n : Nat} {xs : List α} (h : xs.length ≤ n * per) : (List.range n).flatMap (shard per xs) = xs := by
  rw [take_shards, List.take_of_length_le h]

/-- The slots after the workers have written theirs one after another, where the others keep what was there. -/
def writeSlots (idle : Nat → Bool) (result : Nat → β) (order : List Nat) (slots : List β) : List β :=
  order.foldl (fun slots i => if idle i then slots else slots.set i (result i)) slots

variable {idle : Nat → Bool} {result : Nat → β}

theorem length_writeSlots (order : List Nat) (slots : List β) : (writeSlots idle result order slots).length = slots.length := by
  induction order generalizing slots with
  | nil => rfl
  | cons i order ih =>
    rw [writeSlots, List.foldl_cons, ← writeSlots, ih]
    split_ifs
    · rfl
    · exact List.length_set

theorem getElem?_writeSlots (order : List Nat) (slots : List β) {j : Nat} (hj : j < slots.length) :
    (writeSlots idle result order slots)[j]? = if j ∈ order ∧ idle j = false then some (result j) else slots[j]? := by
  induction order generalizing slots with
  | nil => simp [writeSlots]
  | cons i order ih =>
    have hlen : (if idle i then slots else slots.set i (result i)).length = slots.length := by
      split_ifs
      · rfl
      · exact List.length_set
    rw [writeSlots, List.foldl_cons, ← writeSlots, ih _ (by rw [hlen]; exact hj)]
    by_cases hij : i = j
    · subst hij
      cases hidle : idle i <;> simp [hj]
    · have hset : (if idle i then slots else slots.set i (result i))[j]? = slots[j]? := by
        split_ifs
        · rfl
        · exact List.getElem?_set_ne hij
      rw [hset]
      simp [Ne.symm hij]

/-- Whatever the order of the workers, every slot holds the result of its own. -/
theorem writeSlots_eq {n : Nat} {order : List Nat} (horder : order.Perm (List.range n)) (default : β) :
    writeSlots idle result order (List.replicate n default) =
      (List.range n).map fun i => if idle i then default else result i := by
  apply List.ext_getElem?
  intro j
  by_cases hj : j < n
  · have hmem : j ∈ order := horder.mem_iff.mpr (List.mem_range.mpr hj)
    rw [getElem?_writeSlots order _ (by rwa [List.length_replicate]), List.getElem?_map, List.getElem?_range hj,
      List.getElem?_replicate_of_lt hj]
    cases hidle : idle j <;> simp [hmem, hidle]
  · rw [List.getElem?_eq_none (by rw [length_writeSlots, List.length_replicate]; omega),
      List.getElem?_eq_none (by rw [List.length_map, List.length_range]; omega)]

end Xdragon.Lib
