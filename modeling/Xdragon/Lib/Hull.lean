import Mathlib.Data.Nat.Basic
import Mathlib.Order.Basic

/-!
# Index hulls

The smallest interval of indices around a set of indices, grown one index at a time.
-/

namespace Xdragon.Lib

structure Hull where
  min : Nat
  max : Nat
deriving DecidableEq

namespace Hull

/-- Grows the hull so that it holds `i`. -/
def add (r : Hull) (i : Nat) : Hull := ⟨Nat.min r.min i, Nat.max r.max i⟩

/-- The smallest hull around two. -/
def join (r t : Hull) : Hull := ⟨Nat.min r.min t.min, Nat.max r.max t.max⟩

/-- The indices inside, in order. -/
def indices (r : Hull) : List Nat := List.range' r.min (r.max + 1 - r.min)

def Covers (r : Hull) (i : Nat) : Prop := r.min ≤ i ∧ i ≤ r.max

theorem mem_indices {r : Hull} {i : Nat} : i ∈ r.indices ↔ r.Covers i := by
  simp only [indices, Covers, List.mem_range'_1]
  omega

theorem covers_add (r : Hull) (i : Nat) : (r.add i).Covers i :=
  ⟨Nat.min_le_right _ _, Nat.le_max_right _ _⟩

theorem Covers.add {r : Hull} {j : Nat} (h : r.Covers j) (i : Nat) : (r.add i).Covers j :=
  ⟨(Nat.min_le_left _ _).trans h.1, h.2.trans (Nat.le_max_left _ _)⟩

theorem Covers.join_left {r : Hull} {j : Nat} (h : r.Covers j) (t : Hull) : (r.join t).Covers j :=
  ⟨(Nat.min_le_left _ _).trans h.1, h.2.trans (Nat.le_max_left _ _)⟩

theorem Covers.join_right {t : Hull} {j : Nat} (h : t.Covers j) (r : Hull) : (r.join t).Covers j :=
  ⟨(Nat.min_le_right _ _).trans h.1, h.2.trans (Nat.le_max_right _ _)⟩

/-- Every index of the hull is below `n`. The empty hull ends at 0. -/
def Below (r : Hull) (n : Nat) : Prop := r.max < n ∨ r.max = 0

theorem Below.add {r : Hull} {n i : Nat} (h : r.Below n) (hi : i < n) : (r.add i).Below n := by
  left
  exact Nat.max_lt.mpr ⟨h.elim id (by omega), hi⟩

theorem Below.join {r t : Hull} {n : Nat} (hr : r.Below n) (ht : t.Below n) : (r.join t).Below n := by
  unfold Below at *
  simp only [Hull.join]
  rcases Nat.le_total r.max t.max with h | h
  · rw [show Nat.max r.max t.max = t.max from Nat.max_eq_right h]; exact ht
  · rw [show Nat.max r.max t.max = r.max from Nat.max_eq_left h]; exact hr

end Hull

end Xdragon.Lib
