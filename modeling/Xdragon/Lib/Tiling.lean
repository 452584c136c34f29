import Mathlib.Algebra.Order.BigOperators.Group.List
import Mathlib.Data.Int.ConditionallyCompleteOrder
import Mathlib.Data.Int.Interval
import Mathlib.Tactic.Linarith

/-!
# Ranges that fill an interval

Ranges `[a, b)` inside of `[0, n)` that do not overlap are not longer than `n` together. When they
are as long as `n`, every place of `[0, n)` is in one of them.
-/

namespace Xdragon.Lib

variable {α : Type*}

/-- Terms that are bounded one by one, and whose sums are the same, are the same one by one. -/
theorem eq_of_sum_map_eq {f g : α → Int} {l : List α} (hle : ∀ x ∈ l, f x ≤ g x)
    (hsum : (l.map f).sum = (l.map g).sum) : ∀ x ∈ l, f x = g x := by
  induction l with
  | nil => simp
  | cons y l ih =>
    have hy := hle y (by simp)
    have hl : (l.map f).sum ≤ (l.map g).sum := List.sum_le_sum fun x hx => hle x (by simp [hx])
    simp only [List.map_cons, List.sum_cons] at hsum
    intro x hx
    obtain rfl | hx := List.mem_cons.mp hx
    · omega
    · exact ih (fun x hx => hle x (by simp [hx])) (by omega) x hx

/-- The places that the ranges take up. -/
noncomputable def places (start stop : α → Int) (l : List α) : Finset Int :=
  l.foldr (fun x s => Finset.Ico (start x) (stop x) ∪ s) ∅

theorem mem_places {start stop : α → Int} {l : List α} {i : Int} :
    i ∈ places start stop l ↔ ∃ x ∈ l, start x ≤ i ∧ i < stop x := by
  induction l with
  | nil => simp [places]
  | cons y l ih =>
    have hcons : places start stop (y :: l) = Finset.Ico (start y) (stop y) ∪ places start stop l := rfl
    simp [hcons, ih]

theorem card_places {start stop : α → Int} {l : List α} (hle : ∀ x ∈ l, start x ≤ stop x)
    (hd : l.Pairwise fun x y => stop x ≤ start y ∨ stop y ≤ start x) :
    ((places start stop l).card : Int) = (l.map fun x => stop x - start x).sum := by
  induction l with
  | nil => simp [places]
  | cons y l ih =>
    obtain ⟨hy, hl⟩ := List.pairwise_cons.mp hd
    have hdisj : Disjoint (Finset.Ico (start y) (stop y)) (places start stop l) := by
      rw [Finset.disjoint_left]
      intro i hi hmem
      obtain ⟨x, hx, h1, h2⟩ := mem_places.mp hmem
      have h3 := Finset.mem_Ico.mp hi
      have := hy x hx
      omega
    have hcons : places start stop (y :: l) = Finset.Ico (start y) (stop y) ∪ places start stop l := rfl
    have hylen := hle y (by simp)
    rw [hcons, Finset.card_union_of_disjoint hdisj, Int.card_Ico, Nat.cast_add,
      ih (fun x hx => hle x (by simp [hx])) hl, List.map_cons, List.sum_cons]
    omega

section
variable (start stop : α → Int) {l : List α} {n : Int} (hn : 0 ≤ n)
  (hin : ∀ x ∈ l, 0 ≤ start x ∧ start x ≤ stop x ∧ stop x ≤ n)
  (hd : l.Pairwise fun x y => stop x ≤ start y ∨ stop y ≤ start x)
include hin

theorem places_subset : places start stop l ⊆ Finset.Ico 0 n := by
  intro i hi
  obtain ⟨x, hx, h1, h2⟩ := mem_places.mp hi
  have := hin x hx
  rw [Finset.mem_Ico]
  omega

include hn hd

theorem sum_length_le : (l.map fun x => stop x - start x).sum ≤ n := by
  rw [← card_places (fun x hx => (hin x hx).2.1) hd]
  have := Finset.card_le_card (places_subset start stop hin)
  rw [Int.card_Ico] at this
  omega

theorem exists_mem_of_sum_eq (hsum : (l.map fun x => stop x - start x).sum = n) {i : Int} (h0 : 0 ≤ i) (hi : i < n) :
    ∃ x ∈ l, start x ≤ i ∧ i < stop x := by
  have hcard := card_places (fun x hx => (hin x hx).2.1) hd
  have heq : places start stop l = Finset.Ico 0 n := by
    apply Finset.eq_of_subset_of_card_le (places_subset start stop hin)
    rw [Int.card_Ico]
    omega
  apply mem_places.mp
  rw [heq, Finset.mem_Ico]
  exact ⟨h0, hi⟩

end

end Xdragon.Lib
