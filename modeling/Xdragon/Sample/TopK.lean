import Mathlib.Order.Lattice
import Xdragon.Lib.Heap

/-!
# The tokens with the greatest values

`topK` of `sample/transforms.go`.
-/

namespace Xdragon.Sample

open Xdragon.Lib

structure Token (V : Type) where
  id : Int
  value : V
deriving DecidableEq

variable {V : Type} [LinearOrder V]

/-- `tokenHeap.Less`. -/
def less (a b : Token V) : Bool := decide (a.value < b.value)

theorem less_weak : WeakOrder (less (V := V)) where
  asymm x y h := by
    simp only [less, decide_eq_true_eq, decide_eq_false_iff_not, not_lt] at h ⊢
    exact le_of_lt h
  trans_not x y z hxy hyz := by
    simp only [less, decide_eq_false_iff_not, not_lt] at hxy hyz ⊢
    exact le_trans hyz hxy

/-- Descending by value. -/
def Sorted (ts : List (Token V)) : Prop := ts.Pairwise fun a b => b.value ≤ a.value

/-- `container/heap` on a `tokenHeap`, and `slices.SortFunc` with the comparison of `topK`. Neither says how tokens of one
value come out. -/
structure Library (V : Type) [LinearOrder V] where
  heap : Heap (Token V) less
  init : List (Token V) → heap.State
  init_perm (ts : List (Token V)) : (heap.items (init ts)).Perm ts
  sortFunc : List (Token V) → List (Token V)
  sort_perm (ts : List (Token V)) : (sortFunc ts).Perm ts
  sorted (ts : List (Token V)) : Sorted (sortFunc ts)

namespace Library

/-- A heap that is a list, and a stable sort. -/
def listed : Library V where
  heap := listHeap less
  init ts := ts
  init_perm _ := .refl _
  sortFunc ts := ts.mergeSort fun a b => decide (b.value ≤ a.value)
  sort_perm ts := List.mergeSort_perm ts _
  sorted ts := by
    have htrans : ∀ a b c : Token V, decide (b.value ≤ a.value) = true → decide (c.value ≤ b.value) = true →
        decide (c.value ≤ a.value) = true := by
      intro a b c hab hbc
      exact decide_eq_true (le_trans (of_decide_eq_true hbc) (of_decide_eq_true hab))
    have htotal : ∀ a b : Token V, (decide (b.value ≤ a.value) || decide (a.value ≤ b.value)) = true := by
      intro a b
      simpa using le_total b.value a.value
    exact (List.pairwise_mergeSort htrans htotal ts).imp of_decide_eq_true

variable (lib : Library V)

/-- What the loop makes of one more token. `h[0]` is what `heap.Pop` gives, and there is none in an empty heap. -/
def offer (h : lib.heap.State) (t : Token V) : Option lib.heap.State :=
  (lib.heap.pop h).map fun root => if root.1.value < t.value then lib.heap.push t root.2 else h

/-- The last loop, which fills the result from its end. -/
def drain : Nat → lib.heap.State → List (Token V) → Option (List (Token V))
  | 0, _, result => some result
  | i + 1, h, result => (lib.heap.pop h).bind fun root => drain i root.2 (root.1 :: result)

/-- The tokens that `topK` returns, and none where an index is out of range. -/
def topK (ts : List (Token V)) (k : Int) : Option (List (Token V)) :=
  if ts.length ≤ k ∨ k ≤ 0 then some (lib.sortFunc ts)
  else ((ts.drop k.toNat).foldlM lib.offer (lib.init (ts.take k.toNat))).bind fun h => lib.drain k.toNat h []

variable {lib}

theorem exists_pop {h : lib.heap.State} (hpos : 0 < (lib.heap.items h).length) :
    ∃ root h', lib.heap.pop h = some (root, h') ∧ (lib.heap.items h).Perm (root :: lib.heap.items h') ∧
      ∀ t ∈ lib.heap.items h', root.value ≤ t.value := by
  cases hpop : lib.heap.pop h with
  | none =>
    rw [lib.heap.pop_eq_none.mp hpop] at hpos
    exact absurd hpos (Nat.lt_irrefl 0)
  | some r =>
    refine ⟨r.1, r.2, rfl, lib.heap.pop_perm hpop, ?_⟩
    intro t ht
    have hleast := lib.heap.pop_least less_weak hpop t ht
    rwa [less, decide_eq_false_iff_not, not_lt] at hleast

/-- A heap of `k` tokens holds greatest ones of those seen. -/
def Keeps (k : Nat) (seen : List (Token V)) (h : lib.heap.State) : Prop :=
  (lib.heap.items h).length = k ∧ ∃ out, seen.Perm (lib.heap.items h ++ out) ∧
    ∀ t ∈ out, ∀ r ∈ lib.heap.items h, t.value ≤ r.value

theorem Keeps.offer {k : Nat} {seen : List (Token V)} {h : lib.heap.State} (hk : 0 < k) (hkeeps : Keeps k seen h)
    (t : Token V) : ∃ h', lib.offer h t = some h' ∧ Keeps k (t :: seen) h' := by
  obtain ⟨hlen, out, hseen, hout⟩ := hkeeps
  obtain ⟨root, h', hpop, hperm, hleast⟩ := exists_pop (hlen ▸ hk)
  rw [Library.offer, hpop, Option.map_some]
  by_cases hless : root.value < t.value
  · rw [if_pos hless]
    have hpush := lib.heap.items_push t h'
    refine ⟨_, rfl, ?_, root :: out, ?_, ?_⟩
    · rw [hpush.length_eq, ← hlen, hperm.length_eq, List.length_cons, List.length_cons]
    · have hroot : seen.Perm (lib.heap.items h' ++ root :: out) :=
        (hseen.trans (hperm.append_right out)).trans List.perm_middle.symm
      exact (hroot.cons t).trans (hpush.symm.append_right _)
    · intro a ha r hr
      rcases List.mem_cons.mp (hpush.mem_iff.mp hr) with rfl | hmem
      · obtain rfl | ha := List.mem_cons.mp ha
        · exact le_of_lt hless
        · exact le_trans (hout a ha root (hperm.mem_iff.mpr (List.mem_cons_self ..))) (le_of_lt hless)
      · obtain rfl | ha := List.mem_cons.mp ha
        · exact hleast r hmem
        · exact hout a ha r (hperm.mem_iff.mpr (List.mem_cons_of_mem _ hmem))
  · rw [if_neg hless]
    refine ⟨h, rfl, hlen, t :: out, (hseen.cons t).trans List.perm_middle.symm, ?_⟩
    intro a ha r hr
    obtain rfl | ha := List.mem_cons.mp ha
    · obtain rfl | hr := List.mem_cons.mp (hperm.mem_iff.mp hr)
      · exact not_lt.mp hless
      · exact le_trans (not_lt.mp hless) (hleast r hr)
    · exact hout a ha r hr

theorem Keeps.offers {k : Nat} {seen : List (Token V)} {h : lib.heap.State} (hk : 0 < k) (hkeeps : Keeps k seen h)
    (ts : List (Token V)) : ∃ h', ts.foldlM lib.offer h = some h' ∧ Keeps k (seen ++ ts) h' := by
  induction ts generalizing seen h with
  | nil => exact ⟨h, rfl, by rwa [List.append_nil]⟩
  | cons t ts ih =>
    obtain ⟨h₁, hoffer, hkeeps₁⟩ := hkeeps.offer hk t
    obtain ⟨h', hoffers, hlen, out, hperm, hout⟩ := ih hkeeps₁
    refine ⟨h', ?_, hlen, out, List.perm_middle.trans hperm, hout⟩
    rw [List.foldlM_cons, hoffer]
    exact hoffers

theorem drain_sorted {n : Nat} {h : lib.heap.State} {result : List (Token V)} (hlen : (lib.heap.items h).length = n)
    (hsorted : Sorted result) (hbelow : ∀ r ∈ result, ∀ t ∈ lib.heap.items h, r.value ≤ t.value) :
    ∃ all, lib.drain n h result = some all ∧ all.Perm (lib.heap.items h ++ result) ∧ Sorted all := by
  induction n generalizing h result with
  | zero => exact ⟨result, rfl, by rw [List.length_eq_zero_iff.mp hlen, List.nil_append], hsorted⟩
  | succ n ih =>
    obtain ⟨root, h', hpop, hperm, hleast⟩ := exists_pop (h := h) (by omega)
    have hlen' : (lib.heap.items h').length = n := Nat.succ.inj (hperm.length_eq.symm.trans hlen)
    have hroot : ∀ r ∈ result, r.value ≤ root.value :=
      fun r hr => hbelow r hr root (hperm.mem_iff.mpr (List.mem_cons_self ..))
    have hbelow' : ∀ r ∈ root :: result, ∀ t ∈ lib.heap.items h', r.value ≤ t.value :=
      List.forall_mem_cons.mpr ⟨hleast, fun r hr t ht => hbelow r hr t (hperm.mem_iff.mpr (List.mem_cons_of_mem _ ht))⟩
    obtain ⟨all, hdrain, hall, hsorted'⟩ := ih hlen' (List.pairwise_cons.mpr ⟨hroot, hsorted⟩) hbelow'
    refine ⟨all, ?_, hall.trans (List.perm_middle.trans (hperm.symm.append_right result)), hsorted'⟩
    rw [drain, hpop]
    exact hdrain

theorem topK_greatest (ts : List (Token V)) (k : Int) : ∃ result rest, lib.topK ts k = some result ∧ Sorted result ∧
    result.length = (if 0 < k ∧ k < ts.length then k.toNat else ts.length) ∧ ts.Perm (result ++ rest) ∧
    ∀ t ∈ rest, ∀ r ∈ result, t.value ≤ r.value := by
  rw [topK]
  by_cases hk : ts.length ≤ k ∨ k ≤ 0
  · refine ⟨lib.sortFunc ts, [], if_pos hk, lib.sorted ts, ?_, ?_, List.forall_mem_nil _⟩
    · rw [if_neg (by omega), (lib.sort_perm ts).length_eq]
    · rw [List.append_nil]
      exact (lib.sort_perm ts).symm
  · rw [if_neg hk, if_pos (by omega)]
    have hinit : Keeps k.toNat (ts.take k.toNat) (lib.init (ts.take k.toNat)) := by
      refine ⟨?_, [], ?_, List.forall_mem_nil _⟩
      · rw [(lib.init_perm _).length_eq, List.length_take]
        omega
      · rw [List.append_nil]
        exact (lib.init_perm _).symm
    obtain ⟨h, hoffers, hlen, out, hperm, hout⟩ := hinit.offers (by omega) (ts.drop k.toNat)
    obtain ⟨result, hdrain, hresult, hsorted⟩ := drain_sorted hlen List.Pairwise.nil (List.forall_mem_nil _)
    rw [List.append_nil] at hresult
    rw [List.take_append_drop] at hperm
    refine ⟨result, out, ?_, hsorted, hresult.length_eq.trans hlen, hperm.trans (hresult.symm.append_right out), ?_⟩
    · rw [hoffers]
      exact hdrain
    · intro t ht r hr
      exact hout t ht r (hresult.mem_iff.mp hr)

example : listed.topK [⟨0, 1⟩, ⟨1, 3⟩, ⟨2, 2⟩] 2 = some [⟨1, 3⟩, (⟨2, 2⟩ : Token Nat)] := by decide

end Library

end Xdragon.Sample
