import Mathlib.Data.List.Induction
import Xdragon.Lib.File

/-!
# Many writes to a file

Writes that have no byte in common leave the same file in any order: each of them is found at its place.
-/

namespace Xdragon.Lib

/-- The file after some writes, each at its offset. -/
def writeAll (f : Bytes) (ws : List (Nat × Bytes)) : Bytes := ws.foldl (fun f w => writeAt f w.1 w.2) f

/-- Two writes have no byte in common. -/
def Separate (w w' : Nat × Bytes) : Prop :=
  w.2 = [] ∨ w'.2 = [] ∨ w.1 + w.2.length ≤ w'.1 ∨ w'.1 + w'.2.length ≤ w.1

theorem Separate.symm {w w' : Nat × Bytes} (h : Separate w w') : Separate w' w := by
  unfold Separate at h ⊢
  tauto

theorem writeAll_append (f : Bytes) (ws : List (Nat × Bytes)) (w : Nat × Bytes) :
    writeAll f (ws ++ [w]) = writeAt (writeAll f ws) w.1 w.2 := by
  unfold writeAll
  rw [List.foldl_append]
  rfl

theorem length_le_writeAll (f : Bytes) (ws : List (Nat × Bytes)) : f.length ≤ (writeAll f ws).length := by
  induction ws using List.reverseRecOn with
  | nil => exact Nat.le_refl _
  | append_singleton ws w ih =>
    rw [writeAll_append]
    exact Nat.le_trans ih (length_le_writeAt _ _ _)

theorem take_writeAt_le {f : Bytes} {n off : Nat} (p : Bytes) (hn : n ≤ f.length) (hoff : n ≤ off) :
    (writeAt f off p).take n = f.take n := by
  unfold writeAt
  split
  · rfl
  · have hle : n ≤ (f.take off).length := by
      rw [List.length_take]
      omega
    rw [List.append_assoc, List.append_assoc, List.take_append_of_le_length hle, List.take_take, Nat.min_eq_left hoff]

/-- What is in front of all writes stays. -/
theorem take_writeAll {f : Bytes} {ws : List (Nat × Bytes)} (h : ∀ w ∈ ws, f.length ≤ w.1) :
    (writeAll f ws).take f.length = f := by
  induction ws using List.reverseRecOn with
  | nil => exact List.take_length
  | append_singleton ws w ih =>
    rw [writeAll_append, take_writeAt_le _ (length_le_writeAll f ws) (h w (by simp))]
    exact ih fun w hw => h w (List.mem_append_left _ hw)

/-- Each write is found at its place. -/
theorem getElem?_writeAll {f : Bytes} {ws : List (Nat × Bytes)} (hsep : ws.Pairwise Separate) {w : Nat × Bytes}
    (hw : w ∈ ws) {i : Nat} (hi : i < w.2.length) : (writeAll f ws)[w.1 + i]? = w.2[i]? := by
  induction ws using List.reverseRecOn with
  | nil => cases hw
  | append_singleton ws u ih =>
    rw [List.pairwise_append] at hsep
    rw [writeAll_append]
    rcases List.mem_append.mp hw with hmem | hmem
    · have hfound := ih hsep.1 hmem
      have hlen : w.1 + i < (writeAll f ws).length := by
        rw [List.getElem?_eq_getElem hi] at hfound
        exact (List.getElem?_eq_some_iff.mp hfound).1
      rw [← hfound]
      by_cases hu : u.2 = []
      · rw [hu, writeAt_nil]
      · refine getElem?_writeAt_not_mem hlen ?_
        rcases hsep.2.2 w hmem u (List.mem_singleton_self u) with h | h | h | h
        · rw [h] at hi
          cases hi
        · exact absurd h hu
        · omega
        · omega
    · obtain rfl := List.mem_singleton.mp hmem
      rw [getElem?_writeAt_mem (Nat.le_add_right _ _) (by omega), Nat.add_sub_cancel_left]

/-- The file ends where it did, or with one of the writes. -/
theorem length_writeAll (f : Bytes) (ws : List (Nat × Bytes)) :
    (writeAll f ws).length = f.length ∨ ∃ w ∈ ws, w.2 ≠ [] ∧ (writeAll f ws).length = w.1 + w.2.length := by
  induction ws using List.reverseRecOn with
  | nil => exact .inl rfl
  | append_singleton ws w ih =>
    have hold : (writeAll f ws).length = f.length ∨
        ∃ u ∈ ws ++ [w], u.2 ≠ [] ∧ (writeAll f ws).length = u.1 + u.2.length := by
      refine ih.imp_right ?_
      rintro ⟨u, hu, hne, hlen⟩
      exact ⟨u, List.mem_append_left _ hu, hne, hlen⟩
    rw [writeAll_append]
    by_cases hw : w.2 = []
    · rwa [hw, writeAt_nil]
    · rw [length_writeAt hw]
      rcases Nat.le_total (w.1 + w.2.length) (writeAll f ws).length with hle | hle
      · rwa [Nat.max_eq_left hle]
      · rw [Nat.max_eq_right hle]
        exact .inr ⟨w, by simp, hw, rfl⟩

/-- Behind the first bytes, what no write gave is zero. -/
theorem getElem?_writeAll_hole {f : Bytes} {ws : List (Nat × Bytes)} {x : Nat} {b : UInt8} (hx : f.length ≤ x)
    (hb : (writeAll f ws)[x]? = some b) (hout : ∀ w ∈ ws, x < w.1 ∨ w.1 + w.2.length ≤ x) : b = 0 := by
  induction ws using List.reverseRecOn with
  | nil =>
    rw [writeAll, List.foldl_nil, List.getElem?_eq_none hx] at hb
    cases hb
  | append_singleton ws w ih =>
    rw [writeAll_append] at hb
    have hw := hout w (by simp)
    by_cases hlt : x < (writeAll f ws).length
    · rw [getElem?_writeAt_not_mem hlt hw] at hb
      exact ih hb fun u hu => hout u (List.mem_append_left _ hu)
    · exact getElem?_writeAt_gap (by omega) hw hb

end Xdragon.Lib
