import Xdragon.Lib.Tags

/-!
# Slices

`s[lo:hi]` of a text, which panics if it is out of range.
-/

namespace Xdragon.Lib

variable {α : Type*}

/-- `s[lo:hi]`, and none for a panic. -/
def slice (s : List α) (lo hi : Nat) : Option (List α) :=
  if lo ≤ hi ∧ hi ≤ s.length then some ((s.drop lo).take (hi - lo)) else none

theorem slice_eq_some {s part : List α} {lo hi : Nat} : slice s lo hi = some part ↔
    ∃ before after, s = before ++ (part ++ after) ∧ lo = before.length ∧ hi = before.length + part.length := by
  unfold slice
  split_ifs with h
  · rw [Option.some.injEq]
    constructor
    · rintro rfl
      refine ⟨s.take lo, s.drop hi, ?_, ?_, ?_⟩
      · rw [show s.drop hi = (s.drop lo).drop (hi - lo) by rw [List.drop_drop]; congr 1; omega, List.take_append_drop,
          List.take_append_drop]
      · rw [List.length_take]
        omega
      · rw [List.length_take, List.length_take, List.length_drop]
        omega
    · rintro ⟨before, after, rfl, rfl, rfl⟩
      rw [List.drop_left, Nat.add_sub_cancel_left, List.take_left]
  · constructor
    · nofun
    · rintro ⟨before, after, rfl, rfl, rfl⟩
      simp only [List.length_append] at h
      omega

theorem slice_eq_none {s : List α} {lo hi : Nat} : slice s lo hi = none ↔ hi < lo ∨ s.length < hi := by
  unfold slice
  split_ifs with h
  · simp only [false_iff]
    omega
  · simp only [true_iff]
    omega

theorem slice_middle (before part after : List α) :
    slice (before ++ (part ++ after)) before.length (before.length + part.length) = some part :=
  (slice_eq_some).mpr ⟨before, after, rfl, rfl, rfl⟩

theorem slice_left (part after : List α) : slice (part ++ after) 0 part.length = some part :=
  (slice_eq_some).mpr ⟨[], after, rfl, rfl, by simp⟩

theorem slice_right (before part : List α) :
    slice (before ++ part) before.length (before ++ part).length = some part :=
  (slice_eq_some).mpr ⟨before, [], by simp, rfl, by simp⟩

theorem length_slice {s part : List α} {lo hi : Nat} (h : slice s lo hi = some part) : part.length = hi - lo := by
  obtain ⟨before, after, rfl, rfl, rfl⟩ := (slice_eq_some).mp h
  omega

variable [DecidableEq α]

/-- `strings.Index`. -/
def index (s sep : List α) : Option Nat := (cut sep s).map fun q => q.1.length

/-- What stands on both sides of the first separator. -/
theorem slices_index {s sep : List α} {i : Nat} (h : index s sep = some i) : ∃ before after,
    cut sep s = some (before, after) ∧ i = before.length ∧ slice s 0 i = some before ∧
      slice s (i + sep.length) s.length = some after := by
  obtain ⟨⟨before, after⟩, hcut, rfl⟩ := Option.map_eq_some_iff.mp h
  obtain ⟨rfl, -⟩ := cut_eq_some hcut
  refine ⟨before, after, hcut, rfl, slice_left before (sep ++ after), ?_⟩
  have hright := slice_right (before ++ sep) after
  rwa [List.append_assoc, List.length_append] at hright

end Xdragon.Lib
