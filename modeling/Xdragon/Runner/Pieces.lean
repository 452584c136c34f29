import Xdragon.Lib.Wire
import Xdragon.Runner.Stop

/-!
# The pieces before a stop

`TruncateStop` cuts the joined pieces and splits the text that is left by the lengths of the pieces. The runner counts
the pieces that are left, and drops one more from its cache if the last one is not whole.
-/

namespace Xdragon.Runner

open Xdragon.Lib

/-- The first pieces, or the first pieces and the beginning of another one. -/
inductive Shortens : List Bytes → List Bytes → Bool → Prop
  | whole (result rest : List Bytes) : Shortens (result ++ rest) result false
  | last (result : List Bytes) (p : Bytes) (rest : List Bytes) {q : Bytes} : q <+: p → q ≠ p → q ≠ [] →
    Shortens (result ++ p :: rest) (result ++ [q]) true

theorem Shortens.cons {pieces result : List Bytes} {truncated : Bool} (h : Shortens pieces result truncated) (p : Bytes) :
    Shortens (p :: pieces) (p :: result) truncated := by
  cases h with
  | whole _ rest => exact .whole (p :: result) rest
  | last result q rest hpre hne h0 => exact .last (p :: result) q rest hpre hne h0

theorem splitPieces_shortens (joined : Bytes) (start : Nat) (pieces : List Bytes)
    (h : joined.drop start <+: pieces.flatten) :
    Shortens pieces (splitPieces joined start (pieces.map (·.length))).1
      (splitPieces joined start (pieces.map (·.length))).2 := by
  induction pieces generalizing start with
  | nil => exact .whole [] []
  | cons p ps ih =>
    rw [List.flatten_cons] at h
    rw [List.map_cons, splitPieces]
    split_ifs with hend hcut
    · exact .whole [] (p :: ps)
    · -- the rest of the text is in this piece
      have hlen : (joined.drop start).length < p.length := by
        rw [List.length_drop]
        omega
      refine .last [] p ps ?_ ?_ ?_
      · exact List.prefix_of_prefix_length_le h (List.prefix_append _ _) (Nat.le_of_lt hlen)
      · intro heq
        rw [heq] at hlen
        exact Nat.lt_irrefl _ hlen
      · rw [← List.length_pos_iff, List.length_drop]
        omega
    · have hlen : p.length ≤ (joined.drop start).length := by
        rw [List.length_drop]
        omega
      have hp : p <+: joined.drop start := List.prefix_of_prefix_length_le (List.prefix_append _ _) h hlen
      have hrest : joined.drop (start + p.length) <+: ps.flatten := by
        obtain ⟨t, ht⟩ := hp
        rw [← ht, List.prefix_append_right_inj] at h
        rwa [← List.drop_drop, ← ht, List.drop_left]
      simp only
      rw [← List.prefix_iff_eq_take.mp hp]
      exact (ih _ hrest).cons p

/-- What is left of the pieces, and whether the last one of it is not whole. -/
structure CutPieces (pieces result : List Bytes) (truncated : Bool) : Prop where
  before : result.dropLast <+: pieces
  last : ∀ q, result.getLast? = some q → ∃ p, pieces[result.length - 1]? = some p ∧ q <+: p
  nonempty : ∀ j : Nat, result[j]? = some [] → pieces[j]? = some []
  truncated : truncated = true ↔ ∃ q p, result.getLast? = some q ∧ pieces[result.length - 1]? = some p ∧ q <+: p ∧ q ≠ p

theorem getElem?_last {result rest : List Bytes} {q : Bytes} (h : result.getLast? = some q) :
    (result ++ rest)[result.length - 1]? = some q := by
  rw [List.getLast?_eq_getElem?] at h
  rw [List.getElem?_append_left (List.getElem?_eq_some_iff.mp h).1]
  exact h

theorem Shortens.cutPieces {pieces result : List Bytes} {truncated : Bool} (h : Shortens pieces result truncated) :
    CutPieces pieces result truncated := by
  cases h with
  | whole _ rest =>
    refine ⟨(List.dropLast_prefix result).trans (List.prefix_append _ _), fun q hq => ⟨q, getElem?_last hq, List.prefix_rfl⟩,
      fun j hj => ?_, iff_of_false nofun ?_⟩
    · rw [List.getElem?_append_left (List.getElem?_eq_some_iff.mp hj).1]
      exact hj
    · rintro ⟨q, p, hq, hp, -, hne⟩
      exact hne (Option.some.inj ((getElem?_last hq).symm.trans hp))
  | last result p rest hpre hne h0 =>
    rename_i q
    have hp : (result ++ p :: rest)[(result ++ [q]).length - 1]? = some p := by simp
    refine ⟨by rw [List.dropLast_concat]; exact List.prefix_append _ _, fun q' hq' => ?_, fun j hj => ?_, iff_of_true rfl ?_⟩
    · rw [List.getLast?_concat, Option.some.injEq] at hq'
      exact ⟨p, hp, hq' ▸ hpre⟩
    · by_cases hlt : j < result.length
      · rw [List.getElem?_append_left hlt] at hj ⊢
        exact hj
      · -- the last piece is not empty
        rw [List.getElem?_append_right (by omega), List.getElem?_singleton] at hj
        split at hj
        · exact absurd (Option.some.inj hj) h0
        · cases hj
    · exact ⟨q, p, List.getLast?_concat, hp, hpre, hne⟩

/-- The stop comes first after this text. -/
structure FirstStop (text stop before after : Bytes) : Prop where
  eq : text = before ++ stop ++ after
  least : ∀ before' after', text = before' ++ stop ++ after' → before.length ≤ before'.length

theorem firstStop_of_index {text stop : Bytes} {i : Nat} (h : index text stop = some i) :
    ∃ after, FirstStop text stop (text.take i) after := by
  obtain ⟨hi, ⟨s, hs, after, hafter⟩, hleast⟩ := firstIndex_eq_some.mp h
  obtain rfl := List.mem_singleton.mp hs
  refine ⟨after, by rw [List.append_assoc, hafter, List.take_append_drop], fun before' after' heq => ?_⟩
  rw [List.length_take, Nat.min_eq_left hi]
  apply Nat.le_of_not_lt
  intro hlt
  refine hleast before'.length hlt s (List.mem_singleton_self _) ⟨after', ?_⟩
  rw [heq, List.append_assoc, List.drop_left]

theorem index_eq_none_iff {text stop : Bytes} : index text stop = none ↔ ¬ stop <:+: text := by
  unfold index
  rw [firstIndex_eq_none]
  constructor
  · rintro h ⟨before, after, rfl⟩
    refine h before.length (by simp only [List.length_append]; omega) stop (List.mem_singleton_self _) ⟨after, ?_⟩
    rw [List.append_assoc, List.drop_left]
  · intro hno i _ s hs hpre
    obtain rfl := List.mem_singleton.mp hs
    exact hno (hpre.isInfix.trans (List.drop_suffix i _).isInfix)

/-- Without the stop nothing changes. Else the text before the first stop is left, in pieces as before up to the last
one. -/
theorem truncateStop_cutPieces (pieces : List Bytes) (stop : Bytes) :
    (¬ stop <:+: pieces.flatten → truncateStop pieces stop = (pieces, false)) ∧
    (stop <:+: pieces.flatten → ∃ before after, FirstStop pieces.flatten stop before after ∧
      (truncateStop pieces stop).1.flatten = before ∧
      CutPieces pieces (truncateStop pieces stop).1 (truncateStop pieces stop).2) := by
  constructor
  · intro hno
    rw [truncateStop, index_eq_none_iff.mpr hno]
  · intro hocc
    cases hi : index pieces.flatten stop with
    | none => exact absurd hocc (index_eq_none_iff.mp hi)
    | some i =>
      obtain ⟨after, hfirst⟩ := firstStop_of_index hi
      refine ⟨_, after, hfirst, flatten_truncateStop hi, ?_⟩
      rw [truncateStop, hi]
      exact (splitPieces_shortens _ 0 pieces (List.take_prefix i pieces.flatten)).cutPieces

end Xdragon.Runner
