import Mathlib.Data.List.Infix

/-!
# Replacing in a text

All places of a part of a text are replaced, from left to right, or the matches of a pattern that are leftmost and do not overlap.
-/

namespace Xdragon.Lib

section

variable {α : Type*} [DecidableEq α]

/-- The first places, up to a number of steps through the text. -/
@[grind =]
def replaceUpTo (old new : List α) : Nat → List α → List α
  | 0, s => s
  | _ + 1, [] => []
  | n + 1, x :: s =>
    if old.isPrefixOf (x :: s) then new ++ replaceUpTo old new n ((x :: s).drop old.length)
    else x :: replaceUpTo old new n s

/-- `strings.ReplaceAll`, of a part that is not empty. -/
def replaceAll (s old new : List α) : List α := replaceUpTo old new s.length s

variable {old new : List α}

@[simp] theorem replaceAll_nil : replaceAll [] old new = [] := rfl

theorem replaceUpTo_of_le (hold : old ≠ []) {n : Nat} {s : List α} (h : s.length ≤ n) :
    replaceUpTo old new n s = replaceAll s old new := by
  have hstep : ∀ k : Nat, ∀ s : List α, ∀ n, s.length ≤ k → s.length ≤ n → replaceUpTo old new n s = replaceUpTo old new k s := by
    intro k
    induction k with
    | zero =>
      intro s n hk _
      obtain rfl := List.length_eq_zero_iff.mp (Nat.le_zero.mp hk)
      cases n <;> rfl
    | succ k ih =>
      intro s n hk hn
      cases s with
      | nil => cases n <;> rfl
      | cons x s =>
        cases n with
        | zero => exact absurd hn (by simp)
        | succ n =>
          rw [List.length_cons] at hk hn
          have hpos := List.length_pos_iff.mpr hold
          rw [replaceUpTo, replaceUpTo, ih s n (by omega) (by omega),
            ih _ n (by rw [List.length_drop, List.length_cons]; omega) (by rw [List.length_drop, List.length_cons]; omega)]
  exact hstep _ s n (Nat.le_refl _) h

theorem replaceAll_prefix (hold : old ≠ []) (s : List α) : replaceAll (old ++ s) old new = new ++ replaceAll s old new := by
  obtain ⟨x, xs, rfl⟩ := List.exists_cons_of_ne_nil hold
  have hdrop : (x :: xs ++ s).drop (x :: xs).length = s := List.drop_left
  rw [replaceAll, List.cons_append, List.length_cons, replaceUpTo, if_pos (by simp), ← List.cons_append, hdrop,
    replaceUpTo_of_le hold (by rw [List.length_append]; omega)]

theorem replaceAll_cons (hold : old ≠ []) {x : α} {s : List α} (h : ¬ old <+: x :: s) :
    replaceAll (x :: s) old new = x :: replaceAll s old new := by
  rw [replaceAll, List.length_cons, replaceUpTo, if_neg (by rwa [List.isPrefixOf_iff_prefix]),
    replaceUpTo_of_le hold (Nat.le_refl _)]

/-- Where the part does not start, nothing is replaced. -/
theorem replaceAll_append (hold : old ≠ []) {e s : List α} (h : ∀ i < e.length, ¬ old <+: (e ++ s).drop i) :
    replaceAll (e ++ s) old new = e ++ replaceAll s old new := by
  induction e with
  | nil => rfl
  | cons x e ih =>
    have hrest : ∀ i < e.length, ¬ old <+: (e ++ s).drop i := by
      intro i hi
      exact h (i + 1) (Nat.succ_lt_succ hi)
    have hstart : ¬ old <+: x :: (e ++ s) := h 0 (Nat.succ_pos _)
    rw [List.cons_append, replaceAll_cons hold hstart, ih hrest, List.cons_append]

theorem replaceAll_of_not_infix (hold : old ≠ []) {s : List α} (h : ¬ old <:+: s) : replaceAll s old new = s := by
  have hno : ∀ i < s.length, ¬ old <+: (s ++ []).drop i := by
    intro i _ hpre
    rw [List.append_nil] at hpre
    exact h (hpre.isInfix.trans (List.drop_suffix i s).isInfix)
  have := @replaceAll_append _ _ _ new hold _ _ hno
  rwa [List.append_nil, replaceAll_nil, List.append_nil] at this

theorem replaceAll_singleton (x : α) (s : List α) :
    replaceAll s [x] new = s.flatMap fun y => if y = x then new else [y] := by
  induction s with
  | nil => rfl
  | cons y s ih =>
    rw [List.flatMap_cons]
    split_ifs with h
    · rw [h, ← ih]
      exact replaceAll_prefix (List.cons_ne_nil x []) s
    · rw [replaceAll_cons (List.cons_ne_nil x []) (by simpa using Ne.symm h), ih]
      rfl

end

/-! ## Where a pattern matches -/

section

variable {α β γ : Type*} (matchAt : List α → Option (Nat × β)) (replace : β → List γ) (keep : α → List γ)

/-- The rewritten text behind as many elements as a match still covers. -/
def rewriteFrom : Nat → List α → List γ
  | _, [] => []
  | covered + 1, _ :: s => rewriteFrom covered s
  | 0, x :: s =>
    match matchAt (x :: s) with
    | some (length, m) => replace m ++ rewriteFrom (length - 1) s
    | none => keep x ++ rewriteFrom 0 s

/-- The text with every match replaced. -/
def rewrite (s : List α) : List γ := rewriteFrom matchAt replace keep 0 s

variable {matchAt replace keep}

theorem rewriteFrom_eq (n : Nat) (s : List α) :
    rewriteFrom matchAt replace keep n s = rewrite matchAt replace keep (s.drop n) := by
  induction s generalizing n with
  | nil =>
    rw [List.drop_nil]
    cases n <;> rfl
  | cons x s ih =>
    cases n with
    | zero => rfl
    | succ n => exact ih n

theorem rewrite_none {x : α} {s : List α} (h : matchAt (x :: s) = none) :
    rewrite matchAt replace keep (x :: s) = keep x ++ rewrite matchAt replace keep s := by
  unfold rewrite
  rw [rewriteFrom, h]

theorem rewrite_some {s : List α} {length : Nat} {m : β} (h : matchAt s = some (length, m)) (hs : s ≠ []) (hl : 0 < length) :
    rewrite matchAt replace keep s = replace m ++ rewrite matchAt replace keep (s.drop length) := by
  obtain ⟨x, s, rfl⟩ := List.exists_cons_of_ne_nil hs
  obtain ⟨n, rfl⟩ := Nat.exists_eq_add_of_lt hl
  rw [rewrite, rewriteFrom, h]
  simp only [rewriteFrom_eq, Nat.zero_add, Nat.add_sub_cancel, List.drop_succ_cons]

/-- A text in front in which no match starts. -/
theorem rewrite_append {a b : List α} (h : ∀ u x w, a = u ++ x :: w → matchAt (x :: (w ++ b)) = none) :
    rewrite matchAt replace keep (a ++ b) = a.flatMap keep ++ rewrite matchAt replace keep b := by
  induction a with
  | nil => rfl
  | cons x a ih =>
    rw [List.cons_append, rewrite_none (h [] x a rfl), List.flatMap_cons, List.append_assoc, ih]
    exact fun u y w hu => h (x :: u) y w (congrArg _ hu)

end

end Xdragon.Lib
