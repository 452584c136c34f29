import Mathlib.Data.List.Infix
import Mathlib.Logic.Relation
import Xdragon.Lib.Heap

/-!
# Merging neighbours

Some neighbours in a list of texts have a key, and neighbours of a least key are merged round by round.
-/

namespace Xdragon.Lib

variable {α K : Type}

section
variable (key : List α → List α → Option K) (less : K → K → Bool)

/-- A key that no neighbours have a smaller one than. -/
def LeastKey (ts : List (List α)) (x : K) : Prop := ∀ l r, [l, r] <:+: ts → ∀ y ∈ key l r, less y x = false

/-- A round: neighbours of a least key are merged. -/
inductive Round : List (List α) → List (List α) → Prop
  | merge {before behind : List (List α)} {l r : List α} {x : K} (hkey : key l r = some x)
      (hleast : LeastKey key less (before ++ l :: r :: behind) x) :
      Round (before ++ l :: r :: behind) (before ++ (l ++ r) :: behind)

/-- No neighbours have a key. -/
def Merged (ts : List (List α)) : Prop := ∀ l r, [l, r] <:+: ts → key l r = none

/-- The rounds end in the same texts, whichever neighbours of a least key are merged. -/
def Confluent (ts : List (List α)) : Prop := ∀ us vs, Relation.ReflTransGen (Round key less) ts us → Merged key us →
  Relation.ReflTransGen (Round key less) ts vs → Merged key vs → us = vs

/-- The place of the first neighbours of a least key, and the key. -/
@[grind =]
def firstLeast : List (List α) → Option (Nat × K)
  | l :: r :: ts =>
    match key l r, firstLeast (r :: ts) with
    | none, none => none
    | none, some (k, y) => some (k + 1, y)
    | some x, none => some (0, x)
    | some x, some (k, y) => if less y x then some (k + 1, y) else some (0, x)
  | _ => none

/-- The texts at `k` and `k + 1` are merged. -/
@[grind =]
def mergeAt : Nat → List (List α) → List (List α)
  | 0, l :: r :: ts => (l ++ r) :: ts
  | k + 1, t :: ts => t :: mergeAt k ts
  | _, ts => ts

variable {key less} in
/-- The first neighbours, or some behind them that have a smaller key. -/
theorem firstLeast_cases {ts : List (List α)} {l r : List α} {k : Nat} {x : K}
    (h : firstLeast key less (l :: r :: ts) = some (k, x)) :
    (k = 0 ∧ key l r = some x ∧ ∀ k' y, firstLeast key less (r :: ts) = some (k', y) → less y x = false) ∨
      ∃ k', k = k' + 1 ∧ firstLeast key less (r :: ts) = some (k', x) ∧ ∀ y, key l r = some y → less x y = true := by
  rw [firstLeast] at h
  rcases hx : key l r with - | x' <;> rcases hy : firstLeast key less (r :: ts) with - | ⟨k', y⟩ <;> rw [hx, hy] at h
  · cases h
  · obtain ⟨rfl, rfl⟩ := Prod.mk.inj (Option.some.inj h)
    exact .inr ⟨k', rfl, rfl, by simp⟩
  · obtain ⟨rfl, rfl⟩ := Prod.mk.inj (Option.some.inj h)
    exact .inl ⟨rfl, rfl, by simp⟩
  · dsimp only at h
    split_ifs at h with hlt
    · obtain ⟨rfl, rfl⟩ := Prod.mk.inj (Option.some.inj h)
      exact .inr ⟨k', rfl, rfl, by simpa using hlt⟩
    · obtain ⟨rfl, rfl⟩ := Prod.mk.inj (Option.some.inj h)
      exact .inl ⟨rfl, rfl, by simpa using hlt⟩

theorem firstLeast_lt {ts : List (List α)} {k : Nat} {x : K} (h : firstLeast key less ts = some (k, x)) :
    k + 1 < ts.length := by
  induction ts generalizing k x with
  | nil => cases h
  | cons l ts ih =>
    rcases ts with - | ⟨r, ts⟩
    · cases h
    · rcases firstLeast_cases h with ⟨rfl, -⟩ | ⟨k', rfl, hrest, -⟩
      · simp
      · simpa using ih hrest

theorem length_mergeAt {ts : List (List α)} {k : Nat} (h : k + 1 < ts.length) : (mergeAt k ts).length + 1 = ts.length := by
  induction k generalizing ts with
  | zero =>
    rcases ts with - | ⟨l, - | ⟨r, ts⟩⟩
    · cases h
    · simp at h
    · simp [mergeAt]
  | succ k ih =>
    rcases ts with - | ⟨t, ts⟩
    · cases h
    · have := @ih ts (by simpa using h)
      simp only [mergeAt, List.length_cons]
      omega

/-- Neighbours are merged until none have a key, the first ones of a least key each time. -/
def mergeNeighbours (ts : List (List α)) : List (List α) :=
  match _h : firstLeast key less ts with
  | none => ts
  | some (k, _) => mergeNeighbours (mergeAt k ts)
  termination_by ts.length
  decreasing_by
    have := length_mergeAt (firstLeast_lt key less _h)
    omega

end

/-! ## The first least neighbours -/

section
variable {key : List α → List α → Option K} {less : K → K → Bool}

theorem mergeAt_length (before behind : List (List α)) (l r : List α) :
    mergeAt before.length (before ++ l :: r :: behind) = before ++ (l ++ r) :: behind := by
  induction before with
  | nil => rfl
  | cons t before ih => simp [mergeAt, ih]

theorem firstLeast_of_merged {ts : List (List α)} (h : Merged key ts) : firstLeast key less ts = none := by
  induction ts with
  | nil => rfl
  | cons l ts ih =>
    rcases ts with - | ⟨r, ts⟩
    · rfl
    · have hkey := h l r (List.prefix_append [l, r] ts |>.isInfix)
      have hrest := ih fun l' r' hin => h l' r' (hin.trans (List.suffix_cons _ _).isInfix)
      rw [firstLeast, hkey, hrest]

theorem pair_infix_cons {l r u v : List α} {ts : List (List α)} :
    [u, v] <:+: l :: r :: ts ↔ (u = l ∧ v = r) ∨ [u, v] <:+: r :: ts := by
  rw [List.infix_cons_iff]
  simp

theorem firstLeast_none {ts : List (List α)} (h : firstLeast key less ts = none) : Merged key ts := by
  induction ts with
  | nil =>
    intro u v hin
    have := hin.length_le
    simp at this
  | cons l ts ih =>
    rcases ts with - | ⟨r, ts⟩
    · intro u v hin
      have := hin.length_le
      simp at this
    · rw [firstLeast] at h
      rcases hx : key l r with - | x <;> rcases hy : firstLeast key less (r :: ts) with - | ⟨k, y⟩ <;> rw [hx, hy] at h
      · intro u v hin
        rcases pair_infix_cons.mp hin with ⟨rfl, rfl⟩ | hin
        · exact hx
        · exact ih hy u v hin
      · cases h
      · cases h
      · dsimp only at h
        split_ifs at h

/-- The key that is found is a least one. -/
theorem firstLeast_least (hless : WeakOrder less) {ts : List (List α)} {k : Nat} {x : K}
    (h : firstLeast key less ts = some (k, x)) : LeastKey key less ts x := by
  induction ts generalizing k x with
  | nil => cases h
  | cons l ts ih =>
    rcases ts with - | ⟨r, ts⟩
    · cases h
    · intro u v hin z hz
      rcases firstLeast_cases h with ⟨-, hkey, hrest⟩ | ⟨k', -, hfound, hhead⟩
      · rcases pair_infix_cons.mp hin with ⟨rfl, rfl⟩ | hin
        · obtain rfl := Option.some.inj (hkey.symm.trans hz)
          exact hless.irrefl _
        · rcases hy : firstLeast key less (r :: ts) with - | ⟨k', y⟩
          · have hnone := firstLeast_none hy u v hin
            rw [hnone] at hz
            cases hz
          · exact hless.trans_not _ _ _ (ih hy u v hin z hz) (hrest k' y hy)
      · rcases pair_infix_cons.mp hin with ⟨rfl, rfl⟩ | hin
        · exact hless.asymm _ _ (hhead z hz)
        · exact ih hfound u v hin z hz

theorem firstLeast_place {ts : List (List α)} {k : Nat} {x : K} (h : firstLeast key less ts = some (k, x)) :
    ∃ before l r behind, ts = before ++ l :: r :: behind ∧ before.length = k ∧ key l r = some x := by
  induction ts generalizing k x with
  | nil => cases h
  | cons l ts ih =>
    rcases ts with - | ⟨r, ts⟩
    · cases h
    · rcases firstLeast_cases h with ⟨rfl, hkey, -⟩ | ⟨k', rfl, hrest, -⟩
      · exact ⟨[], l, r, ts, rfl, rfl, hkey⟩
      · obtain ⟨before, l', r', behind, hsplit, rfl, hkey⟩ := ih hrest
        exact ⟨l :: before, l', r', behind, by rw [hsplit, List.cons_append], rfl, hkey⟩

theorem firstLeast_mem {ts : List (List α)} {k : Nat} {x : K} (h : firstLeast key less ts = some (k, x)) :
    ∃ l r, [l, r] <:+: ts ∧ key l r = some x := by
  obtain ⟨before, l, r, behind, rfl, -, hkey⟩ := firstLeast_place h
  exact ⟨l, r, ⟨before, behind, by simp⟩, hkey⟩

/-- Neighbours of a least key are the first ones, if those before them have a greater key. -/
theorem firstLeast_eq {before behind : List (List α)} {l r : List α} {x : K} (hkey : key l r = some x)
    (hleast : LeastKey key less (before ++ l :: r :: behind) x)
    (hbefore : ∀ l' r', [l', r'] <:+: before ++ [l] → ∀ y ∈ key l' r', less x y = true) :
    firstLeast key less (before ++ l :: r :: behind) = some (before.length, x) := by
  induction before with
  | nil =>
    rw [List.nil_append, firstLeast, hkey]
    rcases hrest : firstLeast key less (r :: behind) with - | ⟨k, y⟩
    · rfl
    · obtain ⟨l', r', hin, hy⟩ := firstLeast_mem hrest
      have hnot := hleast l' r' (hin.trans (List.suffix_cons _ _).isInfix) y hy
      simp [hnot]
  | cons t before ih =>
    have hrest := ih (fun l' r' hin => hleast l' r' (hin.trans (List.suffix_cons _ _).isInfix))
      fun l' r' hin => hbefore l' r' (hin.trans (List.suffix_cons _ _).isInfix)
    obtain ⟨u, us, hu⟩ := List.exists_cons_of_ne_nil (l := before ++ [l]) (by simp)
    have hsplit : before ++ l :: r :: behind = u :: (us ++ r :: behind) := by
      rw [List.append_cons, hu, List.cons_append]
    rw [List.cons_append, hsplit, firstLeast, ← hsplit, hrest]
    rcases hy : key t u with - | y
    · rfl
    · have hlt := hbefore t u ⟨[], us, by simp [hu]⟩ y hy
      simp [hlt]

/-- One round merges the first neighbours of a least key. -/
theorem round_mergeAt (hless : WeakOrder less) {ts : List (List α)} {k : Nat} {x : K}
    (h : firstLeast key less ts = some (k, x)) : Round key less ts (mergeAt k ts) := by
  have hleast := firstLeast_least hless h
  obtain ⟨before, l, r, behind, rfl, rfl, hkey⟩ := firstLeast_place h
  rw [mergeAt_length]
  exact .merge hkey hleast

theorem mergeNeighbours_of_merged {ts : List (List α)} (h : Merged key ts) : mergeNeighbours key less ts = ts := by
  rw [mergeNeighbours, firstLeast_of_merged h]

theorem mergeNeighbours_step {ts : List (List α)} {k : Nat} {x : K} (h : firstLeast key less ts = some (k, x)) :
    mergeNeighbours key less ts = mergeNeighbours key less (mergeAt k ts) := by
  rw [mergeNeighbours, h]

/-- The rounds end where no neighbours have a key. -/
theorem rounds_mergeNeighbours (hless : WeakOrder less) (ts : List (List α)) :
    Relation.ReflTransGen (Round key less) ts (mergeNeighbours key less ts) ∧ Merged key (mergeNeighbours key less ts) := by
  induction ts using mergeNeighbours.induct key less with
  | case1 ts h =>
    rw [mergeNeighbours_of_merged (firstLeast_none h)]
    exact ⟨.refl, firstLeast_none h⟩
  | case2 ts k x h ih =>
    rw [mergeNeighbours_step h]
    exact ⟨.head (round_mergeAt hless h) ih.1, ih.2⟩

theorem flatten_round {ts us : List (List α)} (h : Round key less ts us) : us.flatten = ts.flatten := by
  obtain ⟨-, -⟩ := h
  simp

theorem flatten_rounds {ts us : List (List α)} (h : Relation.ReflTransGen (Round key less) ts us) :
    us.flatten = ts.flatten := by
  induction h with
  | refl => rfl
  | tail _ hround ih => rw [flatten_round hround, ih]

theorem Merged.not_round {ts us : List (List α)} (h : Merged key ts) : ¬ Round key less ts us := by
  rintro ⟨hkey, -⟩
  rename_i before behind l r x
  rw [h l r ⟨before, behind, by simp⟩] at hkey
  cases hkey

end

/-! ## Texts over another alphabet -/

section
variable {β : Type} {f : List α → List β} {key : List α → List α → Option K} {key' : List β → List β → Option K}
  {less : K → K → Bool}

theorem firstLeast_map (hkey : ∀ l r, key' (f l) (f r) = key l r) (ts : List (List α)) :
    firstLeast key' less (ts.map f) = firstLeast key less ts := by
  induction ts with
  | nil => rfl
  | cons l ts ih =>
    rcases ts with - | ⟨r, ts⟩
    · rfl
    · simp only [List.map_cons] at ih ⊢
      rw [firstLeast, firstLeast, hkey, ih]

theorem mergeAt_map (hf : ∀ l r, f (l ++ r) = f l ++ f r) (k : Nat) (ts : List (List α)) :
    mergeAt k (ts.map f) = (mergeAt k ts).map f := by
  induction k generalizing ts with
  | zero =>
    rcases ts with - | ⟨l, - | ⟨r, ts⟩⟩
    · rfl
    · rfl
    · simp [mergeAt, hf]
  | succ k ih =>
    rcases ts with - | ⟨t, ts⟩
    · rfl
    · simp [mergeAt, ih]

/-- The rounds do the same over an alphabet in which the neighbours have the same keys. -/
theorem mergeNeighbours_map (hf : ∀ l r, f (l ++ r) = f l ++ f r) (hkey : ∀ l r, key' (f l) (f r) = key l r)
    (ts : List (List α)) : mergeNeighbours key' less (ts.map f) = (mergeNeighbours key less ts).map f := by
  induction ts using mergeNeighbours.induct key less with
  | case1 ts h => rw [mergeNeighbours, mergeNeighbours, firstLeast_map hkey, h]
  | case2 ts k x h ih =>
    rw [mergeNeighbours_step h, ← ih, ← mergeAt_map hf]
    exact mergeNeighbours_step ((firstLeast_map hkey ts).trans h)

end

end Xdragon.Lib
