import Mathlib.Data.List.DropRight
import Mathlib.Data.List.Infix

/-!
# Tags in a text that comes in pieces

A text can be cut at the first place of a tag. While the tag has not come, only the end of the text
that may become the tag has to be kept.
-/

namespace Xdragon.Lib

variable {α : Type*} [DecidableEq α]

/-- The text before the first place of the tag and the text after it. -/
@[grind =]
def cut (tag : List α) : List α → Option (List α × List α)
  | [] => if tag = [] then some ([], []) else none
  | x :: s =>
    if tag.isPrefixOf (x :: s) then some ([], (x :: s).drop tag.length)
    else (cut tag s).map fun p => (x :: p.1, p.2)

/-- The text before the last place of the tag and the text after it. -/
@[grind =]
def cutLast (tag : List α) : List α → Option (List α × List α)
  | [] => if tag = [] then some ([], []) else none
  | x :: s =>
    match cutLast tag s with
    | some p => some (x :: p.1, p.2)
    | none => if tag.isPrefixOf (x :: s) then some ([], (x :: s).drop tag.length) else none

/-- `strings.Contains`. -/
def containsTag (s tag : List α) : Bool := (cut tag s).isSome

/-- The pieces between the places of a separator, up to a number of places. -/
@[grind =]
def splitUpTo (sep : List α) : Nat → List α → List (List α)
  | 0, s => [s]
  | n + 1, s =>
    match cut sep s with
    | none => [s]
    | some (before, after) => before :: splitUpTo sep n after

/-- `strings.Split` with a separator that is not empty. -/
def split (s sep : List α) : List (List α) := splitUpTo sep s.length s

/-- `strings.Join`. -/
def join (pieces : List (List α)) (sep : List α) : List α := sep.intercalate pieces

/-- The loop of `overlap` from a number of elements down. -/
@[grind =]
def overlapFrom (s delim : List α) : Nat → Nat
  | 0 => 0
  | i + 1 => if (delim.take (i + 1)).isSuffixOf s then i + 1 else overlapFrom s delim i

/-- The longest overlap between suffix of `s` and prefix of `delim`. -/
def overlap (s delim : List α) : Nat := overlapFrom s delim (min delim.length s.length)

/-! ## Cuts -/

theorem cut_at_start {tag s : List α} (h : tag <+: s) : cut tag s = some ([], s.drop tag.length) := by
  cases s with
  | nil =>
    rw [List.prefix_nil.mp h]
    rfl
  | cons x s => rw [cut, if_pos (List.isPrefixOf_iff_prefix.mpr h)]

/-- Where the tag does not start in the first part, the cut is in the second. -/
theorem cut_append {tag e s : List α} (h : ∀ i < e.length, ¬ tag <+: (e ++ s).drop i) :
    cut tag (e ++ s) = (cut tag s).map fun p => (e ++ p.1, p.2) := by
  induction e with
  | nil => simp
  | cons x e ih =>
    have h0 := h 0 (Nat.succ_pos _)
    rw [List.drop_zero, List.cons_append] at h0
    have hrest : ∀ i < e.length, ¬ tag <+: (e ++ s).drop i := by
      intro i hi
      have := h (i + 1) (by rw [List.length_cons]; omega)
      rwa [List.cons_append, List.drop_succ_cons] at this
    rw [List.cons_append, cut, if_neg (by rwa [List.isPrefixOf_iff_prefix]), ih hrest, Option.map_map]
    rfl

theorem cut_eq_some {tag s before after : List α} (h : cut tag s = some (before, after)) :
    s = before ++ (tag ++ after) ∧ ∀ i < before.length, ¬ tag <+: s.drop i := by
  induction s generalizing before with
  | nil =>
    rw [cut] at h
    split_ifs at h with htag
    simp only [Option.some.injEq, Prod.mk.injEq] at h
    obtain ⟨rfl, rfl⟩ := h
    exact ⟨by simp [htag], fun i hi => (nomatch hi)⟩
  | cons x s ih =>
    rw [cut] at h
    split_ifs at h with hpre
    · simp only [Option.some.injEq, Prod.mk.injEq] at h
      obtain ⟨rfl, rfl⟩ := h
      refine ⟨?_, fun i hi => (nomatch hi)⟩
      obtain ⟨t, ht⟩ := List.isPrefixOf_iff_prefix.mp hpre
      rw [← ht, List.drop_left, List.nil_append]
    · obtain ⟨⟨b, a⟩, hcut, heq⟩ := Option.map_eq_some_iff.mp h
      simp only [Prod.mk.injEq] at heq
      obtain ⟨rfl, rfl⟩ := heq
      obtain ⟨hs, hno⟩ := ih hcut
      refine ⟨by rw [hs, List.cons_append], fun i hi => ?_⟩
      cases i with
      | zero => rwa [List.drop_zero, ← List.isPrefixOf_iff_prefix]
      | succ i =>
        rw [List.drop_succ_cons]
        exact hno i (by rw [List.length_cons] at hi; omega)

theorem cut_eq_none {tag s : List α} : cut tag s = none ↔ ∀ i, ¬ tag <+: s.drop i := by
  constructor
  · intro h i hpre
    induction s generalizing i with
    | nil =>
      rw [List.drop_nil, List.prefix_nil] at hpre
      simp [cut, hpre] at h
    | cons x s ih =>
      rw [cut] at h
      split_ifs at h with h0
      cases i with
      | zero => exact h0 (List.isPrefixOf_iff_prefix.mpr hpre)
      | succ i => exact ih (Option.map_eq_none_iff.mp h) i hpre
  · intro h
    cases hcut : cut tag s with
    | none => rfl
    | some p =>
      obtain ⟨hs, -⟩ := cut_eq_some hcut
      refine absurd ⟨p.2, ?_⟩ (h p.1.length)
      rw [hs, List.drop_left]

theorem cut_eq_none_iff_absent {tag s : List α} : cut tag s = none ↔ ¬ tag <:+: s := by
  rw [cut_eq_none]
  constructor
  · rintro h ⟨a, b, rfl⟩
    refine h a.length ⟨b, ?_⟩
    rw [List.append_assoc, List.drop_left]
  · intro h i hpre
    exact h (hpre.isInfix.trans (List.drop_suffix i s).isInfix)

theorem cut_of_eq {tag before after : List α} (h : ∀ i < before.length, ¬ tag <+: (before ++ (tag ++ after)).drop i) :
    cut tag (before ++ (tag ++ after)) = some (before, after) := by
  rw [cut_append h, cut_at_start (List.prefix_append _ _), List.drop_left]
  simp

/-- A cut stays where it is when more text comes. -/
theorem cut_append_some {tag s before after : List α} (h : cut tag s = some (before, after)) (c : List α) :
    cut tag (s ++ c) = some (before, after ++ c) := by
  obtain ⟨rfl, hno⟩ := cut_eq_some h
  have heq : before ++ (tag ++ after) ++ c = before ++ (tag ++ (after ++ c)) := by simp
  rw [heq]
  refine cut_of_eq fun i hi hpre => hno i hi ?_
  -- an earlier place of the tag would end before the text that comes
  rw [List.drop_append_of_le_length hi.le] at hpre ⊢
  have hlen : tag.length ≤ (before.drop i ++ (tag ++ after)).length := by
    simp only [List.length_append]
    omega
  refine List.prefix_of_prefix_length_le hpre ⟨c, ?_⟩ hlen
  simp

/-- A cut stays where it is when text at the end is taken away. -/
theorem cut_of_append {tag s before a b : List α} (h : cut tag s = some (before, a ++ b)) :
    cut tag (before ++ (tag ++ a)) = some (before, a) := by
  obtain ⟨rfl, hno⟩ := cut_eq_some h
  refine cut_of_eq fun i hi hpre => hno i hi (hpre.trans ?_)
  rw [List.drop_append_of_le_length hi.le, List.drop_append_of_le_length hi.le]
  exact ⟨b, by simp⟩

/-- A cut stays where it is when text in front is taken away. -/
theorem cut_of_suffix {tag u v after : List α} (h : cut tag (u ++ v ++ (tag ++ after)) = some (u ++ v, after)) :
    cut tag (v ++ (tag ++ after)) = some (v, after) := by
  obtain ⟨-, hno⟩ := cut_eq_some h
  refine cut_of_eq fun i hi hpre => hno (u.length + i) (by rw [List.length_append]; omega) ?_
  rw [List.append_assoc, List.drop_length_add_append]
  exact hpre

/-- Text without the tag has no beginning with the tag. -/
theorem cut_none_of_append {tag s c : List α} (h : cut tag (s ++ c) = none) : cut tag s = none := by
  cases hs : cut tag s with
  | none => rfl
  | some p =>
    rw [cut_append_some hs] at h
    cases h

theorem length_of_cut {tag s before after : List α} (h : cut tag s = some (before, after)) :
    before.length + (tag.length + after.length) = s.length := by
  rw [(cut_eq_some h).1, List.length_append, List.length_append]

/-- There is no place of the tag before the first one. -/
theorem cut_before {tag s before after : List α} (htag : tag ≠ []) (h : cut tag s = some (before, after)) :
    cut tag before = none := by
  cases h' : cut tag before with
  | none => rfl
  | some p =>
    have hlen := length_of_cut h'
    have hpos := List.length_pos_iff.mpr htag
    have hearlier := cut_append_some h' (tag ++ after)
    rw [← (cut_eq_some h).1, h] at hearlier
    have hbefore : before = p.1 := congrArg Prod.fst (Option.some.inj hearlier)
    rw [← hbefore] at hlen
    omega

/-- No place of a tag reaches behind a text if what follows starts with an element that the tag has only at its start. -/
theorem cut_append_head {x : α} {tag b s : List α} (hx : x ∉ tag.tail) (h : cut tag b = none) :
    cut tag (b ++ x :: s) = (cut tag (x :: s)).map fun q => (b ++ q.1, q.2) := by
  refine cut_append fun i hi hpre => ?_
  rw [List.drop_append_of_le_length hi.le] at hpre
  obtain hlt | hle := Nat.lt_or_ge (b.drop i).length tag.length
  · obtain ⟨u, rfl⟩ := List.prefix_of_prefix_length_le (List.prefix_append _ _) hpre hlt.le
    obtain ⟨y, d, hd⟩ := List.exists_cons_of_length_pos (l := b.drop i) (by rw [List.length_drop]; omega)
    obtain ⟨z, u', rfl⟩ : ∃ z u', u = z :: u' := by
      refine List.exists_cons_of_length_pos ?_
      rw [List.length_append] at hlt
      omega
    -- the tag goes on with the element in the text that follows
    rw [List.prefix_append_right_inj, List.cons_prefix_cons] at hpre
    rw [hd, List.cons_append, List.tail_cons, hpre.1] at hx
    exact hx (List.mem_append_right _ (List.mem_cons_self ..))
  · exact cut_eq_none.mp h i (List.prefix_of_prefix_length_le hpre (List.prefix_append _ _) hle)

theorem cutLast_eq_some {tag s before after : List α} (h : cutLast tag s = some (before, after)) :
    s = before ++ (tag ++ after) := by
  induction s generalizing before with
  | nil =>
    rw [cutLast] at h
    split_ifs at h with htag
    cases h
    rw [htag]
    rfl
  | cons x s ih =>
    rw [cutLast] at h
    split at h
    · rename_i p hp
      cases h
      rw [ih hp, List.cons_append]
    · split_ifs at h with hpre
      cases h
      obtain ⟨t, ht⟩ := List.isPrefixOf_iff_prefix.mp hpre
      rw [← ht, List.drop_left, List.nil_append]

theorem cutLast_singleton_none {x : α} {s : List α} (h : x ∉ s) : cutLast [x] s = none := by
  induction s with
  | nil => exact if_neg (List.cons_ne_nil x [])
  | cons y s ih =>
    rw [List.mem_cons, not_or] at h
    rw [cutLast, ih h.2]
    simp [h.1]

/-- The last place of an element. -/
theorem cutLast_singleton {x : α} (a : List α) {b : List α} (h : x ∉ b) : cutLast [x] (a ++ x :: b) = some (a, b) := by
  induction a with
  | nil =>
    rw [List.nil_append, cutLast, cutLast_singleton_none h]
    simp
  | cons y a ih => rw [List.cons_append, cutLast, ih]

/-! ## Splits -/

omit [DecidableEq α] in
theorem join_cons (piece : List α) (pieces : List (List α)) (sep : List α) :
    join (piece :: pieces) sep = piece ++ (if pieces = [] then [] else sep ++ join pieces sep) := by
  cases pieces with
  | nil => simp [join]
  | cons piece' pieces =>
    rw [join, List.intercalate_cons_cons, if_neg (List.cons_ne_nil _ _), List.append_assoc]
    rfl

theorem join_splitUpTo (sep : List α) (n : Nat) (s : List α) : join (splitUpTo sep n s) sep = s := by
  induction n generalizing s with
  | zero => simp [splitUpTo, join, List.intercalate]
  | succ n ih =>
    rw [splitUpTo]
    cases h : cut sep s with
    | none => simp [join, List.intercalate]
    | some p =>
      dsimp only
      rw [(cut_eq_some h).1]
      have hne : splitUpTo sep n p.2 ≠ [] := by
        cases n with
        | zero => simp [splitUpTo]
        | succ n =>
          rw [splitUpTo]
          cases cut sep p.2 <;> simp
      obtain ⟨q, qs, hq⟩ := List.exists_cons_of_ne_nil hne
      have hrest := ih p.2
      simp only [join, List.intercalate, hq, List.intersperse_cons_cons, List.flatten_cons] at hrest ⊢
      rw [hrest]

/-- The first piece of a split, and the others joined again. -/
theorem split_of_cut {sep s before after : List α} (hsep : sep ≠ []) (h : cut sep s = some (before, after)) :
    ∃ rest, split s sep = before :: rest ∧ join rest sep = after := by
  have hlen := length_of_cut h
  have hpos := List.length_pos_iff.mpr hsep
  obtain ⟨n, hn⟩ : ∃ n, s.length = n + 1 := ⟨s.length - 1, by omega⟩
  refine ⟨splitUpTo sep n after, ?_, join_splitUpTo sep n after⟩
  rw [split, hn, splitUpTo, h]

/-! ## Overlaps -/

theorem overlapFrom_le (s delim : List α) (n : Nat) : overlapFrom s delim n ≤ n := by
  induction n with
  | zero => exact Nat.le_refl _
  | succ n ih =>
    rw [overlapFrom]
    split_ifs <;> omega

theorem overlapFrom_suffix (s delim : List α) (n : Nat) : delim.take (overlapFrom s delim n) <:+ s := by
  induction n with
  | zero => exact ⟨s, by simp [overlapFrom]⟩
  | succ n ih =>
    rw [overlapFrom]
    split_ifs with h
    · exact List.isSuffixOf_iff_suffix.mp h
    · exact ih

theorem le_overlapFrom {s delim : List α} {i n : Nat} (hi : i ≤ n) (h : delim.take i <:+ s) : i ≤ overlapFrom s delim n := by
  induction n with
  | zero => omega
  | succ n ih =>
    rw [overlapFrom]
    split_ifs with hn
    · exact hi
    · have hne : i ≠ n + 1 := by
        rintro rfl
        exact hn (List.isSuffixOf_iff_suffix.mpr h)
      exact ih (by omega)

theorem overlap_le_length (s delim : List α) : overlap s delim ≤ s.length :=
  (overlapFrom_le s delim _).trans (Nat.min_le_right _ _)

theorem overlap_le_delim (s delim : List α) : overlap s delim ≤ delim.length :=
  (overlapFrom_le s delim _).trans (Nat.min_le_left _ _)

theorem overlap_suffix (s delim : List α) : delim.take (overlap s delim) <:+ s := overlapFrom_suffix s delim _

theorem le_overlap {s delim : List α} {i : Nat} (hd : i ≤ delim.length) (h : delim.take i <:+ s) : i ≤ overlap s delim := by
  have hlen := h.length_le
  rw [List.length_take] at hlen
  exact le_overlapFrom (by omega) h

/-- The end of a text, if it is also the beginning of the tag, overlaps it. -/
theorem le_overlap_of_drop {s delim : List α} {i : Nat} (h : s.drop i <+: delim) : s.length - i ≤ overlap s delim := by
  have hlen := h.length_le
  rw [List.length_drop] at hlen
  refine le_overlap hlen ?_
  rw [← List.length_drop, ← List.prefix_iff_eq_take.mp h]
  exact List.drop_suffix i s

section
variable {tag e r : List α} (hover : overlap (e ++ r) tag ≤ r.length) (c : List α)
include hover

/-- The part of the text that cannot belong to the tag can be given away. -/
theorem cut_append_none (hnone : cut tag (e ++ r) = none) :
    cut tag (e ++ r ++ c) = (cut tag (r ++ c)).map fun p => (e ++ p.1, p.2) := by
  rw [List.append_assoc]
  refine cut_append fun i hi hpre => ?_
  rw [← List.append_assoc, List.drop_append_of_le_length (by rw [List.length_append]; omega)] at hpre
  obtain hlt | hle := Nat.lt_or_ge ((e ++ r).drop i).length tag.length
  · have hends := List.prefix_of_prefix_length_le (List.prefix_append _ c) hpre hlt.le
    have := le_overlap_of_drop hends
    rw [List.length_append] at this
    omega
  · exact cut_eq_none.mp hnone i (List.prefix_of_prefix_length_le hpre (List.prefix_append _ _) hle)

theorem overlap_append : overlap (e ++ r ++ c) tag = overlap (r ++ c) tag := by
  apply Nat.le_antisymm
  · have hle := overlap_le_delim (e ++ r ++ c) tag
    have hsuf := overlap_suffix (e ++ r ++ c) tag
    refine le_overlap hle ?_
    rw [List.append_assoc] at hle hsuf ⊢
    refine List.suffix_of_suffix_length_le hsuf (List.suffix_append _ _) ?_
    by_contra hlong
    -- without what came the overlap would reach out of `r`
    generalize hk : overlap (e ++ (r ++ c)) tag = k at hle hsuf hlong
    rw [List.length_take, Nat.min_eq_left hle, List.length_append] at hlong
    have hshort : tag.take (k - c.length) <:+ e ++ r := by
      obtain ⟨t, ht⟩ := hsuf
      refine ⟨t, ?_⟩
      have h := congrArg (List.take (e ++ r).length) ht
      rw [← List.append_assoc, List.take_left] at h
      have hlen := congrArg List.length ht
      simp only [List.length_append, List.length_take, Nat.min_eq_left hle] at hlen
      rw [List.take_append, List.take_of_length_le (by rw [List.length_append]; omega), List.take_take] at h
      rw [List.length_append] at h
      rw [← h]
      congr 2
      omega
    have := le_overlap (by omega) hshort
    omega
  · refine le_overlap (overlap_le_delim _ _) ?_
    rw [List.append_assoc]
    exact (overlap_suffix (r ++ c) tag).trans (List.suffix_append _ _)

end

/-! ## What is kept of a text -/

/-- The part of a text that cannot belong to a tag that is not complete yet. -/
def released (tag s : List α) : List α := s.take (s.length - overlap s tag)

/-- The end of a text that may be the beginning of a tag. -/
def withheld (tag s : List α) : List α := s.drop (s.length - overlap s tag)

@[simp] theorem released_append_withheld (tag s : List α) : released tag s ++ withheld tag s = s := List.take_append_drop _ _

theorem length_withheld (tag s : List α) : (withheld tag s).length = overlap s tag := by
  have := overlap_le_length s tag
  rw [withheld, List.length_drop]
  omega

section
variable {tag e r : List α} (hover : overlap (e ++ r) tag ≤ r.length) (c : List α)
include hover

theorem released_append : released tag (e ++ r ++ c) = e ++ released tag (r ++ c) := by
  have hle := overlap_le_length (r ++ c) tag
  unfold released
  rw [overlap_append hover, List.append_assoc, List.take_append, List.take_of_length_le]
  · congr 2
    simp only [List.length_append] at hle ⊢
    omega
  · simp only [List.length_append] at hle ⊢
    omega

theorem withheld_append : withheld tag (e ++ r ++ c) = withheld tag (r ++ c) := by
  have h := released_append_withheld tag (e ++ r ++ c)
  have h' := released_append_withheld tag (r ++ c)
  rw [released_append hover, List.append_assoc] at h
  nth_rewrite 2 [List.append_assoc] at h
  rw [List.append_cancel_left_eq] at h
  exact List.append_cancel_left (h.trans h'.symm)

end

theorem overlap_le_withheld (tag s : List α) : overlap (released tag s ++ withheld tag s) tag ≤ (withheld tag s).length := by
  rw [released_append_withheld, length_withheld]

/-- A text without the tag only needs its end when more comes. -/
theorem cut_append_withheld {tag s : List α} (hnone : cut tag s = none) (c : List α) :
    cut tag (s ++ c) = (cut tag (withheld tag s ++ c)).map fun p => (released tag s ++ p.1, p.2) := by
  have h := cut_append_none (overlap_le_withheld tag s) c (by rwa [released_append_withheld])
  rwa [released_append_withheld] at h

theorem released_append_withheld_append (tag s c : List α) :
    released tag (s ++ c) = released tag s ++ released tag (withheld tag s ++ c) := by
  have h := released_append (overlap_le_withheld tag s) c
  rwa [released_append_withheld] at h

theorem withheld_append_withheld (tag s c : List α) : withheld tag (s ++ c) = withheld tag (withheld tag s ++ c) := by
  have h := withheld_append (overlap_le_withheld tag s) c
  rwa [released_append_withheld] at h

/-! ## White space before a tag -/

section
variable (p : α → Bool) (tag s : List α)

/-- The part of a text that is neither the beginning of a tag nor the space before one. -/
def settled : List α := (released tag s).rdropWhile p

/-- The end of a text that may be the beginning of a tag, with the space before it. -/
def pending : List α := (released tag s).rtakeWhile p ++ withheld tag s

@[simp] theorem settled_append_pending : settled p tag s ++ pending p tag s = s := by
  rw [settled, pending, ← List.append_assoc, List.rdropWhile_append_rtakeWhile, released_append_withheld]

theorem overlap_le_pending : overlap (settled p tag s ++ pending p tag s) tag ≤ (pending p tag s).length := by
  rw [settled_append_pending, pending, List.length_append, length_withheld]
  exact Nat.le_add_left _ _

omit [DecidableEq α] in
/-- Space is dropped up to a text that does not end with space. -/
theorem rdropWhile_append_of_last {e : List α} (he : e.rdropWhile p = e) (x : List α) :
    (e ++ x).rdropWhile p = e ++ x.rdropWhile p := by
  induction x using List.reverseRecOn with
  | nil => rw [List.append_nil, he, List.rdropWhile_nil, List.append_nil]
  | append_singleton x a ih =>
    rw [← List.append_assoc, List.rdropWhile_concat, List.rdropWhile_concat, ih]
    split_ifs
    · rfl
    · rw [List.append_assoc]

omit [DecidableEq α] in
theorem rtakeWhile_append_of_last {e : List α} (he : e.rdropWhile p = e) (x : List α) :
    (e ++ x).rtakeWhile p = x.rtakeWhile p := by
  have h := List.rdropWhile_append_rtakeWhile (p := p) (l := e ++ x)
  have h' := List.rdropWhile_append_rtakeWhile (p := p) (l := x)
  rw [rdropWhile_append_of_last p he, List.append_assoc] at h
  exact List.append_cancel_left ((List.append_cancel_left h).trans h'.symm)

theorem rdropWhile_settled (x : List α) : (settled p tag s ++ x).rdropWhile p = settled p tag s ++ x.rdropWhile p :=
  rdropWhile_append_of_last p (List.rdropWhile_idempotent p _) x

variable (c : List α)

theorem settled_append : settled p tag (s ++ c) = settled p tag s ++ settled p tag (pending p tag s ++ c) := by
  have h := released_append (overlap_le_pending p tag s) c
  rw [settled_append_pending] at h
  rw [settled, h, rdropWhile_settled]
  rfl

theorem pending_append : pending p tag (s ++ c) = pending p tag (pending p tag s ++ c) := by
  have h := released_append (overlap_le_pending p tag s) c
  have h' := withheld_append (overlap_le_pending p tag s) c
  rw [settled_append_pending] at h h'
  rw [pending, h, h', settled, rtakeWhile_append_of_last p (List.rdropWhile_idempotent p _)]
  rfl

variable {tag s}

theorem cut_append_pending (hnone : cut tag s = none) :
    cut tag (s ++ c) = (cut tag (pending p tag s ++ c)).map fun q => (settled p tag s ++ q.1, q.2) := by
  have h := cut_append_none (overlap_le_pending p tag s) c (by rwa [settled_append_pending])
  rwa [settled_append_pending] at h

end

/-! ## Text that stays clear of a tag -/

/-- No place of the tag, complete or not, starts in the text, whatever follows. -/
def Clear (tag e : List α) : Prop := ∀ i < e.length, ¬ e.drop i <+: tag ∧ ¬ tag <+: e.drop i

instance (tag e : List α) : Decidable (Clear tag e) := inferInstanceAs (Decidable (∀ i < e.length, _))

omit [DecidableEq α] in
theorem clear_of_space {p : α → Bool} {tag w : List α} (htag : ∀ x ∈ tag, p x = false) (hne : tag ≠ [])
    (hw : ∀ x ∈ w, p x = true) : Clear tag w := by
  intro i hi
  have hmem : w[i] ∈ w.drop i := by
    rw [List.drop_eq_getElem_cons hi]
    exact List.mem_cons_self ..
  have hspace := hw _ (List.getElem_mem hi)
  constructor
  · intro h
    have := htag _ (h.subset hmem)
    rw [hspace] at this
    cases this
  · intro h
    obtain ⟨x, xs, rfl⟩ := List.exists_cons_of_ne_nil hne
    have hx := hw x ((List.drop_suffix i w).subset (h.subset (List.mem_cons_self ..)))
    rw [htag x (List.mem_cons_self ..)] at hx
    cases hx

section
variable {tag e : List α} (h : Clear tag e) (s : List α)
include h

theorem cut_clear : cut tag (e ++ s) = (cut tag s).map fun q => (e ++ q.1, q.2) := by
  refine cut_append fun i hi hpre => ?_
  rw [List.drop_append_of_le_length hi.le] at hpre
  obtain hle | hle := Nat.le_total tag.length (e.drop i).length
  · exact (h i hi).2 (List.prefix_of_prefix_length_le hpre (List.prefix_append _ _) hle)
  · exact (h i hi).1 (List.prefix_of_prefix_length_le (List.prefix_append _ _) hpre hle)

theorem overlap_clear : overlap (e ++ s) tag = overlap s tag := by
  apply Nat.le_antisymm
  · refine le_overlap (overlap_le_delim _ _) ?_
    refine List.suffix_of_suffix_length_le (overlap_suffix (e ++ s) tag) (List.suffix_append _ _) ?_
    by_contra hlong
    -- the overlap would start in the first part
    have hsuf := overlap_suffix (e ++ s) tag
    have hle := hsuf.length_le
    rw [List.suffix_iff_eq_drop] at hsuf
    rw [List.length_append] at hsuf hle
    generalize hi : e.length + s.length - (tag.take (overlap (e ++ s) tag)).length = i at hsuf
    have hlt : i < e.length := by omega
    rw [List.drop_append_of_le_length hlt.le] at hsuf
    refine (h i hlt).1 ((List.prefix_append _ s).trans ?_)
    rw [← hsuf]
    exact List.take_prefix _ _
  · exact le_overlap (overlap_le_delim _ _) ((overlap_suffix s tag).trans (List.suffix_append _ _))

theorem released_clear : released tag (e ++ s) = e ++ released tag s := by
  have hle := overlap_le_length s tag
  have hlen : (e ++ s).length - overlap s tag = e.length + (s.length - overlap s tag) := by
    rw [List.length_append]
    omega
  rw [released, overlap_clear h, hlen, List.take_length_add_append]
  rfl

/-- The tag is where it is without the text in front, and without text in between that stays clear of it. -/
theorem cut_append_clear {b : List α} (hb : cut tag b = none) (hhead : ∃ x, e.head? = some x ∧ x ∉ tag.tail) :
    cut tag (b ++ (e ++ s)) = (cut tag s).map fun q => (b ++ (e ++ q.1), q.2) := by
  obtain ⟨x, hx, hmem⟩ := hhead
  cases e with
  | nil => cases hx
  | cons y e =>
    cases hx
    rw [List.cons_append, cut_append_head hmem hb, ← List.cons_append, cut_clear h, Option.map_map]
    rfl

end

omit [DecidableEq α] in
/-- Space at the end of a text is dropped up to the last element that is none. -/
theorem rdropWhile_append (p : α → Bool) (e s : List α) :
    (e ++ s).rdropWhile p = if s.rdropWhile p = [] then e.rdropWhile p else e ++ s.rdropWhile p := by
  unfold List.rdropWhile
  rw [List.reverse_append, List.dropWhile_append]
  simp only [List.isEmpty_iff, List.reverse_eq_nil_iff]
  split_ifs
  · rfl
  · rw [List.reverse_append, List.reverse_reverse]

/-- The text up to the first place of a tag, or what is not withheld, without the space at its end. -/
def firstPiece (p : α → Bool) (tag s : List α) : List α :=
  match cut tag s with
  | none => settled p tag s
  | some (before, _) => before.rdropWhile p

theorem firstPiece_clear {p : α → Bool} {tag e : List α} (h : Clear tag e) (s : List α) :
    firstPiece p tag (e ++ s) = if firstPiece p tag s = [] then e.rdropWhile p else e ++ firstPiece p tag s := by
  unfold firstPiece
  rw [cut_clear h]
  cases cut tag s with
  | none =>
    dsimp only [Option.map_none]
    rw [settled, released_clear h, rdropWhile_append]
    rfl
  | some q => exact rdropWhile_append p e q.1

/-- The first piece of a text that does not start with space is empty exactly if the text is the beginning of the tag
or starts with it. -/
theorem firstPiece_eq_nil {p : α → Bool} {tag s : List α} (hs : s.dropWhile p = s) :
    firstPiece p tag s = [] ↔ s <+: tag ∨ tag <+: s := by
  have hstart : ∀ b, b <+: s → b.rdropWhile p = [] → b = [] := by
    intro b hb hall
    rw [List.rdropWhile_eq_nil_iff] at hall
    cases b with
    | nil => rfl
    | cons x b =>
      obtain ⟨t, rfl⟩ := hb
      rw [List.cons_append, List.dropWhile_cons, if_pos (hall x (List.mem_cons_self ..))] at hs
      have hlen := congrArg List.length hs
      have hle := (List.dropWhile_suffix p (l := b ++ t)).length_le
      rw [List.length_cons] at hlen
      omega
  unfold firstPiece
  cases hcut : cut tag s with
  | none =>
    dsimp only
    have hno : ¬ tag <+: s := fun h => cut_eq_none.mp hcut 0 (by rwa [List.drop_zero])
    constructor
    · intro hsettled
      have hreleased := hstart _ (List.take_prefix _ _) hsettled
      left
      have hs' := released_append_withheld tag s
      rw [released, hreleased, List.nil_append] at hs'
      have hsuf := overlap_suffix s tag
      have hlen := length_withheld tag s
      rw [hs'] at hlen
      have heq := hsuf.eq_of_length (by rw [List.length_take, ← hlen]; have := overlap_le_delim s tag; omega)
      rw [← heq]
      exact List.take_prefix _ _
    · rintro (hpre | hpre)
      · have hoverlap : overlap s tag = s.length := by
          apply Nat.le_antisymm (overlap_le_length s tag)
          exact le_overlap hpre.length_le (by rw [← List.prefix_iff_eq_take.mp hpre])
        rw [settled, released, hoverlap, Nat.sub_self, List.take_zero, List.rdropWhile_nil]
      · exact absurd hpre hno
  | some q =>
    dsimp only
    obtain ⟨hs', -⟩ := cut_eq_some hcut
    constructor
    · intro hb
      have hq := hstart q.1 (hs' ▸ List.prefix_append _ _) hb
      rw [hq, List.nil_append] at hs'
      exact .inr (hs' ▸ List.prefix_append _ _)
    · have htag : tag <+: s → q.1.rdropWhile p = [] := by
        intro hpre
        have hq := cut_at_start hpre
        rw [hcut, Option.some.injEq] at hq
        rw [hq, List.rdropWhile_nil]
      rintro (hpre | hpre)
      · have hlen := length_of_cut hcut
        have hle := hpre.length_le
        exact htag (hpre.eq_of_length (by omega) ▸ List.prefix_rfl)
      · exact htag hpre

/-! ## Texts that come again -/

omit [DecidableEq α] in
/-- No place of a tag that is not in the second text reaches out of the first one, if that ends with an element that the tag
has only at its end. -/
theorem place_within {tag X z : List α} {x : α} (hlast : X.getLast? = some x) (hx : x ∉ tag.dropLast)
    (hz : ¬ tag <:+: z) {q : Nat} (h : tag <+: (X ++ z).drop q) : q + tag.length ≤ X.length := by
  by_contra hout
  obtain hlt | hle := Nat.lt_or_ge q X.length
  · rw [List.drop_append_of_le_length hlt.le] at h
    obtain ⟨u, hu⟩ : X.drop q <+: tag :=
      List.prefix_of_prefix_length_le (List.prefix_append _ _) h (by rw [List.length_drop]; omega)
    have hne : u ≠ [] := by
      rintro rfl
      rw [List.append_nil] at hu
      rw [← hu, List.length_drop] at hout
      omega
    rw [← hu, List.dropLast_append_of_ne_nil hne] at hx
    refine hx (List.mem_append_left _ (List.mem_of_getLast? ?_))
    rw [List.getLast?_drop, if_neg (by omega), hlast]
  · rw [List.drop_append, List.drop_eq_nil_of_le hle, List.nil_append] at h
    exact hz (h.isInfix.trans (List.drop_suffix _ _).isInfix)

omit [DecidableEq α] in
/-- A text with a tag does not come again behind its start if all places of the tag are in the text: each place would have
another one behind it. -/
theorem not_again {tag X v y z : List α} (htag : tag <+: X) (hv : v ≠ []) (h : X ++ z = v ++ (X ++ y))
    (hwithin : ∀ q, tag <+: (X ++ z).drop q → q + tag.length ≤ X.length) : False := by
  have hplaces : ∀ m, tag <+: (X ++ z).drop (m * v.length) := by
    intro m
    induction m with
    | zero =>
      rw [Nat.zero_mul, List.drop_zero]
      exact htag.trans (List.prefix_append _ _)
    | succ m ih =>
      have hle := hwithin _ ih
      rw [List.drop_append_of_le_length (by omega)] at ih
      have hshort := List.prefix_of_prefix_length_le ih (List.prefix_append _ z) (by rw [List.length_drop]; omega)
      rw [h, Nat.succ_mul, Nat.add_comm, List.drop_length_add_append, List.drop_append_of_le_length (by omega)]
      exact hshort.trans (List.prefix_append _ _)
  have hlast := hwithin _ (hplaces (X.length + 1))
  have hpos := List.length_pos_of_ne_nil hv
  have hmul : X.length + 1 ≤ (X.length + 1) * v.length := Nat.le_mul_of_pos_right _ hpos
  omega

end Xdragon.Lib
