import Xdragon.Kvcache.Stores

/-!
# What `CopyPrefix` and `Remove` store

`CopyPrefix` visits each cell once. `Remove` may stop half way at a shared cell: its spec says how
far it came.
-/

open Xdragon.Lib

namespace Xdragon.Kvcache.Causal

variable {α : Type}

/-! ## `CopyPrefix` -/

/-- One cell of the loop of `CopyPrefix`. -/
def copyCell (srcSeq dstSeq len : Int) (cell : CacheCell) : CacheCell :=
  let sequences := cell.sequences.filter (· != dstSeq)
  if srcSeq ∈ sequences ∧ cell.pos < len then { cell with sequences := sequences ++ [dstSeq] }
  else { cell with sequences := sequences }

theorem mem_copyCell {srcSeq dstSeq len : Int} (hne : srcSeq ≠ dstSeq) (cell : CacheCell) (s : Int) :
    s ∈ (copyCell srcSeq dstSeq len cell).sequences ↔
      if s = dstSeq then srcSeq ∈ cell.sequences ∧ cell.pos < len else s ∈ cell.sequences := by
  unfold copyCell
  simp only [List.mem_filter, bne_iff_ne, ne_eq, hne, not_false_eq_true, and_true]
  by_cases hs : s = dstSeq
  · subst hs
    split <;> simp_all
  · split <;> simp [hs]

theorem copyCell_pos (srcSeq dstSeq len : Int) (cell : CacheCell) :
    (copyCell srcSeq dstSeq len cell).pos = cell.pos := by
  unfold copyCell; simp only; split <;> rfl

theorem copyLoop_spec (srcSeq dstSeq len : Int) (cells : List CacheCell) (i : Nat) (r : CellRange) :
    (copyLoop srcSeq dstSeq len cells i r).1 = cells.map (copyCell srcSeq dstSeq len) ∧
    (∀ j, r.Covers j → (copyLoop srcSeq dstSeq len cells i r).2.Covers j) ∧
    (∀ j cell, cells[j]? = some cell → srcSeq ∈ cell.sequences.filter (· != dstSeq) → cell.pos < len →
      (copyLoop srcSeq dstSeq len cells i r).2.Covers (i + j)) ∧
    ∀ n, i + cells.length ≤ n → r.Below n → (copyLoop srcSeq dstSeq len cells i r).2.Below n := by
  induction cells generalizing i r with
  | nil => simp [copyLoop]
  | cons cell rest ih =>
    simp only [copyLoop, List.map_cons, List.length_cons]
    split
    · rename_i hc
      obtain ⟨h1, h2, h3, h4⟩ := ih (i + 1) (r.add i)
      refine ⟨?_, fun j hj => h2 j (hj.add i), ?_, fun n hn hb => h4 n (by omega) (hb.add (by omega))⟩
      · simp only [h1, copyCell, if_pos hc]
      · intro j cell' hj hs hp
        cases j with
        | zero => exact h2 i (Hull.covers_add r i)
        | succ j =>
          rw [show i + (j + 1) = i + 1 + j by omega]
          exact h3 j cell' (by simpa using hj) hs hp
    · rename_i hc
      obtain ⟨h1, h2, h3, h4⟩ := ih (i + 1) r
      refine ⟨?_, h2, ?_, fun n hn hb => h4 n (by omega) hb⟩
      · simp only [h1, copyCell, if_neg hc]
      · intro j cell' hj hs hp
        cases j with
        | zero =>
          simp only [List.getElem?_cons_zero, Option.some.injEq] at hj
          exact absurd ⟨hj ▸ hs, hj ▸ hp⟩ hc
        | succ j =>
          rw [show i + (j + 1) = i + 1 + j by omega]
          exact h3 j cell' (by simpa using hj) hs hp

/-- After `CopyPrefix`, `dstSeq` has exactly the prefix of `srcSeq`, in the same cells. -/
theorem copyPrefix_stores {c : Causal α} {srcSeq dstSeq len : Int} (hne : srcSeq ≠ dstSeq) (s : Int)
    (i : Nat) (p : Int) :
    Stores (c.copyPrefix srcSeq dstSeq len).cells s i p ↔
      if s = dstSeq then Stores c.cells srcSeq i p ∧ p < len else Stores c.cells s i p := by
  simp only [copyPrefix, (copyLoop_spec srcSeq dstSeq len c.cells 0 newRange).1, Stores,
    List.getElem?_map]
  cases hc : c.cells[i]? with
  | none => simp
  | some cell =>
    simp only [Option.map_some, Option.mem_def, Option.some.injEq, exists_eq_left', mem_copyCell hne,
      copyCell_pos]
    split
    · constructor
      · rintro ⟨⟨h1, h2⟩, rfl⟩; exact ⟨⟨h1, rfl⟩, h2⟩
      · rintro ⟨⟨h1, rfl⟩, h2⟩; exact ⟨⟨h1, h2⟩, rfl⟩
    · exact Iff.rfl

theorem copyPrefix_length (c : Causal α) (srcSeq dstSeq len : Int) :
    (c.copyPrefix srcSeq dstSeq len).cells.length = c.cells.length := by
  simp [copyPrefix, (copyLoop_spec srcSeq dstSeq len c.cells 0 newRange).1]

theorem copyPrefix_ranged {c : Causal α} (h : Ranged c) {srcSeq dstSeq len : Int} (hne : srcSeq ≠ dstSeq) :
    Ranged (c.copyPrefix srcSeq dstSeq len) := by
  obtain ⟨-, -, h3, h4⟩ := copyLoop_spec srcSeq dstSeq len c.cells 0 newRange
  have hr := h.update dstSeq (c.copyPrefix srcSeq dstSeq len).cells
    (copyLoop srcSeq dstSeq len c.cells 0 newRange).2 (copyPrefix_length c srcSeq dstSeq len) ?_ ?_
    (h4 _ (by omega) (below_newRange _))
  · exact ⟨hr.covers, hr.below⟩
  · intro s i p hs hst
    have := (copyPrefix_stores hne s i p).mp hst
    rwa [if_neg hs] at this
  · intro i p hst
    have := (copyPrefix_stores hne dstSeq i p).mp hst
    rw [if_pos rfl] at this
    obtain ⟨⟨cell, hcell, hmem, rfl⟩, hp⟩ := this
    have := h3 i cell hcell (by simpa [hne] using hmem) hp
    rwa [Nat.zero_add] at this

/-! ## `Remove` -/

/-- One cell of the loop of `Remove`, when it does not stop there. -/
def removeCell (seq beginIndex endIndex offset : Int) (cell : CacheCell) : CacheCell :=
  if seq ∈ cell.sequences then
    if beginIndex ≤ cell.pos ∧ cell.pos < endIndex then
      { cell with sequences := cell.sequences.filter (· != seq) }
    else if endIndex ≤ cell.pos then { cell with pos := cell.pos + offset }
    else cell
  else cell

/-- The loop stops here: the cell would move, and another sequence uses it. -/
def Blocks (seq endIndex : Int) (cell : CacheCell) : Prop :=
  seq ∈ cell.sequences ∧ endIndex ≤ cell.pos ∧ ∃ s ∈ cell.sequences, s ≠ seq

/-- What the loop did to the first `k` cells, and that it left the others alone. -/
structure Removed (seq beginIndex endIndex offset : Int) (cells : List CacheCell) (k : Nat)
    (out : List CacheCell × CellRange × Bool) : Prop where
  length : out.1.length = cells.length
  done : ∀ j < k, out.1[j]? = cells[j]?.map (removeCell seq beginIndex endIndex offset)
  rest : ∀ j, k ≤ j → out.1[j]? = cells[j]?
  free : ∀ j < k, ∀ cell, cells[j]? = some cell → ¬ Blocks seq endIndex cell
  all : out.2.2 = false → k = cells.length
  stopped : out.2.2 = true → ∃ cell, cells[k]? = some cell ∧ Blocks seq endIndex cell

theorem Removed.cons {seq beginIndex endIndex offset : Int} {cells : List CacheCell} {k : Nat}
    {out : List CacheCell × CellRange × Bool} (h : Removed seq beginIndex endIndex offset cells k out)
    {cell cell' : CacheCell} (hcell : cell' = removeCell seq beginIndex endIndex offset cell)
    (hfree : ¬ Blocks seq endIndex cell) :
    Removed seq beginIndex endIndex offset (cell :: cells) (k + 1) (cell' :: out.1, out.2) := by
  refine ⟨by simp [h.length], ?_, ?_, ?_, ?_, ?_⟩
  · intro j hj
    cases j with
    | zero => simp [hcell]
    | succ j => simpa using h.done j (by omega)
  · intro j hj
    cases j with
    | zero => omega
    | succ j => simpa using h.rest j (by omega)
  · intro j hj c hc
    cases j with
    | zero =>
      simp only [List.getElem?_cons_zero, Option.some.injEq] at hc
      exact hc ▸ hfree
    | succ j => exact h.free j (by omega) c (by simpa using hc)
  · intro hs
    rw [List.length_cons, h.all hs]
  · intro hs
    simpa using h.stopped hs

theorem removeLoop_removed (seq beginIndex endIndex offset : Int) (cells : List CacheCell) (i : Nat)
    (r : CellRange) :
    ∃ k, Removed seq beginIndex endIndex offset cells k
      (removeLoop seq beginIndex endIndex offset cells i r) := by
  induction cells generalizing i r with
  | nil => exact ⟨0, rfl, by simp, by simp [removeLoop], by simp, by simp, by simp [removeLoop]⟩
  | cons cell rest ih =>
    simp only [removeLoop]
    split
    · rename_i hmem
      split
      · rename_i hin
        obtain ⟨k, hk⟩ := ih (i + 1) r
        refine ⟨k + 1, hk.cons ?_ ?_⟩
        · rw [removeCell, if_pos hmem, if_pos hin]
        · rintro ⟨-, hge, -⟩
          omega
      · rename_i hin
        split
        · rename_i hge
          split
          · rename_i hany
            have hb : Blocks seq endIndex cell := by
              simp only [List.any_eq_true, bne_iff_ne] at hany
              exact ⟨hmem, hge, hany⟩
            exact ⟨0, rfl, by simp, by simp, by simp, by simp, fun _ => ⟨cell, by simp, hb⟩⟩
          · rename_i hany
            obtain ⟨k, hk⟩ := ih (i + 1) (r.add i)
            refine ⟨k + 1, hk.cons ?_ ?_⟩
            · rw [removeCell, if_pos hmem, if_neg hin, if_pos hge]
            · rintro ⟨-, -, s, hs, hne⟩
              exact hany (List.any_eq_true.mpr ⟨s, hs, by simpa using hne⟩)
        · rename_i hge
          obtain ⟨k, hk⟩ := ih (i + 1) (r.add i)
          refine ⟨k + 1, hk.cons ?_ fun hb => hge hb.2.1⟩
          rw [removeCell, if_pos hmem, if_neg hin, if_neg hge]
    · rename_i hmem
      obtain ⟨k, hk⟩ := ih (i + 1) r
      exact ⟨k + 1, hk.cons (by rw [removeCell, if_neg hmem]) fun hb => hmem hb.1⟩

/-- The new range, when the loop reached the end. -/
theorem removeLoop_range (seq beginIndex endIndex offset : Int)
    (cells : List CacheCell) (i : Nat) (r : CellRange) :
    let out := removeLoop seq beginIndex endIndex offset cells i r
    (∀ j, r.Covers j → out.2.1.Covers j) ∧
    (out.2.2 = false → ∀ j p, Stores out.1 seq j p → out.2.1.Covers (i + j)) ∧
    ∀ n, i + cells.length ≤ n → r.Below n → out.2.1.Below n := by
  induction cells generalizing i r with
  | nil =>
    refine ⟨fun _ h => h, ?_, fun _ _ h => h⟩
    rintro - j p ⟨cell, hc, -⟩
    simp [removeLoop] at hc
  | cons cell rest ih =>
    -- A kept cell is in the range already, and the later ones are in the range of the rest.
    have hkeep : ∀ {cell' : CacheCell} {out : List CacheCell × CellRange × Bool},
        (out.2.2 = false → ∀ j p, Stores out.1 seq j p → out.2.1.Covers (i + 1 + j)) →
        (seq ∈ cell'.sequences → out.2.1.Covers i) →
        out.2.2 = false → ∀ j p, Stores (cell' :: out.1) seq j p → out.2.1.Covers (i + j) := by
      intro cell' out h1 h2 hf j p hs
      cases j with
      | zero =>
        obtain ⟨c, hc, hm, -⟩ := hs
        simp only [List.getElem?_cons_zero, Option.mem_def, Option.some.injEq] at hc
        exact h2 (hc ▸ hm)
      | succ j =>
        rw [show i + (j + 1) = i + 1 + j by omega]
        exact h1 hf j p (by simpa [Stores] using hs)
    simp only [removeLoop, List.length_cons]
    split
    · rename_i hmem
      split
      · obtain ⟨h1, h2, h3⟩ := ih (i + 1) r
        refine ⟨h1, hkeep h2 fun hm => ?_, fun n hn hb => h3 n (by omega) hb⟩
        simp at hm
      · split
        · split
          · exact ⟨fun _ h => h, by simp, fun _ _ h => h⟩
          · obtain ⟨h1, h2, h3⟩ := ih (i + 1) (r.add i)
            exact ⟨fun j hj => h1 j (hj.add i), hkeep h2 fun _ => h1 i (Hull.covers_add r i),
              fun n hn hb => h3 n (by omega) (hb.add (by omega))⟩
        · obtain ⟨h1, h2, h3⟩ := ih (i + 1) (r.add i)
          exact ⟨fun j hj => h1 j (hj.add i), hkeep h2 fun _ => h1 i (Hull.covers_add r i),
            fun n hn hb => h3 n (by omega) (hb.add (by omega))⟩
    · rename_i hmem
      obtain ⟨h1, h2, h3⟩ := ih (i + 1) r
      exact ⟨h1, hkeep h2 fun hm => absurd hm hmem, fun n hn hb => h3 n (by omega) hb⟩

section
variable (c : Causal α) (seq beginIndex endIndex : Int) (fails : Nat → Nat → Nat → Bool)

/-- The three ways `Remove` ends: at a shared cell, with nothing left, or with a new range. -/
theorem remove_cases :
    let out := removeLoop seq beginIndex endIndex (removeOffset beginIndex endIndex) c.cells 0 newRange
    (out.2.2 = true ∧ c.remove seq beginIndex endIndex fails =
      ({ c with cells := out.1 }, some .sharedCells)) ∨
    (out.2.2 = false ∧ out.2.1 = newRange ∧ c.remove seq beginIndex endIndex fails =
      ({ c with cells := out.1, cellRanges := c.cellRanges.erase seq }, none)) ∨
    (out.2.2 = false ∧ ∃ err, (endIndex = maxInt32 → err = none) ∧ c.remove seq beginIndex endIndex fails =
      ({ c with cells := out.1, cellRanges := c.cellRanges.insert seq out.2.1 }, err)) := by
  unfold remove
  simp only
  generalize removeLoop seq beginIndex endIndex (removeOffset beginIndex endIndex) c.cells 0 newRange = out
  by_cases hstop : out.2.2 = true
  · rw [if_pos hstop]
    exact Or.inl ⟨hstop, rfl⟩
  · rw [if_neg hstop]
    rw [Bool.not_eq_true] at hstop
    by_cases hnew : out.2.1 = newRange
    · rw [if_pos hnew]
      exact Or.inr (Or.inl ⟨hstop, hnew, rfl⟩)
    · rw [if_neg hnew]
      by_cases hend : endIndex ≠ maxInt32
      · rw [if_pos hend]
        exact Or.inr (Or.inr ⟨hstop, _, fun he => absurd he hend, rfl⟩)
      · rw [if_neg hend]
        exact Or.inr (Or.inr ⟨hstop, _, fun _ => rfl, rfl⟩)

theorem remove_cells : (c.remove seq beginIndex endIndex fails).1.cells =
    (removeLoop seq beginIndex endIndex (removeOffset beginIndex endIndex) c.cells 0 newRange).1 := by
  rcases remove_cases c seq beginIndex endIndex fails with ⟨-, h⟩ | ⟨-, -, h⟩ | ⟨-, err, -, h⟩ <;> rw [h]

/-- The cells after `Remove`, whether or not it succeeds. -/
theorem remove_removed :
    ∃ k out, Removed seq beginIndex endIndex (removeOffset beginIndex endIndex) c.cells k out ∧
      (c.remove seq beginIndex endIndex fails).1.cells = out.1 ∧
      ((c.remove seq beginIndex endIndex fails).2 = none → k = c.cells.length) := by
  obtain ⟨k, hk⟩ := removeLoop_removed seq beginIndex endIndex (removeOffset beginIndex endIndex) c.cells 0
    newRange
  refine ⟨k, _, hk, remove_cells .., fun hnone => hk.all ?_⟩
  rcases remove_cases c seq beginIndex endIndex fails with ⟨-, h⟩ | ⟨hs, -⟩ | ⟨hs, -⟩
  · rw [h] at hnone
    cases hnone
  · exact hs
  · exact hs

theorem remove_frame : (c.remove seq beginIndex endIndex fails).1 = { c with
    cells := (c.remove seq beginIndex endIndex fails).1.cells
    cellRanges := (c.remove seq beginIndex endIndex fails).1.cellRanges } := by
  rcases remove_cases c seq beginIndex endIndex fails with ⟨-, h⟩ | ⟨-, -, h⟩ | ⟨-, err, -, h⟩ <;> rw [h]

theorem remove_length : (c.remove seq beginIndex endIndex fails).1.cells.length = c.cells.length := by
  obtain ⟨k, out, hk, hcells, -⟩ := remove_removed c seq beginIndex endIndex fails
  rw [hcells, hk.length]

end

/-- A cell that does not stop the loop keeps what other sequences store. -/
theorem removeCell_other {seq beginIndex endIndex offset : Int} {cell : CacheCell} {s : Int} (hs : s ≠ seq)
    (hfree : ¬ Blocks seq endIndex cell) {p : Int} :
    (s ∈ (removeCell seq beginIndex endIndex offset cell).sequences ∧
      (removeCell seq beginIndex endIndex offset cell).pos = p) ↔ (s ∈ cell.sequences ∧ cell.pos = p) := by
  unfold removeCell
  split
  · rename_i hmem
    split
    · simp [hs]
    · split
      · rename_i hge
        have hno : s ∉ cell.sequences := fun hm => hfree ⟨hmem, hge, s, hm, hs⟩
        simp [hno]
      · exact Iff.rfl
  · exact Iff.rfl

/-- `Remove` leaves the other sequences alone, also when it fails. -/
theorem remove_stores_other (c : Causal α) {seq : Int} (beginIndex endIndex : Int)
    (fails : Nat → Nat → Nat → Bool) {s : Int} (hs : s ≠ seq) (i : Nat) (p : Int) :
    Stores (c.remove seq beginIndex endIndex fails).1.cells s i p ↔ Stores c.cells s i p := by
  obtain ⟨k, out, hk, hcells, -⟩ := remove_removed c seq beginIndex endIndex fails
  rw [hcells]
  unfold Stores
  by_cases hi : i < k
  · rw [hk.done i hi]
    cases hc : c.cells[i]? with
    | none => simp
    | some cell =>
      simp only [Option.map_some, Option.mem_def, Option.some.injEq, exists_eq_left']
      exact removeCell_other hs (hk.free i hi cell hc)
  · rw [hk.rest i (by omega)]

theorem removeCell_self {seq beginIndex endIndex offset : Int} {cell : CacheCell} {p : Int} :
    (seq ∈ (removeCell seq beginIndex endIndex offset cell).sequences ∧
      (removeCell seq beginIndex endIndex offset cell).pos = p) ↔
    seq ∈ cell.sequences ∧ ¬ (beginIndex ≤ cell.pos ∧ cell.pos < endIndex) ∧
      (if endIndex ≤ cell.pos then cell.pos + offset else cell.pos) = p := by
  unfold removeCell
  by_cases hmem : seq ∈ cell.sequences
  · simp only [hmem, if_true, true_and]
    by_cases hin : beginIndex ≤ cell.pos ∧ cell.pos < endIndex
    · simp [hin]
    · simp only [hin, if_false, not_false_eq_true, true_and]
      by_cases hge : endIndex ≤ cell.pos
      · simp [hge, hmem]
      · simp [hge, hmem]
  · simp [hmem]

/-- What a location of the visited part stores of the sequence. -/
theorem Removed.stores_done {seq beginIndex endIndex offset : Int} {cells : List CacheCell} {k : Nat}
    {out : List CacheCell × CellRange × Bool} (h : Removed seq beginIndex endIndex offset cells k out)
    {i : Nat} (hi : i < k) (p : Int) :
    Stores out.1 seq i p ↔ ∃ q, Stores cells seq i q ∧ ¬ (beginIndex ≤ q ∧ q < endIndex) ∧
      (if endIndex ≤ q then q + offset else q) = p := by
  unfold Stores
  rw [h.done i hi]
  cases hc : cells[i]? with
  | none => simp
  | some cell =>
    simp only [Option.map_some, Option.mem_def, Option.some.injEq, exists_eq_left']
    rw [removeCell_self]
    constructor
    · rintro ⟨h1, h2, h3⟩; exact ⟨_, ⟨h1, rfl⟩, h2, h3⟩
    · rintro ⟨q, ⟨h1, rfl⟩, h2, h3⟩; exact ⟨h1, h2, h3⟩

theorem Removed.stores_rest {seq beginIndex endIndex offset : Int} {cells : List CacheCell} {k : Nat}
    {out : List CacheCell × CellRange × Bool} (h : Removed seq beginIndex endIndex offset cells k out)
    {i : Nat} (hi : k ≤ i) (s p : Int) : Stores out.1 s i p ↔ Stores cells s i p := by
  unfold Stores
  rw [h.rest i hi]

/-- What a successful `Remove` leaves of the sequence: the part before, and the part after, moved. -/
theorem remove_stores_self {c : Causal α} {seq beginIndex endIndex : Int} {fails : Nat → Nat → Nat → Bool}
    (hok : (c.remove seq beginIndex endIndex fails).2 = none) (i : Nat) (p : Int) :
    Stores (c.remove seq beginIndex endIndex fails).1.cells seq i p ↔
      ∃ q, Stores c.cells seq i q ∧ ¬ (beginIndex ≤ q ∧ q < endIndex) ∧
        (if endIndex ≤ q then q + removeOffset beginIndex endIndex else q) = p := by
  obtain ⟨k, out, hk, hcells, hall⟩ := remove_removed c seq beginIndex endIndex fails
  rw [hcells]
  by_cases hi : i < k
  · exact hk.stores_done hi p
  · have hlen := hall hok
    constructor
    · intro h
      have := h.lt
      rw [hk.length] at this
      omega
    · rintro ⟨q, h, -⟩
      have := h.lt
      omega

theorem Ranged.erase {c : Causal α} {seq : Int} {cells : List CacheCell} (h : Ranged c)
    (hlen : cells.length = c.cells.length)
    (hother : ∀ s i p, s ≠ seq → Stores cells s i p → Stores c.cells s i p)
    (hseq : ∀ i p, ¬ Stores cells seq i p) :
    Ranged { c with cells := cells, cellRanges := c.cellRanges.erase seq } := by
  refine ⟨?_, ?_⟩
  · intro s i p hs
    have he : s ≠ seq := fun he => hseq i p (he ▸ hs)
    obtain ⟨t, ht, hc⟩ := h.covers s i p (hother s i p he hs)
    exact ⟨t, by rw [AList.lookup_erase_ne he]; exact ht, hc⟩
  · intro s t ht
    simp only at ht ⊢
    rw [hlen]
    by_cases he : s = seq
    · rw [he, AList.lookup_erase] at ht
      cases ht
    · rw [AList.lookup_erase_ne he] at ht
      exact h.below s t ht

/-- `Remove` never moves a sequence to another location. -/
theorem remove_stores_was {c : Causal α} {seq beginIndex endIndex : Int} {fails : Nat → Nat → Nat → Bool}
    {i : Nat} {p : Int} (h : Stores (c.remove seq beginIndex endIndex fails).1.cells seq i p) :
    ∃ q, Stores c.cells seq i q := by
  obtain ⟨k, out, hk, hcells, -⟩ := remove_removed c seq beginIndex endIndex fails
  rw [hcells] at h
  by_cases hi : i < k
  · obtain ⟨q, hq, -⟩ := (hk.stores_done hi p).mp h
    exact ⟨q, hq⟩
  · exact ⟨p, (hk.stores_rest (Nat.le_of_not_lt hi) seq p).mp h⟩

theorem remove_ranged {c : Causal α} (h : Ranged c) (seq beginIndex endIndex : Int)
    (fails : Nat → Nat → Nat → Bool) : Ranged (c.remove seq beginIndex endIndex fails).1 := by
  have hlen := remove_length c seq beginIndex endIndex fails
  have hwas : ∀ i p, Stores (c.remove seq beginIndex endIndex fails).1.cells seq i p →
      ∃ q, Stores c.cells seq i q := fun i p => remove_stores_was
  have hother : ∀ s i p, s ≠ seq → Stores (c.remove seq beginIndex endIndex fails).1.cells s i p →
      Stores c.cells s i p := fun s i p hs => (remove_stores_other c beginIndex endIndex fails hs i p).mp
  obtain ⟨-, hcov, hbel⟩ := removeLoop_range seq beginIndex endIndex
    (removeOffset beginIndex endIndex) c.cells 0 newRange
  simp only [Nat.zero_add] at hcov
  rcases remove_cases c seq beginIndex endIndex fails with ⟨-, he⟩ | ⟨hs, hnew, he⟩ | ⟨hs, err, -, he⟩
  · -- The loop stopped: the old range still covers what is left.
    rw [he] at hlen hother hwas ⊢
    refine ⟨?_, fun s r hr => hlen ▸ h.below s r hr⟩
    intro s i p hst
    by_cases hseq : s = seq
    · subst hseq
      obtain ⟨q, hq⟩ := hwas i p hst
      exact h.covers s i q hq
    · exact h.covers s i p (hother s i p hseq hst)
  · rw [he] at hlen hother ⊢
    refine h.erase hlen hother fun i p hst => ?_
    have := hcov hs i p hst
    rw [hnew] at this
    exact not_covers_newRange _ this
  · rw [he] at hlen hother ⊢
    exact h.update _ _ _ hlen hother (hcov hs) (hbel _ (by omega) (below_newRange _))

end Xdragon.Kvcache.Causal
