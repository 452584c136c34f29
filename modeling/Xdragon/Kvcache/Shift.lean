import Mathlib.Data.List.Range
import Mathlib.Data.List.TakeWhile
import Xdragon.Kvcache.Attention

/-!
# What `Remove` hands to the shift function

`Remove` moves positions first and rotates the stored keys afterwards, one window of `maxBatch`
cells after another. A window is cut to the cells between the first and the last one to rotate.
-/

open Xdragon.Lib

namespace Xdragon.Kvcache

/-- A call of the shift function: a view of the keys of a layer, with an offset for each row. -/
structure ShiftCall where
  layer : Nat
  /-- The first row of the view. -/
  first : Nat
  offsets : List Int

/-- The rows of a call that it rotates. -/
def ShiftCall.turned (s : ShiftCall) : List Nat :=
  ((s.offsets.zipIdx s.first).filter (·.1 ≠ 0)).map (·.2)

/-- The rows of a layer that the calls rotate, in order. -/
def turnedRows (layer : Nat) (calls : List ShiftCall) : List Nat :=
  (calls.filter (·.layer = layer)).flatMap ShiftCall.turned

namespace Causal

variable {α : Type}

/-- The cells that `shift` rotates. -/
def Turns (c : Causal α) (seq beginIndex : Int) (i : Nat) : Prop :=
  seq ∈ (c.cells.getD i default).sequences ∧ beginIndex ≤ (c.cells.getD i default).pos

instance (c : Causal α) (seq beginIndex : Int) (i : Nat) : Decidable (c.Turns seq beginIndex i) := by
  unfold Turns; infer_instance

/-- `offsets` of a window, before it is cut. -/
def windowOffsets (c : Causal α) (seq beginIndex offset : Int) (start size : Nat) : List Int :=
  (List.range size).map fun i => if c.Turns seq beginIndex (start + i) then offset else 0

/-- The layers of a window, up to the first one that the shift function rejects. -/
def shiftLayers (keys : List Nat) (rejects : Nat → Bool) : List Nat :=
  keys.takeWhile (fun layer => !rejects layer) ++ (keys.find? rejects).toList

/-- The calls of `shiftLoop`. -/
def shiftCalls (c : Causal α) (seq beginIndex offset : Int) (seqMax : Nat)
    (fails : Nat → Nat → Nat → Bool) : Nat → Nat → List ShiftCall
  | 0, _ => []
  | fuel + 1, start =>
    if seqMax < start then []
    else
      let size := min (seqMax - start + 1) c.maxBatch
      match c.shiftEnds seq beginIndex start size with
      | none => c.shiftCalls seq beginIndex offset seqMax fails fuel (start + c.maxBatch)
      | some (batchFirst, batchLast) =>
        let offsets := ((c.windowOffsets seq beginIndex offset start size).take (batchLast + 1)).drop batchFirst
        let rejects := fun layer => fails layer (start + batchFirst) (batchLast + 1 - batchFirst)
        (shiftLayers c.keys rejects).map (⟨·, start + batchFirst, offsets⟩) ++
          match c.keys.find? rejects with
          | some _ => []
          | none => c.shiftCalls seq beginIndex offset seqMax fails fuel (start + c.maxBatch)

/-- The calls of the shift function that `Remove` makes. -/
def removeCalls (c : Causal α) (seq beginIndex endIndex : Int) (fails : Nat → Nat → Nat → Bool) :
    List ShiftCall :=
  let offset := removeOffset beginIndex endIndex
  let out := removeLoop seq beginIndex endIndex offset c.cells 0 newRange
  if out.2.2 = false ∧ out.2.1 ≠ newRange ∧ endIndex ≠ maxInt32 ∧ c.shiftFn then
    { c with cells := out.1, cellRanges := c.cellRanges.insert seq out.2.1 }.shiftCalls seq
      (endIndex + offset) offset out.2.1.max fails (out.2.1.max + 1 - out.2.1.min) out.2.1.min
  else []

/-! ## One window -/

section
variable (c : Causal α) (seq beginIndex : Int)

/-- The ends of a window lie around the cells to rotate. -/
theorem shiftEnds_spec (start size : Nat) :
    (∀ i < size, c.Turns seq beginIndex (start + i) →
      ∃ e, c.shiftEnds seq beginIndex start size = some e ∧ e.1 ≤ i ∧ i ≤ e.2) ∧
    ∀ e, c.shiftEnds seq beginIndex start size = some e → e.1 ≤ e.2 ∧ e.2 < size := by
  induction size with
  | zero => simp [shiftEnds]
  | succ size ih =>
    obtain ⟨ih1, ih2⟩ := ih
    have hstep : c.shiftEnds seq beginIndex start (size + 1) =
        if c.Turns seq beginIndex (start + size)
          then some (((c.shiftEnds seq beginIndex start size).map (·.1)).getD size, size)
          else c.shiftEnds seq beginIndex start size := by
      unfold shiftEnds
      rw [List.range_succ, List.foldl_append]
      rfl
    rw [hstep]
    by_cases ht : c.Turns seq beginIndex (start + size)
    · simp only [ht, if_true, Option.some.injEq]
      refine ⟨?_, ?_⟩
      · intro i hi hturn
        refine ⟨_, rfl, ?_, by simp only; omega⟩
        by_cases hlt : i < size
        · obtain ⟨e, he, hle, -⟩ := ih1 i hlt hturn
          simpa [he] using hle
        · cases he : c.shiftEnds seq beginIndex start size with
          | none => simp; omega
          | some e =>
            have := ih2 e he
            simp; omega
      · rintro e rfl
        refine ⟨?_, by simp⟩
        cases he : c.shiftEnds seq beginIndex start size with
        | none => simp
        | some e =>
          have := ih2 e he
          simp; omega
    · simp only [ht, if_false]
      refine ⟨?_, fun e he => ⟨(ih2 e he).1, (ih2 e he).2.trans (Nat.lt_succ_self _)⟩⟩
      intro i hi hturn
      have hne : i ≠ size := fun h => ht (h ▸ hturn)
      exact ih1 i (by omega) hturn

/-- Nothing outside the ends is rotated. -/
theorem filter_turns_window {start size : Nat} {e : Nat × Nat}
    (he : c.shiftEnds seq beginIndex start size = some e) :
    (List.range' start size).filter (c.Turns seq beginIndex ·) =
      (List.range' (start + e.1) (e.2 + 1 - e.1)).filter (c.Turns seq beginIndex ·) := by
  obtain ⟨h1, h2⟩ := shiftEnds_spec c seq beginIndex start size
  obtain ⟨hle, hlt⟩ := h2 e he
  have hin : ∀ i < size, c.Turns seq beginIndex (start + i) → e.1 ≤ i ∧ i ≤ e.2 := by
    intro i hi ht
    obtain ⟨e', he', hb⟩ := h1 i hi ht
    rw [he, Option.some.injEq] at he'
    exact he' ▸ hb
  have hsplit : List.range' start size = List.range' start e.1 ++
      (List.range' (start + e.1) (e.2 + 1 - e.1) ++ List.range' (start + (e.2 + 1)) (size - (e.2 + 1))) := by
    rw [show start + (e.2 + 1) = start + e.1 + (e.2 + 1 - e.1) by omega, List.range'_append_1,
      List.range'_append_1]
    congr 1
    omega
  have hout : ∀ a n, (∀ i, a ≤ start + i → start + i < a + n → i < size ∧ ¬ (e.1 ≤ i ∧ i ≤ e.2)) → start ≤ a →
      (List.range' a n).filter (c.Turns seq beginIndex ·) = [] := by
    intro a n hn ha
    rw [List.filter_eq_nil_iff]
    intro j hj
    rw [List.mem_range'_1] at hj
    obtain ⟨hsz, hno⟩ := hn (j - start) (by omega) (by omega)
    rw [decide_eq_true_eq]
    intro ht
    exact hno (hin (j - start) hsz (by rwa [show start + (j - start) = j by omega]))
  rw [hsplit, List.filter_append, List.filter_append, hout start e.1 (by omega) (Nat.le_refl _),
    hout (start + (e.2 + 1)) (size - (e.2 + 1)) (by omega) (by omega), List.nil_append, List.append_nil]

/-- The offsets of a window, cut to its ends. -/
theorem windowOffsets_cut (offset : Int) {start size first last : Nat} (hlt : last < size) :
    ((c.windowOffsets seq beginIndex offset start size).take (last + 1)).drop first =
      (List.range' first (last + 1 - first)).map fun i =>
        if c.Turns seq beginIndex (start + i) then offset else 0 := by
  unfold windowOffsets
  rw [← List.map_take, ← List.map_drop, List.take_range, Nat.min_eq_left (by omega), List.range_eq_range',
    List.drop_range', Nat.zero_add, Nat.mul_one]

/-- A call rotates exactly the cells of its view that need it. -/
theorem turned_window {offset : Int} (hoff : offset ≠ 0) (layer start first n : Nat) :
    ShiftCall.turned ⟨layer, start + first, (List.range' first n).map fun i =>
      if c.Turns seq beginIndex (start + i) then offset else 0⟩ =
      (List.range' (start + first) n).filter (c.Turns seq beginIndex ·) := by
  unfold ShiftCall.turned
  induction n generalizing first with
  | zero => rfl
  | succ n ih =>
    have ih := ih (first + 1)
    simp only [← Nat.add_assoc, ne_eq, decide_not] at ih
    by_cases ht : c.Turns seq beginIndex (start + first)
    · simp [List.range'_succ, ht, hoff, ih]
    · simp [List.range'_succ, ht, ih]

end

/-- Without a rejection every layer is called once. -/
theorem shiftLayers_all {keys : List Nat} {rejects : Nat → Bool} (h : keys.find? rejects = none) :
    shiftLayers keys rejects = keys := by
  rw [List.find?_eq_none] at h
  rw [shiftLayers, List.find?_eq_none.mpr h, Option.toList_none, List.append_nil, List.takeWhile_eq_self_iff]
  simpa using h

theorem turnedRows_append (layer : Nat) (xs ys : List ShiftCall) :
    turnedRows layer (xs ++ ys) = turnedRows layer xs ++ turnedRows layer ys := by
  simp [turnedRows]

/-- One call for each layer: a layer gets its own once. -/
theorem turnedRows_layers {keys : List Nat} (hnd : keys.Nodup) {layer : Nat} (hl : layer ∈ keys) (first : Nat)
    (offsets : List Int) :
    turnedRows layer (keys.map (⟨·, first, offsets⟩)) = ShiftCall.turned ⟨layer, first, offsets⟩ := by
  have hone : keys.filter (· = layer) = [layer] := by
    rw [List.filter_eq, List.count_eq_one_of_mem hnd hl]
    rfl
  unfold turnedRows
  rw [List.filter_map]
  have hcomp : ((fun s : ShiftCall => decide (s.layer = layer)) ∘ fun l => ⟨l, first, offsets⟩) =
      fun l => decide (l = layer) := rfl
  rw [hcomp, hone]
  simp

/-! ## All windows -/

theorem shiftLoop_rows {c : Causal α} {seq beginIndex offset : Int} {seqMax : Nat}
    {fails : Nat → Nat → Nat → Bool} (hnd : c.keys.Nodup) {layer : Nat} (hl : layer ∈ c.keys)
    (hbatch : 0 < c.maxBatch) (hoff : offset ≠ 0) (fuel : Nat) {start : Nat} (hfuel : seqMax + 1 - start ≤ fuel)
    (hok : c.shiftLoop seq beginIndex seqMax fails fuel start = none) :
    turnedRows layer (c.shiftCalls seq beginIndex offset seqMax fails fuel start) =
      (List.range' start (seqMax + 1 - start)).filter (c.Turns seq beginIndex ·) := by
  induction fuel generalizing start with
  | zero =>
    rw [show seqMax + 1 - start = 0 by omega]
    rfl
  | succ fuel ih =>
    unfold shiftLoop at hok
    unfold shiftCalls
    by_cases hlt : seqMax < start
    · rw [if_pos hlt, show seqMax + 1 - start = 0 by omega]
      rfl
    · rw [if_neg hlt] at hok ⊢
      simp only at hok ⊢
      generalize hsize : min (seqMax - start + 1) c.maxBatch = size at hok ⊢
      -- This window, and the windows after it.
      have hsplit : List.range' start (seqMax + 1 - start) =
          List.range' start size ++ List.range' (start + c.maxBatch) (seqMax + 1 - (start + c.maxBatch)) := by
        rcases Nat.le_total (seqMax - start + 1) c.maxBatch with h | h
        · rw [show seqMax + 1 - (start + c.maxBatch) = 0 by omega, show seqMax + 1 - start = size by omega]
          simp
        · rw [show size = c.maxBatch by omega, List.range'_append_1]
          congr 1
          omega
      have ih := @ih (start + c.maxBatch) (by omega)
      rw [hsplit, List.filter_append]
      cases hends : c.shiftEnds seq beginIndex start size with
      | none =>
        rw [hends] at hok
        have hnone : (List.range' start size).filter (c.Turns seq beginIndex ·) = [] := by
          rw [List.filter_eq_nil_iff]
          intro j hj
          rw [List.mem_range'_1] at hj
          rw [decide_eq_true_eq]
          intro ht
          obtain ⟨e, he, -⟩ := (shiftEnds_spec c seq beginIndex start size).1 (j - start) (by omega)
            (by rwa [show start + (j - start) = j by omega])
          rw [hends] at he
          cases he
        rw [hnone, List.nil_append]
        exact ih hok
      | some e =>
        obtain ⟨batchFirst, batchLast⟩ := e
        rw [hends] at hok
        simp only at hok ⊢
        have hbound := (shiftEnds_spec c seq beginIndex start size).2 _ hends
        cases hfind : c.keys.find? fun layer =>
            fails layer (start + batchFirst) (batchLast + 1 - batchFirst) with
        | some l =>
          rw [hfind] at hok
          cases hok
        | none =>
          rw [hfind] at hok
          rw [shiftLayers_all hfind, turnedRows_append, turnedRows_layers hnd hl,
            windowOffsets_cut c seq beginIndex offset hbound.2, turned_window c seq beginIndex hoff,
            filter_turns_window c seq beginIndex hends]
          exact congrArg _ (ih hok)

/-- The cell moved from one position to another. -/
def Moved (c c' : Causal α) (seq : Int) (i : Nat) : Prop :=
  ∃ p p', Stores c.cells seq i p ∧ Stores c'.cells seq i p' ∧ p ≠ p'

/-- After a removal in the middle, the rotated rows are those of the moved cells, once each. -/
theorem removeCalls_rows {c : Causal α} {seq beginIndex endIndex : Int} {fails : Nat → Nat → Nat → Bool}
    (hnd : c.keys.Nodup) {layer : Nat} (hl : layer ∈ c.keys) (hbatch : 0 < c.maxBatch)
    (hlt : beginIndex < endIndex) (hend : endIndex ≠ maxInt32)
    (hok : (c.remove seq beginIndex endIndex fails).2 = none) :
    (turnedRows layer (c.removeCalls seq beginIndex endIndex fails)).Nodup ∧
      ∀ i, i ∈ turnedRows layer (c.removeCalls seq beginIndex endIndex fails) ↔
        Moved c (c.remove seq beginIndex endIndex fails).1 seq i := by
  have hoff : removeOffset beginIndex endIndex = beginIndex - endIndex := if_pos hend
  have hself := remove_stores_self hok
  have hcells := remove_cells c seq beginIndex endIndex fails
  obtain ⟨-, hcov, -⟩ := removeLoop_range seq beginIndex endIndex (removeOffset beginIndex endIndex)
    c.cells 0 newRange
  simp only [Nat.zero_add] at hcov
  unfold remove at hok
  unfold removeCalls
  simp only at hok ⊢
  rw [hcells] at hself
  generalize hout : removeLoop seq beginIndex endIndex (removeOffset beginIndex endIndex) c.cells 0 newRange =
    out at hok hself hcov hcells ⊢
  -- A cell that ends at or behind the removed part is one that moved there.
  have hmoved : ∀ i, Moved c (c.remove seq beginIndex endIndex fails).1 seq i ↔
      ∃ p, Stores out.1 seq i p ∧ beginIndex ≤ p := by
    intro i
    unfold Moved
    rw [hcells]
    constructor
    · rintro ⟨p, p', hp, hp', hne⟩
      refine ⟨p', hp', ?_⟩
      obtain ⟨q, hq, -, he⟩ := (hself i p').mp hp'
      have := hq.pos_eq hp
      split at he <;> omega
    · rintro ⟨p', hp', hle⟩
      obtain ⟨q, hq, hno, he⟩ := (hself i p').mp hp'
      refine ⟨q, p', hq, hp', ?_⟩
      split at he <;> omega
  by_cases hstop : out.2.2 = true
  · rw [if_pos hstop] at hok
    cases hok
  · rw [if_neg hstop] at hok
    rw [Bool.not_eq_true] at hstop
    by_cases hnew : out.2.1 = newRange
    · rw [if_neg fun h => h.2.1 hnew]
      refine ⟨List.nodup_nil, fun i => ?_⟩
      rw [hmoved]
      refine ⟨fun h => absurd h List.not_mem_nil, ?_⟩
      rintro ⟨p, hp, -⟩
      have := hcov hstop i p hp
      rw [hnew] at this
      exact absurd this (not_covers_newRange i)
    · rw [if_neg hnew, if_pos hend] at hok
      unfold shift at hok
      cases hshift : c.shiftFn with
      | false => simp [hshift] at hok
      | true =>
        simp only [hshift, if_true, AList.lookup_insert, Option.getD_some] at hok
        rw [if_pos ⟨hstop, hnew, hend, rfl⟩]
        have hne : removeOffset beginIndex endIndex ≠ 0 := by omega
        have hrows := shiftLoop_rows (c := { c with
          cells := out.1, cellRanges := c.cellRanges.insert seq out.2.1, shiftFn := true })
          hnd hl hbatch hne _ (Nat.le_refl _) hok
        rw [hrows]
        refine ⟨(List.nodup_range' 1).filter _, fun i => ?_⟩
        rw [hmoved, List.mem_filter, List.mem_range'_1, decide_eq_true_eq]
        constructor
        · rintro ⟨-, hmem, hle⟩
          exact ⟨(out.1.getD i default).pos, stores_getD.mpr ⟨hmem, rfl⟩, by simp only at hle; omega⟩
        · rintro ⟨p, hp, hle⟩
          obtain ⟨hmem, hpos⟩ := stores_getD.mp hp
          obtain ⟨hmin, hmax⟩ := hcov hstop i p hp
          exact ⟨⟨hmin, by omega⟩, hmem, by rw [hpos]; omega⟩

/-! ## Removing everything -/

/-- Every position is one that `Remove` of the whole sequence reaches. -/
def Bounded (cells : List CacheCell) : Prop := ∀ cell ∈ cells, 0 ≤ cell.pos ∧ cell.pos < maxInt32

theorem removeLoop_all {seq : Int} {cells : List CacheCell} (h : Bounded cells) (i : Nat) (r : CellRange) :
    removeLoop seq 0 maxInt32 0 cells i r =
      (cells.map fun cell => { cell with sequences := cell.sequences.filter (· != seq) }, r, false) := by
  induction cells generalizing i r with
  | nil => rfl
  | cons cell rest ih =>
    have hcell := h cell (List.mem_cons_self ..)
    have ih := fun i => ih (fun c hc => h c (List.mem_cons_of_mem _ hc)) i r
    unfold removeLoop
    by_cases hmem : seq ∈ cell.sequences
    · rw [if_pos hmem, if_pos hcell, ih]
      rfl
    · have hsame : cell.sequences.filter (· != seq) = cell.sequences := by
        rw [List.filter_eq_self]
        intro s hs
        rw [bne_iff_ne]
        rintro rfl
        exact hmem hs
      rw [if_neg hmem, ih, List.map_cons, hsame]

/-- Nothing mentions the sequence. -/
def Forgotten (c : Causal α) (seq : Int) : Prop :=
  (∀ cell ∈ c.cells, seq ∉ cell.sequences) ∧ seq ∉ c.cellRanges

theorem remove_all {c : Causal α} (h : Bounded c.cells) (seq : Int) (fails : Nat → Nat → Nat → Bool) :
    (c.remove seq 0 maxInt32 fails).2 = none ∧ Forgotten (c.remove seq 0 maxInt32 fails).1 seq := by
  have hoff : removeOffset 0 maxInt32 = 0 := rfl
  unfold remove Forgotten
  simp only [hoff, removeLoop_all h]
  refine ⟨rfl, ?_, ?_⟩
  · intro cell hcell
    simp only [Bool.false_eq_true, if_false, if_true, List.mem_map] at hcell
    obtain ⟨old, -, rfl⟩ := hcell
    simp
  · simp [AList.mem_erase]

/-- What every run keeps: the positions, and that a layer has one tensor of keys. -/
structure Ordinary (c : Causal α) : Prop where
  bounded : Bounded c.cells
  keys : c.keys.Nodup

theorem Bounded.set {cells : List CacheCell} (h : Bounded cells) (cell : CacheCell)
    (hcell : 0 ≤ cell.pos ∧ cell.pos < maxInt32) (i : Nat) : Bounded (cells.set i cell) := by
  intro c hc
  rcases List.mem_or_eq_of_mem_set hc with hc | rfl
  · exact h c hc
  · exact hcell

theorem Bounded.getD {cells : List CacheCell} (h : Bounded cells) (i : Nat) :
    0 ≤ (cells.getD i default).pos ∧ (cells.getD i default).pos < maxInt32 := by
  rw [List.getD_eq_getElem?_getD]
  cases hc : cells[i]? with
  | none => decide
  | some cell => exact h cell (List.mem_of_getElem? hc)

theorem Ordinary.slideCell {st : Causal α × CellRange} (h : Ordinary st.1) (seq : Int) (lowest : LowestPosition)
    (i : Nat) : Ordinary (slideCell seq lowest st i).1 := by
  have hset := h.bounded.set ⟨(st.1.cells.getD i default).pos,
    (st.1.cells.getD i default).sequences.filter (· != seq)⟩ (h.bounded.getD i) i
  unfold Causal.slideCell
  simp only
  split
  · split
    · exact ⟨hset, h.keys⟩
    · exact ⟨h.bounded, h.keys⟩
  · exact h

theorem Ordinary.slide {c : Causal α} (h : Ordinary c) (e : (_ : Int) × LowestPosition) :
    Ordinary (c.slide e) := by
  unfold Causal.slide
  split
  · exact h
  · rename_i r _
    have hfold : Ordinary (r.indices.foldl (Causal.slideCell e.1 e.2) (c, newRange)).1 :=
      List.foldlRecOn r.indices _ (motive := fun st : Causal α × CellRange => Ordinary st.1) h
        fun _ hst i _ => hst.slideCell e.1 e.2 i
    exact ⟨hfold.bounded, hfold.keys⟩

theorem Ordinary.updateSlidingWindow {c : Causal α} (h : Ordinary c) : Ordinary c.updateSlidingWindow := by
  unfold Causal.updateSlidingWindow
  simp only
  split
  · exact ⟨h.bounded, h.keys⟩
  · exact List.foldlRecOn _ _ (motive := Ordinary) ⟨h.bounded, h.keys⟩ fun _ hc e _ => hc.slide e

theorem Ordinary.startForward {c : Causal α} (h : Ordinary c) {batch : List Token}
    (hb : ∀ t ∈ batch, 0 ≤ t.pos ∧ t.pos < maxInt32) (reserve : Bool) :
    Ordinary (c.startForward batch reserve).1 := by
  have hw := (Ordinary.mk (c := { c with curBatch := batch, opts := {} }) h.bounded h.keys).updateSlidingWindow
  unfold Causal.startForward
  simp only
  split
  · exact ⟨h.bounded, h.keys⟩
  · split
    · exact hw
    · rename_i locs _
      have hfold : Ordinary ((batch.zip locs).foldl storeToken
          { c with curBatch := batch, opts := {} }.updateSlidingWindow) :=
        List.foldlRecOn _ _ (motive := Ordinary) hw fun c hc e he =>
          ⟨hc.bounded.set _ (hb e.1 (List.of_mem_zip he).1) e.2, hc.keys⟩
      exact ⟨hfold.bounded, hfold.keys⟩

theorem Ordinary.copyPrefix {c : Causal α} (h : Ordinary c) (srcSeq dstSeq len : Int) :
    Ordinary (c.copyPrefix srcSeq dstSeq len) := by
  refine ⟨?_, h.keys⟩
  simp only [Causal.copyPrefix, (copyLoop_spec srcSeq dstSeq len c.cells 0 newRange).1]
  intro cell hcell
  rw [List.mem_map] at hcell
  obtain ⟨old, hold, rfl⟩ := hcell
  rw [copyCell_pos]
  exact h.bounded old hold

theorem removeCell_bounded {beginIndex endIndex : Int} (h0 : 0 ≤ beginIndex) (hle : beginIndex ≤ endIndex)
    (seq : Int) {cell : CacheCell} (h : 0 ≤ cell.pos ∧ cell.pos < maxInt32) :
    0 ≤ (removeCell seq beginIndex endIndex (removeOffset beginIndex endIndex) cell).pos ∧
      (removeCell seq beginIndex endIndex (removeOffset beginIndex endIndex) cell).pos < maxInt32 := by
  have hoff := removeOffset_cases beginIndex endIndex
  unfold removeCell
  split
  · split
    · exact h
    · split
      · simp only
        omega
      · exact h
  · exact h

theorem Bounded.remove {c : Causal α} (h : Bounded c.cells) {beginIndex endIndex : Int} (h0 : 0 ≤ beginIndex)
    (hle : beginIndex ≤ endIndex) (seq : Int) (fails : Nat → Nat → Nat → Bool) :
    Bounded (c.remove seq beginIndex endIndex fails).1.cells := by
  obtain ⟨k, out, hk, hcells, -⟩ := remove_removed c seq beginIndex endIndex fails
  rw [hcells]
  intro cell hcell
  obtain ⟨j, hj⟩ := List.mem_iff_getElem?.mp hcell
  by_cases hjk : j < k
  · rw [hk.done j hjk, Option.map_eq_some_iff] at hj
    obtain ⟨old, hold, rfl⟩ := hj
    exact removeCell_bounded h0 hle seq (h old (List.mem_of_getElem? hold))
  · rw [hk.rest j (Nat.le_of_not_lt hjk)] at hj
    exact h cell (List.mem_of_getElem? hj)

theorem Ordinary.remove {c : Causal α} (h : Ordinary c) {beginIndex endIndex : Int} (h0 : 0 ≤ beginIndex)
    (hle : beginIndex ≤ endIndex) (seq : Int) (fails : Nat → Nat → Nat → Bool) :
    Ordinary (c.remove seq beginIndex endIndex fails).1 :=
  ⟨h.bounded.remove h0 hle seq fails, by rw [remove_frame]; exact h.keys⟩

/-! ## Runs -/

/-- An operation of the interface, with nothing done after a failure. -/
inductive Edit where
  | startForward (batch : List Token) (reserve : Bool)
  | copyPrefix (srcSeq dstSeq len : Int)
  | remove (seq beginIndex endIndex : Int) (fails : Nat → Nat → Nat → Bool)

def edit (c : Causal α) : Edit → Option (Causal α)
  | .startForward batch reserve => some (c.startForward batch reserve).1
  | .copyPrefix srcSeq dstSeq len => some (c.copyPrefix srcSeq dstSeq len)
  | .remove seq beginIndex endIndex fails => some (c.remove seq beginIndex endIndex fails).1

/-- Positions are at least 0 and smaller than `maxInt32`, which stands for the end of a sequence. -/
def InRange : Edit → Prop
  | .startForward batch _ => ∀ t ∈ batch, 0 ≤ t.pos ∧ t.pos < maxInt32
  | .copyPrefix _ _ _ => True
  | .remove _ beginIndex endIndex _ => 0 ≤ beginIndex ∧ beginIndex < endIndex

instance : DecidablePred InRange
  | .startForward batch _ => inferInstanceAs (Decidable (∀ t ∈ batch, 0 ≤ t.pos ∧ t.pos < maxInt32))
  | .copyPrefix _ _ _ => inferInstanceAs (Decidable True)
  | .remove _ beginIndex endIndex _ => inferInstanceAs (Decidable (0 ≤ beginIndex ∧ beginIndex < endIndex))

/-- A new cache. The map of the keys has each layer once. -/
def Fresh (c : Causal α) : Prop := Initial c ∧ c.keys.Nodup

theorem ordinary_fresh {c : Causal α} (h : Fresh c) : Ordinary c := by
  obtain ⟨⟨c₀, n, capacity, maxBatch, hinit⟩, hkeys⟩ := h
  refine ⟨?_, hkeys⟩
  unfold init at hinit
  simp only at hinit
  generalize (if c₀.cachePadding = 0 then 1 else c₀.cachePadding) = padding at hinit
  split at hinit
  · cases hinit
  · split at hinit
    · cases hinit
    · rw [Option.some.injEq] at hinit
      subst hinit
      intro cell hcell
      rw [List.eq_of_mem_replicate hcell]
      decide

theorem reaches_ordinary {c : Causal α} (h : Reaches edit (fun _ e => InRange e) Fresh c) : Ordinary c := by
  refine h.invariant (fun _ => ordinary_fresh) ?_
  rintro c e c' hc hok hs
  unfold edit at hs
  cases e with
  | startForward batch reserve =>
    rw [Option.some.injEq] at hs
    exact hs ▸ hc.startForward hok reserve
  | copyPrefix srcSeq dstSeq len =>
    rw [Option.some.injEq] at hs
    exact hs ▸ hc.copyPrefix srcSeq dstSeq len
  | remove seq beginIndex endIndex fails =>
    rw [Option.some.injEq] at hs
    exact hs ▸ hc.remove hok.1 (Int.le_of_lt hok.2) seq fails

/-- Whether or not it succeeds, `Remove` touches no other sequence. After a failure the sequence can
be dropped for good, and a success rotates the keys of the moved cells, each once. -/
theorem remove_recoverable {c : Causal α} (h : Reaches edit (fun _ e => InRange e) Fresh c)
    (seq : Int) {beginIndex endIndex : Int} (h0 : 0 ≤ beginIndex) (hlt : beginIndex < endIndex)
    (fails : Nat → Nat → Nat → Bool) :
    (∀ s, s ≠ seq → ∀ i p, Stores (c.remove seq beginIndex endIndex fails).1.cells s i p ↔
      Stores c.cells s i p) ∧
    ((c.remove seq beginIndex endIndex fails).2 ≠ none → ∀ fails',
      Forgotten ((c.remove seq beginIndex endIndex fails).1.remove seq 0 maxInt32 fails').1 seq) ∧
    ((c.remove seq beginIndex endIndex fails).2 = none → endIndex ≠ maxInt32 → 1 ≤ c.maxBatch →
      ∀ layer ∈ c.keys, (turnedRows layer (c.removeCalls seq beginIndex endIndex fails)).Nodup ∧
        ∀ i, i ∈ turnedRows layer (c.removeCalls seq beginIndex endIndex fails) ↔
          Moved c (c.remove seq beginIndex endIndex fails).1 seq i) := by
  have hc := reaches_ordinary h
  refine ⟨fun s hs => remove_stores_other c beginIndex endIndex fails hs, ?_, ?_⟩
  · intro _ fails'
    exact (remove_all (hc.remove h0 (Int.le_of_lt hlt) seq fails).bounded seq fails').2
  · intro hok hend hbatch layer hl
    exact removeCalls_rows hc.keys hl hbatch hlt hend hok

/-- Two sequences with a shared prefix, and a removal that failed. -/
def forkedRun : List Edit :=
  [.startForward [⟨0, 0⟩, ⟨0, 1⟩, ⟨0, 2⟩] false, .copyPrefix 0 1 2,
    .startForward [⟨1, 2⟩, ⟨0, 3⟩, ⟨1, 3⟩] false, .remove 0 0 1 fun _ _ _ => false]

/-- Windows of one cell: the shift of the second sequence goes through, and the one of the first fails. -/
theorem forkedRun_recoverable : ∃ c : Causal Nat, Reaches edit (fun _ e => InRange e) Fresh c ∧
    (c.remove 1 2 3 fun _ _ _ => false).2 = none ∧ 1 ≤ c.maxBatch ∧ c.keys = [0, 2] ∧
    (turnedRows 2 (c.removeCalls 1 2 3 fun _ _ _ => false)).Nodup ∧
    (∀ i, i ∈ turnedRows 2 (c.removeCalls 1 2 3 fun _ _ _ => false) ↔
      Moved c (c.remove 1 2 3 fun _ _ _ => false).1 1 i) ∧
    (c.remove 0 0 1 fun _ _ _ => false).2 ≠ none ∧
    Forgotten ((c.remove 0 0 1 fun _ _ _ => false).1.remove 0 0 maxInt32 fun _ _ _ => false).1 0 := by
  let c₀ := (({ newCausalCache true with keys := [0, 2] } : Causal Nat).init 2 8 1).get (by decide)
  let c := (exec edit c₀ forkedRun).get (by decide)
  have hfresh : Fresh c₀ := ⟨⟨_, 2, 8, 1, (Option.some_get _).symm⟩, by decide⟩
  have hc : Reaches edit (fun _ e => InRange e) Fresh c :=
    reaches_of_exec (Reaches.init hfresh) (by decide) (Option.some_get _).symm
  have hok : (c.remove 1 2 3 fun _ _ _ => false).2 = none := by decide
  have hfail : (c.remove 0 0 1 fun _ _ _ => false).2 ≠ none := by decide
  have hrows := (remove_recoverable hc 1 (by decide) (by decide) fun _ _ _ => false).2.2 hok (by decide)
    (by decide) 2 (by decide)
  have hdrop := (remove_recoverable hc 0 (by decide) (by decide) fun _ _ _ => false).2.1 hfail
  exact ⟨c, hc, hok, by decide, by decide, hrows.1, hrows.2, hfail, hdrop _⟩

end Causal

end Xdragon.Kvcache
