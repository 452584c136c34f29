import Mathlib.Algebra.BigOperators.Group.Finset.Piecewise
import Mathlib.Algebra.Order.BigOperators.Group.Finset
import Mathlib.Data.Int.Interval
import Xdragon.Kvcache.Attention

/-!
# Room in the causal cache

`Init` allocates a context for each sequence, or the memory of each sequence and one batch. What the sequences
store never needs more, because old positions are evicted before every batch.
-/

open Xdragon.Lib

namespace Xdragon.Kvcache

variable {α : Type}

/-! ## Counting cells -/

/-- How many cells have the sequence. -/
def cellsOf (cells : List CacheCell) (s : Int) : Nat := cells.countP fun cell => s ∈ cell.sequences

def freeCells (cells : List CacheCell) : Nat := cells.countP fun cell => cell.sequences = []

/-- A free cell that `findLocs` does not take would be enough for the batch. -/
theorem findLocsLoop_none {n : Nat} {cells : List CacheCell} {i : Nat} {loc : List Nat} (hloc : loc.length < n)
    (h : Causal.findLocsLoop n cells i loc = none) : loc.length + freeCells cells < n := by
  induction cells generalizing i loc with
  | nil => simpa [freeCells] using hloc
  | cons cell rest ih =>
    unfold Causal.findLocsLoop at h
    simp only [freeCells, List.countP_cons] at ih ⊢
    split at h
    · rename_i hfree
      split at h
      · cases h
      · rename_i hshort
        have := ih (by simp at hshort ⊢; omega) h
        simp [hfree] at this ⊢
        omega
    · rename_i hused
      simpa [hused] using ih hloc h

/-- Every cell that is not free belongs to one of the sequences. -/
theorem length_le_add_sum (ids : Finset Int) (cells : List CacheCell)
    (h : ∀ cell ∈ cells, ∀ s ∈ cell.sequences, s ∈ ids) :
    cells.length ≤ freeCells cells + ∑ s ∈ ids, cellsOf cells s := by
  induction cells with
  | nil => simp
  | cons cell rest ih =>
    have hrest := ih fun c hc => h c (List.mem_cons_of_mem _ hc)
    simp only [freeCells, cellsOf, List.countP_cons, List.length_cons, Finset.sum_add_distrib] at hrest ⊢
    cases hs : cell.sequences with
    | nil =>
      simp only [decide_true, if_true]
      omega
    | cons s ss =>
      have hmem : s ∈ cell.sequences := by simp [hs]
      have hone : 1 ≤ ∑ s' ∈ ids, if decide (s' ∈ s :: ss) = true then 1 else 0 := by
        calc 1 = if decide (s ∈ s :: ss) = true then 1 else 0 := by simp
          _ ≤ ∑ s' ∈ ids, if decide (s' ∈ s :: ss) = true then 1 else 0 :=
            Finset.single_le_sum (f := fun s' => if decide (s' ∈ s :: ss) = true then 1 else 0) (fun _ _ => Nat.zero_le _)
              (h cell (by simp) s hmem)
      omega

/-- The positions of a sequence, cell by cell. -/
def storedPositions (cells : List CacheCell) (s : Int) : List Int :=
  (cells.filter fun cell => s ∈ cell.sequences).map (·.pos)

theorem length_storedPositions (cells : List CacheCell) (s : Int) :
    (storedPositions cells s).length = cellsOf cells s := by
  simp [storedPositions, cellsOf, List.countP_eq_length_filter]

theorem mem_storedPositions {cells : List CacheCell} {s p : Int} :
    p ∈ storedPositions cells s ↔ ∃ i, Stores cells s i p := by
  simp only [storedPositions, List.mem_map, List.mem_filter, decide_eq_true_eq, Stores, Option.mem_def]
  constructor
  · rintro ⟨cell, ⟨hmem, hs⟩, rfl⟩
    obtain ⟨i, hi⟩ := List.getElem?_of_mem hmem
    exact ⟨i, cell, hi, hs, rfl⟩
  · rintro ⟨i, cell, hi, hs, rfl⟩
    exact ⟨cell, ⟨List.mem_of_getElem? hi, hs⟩, rfl⟩

theorem nodup_storedPositions {cells : List CacheCell} {s : Int}
    (h : ∀ i j p, Stores cells s i p → Stores cells s j p → i = j) : (storedPositions cells s).Nodup := by
  induction cells with
  | nil => simp [storedPositions]
  | cons cell rest ih =>
    have hrest := ih fun i j p hi hj => by
      have := h (i + 1) (j + 1) p (by simpa [Stores] using hi) (by simpa [Stores] using hj)
      omega
    by_cases hs : s ∈ cell.sequences
    · have hcons : storedPositions (cell :: rest) s = cell.pos :: storedPositions rest s := by
        simp [storedPositions, hs]
      rw [hcons, List.nodup_cons]
      refine ⟨fun hmem => ?_, hrest⟩
      obtain ⟨i, hi⟩ := mem_storedPositions.mp hmem
      have := h 0 (i + 1) cell.pos (by simp [Stores, hs]) (by simpa [Stores] using hi)
      omega
    · have hcons : storedPositions (cell :: rest) s = storedPositions rest s := by
        simp [storedPositions, hs]
      rwa [hcons]

/-- Different positions of an interval are not more than it has. -/
theorem length_le_of_nodup {ps : List Int} (hnd : ps.Nodup) {l : Int} {n : Nat} (h : ∀ p ∈ ps, l ≤ p ∧ p < l + n) :
    ps.length ≤ n := by
  have hsub : ps.toFinset ⊆ Finset.Ico l (l + n) := by
    intro p hp
    rw [Finset.mem_Ico]
    exact h p (List.mem_toFinset.mp hp)
  have hcard := Finset.card_le_card hsub
  rw [List.toFinset_card_of_nodup hnd, Int.card_Ico] at hcard
  omega

/-- The tokens of a batch, sequence by sequence. -/
theorem length_eq_sum (ids : Finset Int) (batch : List Token) (h : ∀ t ∈ batch, t.seq ∈ ids) :
    batch.length = ∑ s ∈ ids, (positionsOf s batch).length := by
  induction batch with
  | nil => simp [positionsOf]
  | cons t batch ih =>
    have hcons : ∀ s, (positionsOf s (t :: batch)).length =
        (positionsOf s batch).length + if s = t.seq then 1 else 0 := by
      intro s
      by_cases hs : s = t.seq
      · simp [positionsOf, hs]
      · simp [positionsOf, hs, Ne.symm hs]
    simp only [hcons, Finset.sum_add_distrib, Finset.sum_ite_eq', List.length_cons]
    rw [if_pos (h t (by simp)), ← ih fun u hu => h u (List.mem_cons_of_mem _ hu)]

namespace Causal

/-! ## What the window keeps -/

/-- The lowest position of a sequence is one of the batch, or the one after its last. -/
def Lowest (c : Causal α) (s : Int) (lowest : LowestPosition) : Prop :=
  (∃ t ∈ c.curBatch, t.seq = s ∧ lowest.pos = t.pos) ∨
    ∃ r, ⟨s, r⟩ ∈ c.cellRanges.entries ∧ lowest.pos = c.lastPos s r + 1

theorem noteLowests_lowest (batch : List Token) (m : AList (fun _ : Int => LowestPosition)) (P : Token → Prop)
    (hm : ∀ s lowest, m.lookup s = some lowest → ∃ t, P t ∧ t.seq = s ∧ lowest.pos = t.pos) (hb : ∀ t ∈ batch, P t) :
    ∀ s lowest, (batch.foldl noteLowest m).lookup s = some lowest → ∃ t, P t ∧ t.seq = s ∧ lowest.pos = t.pos := by
  induction batch generalizing m with
  | nil => exact hm
  | cons t batch ih =>
    apply ih _ _ fun u hu => hb u (List.mem_cons_of_mem _ hu)
    intro s lowest hl
    unfold noteLowest at hl
    by_cases hs : s = t.seq
    · subst hs
      split at hl <;> rw [AList.lookup_insert, Option.some.injEq] at hl <;> subst hl
      · exact ⟨t, hb t (by simp), rfl, rfl⟩
      · rename_i low hlow
        obtain ⟨u, hu, hus, hup⟩ := hm _ _ hlow
        split
        · exact ⟨t, hb t (by simp), rfl, rfl⟩
        · exact ⟨u, hu, hus, hup⟩
    · apply hm s lowest
      split at hl <;> rwa [AList.lookup_insert_ne hs] at hl

theorem noteIdles_lowest (c : Causal α) (es : List ((_ : Int) × CellRange)) (hes : ∀ e ∈ es, e ∈ c.cellRanges.entries)
    (m : AList (fun _ : Int => LowestPosition)) (hm : ∀ s lowest, m.lookup s = some lowest → Lowest c s lowest) :
    (∀ s lowest, (es.foldl c.noteIdle m).lookup s = some lowest → Lowest c s lowest) ∧
      (∀ s, (m.lookup s).isSome → ((es.foldl c.noteIdle m).lookup s).isSome) ∧
      ∀ e ∈ es, ((es.foldl c.noteIdle m).lookup e.1).isSome := by
  induction es generalizing m with
  | nil => exact ⟨hm, fun _ h => h, by simp⟩
  | cons e es ih =>
    have hstep : (∀ s lowest, (c.noteIdle m e).lookup s = some lowest → Lowest c s lowest) ∧
        (∀ s, (m.lookup s).isSome → ((c.noteIdle m e).lookup s).isSome) ∧ ((c.noteIdle m e).lookup e.1).isSome := by
      unfold noteIdle
      split
      · rename_i hnone
        refine ⟨fun s lowest hl => ?_, fun s hs => ?_, by rw [AList.lookup_insert]; rfl⟩
        · by_cases hse : s = e.1
          · subst hse
            rw [AList.lookup_insert, Option.some.injEq] at hl
            exact .inr ⟨e.2, hes e (by simp), by rw [← hl]⟩
          · rw [AList.lookup_insert_ne hse] at hl
            exact hm s lowest hl
        · have hse : s ≠ e.1 := by
            rintro rfl
            rw [hnone] at hs
            cases hs
          rwa [AList.lookup_insert_ne hse]
      · rename_i low hlow
        exact ⟨hm, fun _ h => h, by rw [hlow]; rfl⟩
    obtain ⟨h1, h2, h3⟩ := ih (fun e' he' => hes e' (List.mem_cons_of_mem _ he')) _ hstep.1
    refine ⟨h1, fun s hs => h2 s (hstep.2.1 s hs), fun e' he' => ?_⟩
    rcases List.mem_cons.mp he' with rfl | he'
    · exact h2 _ hstep.2.2
    · exact h3 e' he'

theorem lowestPos_lowest (c : Causal α) {s : Int} {r : CellRange} (hr : c.cellRanges.lookup s = some r) :
    ∃ lowest, c.lowestPos.lookup s = some lowest ∧ Lowest c s lowest := by
  have hbatch := noteLowests_lowest c.curBatch ∅ (· ∈ c.curBatch) (by simp) fun _ h => h
  obtain ⟨h1, -, h3⟩ := noteIdles_lowest c c.cellRanges.entries (fun _ h => h) (c.curBatch.foldl noteLowest ∅)
    fun s lowest hl => .inl (by
      obtain ⟨t, ht, hts, htp⟩ := hbatch s lowest hl
      exact ⟨t, ht, hts, htp⟩)
  obtain ⟨lowest, hl⟩ := Option.isSome_iff_exists.mp (h3 ⟨s, r⟩ (AList.mem_lookup_iff.mp hr))
  exact ⟨lowest, hl, h1 s lowest hl⟩

theorem foldl_max_le (c : Causal α) (seq : Int) (is : List Nat) (last : Int) :
    let out := is.foldl (fun last i =>
      let cell := c.cells.getD i default
      if seq ∈ cell.sequences then max last cell.pos else last) last
    last ≤ out ∧ ∀ i ∈ is, ∀ p, Stores c.cells seq i p → p ≤ out := by
  induction is generalizing last with
  | nil => simp
  | cons i is ih =>
    obtain ⟨h1, h2⟩ := ih (if seq ∈ (c.cells.getD i default).sequences then
      max last (c.cells.getD i default).pos else last)
    simp only [List.foldl_cons]
    refine ⟨le_trans ?_ h1, fun j hj p hp => ?_⟩
    · split
      · exact le_max_left _ _
      · exact le_rfl
    · rcases List.mem_cons.mp hj with rfl | hj
      · obtain ⟨hmem, hpos⟩ := stores_getD.mp hp
        refine le_trans ?_ h1
        rw [if_pos hmem, ← hpos]
        exact le_max_right _ _
      · exact h2 j hj p hp

theorem Ranged.le_lastPos {c : Causal α} (h : Ranged c) {s : Int} {r : CellRange} (hr : c.cellRanges.lookup s = some r)
    {i : Nat} {p : Int} (hp : Stores c.cells s i p) : p ≤ c.lastPos s r := by
  obtain ⟨r', hr', hcov⟩ := h.covers s i p hp
  rw [hr, Option.some.injEq] at hr'
  exact (foldl_max_le c s r.indices 0).2 i (Hull.mem_indices.mpr (hr' ▸ hcov)) p hp

/-- After the eviction a sequence has at most its memory, ending before its next position. -/
theorem cellsOf_updateSlidingWindow {c : Causal α} (h : Sound c) (hb : Appends c.cells c.curBatch)
    (hmem : c.swaMemorySize ≠ maxInt32) (h0 : 0 ≤ c.swaMemorySize) (s : Int) :
    cellsOf c.updateSlidingWindow.cells s ≤ c.swaMemorySize.toNat := by
  have hr : Ranged { c with curCellRange := newRange } := ⟨h.ranged.covers, h.ranged.below⟩
  have he := slides_evicted hr (lowestPos { c with curCellRange := newRange }).entries
  have hcells : c.updateSlidingWindow =
      (lowestPos { c with curCellRange := newRange }).entries.foldl slide { c with curCellRange := newRange } := by
    unfold updateSlidingWindow
    simp only [hmem, if_false]
  rw [← hcells] at he
  by_cases hno : ∃ i p, Stores c.updateSlidingWindow.cells s i p
  · obtain ⟨i₀, p₀, hp₀⟩ := hno
    obtain ⟨r, hlr, -⟩ := h.ranged.covers s i₀ p₀ ((he.stores s i₀ p₀).mp hp₀).1
    obtain ⟨lowest, hl, hlow⟩ := lowestPos_lowest { c with curCellRange := newRange } hlr
    have hbelow : ∀ i p, Stores c.cells s i p → p < lowest.pos := by
      intro i p hp
      rcases hlow with ⟨t, ht, hts, htp⟩ | ⟨r', hr', hpos⟩
      · rw [htp]
        exact (hb.token ht).2.2.1 i p (hts ▸ hp)
      · have hr' : c.cellRanges.lookup s = some r' := AList.mem_lookup_iff.mpr hr'
        have hle := h.ranged.le_lastPos hr' hp
        have hpos : lowest.pos = c.lastPos s r' + 1 := hpos
        omega
    have hnd : (storedPositions c.updateSlidingWindow.cells s).Nodup := by
      apply nodup_storedPositions
      intro i j p hi hj
      exact h.once s i j p ((he.stores s i p).mp hi).1 ((he.stores s j p).mp hj).1
    rw [← length_storedPositions]
    refine length_le_of_nodup (l := lowest.pos - c.swaMemorySize) hnd ?_
    · intro p hp
      obtain ⟨i, hi⟩ := mem_storedPositions.mp hp
      obtain ⟨hi, hkept⟩ := (he.stores s i p).mp hi
      have h1 := hbelow i p hi
      have h2 : lowest.pos - c.swaMemorySize ≤ p := hkept ⟨s, lowest⟩ (AList.mem_lookup_iff.mp hl) rfl
      omega
  · have hnil : storedPositions c.updateSlidingWindow.cells s = [] := by
      apply List.eq_nil_iff_forall_not_mem.mpr
      intro p hp
      obtain ⟨i, hi⟩ := mem_storedPositions.mp hp
      exact hno ⟨i, p, hi⟩
    rw [← length_storedPositions, hnil]
    simp

/-! ## Runs -/

/-- The runner uses the sequences of `ids`, appends whole batches, and removes ranges of positions. -/
def Within (ids : Finset Int) (capacity : Nat) (c : Causal α) : Op → Prop
  | .startForward batch => Appends c.cells batch ∧ batch ≠ [] ∧ batch.length ≤ c.maxBatch ∧
      ∀ t ∈ batch, t.seq ∈ ids ∧ (c.swaMemorySize = maxInt32 → t.pos < capacity)
  | .copyPrefix srcSeq dstSeq _ => srcSeq ≠ dstSeq ∧ dstSeq ∈ ids
  | .remove _ beginIndex endIndex _ => 0 ≤ beginIndex ∧ beginIndex ≤ endIndex ∧ endIndex ≤ maxInt32

instance (ids : Finset Int) (capacity : Nat) (c : Causal α) (op : Op) : Decidable (Within ids capacity c op) :=
  match op with
  | .startForward _ | .copyPrefix .. | .remove .. => inferInstanceAs (Decidable (_ ∧ _))

/-- A cache as `Init` leaves it, for a window and a memory that are not negative. -/
def Allocated (maxSequences capacity : Nat) (c : Causal α) : Prop :=
  ∃ (c₀ : Causal α) (maxBatch : Nat), 0 ≤ c₀.swaWindowSize ∧ 0 ≤ c₀.swaMemorySize ∧
    c₀.init maxSequences capacity maxBatch = some c

/-- The sequences store what `Init` made room for. -/
structure Roomy (ids : Finset Int) (maxSequences capacity : Nat) (c : Causal α) : Prop where
  sound : Sound c
  known : ∀ s i p, Stores c.cells s i p → s ∈ ids
  below : c.swaMemorySize = maxInt32 → ∀ s i p, Stores c.cells s i p → p < capacity
  whole : c.swaMemorySize = maxInt32 → maxSequences * capacity ≤ c.cells.length
  windows : c.swaMemorySize ≠ maxInt32 → 0 ≤ c.swaMemorySize ∧
    maxSequences * c.swaMemorySize.toNat + c.maxBatch ≤ c.cells.length

theorem le_roundUp {n pad : Nat} (hpad : 0 < pad) : (n : Int) ≤ roundUp n pad := by
  rw [roundUp_nat n pad hpad]
  have hdiv := Nat.div_add_mod (n + pad - 1) pad
  have hmod := Nat.mod_lt (n + pad - 1) hpad
  rw [Nat.mul_comm] at hdiv
  omega

theorem initMemory_nonneg {c₀ : Causal α} (hw : 0 ≤ c₀.swaWindowSize) (hm : 0 ≤ c₀.swaMemorySize)
    (maxSequences capacity : Nat) : 0 ≤ c₀.initMemory maxSequences capacity := by
  have hwin : 0 ≤ c₀.initWindow := by
    unfold initWindow
    split
    · decide
    · exact hw
  have hmem : 0 ≤ if c₀.swaMemorySize = 0 then c₀.initWindow else c₀.swaMemorySize := by
    split
    · exact hwin
    · exact hm
  unfold initMemory
  dsimp only
  generalize (if c₀.swaMemorySize = 0 then c₀.initWindow else c₀.swaMemorySize) = memory at hmem ⊢
  have hmax : 0 ≤ if memory ≠ maxInt32 ∧ 1 < maxSequences then max memory (toInt32 (c₀.initWindow + 1)) else memory := by
    split
    · exact le_trans hmem (le_max_left _ _)
    · exact hmem
  generalize (if memory ≠ maxInt32 ∧ 1 < maxSequences then max memory (toInt32 (c₀.initWindow + 1)) else memory) =
    memory at hmax ⊢
  split
  · decide
  · exact hmax

theorem roomy_allocated {ids : Finset Int} {maxSequences capacity : Nat} {c : Causal α}
    (h : Allocated maxSequences capacity c) : Roomy ids maxSequences capacity c := by
  obtain ⟨c₀, maxBatch, hw, hm, hinit⟩ := h
  obtain ⟨hno, -, -, -⟩ := init_empty hinit
  have hsound := sound_initial ⟨c₀, maxSequences, capacity, maxBatch, hinit⟩
  have h0 := initMemory_nonneg hw hm maxSequences capacity
  unfold init at hinit
  simp only at hinit
  generalize hpad : (if c₀.cachePadding = 0 then 1 else c₀.cachePadding) = pad at hinit
  have hpos : 0 < pad := by
    rw [← hpad]
    split <;> omega
  split at hinit
  · cases hinit
  · split at hinit
    · cases hinit
    · rename_i hneg
      rw [Option.some.injEq] at hinit
      subst hinit
      refine ⟨hsound, fun s i p hs => absurd hs (hno s i p), fun _ s i p hs => absurd hs (hno s i p), fun hmax => ?_,
        fun hmax => ⟨h0, ?_⟩⟩
      · have hmax : c₀.initMemory maxSequences capacity = maxInt32 := hmax
        have hsize := le_roundUp (n := maxSequences * capacity) hpos
        simp only [initSize, hmax, if_true, List.length_replicate] at hneg ⊢
        push_cast at hsize
        omega
      · have hmax : c₀.initMemory maxSequences capacity ≠ maxInt32 := hmax
        have hsize := le_roundUp (n := maxSequences * (c₀.initMemory maxSequences capacity).toNat + maxBatch) hpos
        have hcast : (maxSequences : Int) * c₀.initMemory maxSequences capacity + maxBatch =
            ((maxSequences * (c₀.initMemory maxSequences capacity).toNat + maxBatch : Nat) : Int) := by
          push_cast
          rw [Int.toNat_of_nonneg h0]
        simp only [initSize, hmax, if_false, List.length_replicate, hcast] at hneg ⊢
        omega

/-- Before the batch, there are as many free cells as it needs. -/
theorem Roomy.free {ids : Finset Int} {maxSequences capacity : Nat} {c : Causal α} {batch : List Token}
    (h : Roomy ids maxSequences capacity c) (hids : ids.card ≤ maxSequences)
    (hb : Within ids capacity c (.startForward batch)) :
    batch.length ≤ freeCells { c with curBatch := batch, opts := {} }.updateSlidingWindow.cells := by
  obtain ⟨happ, -, hlen, htok⟩ := hb
  generalize hc : { c with curBatch := batch, opts := {} } = c₁
  have hsound : Sound c₁ := by
    rw [← hc]
    exact ⟨⟨h.sound.ranged.covers, h.sound.ranged.below⟩, h.sound.once, h.sound.int32, h.sound.padding, h.sound.padded⟩
  have hw := updateSlidingWindow_windowed hsound.ranged
  have hcells : c₁.cells = c.cells := by rw [← hc]
  have hmemory : c₁.swaMemorySize = c.swaMemorySize := by rw [← hc]
  have hbatch : c₁.curBatch = batch := by rw [← hc]
  have hused := length_le_add_sum ids c₁.updateSlidingWindow.cells (by
    intro cell hcell s hs
    obtain ⟨i, hi⟩ := List.getElem?_of_mem hcell
    have hst := hw.sub s i cell.pos ⟨cell, hi, hs, rfl⟩
    rw [hcells] at hst
    exact h.known s i cell.pos hst)
  rw [hw.length, hcells] at hused
  by_cases hmax : c.swaMemorySize = maxInt32
  · have hsame : c₁.updateSlidingWindow.cells = c.cells := (hw.plain (hmemory.trans hmax)).trans hcells
    have hwhole := h.whole hmax
    -- Each sequence has its cells and its new tokens at different positions below the capacity.
    have hseq : ∀ s ∈ ids, cellsOf c.cells s + (positionsOf s batch).length ≤ capacity := by
      intro s _
      rw [← length_storedPositions, ← List.length_append]
      have hnd : (storedPositions c.cells s ++ positionsOf s batch).Nodup := by
        rw [List.nodup_append]
        refine ⟨nodup_storedPositions fun i j p hi hj => h.sound.once s i j p hi hj, ?_, ?_⟩
        · by_cases hnil : positionsOf s batch = []
          · simp [hnil]
          · obtain ⟨p, hp⟩ := List.exists_mem_of_ne_nil _ hnil
            obtain ⟨t, ht, -⟩ := List.mem_map.mp hp
            obtain ⟨ht, hts⟩ := List.mem_filter.mp ht
            have := (happ.token ht).2.2.2
            rwa [of_decide_eq_true hts] at this
        · intro p hp p' hp' heq
          obtain ⟨i, hi⟩ := mem_storedPositions.mp hp
          obtain ⟨t, ht, htp⟩ := List.mem_map.mp hp'
          obtain ⟨ht, hts⟩ := List.mem_filter.mp ht
          have := (happ.token ht).2.2.1 i p (by rw [of_decide_eq_true hts]; exact hi)
          omega
      refine length_le_of_nodup (l := 0) hnd fun p hp => ?_
      rcases List.mem_append.mp hp with hp | hp
      · obtain ⟨i, hi⟩ := mem_storedPositions.mp hp
        have h1 := h.below hmax s i p hi
        have h2 := (h.sound.int32 s i p hi).1
        omega
      · obtain ⟨t, ht, htp⟩ := List.mem_map.mp hp
        obtain ⟨ht, -⟩ := List.mem_filter.mp ht
        have h1 := (htok t ht).2 hmax
        have h2 := (happ.token ht).1
        omega
    have hsum : (∑ s ∈ ids, cellsOf c.cells s) + batch.length ≤ maxSequences * capacity := by
      rw [length_eq_sum ids batch fun t ht => (htok t ht).1, ← Finset.sum_add_distrib]
      calc ∑ s ∈ ids, (cellsOf c.cells s + (positionsOf s batch).length)
          ≤ ids.card • capacity := Finset.sum_le_card_nsmul _ _ _ hseq
        _ ≤ maxSequences * capacity := Nat.mul_le_mul_right _ hids
    rw [hsame] at hused ⊢
    omega
  · obtain ⟨h0, hwin⟩ := h.windows hmax
    have hseq : ∀ s ∈ ids, cellsOf c₁.updateSlidingWindow.cells s ≤ c.swaMemorySize.toNat := by
      intro s _
      rw [← hmemory]
      apply cellsOf_updateSlidingWindow hsound
      · rw [hcells, hbatch]
        exact happ
      · rw [hmemory]
        exact hmax
      · rw [hmemory]
        exact h0
    have hsum : ∑ s ∈ ids, cellsOf c₁.updateSlidingWindow.cells s ≤ maxSequences * c.swaMemorySize.toNat :=
      calc ∑ s ∈ ids, cellsOf c₁.updateSlidingWindow.cells s
          ≤ ids.card • c.swaMemorySize.toNat := Finset.sum_le_card_nsmul _ _ _ hseq
        _ ≤ maxSequences * c.swaMemorySize.toNat := Nat.mul_le_mul_right _ hids
    omega

theorem Roomy.startForward {ids : Finset Int} {maxSequences capacity : Nat} {c : Causal α} {batch : List Token}
    (h : Roomy ids maxSequences capacity c) (hids : ids.card ≤ maxSequences)
    (hb : Within ids capacity c (.startForward batch)) : (c.startForward batch false).2 = none := by
  have hfree := h.free hids hb
  unfold Causal.startForward
  simp only [Bool.false_eq_true, if_false]
  split
  · rename_i hnone
    exfalso
    unfold findLocs at hnone
    have hcur : { c with curBatch := batch, opts := {} }.updateSlidingWindow.curBatch = batch := by
      have hw := updateSlidingWindow_windowed (c := { c with curBatch := batch, opts := {} })
        ⟨h.sound.ranged.covers, h.sound.ranged.below⟩
      rw [hw.frame]
    rw [hcur] at hnone
    have hlt := findLocsLoop_none (by simpa [List.length_pos_iff] using hb.2.1) hnone
    simp only [List.length_nil] at hlt
    omega
  · rfl

/-- A `Remove` step moves positions down only, and never to another location. -/
theorem remove_step_sub {c c' : Causal α} {seq beginIndex endIndex : Int} {fails : Nat → Nat → Nat → Bool}
    (h : Sound c) (h0 : 0 ≤ beginIndex) (hle : beginIndex ≤ endIndex) (hmax : endIndex ≤ maxInt32)
    (hs : Causal.step c (.remove seq beginIndex endIndex fails) = some c') :
    c' = { c with cells := c'.cells, cellRanges := c'.cellRanges } ∧ c'.cells.length = c.cells.length ∧
      ∀ s i p, Stores c'.cells s i p → ∃ q, Stores c.cells s i q ∧ p ≤ q := by
  simp only [Causal.step] at hs
  cases hr : c.remove seq beginIndex endIndex fails with
  | mk c₁ err =>
    have h1 : (c.remove seq beginIndex endIndex fails).1 = c₁ := by rw [hr]
    cases err with
    | none =>
      simp only [hr, Option.some.injEq] at hs
      subst hs
      rw [← h1]
      refine ⟨remove_frame .., remove_length .., fun s i p hp => ?_⟩
      by_cases hseq : s = seq
      · subst hseq
        obtain ⟨q, hq, -, hqp⟩ := (remove_stores_self (by rw [hr]) i p).mp hp
        refine ⟨q, hq, ?_⟩
        have hoff := removeOffset_cases beginIndex endIndex
        split at hqp <;> omega
      · exact ⟨p, (remove_stores_other c beginIndex endIndex fails hseq i p).mp hp, le_rfl⟩
    | some err =>
      simp only [hr, Option.some.injEq] at hs
      subst hs
      rw [← h1]
      refine ⟨?_, ?_, fun s i p hp => ⟨p, ?_, le_rfl⟩⟩
      · rw [remove_frame, remove_frame]
      · rw [remove_length, remove_length]
      · by_cases hseq : s = seq
        · subst hseq
          exact remove_failed_clear h h0 hle hmax hp
        · rwa [remove_stores_other _ _ _ _ hseq, remove_stores_other _ _ _ _ hseq] at hp

theorem Roomy.step {ids : Finset Int} {maxSequences capacity : Nat} {c c' : Causal α} {op : Op}
    (h : Roomy ids maxSequences capacity c) (hids : ids.card ≤ maxSequences) (hl : Within ids capacity c op)
    (hs : Causal.step c op = some c') : Roomy ids maxSequences capacity c' := by
  cases op with
  | startForward batch =>
    have hok := h.startForward hids hl
    obtain ⟨happ, -, -, htok⟩ := hl
    simp only [Causal.step, Option.some.injEq] at hs
    rcases startForward_cases h.sound.ranged batch with ⟨c₁, err, he, -⟩ | ⟨c₁, he, hf⟩
    · rw [he] at hok
      cases hok
    · rw [he] at hs
      dsimp only at hs
      subst hs
      obtain ⟨old, hold, -, -, hst⟩ := hf.kept
      have hmem : c₁.swaMemorySize = c.swaMemorySize := by rw [hf.frame]
      have hbatch : c₁.maxBatch = c.maxBatch := by rw [hf.frame]
      refine ⟨hf.sound h.sound happ, fun s i p hp => ?_, fun hmax s i p hp => ?_, fun hmax => ?_, fun hmax => ?_⟩
      · rcases (hst s i p).mp hp with hp | ⟨e, he, rfl, -, -⟩
        · exact h.known s i p (hold s i p hp)
        · exact (htok e.1 (List.of_mem_zip he).1).1
      · rw [hmem] at hmax
        rcases (hst s i p).mp hp with hp | ⟨e, he, -, -, rfl⟩
        · exact h.below hmax s i p (hold s i p hp)
        · exact (htok e.1 (List.of_mem_zip he).1).2 hmax
      · rw [hf.length]
        exact h.whole (hmem ▸ hmax)
      · rw [hf.length, hmem, hbatch]
        exact h.windows (hmem ▸ hmax)
  | copyPrefix srcSeq dstSeq len =>
    obtain ⟨hne, hdst⟩ := hl
    simp only [Causal.step, Option.some.injEq] at hs
    subst hs
    have hst := @copyPrefix_stores _ c _ _ len hne
    refine ⟨sound_copyPrefix h.sound hne len, fun s i p hp => ?_, fun hmax s i p hp => ?_, fun hmax => ?_, fun hmax => ?_⟩
    · rw [hst] at hp
      split at hp
      · rename_i heq
        rwa [heq]
      · exact h.known s i p hp
    · rw [hst] at hp
      split at hp
      · exact h.below hmax srcSeq i p hp.1
      · exact h.below hmax s i p hp
    · rw [copyPrefix_length]
      exact h.whole hmax
    · rw [copyPrefix_length]
      exact h.windows hmax
  | remove seq beginIndex endIndex fails =>
    obtain ⟨h0, hle, hmax⟩ := hl
    obtain ⟨hframe, hlen, hsub⟩ := remove_step_sub h.sound h0 hle hmax hs
    have hsound := sound_removeStep h.sound h0 hle hmax hs
    have hmem : c'.swaMemorySize = c.swaMemorySize := by rw [hframe]
    have hbatch : c'.maxBatch = c.maxBatch := by rw [hframe]
    refine ⟨hsound, fun s i p hp => ?_, fun hmax s i p hp => ?_, fun hmax => ?_, fun hmax => ?_⟩
    · obtain ⟨q, hq, -⟩ := hsub s i p hp
      exact h.known s i q hq
    · obtain ⟨q, hq, hle⟩ := hsub s i p hp
      have := h.below (hmem ▸ hmax) s i q hq
      omega
    · rw [hlen]
      exact h.whole (hmem ▸ hmax)
    · rw [hlen, hmem, hbatch]
      exact h.windows (hmem ▸ hmax)

/-- Over any run of the runner, a batch finds its cells. -/
theorem startForward_has_room {ids : Finset Int} {maxSequences capacity : Nat} (hids : ids.card ≤ maxSequences)
    {c : Causal α} (hc : Reaches Causal.step (Within ids capacity) (Allocated maxSequences capacity) c)
    {batch : List Token} (hb : Within ids capacity c (.startForward batch)) :
    (c.startForward batch false).2 = none := by
  have hroomy : Roomy ids maxSequences capacity c :=
    hc.invariant (fun _ => roomy_allocated) fun _ _ _ h hl hs => h.step hids hl hs
  exact hroomy.startForward hids hb

/-- Two sequences that share their start, in windows of two positions. -/
def windowRun : List Op :=
  [.startForward [⟨0, 0⟩, ⟨0, 1⟩, ⟨0, 2⟩], .copyPrefix 0 1 3, .startForward [⟨1, 3⟩, ⟨0, 3⟩, ⟨1, 4⟩],
    .remove 1 4 5 fun _ _ _ => false, .startForward [⟨0, 4⟩, ⟨0, 5⟩, ⟨1, 4⟩]]

theorem windowRun_has_room : ∃ c : Causal Nat, Reaches Causal.step (Within {0, 1} 8) (Allocated 2 8) c ∧
    c.cells.length = 9 ∧ (c.startForward [⟨1, 5⟩, ⟨0, 6⟩, ⟨1, 6⟩] false).2 = none := by
  let c₀ := ((newSWACache 2 true : Causal Nat).init 2 8 3).get (by decide)
  let c := (exec Causal.step c₀ windowRun).get (by decide)
  have hc : Reaches Causal.step (Within {0, 1} 8) (Allocated 2 8) c :=
    reaches_of_exec (Reaches.init ⟨newSWACache 2 true, 3, by decide, by decide, (Option.some_get _).symm⟩) (by decide)
      (Option.some_get _).symm
  exact ⟨c, hc, by decide, startForward_has_room (by decide) hc (by decide)⟩

/-- A full cache has no room for a batch without tokens, a negative window does not leave a batch its cells, and
neither does a removal that starts below 0. -/
theorem outside_has_no_room :
    (∃ c : Causal Nat, ((newCausalCache true : Causal Nat).init 1 1 1).bind (exec Causal.step · [.startForward [⟨0, 0⟩]]) =
      some c ∧ (c.startForward [] false).2 = some (.kvCacheFull (some (1, 0)))) ∧
    (∃ c : Causal Nat, (newSWACache (-1) true : Causal Nat).init 1 8 4 = some c ∧
      (c.startForward [⟨0, 0⟩, ⟨0, 1⟩, ⟨0, 2⟩, ⟨0, 3⟩] false).2 = some (.kvCacheFull (some (3, 4)))) ∧
    ∃ c : Causal Nat, ((newCausalCache true : Causal Nat).init 1 1 1).bind
        (exec Causal.step · [.startForward [⟨0, 0⟩], .remove 0 (-1) 0 fun _ _ _ => false]) = some c ∧
      lastStored c.cells 0 = some (-1) ∧ (c.startForward [⟨0, 0⟩] false).2 = some (.kvCacheFull (some (1, 1))) := by
  refine ⟨⟨_, (Option.some_get (by decide)).symm, by decide⟩,
    ⟨_, (Option.some_get (by decide)).symm, by decide⟩,
    ⟨_, (Option.some_get (by decide)).symm, by decide, by decide⟩⟩

end Causal

end Xdragon.Kvcache
