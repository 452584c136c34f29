import Xdragon.Kvcache.Causal

/-!
# What a cell list stores

One spec per loop of `kvcache/causal.go`, in terms of the triples (sequence, location, position)
that the cells hold.
-/

open Xdragon.Lib

namespace Xdragon.Kvcache

/-- Location `i` holds position `p` of the sequence. -/
def Stores (cells : List CacheCell) (seq : Int) (i : Nat) (p : Int) : Prop :=
  ∃ cell ∈ cells[i]?, seq ∈ cell.sequences ∧ cell.pos = p

instance (cells : List CacheCell) (seq : Int) (i : Nat) (p : Int) : Decidable (Stores cells seq i p) := by
  unfold Stores; infer_instance

theorem Stores.lt {cells : List CacheCell} {seq : Int} {i : Nat} {p : Int} (h : Stores cells seq i p) :
    i < cells.length := by
  obtain ⟨cell, hc, _⟩ := h
  exact (List.getElem?_eq_some_iff.mp hc).1

theorem Stores.pos_eq {cells : List CacheCell} {s t : Int} {i : Nat} {p q : Int} (h : Stores cells s i p)
    (h' : Stores cells t i q) : p = q := by
  obtain ⟨c, hc, _, rfl⟩ := h
  obtain ⟨c', hc', _, rfl⟩ := h'
  rw [Option.mem_def] at hc hc'
  rw [hc, Option.some.injEq] at hc'
  rw [hc']

/-- What a loop sees when it reads location `i`. -/
theorem stores_getD {cells : List CacheCell} {seq : Int} {i : Nat} {p : Int} :
    Stores cells seq i p ↔ seq ∈ (cells.getD i default).sequences ∧ (cells.getD i default).pos = p := by
  unfold Stores
  rw [List.getD_eq_getElem?_getD]
  cases h : cells[i]? with
  | none => simp [default, instInhabitedCacheCell.default]
  | some cell => simp

theorem stores_set {cells : List CacheCell} {cell : CacheCell} {i : Nat} (hi : i < cells.length)
    {seq : Int} {j : Nat} {p : Int} :
    Stores (cells.set i cell) seq j p ↔
      if j = i then seq ∈ cell.sequences ∧ cell.pos = p else Stores cells seq j p := by
  unfold Stores
  rw [List.getElem?_set]
  by_cases h : j = i
  · subst h
    simp [hi]
  · rw [if_neg (fun e => h e.symm), if_neg h]

theorem not_covers_newRange (i : Nat) : ¬ newRange.Covers i := by
  simp only [Hull.Covers, newRange, maxInt]
  omega

theorem below_newRange (n : Nat) : newRange.Below n := Or.inr rfl

namespace Causal

variable {α : Type}

/-! ## Eviction -/

/-- What the eviction loop does at the locations `is`, for the sequence and its new range. -/
structure Slid (seq : Int) (lowest : LowestPosition) (is : List Nat) (c : Causal α) (r : CellRange)
    (c' : Causal α) (r' : CellRange) : Prop where
  frame : c' = { c with cells := c'.cells, curCellRange := c'.curCellRange }
  length : c'.cells.length = c.cells.length
  stores : ∀ s i p, Stores c'.cells s i p ↔
    Stores c.cells s i p ∧ ¬ (s = seq ∧ i ∈ is ∧ p < lowest.pos - c.swaMemorySize)
  grows : ∀ i, r.Covers i → r'.Covers i
  covers : ∀ i ∈ is, ∀ p, Stores c'.cells seq i p → r'.Covers i
  below : r.Below c.cells.length → r'.Below c.cells.length
  cur_grows : ∀ i, c.curCellRange.Covers i → c'.curCellRange.Covers i
  cur_covers : lowest.curBatch → ∀ i ∈ is, ∀ p, Stores c.cells seq i p →
    lowest.pos - c.swaWindowSize ≤ p → c'.curCellRange.Covers i
  cur_below : c.curCellRange.Below c.cells.length → c'.curCellRange.Below c.cells.length

theorem slideCell_slid (seq : Int) (lowest : LowestPosition) (c : Causal α) (r : CellRange) (i : Nat) :
    Slid seq lowest [i] c r (slideCell seq lowest (c, r) i).1 (slideCell seq lowest (c, r) i).2 := by
  unfold slideCell
  by_cases hmem : seq ∈ (c.cells.getD i default).sequences
  · have hst : Stores c.cells seq i (c.cells.getD i default).pos := stores_getD.mpr ⟨hmem, rfl⟩
    have hi := hst.lt
    simp only [hmem, if_true]
    generalize hcur : (if (lowest.curBatch : Bool) = true ∧ lowest.pos - c.swaWindowSize ≤
      (c.cells.getD i default).pos then c.curCellRange.add i else c.curCellRange) = cur
    have hgrow : ∀ j, c.curCellRange.Covers j → cur.Covers j := by
      intro j hj
      rw [← hcur]
      split
      · exact hj.add i
      · exact hj
    have hcov : (lowest.curBatch : Bool) = true → ∀ j ∈ [i], ∀ p, Stores c.cells seq j p →
        lowest.pos - c.swaWindowSize ≤ p → cur.Covers j := by
      intro hb j hj p hp hle
      rw [List.mem_singleton] at hj
      subst hj
      rw [hp.pos_eq hst] at hle
      rw [← hcur, if_pos ⟨hb, hle⟩]
      exact c.curCellRange.covers_add j
    have hbel : c.curCellRange.Below c.cells.length → cur.Below c.cells.length := by
      intro hb
      rw [← hcur]
      split
      · exact hb.add hi
      · exact hb
    split
    · rename_i hlt
      refine ⟨rfl, by simp, ?_, fun j hj => hj, ?_, fun hb => hb, hgrow, hcov, hbel⟩
      · intro s j p
        simp only [stores_set hi, List.mem_singleton]
        split
        · rename_i hji
          subst hji
          rw [@stores_getD _ s]
          simp only [List.mem_filter, bne_iff_ne, ne_eq]
          constructor
          · rintro ⟨⟨h1, h2⟩, h3⟩
            exact ⟨⟨h1, h3⟩, fun h => h2 h.1⟩
          · rintro ⟨⟨h1, h3⟩, h2⟩
            exact ⟨⟨h1, fun hs => h2 ⟨hs, trivial, h3 ▸ hlt⟩⟩, h3⟩
        · rename_i hji
          simp [hji]
      · intro j hj p hp
        rw [List.mem_singleton] at hj
        subst hj
        simp [stores_set hi] at hp
    · rename_i hge
      refine ⟨rfl, rfl, ?_, fun j hj => hj.add i, ?_, fun hb => hb.add hi, hgrow, hcov, hbel⟩
      · intro s j p
        constructor
        · intro h
          refine ⟨h, ?_⟩
          rintro ⟨rfl, hj, hlt⟩
          rw [List.mem_singleton] at hj
          subst hj
          rw [h.pos_eq hst] at hlt
          exact hge hlt
        · exact fun h => h.1
      · intro j hj p _
        rw [List.mem_singleton] at hj
        subst hj
        exact r.covers_add j
  · have hno : ∀ p, ¬ Stores c.cells seq i p := fun p h => hmem (stores_getD.mp h).1
    simp only [hmem, if_false]
    refine ⟨rfl, rfl, ?_, fun j hj => hj, ?_, fun hb => hb, fun j hj => hj, ?_, fun hb => hb⟩
    · intro s j p
      constructor
      · intro h
        refine ⟨h, ?_⟩
        rintro ⟨rfl, hj, -⟩
        rw [List.mem_singleton] at hj
        subst hj
        exact hno p h
      · exact fun h => h.1
    · intro j hj p hp
      rw [List.mem_singleton] at hj
      subst hj
      exact absurd hp (hno p)
    · intro _ j hj p hp
      rw [List.mem_singleton] at hj
      subst hj
      exact absurd hp (hno p)

theorem Slid.trans {seq : Int} {lowest : LowestPosition} {is js : List Nat} {c c' c'' : Causal α}
    {r r' r'' : CellRange} (h : Slid seq lowest is c r c' r') (h' : Slid seq lowest js c' r' c'' r'') :
    Slid seq lowest (is ++ js) c r c'' r'' := by
  have hmem : c'.swaMemorySize = c.swaMemorySize := by rw [h.frame]
  have hwin : c'.swaWindowSize = c.swaWindowSize := by rw [h.frame]
  refine ⟨?_, h'.length.trans h.length, ?_, fun i hi => h'.grows i (h.grows i hi), ?_, ?_,
    fun i hi => h'.cur_grows i (h.cur_grows i hi), ?_, ?_⟩
  · rw [h'.frame, h.frame]
  · intro s i p
    rw [h'.stores, h.stores, hmem, List.mem_append]
    tauto
  · intro i hi p hp
    rcases List.mem_append.mp hi with hi | hi
    · exact h'.grows i (h.covers i hi p ((h'.stores seq i p).mp hp).1)
    · exact h'.covers i hi p hp
  · intro hb
    have := h'.below (by rw [h.length]; exact h.below hb)
    rwa [h.length] at this
  · intro hb i hi p hp hle
    by_cases hi1 : i ∈ is
    · exact h'.cur_grows i (h.cur_covers hb i hi1 p hp hle)
    · refine h'.cur_covers hb i ((List.mem_append.mp hi).resolve_left hi1) p ?_ (by rw [hwin]; exact hle)
      exact (h.stores seq i p).mpr ⟨hp, fun hx => hi1 hx.2.1⟩
  · intro hb
    have := h'.cur_below (by rw [h.length]; exact h.cur_below hb)
    rwa [h.length] at this

theorem slid_nil (seq : Int) (lowest : LowestPosition) (c : Causal α) (r : CellRange) :
    Slid seq lowest [] c r c r :=
  ⟨rfl, rfl, by simp, fun _ h => h, by simp, id, fun _ h => h, by simp, id⟩

theorem slideCells_slid (seq : Int) (lowest : LowestPosition) (is : List Nat) (c : Causal α)
    (r : CellRange) :
    Slid seq lowest is c r (is.foldl (slideCell seq lowest) (c, r)).1
      (is.foldl (slideCell seq lowest) (c, r)).2 := by
  induction is generalizing c r with
  | nil => exact slid_nil seq lowest c r
  | cons i is ih => exact (slideCell_slid seq lowest c r i).trans (ih _ _)

/-- Every stored cell of a sequence lies in its range, and the ranges end inside the cache. -/
structure Ranged (c : Causal α) : Prop where
  covers : ∀ s i p, Stores c.cells s i p → ∃ r, c.cellRanges.lookup s = some r ∧ r.Covers i
  below : ∀ s r, c.cellRanges.lookup s = some r → r.Below c.cells.length

theorem Ranged.update {c : Causal α} (h : Ranged c) (seq : Int) (cells : List CacheCell) (r : CellRange)
    (hlen : cells.length = c.cells.length)
    (hother : ∀ s i p, s ≠ seq → Stores cells s i p → Stores c.cells s i p)
    (hseq : ∀ i p, Stores cells seq i p → r.Covers i) (hbelow : r.Below c.cells.length) :
    Ranged { c with cells := cells, cellRanges := c.cellRanges.insert seq r } := by
  refine ⟨?_, ?_⟩
  · intro s i p hs
    by_cases he : s = seq
    · subst he
      exact ⟨r, AList.lookup_insert _, hseq i p hs⟩
    · obtain ⟨t, ht, hc⟩ := h.covers s i p (hother s i p he hs)
      exact ⟨t, by rw [AList.lookup_insert_ne he]; exact ht, hc⟩
  · intro s t ht
    simp only at ht ⊢
    rw [hlen]
    by_cases he : s = seq
    · subst he
      rw [AList.lookup_insert, Option.some.injEq] at ht
      rwa [← ht]
    · rw [AList.lookup_insert_ne he] at ht
      exact h.below s t ht

/-- What evicting the sequences of `es` does to the cache. -/
structure Evicted (es : List ((_ : Int) × LowestPosition)) (c c' : Causal α) : Prop where
  frame : c' = { c with cells := c'.cells, curCellRange := c'.curCellRange, cellRanges := c'.cellRanges }
  length : c'.cells.length = c.cells.length
  stores : ∀ s i p, Stores c'.cells s i p ↔
    Stores c.cells s i p ∧ ∀ e ∈ es, s = e.1 → e.2.pos - c.swaMemorySize ≤ p
  ranged : Ranged c'
  cur_grows : ∀ i, c.curCellRange.Covers i → c'.curCellRange.Covers i
  cur_covers : ∀ e ∈ es, e.2.curBatch → ∀ i p, Stores c'.cells e.1 i p →
    e.2.pos - c.swaWindowSize ≤ p → c'.curCellRange.Covers i
  cur_below : c.curCellRange.Below c.cells.length → c'.curCellRange.Below c.cells.length

theorem slide_evicted {c : Causal α} (h : Ranged c) (e : (_ : Int) × LowestPosition) :
    Evicted [e] c (c.slide e) := by
  unfold slide
  cases hl : c.cellRanges.lookup e.1 with
  | none =>
    have hno : ∀ i p, ¬ Stores c.cells e.1 i p := by
      intro i p hs
      obtain ⟨r, hr, _⟩ := h.covers _ _ _ hs
      rw [hl] at hr
      cases hr
    refine ⟨rfl, rfl, ?_, h, fun _ hi => hi, ?_, id⟩
    · intro s i p
      refine ⟨fun hs => ⟨hs, ?_⟩, fun hs => hs.1⟩
      intro e' he' hse
      rw [List.mem_singleton.mp he'] at hse
      exact absurd (hse ▸ hs) (hno i p)
    · intro e' he' _ i p hs
      rw [List.mem_singleton.mp he'] at hs
      exact absurd hs (hno i p)
  | some oldRange =>
    have hsl := slideCells_slid e.1 e.2 oldRange.indices c newRange
    simp only
    generalize hst : oldRange.indices.foldl (slideCell e.1 e.2) (c, newRange) = st at hsl ⊢
    obtain ⟨c', r'⟩ := st
    simp only at hsl ⊢
    have hin : ∀ i p, Stores c.cells e.1 i p → i ∈ oldRange.indices := by
      intro i p hs
      obtain ⟨r, hr, hc⟩ := h.covers _ _ _ hs
      rw [hl, Option.some.injEq] at hr
      exact Hull.mem_indices.mpr (hr ▸ hc)
    have hst' : ∀ s i p, Stores c'.cells s i p ↔
        Stores c.cells s i p ∧ (s = e.1 → e.2.pos - c.swaMemorySize ≤ p) := by
      intro s i p
      rw [hsl.stores]
      refine and_congr_right fun hs => ?_
      constructor
      · intro hn he
        by_contra hlt
        exact hn ⟨he, hin i p (he ▸ hs), by omega⟩
      · rintro himp ⟨he, _, hlt⟩
        have := himp he
        omega
    have hranges : c'.cellRanges = c.cellRanges := by rw [hsl.frame]
    have hrg : Ranged { c with cells := c'.cells, cellRanges := c.cellRanges.insert e.1 r' } := by
      refine h.update _ _ _ hsl.length (fun s i p _ hs => ((hst' s i p).mp hs).1) ?_
        (hsl.below (below_newRange _))
      intro i p hs
      exact hsl.covers i (hin i p ((hst' _ i p).mp hs).1) p hs
    refine ⟨?_, hsl.length, ?_, ?_, hsl.cur_grows, ?_, hsl.cur_below⟩
    · rw [hsl.frame]
    · intro s i p
      simp only [List.mem_singleton, forall_eq]
      exact hst' s i p
    · simp only [hranges]
      exact ⟨hrg.covers, hrg.below⟩
    · intro e' he' hb i p hs hle
      rw [List.mem_singleton.mp he'] at hb hs hle
      have hs0 := ((hst' e.1 i p).mp hs).1
      exact hsl.cur_covers hb i (hin i p hs0) p hs0 hle

theorem Evicted.trans {es fs : List ((_ : Int) × LowestPosition)} {c c' c'' : Causal α}
    (h : Evicted es c c') (h' : Evicted fs c' c'') : Evicted (es ++ fs) c c'' := by
  have hmem : c'.swaMemorySize = c.swaMemorySize := by rw [h.frame]
  have hwin : c'.swaWindowSize = c.swaWindowSize := by rw [h.frame]
  refine ⟨?_, h'.length.trans h.length, ?_, h'.ranged, fun i hi => h'.cur_grows i (h.cur_grows i hi),
    ?_, ?_⟩
  · rw [h'.frame, h.frame]
  · intro s i p
    rw [h'.stores, h.stores, hmem, List.forall_mem_append, and_assoc]
  · intro e he hb i p hs hle
    rcases List.mem_append.mp he with he | he
    · exact h'.cur_grows i (h.cur_covers e he hb i p ((h'.stores _ _ _).mp hs).1 hle)
    · exact h'.cur_covers e he hb i p hs (by rw [hwin]; exact hle)
  · intro hb
    have := h'.cur_below (by rw [h.length]; exact h.cur_below hb)
    rwa [h.length] at this

theorem slides_evicted {c : Causal α} (h : Ranged c) (es : List ((_ : Int) × LowestPosition)) :
    Evicted es c (es.foldl slide c) := by
  induction es generalizing c with
  | nil => exact ⟨rfl, rfl, by simp, h, fun _ hi => hi, by simp, id⟩
  | cons e es ih =>
    have he := slide_evicted h e
    exact he.trans (ih he.ranged)

/-! ## The lowest positions -/

/-- A sequence of the batch is noted at or below each of its positions. -/
def Noted (m : AList (fun _ : Int => LowestPosition)) (t : Token) : Prop :=
  ∃ lowest, m.lookup t.seq = some lowest ∧ lowest.curBatch = true ∧ lowest.pos ≤ t.pos

/-- Only the batch is noted yet. -/
def AllCur (m : AList (fun _ : Int => LowestPosition)) : Prop :=
  ∀ s lowest, m.lookup s = some lowest → lowest.curBatch = true

theorem noteLowest_allCur {m : AList (fun _ : Int => LowestPosition)} (h : AllCur m) (t : Token) :
    AllCur (noteLowest m t) := by
  intro s lowest hs
  unfold noteLowest at hs
  by_cases hst : s = t.seq
  · subst hst
    split at hs
    · rw [AList.lookup_insert, Option.some.injEq] at hs
      rw [← hs]
    · rename_i old hold
      rw [AList.lookup_insert, Option.some.injEq] at hs
      rw [← hs]
      split
      · exact h t.seq old hold
      · exact h t.seq old hold
  · split at hs <;> rw [AList.lookup_insert_ne hst] at hs <;> exact h _ _ hs

theorem noteLowest_noted {m : AList (fun _ : Int => LowestPosition)} (h : AllCur m) (t : Token) :
    Noted (noteLowest m t) t := by
  unfold noteLowest Noted
  split
  · exact ⟨_, AList.lookup_insert _, rfl, Int.le_refl _⟩
  · rename_i old hold
    refine ⟨_, AList.lookup_insert _, ?_, ?_⟩
    · split <;> exact h t.seq old hold
    · split
      · exact Int.le_refl _
      · omega

theorem Noted.noteLowest {m : AList (fun _ : Int => LowestPosition)} {u : Token} (h : Noted m u)
    (t : Token) : Noted (noteLowest m t) u := by
  obtain ⟨lowest, hl, hb, hp⟩ := h
  unfold Causal.noteLowest Noted
  by_cases hut : u.seq = t.seq
  · rw [hut] at hl ⊢
    simp only [hl]
    refine ⟨_, AList.lookup_insert _, ?_, ?_⟩
    · split <;> exact hb
    · split
      · simp only; omega
      · exact hp
  · split <;> exact ⟨lowest, by rw [AList.lookup_insert_ne hut]; exact hl, hb, hp⟩

theorem noteLowests_noted (batch : List Token) {m : AList (fun _ : Int => LowestPosition)} (h : AllCur m) :
    (∀ t ∈ batch, Noted (batch.foldl noteLowest m) t) ∧
      ∀ u, Noted m u → Noted (batch.foldl noteLowest m) u := by
  induction batch generalizing m with
  | nil => simp
  | cons t batch ih =>
    obtain ⟨h1, h2⟩ := ih (noteLowest_allCur h t)
    refine ⟨?_, fun u hu => h2 u (hu.noteLowest t)⟩
    intro u hu
    rcases List.mem_cons.mp hu with rfl | hu
    · exact h2 u (noteLowest_noted h u)
    · exact h1 u hu

theorem Noted.noteIdle {m : AList (fun _ : Int => LowestPosition)} {u : Token} (h : Noted m u)
    (c : Causal α) (e : (_ : Int) × CellRange) : Noted (c.noteIdle m e) u := by
  obtain ⟨lowest, hl, hb⟩ := h
  unfold Causal.noteIdle
  split
  · rename_i hnone
    have hne : u.seq ≠ e.1 := by
      intro he
      rw [he, hnone] at hl
      cases hl
    exact ⟨lowest, by rw [AList.lookup_insert_ne hne]; exact hl, hb⟩
  · exact ⟨lowest, hl, hb⟩

theorem lowestPos_noted (c : Causal α) {t : Token} (ht : t ∈ c.curBatch) : Noted c.lowestPos t := by
  have hbatch := (noteLowests_noted c.curBatch (m := ∅) (by intro s l h; simp at h)).1 t ht
  unfold lowestPos
  generalize c.curBatch.foldl noteLowest ∅ = m at hbatch
  generalize c.cellRanges.entries = es
  induction es generalizing m with
  | nil => exact hbatch
  | cons e es ih => exact ih _ (hbatch.noteIdle c e)

/-! ## The window of a batch -/

theorem joinRanges_covers (ranges : AList (fun _ : Int => CellRange)) (batch : List Token)
    (r : CellRange) :
    (∀ i, r.Covers i → (batch.foldl (joinRange ranges) r).Covers i) ∧
    ∀ t ∈ batch, ∀ s, ranges.lookup t.seq = some s → ∀ i, s.Covers i →
      (batch.foldl (joinRange ranges) r).Covers i := by
  induction batch generalizing r with
  | nil => simp
  | cons t batch ih =>
    obtain ⟨h1, h2⟩ := ih (joinRange ranges r t)
    refine ⟨?_, ?_⟩
    · intro i hi
      apply h1
      unfold joinRange
      split
      · exact hi
      · exact hi.join_left _
    · intro u hu s hs i hi
      rcases List.mem_cons.mp hu with rfl | hu
      · apply h1
        simp only [joinRange, hs]
        exact hi.join_right _
      · exact h2 u hu s hs i hi

theorem joinRanges_below (ranges : AList (fun _ : Int => CellRange)) (batch : List Token) {n : Nat}
    (hb : ∀ s r, ranges.lookup s = some r → r.Below n) {r : CellRange} (hr : r.Below n) :
    (batch.foldl (joinRange ranges) r).Below n := by
  induction batch generalizing r with
  | nil => exact hr
  | cons t batch ih =>
    apply ih
    unfold joinRange
    split
    · exact hr
    · rename_i s hs
      exact hr.join (hb _ _ hs)

/-- What `updateSlidingWindow` leaves: it may drop old positions, and the current range holds
everything that the window of a batch token can reach. -/
structure Windowed (c c' : Causal α) : Prop where
  frame : c' = { c with cells := c'.cells, curCellRange := c'.curCellRange, cellRanges := c'.cellRanges }
  length : c'.cells.length = c.cells.length
  sub : ∀ s i p, Stores c'.cells s i p → Stores c.cells s i p
  plain : c.swaMemorySize = maxInt32 → c'.cells = c.cells
  ranged : Ranged c'
  cur_covers : ∀ t ∈ c.curBatch, ∀ i p, Stores c'.cells t.seq i p → t.pos - c.swaWindowSize ≤ p →
    c'.curCellRange.Covers i
  cur_below : c'.curCellRange.Below c.cells.length

theorem updateSlidingWindow_windowed {c : Causal α} (h : Ranged c) : Windowed c c.updateSlidingWindow := by
  unfold updateSlidingWindow
  simp only
  split
  · rename_i hmem
    refine ⟨rfl, rfl, fun _ _ _ hs => hs, fun _ => rfl, ⟨h.covers, h.below⟩, ?_, ?_⟩
    · intro t ht i p hs _
      obtain ⟨r, hr, hc⟩ := h.covers _ _ _ hs
      exact (joinRanges_covers c.cellRanges c.curBatch newRange).2 t ht r hr i hc
    · exact joinRanges_below _ _ h.below (below_newRange _)
  · rename_i hmem
    have hr : Ranged { c with curCellRange := newRange } := ⟨h.covers, h.below⟩
    have he := slides_evicted hr (lowestPos { c with curCellRange := newRange }).entries
    refine ⟨?_, he.length, fun s i p hs => ((he.stores s i p).mp hs).1, fun h => absurd h hmem, he.ranged,
      ?_, he.cur_below (below_newRange _)⟩
    · rw [he.frame]
    · intro t ht i p hs hle
      obtain ⟨lowest, hl, hb, hp⟩ := lowestPos_noted { c with curCellRange := newRange } ht
      have hmem := AList.mem_lookup_iff.mp hl
      refine he.cur_covers _ hmem hb i p hs ?_
      simp only; omega

/-! ## New tokens -/

/-- What `findLocs` returns, from location `i` on: free cells, each once, enough for the batch. -/
theorem findLocsLoop_spec (n : Nat) {cells : List CacheCell} {i : Nat} {loc locs : List Nat}
    (h : findLocsLoop n cells i loc = some locs) :
    ∃ new, locs = loc ++ new ∧ n ≤ locs.length ∧ new.Pairwise (· < ·) ∧
      ∀ j ∈ new, i ≤ j ∧ ∃ cell ∈ cells[j - i]?, cell.sequences = [] := by
  induction cells generalizing i loc with
  | nil => cases h
  | cons cell rest ih =>
    simp only [findLocsLoop] at h
    have hrest : ∀ {new : List Nat}, (∀ j ∈ new, i + 1 ≤ j ∧ ∃ cell ∈ rest[j - (i + 1)]?, cell.sequences = []) →
        ∀ j ∈ new, i ≤ j ∧ ∃ c ∈ (cell :: rest)[j - i]?, c.sequences = [] := by
      intro new hnew j hj
      obtain ⟨hle, hc⟩ := hnew j hj
      refine ⟨by omega, ?_⟩
      rw [show j - i = (j - (i + 1)) + 1 by omega, List.getElem?_cons_succ]
      exact hc
    split at h
    · rename_i hfree
      split at h
      · rename_i hn
        cases h
        refine ⟨[i], rfl, hn, by simp, ?_⟩
        intro j hj
        rw [List.mem_singleton.mp hj]
        exact ⟨Nat.le_refl i, cell, by simp, hfree⟩
      · obtain ⟨new, rfl, hn, hpw, hnew⟩ := ih h
        refine ⟨i :: new, by simp, hn, List.pairwise_cons.mpr ⟨?_, hpw⟩, ?_⟩
        · intro j hj
          have := (hnew j hj).1
          omega
        · intro j hj
          rcases List.mem_cons.mp hj with rfl | hj
          · exact ⟨Nat.le_refl j, cell, by simp, hfree⟩
          · exact hrest hnew j hj
    · obtain ⟨new, rfl, hn, hpw, hnew⟩ := ih h
      exact ⟨new, rfl, hn, hpw, hrest hnew⟩

theorem findLocs_spec {c : Causal α} {locs : List Nat} (h : c.findLocs = some locs) :
    c.curBatch.length ≤ locs.length ∧ locs.Nodup ∧ 0 < c.cells.length ∧
      ∀ j ∈ locs, j < c.cells.length ∧ ∀ s p, ¬ Stores c.cells s j p := by
  obtain ⟨new, hnew, hn, hpw, hfree⟩ := findLocsLoop_spec _ h
  rw [List.nil_append] at hnew
  subst hnew
  refine ⟨hn, hpw.imp (fun hlt => Nat.ne_of_lt hlt), ?_, ?_⟩
  · cases hc : c.cells with
    | nil =>
      unfold findLocs at h
      rw [hc] at h
      cases h
    | cons cell rest => simp
  · intro j hj
    obtain ⟨-, cell, hcell, hnil⟩ := hfree j hj
    rw [Nat.sub_zero] at hcell
    refine ⟨(List.getElem?_eq_some_iff.mp hcell).1, ?_⟩
    rintro s p ⟨cell', hcell', hmem, -⟩
    rw [Option.mem_def] at hcell hcell'
    rw [hcell, Option.some.injEq] at hcell'
    rw [← hcell', hnil] at hmem
    cases hmem

/-- What storing the tokens `es` at their free locations does. -/
structure Stored (es : List (Token × Nat)) (c c' : Causal α) : Prop where
  frame : c' = { c with cells := c'.cells, curCellRange := c'.curCellRange, cellRanges := c'.cellRanges }
  length : c'.cells.length = c.cells.length
  stores : ∀ s i p, Stores c'.cells s i p ↔
    Stores c.cells s i p ∨ ∃ e ∈ es, e.1.seq = s ∧ e.2 = i ∧ e.1.pos = p
  ranged : Ranged c'
  cur_grows : ∀ i, c.curCellRange.Covers i → c'.curCellRange.Covers i
  cur_covers : ∀ e ∈ es, c'.curCellRange.Covers e.2
  cur_below : c.curCellRange.Below c.cells.length → c'.curCellRange.Below c.cells.length

theorem storeToken_stored {c : Causal α} (h : Ranged c) {e : Token × Nat} (hlt : e.2 < c.cells.length)
    (hfree : ∀ s p, ¬ Stores c.cells s e.2 p) : Stored [e] c (c.storeToken e) := by
  have hst : ∀ s i p, Stores (c.storeToken e).cells s i p ↔
      Stores c.cells s i p ∨ (e.1.seq = s ∧ e.2 = i ∧ e.1.pos = p) := by
    intro s i p
    simp only [storeToken, stores_set hlt, List.mem_singleton]
    by_cases hi : i = e.2
    · subst hi
      simp only [if_true, true_and, hfree, false_or]
      rw [eq_comm (a := s)]
    · have hne : ¬ e.2 = i := fun hx => hi hx.symm
      simp only [hi, if_false, hne, false_and, and_false, or_false]
  refine ⟨rfl, by simp [storeToken], ?_, ?_, fun i hi => hi.add _, ?_, fun hb => hb.add hlt⟩
  · intro s i p
    simp only [List.mem_singleton, exists_eq_left]
    exact hst s i p
  · have hr := h.update e.1.seq (c.storeToken e).cells
      (((c.cellRanges.lookup e.1.seq).getD newRange).add e.2) (by simp [storeToken]) ?_ ?_ ?_
    · exact ⟨hr.covers, hr.below⟩
    · intro s i p hne hs
      exact ((hst s i p).mp hs).resolve_right fun hx => hne hx.1.symm
    · intro i p hs
      rcases (hst _ i p).mp hs with hs | ⟨-, rfl, -⟩
      · obtain ⟨r, hr, hc⟩ := h.covers _ _ _ hs
        rw [hr, Option.getD_some]
        exact hc.add _
      · exact Hull.covers_add _ _
    · refine Hull.Below.add ?_ hlt
      cases hl : c.cellRanges.lookup e.1.seq with
      | none => exact below_newRange _
      | some r => exact h.below _ _ hl
  · intro e' he'
    rw [List.mem_singleton.mp he']
    exact Hull.covers_add _ _

theorem Stored.trans {es fs : List (Token × Nat)} {c c' c'' : Causal α} (h : Stored es c c')
    (h' : Stored fs c' c'') : Stored (es ++ fs) c c'' := by
  refine ⟨?_, h'.length.trans h.length, ?_, h'.ranged, fun i hi => h'.cur_grows i (h.cur_grows i hi),
    ?_, ?_⟩
  · rw [h'.frame, h.frame]
  · intro s i p
    rw [h'.stores, h.stores]
    simp only [List.mem_append, or_and_right, exists_or]
    rw [or_assoc]
  · intro e he
    rcases List.mem_append.mp he with he | he
    · exact h'.cur_grows _ (h.cur_covers e he)
    · exact h'.cur_covers e he
  · intro hb
    have := h'.cur_below (by rw [h.length]; exact h.cur_below hb)
    rwa [h.length] at this

theorem storeTokens_stored {es : List (Token × Nat)} {c : Causal α} (h : Ranged c)
    (hnodup : (es.map (·.2)).Nodup) (hlt : ∀ e ∈ es, e.2 < c.cells.length)
    (hfree : ∀ e ∈ es, ∀ s p, ¬ Stores c.cells s e.2 p) : Stored es c (es.foldl storeToken c) := by
  induction es generalizing c with
  | nil => exact ⟨rfl, rfl, by simp, h, fun _ hi => hi, by simp, id⟩
  | cons e es ih =>
    rw [List.map_cons, List.nodup_cons] at hnodup
    have he := storeToken_stored h (hlt e List.mem_cons_self) (hfree e List.mem_cons_self)
    refine he.trans (ih he.ranged hnodup.2 ?_ ?_)
    · intro e' he'
      rw [he.length]
      exact hlt e' (List.mem_cons_of_mem _ he')
    · intro e' he' s p hs
      rcases (he.stores s _ p).mp hs with hs | ⟨e'', he'', -, heq, -⟩
      · exact hfree e' (List.mem_cons_of_mem _ he') s p hs
      · rw [List.mem_singleton.mp he''] at heq
        exact hnodup.1 (heq ▸ List.mem_map_of_mem he')

/-! ## Padding -/

theorem roundDown_nat (n pad : Nat) : roundDown n pad = ((n / pad * pad : Nat) : Int) := by
  unfold roundDown
  rw [← Int.ofNat_tdiv]
  rfl

theorem roundUp_nat (n pad : Nat) (hpad : 0 < pad) : roundUp n pad = (((n + pad - 1) / pad * pad : Nat) : Int) := by
  unfold roundUp
  rw [show (n : Int) + pad - 1 = ((n + pad - 1 : Nat) : Int) by omega, ← Int.ofNat_tdiv]
  rfl

/-- The padded range starts and ends at multiples of the padding, and holds the old one. -/
theorem buildMask_range {c : Causal α} (hpad : 0 < c.cachePadding) :
    c.cachePadding ∣ c.buildMask.curCellRange.min ∧ c.cachePadding ∣ c.buildMask.curCellRange.max + 1 ∧
      (∀ i, c.curCellRange.Covers i → c.buildMask.curCellRange.Covers i) ∧
      ∀ n, c.cachePadding ∣ n → c.curCellRange.max < n → c.buildMask.curCellRange.max < n := by
  have hmin : c.buildMask.curCellRange.min = c.curCellRange.min / c.cachePadding * c.cachePadding := by
    simp only [buildMask, roundDown_nat, Int.toNat_natCast]
  have hmax : c.buildMask.curCellRange.max + 1 =
      (c.curCellRange.max + 1 + c.cachePadding - 1) / c.cachePadding * c.cachePadding := by
    have hle : 1 ≤ (c.curCellRange.max + 1 + c.cachePadding - 1) / c.cachePadding * c.cachePadding := by
      apply Nat.mul_pos _ hpad
      exact Nat.div_pos (by omega) hpad
    have hup := roundUp_nat (c.curCellRange.max + 1) c.cachePadding hpad
    rw [Int.natCast_succ] at hup
    simp only [buildMask, hup]
    omega
  refine ⟨?_, ?_, ?_, ?_⟩
  · rw [hmin]; exact Nat.dvd_mul_left _ _
  · rw [hmax]; exact Nat.dvd_mul_left _ _
  · rintro i ⟨h1, h2⟩
    refine ⟨?_, ?_⟩
    · rw [hmin]
      exact (Nat.div_mul_le_self _ _).trans h1
    · have : c.curCellRange.max + 1 ≤
          (c.curCellRange.max + 1 + c.cachePadding - 1) / c.cachePadding * c.cachePadding := by
        have := Nat.div_add_mod (c.curCellRange.max + 1 + c.cachePadding - 1) c.cachePadding
        have := Nat.mod_lt (c.curCellRange.max + 1 + c.cachePadding - 1) hpad
        rw [Nat.mul_comm]
        omega
      omega
  · intro n hdvd hlt
    obtain ⟨k, rfl⟩ := hdvd
    have : (c.curCellRange.max + 1 + c.cachePadding - 1) / c.cachePadding ≤ k := by
      rw [← Nat.lt_succ_iff, Nat.div_lt_iff_lt_mul hpad, Nat.succ_mul, Nat.mul_comm]
      omega
    have := Nat.mul_le_mul_right c.cachePadding this
    rw [← hmax, Nat.mul_comm] at this
    omega

end Causal

end Xdragon.Kvcache
