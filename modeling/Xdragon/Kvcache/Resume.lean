import Xdragon.Kvcache.Shift

/-!
# Resuming a sequence

`CanResume` looks at the first and the last position of a sequence only. In every run the positions between them are
stored, so that the window is complete. A cache whose memory is not limited does not look at all.
-/

open Xdragon.Lib

namespace Xdragon.Kvcache

variable {α : Type}

/-- What lies between two positions of a sequence is stored. -/
def Contiguous (cells : List CacheCell) : Prop :=
  ∀ s i j p q, Stores cells s i p → Stores cells s j q → ∀ r, p ≤ r → r ≤ q → ∃ k, Stores cells s k r

/-- The cells of the first list have what the second has from some position on, for each sequence. -/
structure Upper (old cells : List CacheCell) : Prop where
  sub : ∀ s i p, Stores old s i p → Stores cells s i p
  upper : ∀ s i j p q, Stores old s i p → Stores cells s j q → p ≤ q → Stores old s j q

theorem Upper.contiguous {old cells : List CacheCell} (h : Upper old cells) (hc : Contiguous cells) : Contiguous old := by
  intro s i j p q hp hq r hpr hrq
  obtain ⟨k, hk⟩ := hc s i j p q (h.sub s i p hp) (h.sub s j q hq) r hpr hrq
  exact ⟨k, h.upper s i k p r hp hk hpr⟩

theorem lastStored_stores {cells : List CacheCell} {seq l : Int} (h : lastStored cells seq = some l) :
    ∃ i, Stores cells seq i l := by
  have hmem : l ∈ (cells.filter fun cell => seq ∈ cell.sequences).map (·.pos) := (List.max?_eq_some_iff.mp h).1
  obtain ⟨cell, hcell, rfl⟩ := List.mem_map.mp hmem
  obtain ⟨hcell, hseq⟩ := List.mem_filter.mp hcell
  obtain ⟨i, hi⟩ := List.getElem?_of_mem hcell
  exact ⟨i, cell, hi, by simpa using hseq, rfl⟩

/-- The positions of a sequence in a batch that appends, from the first one on. -/
theorem Appends.run {cells : List CacheCell} {batch : List Token} (h : Appends cells batch) {t : Token} (ht : t ∈ batch) :
    ∃ p₀, (∀ l, lastStored cells t.seq = some l → p₀ = l + 1) ∧ (∀ u ∈ batch, u.seq = t.seq → p₀ ≤ u.pos) ∧
      ∀ r, p₀ ≤ r → r ≤ t.pos → ∃ u ∈ batch, u.seq = t.seq ∧ u.pos = r := by
  have hmem {p : Int} : p ∈ positionsOf t.seq batch ↔ ∃ u ∈ batch, u.seq = t.seq ∧ u.pos = p := by
    simp only [positionsOf, List.mem_map, List.mem_filter, decide_eq_true_eq, and_assoc]
  obtain ⟨p₀, hp₀⟩ : ∃ p, (positionsOf t.seq batch).head? = some p := by
    cases hps : positionsOf t.seq batch with
    | nil =>
      have := mem_positionsOf ht
      rw [hps] at this
      cases this
    | cons p ps => exact ⟨p, rfl⟩
  obtain ⟨hlast, -, hrange, -⟩ := h t ht p₀ hp₀
  have hpos {p : Int} : p ∈ positionsOf t.seq batch ↔ ∃ k < (positionsOf t.seq batch).length, p₀ + (k : Nat) = p := by
    rw [hrange]
    simp
  refine ⟨p₀, hlast, fun u hu hus => ?_, fun r hr hrt => ?_⟩
  · obtain ⟨k, -, hk⟩ := hpos.mp (hmem.mpr ⟨u, hu, hus, rfl⟩)
    omega
  · obtain ⟨k, hk, hkt⟩ := hpos.mp (mem_positionsOf ht)
    exact hmem.mp (hpos.mpr ⟨(r - p₀).toNat, by omega, by omega⟩)

theorem mem_zip_of_fst {batch : List Token} {locs : List Nat} (h : batch.length ≤ locs.length) {t : Token}
    (ht : t ∈ batch) : ∃ e ∈ batch.zip locs, e.1 = t := by
  rw [← List.map_fst_zip h] at ht
  exact List.mem_map.mp ht

namespace Causal

/-! ## One operation -/

theorem updateSlidingWindow_upper {c : Causal α} (h : Ranged c) : Upper c.updateSlidingWindow.cells c.cells := by
  refine ⟨(updateSlidingWindow_windowed h).sub, ?_⟩
  unfold updateSlidingWindow
  dsimp only
  split
  · exact fun s i j p q _ hq _ => hq
  · have hr : Ranged { c with curCellRange := newRange } := ⟨h.covers, h.below⟩
    have he := slides_evicted hr (lowestPos { c with curCellRange := newRange }).entries
    intro s i j p q hp hq hle
    rw [he.stores] at hp ⊢
    exact ⟨hq, fun e hmem hs => Int.le_trans (hp.2 e hmem hs) hle⟩

/-- `StartForward` drops the first positions of some sequences, and then stores the batch unless there is no room. -/
theorem startForward_stores {c : Causal α} (h : Ranged c) (batch : List Token) :
    ∃ old, Upper old c.cells ∧ ((c.startForward batch false).1.cells = old ∨ ∃ locs : List Nat,
      batch.length ≤ locs.length ∧ ∀ s i p, Stores (c.startForward batch false).1.cells s i p ↔
        Stores old s i p ∨ ∃ e ∈ batch.zip locs, e.1.seq = s ∧ e.2 = i ∧ e.1.pos = p) := by
  have hr : Ranged { c with curBatch := batch, opts := {} } := ⟨h.covers, h.below⟩
  have hup := updateSlidingWindow_upper hr
  have hw := updateSlidingWindow_windowed hr
  refine ⟨_, hup, ?_⟩
  unfold startForward
  simp only [Bool.false_eq_true, if_false]
  generalize { c with curBatch := batch, opts := {} }.updateSlidingWindow = w at hup hw
  cases hl : w.findLocs with
  | none => exact .inl rfl
  | some locs =>
    right
    obtain ⟨hen, hnd, -, hfree⟩ := findLocs_spec hl
    rw [show w.curBatch = batch by rw [hw.frame]] at hen
    have hzip : ∀ e ∈ batch.zip locs, e.2 ∈ locs := fun e he => (List.of_mem_zip he).2
    have hst : Stored (batch.zip locs) w ((batch.zip locs).foldl storeToken w) :=
      storeTokens_stored hw.ranged (hnd.sublist (map_snd_zip_sublist batch locs))
        (fun e he => (hfree _ (hzip e he)).1) (fun e he => (hfree _ (hzip e he)).2)
    exact ⟨locs, hen, hst.stores⟩

theorem contiguous_startForward {c : Causal α} (h : Ranged c) (hc : Contiguous c.cells) {batch : List Token}
    (hb : Appends c.cells batch) : Contiguous (c.startForward batch false).1.cells := by
  obtain ⟨old, hup, heq | ⟨locs, hen, hst⟩⟩ := startForward_stores h batch
  · rw [heq]
    exact hup.contiguous hc
  intro s i j p q hp hq r hpr hrq
  rcases (hst s j q).mp hq with hq | ⟨f, hf, rfl, -, hfq⟩
  · rcases (hst s i p).mp hp with hp | ⟨e, he, rfl, -, hep⟩
    · obtain ⟨k, hk⟩ := hup.contiguous hc s i j p q hp hq r hpr hrq
      exact ⟨k, (hst s k r).mpr (.inl hk)⟩
    · -- nothing is stored behind the first new position
      have := (hb.token (List.of_mem_zip he).1).2.2.1 j q (hup.sub _ _ _ hq)
      omega
  · obtain ⟨p₀, hlast, hfirst, hnew⟩ := hb.run (List.of_mem_zip hf).1
    by_cases hr : p₀ ≤ r
    · obtain ⟨t, ht, hts, htr⟩ := hnew r hr (hfq ▸ hrq)
      obtain ⟨e, he, rfl⟩ := mem_zip_of_fst hen ht
      exact ⟨e.2, (hst _ _ _).mpr (.inr ⟨e, he, hts, rfl, htr⟩)⟩
    · rcases (hst _ i p).mp hp with hp | ⟨e, he, hes, -, hep⟩
      · obtain ⟨l, hl, -⟩ := stores_le_lastStored (hup.sub _ _ _ hp)
        obtain ⟨m, hm⟩ := lastStored_stores hl
        have := hlast l hl
        obtain ⟨k, hk⟩ := hc _ i m p l (hup.sub _ _ _ hp) hm r hpr (by omega)
        exact ⟨k, (hst _ k r).mpr (.inl (hup.upper _ i k p r hp hk hpr))⟩
      · have := hfirst e.1 (List.of_mem_zip he).1 hes
        omega

theorem contiguous_copyPrefix {c : Causal α} (hc : Contiguous c.cells) {srcSeq dstSeq : Int} (hne : srcSeq ≠ dstSeq)
    (len : Int) : Contiguous (c.copyPrefix srcSeq dstSeq len).cells := by
  intro s i j p q hp hq r hpr hrq
  simp only [copyPrefix_stores hne] at hp hq ⊢
  split at hp
  · rename_i hs
    rw [if_pos hs] at hq
    obtain ⟨k, hk⟩ := hc srcSeq i j p q hp.1 hq.1 r hpr hrq
    exact ⟨k, by rw [if_pos hs]; exact ⟨hk, by omega⟩⟩
  · rename_i hs
    rw [if_neg hs] at hq
    obtain ⟨k, hk⟩ := hc s i j p q hp hq r hpr hrq
    exact ⟨k, by rw [if_neg hs]; exact hk⟩

/-- The part that moves closes the gap. -/
theorem contiguous_remove {c : Causal α} (hc : Contiguous c.cells) (hin : ∀ s i p, Stores c.cells s i p → p < maxInt32)
    {seq beginIndex endIndex : Int} {fails : Nat → Nat → Nat → Bool} (hle : beginIndex ≤ endIndex)
    (hok : (c.remove seq beginIndex endIndex fails).2 = none) :
    Contiguous (c.remove seq beginIndex endIndex fails).1.cells := by
  intro s i j p q hp hq r hpr hrq
  by_cases hs : s = seq
  · subst hs
    have hoff := removeOffset_cases beginIndex endIndex
    simp only [remove_stores_self hok] at hp hq ⊢
    obtain ⟨p', hp', hpno, hpe⟩ := hp
    obtain ⟨q', hq', hqno, hqe⟩ := hq
    have hpmax := hin s i p' hp'
    have hqmax := hin s j q' hq'
    -- where the position was before
    obtain ⟨r', hr', hpr', hrq', hrno⟩ : ∃ r', (if endIndex ≤ r' then r' + removeOffset beginIndex endIndex else r') = r ∧
        p' ≤ r' ∧ r' ≤ q' ∧ ¬ (beginIndex ≤ r' ∧ r' < endIndex) := by
      by_cases hr : r < beginIndex
      · refine ⟨r, ?_, ?_, ?_, ?_⟩ <;> split at hpe <;> split at hqe <;> (try split) <;> omega
      · refine ⟨r - removeOffset beginIndex endIndex, ?_, ?_, ?_, ?_⟩ <;> split at hpe <;> split at hqe <;>
          (try split) <;> omega
    obtain ⟨k, hk⟩ := hc s i j p' q' hp' hq' r' hpr' hrq'
    exact ⟨k, r', hk, hrno, hr'⟩
  · rw [remove_stores_other _ _ _ _ hs] at hp hq
    obtain ⟨k, hk⟩ := hc s i j p q hp hq r hpr hrq
    exact ⟨k, by rwa [remove_stores_other _ _ _ _ hs]⟩

/-! ## Runs -/

/-- How the cache is used. No position is `maxInt32`, which stands for the end of a sequence. -/
def Continues (c : Causal α) : Op → Prop
  | .startForward batch => Appends c.cells batch ∧ ∀ t ∈ batch, t.pos < maxInt32
  | .copyPrefix srcSeq dstSeq _ => srcSeq ≠ dstSeq
  | .remove _ beginIndex endIndex _ => 0 ≤ beginIndex ∧ beginIndex ≤ endIndex ∧ endIndex ≤ maxInt32

instance (c : Causal α) (op : Op) : Decidable (Continues c op) :=
  match op with
  | .startForward _ => inferInstanceAs (Decidable (_ ∧ _))
  | .copyPrefix srcSeq dstSeq _ => inferInstanceAs (Decidable (srcSeq ≠ dstSeq))
  | .remove .. => inferInstanceAs (Decidable (_ ∧ _))

/-- What every run keeps. -/
structure Resumable (c : Causal α) : Prop where
  sound : Sound c
  ordinary : Ordinary c
  contiguous : Contiguous c.cells

theorem resumable_fresh {c : Causal α} (h : Fresh c) : Resumable c := by
  refine ⟨sound_initial h.1, ordinary_fresh h, ?_⟩
  obtain ⟨⟨c₀, _, _, _, hinit⟩, -⟩ := h
  intro s i j p q hp
  exact absurd hp ((init_empty hinit).1 s i p)

theorem Ordinary.lt {c : Causal α} (h : Ordinary c) {s : Int} {i : Nat} {p : Int} (hp : Stores c.cells s i p) :
    p < maxInt32 := by
  obtain ⟨cell, hcell, -, rfl⟩ := hp
  exact (h.bounded cell (List.mem_of_getElem? hcell)).2

/-- `Remove` leaves no gap, and if it fails the removal of everything leaves nothing. -/
theorem contiguous_removeStep {c c' : Causal α} (h : Resumable c) {seq beginIndex endIndex : Int}
    {fails : Nat → Nat → Nat → Bool} (h0 : 0 ≤ beginIndex) (hle : beginIndex ≤ endIndex)
    (hs : step c (.remove seq beginIndex endIndex fails) = some c') : Contiguous c'.cells := by
  unfold step at hs
  have hord := h.ordinary.remove h0 hle seq fails
  cases hr : c.remove seq beginIndex endIndex fails with
  | mk c₁ err =>
    have hc₁ : c₁ = (c.remove seq beginIndex endIndex fails).1 := by rw [hr]
    rw [hr] at hord
    cases err with
    | none =>
      simp only [hr, Option.some.injEq] at hs
      rw [← hs, hc₁]
      exact contiguous_remove h.contiguous (fun _ _ _ => h.ordinary.lt) hle (by rw [hr])
    | some err =>
      simp only [hr, Option.some.injEq] at hs
      rw [← hs]
      obtain ⟨-, hforgot, -⟩ := remove_all hord.bounded seq fails
      intro s i j p q hp hq r hpr hrq
      by_cases he : s = seq
      · subst he
        obtain ⟨cell, hcell, hmem, -⟩ := hp
        exact absurd hmem (hforgot cell (List.mem_of_getElem? hcell))
      · have hother : ∀ k p, Stores (c₁.remove seq 0 maxInt32 fails).1.cells s k p ↔ Stores c.cells s k p := by
          intro k p
          rw [remove_stores_other _ _ _ _ he, hc₁, remove_stores_other _ _ _ _ he]
        rw [hother] at hp hq
        obtain ⟨k, hk⟩ := h.contiguous s i j p q hp hq r hpr hrq
        exact ⟨k, (hother k r).mpr hk⟩

theorem resumable_step {c c' : Causal α} {op : Op} (h : Resumable c) (hop : Continues c op) (hs : step c op = some c') :
    Resumable c' := by
  cases op with
  | startForward batch =>
    obtain ⟨hb, hmax⟩ := hop
    simp only [step, Option.some.injEq] at hs
    rw [← hs]
    exact ⟨sound_startForward h.sound hb, h.ordinary.startForward (fun t ht => ⟨(hb.token ht).1, hmax t ht⟩) false,
      contiguous_startForward h.sound.ranged h.contiguous hb⟩
  | copyPrefix srcSeq dstSeq len =>
    simp only [step, Option.some.injEq] at hs
    rw [← hs]
    exact ⟨sound_copyPrefix h.sound hop len, h.ordinary.copyPrefix srcSeq dstSeq len,
      contiguous_copyPrefix h.contiguous hop len⟩
  | remove seq beginIndex endIndex fails =>
    obtain ⟨h0, hle, hmax⟩ := hop
    refine ⟨sound_removeStep h.sound h0 hle hmax hs, ?_, contiguous_removeStep h h0 hle hs⟩
    have hord := h.ordinary.remove h0 hle seq fails
    unfold step at hs
    cases hr : c.remove seq beginIndex endIndex fails with
    | mk c₁ err =>
      rw [hr] at hord
      cases err with
      | none =>
        simp only [hr, Option.some.injEq] at hs
        exact hs ▸ hord
      | some err =>
        simp only [hr, Option.some.injEq] at hs
        exact hs ▸ hord.remove (by decide) (by decide) seq fails

theorem resumable_of_reaches {c : Causal α} (h : Reaches step Continues Fresh c) : Resumable c :=
  h.invariant (fun _ => resumable_fresh) fun _ _ _ hc hop hs => resumable_step hc hop hs

/-! ## `CanResume` -/

/-- The two ends that `CanResume` finds are positions that are stored. -/
theorem ends_stored (c : Causal α) (seq : Int) (is : List Nat) (ends : Int × Int)
    (h : ends = (maxInt32, -1) ∨ (∃ i, Stores c.cells seq i ends.1) ∧ ∃ i, Stores c.cells seq i ends.2)
    (hin : ∀ i p, Stores c.cells seq i p → 0 ≤ p ∧ p < maxInt32) :
    let out := is.foldl (fun ends i =>
      let cell := c.cells.getD i default
      if seq ∈ cell.sequences then (min ends.1 cell.pos, max ends.2 cell.pos) else ends) ends
    out = (maxInt32, -1) ∨ (∃ i, Stores c.cells seq i out.1) ∧ ∃ i, Stores c.cells seq i out.2 := by
  induction is generalizing ends with
  | nil => exact h
  | cons i is ih =>
    refine ih _ ?_
    dsimp only
    split
    · rename_i hmem
      have hi : Stores c.cells seq i (c.cells.getD i default).pos := stores_getD.mpr ⟨hmem, rfl⟩
      have := hin i _ hi
      right
      rcases h with rfl | ⟨⟨j, hj⟩, k, hk⟩
      · rw [Int.min_eq_right (by omega), Int.max_eq_right (by omega)]
        exact ⟨⟨i, hi⟩, i, hi⟩
      · refine ⟨?_, ?_⟩
        · rcases Int.le_total ends.1 (c.cells.getD i default).pos with hle | hle
          · rw [Int.min_eq_left hle]
            exact ⟨j, hj⟩
          · rw [Int.min_eq_right hle]
            exact ⟨i, hi⟩
        · rcases Int.le_total ends.2 (c.cells.getD i default).pos with hle | hle
          · rw [Int.max_eq_right hle]
            exact ⟨i, hi⟩
          · rw [Int.max_eq_left hle]
            exact ⟨k, hk⟩
    · exact h

/-- With a limited memory something is stored at the start of the window or before it, and right before the position
or behind it. -/
theorem canResume_ends {c : Causal α} {seq pos : Int} (hmem : c.swaMemorySize ≠ maxInt32)
    (hin : ∀ i p, Stores c.cells seq i p → 0 ≤ p ∧ p < maxInt32) (h : c.canResume seq pos = true) :
    (∃ i p, Stores c.cells seq i p ∧ p ≤ max 0 (pos - c.swaWindowSize)) ∧ ∃ i p, Stores c.cells seq i p ∧ pos ≤ p + 1 := by
  unfold canResume at h
  rw [if_neg hmem] at h
  split at h
  · cases h
  · rename_i seqRange _
    have hends := ends_stored c seq seqRange.indices (maxInt32, -1) (.inl rfl) hin
    dsimp only at h hends
    generalize seqRange.indices.foldl _ (maxInt32, -1) = ends at h hends
    rcases hends with rfl | ⟨⟨i, hi⟩, j, hj⟩
    · cases h
    · split at h
      · cases h
      · rw [Bool.and_eq_true, decide_eq_true_eq, decide_eq_true_eq] at h
        exact ⟨⟨i, _, hi, h.1⟩, j, _, hj, h.2⟩

/-- In every run, a sequence that can be resumed at a position has the window before it, each position in one cell. A
cache whose memory is not limited asks nothing, and the caller knows what is stored. -/
theorem canResume_complete {c : Causal α} (h : Reaches step Continues Fresh c) {seq pos : Int}
    (hres : c.canResume seq pos = true)
    (hends : c.swaMemorySize = maxInt32 → (∃ i p, Stores c.cells seq i p ∧ p ≤ max 0 (pos - c.swaWindowSize)) ∧
      ∃ i p, Stores c.cells seq i p ∧ pos ≤ p + 1) :
    ∀ p, max 0 (pos - c.swaWindowSize) ≤ p → p < pos → ∃! i, Stores c.cells seq i p := by
  have hc := resumable_of_reaches h
  have hin : ∀ i p, Stores c.cells seq i p → 0 ≤ p ∧ p < maxInt32 :=
    fun i p hp => ⟨(hc.sound.int32 seq i p hp).1, hc.ordinary.lt hp⟩
  intro p hstart hlt
  obtain ⟨⟨i, first, hi, hfirst⟩, j, last, hj, hlast⟩ : (∃ i p, Stores c.cells seq i p ∧
      p ≤ max 0 (pos - c.swaWindowSize)) ∧ ∃ i p, Stores c.cells seq i p ∧ pos ≤ p + 1 := by
    by_cases hmem : c.swaMemorySize = maxInt32
    · exact hends hmem
    · exact canResume_ends hmem hin hres
  obtain ⟨k, hk⟩ := hc.contiguous seq i j first last hi hj p (Int.le_trans hfirst hstart) (by omega)
  exact ⟨k, hk, fun l hl => hc.sound.once seq l k p hl hk⟩

/-- A window of two in a memory of three. The prefix of a sequence whose start was dropped is copied, and a removal
moves the rest. -/
def copiedRun : List Op :=
  [.startForward [⟨0, 0⟩, ⟨0, 1⟩, ⟨0, 2⟩, ⟨0, 3⟩], .startForward [⟨0, 4⟩, ⟨0, 5⟩], .copyPrefix 0 1 5,
    .remove 0 5 6 fun _ _ _ => false]

theorem copiedRun_complete : ∃ c : Causal Nat, Reaches step Continues Fresh c ∧ c.canResume 1 4 = true ∧
    c.canResume 1 2 = false ∧ ∀ p, max 0 (4 - c.swaWindowSize) ≤ p → p < 4 → ∃! i, Stores c.cells 1 i p := by
  let c₀ := ((newSWACache 2 true : Causal Nat).init 2 8 4).get (by decide)
  let c := (exec step c₀ copiedRun).get (by decide)
  have hc : Reaches step Continues Fresh c :=
    reaches_of_exec (Reaches.init ⟨⟨_, 2, 8, 4, (Option.some_get _).symm⟩, by decide⟩) (by decide)
      (Option.some_get _).symm
  have hres : c.canResume 1 4 = true := by decide
  have hmem : c.swaMemorySize ≠ maxInt32 := by decide
  exact ⟨c, hc, hres, by decide, canResume_complete hc hres fun h => absurd h hmem⟩

/-- A window of four in a context of four: an empty cache can be resumed anywhere. -/
theorem wholeContext_incomplete : ∃ c : Causal Nat, Reaches step Continues Fresh c ∧ c.swaWindowSize = 4 ∧
    c.canResume 0 2 = true ∧ ¬ ∀ p, max 0 (2 - c.swaWindowSize) ≤ p → p < 2 → ∃! i, Stores c.cells 0 i p := by
  let c := ((newSWACache 4 true : Causal Nat).init 1 4 4).get (by decide)
  have hc : Fresh c := ⟨⟨_, 1, 4, 4, (Option.some_get _).symm⟩, by decide⟩
  refine ⟨c, .init hc, by decide, by decide, fun h => ?_⟩
  obtain ⟨i, hi, -⟩ := h 0 (by decide) (by decide)
  obtain ⟨⟨c₀, _, _, _, hinit⟩, -⟩ := hc
  exact (init_empty hinit).1 0 i 0 hi

end Causal

end Xdragon.Kvcache
