import Mathlib.Data.List.Zip
import Xdragon.Kvcache.Edits
import Xdragon.Lib.Run

/-!
# What a token attends to

Over whole runs of the causal cache, the mask of a batch shows each token exactly its own history.
-/

open Xdragon.Lib

namespace Xdragon.Kvcache

variable {α : Type}

/-! ## Batches that append -/

/-- The last position stored for a sequence. -/
def lastStored (cells : List CacheCell) (seq : Int) : Option Int :=
  ((cells.filter fun cell => seq ∈ cell.sequences).map (·.pos)).max?

def positionsOf (seq : Int) (batch : List Token) : List Int :=
  (batch.filter fun t => t.seq = seq).map (·.pos)

/-- Consecutive `int32` positions after `last`. A fresh sequence may start anywhere. -/
def Follows (last : Option Int) (ps : List Int) : Prop :=
  ∀ p ∈ ps.head?, (∀ l ∈ last, p = l + 1) ∧ 0 ≤ p ∧ ps = (List.range ps.length).map (fun k : Nat => p + k) ∧
    p + ps.length ≤ maxInt32 + 1

instance (last : Option Int) (ps : List Int) : Decidable (Follows last ps) := by
  unfold Follows; infer_instance

/-- The batch continues each of its sequences. -/
def Appends (cells : List CacheCell) (batch : List Token) : Prop :=
  ∀ t ∈ batch, Follows (lastStored cells t.seq) (positionsOf t.seq batch)

instance (cells : List CacheCell) (batch : List Token) : Decidable (Appends cells batch) := by
  unfold Appends; infer_instance

theorem stores_le_lastStored {cells : List CacheCell} {seq : Int} {i : Nat} {p : Int}
    (h : Stores cells seq i p) : ∃ l, lastStored cells seq = some l ∧ p ≤ l := by
  obtain ⟨cell, hc, hm, rfl⟩ := h
  have hmem : cell.pos ∈ (cells.filter fun cell => seq ∈ cell.sequences).map (·.pos) :=
    List.mem_map_of_mem (List.mem_filter.mpr ⟨List.mem_of_getElem? hc, by simpa using hm⟩)
  unfold lastStored
  cases hmax : ((cells.filter fun cell => seq ∈ cell.sequences).map (·.pos)).max? with
  | none =>
    rw [List.max?_eq_none_iff] at hmax
    rw [hmax] at hmem
    cases hmem
  | some l => exact ⟨l, rfl, (List.max?_eq_some_iff.mp hmax).2 _ hmem⟩

theorem mem_positionsOf {t : Token} {batch : List Token} (ht : t ∈ batch) :
    t.pos ∈ positionsOf t.seq batch :=
  List.mem_map_of_mem (List.mem_filter.mpr ⟨ht, by simp⟩)

/-- What the discipline says about one token of the batch. -/
theorem Appends.token {cells : List CacheCell} {batch : List Token} (h : Appends cells batch) {t : Token}
    (ht : t ∈ batch) :
    0 ≤ t.pos ∧ t.pos ≤ maxInt32 ∧ (∀ i p, Stores cells t.seq i p → p < t.pos) ∧
      (positionsOf t.seq batch).Nodup := by
  have hmem := mem_positionsOf ht
  have hf := h t ht
  obtain ⟨p, hp⟩ : ∃ p, (positionsOf t.seq batch).head? = some p := by
    cases hps : positionsOf t.seq batch with
    | nil => rw [hps] at hmem; cases hmem
    | cons p ps => exact ⟨p, rfl⟩
  obtain ⟨hlast, h0, hrange, hmax⟩ := hf p hp
  have hk : ∃ k < (positionsOf t.seq batch).length, t.pos = p + (k : Nat) := by
    rw [hrange] at hmem
    obtain ⟨k, hk, he⟩ := List.mem_map.mp hmem
    exact ⟨k, List.mem_range.mp hk, he.symm⟩
  obtain ⟨k, hk, he⟩ := hk
  refine ⟨by omega, by omega, ?_, ?_⟩
  · intro i q hs
    obtain ⟨l, hl, hle⟩ := stores_le_lastStored hs
    have := hlast l hl
    omega
  · rw [hrange]
    apply List.Nodup.map _ List.nodup_range
    intro a b hab
    have : p + (a : Int) = p + b := hab
    omega

namespace Causal

/-! ## One forward pass -/

/-- What a successful `StartForward` leaves. -/
structure Forwarded (c : Causal α) (batch : List Token) (c' : Causal α) : Prop where
  frame : c' = { c with
    opts := {}, curBatch := batch, curLoc := c'.curLoc, curMask := c'.curMask
    curCellRange := c'.curCellRange, cells := c'.cells, cellRanges := c'.cellRanges }
  length : c'.cells.length = c.cells.length
  nonempty : 0 < c.cells.length
  enough : batch.length ≤ c'.curLoc.length
  nodup : c'.curLoc.Nodup
  fresh : ∀ j ∈ c'.curLoc, j < c.cells.length
  kept : ∃ old : List CacheCell, (∀ s i p, Stores old s i p → Stores c.cells s i p) ∧
    (c.swaMemorySize = maxInt32 → old = c.cells) ∧ (∀ j ∈ c'.curLoc, ∀ s p, ¬ Stores old s j p) ∧
    ∀ s i p, Stores c'.cells s i p ↔
      Stores old s i p ∨ ∃ e ∈ batch.zip c'.curLoc, e.1.seq = s ∧ e.2 = i ∧ e.1.pos = p
  ranged : Ranged c'
  mask : c'.curMask = batch.mapIdx fun i t => c'.curCellRange.indices.map (c'.masked i t)
  covers : 0 < c.cachePadding → ∀ t ∈ batch, ∀ i p, Stores c'.cells t.seq i p →
    t.pos - c.swaWindowSize ≤ p → c'.curCellRange.Covers i
  aligned : 0 < c.cachePadding → c.cachePadding ∣ c'.curCellRange.min ∧ c.cachePadding ∣ c'.curCellRange.max + 1
  inside : 0 < c.cachePadding → c.cachePadding ∣ c.cells.length → c'.curCellRange.max < c.cells.length

theorem map_snd_zip_sublist (batch : List Token) (locs : List Nat) :
    ((batch.zip locs).map (·.2)).Sublist locs := by
  induction batch generalizing locs with
  | nil => exact List.nil_sublist _
  | cons t batch ih =>
    cases locs with
    | nil => exact List.nil_sublist _
    | cons loc locs => exact (ih locs).cons_cons loc

/-- `StartForward` either finds no room, with only old cells dropped, or stores the batch. -/
theorem startForward_cases {c : Causal α} (h : Ranged c) (batch : List Token) :
    (∃ c' err, c.startForward batch false = (c', some err) ∧
      Windowed { c with curBatch := batch, opts := {} } c') ∨
    ∃ c', c.startForward batch false = (c', none) ∧ Forwarded c batch c' := by
  have hw : Windowed { c with curBatch := batch, opts := {} }
      { c with curBatch := batch, opts := {} }.updateSlidingWindow :=
    updateSlidingWindow_windowed ⟨h.covers, h.below⟩
  unfold startForward
  simp only [Bool.false_eq_true, if_false]
  generalize hwe : { c with curBatch := batch, opts := {} }.updateSlidingWindow = w at hw
  cases hl : w.findLocs with
  | none => exact Or.inl ⟨_, _, rfl, hw⟩
  | some locs =>
    right
    have hbatch : w.curBatch = batch := by rw [hw.frame]
    have hpad : w.cachePadding = c.cachePadding := by rw [hw.frame]
    obtain ⟨hen, hnd, hpos, hfree⟩ := findLocs_spec hl
    rw [hbatch] at hen
    have hzip : ∀ e ∈ batch.zip locs, e.2 ∈ locs := fun e he => (List.of_mem_zip he).2
    have hst : Stored (batch.zip locs) w ((batch.zip locs).foldl storeToken w) := by
      refine storeTokens_stored hw.ranged ?_ (fun e he => (hfree _ (hzip e he)).1)
        (fun e he => (hfree _ (hzip e he)).2)
      exact hnd.sublist (map_snd_zip_sublist batch locs)
    dsimp only
    generalize (batch.zip locs).foldl storeToken w = s at hst ⊢
    have hspad : s.cachePadding = c.cachePadding := by rw [hst.frame]; exact hpad
    have hlen : s.cells.length = c.cells.length := hst.length.trans hw.length
    have hmask := buildMask_range (c := { s with curLoc := locs })
    refine ⟨_, rfl, ?_, hlen, ?_, hen, hnd, ?_, ?_, ⟨hst.ranged.covers, hst.ranged.below⟩, ?_, ?_, ?_, ?_⟩
    · unfold buildMask
      rw [hst.frame, hw.frame]
    · rw [← hw.length]; exact hpos
    · intro j hj
      rw [← hw.length]
      exact (hfree j hj).1
    · exact ⟨w.cells, hw.sub, hw.plain, fun j hj => (hfree j hj).2, hst.stores⟩
    · have : s.curBatch = batch := by rw [hst.frame]; exact hbatch
      simp only [buildMask, this]
      rfl
    · intro h0 t ht i p hs hle
      apply (hmask (by rw [← hspad] at h0; exact h0)).2.2.1
      rcases (hst.stores _ _ _).mp hs with hs | ⟨e, he, -, rfl, -⟩
      · exact hst.cur_grows i (hw.cur_covers t ht i p hs hle)
      · exact hst.cur_covers e he
    · intro h0
      have := hmask (by rw [← hspad] at h0; exact h0)
      rw [← hspad]
      exact ⟨this.1, this.2.1⟩
    · intro h0 hdvd
      refine (hmask (by rw [← hspad] at h0; exact h0)).2.2.2 _ (by rw [← hspad] at hdvd; exact hdvd) ?_
      have hb : s.curCellRange.Below w.cells.length := hst.cur_below (by rw [hw.length]; exact hw.cur_below)
      rw [hw.length] at hb
      have h0' : 0 < c.cells.length := by rw [← hw.length]; exact hpos
      exact hb.elim id fun hz => by rw [hz]; exact h0'

/-! ## Runs -/

inductive Op where
  | startForward (batch : List Token)
  | copyPrefix (srcSeq dstSeq len : Int)
  /-- `Remove`, and `Remove` of everything if it fails. -/
  | remove (seq beginIndex endIndex : Int) (fails : Nat → Nat → Nat → Bool)

def step (c : Causal α) : Op → Option (Causal α)
  | .startForward batch => some (c.startForward batch false).1
  | .copyPrefix srcSeq dstSeq len => some (c.copyPrefix srcSeq dstSeq len)
  | .remove seq beginIndex endIndex fails =>
    match c.remove seq beginIndex endIndex fails with
    | (c', none) => some c'
    | (c', some _) => some (c'.remove seq 0 maxInt32 fails).1

/-- How the cache is used. -/
def Legal (c : Causal α) : Op → Prop
  | .startForward batch => Appends c.cells batch
  | .copyPrefix srcSeq dstSeq _ => srcSeq ≠ dstSeq
  | .remove _ beginIndex endIndex _ => 0 ≤ beginIndex ∧ beginIndex < endIndex ∧ endIndex ≤ maxInt32

instance (c : Causal α) (op : Op) : Decidable (Legal c op) := by
  cases op <;> unfold Legal <;> infer_instance

/-- A cache as `Init` leaves it, for any window, memory, chunk size and padding. -/
def Initial (c : Causal α) : Prop :=
  ∃ (c₀ : Causal α) (maxSequences capacity maxBatch : Nat), c₀.init maxSequences capacity maxBatch = some c

/-- Each position of a sequence is stored once, and the ranges cover what is stored. -/
structure Sound (c : Causal α) : Prop where
  ranged : Ranged c
  once : ∀ s i j p, Stores c.cells s i p → Stores c.cells s j p → i = j
  int32 : ∀ s i p, Stores c.cells s i p → 0 ≤ p ∧ p ≤ maxInt32
  padding : 0 < c.cachePadding
  padded : c.cachePadding ∣ c.cells.length

theorem init_empty {c c₀ : Causal α} {maxSequences capacity maxBatch : Nat}
    (h : c₀.init maxSequences capacity maxBatch = some c) :
    (∀ s i p, ¬ Stores c.cells s i p) ∧ c.cellRanges = ∅ ∧ 0 < c.cachePadding ∧
      c.cachePadding ∣ c.cells.length := by
  unfold init at h
  simp only at h
  generalize hpad : (if c₀.cachePadding = 0 then 1 else c₀.cachePadding) = pad at h
  have hpos : 0 < pad := by
    rw [← hpad]
    split <;> omega
  generalize hsize : initSize _ _ _ _ _ = size at h
  split at h
  · cases h
  · split at h
    · cases h
    · rename_i hneg
      rw [Option.some.injEq] at h
      subst h
      refine ⟨?_, rfl, hpos, ?_⟩
      · rintro s i p ⟨cell, hc, hm, -⟩
        simp only [List.getElem?_replicate] at hc
        split at hc
        · cases hc; cases hm
        · cases hc
      · have hdvd : (pad : Int) ∣ size := by
          rw [← hsize]
          exact Int.dvd_mul_left _ _
        have : (pad : Int) ∣ (size.toNat : Int) := by
          rw [Int.toNat_of_nonneg (by omega)]
          exact hdvd
        simp only [List.length_replicate]
        exact Int.natCast_dvd_natCast.mp this

theorem removeOffset_cases (beginIndex endIndex : Int) :
    (endIndex = maxInt32 ∧ removeOffset beginIndex endIndex = 0) ∨
      (endIndex ≠ maxInt32 ∧ removeOffset beginIndex endIndex = beginIndex - endIndex) := by
  unfold removeOffset
  by_cases h : endIndex = maxInt32 <;> simp [h]

theorem sound_initial {c : Causal α} (h : Initial c) : Sound c := by
  obtain ⟨c₀, _, _, _, h⟩ := h
  obtain ⟨hno, hranges, hpad, hdvd⟩ := init_empty h
  refine ⟨⟨fun s i p hs => absurd hs (hno s i p), ?_⟩, fun s i j p hs => absurd hs (hno s i p),
    fun s i p hs => absurd hs (hno s i p), hpad, hdvd⟩
  intro s r hr
  rw [hranges, AList.lookup_empty] at hr
  cases hr

/-- A cache that stores less is still sound. -/
theorem Sound.sub {c c' : Causal α} (h : Sound c) (hr : Ranged c') (hlen : c'.cells.length = c.cells.length)
    (hpad : c'.cachePadding = c.cachePadding) (hsub : ∀ s i p, Stores c'.cells s i p → Stores c.cells s i p) :
    Sound c' :=
  ⟨hr, fun s i j p h1 h2 => h.once s i j p (hsub _ _ _ h1) (hsub _ _ _ h2),
    fun s i p h1 => h.int32 s i p (hsub _ _ _ h1), hpad ▸ h.padding, by rw [hpad, hlen]; exact h.padded⟩

/-- The same position of a sequence goes to one location only. -/
theorem zip_once {batch : List Token} {locs : List Nat} (hen : batch.length ≤ locs.length) {s : Int}
    (hnd : (positionsOf s batch).Nodup) {e f : Token × Nat} (he : e ∈ batch.zip locs) (hf : f ∈ batch.zip locs)
    (hes : e.1.seq = s) (hfs : f.1.seq = s) (hpos : e.1.pos = f.1.pos) : e = f := by
  have hmap : positionsOf s batch = ((batch.zip locs).filter fun e => e.1.seq = s).map (·.1.pos) := by
    rw [positionsOf, ← List.map_fst_zip hen, List.filter_map, List.map_map]
    simp only [List.map_fst_zip hen]
    rfl
  rw [hmap] at hnd
  exact List.inj_on_of_nodup_map hnd (List.mem_filter.mpr ⟨he, by simpa using hes⟩)
    (List.mem_filter.mpr ⟨hf, by simpa using hfs⟩) hpos

theorem Forwarded.sound {c c' : Causal α} {batch : List Token} (h : Sound c) (hb : Appends c.cells batch)
    (hf : Forwarded c batch c') : Sound c' := by
  obtain ⟨old, hold, -, -, hst⟩ := hf.kept
  have hnew : ∀ e ∈ batch.zip c'.curLoc, e.1 ∈ batch := fun e he => (List.of_mem_zip he).1
  have hpad : c'.cachePadding = c.cachePadding := by rw [hf.frame]
  refine ⟨hf.ranged, ?_, ?_, hpad ▸ h.padding, by rw [hpad, hf.length]; exact h.padded⟩
  · intro s i j p hi hj
    rcases (hst _ _ _).mp hi with hi | ⟨e, he, hes, rfl, hep⟩ <;>
      rcases (hst _ _ _).mp hj with hj | ⟨f, hf', hfs, rfl, hfp⟩
    · exact h.once s i j p (hold _ _ _ hi) (hold _ _ _ hj)
    · have := (hb.token (hnew f hf')).2.2.1 i p (by rw [hfs]; exact hold _ _ _ hi)
      omega
    · have := (hb.token (hnew e he)).2.2.1 j p (by rw [hes]; exact hold _ _ _ hj)
      omega
    · have hnd := (hb.token (hnew e he)).2.2.2
      rw [hes] at hnd
      rw [zip_once hf.enough hnd he hf' hes hfs (hep.trans hfp.symm)]
  · intro s i p hs
    rcases (hst _ _ _).mp hs with hs | ⟨e, he, -, -, rfl⟩
    · exact h.int32 s i p (hold _ _ _ hs)
    · have := hb.token (hnew e he)
      exact ⟨this.1, this.2.1⟩

theorem sound_startForward {c : Causal α} (h : Sound c) {batch : List Token} (hb : Appends c.cells batch) :
    Sound (c.startForward batch false).1 := by
  rcases startForward_cases h.ranged batch with ⟨c', err, he, hw⟩ | ⟨c', he, hf⟩
  · rw [he]
    exact h.sub hw.ranged hw.length (by rw [hw.frame]) hw.sub
  · rw [he]
    exact hf.sound h hb

theorem sound_copyPrefix {c : Causal α} (h : Sound c) {srcSeq dstSeq : Int} (hne : srcSeq ≠ dstSeq)
    (len : Int) : Sound (c.copyPrefix srcSeq dstSeq len) := by
  have hst := @copyPrefix_stores _ c _ _ len hne
  refine ⟨copyPrefix_ranged h.ranged hne, ?_, ?_, h.padding, ?_⟩
  · intro s i j p hi hj
    rw [hst] at hi hj
    split at hi <;> rename_i hs <;> simp only [hs, if_true, if_false] at hj
    · exact h.once srcSeq i j p hi.1 hj.1
    · exact h.once s i j p hi hj
  · intro s i p hi
    rw [hst] at hi
    split at hi
    · exact h.int32 srcSeq i p hi.1
    · exact h.int32 s i p hi
  · rw [copyPrefix_length]
    exact h.padded

/-- A successful `Remove` keeps different positions different. -/
theorem sound_remove {c : Causal α} (h : Sound c) {seq beginIndex endIndex : Int}
    {fails : Nat → Nat → Nat → Bool} (h0 : 0 ≤ beginIndex) (hle : beginIndex ≤ endIndex)
    (hok : (c.remove seq beginIndex endIndex fails).2 = none) :
    Sound (c.remove seq beginIndex endIndex fails).1 := by
  have hother : ∀ s, s ≠ seq → ∀ i p, _ := fun s hs => remove_stores_other c beginIndex endIndex fails hs
  have hself := remove_stores_self hok
  have hoff := removeOffset_cases beginIndex endIndex
  refine ⟨remove_ranged h.ranged .., ?_, ?_, ?_, ?_⟩
  · intro s i j p hi hj
    by_cases hs : s = seq
    · subst hs
      obtain ⟨q, hq, hnq, hqp⟩ := (hself i p).mp hi
      obtain ⟨q', hq', hnq', hqp'⟩ := (hself j p).mp hj
      have : q = q' := by
        split at hqp <;> split at hqp' <;> omega
      subst this
      exact h.once s i j q hq hq'
    · rw [hother s hs] at hi hj
      exact h.once s i j p hi hj
  · intro s i p hi
    by_cases hs : s = seq
    · subst hs
      obtain ⟨q, hq, hnq, hqp⟩ := (hself i p).mp hi
      have := h.int32 s i q hq
      split at hqp <;> omega
    · rw [hother s hs] at hi
      exact h.int32 s i p hi
  · rw [remove_frame]; exact h.padding
  · rw [remove_length, remove_frame]; exact h.padded

/-- After a failure, removing everything leaves no moved cell of the sequence. -/
theorem remove_failed_clear {c : Causal α} (h : Sound c) {seq beginIndex endIndex : Int}
    {fails : Nat → Nat → Nat → Bool} (h0 : 0 ≤ beginIndex) (hle : beginIndex ≤ endIndex)
    (hmax : endIndex ≤ maxInt32) {i : Nat} {p : Int}
    (hs : Stores ((c.remove seq beginIndex endIndex fails).1.remove seq 0 maxInt32 fails).1.cells seq i p) :
    Stores c.cells seq i p := by
  obtain ⟨k, out, hk, hcells, -⟩ := remove_removed c seq beginIndex endIndex fails
  obtain ⟨k', out', hk', hcells', hall'⟩ :=
    remove_removed (c.remove seq beginIndex endIndex fails).1 seq 0 maxInt32 fails
  rw [hcells'] at hs
  rw [hcells] at hk'
  have hoff := removeOffset_cases beginIndex endIndex
  have hnonneg : ∀ j q, Stores out.1 seq j q → 0 ≤ q := by
    intro j q hq
    by_cases hj : j < k
    · obtain ⟨q', hq', hn, he⟩ := (hk.stores_done hj q).mp hq
      have := h.int32 seq j q' hq'
      split at he <;> omega
    · exact (h.int32 seq j q ((hk.stores_rest (Nat.le_of_not_lt hj) seq q).mp hq)).1
  -- A cell at `maxInt32` was not moved.
  have hfar : ∀ j q, Stores out.1 seq j q → maxInt32 ≤ q → Stores c.cells seq j q ∧ (j < k → endIndex ≤ q) := by
    intro j q hq hle
    by_cases hj : j < k
    · obtain ⟨q', hq', hn, he⟩ := (hk.stores_done hj q).mp hq
      have := h.int32 seq j q' hq'
      have hqq : q' = q := by split at he <;> omega
      exact ⟨hqq ▸ hq', fun _ => by omega⟩
    · exact ⟨(hk.stores_rest (Nat.le_of_not_lt hj) seq q).mp hq, fun hj' => absurd hj' hj⟩
  by_cases hi : i < k'
  · obtain ⟨q, hq, hn, he⟩ := (hk'.stores_done hi p).mp hs
    have hq0 := hnonneg i q hq
    have hqm : maxInt32 ≤ q := by omega
    simp only [removeOffset, ne_eq, not_true_eq_false, if_false, hqm, if_true, Int.add_zero] at he
    subst he
    exact (hfar i q hq hqm).1
  · -- The second loop stopped at a shared cell, which the first one did not pass.
    have hi' := Nat.le_of_not_lt hi
    have hs' := (hk'.stores_rest hi' seq p).mp hs
    have hstop : out'.2.2 = true := by
      cases hb : out'.2.2 with
      | true => rfl
      | false =>
        have := hk'.all hb
        have := hs'.lt
        omega
    obtain ⟨cell, hcell, hmem, hge, s, hs, hne⟩ := hk'.stopped hstop
    have hkk : k ≤ k' := by
      by_contra hlt'
      have hlt' := Nat.lt_of_not_le hlt'
      obtain ⟨hst, hend⟩ := hfar k' cell.pos ⟨cell, hcell, hmem, rfl⟩ hge
      obtain ⟨cell₀, hcell₀, hmem₀, hpos₀⟩ := hst
      have hfree := hk.free k' hlt' cell₀ hcell₀
      have hcell' := hk.done k' hlt'
      rw [hcell, hcell₀, Option.map_some, Option.some.injEq] at hcell'
      have hs₀ := (removeCell_other hne hfree).mp ⟨hcell' ▸ hs, rfl⟩
      exact hfree ⟨hmem₀, by rw [hpos₀]; exact hend hlt', s, hs₀.1, hne⟩
    exact (hk.stores_rest (by omega) seq p).mp hs'

/-- `Remove` of a range, and of everything if it fails. -/
theorem sound_removeStep {c c' : Causal α} {seq beginIndex endIndex : Int} {fails : Nat → Nat → Nat → Bool}
    (h : Sound c) (h0 : 0 ≤ beginIndex) (hle : beginIndex ≤ endIndex) (hmax : endIndex ≤ maxInt32)
    (hs : step c (.remove seq beginIndex endIndex fails) = some c') : Sound c' := by
  simp only [step] at hs
  cases hr : c.remove seq beginIndex endIndex fails with
  | mk c₁ err =>
    have h1 : (c.remove seq beginIndex endIndex fails).1 = c₁ := by rw [hr]
    cases err with
    | none =>
      simp only [hr, Option.some.injEq] at hs
      subst hs
      rw [← h1]
      exact sound_remove h h0 hle (by rw [hr])
    | some err =>
      simp only [hr, Option.some.injEq] at hs
      subst hs
      rw [← h1]
      refine h.sub (remove_ranged (remove_ranged h.ranged ..) ..) ?_ ?_ ?_
      · rw [remove_length, remove_length]
      · rw [remove_frame, remove_frame]
      · intro s i p hst
        by_cases he : s = seq
        · subst he
          exact remove_failed_clear h h0 hle hmax hst
        · rwa [remove_stores_other _ _ _ _ he, remove_stores_other _ _ _ _ he] at hst

theorem sound_step {c c' : Causal α} {op : Op} (h : Sound c) (hl : Legal c op) (hs : step c op = some c') :
    Sound c' := by
  cases op with
  | startForward batch =>
    simp only [step, Option.some.injEq] at hs
    exact hs ▸ sound_startForward h hl
  | copyPrefix srcSeq dstSeq len =>
    simp only [step, Option.some.injEq] at hs
    exact hs ▸ sound_copyPrefix h hl len
  | remove seq beginIndex endIndex fails =>
    obtain ⟨h0, hlt, hmax⟩ := hl
    exact sound_removeStep h h0 (Int.le_of_lt hlt) hmax hs

theorem sound_of_reaches {c : Causal α} (h : Reaches step Legal Initial c) : Sound c :=
  h.invariant (fun _ => sound_initial) fun _ _ _ hc hl hs => sound_step hc hl hs

/-! ## The mask -/

/-- Location `j` belongs to the history of the token, inside its window and chunk. -/
def Attends (c : Causal α) (t : Token) (j : Nat) : Prop :=
  ∃ q, Stores c.cells t.seq j q ∧ q ≤ t.pos ∧ t.pos - c.swaWindowSize ≤ q ∧
    (0 < c.chunkSize → t.pos - t.pos % c.chunkSize ≤ q)

/-- The mask of a batch is right: row by row, and for the range of locations that it spans. -/
structure MaskRight (c : Causal α) (batch : List Token) : Prop where
  rows : ∀ (i : Nat) t, batch[i]? = some t → ∃ row, c.curMask[i]? = some row ∧
    ∀ j, c.curCellRange.Covers j → (row[j - c.curCellRange.min]? = some false ↔ Attends c t j)
  once : ∀ t ∈ batch, ∀ j j' q, Stores c.cells t.seq j q → Stores c.cells t.seq j' q → j = j'
  complete : ∀ t ∈ batch, ∀ j, Attends c t j → c.curCellRange.Covers j
  aligned : c.cachePadding ∣ c.curCellRange.min ∧ c.cachePadding ∣ c.curCellRange.max + 1
  inside : c.curCellRange.max < c.cells.length

theorem masked_iff {c : Causal α} (hopts : c.opts = {}) {t : Token} (h0 : 0 ≤ t.pos) (i j : Nat) :
    c.masked i t j = false ↔ Attends c t j := by
  unfold masked Attends
  rw [hopts]
  simp only [stores_getD, List.contains_nil, Bool.not_false, Bool.true_and, Bool.or_eq_false_iff,
    Bool.not_eq_false', List.contains_iff_mem, decide_eq_false_iff_not, Bool.and_eq_false_iff, Int.not_lt]
  constructor
  · rintro ⟨⟨⟨hm, hle⟩, hchunk⟩, hwin⟩
    refine ⟨_, ⟨hm, rfl⟩, hle, hwin, fun hc => ?_⟩
    rw [← Int.tmod_eq_emod_of_nonneg h0]
    exact hchunk.resolve_left (by omega)
  · rintro ⟨q, ⟨hm, rfl⟩, hle, hwin, hchunk⟩
    refine ⟨⟨⟨hm, hle⟩, ?_⟩, hwin⟩
    by_cases hc : 0 < c.chunkSize
    · right
      rw [Int.tmod_eq_emod_of_nonneg h0]
      exact hchunk hc
    · left; omega

/-- Over any run, the mask of a batch shows each token its history and nothing else. -/
theorem startForward_mask_right {c c' : Causal α} {batch : List Token} (hc : Reaches step Legal Initial c)
    (hb : Appends c.cells batch) (hok : c.startForward batch false = (c', none)) : MaskRight c' batch := by
  have hs := sound_of_reaches hc
  obtain ⟨c₁, he, hf⟩ : ∃ c₁, c.startForward batch false = (c₁, none) ∧ Forwarded c batch c₁ := by
    rcases startForward_cases hs.ranged batch with ⟨_, _, he, -⟩ | hf
    · rw [he] at hok; cases hok
    · exact hf
  rw [he, Prod.mk.injEq] at hok
  obtain ⟨rfl, -⟩ := hok
  have hsound := hf.sound hs hb
  have hpad : c₁.cachePadding = c.cachePadding := by rw [hf.frame]
  have hwin : c₁.swaWindowSize = c.swaWindowSize := by rw [hf.frame]
  refine ⟨?_, fun t _ j j' q => hsound.once t.seq j j' q, ?_, ?_, ?_⟩
  · intro i t ht
    have h0 := (hb.token (List.mem_of_getElem? ht)).1
    refine ⟨c₁.curCellRange.indices.map (c₁.masked i t), ?_, ?_⟩
    · rw [hf.mask, List.getElem?_mapIdx, ht]
      rfl
    · rintro j ⟨hmin, hmax⟩
      rw [List.getElem?_map, Hull.indices, List.getElem?_range' (by omega), Option.map_some,
        Option.some.injEq, show c₁.curCellRange.min + 1 * (j - c₁.curCellRange.min) = j by omega]
      exact masked_iff (by rw [hf.frame]) h0 i j
  · rintro t ht j ⟨q, hst, -, hle, -⟩
    exact hf.covers hs.padding t ht j q hst (by rw [← hwin]; exact hle)
  · rw [hpad]
    exact hf.aligned hs.padding
  · rw [hf.length]
    exact hf.inside hs.padding hs.padded

/-- Two sequences with a shared prefix, a shift that fails on it, and a window of two positions. -/
def sharedRun : List Op :=
  [.startForward [⟨0, 0⟩, ⟨0, 1⟩, ⟨0, 2⟩], .copyPrefix 0 1 2, .startForward [⟨1, 2⟩, ⟨0, 3⟩],
    .remove 1 0 1 fun _ _ _ => false, .remove 0 3 maxInt32 fun _ _ _ => false]

theorem sharedRun_mask_right : ∃ c c' : Causal Nat, Reaches step Legal Initial c ∧
    c.startForward [⟨0, 3⟩, ⟨1, 0⟩, ⟨0, 4⟩] false = (c', none) ∧
    MaskRight c' [⟨0, 3⟩, ⟨1, 0⟩, ⟨0, 4⟩] := by
  let c₀ := ((newSWACache 2 true : Causal Nat).init 2 8 4).get (by decide)
  let c := (exec step c₀ sharedRun).get (by decide)
  have hc : Reaches step Legal Initial c :=
    reaches_of_exec (Reaches.init ⟨_, 2, 8, 4, (Option.some_get _).symm⟩) (by decide) (Option.some_get _).symm
  have hok : (c.startForward [⟨0, 3⟩, ⟨1, 0⟩, ⟨0, 4⟩] false).2 = none := by decide
  have he : c.startForward [⟨0, 3⟩, ⟨1, 0⟩, ⟨0, 4⟩] false =
      ((c.startForward [⟨0, 3⟩, ⟨1, 0⟩, ⟨0, 4⟩] false).1, none) := by rw [← hok]
  exact ⟨c, _, hc, he, startForward_mask_right hc (by decide) he⟩

end Causal

end Xdragon.Kvcache
