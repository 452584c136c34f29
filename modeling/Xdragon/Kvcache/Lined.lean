import Xdragon.Kvcache.Attention

/-!
# Sequences without gaps

In a plain causal cache that is only appended to, copied by prefixes and cut at the end, the positions
of a sequence start at 0 and have no gap.
-/

open Xdragon.Lib

namespace Xdragon.Kvcache

variable {α : Type}

/-- The positions of the sequence are `0 .. n - 1`. -/
def Spans (cells : List CacheCell) (seq : Int) (n : Nat) : Prop :=
  ∀ p, (∃ i, Stores cells seq i p) ↔ 0 ≤ p ∧ p < n

/-- Every sequence is without gaps, and stores each position once. -/
structure Lined (kv : Causal α) : Prop where
  ranged : Causal.Ranged kv
  plain : kv.swaMemorySize = maxInt32
  once : ∀ s i j p, Stores kv.cells s i p → Stores kv.cells s j p → i = j
  lined : ∀ s, ∃ n : Nat, (n : Int) ≤ maxInt32 ∧ Spans kv.cells s n

/-- A new cache without a sliding window. -/
theorem lined_init {kv kv₀ : Causal α} {maxSequences capacity maxBatch : Nat} (hw : kv₀.swaWindowSize = 0)
    (hm : kv₀.swaMemorySize = 0) (h : kv₀.init maxSequences capacity maxBatch = some kv) : Lined kv := by
  have hsound := Causal.sound_initial ⟨kv₀, _, _, _, h⟩
  obtain ⟨hno, -⟩ := Causal.init_empty h
  have hmem : kv₀.initMemory maxSequences capacity = maxInt32 := by
    simp [Causal.initMemory, Causal.initWindow, hw, hm]
  refine ⟨hsound.ranged, ?_, hsound.once, fun s => ⟨0, by decide, fun p => ?_⟩⟩
  · unfold Causal.init at h
    simp only [hmem, Option.ite_none_left_eq_some, Option.some.injEq] at h
    obtain ⟨-, -, rfl⟩ := h
    rfl
  · constructor
    · rintro ⟨i, hi⟩
      exact absurd hi (hno s i p)
    · omega

/-- The position after the last one stored. -/
def nextPos (cells : List CacheCell) (seq : Int) : Int := (lastStored cells seq).elim 0 (· + 1)

theorem nextPos_eq {cells : List CacheCell} {seq : Int} {n : Nat}
    (h : Spans cells seq n) : nextPos cells seq = n := by
  unfold nextPos
  cases hl : lastStored cells seq with
  | none =>
    have hzero : ¬ 0 < n := by
      intro hn
      obtain ⟨i, hi⟩ := (h 0).mpr ⟨by omega, by omega⟩
      obtain ⟨l, hl', -⟩ := stores_le_lastStored hi
      rw [hl] at hl'
      cases hl'
    simp only [Option.elim_none]
    omega
  | some l =>
    have hmem : l ∈ (cells.filter fun cell => seq ∈ cell.sequences).map (·.pos) :=
      (List.max?_eq_some_iff.mp hl).1
    obtain ⟨cell, hcell, rfl⟩ := List.mem_map.mp hmem
    obtain ⟨hcell, hseq⟩ := List.mem_filter.mp hcell
    obtain ⟨i, hi⟩ := List.getElem?_of_mem hcell
    have hlt := (h cell.pos).mp ⟨i, cell, hi, by simpa using hseq, rfl⟩
    obtain ⟨j, hj⟩ := (h (n - 1)).mpr ⟨by omega, by omega⟩
    obtain ⟨l', hl', hle⟩ := stores_le_lastStored hj
    rw [hl, Option.some.injEq] at hl'
    simp only [Option.elim_some]
    omega

/-- The batch goes on where each of its sequences ends. -/
def Extends (cells : List CacheCell) (batch : List Token) : Prop :=
  ∀ t ∈ batch, positionsOf t.seq batch =
      (List.range (positionsOf t.seq batch).length).map (fun k : Nat => nextPos cells t.seq + k) ∧
    nextPos cells t.seq + (positionsOf t.seq batch).length ≤ maxInt32

instance (cells : List CacheCell) (batch : List Token) : Decidable (Extends cells batch) := by
  unfold Extends; infer_instance

/-- A batch without tokens of a sequence has no position of it. -/
theorem positionsOf_eq_nil {batch : List Token} {s : Int} (h : ∀ t ∈ batch, t.seq ≠ s) :
    positionsOf s batch = [] := by
  rw [positionsOf, List.map_eq_nil_iff, List.filter_eq_nil_iff]
  intro t ht
  simpa using h t ht

theorem mem_positionsOf_iff {batch : List Token} {s p : Int} :
    p ∈ positionsOf s batch ↔ ∃ t ∈ batch, t.seq = s ∧ t.pos = p := by
  simp only [positionsOf, List.mem_map, List.mem_filter, decide_eq_true_eq, and_assoc]

/-- All positions of a batch that extends a sequence of length `n`. -/
theorem Extends.positions {cells : List CacheCell} {batch : List Token} (h : Extends cells batch) {s : Int} {n : Nat}
    (hn : Spans cells s n) (hmax : (n : Int) ≤ maxInt32) :
    (positionsOf s batch = (List.range (positionsOf s batch).length).map fun k : Nat => (n : Int) + k) ∧
      (n : Int) + (positionsOf s batch).length ≤ maxInt32 := by
  by_cases hs : ∃ t ∈ batch, t.seq = s
  · obtain ⟨t, ht, rfl⟩ := hs
    have := h t ht
    rwa [nextPos_eq hn] at this
  · have hnil : positionsOf s batch = [] := positionsOf_eq_nil fun t ht he => hs ⟨t, ht, he⟩
    rw [hnil]
    exact ⟨rfl, by simpa using hmax⟩

/-- A pass over a cache without gaps. -/
structure Appended (kv : Causal α) (batch : List Token) (kv' : Causal α) : Prop where
  lined : Lined kv'
  stores : ∀ s i p, Stores kv'.cells s i p ↔
    Stores kv.cells s i p ∨ ∃ e ∈ batch.zip kv'.curLoc, e.1.seq = s ∧ e.2 = i ∧ e.1.pos = p
  fresh : ∀ j ∈ kv'.curLoc, ∀ s p, ¬ Stores kv.cells s j p
  rows : kv'.rows = kv.rows
  nodup : kv'.curLoc.Nodup
  enough : batch.length ≤ kv'.curLoc.length
  spans : ∀ s n, Spans kv.cells s n → (n : Int) ≤ maxInt32 →
    Spans kv'.cells s (n + (positionsOf s batch).length)

theorem appended_startForward {kv kv' : Causal α} {batch : List Token} (h : Lined kv) (hb : Extends kv.cells batch)
    (hok : kv.startForward batch false = (kv', none)) : Appended kv batch kv' := by
  obtain ⟨kv₁, he, hf⟩ : ∃ kv₁, kv.startForward batch false = (kv₁, none) ∧ Causal.Forwarded kv batch kv₁ := by
    rcases Causal.startForward_cases h.ranged batch with ⟨_, _, he, -⟩ | hf
    · rw [he] at hok
      cases hok
    · exact hf
  rw [he, Prod.mk.injEq] at hok
  obtain ⟨rfl, -⟩ := hok
  obtain ⟨old, hsub, hplain, hfresh, hst⟩ := hf.kept
  obtain rfl := hplain h.plain
  have hmem : ∀ e ∈ batch.zip kv₁.curLoc, e.1 ∈ batch := fun e he => (List.of_mem_zip he).1
  have hpos : ∀ s (n : Nat), Spans kv.cells s n → (n : Int) ≤ maxInt32 →
      ∀ p, (∃ t ∈ batch, t.seq = s ∧ t.pos = p) ↔ n ≤ p ∧ p < n + (positionsOf s batch).length := by
    intro s n hn hmax p
    rw [← mem_positionsOf_iff, (hb.positions hn hmax).1]
    simp only [List.mem_map, List.mem_range, List.length_map, List.length_range]
    constructor
    · rintro ⟨k, hk, rfl⟩
      omega
    · intro hp
      exact ⟨(p - n).toNat, by omega, by omega⟩
  have hspans : ∀ s n, Spans kv.cells s n → (n : Int) ≤ maxInt32 →
      Spans kv₁.cells s (n + (positionsOf s batch).length) := by
    intro s n hn hmax p
    have hnew : (∃ i, ∃ e ∈ batch.zip kv₁.curLoc, e.1.seq = s ∧ e.2 = i ∧ e.1.pos = p) ↔
        ∃ t ∈ batch, t.seq = s ∧ t.pos = p := by
      constructor
      · rintro ⟨_, e, he, hes, -, hep⟩
        exact ⟨e.1, hmem e he, hes, hep⟩
      · rintro ⟨t, ht, hts, htp⟩
        rw [← List.map_fst_zip hf.enough] at ht
        obtain ⟨e, he, rfl⟩ := List.mem_map.mp ht
        exact ⟨e.2, e, he, hts, rfl, htp⟩
    rw [← exists_congr fun i => (hst s i p).symm, exists_or, hn p, hnew, hpos s n hn hmax p]
    push_cast
    omega
  refine ⟨⟨hf.ranged, by rw [hf.frame]; exact h.plain, ?_, ?_⟩, hst, hfresh, by rw [hf.frame], hf.nodup, hf.enough,
    hspans⟩
  · intro s i j p hi hj
    obtain ⟨n, hmax, hn⟩ := h.lined s
    have hold : ∀ k, Stores kv.cells s k p → p < n := fun k hk => ((hn p).mp ⟨k, hk⟩).2
    have hnew : ∀ e ∈ batch.zip kv₁.curLoc, e.1.seq = s → e.1.pos = p → n ≤ p := fun e he hes hep =>
      ((hpos s n hn hmax p).mp ⟨e.1, hmem e he, hes, hep⟩).1
    rcases (hst _ _ _).mp hi with hi | ⟨e, he, hes, rfl, hep⟩ <;>
      rcases (hst _ _ _).mp hj with hj | ⟨f, hf', hfs, rfl, hfp⟩
    · exact h.once s i j p hi hj
    · have h1 := hold i hi
      have h2 := hnew f hf' hfs hfp
      omega
    · have h1 := hold j hj
      have h2 := hnew e he hes hep
      omega
    · have hnd : (positionsOf s batch).Nodup := by
        rw [(hb.positions hn hmax).1]
        apply List.Nodup.map _ List.nodup_range
        intro a b hab
        have : (n : Int) + (a : Int) = n + b := hab
        omega
      rw [Causal.zip_once hf.enough hnd he hf' hes hfs (hep.trans hfp.symm)]
  · intro s
    obtain ⟨n, hmax, hn⟩ := h.lined s
    refine ⟨n + (positionsOf s batch).length, ?_, hspans s n hn hmax⟩
    have := (hb.positions hn hmax).2
    push_cast
    omega

/-- A pass that finds no room leaves the cells alone. -/
theorem lined_startForward_failed {kv kv' : Causal α} {batch : List Token} {err : CacheError} (h : Lined kv)
    (hok : kv.startForward batch false = (kv', some err)) :
    Lined kv' ∧ kv'.cells = kv.cells ∧ kv'.rows = kv.rows := by
  rcases Causal.startForward_cases h.ranged batch with ⟨kv₁, err', he, hw⟩ | ⟨_, he, -⟩
  · rw [he, Prod.mk.injEq] at hok
    obtain ⟨rfl, -⟩ := hok
    have hcells := hw.plain h.plain
    refine ⟨⟨hw.ranged, by rw [hw.frame]; exact h.plain, ?_, ?_⟩, hcells, by rw [hw.frame]⟩
    · rw [hcells]
      exact h.once
    · rw [hcells]
      exact h.lined
  · rw [he] at hok
    cases hok

theorem spans_copyPrefix {kv : Causal α} {srcSeq dstSeq : Int} (hne : srcSeq ≠ dstSeq) {n : Nat}
    (hn : Spans kv.cells srcSeq n) (len : Int) :
    Spans (kv.copyPrefix srcSeq dstSeq len).cells dstSeq (min n len.toNat) := by
  intro p
  simp only [Causal.copyPrefix_stores hne, if_true, exists_and_right, hn p]
  omega

theorem lined_copyPrefix {kv : Causal α} (h : Lined kv) {srcSeq dstSeq : Int} (hne : srcSeq ≠ dstSeq) (len : Int) :
    Lined (kv.copyPrefix srcSeq dstSeq len) := by
  have hst := @Causal.copyPrefix_stores _ kv _ _ len hne
  refine ⟨Causal.copyPrefix_ranged h.ranged hne, h.plain, ?_, ?_⟩
  · intro s i j p hi hj
    rw [hst] at hi hj
    split at hi <;> rename_i hs <;> simp only [hs, if_true, if_false] at hj
    · exact h.once srcSeq i j p hi.1 hj.1
    · exact h.once s i j p hi hj
  · intro s
    by_cases hs : s = dstSeq
    · obtain ⟨n, hmax, hn⟩ := h.lined srcSeq
      exact ⟨min n len.toNat, by omega, hs ▸ spans_copyPrefix hne hn len⟩
    · obtain ⟨n, hmax, hn⟩ := h.lined s
      refine ⟨n, hmax, fun p => ?_⟩
      simp only [hst, hs, if_false, hn p]

/-- A cut at the end of a sequence always succeeds. -/
theorem lined_remove {kv : Causal α} (h : Lined kv) (seq beginIndex : Int) (fails : Nat → Nat → Nat → Bool) :
    ∃ kv', kv.remove seq beginIndex maxInt32 fails = (kv', none) ∧ Lined kv' ∧ kv'.rows = kv.rows ∧
      ∀ s i p, Stores kv'.cells s i p ↔ Stores kv.cells s i p ∧ (s = seq → p < beginIndex) := by
  obtain ⟨n, hmax, hn⟩ := h.lined seq
  have hok : (kv.remove seq beginIndex maxInt32 fails).2 = none := by
    rcases Causal.remove_cases kv seq beginIndex maxInt32 fails with ⟨hstop, -⟩ | ⟨-, -, he⟩ | ⟨-, err, herr, he⟩
    · obtain ⟨k, hk⟩ := Causal.removeLoop_removed seq beginIndex maxInt32 (Causal.removeOffset beginIndex maxInt32)
        kv.cells 0 newRange
      obtain ⟨cell, hcell, hmem, hge, -⟩ := hk.stopped hstop
      have := (hn cell.pos).mp ⟨k, cell, hcell, hmem, rfl⟩
      omega
    · rw [he]
    · rw [he]
      exact herr rfl
  have hst : ∀ s i p, Stores (kv.remove seq beginIndex maxInt32 fails).1.cells s i p ↔
      Stores kv.cells s i p ∧ (s = seq → p < beginIndex) := by
    intro s i p
    by_cases hs : s = seq
    · subst hs
      rw [Causal.remove_stores_self hok]
      constructor
      · rintro ⟨q, hq, hnq, he⟩
        have := (hn q).mp ⟨i, hq⟩
        rw [if_neg (by omega)] at he
        subst he
        exact ⟨hq, fun _ => by omega⟩
      · rintro ⟨hp, hlt⟩
        have := (hn p).mp ⟨i, hp⟩
        refine ⟨p, hp, ?_, ?_⟩
        · have := hlt rfl
          omega
        · rw [if_neg (by omega)]
    · rw [Causal.remove_stores_other _ _ _ _ hs]
      exact ⟨fun h => ⟨h, fun he => absurd he hs⟩, fun h => h.1⟩
  refine ⟨(kv.remove seq beginIndex maxInt32 fails).1, Prod.ext rfl hok, ?_, ?_, hst⟩
  · refine ⟨Causal.remove_ranged h.ranged .., by rw [Causal.remove_frame]; exact h.plain, ?_, ?_⟩
    · intro s i j p hi hj
      exact h.once s i j p ((hst s i p).mp hi).1 ((hst s j p).mp hj).1
    · intro s
      by_cases hs : s = seq
      · subst hs
        refine ⟨min n beginIndex.toNat, by omega, fun p => ?_⟩
        simp only [hst, true_implies, exists_and_right, hn p]
        omega
      · obtain ⟨m, hm, hp⟩ := h.lined s
        refine ⟨m, hm, fun p => ?_⟩
        simp only [hst, hs, false_implies, and_true, hp p]
  · rw [Causal.remove_frame]

/-! ## What `Put` stores -/

theorem putRow_foldl_other {es : List (Nat × α)} {i : Nat} (h : ∀ e ∈ es, e.1 ≠ i) (rows : Nat → Option α) :
    es.foldl Causal.putRow rows i = rows i := by
  induction es generalizing rows with
  | nil => rfl
  | cons e es ih =>
    rw [List.foldl_cons, ih fun e' he' => h e' (List.mem_cons_of_mem _ he')]
    exact Function.update_of_ne (Ne.symm (h e (by simp))) _ _

theorem putRow_foldl_mem {locs : List Nat} (hnd : locs.Nodup) {xs : List α} {e : Nat × α} (he : e ∈ locs.zip xs)
    (rows : Nat → Option α) : (locs.zip xs).foldl Causal.putRow rows e.1 = some e.2 := by
  induction locs generalizing xs rows with
  | nil => simp at he
  | cons loc locs ih =>
    cases xs with
    | nil => simp at he
    | cons x xs =>
      obtain ⟨hnot, hnd⟩ := List.nodup_cons.mp hnd
      rw [List.zip_cons_cons, List.foldl_cons]
      rcases List.mem_cons.mp he with rfl | he
      · have hne : ∀ e ∈ locs.zip xs, e.1 ≠ loc := fun e he hel => hnot (hel ▸ (List.of_mem_zip he).1)
        exact (putRow_foldl_other hne _).trans (Function.update_self _ _ _)
      · exact ih hnd he _

theorem Lined.put {kv : Causal α} (h : Lined kv) (inputs : List α) : Lined (kv.put inputs) :=
  ⟨⟨h.ranged.covers, h.ranged.below⟩, h.plain, h.once, h.lined⟩

theorem put_rows_other {kv : Causal α} {i : Nat} (h : i ∉ kv.curLoc) (xs : List α) :
    (kv.put xs).rows i = kv.rows i := by
  refine putRow_foldl_other ?_ _
  intro e he hei
  exact h (hei ▸ (List.of_mem_zip he).1)

theorem put_rows_mem {kv : Causal α} (hnd : kv.curLoc.Nodup) {xs : List α} {e : Nat × α}
    (he : e ∈ kv.curLoc.zip xs) : (kv.put xs).rows e.1 = some e.2 :=
  putRow_foldl_mem hnd he _

/-- The inputs of one sequence of a batch. -/
def inputsOf (batch : List Token) (inputs : List α) (seq : Int) : List α :=
  ((batch.zip inputs).filter fun e => e.1.seq = seq).map (·.2)

theorem inputsOf_append {batch : List Token} {inputs : List α} (h : batch.length = inputs.length)
    (batch' : List Token) (inputs' : List α) (s : Int) :
    inputsOf (batch ++ batch') (inputs ++ inputs') s = inputsOf batch inputs s ++ inputsOf batch' inputs' s := by
  rw [inputsOf, List.zip_append h, List.filter_append, List.map_append]
  rfl

theorem positionsOf_append (batch batch' : List Token) (s : Int) :
    positionsOf s (batch ++ batch') = positionsOf s batch ++ positionsOf s batch' := by
  rw [positionsOf, List.filter_append, List.map_append]
  rfl

theorem length_inputsOf {batch : List Token} {inputs : List α} (hlen : inputs.length = batch.length) (s : Int) :
    (inputsOf batch inputs s).length = (positionsOf s batch).length := by
  have hmap : (batch.zip inputs).map (·.1) = batch := List.map_fst_zip (by omega)
  rw [inputsOf, positionsOf, List.length_map, List.length_map]
  conv_rhs => rw [← hmap, List.filter_map, List.length_map]
  rfl

/-- The token at position `n + j` of a sequence has the `j`-th input of the sequence. -/
theorem inputsOf_at {batch : List Token} {inputs : List α} (hlen : inputs.length = batch.length) {s : Int} {n : Int}
    (hpos : positionsOf s batch = (List.range (positionsOf s batch).length).map fun k : Nat => n + k)
    {e : Token × α} (he : e ∈ batch.zip inputs) (hs : e.1.seq = s) :
    n ≤ e.1.pos ∧ (inputsOf batch inputs s)[(e.1.pos - n).toNat]? = some e.2 := by
  have hmem : e ∈ (batch.zip inputs).filter fun e => e.1.seq = s := List.mem_filter.mpr ⟨he, by simpa using hs⟩
  obtain ⟨j, hj⟩ := List.getElem?_of_mem hmem
  have hp : positionsOf s batch = ((batch.zip inputs).filter fun e => e.1.seq = s).map (·.1.pos) := by
    have hmap : (batch.zip inputs).map (·.1) = batch := List.map_fst_zip (by omega)
    conv_lhs => rw [positionsOf, ← hmap, List.filter_map, List.map_map]
    rfl
  have hjp : (positionsOf s batch)[j]? = some e.1.pos := by
    rw [hp, List.getElem?_map, hj]
    rfl
  have hjn : e.1.pos = n + j := by
    rw [hpos, List.getElem?_map] at hjp
    obtain ⟨k, hk, hke⟩ := Option.map_eq_some_iff.mp hjp
    have hlt : j < (positionsOf s batch).length := by
      have := (List.getElem?_eq_some_iff.mp hk).1
      simpa using this
    rw [List.getElem?_range hlt, Option.some.injEq] at hk
    omega
  refine ⟨by omega, ?_⟩
  rw [inputsOf, List.getElem?_map, show (e.1.pos - n).toNat = j by omega, hj]
  rfl

/-- Each cell is from before the batch, or has the input of its token. -/
theorem Appended.put_rows {kv kv' : Causal α} {batch : List Token} (ha : Appended kv batch kv')
    (hext : Extends kv.cells batch) {inputs : List α} (hlen : inputs.length = batch.length) {s p : Int} {i : Nat}
    (hst : Stores kv'.cells s i p) :
    (Stores kv.cells s i p ∧ (kv'.put inputs).rows i = kv.rows i) ∨
      (nextPos kv.cells s ≤ p ∧
        (kv'.put inputs).rows i = (inputsOf batch inputs s)[(p - nextPos kv.cells s).toNat]?) := by
  rcases (ha.stores s i p).mp hst with hold | ⟨e, he, rfl, rfl, rfl⟩
  · exact .inl ⟨hold, by rw [put_rows_other fun hi => ha.fresh i hi s p hold, ha.rows]⟩
  · obtain ⟨j, hj⟩ := List.getElem?_of_mem he
    obtain ⟨hj1, hj2⟩ := List.getElem?_zip_eq_some.mp hj
    have hjlt : j < inputs.length := by
      rw [hlen]
      exact (List.getElem?_eq_some_iff.mp hj1).1
    have hx := List.getElem?_eq_getElem hjlt
    have hput := put_rows_mem (e := (e.2, inputs[j])) ha.nodup
      (List.mem_of_getElem? (List.getElem?_zip_eq_some.mpr ⟨hj2, hx⟩))
    obtain ⟨hle, hat⟩ := inputsOf_at (e := (e.1, inputs[j])) hlen (hext e.1 (List.mem_of_getElem? hj1)).1
      (List.mem_of_getElem? (List.getElem?_zip_eq_some.mpr ⟨hj1, hx⟩)) rfl
    exact .inr ⟨hle, hput.trans hat.symm⟩

/-! ## Shifting a sequence -/

/-- A `Remove` of the middle that succeeds. -/
theorem lined_removeMiddle {kv : Causal α} (h : Lined kv) {seq beginIndex endIndex : Int} {n : Nat}
    (hn : Spans kv.cells seq n) (h0 : 0 ≤ beginIndex) (hlt : beginIndex < endIndex) (hle : endIndex ≤ n)
    {fails : Nat → Nat → Nat → Bool}
    (hok : (kv.remove seq beginIndex endIndex fails).2 = none) :
    Lined (kv.remove seq beginIndex endIndex fails).1 ∧
      Spans (kv.remove seq beginIndex endIndex fails).1.cells seq (n - (endIndex - beginIndex).toNat) ∧
      ∀ i p, Stores (kv.remove seq beginIndex endIndex fails).1.cells seq i p ↔
        Stores kv.cells seq i (if p < beginIndex then p else p + (endIndex - beginIndex)) := by
  have hmax : (n : Int) ≤ maxInt32 := by
    obtain ⟨m, hm, hm'⟩ := h.lined seq
    rwa [← nextPos_eq hn, nextPos_eq hm']
  have hoff := Causal.removeOffset_cases beginIndex endIndex
  have hst : ∀ i p, Stores (kv.remove seq beginIndex endIndex fails).1.cells seq i p ↔
      Stores kv.cells seq i (if p < beginIndex then p else p + (endIndex - beginIndex)) := by
    intro i p
    rw [Causal.remove_stores_self hok]
    constructor
    · rintro ⟨q, hq, hnot, rfl⟩
      have hqn := (hn q).mp ⟨i, hq⟩
      by_cases hqe : endIndex ≤ q
      · rw [if_pos hqe, if_neg (by omega), show q + _ + (endIndex - beginIndex) = q by omega]
        exact hq
      · rw [if_neg hqe, if_pos (by omega)]
        exact hq
    · intro hq
      have hqn := (hn _).mp ⟨i, hq⟩
      refine ⟨_, hq, ?_, ?_⟩ <;> split <;> split at hqn <;> omega
  have hspans : Spans (kv.remove seq beginIndex endIndex fails).1.cells seq
      (n - (endIndex - beginIndex).toNat) := by
    intro p
    simp only [hst]
    have := hn (if p < beginIndex then p else p + (endIndex - beginIndex))
    rw [this]
    split <;> omega
  have hother : ∀ s, s ≠ seq → ∀ i p, Stores (kv.remove seq beginIndex endIndex fails).1.cells s i p ↔
      Stores kv.cells s i p := fun s hs i p => Causal.remove_stores_other _ _ _ _ hs i p
  refine ⟨⟨Causal.remove_ranged h.ranged .., by rw [Causal.remove_frame]; exact h.plain, ?_, ?_⟩, hspans, hst⟩
  · intro s i j p hi hj
    by_cases hs : s = seq
    · subst hs
      exact h.once s i j _ ((hst i p).mp hi) ((hst j p).mp hj)
    · exact h.once s i j p ((hother s hs i p).mp hi) ((hother s hs j p).mp hj)
  · intro s
    by_cases hs : s = seq
    · exact ⟨n - (endIndex - beginIndex).toNat, by omega, hs ▸ hspans⟩
    · obtain ⟨m, hm, hm'⟩ := h.lined s
      refine ⟨m, hm, fun p => ?_⟩
      simp only [hother s hs, hm' p]

/-- After a `Remove` that failed, removing everything works and leaves the other sequences alone. -/
theorem lined_removeFailed {kv : Causal α} (h : Lined kv) {seq beginIndex endIndex : Int} (h0 : 0 ≤ beginIndex)
    (hlt : beginIndex < endIndex) (fails : Nat → Nat → Nat → Bool) :
    Lined ((kv.remove seq beginIndex endIndex fails).1.remove seq 0 maxInt32 fails).1 ∧
      ∀ s i p, Stores ((kv.remove seq beginIndex endIndex fails).1.remove seq 0 maxInt32 fails).1.cells s i p ↔
        Stores kv.cells s i p ∧ s ≠ seq := by
  obtain ⟨n, hmax, hn⟩ := h.lined seq
  have hpos : ∀ i p, Stores (kv.remove seq beginIndex endIndex fails).1.cells seq i p → 0 ≤ p ∧ p < maxInt32 := by
    intro i p hp
    obtain ⟨k, out, hk, hcells, -⟩ := Causal.remove_removed kv seq beginIndex endIndex fails
    rw [hcells] at hp
    have hoff := Causal.removeOffset_cases beginIndex endIndex
    by_cases hi : i < k
    · obtain ⟨q, hq, hnot, he⟩ := (hk.stores_done hi p).mp hp
      have := (hn q).mp ⟨i, hq⟩
      split at he <;> omega
    · have := (hn p).mp ⟨i, (hk.stores_rest (Nat.le_of_not_lt hi) seq p).mp hp⟩
      omega
  have hranged := Causal.remove_ranged (Causal.remove_ranged h.ranged seq beginIndex endIndex fails) seq 0 maxInt32
    fails
  have hframe : (kv.remove seq beginIndex endIndex fails).1.swaMemorySize = maxInt32 := by
    rw [Causal.remove_frame]
    exact h.plain
  have hother : ∀ s, s ≠ seq → ∀ i p, Stores (kv.remove seq beginIndex endIndex fails).1.cells s i p ↔
      Stores kv.cells s i p := fun s hs i p => Causal.remove_stores_other _ _ _ _ hs i p
  generalize (kv.remove seq beginIndex endIndex fails).1 = kv₁ at hpos hranged hframe hother ⊢
  have hgone : ∀ i p, ¬ Stores (kv₁.remove seq 0 maxInt32 fails).1.cells seq i p := by
    intro i p hp
    obtain ⟨k, out, hk, hcells, -⟩ := Causal.remove_removed kv₁ seq 0 maxInt32 fails
    rw [hcells] at hp
    have hk' : out.2.2 = false := by
      by_contra hstop
      obtain ⟨cell, hcell, hmem, hge, -⟩ := hk.stopped (by simpa using hstop)
      have := hpos k cell.pos ⟨cell, hcell, hmem, rfl⟩
      omega
    have hlen := hk.all hk'
    by_cases hi : i < k
    · obtain ⟨q, hq, hnot, -⟩ := (hk.stores_done hi p).mp hp
      exact hnot (hpos i q hq)
    · have := ((hk.stores_rest (Nat.le_of_not_lt hi) seq p).mp hp).lt
      omega
  have hst : ∀ s i p, Stores (kv₁.remove seq 0 maxInt32 fails).1.cells s i p ↔ Stores kv.cells s i p ∧ s ≠ seq := by
    intro s i p
    by_cases hs : s = seq
    · subst hs
      exact ⟨fun hp => absurd hp (hgone i p), fun hp => absurd rfl hp.2⟩
    · rw [Causal.remove_stores_other _ _ _ _ hs, hother s hs]
      exact ⟨fun hp => ⟨hp, hs⟩, fun hp => hp.1⟩
  refine ⟨⟨hranged, by rw [Causal.remove_frame]; exact hframe, ?_, ?_⟩, hst⟩
  · intro s i j p hi hj
    exact h.once s i j p ((hst s i p).mp hi).1 ((hst s j p).mp hj).1
  · intro s
    by_cases hs : s = seq
    · refine ⟨0, by decide, fun p => ?_⟩
      simp only [hst, hs, ne_eq, not_true_eq_false, and_false, exists_false, false_iff]
      omega
    · obtain ⟨m, hm, hm'⟩ := h.lined s
      refine ⟨m, hm, fun p => ?_⟩
      simp only [hst, hs, ne_eq, not_false_eq_true, and_true, hm' p]

end Xdragon.Kvcache
