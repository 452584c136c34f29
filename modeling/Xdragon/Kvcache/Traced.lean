import Xdragon.Kvcache.Layers

/-!
# States that match their inputs

The state of a sequence and its checkpoints come from the inputs that the attention half stores for it.
A move to a private slot keeps this, and so does a whole pass.
-/

open Xdragon.Lib

namespace Xdragon.Kvcache

variable {α : Type}

namespace Recurrent

/-- States and stored inputs agree as far as both go, and a checkpoint is a part of the state of its slot. -/
structure Traced (layers : List Buffer) (c : Recurrent α) : Prop where
  compat : ∀ b ∈ layers, ∀ s i p, Stores c.kv.cells s i p → p < (c.seqRow b s).length →
    c.kv.rows i = (c.seqRow b s)[p.toNat]?
  live : ∀ b ∈ layers, ∀ slot idx e, c.entryAt slot idx = some e → 0 ≤ e.pos →
    e.pos < (c.row b slot).length ∧ e.tensors.lookup b = some ((c.row b slot).take (e.pos.toNat + 1))
  free : ∀ slot, (∀ s, c.slotForSeq.lookup s ≠ some slot) → ∀ idx e, c.entryAt slot idx = some e → e.pos < 0
  shaped : Shaped c

/-! ## Copies of a slot -/

theorem detach_frame {c c' : Recurrent α} {seq : Int} {slot newSlot : Nat}
    (h : c.detach seq slot = some (newSlot, c')) : c' = { c with
      slotForSeq := c.slotForSeq.insert seq newSlot
      refCount := c'.refCount, freeSlots := c'.freeSlots, states := c'.states, checkpoints := c'.checkpoints } := by
  obtain ⟨⟨k, c₁⟩, ha, he⟩ := Option.map_eq_some_iff.mp h
  obtain ⟨rfl, rfl⟩ := Prod.mk.inj he
  have hcopy : ∀ c : Recurrent α, c.copyCheckpoints slot k = { c with
      checkpoints := (c.copyCheckpoints slot k).checkpoints } := by
    intro c
    unfold copyCheckpoints
    split
    · rfl
    · split
      · rfl
      · split
        · rfl
        · dsimp only
          rw [checkpointStore_frame]
  dsimp only
  rw [hcopy, copyRecurrentState, setRows, allocSlot_frame ha]

theorem row_detach {c c' : Recurrent α} {seq : Int} {slot newSlot : Nat}
    (h : c.detach seq slot = some (newSlot, c')) (b : Buffer) (k : Nat) :
    c'.row b k = if k = newSlot then c.row b slot else c.row b k := by
  obtain ⟨⟨n, c₁⟩, ha, he⟩ := Option.map_eq_some_iff.mp h
  obtain ⟨rfl, rfl⟩ := Prod.mk.inj he
  have h1 : ((c₁.copyRecurrentState slot n).copyCheckpoints slot n).row b k =
      (c₁.copyRecurrentState slot n).row b k := by
    rw [row, row, copyCheckpoints_states]
  refine h1.trans ?_
  rw [row_copyRecurrentState, allocSlot_frame ha]
  rfl

theorem lookup_copyEntry (src dst : CheckpointEntry α) {b : Buffer} {t : List α} (h : src.tensors.lookup b = some t) :
    (SlotCheckpointStore.copyEntry src dst).tensors.lookup b = some t := by
  have := lookup_foldl_insert (fun _ t => t) src.tensors.nodupKeys dst.tensors b
  refine this.trans ?_
  rw [show src.tensors.entries.dlookup b = src.tensors.lookup b from rfl, h]
  rfl

/-- A checkpoint of the new slot is a copy of one of the old slot, or was there before. -/
theorem entryAt_copyCheckpoints {c : Recurrent α} (hsh : Shaped c) {src dst idx : Nat} {e : CheckpointEntry α}
    (he : (c.copyCheckpoints src dst).entryAt dst idx = some e) (hpos : 0 ≤ e.pos) :
    c.entryAt dst idx = some e ∨ ∃ e₀, c.entryAt src idx = some e₀ ∧ e.pos = e₀.pos ∧
      ∀ b t, e₀.tensors.lookup b = some t → e.tensors.lookup b = some t := by
  unfold copyCheckpoints at he
  split at he
  · exact .inl he
  · split at he
    · exact .inl he
    · rename_i store hstore
      split at he
      · exact .inl he
      · dsimp only at he
        rw [entryAt, AList.lookup_insert, Option.bind_some, SlotCheckpointStore.copyFrom, List.getElem?_mapIdx] at he
        obtain ⟨d, hd, rfl⟩ := Option.map_eq_some_iff.mp he
        have hlen : (c.checkpointStore dst).1.entries.length = c.checkpointCount := by
          have := checkpointStore_shaped hsh dst dst _ (checkpointStore_lookup c dst)
          rw [this.length, checkpointStore_frame]
        have hlt : idx < store.entries.length := by
          rw [(hsh src store hstore).length, ← hlen]
          exact (List.getElem?_eq_some_iff.mp hd).1
        have hs := List.getElem?_eq_getElem hlt
        rw [hs, Option.elim_some]
        refine .inr ⟨store.entries[idx], ?_, rfl, fun b t => lookup_copyEntry _ _⟩
        rw [entryAt, hstore, Option.bind_some, hs]

theorem shaped_copyCheckpoints {c : Recurrent α} (hsh : Shaped c) (src dst : Nat) :
    Shaped (c.copyCheckpoints src dst) := by
  unfold copyCheckpoints
  split
  · exact hsh
  · split
    · exact hsh
    · rename_i store hstore
      split
      · exact hsh
      · rename_i hsize
        have hsh' := checkpointStore_shaped hsh dst
        intro k s hk
        by_cases hkd : k = dst
        · subst hkd
          rw [AList.lookup_insert, Option.some.injEq] at hk
          subst hk
          have hring := hsh' k _ (checkpointStore_lookup c k)
          refine ⟨?_, fun h0 => absurd h0 hsize, ?_⟩
          · rw [SlotCheckpointStore.copyFrom, List.length_mapIdx]
            exact hring.length
          · dsimp only
            rw [checkpointStore_frame]
            exact (hsh src store hstore).next
        · exact hsh' k s (by rwa [AList.lookup_insert_ne hkd] at hk)

theorem entryAt_detach {c c' : Recurrent α} (hsh : Shaped c) {seq : Int} {slot newSlot : Nat}
    (h : c.detach seq slot = some (newSlot, c')) :
    Shaped c' ∧ (∀ k idx, k ≠ newSlot → c'.entryAt k idx = c.entryAt k idx) ∧
      ∀ idx e, c'.entryAt newSlot idx = some e → 0 ≤ e.pos →
        c.entryAt newSlot idx = some e ∨ ∃ e₀, c.entryAt slot idx = some e₀ ∧ e.pos = e₀.pos ∧
          ∀ b t, e₀.tensors.lookup b = some t → e.tensors.lookup b = some t := by
  refine ⟨?_, fun k idx hk => entryAt_of_lookup (detach_sameSlot h hk).store idx, ?_⟩
  · obtain ⟨⟨n, c₁⟩, ha, he⟩ := Option.map_eq_some_iff.mp h
    obtain ⟨rfl, rfl⟩ := Prod.mk.inj he
    have hsh₁ : Shaped (c₁.copyRecurrentState slot n) := by
      rw [allocSlot_frame ha]
      exact hsh
    exact shaped_copyCheckpoints hsh₁ slot n
  · obtain ⟨⟨n, c₁⟩, ha, he⟩ := Option.map_eq_some_iff.mp h
    obtain ⟨rfl, rfl⟩ := Prod.mk.inj he
    have hsh₁ : Shaped (c₁.copyRecurrentState slot n) := by
      rw [allocSlot_frame ha]
      exact hsh
    have hent : ∀ k idx, (c₁.copyRecurrentState slot n).entryAt k idx = c.entryAt k idx := by
      intro k idx
      rw [allocSlot_frame ha]
      rfl
    intro idx e hidx hpos
    have := entryAt_copyCheckpoints hsh₁ hidx hpos
    rwa [hent, hent] at this

/-- A sequence that moves to a copy of its slot keeps its state. -/
theorem seqRow_detach {ids : Finset Int} {c c' : Recurrent α} (hs : Slots ids c) {seq : Int} {slot newSlot : Nat}
    (hseq : c.slotForSeq.lookup seq = some slot) (h : c.detach seq slot = some (newSlot, c')) (b : Buffer) (s : Int) :
    c'.seqRow b s = c.seqRow b s := by
  have hslots : c'.slotForSeq = c.slotForSeq.insert seq newSlot := by rw [detach_frame h]
  by_cases he : s = seq
  · rw [he, seqRow_of_lookup hseq, seqRow_of_lookup (by rw [hslots, AList.lookup_insert]), row_detach h, if_pos rfl]
  · rw [seqRow, hslots, AList.lookup_insert_ne he, seqRow]
    cases hk : c.slotForSeq.lookup s with
    | none => rfl
    | some k =>
      have hne : k ≠ newSlot := fun hkn => hs.detach_fresh h s (hkn ▸ hk)
      show c'.row b k = c.row b k
      rw [row_detach h, if_neg hne]

theorem traced_detach {ids : Finset Int} {layers : List Buffer} {c c' : Recurrent α} (hs : Slots ids c)
    (ht : Traced layers c) {seq : Int} {slot newSlot : Nat} (hseq : c.slotForSeq.lookup seq = some slot)
    (hshared : 1 < c.refCount.getD slot 0) (h : c.detach seq slot = some (newSlot, c')) : Traced layers c' := by
  obtain ⟨hshaped, hother, hnew⟩ := entryAt_detach ht.shaped h
  have hfresh := hs.detach_fresh h
  have hrow := row_detach h
  refine ⟨?_, ?_, ?_, hshaped⟩
  · intro b hb s i p hst hlt
    rw [seqRow_detach hs hseq h] at hlt ⊢
    rw [detach_frame h] at hst ⊢
    exact ht.compat b hb s i p hst hlt
  · intro b hb k idx e he hpos
    by_cases hk : k = newSlot
    · subst hk
      rw [hrow, if_pos rfl]
      rcases hnew idx e he hpos with he | ⟨e₀, he₀, hp, htensors⟩
      · have := ht.free k hfresh idx e he
        omega
      · obtain ⟨h1, h2⟩ := ht.live b hb slot idx e₀ he₀ (hp ▸ hpos)
        rw [hp]
        exact ⟨h1, htensors b _ h2⟩
    · rw [hrow, if_neg hk]
      rw [hother k idx hk] at he
      exact ht.live b hb k idx e he hpos
  · intro k hk idx e he
    obtain ⟨hw, -⟩ := hs.detach_writable hseq hshared h
    have hself : c'.slotForSeq.lookup seq = some newSlot := by rw [detach_frame h, AList.lookup_insert]
    have hne : k ≠ newSlot := fun hkn => hk seq (hkn ▸ hself)
    rw [hother k idx hne] at he
    refine ht.free k (fun s hs' => ?_) idx e he
    obtain ⟨-, s', hs''⟩ := hw.used s k hs'
    exact hk s' hs''

/-! ## Private slots for the batch -/

/-- `curSlots` holds the slots of `curSeqs`. -/
def Matched (c : Recurrent α) : Prop := c.curSlots.map some = c.curSeqs.map c.slotForSeq.lookup

/-- States and checkpoints may have moved to other slots, and nothing else happened. -/
structure Moved (layers : List Buffer) (c c' : Recurrent α) : Prop where
  frame : c' = { c with
    slotForSeq := c'.slotForSeq, refCount := c'.refCount, freeSlots := c'.freeSlots, states := c'.states
    checkpoints := c'.checkpoints, curSlots := c'.curSlots, writableEnsured := c'.writableEnsured }
  traced : Traced layers c → Traced layers c'
  rows : ∀ b s, c'.seqRow b s = c.seqRow b s

theorem Moved.refl (layers : List Buffer) (c : Recurrent α) : Moved layers c c := ⟨rfl, id, fun _ _ => rfl⟩

theorem Moved.trans {layers : List Buffer} {c c' c'' : Recurrent α} (h : Moved layers c c')
    (h' : Moved layers c' c'') : Moved layers c c'' :=
  ⟨by rw [h'.frame, h.frame], fun ht => h'.traced (h.traced ht), fun b s => (h'.rows b s).trans (h.rows b s)⟩

/-- `detach` of the sequence at index `i` of the batch. -/
theorem moved_detach {ids : Finset Int} (layers : List Buffer) {c c' : Recurrent α} (hs : Slots ids c) {seq : Int}
    {slot newSlot : Nat} (hseq : c.slotForSeq.lookup seq = some slot) (hshared : 1 < c.refCount.getD slot 0)
    (h : c.detach seq slot = some (newSlot, c')) (curSlots : List Nat) :
    Moved layers c { c' with curSlots := curSlots } := by
  refine ⟨by rw [detach_frame h], fun ht => ?_, fun b s => ?_⟩
  · have := traced_detach hs ht hseq hshared h
    exact ⟨this.compat, this.live, this.free, this.shaped⟩
  · have := seqRow_detach hs hseq h b s
    exact this

theorem matched_detach {c c' : Recurrent α} {before rest : List Int} {seq : Int} {slot newSlot : Nat}
    (h : c.detach seq slot = some (newSlot, c')) (hm : Matched c) (hcur : c.curSeqs = before ++ seq :: rest)
    (hnd : c.curSeqs.Nodup) : Matched { c' with curSlots := c'.curSlots.set before.length newSlot } := by
  have hlook : ∀ s, c'.slotForSeq.lookup s = if s = seq then some newSlot else c.slotForSeq.lookup s := by
    intro s
    rw [detach_frame h]
    by_cases he : s = seq
    · rw [if_pos he, he, AList.lookup_insert]
    · rw [if_neg he, AList.lookup_insert_ne he]
  have hcs : c'.curSlots = c.curSlots := by rw [detach_frame h]
  have hcq : c'.curSeqs = c.curSeqs := by rw [detach_frame h]
  unfold Matched at hm ⊢
  dsimp only
  rw [hcs, hcq, List.map_set, hm, hcur]
  rw [hcur] at hnd
  obtain ⟨-, hnd', hdis⟩ := List.nodup_append.mp hnd
  have hmap : ∀ l : List Int, seq ∉ l → l.map c'.slotForSeq.lookup = l.map c.slotForSeq.lookup := by
    intro l hl
    refine List.map_congr_left fun s hs => ?_
    rw [hlook, if_neg fun he : s = seq => hl (he ▸ hs)]
  have hb : seq ∉ before := fun hm => hdis seq hm seq (by simp) rfl
  have hr : seq ∉ rest := (List.nodup_cons.mp hnd').1
  rw [List.map_append, List.map_append, List.map_cons, List.map_cons, hmap before hb, hmap rest hr, hlook seq,
    if_pos rfl, List.set_append_right _ _ (by simp)]
  simp

theorem ensureWritableLoop_moved {ids : Finset Int} (layers : List Buffer) {seqs : List Int} {i : Nat}
    {c c' : Recurrent α} {err : Option CacheError} (hs : Slots ids c)
    (he : ensureWritableLoop seqs i c = some (c', err)) :
    Moved layers c c' ∧ (∀ before, c.curSeqs = before ++ seqs → before.length = i → c.curSeqs.Nodup → Matched c →
      Matched c') := by
  fun_induction ensureWritableLoop seqs i c with
  | case1 i c =>
    cases he
    exact ⟨.refl _ _, fun _ _ _ _ hm => hm⟩
  | case2 seq rest i c hn ih =>
    obtain ⟨h1, h2⟩ := ih hs he
    refine ⟨h1, fun before hcur hlen hnd hm => h2 (before ++ [seq]) (by simp [hcur]) (by simp [hlen]) hnd hm⟩
  | case3 seq rest i c slot hseq hshared hd =>
    cases he
    exact ⟨.refl _ _, fun _ _ _ _ hm => hm⟩
  | case4 seq rest i c slot hseq hshared newSlot c₁ hd hlt ih =>
    have hs₁ := hs.detach hseq hshared.2 hd
    obtain ⟨h1, h2⟩ := ih ⟨hs₁.exact, hs₁.within⟩ he
    refine ⟨(moved_detach layers hs hseq hshared.2 hd _).trans h1, fun before hcur hlen hnd hm => ?_⟩
    have hcq : c₁.curSeqs = c.curSeqs := by rw [detach_frame hd]
    refine h2 (before ++ [seq]) (hcq.trans (by simp [hcur])) (by simp [hlen]) (by rw [show _ = _ from hcq]; exact hnd) ?_
    subst hlen
    exact matched_detach hd hm hcur hnd
  | case5 => cases he
  | case6 seq rest i c slot hseq hshared ih =>
    obtain ⟨h1, h2⟩ := ih hs he
    refine ⟨h1, fun before hcur hlen hnd hm => h2 (before ++ [seq]) (by simp [hcur]) (by simp [hlen]) hnd hm⟩

/-- What the first layer of a pass finds. -/
theorem ensureWritableOnce_moved {ids : Finset Int} (layers : List Buffer) {c c' : Recurrent α} (hs : Slots ids c)
    (hcard : ids.card ≤ c.maxSequences) (he : c.ensureWritableOnce = some c') :
    Moved layers c c' ∧ Slots ids c' ∧ c'.writableEnsured = true ∧
      (c.curSeqs.Nodup → Matched c → Matched c') ∧
      (c.writableEnsured = false → ∀ s ∈ c'.curSeqs, Own c' s) := by
  unfold ensureWritableOnce at he
  split at he
  · rename_i hflag
    cases he
    exact ⟨.refl _ _, hs, hflag, fun _ hm => hm, fun hf => absurd hflag (by simp [hf])⟩
  · split at he
    · obtain ⟨⟨c₁, err⟩, hw, rfl⟩ := Option.map_eq_some_iff.mp he
      obtain ⟨h1, h2, h3, h4⟩ := ensureWritableLoop_spec hs hw
      obtain ⟨g1, g2⟩ := ensureWritableLoop_moved layers hs hw
      obtain rfl := h3 hcard
      have hcq : c₁.curSeqs = c.curSeqs := h2.curSeqs
      refine ⟨⟨?_, fun ht => ?_, g1.rows⟩, ⟨h1.exact, h1.within⟩, rfl, fun hnd hm => g2 [] rfl rfl hnd hm, ?_⟩
      · dsimp only
        rw [g1.frame]
        rfl
      · have := g1.traced ht
        exact ⟨this.compat, this.live, this.free, this.shaped⟩
      · intro _ s hmem
        exact h4 rfl s (hcq ▸ hmem)
    · rename_i hneed
      cases he
      refine ⟨⟨rfl, fun ht => ⟨ht.compat, ht.live, ht.free, ht.shaped⟩, fun _ _ => rfl⟩, ⟨hs.exact, hs.within⟩, rfl,
        fun _ hm => hm, ?_⟩
      intro _ s hmem
      cases hk : c.slotForSeq.lookup s with
      | none =>
        intro k s' hk'
        have hk' : c.slotForSeq.lookup s = some k := hk'
        rw [hk] at hk'
        cases hk'
      | some slot =>
        have hfalse : ¬ c.needsWritable s = true := fun hn => hneed (List.any_eq_true.mpr ⟨s, hmem, hn⟩)
        simp only [needsWritable, hk, (hs.valid hk).2, Bool.true_and, decide_eq_true_eq] at hfalse
        exact hs.own_of_count hk (by omega)

/-! ## A pass -/

/-- A change of the notes of a pass only. -/
theorem Traced.congr {layers : List Buffer} {c c' : Recurrent α} (h : Traced layers c) (hkv : c'.kv = c.kv)
    (hslots : c'.slotForSeq = c.slotForSeq) (hrows : ∀ b slot, c'.row b slot = c.row b slot)
    (hstores : c'.checkpoints = c.checkpoints) (hcount : c'.checkpointCount = c.checkpointCount) :
    Traced layers c' := by
  have hseq : ∀ b s, c'.seqRow b s = c.seqRow b s := by
    intro b s
    rw [seqRow, seqRow, hslots]
    cases c.slotForSeq.lookup s with
    | none => rfl
    | some k => exact hrows b k
  have hent : ∀ slot idx, c'.entryAt slot idx = c.entryAt slot idx := fun slot idx => by rw [entryAt, entryAt, hstores]
  refine ⟨?_, ?_, ?_, ?_⟩
  · intro b hb s i p
    rw [hkv, hseq]
    exact h.compat b hb s i p
  · intro b hb slot idx e
    rw [hent, hrows]
    exact h.live b hb slot idx e
  · rw [hslots]
    intro slot hs idx e
    rw [hent]
    exact h.free slot hs idx e
  · intro slot store hs
    rw [hstores] at hs
    rw [hcount]
    exact h.shaped slot store hs

/-- Other stored inputs, as long as they are new or after the end of the states. -/
theorem Traced.withKv {layers : List Buffer} {c : Recurrent α} (h : Traced layers c) {kv : Causal α}
    (hkv : ∀ b ∈ layers, ∀ s i p, Stores kv.cells s i p → p < (c.seqRow b s).length →
      Stores c.kv.cells s i p ∧ kv.rows i = c.kv.rows i) : Traced layers { c with kv := kv } := by
  refine ⟨?_, h.live, h.free, h.shaped⟩
  intro b hb s i p hst hlt
  obtain ⟨h1, h2⟩ := hkv b hb s i p hst hlt
  exact h2.trans (h.compat b hb s i p h1 hlt)

theorem seated_traced {layers : List Buffer} {batch : List Token} {c c' : Recurrent α} (h : Traced layers c)
    (hs : Seated batch c c') : Traced layers c' := by
  refine ⟨?_, ?_, ?_, hs.shaped h.shaped⟩
  · intro b hb s i p
    rw [hs.kv, hs.rows]
    exact h.compat b hb s i p
  · intro b hb slot idx e he hpos
    have he' := hs.live slot idx e he hpos
    have hused : ∃ s, c.slotForSeq.lookup s = some slot := by
      by_contra hno
      have := h.free slot (fun s hl => hno ⟨s, hl⟩) idx e he'
      omega
    obtain ⟨s, hl⟩ := hused
    rw [hs.slotRows b slot s hl]
    exact h.live b hb slot idx e he' hpos
  · intro slot hfree idx e he
    by_contra hpos
    have he' := hs.live slot idx e he (by omega)
    exact hpos (h.free slot (hs.free slot hfree) idx e he')

/-- The last position of a batch that extends its sequence. -/
theorem posMax_eq {batch : List Token} {s n pos : Int}
    (hpos : positionsOf s batch = (List.range (positionsOf s batch).length).map fun k : Nat => n + k)
    (h : posMax batch s = some pos) : pos + 1 = n + (positionsOf s batch).length := by
  obtain ⟨hmem, hmax⟩ := List.max?_eq_some_iff.mp h
  have hmem : pos ∈ positionsOf s batch := hmem
  have hmax : ∀ p ∈ positionsOf s batch, p ≤ pos := hmax
  rw [hpos] at hmem
  obtain ⟨k, hk, rfl⟩ := List.mem_map.mp hmem
  rw [List.mem_range] at hk
  have hlast : n + ((positionsOf s batch).length - 1 : Nat) ∈ positionsOf s batch := by
    rw [hpos]
    refine List.mem_map.mpr ⟨(positionsOf s batch).length - 1, ?_, ?_⟩
    · rw [List.mem_range]
      omega
    · simp
  have := hmax _ hlast
  omega

theorem matched_zip {c : Recurrent α} (h : Matched c) {e : Int × Nat} (he : e ∈ c.curSeqs.zip c.curSlots) :
    c.slotForSeq.lookup e.1 = some e.2 := by
  obtain ⟨i, hi⟩ := List.getElem?_of_mem he
  obtain ⟨h1, h2⟩ := List.getElem?_zip_eq_some.mp hi
  have := congrArg (fun l : List (Option Nat) => l[i]?) h
  simp only [List.getElem?_map, h1, h2, Option.map_some, Option.some.injEq] at this
  exact this.symm

end Recurrent

end Xdragon.Kvcache
