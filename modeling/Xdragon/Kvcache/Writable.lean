import Xdragon.Kvcache.Edits
import Xdragon.Kvcache.Slots
import Xdragon.Lib.Assoc
import Xdragon.Lib.Run

/-!
# The slot allocator

Over any run with no more sequences than slots, the reference counts and the free list are exact,
a sequence always gets the slot it needs, and `EnsureWritable` writes to no slot of another one.
-/

open Xdragon.Lib

namespace Xdragon.Kvcache

variable {α : Type}

theorem Causal.shiftLoop_error {c : Causal α} {seq beginIndex : Int} {seqMax fuel start : Nat}
    {fails : Nat → Nat → Nat → Bool} {err : CacheError}
    (h : c.shiftLoop seq beginIndex seqMax fails fuel start = some err) : ∃ layer, err = .shiftFailed layer := by
  induction fuel generalizing start with
  | zero => cases h
  | succ fuel ih =>
    simp only [Causal.shiftLoop] at h
    split at h
    · cases h
    · split at h
      · exact ih h
      · split at h
        · cases h
          exact ⟨_, rfl⟩
        · exact ih h

theorem Causal.remove_error {c c' : Causal α} {seq beginIndex endIndex : Int} {fails : Nat → Nat → Nat → Bool}
    {err : CacheError} (h : c.remove seq beginIndex endIndex fails = (c', some err)) :
    err ≠ .kvCacheFull none := by
  unfold Causal.remove at h
  dsimp only at h
  split at h
  · cases h
    simp
  · split at h
    · cases h
    · split at h
      · obtain ⟨-, he⟩ := Prod.mk.inj h
        unfold Causal.shift at he
        split at he
        · obtain ⟨layer, rfl⟩ := Causal.shiftLoop_error he
          simp
        · cases he
          simp
      · cases h

namespace Recurrent

/-! ## Copy on write -/

theorem lookup_setRows (c : Recurrent α) (f : Buffer → (Nat → List α) → Nat → List α) (b : Buffer) :
    (c.setRows f).states.lookup b = (c.states.lookup b).map (f b) := by
  have h := lookup_foldl_insert f c.states.nodupKeys c.states b
  rw [show c.states.entries.dlookup b = c.states.lookup b from rfl] at h
  rw [setRows, h]
  cases c.states.lookup b <;> rfl

theorem row_setRows (c : Recurrent α) (f : Buffer → (Nat → List α) → Nat → List α) (b : Buffer) (slot : Nat) :
    (c.setRows f).row b slot = ((c.states.lookup b).map (f b)).getD (fun _ => []) slot := by
  rw [row, lookup_setRows]

/-- Copying a state changes no other slot. -/
theorem row_copyRecurrentState (c : Recurrent α) (srcSlot dstSlot : Nat) (b : Buffer) (slot : Nat) :
    (c.copyRecurrentState srcSlot dstSlot).row b slot = if slot = dstSlot then c.row b srcSlot else c.row b slot := by
  rw [copyRecurrentState, row_setRows, row, row]
  cases c.states.lookup b with
  | none => simp
  | some rows => simp [Function.update_apply]

theorem checkpointStore_frame (c : Recurrent α) (slot : Nat) :
    (c.checkpointStore slot).2 = { c with checkpoints := (c.checkpointStore slot).2.checkpoints } := by
  unfold checkpointStore
  split <;> rfl

theorem checkpointStore_lookup (c : Recurrent α) (slot : Nat) :
    (c.checkpointStore slot).2.checkpoints.lookup slot = some (c.checkpointStore slot).1 := by
  unfold checkpointStore
  split
  · assumption
  · exact AList.lookup_insert _

theorem checkpointStore_lookup_ne (c : Recurrent α) {slot k : Nat} (h : k ≠ slot) :
    (c.checkpointStore slot).2.checkpoints.lookup k = c.checkpoints.lookup k := by
  unfold checkpointStore
  split
  · rfl
  · exact AList.lookup_insert_ne h

theorem copyCheckpoints_states (c : Recurrent α) (srcSlot dstSlot : Nat) :
    (c.copyCheckpoints srcSlot dstSlot).states = c.states := by
  unfold copyCheckpoints
  split
  · rfl
  · split
    · rfl
    · split
      · rfl
      · show (c.checkpointStore dstSlot).2.states = c.states
        rw [checkpointStore_frame]

theorem copyCheckpoints_lookup_ne (c : Recurrent α) {srcSlot dstSlot slot : Nat} (h : slot ≠ dstSlot) :
    (c.copyCheckpoints srcSlot dstSlot).checkpoints.lookup slot = c.checkpoints.lookup slot := by
  unfold copyCheckpoints
  split
  · rfl
  · split
    · rfl
    · split
      · rfl
      · exact (AList.lookup_insert_ne h).trans (checkpointStore_lookup_ne c h)

/-- A slot with all that it holds. -/
structure SameSlot (c c' : Recurrent α) (slot : Nat) : Prop where
  rows : ∀ b, c'.row b slot = c.row b slot
  store : c'.checkpoints.lookup slot = c.checkpoints.lookup slot

/-- `detach` writes to the new slot only. -/
theorem detach_sameSlot {c c' : Recurrent α} {seq : Int} {slot newSlot : Nat}
    (h : c.detach seq slot = some (newSlot, c')) {k : Nat} (hk : k ≠ newSlot) : SameSlot c c' k := by
  obtain ⟨⟨n, c₁⟩, ha, he⟩ := Option.map_eq_some_iff.mp h
  obtain ⟨rfl, rfl⟩ := Prod.mk.inj he
  have hf := allocSlot_frame ha
  constructor
  · intro b
    have h1 : ((c₁.copyRecurrentState slot n).copyCheckpoints slot n).row b k =
        (c₁.copyRecurrentState slot n).row b k := by
      rw [row, row, copyCheckpoints_states]
    refine h1.trans ?_
    rw [row_copyRecurrentState, if_neg hk, hf]
    rfl
  · refine (copyCheckpoints_lookup_ne _ hk).trans ?_
    show c₁.checkpoints.lookup k = _
    rw [hf]

/-- No other sequence uses the slot of `seq`. -/
def Own (c : Recurrent α) (seq : Int) : Prop :=
  ∀ slot s, c.slotForSeq.lookup seq = some slot → c.slotForSeq.lookup s = some slot → s = seq

theorem Slots.own_of_count {ids : Finset Int} {c : Recurrent α} (h : Slots ids c) {seq : Int} {slot : Nat}
    (hs : c.slotForSeq.lookup seq = some slot) (hc : c.refCount.getD slot 0 ≤ 1) : Own c seq := by
  intro slot' s hs' hss
  rw [hs, Option.some.injEq] at hs'
  subst hs'
  have hcount : c.refCount.getD slot 0 = _ := h.exact.getD_count (h.valid hs).1
  have herase := Pool.users_erase_some hs slot
  rw [if_pos rfl] at herase
  have hz : Pool.users (c.slotForSeq.erase seq) slot = 0 := by
    have : (Pool.users c.slotForSeq slot : Int) ≤ 1 := hcount ▸ hc
    omega
  by_contra hne
  refine Pool.users_eq_zero.mp hz s ?_
  rw [AList.lookup_erase_ne hne]
  exact hss

/-- The slot that `detach` takes had no user. -/
theorem Slots.detach_fresh {ids : Finset Int} {c c' : Recurrent α} {seq : Int} {slot newSlot : Nat}
    (h : Slots ids c) (hd : c.detach seq slot = some (newSlot, c')) (s : Int) :
    c.slotForSeq.lookup s ≠ some newSlot := by
  obtain ⟨c₁, ha, -⟩ := detach_spec hd
  exact Pool.users_eq_zero.mp (Pool.take_spec h.exact (allocSlot_pool ha)).2.1 s

/-- What `EnsureWritable` leaves, with the sequences that it may have moved. -/
structure Writable (seqs : List Int) (c c' : Recurrent α) : Prop where
  maxSequences : c'.maxSequences = c.maxSequences
  kv : c'.kv = c.kv
  curSeqs : c'.curSeqs = c.curSeqs
  outside : ∀ s, s ∉ seqs → c'.slotForSeq.lookup s = c.slotForSeq.lookup s
  had : ∀ s, (c'.slotForSeq.lookup s).isSome = (c.slotForSeq.lookup s).isSome
  own : ∀ s, Own c s → Own c' s ∧ c'.slotForSeq.lookup s = c.slotForSeq.lookup s
  used : ∀ s slot, c.slotForSeq.lookup s = some slot →
    SameSlot c c' slot ∧ ∃ s', c'.slotForSeq.lookup s' = some slot

theorem Writable.refl (seqs : List Int) (c : Recurrent α) : Writable seqs c c :=
  ⟨rfl, rfl, rfl, fun _ _ => rfl, fun _ => rfl, fun _ h => ⟨h, rfl⟩,
    fun s _ h => ⟨⟨fun _ => rfl, rfl⟩, s, h⟩⟩

theorem Writable.trans {seqs : List Int} {c c' c'' : Recurrent α} (h : Writable seqs c c')
    (h' : Writable seqs c' c'') : Writable seqs c c'' := by
  refine ⟨h'.maxSequences.trans h.maxSequences, h'.kv.trans h.kv, h'.curSeqs.trans h.curSeqs,
    fun s hs => (h'.outside s hs).trans (h.outside s hs), fun s => (h'.had s).trans (h.had s), ?_, ?_⟩
  · intro s hs
    obtain ⟨h1, h2⟩ := h.own s hs
    obtain ⟨h3, h4⟩ := h'.own s h1
    exact ⟨h3, h4.trans h2⟩
  · intro s slot hs
    obtain ⟨h1, s', hs'⟩ := h.used s slot hs
    obtain ⟨h2, hs''⟩ := h'.used s' slot hs'
    exact ⟨⟨fun b => (h2.rows b).trans (h1.rows b), h2.store.trans h1.store⟩, hs''⟩

theorem Writable.mono {seqs seqs' : List Int} {c c' : Recurrent α} (hsub : ∀ s ∈ seqs, s ∈ seqs')
    (h : Writable seqs c c') : Writable seqs' c c' :=
  { h with outside := fun s hs => h.outside s fun hm => hs (hsub s hm) }

/-- One sequence moves to a copy of its shared slot. -/
theorem Slots.detach_writable {ids : Finset Int} {c c' : Recurrent α} {seq : Int} {slot newSlot : Nat}
    (h : Slots ids c) (hs : c.slotForSeq.lookup seq = some slot) (hshared : 1 < c.refCount.getD slot 0)
    (hd : c.detach seq slot = some (newSlot, c')) : Writable [seq] c c' ∧ Own c' seq := by
  obtain ⟨c₁, ha, hp, hmax, hkv, hseqs, hslots⟩ := detach_spec hd
  have hfresh := h.detach_fresh hd
  have hother : ∀ s, s ≠ seq → c'.slotForSeq.lookup s = c.slotForSeq.lookup s := by
    intro s hne
    rw [hslots, AList.lookup_insert_ne hne]
  have hself : c'.slotForSeq.lookup seq = some newSlot := by rw [hslots, AList.lookup_insert]
  -- The old slot keeps a user.
  have huser : ∃ s, s ≠ seq ∧ c.slotForSeq.lookup s = some slot := by
    have hcount : c.refCount.getD slot 0 = _ := h.exact.getD_count (h.valid hs).1
    have herase := Pool.users_erase_some hs slot
    rw [if_pos rfl] at herase
    by_contra hno
    have hz : Pool.users (c.slotForSeq.erase seq) slot = 0 := by
      rw [Pool.users_eq_zero]
      intro s hl
      by_cases he : s = seq
      · rw [he, AList.lookup_erase] at hl
        cases hl
      · rw [AList.lookup_erase_ne he] at hl
        exact hno ⟨s, he, hl⟩
    have : (1 : Int) < Pool.users c.slotForSeq slot := hcount ▸ hshared
    omega
  refine ⟨⟨hmax, hkv, hseqs, fun s hne => hother s (by simpa using hne), ?_, ?_, ?_⟩, ?_⟩
  · intro s
    by_cases he : s = seq
    · rw [he, hself, hs]
      rfl
    · rw [hother s he]
  · intro s hown
    have hne : s ≠ seq := by
      rintro rfl
      obtain ⟨s', hne, hs'⟩ := huser
      exact hne (hown slot s' hs hs')
    refine ⟨?_, hother s hne⟩
    intro k s' hk hk'
    rw [hother s hne] at hk
    by_cases he : s' = seq
    · rw [he, hself, Option.some.injEq] at hk'
      subst hk'
      exact absurd hk (hfresh s)
    · rw [hother s' he] at hk'
      exact hown k s' hk hk'
  · intro s k hk
    refine ⟨detach_sameSlot hd fun he => hfresh s (he ▸ hk), ?_⟩
    by_cases he : s = seq
    · obtain ⟨s', hne, hs'⟩ := huser
      refine ⟨s', ?_⟩
      rw [hother s' hne, hs', ← hs, ← he]
      exact hk
    · exact ⟨s, (hother s he).trans hk⟩
  · intro k s' hk hk'
    rw [hself, Option.some.injEq] at hk
    subst hk
    by_contra hne
    rw [hother s' hne] at hk'
    exact hfresh s' hk'

theorem ensureWritableLoop_spec {ids : Finset Int} {seqs : List Int} {i : Nat} {c c' : Recurrent α}
    {err : Option CacheError} (h : Slots ids c) (he : ensureWritableLoop seqs i c = some (c', err)) :
    Slots ids c' ∧ Writable seqs c c' ∧ (ids.card ≤ c.maxSequences → err = none) ∧
      (err = none → ∀ s ∈ seqs, Own c' s) := by
  fun_induction ensureWritableLoop seqs i c with
  | case1 i c =>
    cases he
    exact ⟨h, .refl _ _, fun _ => rfl, fun _ s hs => absurd hs List.not_mem_nil⟩
  | case2 seq rest i c hs ih =>
    obtain ⟨h1, h2, h3, h4⟩ := ih h he
    refine ⟨h1, h2.mono fun s => List.mem_cons_of_mem _, h3, fun herr s hmem => ?_⟩
    rcases List.mem_cons.mp hmem with rfl | hmem
    · exact (h2.own s fun k s' hk => by rw [hs] at hk; cases hk).1
    · exact h4 herr s hmem
  | case3 seq rest i c slot hs hshared hd =>
    cases he
    refine ⟨h, .refl _ _, fun hcard => ?_, fun herr => by cases herr⟩
    exact absurd hd (h.detach_room hcard hs hshared.2)
  | case4 seq rest i c slot hs hshared newSlot c₁ hd hlt ih =>
    obtain ⟨hw, hown⟩ := h.detach_writable hs hshared.2 hd
    have hs₁ := h.detach hs hshared.2 hd
    obtain ⟨h1, h2, h3, h4⟩ := ih ⟨hs₁.exact, hs₁.within⟩ he
    have hw' : Writable [seq] c { c₁ with curSlots := c₁.curSlots.set i newSlot } :=
      ⟨hw.maxSequences, hw.kv, hw.curSeqs, hw.outside, hw.had, hw.own,
        fun s k hk => ⟨⟨(hw.used s k hk).1.rows, (hw.used s k hk).1.store⟩, (hw.used s k hk).2⟩⟩
    refine ⟨h1, (hw'.mono (by simp)).trans (h2.mono fun s => List.mem_cons_of_mem _), ?_, ?_⟩
    · intro hcard
      exact h3 (hw.maxSequences ▸ hcard)
    · intro herr s hmem
      rcases List.mem_cons.mp hmem with rfl | hmem
      · exact (h2.own s hown).1
      · exact h4 herr s hmem
  | case5 => cases he
  | case6 seq rest i c slot hs hshared ih =>
    obtain ⟨h1, h2, h3, h4⟩ := ih h he
    refine ⟨h1, h2.mono fun s => List.mem_cons_of_mem _, h3, fun herr s hmem => ?_⟩
    rcases List.mem_cons.mp hmem with rfl | hmem
    · refine (h2.own s (h.own_of_count hs ?_)).1
      have := (h.valid hs).2
      by_contra hlt
      exact hshared ⟨this, by omega⟩
    · exact h4 herr s hmem

/-! ## Copies and removals -/

theorem kept_prepareRestore (c : Recurrent α) (seq targetPos : Int) :
    Kept c (c.prepareRestore seq targetPos).1 := by
  unfold prepareRestore
  split
  · exact .refl c
  · split
    · exact .refl c
    · split
      · exact .refl c
      · split
        · exact .refl c
        · exact ⟨rfl, rfl, rfl, rfl⟩

theorem leaveSlot_spec {ids : Finset Int} {c : Recurrent α} (h : Slots ids c) (seq : Int) :
    Slots ids (c.leaveSlot seq) ∧ (c.leaveSlot seq).maxSequences = c.maxSequences ∧
      (c.leaveSlot seq).kv = c.kv ∧ (c.leaveSlot seq).slotForSeq = c.slotForSeq.erase seq := by
  unfold leaveSlot
  cases hs : c.slotForSeq.lookup seq with
  | none =>
    refine ⟨h, rfl, rfl, ?_⟩
    have hn : seq ∉ c.slotForSeq.entries.keys := AList.lookup_eq_none.mp hs
    exact AList.ext (List.kerase_of_notMem_keys hn).symm
  | some slot =>
    obtain ⟨hlt, hv⟩ := h.valid hs
    have hf := releaseSlot_frame c slot false
    have hmax : (c.releaseSlot slot false).maxSequences = c.maxSequences := by rw [hf]
    simp only [hv, if_true]
    refine ⟨h.leave hs ?_ hmax, hmax, by rw [hf], by rw [hf]⟩
    rw [← releaseSlot_pool hlt false]
    rfl

theorem copyPrefix_slots {ids : Finset Int} {c : Recurrent α} (h : Slots ids c) {srcSeq dstSeq : Int}
    (hdst : dstSeq ∈ ids) (prefixLen : Int) : Slots ids (c.copyPrefix srcSeq dstSeq prefixLen) := by
  have hl := leaveSlot_spec (c := { c with kv := c.kv.copyPrefix srcSeq dstSeq prefixLen })
    ⟨h.exact, h.within⟩ dstSeq
  unfold copyPrefix
  dsimp only
  generalize { c with kv := c.kv.copyPrefix srcSeq dstSeq prefixLen }.leaveSlot dstSeq = c₁ at hl
  obtain ⟨h₁, -, -, hslots⟩ := hl
  cases hs : c₁.slotForSeq.lookup srcSeq with
  | none => exact h₁
  | some slot =>
    simp only [(h₁.valid hs).2, if_true]
    have hnone : c₁.slotForSeq.lookup dstSeq = none := by rw [hslots, AList.lookup_erase]
    refine ⟨h₁.exact.share hs hnone, ?_⟩
    intro s k hk
    have hk : (c₁.slotForSeq.insert dstSeq slot).lookup s = some k := hk
    by_cases he : s = dstSeq
    · exact he ▸ hdst
    · rw [AList.lookup_insert_ne he] at hk
      exact h₁.within s k hk

theorem copyPrefix_max {ids : Finset Int} {c : Recurrent α} (h : Slots ids c) (srcSeq dstSeq prefixLen : Int) :
    (c.copyPrefix srcSeq dstSeq prefixLen).maxSequences = c.maxSequences := by
  have hl := leaveSlot_spec (c := { c with kv := c.kv.copyPrefix srcSeq dstSeq prefixLen })
    ⟨h.exact, h.within⟩ dstSeq
  unfold copyPrefix
  dsimp only
  split
  · exact hl.2.1
  · split <;> exact hl.2.1

theorem removeMiddle_slots {ids : Finset Int} {c : Recurrent α} (h : Slots ids c) (seq beginIndex endIndex : Int)
    (fails : Nat → Nat → Nat → Bool) : Slots ids (c.removeMiddle seq beginIndex endIndex fails).1 := by
  unfold removeMiddle
  split
  · exact ⟨h.exact, h.within⟩
  · rename_i kv _
    dsimp only
    split
    · exact ⟨h.exact, h.within⟩
    · rename_i slot hs
      split
      · exact ⟨h.exact, h.within⟩
      · split
        · rename_i hshared
          split
          · exact ⟨h.exact, h.within⟩
          · rename_i newSlot c₁ hd
            have h' : Slots ids { c with kv := kv, pendingRestore := c.pendingRestore.erase seq } :=
              ⟨h.exact, h.within⟩
            exact (h'.detach hs hshared hd).kept (kept_onStore _ _ _)
        · refine Slots.kept ?_ (kept_onStore _ _ _)
          exact ⟨h.exact, h.within⟩

theorem detachToRestore_slots {ids : Finset Int} {c c' : Recurrent α} (h : Slots ids c) {seq : Int}
    {restore : CheckpointRestore} (hd : c.detachToRestore seq restore = some c') : Slots ids c' := by
  unfold detachToRestore at hd
  split at hd
  · cases hd
    exact h
  · rename_i slot hs
    split at hd
    · rename_i hshared
      obtain ⟨⟨newSlot, c₁⟩, hd', rfl⟩ := Option.map_eq_some_iff.mp hd
      have := h.detach hs hshared.2 hd'
      exact ⟨this.exact, this.within⟩
    · cases hd
      exact h

theorem removeTail_slots {ids : Finset Int} {c : Recurrent α} (h : Slots ids c) (seq beginIndex endIndex : Int)
    (fails : Nat → Nat → Nat → Bool) : Slots ids (c.removeTail seq beginIndex endIndex fails).1 := by
  unfold removeTail
  split
  · exact h
  · split
    · exact h
    · split
      · exact h
      · rename_i c₁ hd
        have h₁ := detachToRestore_slots h hd
        split
        · exact ⟨h₁.exact, h₁.within⟩
        · refine Slots.kept ?_ (kept_applyCheckpointRestore _ _)
          exact ⟨h₁.exact, h₁.within⟩

theorem removeAll_slots {ids : Finset Int} {c : Recurrent α} (h : Slots ids c) (seq beginIndex endIndex : Int)
    (fails : Nat → Nat → Nat → Bool) : Slots ids (c.removeAll seq beginIndex endIndex fails).1 := by
  unfold removeAll
  split
  · exact ⟨h.exact, h.within⟩
  · rename_i kv _
    dsimp only
    cases hs : c.slotForSeq.lookup seq with
    | none => exact ⟨h.exact, h.within⟩
    | some slot =>
      obtain ⟨hlt, hv⟩ := h.valid hs
      have hv' : { c with kv := kv, pendingRestore := c.pendingRestore.erase seq }.validSlot slot = true := hv
      simp only [hv', not_true_eq_false, if_false]
      have hp := releaseSlot_pool (c := { c with kv := kv, pendingRestore := c.pendingRestore.erase seq }) hlt true
      have hf := releaseSlot_frame { c with kv := kv, pendingRestore := c.pendingRestore.erase seq } slot true
      generalize { c with kv := kv, pendingRestore := c.pendingRestore.erase seq }.releaseSlot slot true = c₁ at hp hf
      refine h.leave hs ?_ (by rw [hf])
      show Pool.leave c₁.pool seq = _
      rw [hp]
      rfl

theorem remove_slots {ids : Finset Int} {c : Recurrent α} (h : Slots ids c) (seq beginIndex endIndex : Int)
    (fails : Nat → Nat → Nat → Bool) : Slots ids (c.remove seq beginIndex endIndex fails).1 := by
  unfold remove
  split
  · exact removeMiddle_slots h ..
  · split
    · exact removeTail_slots h ..
    · exact removeAll_slots h ..

theorem removeMiddle_room {ids : Finset Int} {c : Recurrent α} (h : Slots ids c)
    (hcard : ids.card ≤ c.maxSequences) (seq beginIndex endIndex : Int) (fails : Nat → Nat → Nat → Bool) :
    (c.removeMiddle seq beginIndex endIndex fails).2 ≠ some (.kvCacheFull none) := by
  unfold removeMiddle
  split
  · rename_i heq
    simpa using Causal.remove_error heq
  · rename_i kv _
    dsimp only
    split
    · simp
    · rename_i slot hs
      split
      · simp
      · split
        · rename_i hshared
          have h' : Slots ids { c with kv := kv, pendingRestore := c.pendingRestore.erase seq } :=
            ⟨h.exact, h.within⟩
          have hd' := h'.detach_room hcard hs hshared
          split
          · rename_i hd
            exact absurd hd hd'
          · simp
        · simp

theorem detachToRestore_room {ids : Finset Int} {c : Recurrent α} (h : Slots ids c)
    (hcard : ids.card ≤ c.maxSequences) (seq : Int) (restore : CheckpointRestore) :
    c.detachToRestore seq restore ≠ none := by
  unfold detachToRestore
  split
  · simp
  · rename_i slot hs
    split
    · rename_i hshared
      rw [ne_eq, Option.map_eq_none_iff]
      exact h.detach_room hcard hs hshared.2
    · simp

theorem removeTail_room {ids : Finset Int} {c : Recurrent α} (h : Slots ids c)
    (hcard : ids.card ≤ c.maxSequences) (seq beginIndex endIndex : Int) (fails : Nat → Nat → Nat → Bool) :
    (c.removeTail seq beginIndex endIndex fails).2 ≠ some (.kvCacheFull none) := by
  unfold removeTail
  split
  · simp
  · split
    · simp
    · split
      · rename_i hd
        exact absurd hd (detachToRestore_room h hcard seq _)
      · split
        · rename_i heq
          simpa using Causal.remove_error heq
        · simp only [applyCheckpointRestore]
          split <;> simp

theorem removeAll_room (c : Recurrent α) (seq beginIndex endIndex : Int) (fails : Nat → Nat → Nat → Bool) :
    (c.removeAll seq beginIndex endIndex fails).2 ≠ some (.kvCacheFull none) := by
  unfold removeAll
  split
  · rename_i heq
    simpa using Causal.remove_error heq
  · dsimp only
    split
    · simp
    · split <;> simp

/-- `Remove` never runs out of slots. -/
theorem remove_room {ids : Finset Int} {c : Recurrent α} (h : Slots ids c) (hcard : ids.card ≤ c.maxSequences)
    (seq beginIndex endIndex : Int) (fails : Nat → Nat → Nat → Bool) :
    (c.remove seq beginIndex endIndex fails).2 ≠ some (.kvCacheFull none) := by
  unfold remove
  split
  · exact removeMiddle_room h hcard seq beginIndex endIndex fails
  · split
    · exact removeTail_room h hcard seq beginIndex endIndex fails
    · exact removeAll_room c seq beginIndex endIndex fails

theorem detach_max {c c' : Recurrent α} {seq : Int} {slot newSlot : Nat}
    (h : c.detach seq slot = some (newSlot, c')) : c'.maxSequences = c.maxSequences := by
  obtain ⟨_, -, -, hmax, -⟩ := detach_spec h
  exact hmax

theorem detachToRestore_max {c c' : Recurrent α} {seq : Int} {restore : CheckpointRestore}
    (h : c.detachToRestore seq restore = some c') : c'.maxSequences = c.maxSequences := by
  unfold detachToRestore at h
  split at h
  · cases h
    rfl
  · split at h
    · obtain ⟨⟨newSlot, c₁⟩, hd, rfl⟩ := Option.map_eq_some_iff.mp h
      have hmax := detach_max hd
      exact hmax
    · cases h
      rfl

theorem remove_max (c : Recurrent α) (seq beginIndex endIndex : Int) (fails : Nat → Nat → Nat → Bool) :
    (c.remove seq beginIndex endIndex fails).1.maxSequences = c.maxSequences := by
  unfold remove
  split
  · unfold removeMiddle
    split
    · rfl
    · dsimp only
      split
      · rfl
      · split
        · rfl
        · split
          · split
            · rfl
            · rename_i hd
              have hmax := detach_max hd
              exact (kept_onStore _ _ _).maxSequences.trans hmax
          · exact (kept_onStore _ _ _).maxSequences
  · split
    · unfold removeTail
      split
      · rfl
      · split
        · rfl
        · split
          · rfl
          · rename_i c₁ hd
            have h₁ := detachToRestore_max hd
            split
            · exact h₁
            · exact (kept_applyCheckpointRestore _ _).maxSequences.trans h₁
    · unfold removeAll
      split
      · rfl
      · dsimp only
        split
        · rfl
        · split
          · rfl
          · dsimp only
            rw [releaseSlot_frame]

/-! ## Runs -/

inductive Op (α : Type) where
  | startForward (batch : List Token) (reserve : Bool)
  | ensureWritable
  | updateState (b : Buffer) (src : List (List α))
  | copyPrefix (srcSeq dstSeq prefixLen : Int)
  | prepareRestore (seq targetPos : Int)
  | remove (seq beginIndex endIndex : Int) (fails : Nat → Nat → Nat → Bool)

/-- One call, with its error. -/
def apply (c : Recurrent α) : Op α → Option (Recurrent α × Option CacheError)
  | .startForward batch reserve => some (c.startForward batch reserve)
  | .ensureWritable => c.ensureWritable
  | .updateState b src => (c.updateState b src).map fun c => (c, none)
  | .copyPrefix srcSeq dstSeq prefixLen => some (c.copyPrefix srcSeq dstSeq prefixLen, none)
  | .prepareRestore seq targetPos => some ((c.prepareRestore seq targetPos).1, none)
  | .remove seq beginIndex endIndex fails => some (c.remove seq beginIndex endIndex fails)

/-- A call that fails leaves a state as well. -/
def step (c : Recurrent α) (op : Op α) : Option (Recurrent α) := (c.apply op).map (·.1)

/-- The calls only name sequences of `ids`. -/
def Uses (ids : Finset Int) : Op α → Prop
  | .startForward batch _ => ∀ t ∈ batch, t.seq ∈ ids
  | .ensureWritable => True
  | .updateState _ _ => True
  | .copyPrefix srcSeq dstSeq _ => srcSeq ≠ dstSeq ∧ srcSeq ∈ ids ∧ dstSeq ∈ ids
  | .prepareRestore seq _ => seq ∈ ids
  | .remove seq _ _ _ => seq ∈ ids

instance (ids : Finset Int) (op : Op α) : Decidable (Uses ids op) := by
  cases op <;> unfold Uses <;> infer_instance

/-- A cache after `Init`, with any checkpoint settings and padding. -/
def Initial (c : Recurrent α) : Prop :=
  ∃ (shift : Bool) (padding count : Nat) (minPos interval : Int) (maxSequences capacity maxBatch : Nat),
    init { newRecurrentCache shift with
      kv := { Causal.newCausalCache shift with cachePadding := padding }
      checkpointCount := count, checkpointMinPos := minPos, checkpointInterval := interval }
      maxSequences capacity maxBatch = some c

theorem slots_initial {c : Recurrent α} (h : Initial c) (ids : Finset Int) : Slots ids c := by
  obtain ⟨_, _, _, _, _, n, _, _, h⟩ := h
  obtain ⟨kv, -, rfl⟩ := Option.map_eq_some_iff.mp h
  have hz : ∀ k, Pool.users (∅ : AList fun _ : Int => Nat) k = 0 := fun k => rfl
  refine ⟨⟨List.length_replicate, ?_, ?_, ?_, ?_⟩, ?_⟩
  · intro i k hk
    cases hk
  · intro k hk
    exact (List.getElem?_replicate_of_lt hk).trans (by rw [show Pool.users _ k = 0 from rfl]; rfl)
  · exact List.nodup_reverse.mpr List.nodup_range
  · intro k
    show k ∈ (List.range n).reverse ↔ k < n ∧ Pool.users (∅ : AList fun _ : Int => Nat) k = 0
    simp [hz]
  · intro i k hk
    cases hk

theorem slots_step {ids : Finset Int} {c c' : Recurrent α} {op : Op α} {err : Option CacheError}
    (h : Slots ids c) (hu : Uses ids op) (hs : c.apply op = some (c', err)) :
    Slots ids c' ∧ c'.maxSequences = c.maxSequences ∧
      (ids.card ≤ c.maxSequences → err ≠ some (.kvCacheFull none)) := by
  cases op with
  | startForward batch reserve =>
    have hs : c.startForward batch reserve = (c', err) := Option.some.inj hs
    have h1 := startForward_slots h hu reserve
    have h2 := startForward_max c batch reserve
    have h3 := fun hcard => startForward_room h hcard hu reserve
    rw [hs] at h1 h2 h3
    exact ⟨h1, h2, h3⟩
  | ensureWritable =>
    obtain ⟨h1, h2, h3, -⟩ := ensureWritableLoop_spec h hs
    exact ⟨h1, h2.maxSequences, fun hcard => by rw [h3 hcard]; simp⟩
  | updateState b src =>
    obtain ⟨c₁, hc, he⟩ := Option.map_eq_some_iff.mp hs
    obtain ⟨rfl, rfl⟩ := Prod.mk.inj he
    have hk := kept_updateState hc
    exact ⟨h.kept hk, hk.maxSequences, fun _ => by simp⟩
  | copyPrefix srcSeq dstSeq prefixLen =>
    obtain ⟨rfl, rfl⟩ := Prod.mk.inj (Option.some.inj hs)
    exact ⟨copyPrefix_slots h hu.2.2 prefixLen, copyPrefix_max h .., fun _ => by simp⟩
  | prepareRestore seq targetPos =>
    obtain ⟨rfl, rfl⟩ := Prod.mk.inj (Option.some.inj hs)
    have hk := kept_prepareRestore c seq targetPos
    exact ⟨h.kept hk, hk.maxSequences, fun _ => by simp⟩
  | remove seq beginIndex endIndex fails =>
    have hs : c.remove seq beginIndex endIndex fails = (c', err) := Option.some.inj hs
    have h1 := remove_slots h seq beginIndex endIndex fails
    have h2 := remove_max c seq beginIndex endIndex fails
    have h3 := fun hcard => remove_room h hcard seq beginIndex endIndex fails
    rw [hs] at h1 h2 h3
    exact ⟨h1, h2, h3⟩

/-- The slot allocator is right: the counts, the free list, and what `EnsureWritable` promises. -/
structure Allocated (c : Recurrent α) : Prop where
  counts : ∀ slot < c.maxSequences, c.refCount[slot]? = some (Pool.users c.slotForSeq slot : Int)
  nodup : c.freeSlots.Nodup
  free : ∀ slot, slot ∈ c.freeSlots ↔ slot < c.maxSequences ∧ Pool.users c.slotForSeq slot = 0
  writable : ∀ c' err, c.ensureWritable = some (c', err) →
    (∀ seq ∈ c.curSeqs, Own c' seq) ∧
    ∀ seq, seq ∉ c.curSeqs → ∀ slot, c'.slotForSeq.lookup seq = some slot → SameSlot c c' slot

theorem Slots.allocated {ids : Finset Int} {c : Recurrent α} (h : Slots ids c)
    (hcard : ids.card ≤ c.maxSequences) : Allocated c := by
  refine ⟨h.exact.counts, h.exact.nodup, h.exact.free, ?_⟩
  intro c' err he
  obtain ⟨-, hw, herr, hown⟩ := ensureWritableLoop_spec h he
  refine ⟨hown (herr hcard), ?_⟩
  intro seq hseq slot hs
  rw [hw.outside seq hseq] at hs
  exact (hw.used seq slot hs).1

/-- Over any run that uses no more sequences than slots, the allocator is right and never full. -/
theorem slots_allocated {ids : Finset Int} {c : Recurrent α}
    (h : Reaches step (fun _ => Uses ids) (fun c => Initial c ∧ ids.card ≤ c.maxSequences) c) :
    Allocated c ∧ ∀ op c' err, Uses ids op → c.apply op = some (c', err) → err ≠ some (.kvCacheFull none) := by
  have hinv : Slots ids c ∧ ids.card ≤ c.maxSequences := by
    refine h.invariant (I := fun c => Slots ids c ∧ ids.card ≤ c.maxSequences)
      (fun c hc => ⟨slots_initial hc.1 ids, hc.2⟩) ?_
    rintro c op c' ⟨hc, hcard⟩ hu hs
    obtain ⟨⟨c₁, err⟩, ha, rfl⟩ := Option.map_eq_some_iff.mp hs
    obtain ⟨h1, h2, -⟩ := slots_step hc hu ha
    exact ⟨h1, by rw [h2]; exact hcard⟩
  exact ⟨hinv.1.allocated hinv.2, fun op c' err hu ha => (slots_step hinv.1 hu ha).2.2 hinv.2⟩

/-- Three sequences on three slots: a shared slot is copied, shared again and given up. -/
def forkRun : List (Op Nat) :=
  [.startForward [⟨0, 0⟩, ⟨0, 1⟩] false, .updateState ⟨0, .conv⟩ [[7, 8]], .copyPrefix 0 1 2, .copyPrefix 0 2 1,
    .startForward [⟨1, 2⟩, ⟨2, 1⟩] false, .ensureWritable, .copyPrefix 1 0 3,
    .remove 2 0 maxInt32 fun _ _ _ => false]

theorem forkRun_allocated : ∃ c : Recurrent Nat, Reaches step (fun _ => Uses {0, 1, 2})
      (fun c => Initial c ∧ ({0, 1, 2} : Finset Int).card ≤ c.maxSequences) c ∧ c.freeSlots = [0, 2] ∧
    Allocated c := by
  let c₀ := ((newRecurrentCache true : Recurrent Nat).init 3 8 4).get (by decide)
  let c := (exec step c₀ forkRun).get (by decide)
  have hinit : Initial c₀ ∧ ({0, 1, 2} : Finset Int).card ≤ c₀.maxSequences :=
    ⟨⟨true, 0, 32, 16, 1280, 3, 8, 4, (Option.some_get _).symm⟩, by decide⟩
  have hc : Reaches step (fun _ => Uses {0, 1, 2})
      (fun c => Initial c ∧ ({0, 1, 2} : Finset Int).card ≤ c.maxSequences) c :=
    reaches_of_exec (Reaches.init hinit) (by decide) (Option.some_get _).symm
  exact ⟨c, hc, by decide, (slots_allocated hc).1⟩

end Recurrent

end Xdragon.Kvcache
