import Xdragon.Kvcache.Restore

/-!
# Where a restored state comes from

A restored state was computed from the inputs that the attention half stores, as long as no slot is given
up with checkpoints in it, states and stored inputs are of one length when a batch goes on, and a restore is
not out of date.
-/

open Xdragon.Lib

namespace Xdragon.Kvcache

variable {α : Type}

namespace Recurrent

/-! ## Giving up a slot -/

/-- The store of the slot has no checkpoint. -/
def Cleared (c : Recurrent α) (slot : Nat) : Bool :=
  (c.checkpoints.lookup slot).all fun store => store.entries.all fun e => e.pos < 0

theorem Cleared.entry {c : Recurrent α} {slot idx : Nat} {e : CheckpointEntry α} (h : Cleared c slot = true)
    (he : c.entryAt slot idx = some e) : e.pos < 0 := by
  obtain ⟨store, hs, he⟩ := Option.bind_eq_some_iff.mp he
  rw [Cleared, hs, Option.all_some, List.all_eq_true] at h
  simpa using h e (List.mem_of_getElem? he)

section
variable {ids : Finset Int} {layers : List Buffer} {c c' : Recurrent α}

/-- The count of a slot with a single user. -/
theorem Slots.count_one (h : Slots ids c) {seq : Int} {slot : Nat} (hs : c.slotForSeq.lookup seq = some slot)
    (hno : ∀ s, s ≠ seq → c.slotForSeq.lookup s ≠ some slot) : c.refCount.getD slot 0 = 1 := by
  have hcount : c.refCount.getD slot 0 = _ := h.exact.getD_count (h.valid hs).1
  have herase := Pool.users_erase_some hs slot
  have hzero : Pool.users (c.slotForSeq.erase seq) slot = 0 := by
    refine Pool.users_eq_zero.mpr fun s => ?_
    by_cases he : s = seq
    · rw [he, AList.lookup_erase]
      simp
    · rw [AList.lookup_erase_ne he]
      exact hno s he
  rw [hzero, if_pos rfl] at herase
  rw [hcount]
  show (Pool.users c.slotForSeq slot : Int) = 1
  omega

/-- A slot that `Remove` frees has no checkpoint. -/
theorem releaseSlot_entry (c : Recurrent α) (slot : Nat) :
    (∀ k idx e, (c.releaseSlot slot true).entryAt k idx = some e → 0 ≤ e.pos → c.entryAt k idx = some e ∧
      (k = slot → 1 < c.refCount.getD slot 0)) ∧ (Shaped c → Shaped (c.releaseSlot slot true)) := by
  unfold releaseSlot
  dsimp only
  split
  · rw [if_pos rfl]
    constructor
    · intro k idx e he hpos
      rw [freeSlot_frame] at he
      have he : ({ c with refCount := c.refCount.set slot 0 }.onStore slot (·.reset)).entryAt k idx = some e := he
      rw [entryAt_onStore] at he
      by_cases hk : k = slot
      · rw [if_pos hk] at he
        obtain ⟨store, -, he⟩ := Option.bind_eq_some_iff.mp he
        rw [SlotCheckpointStore.reset, List.getElem?_map] at he
        obtain ⟨e₀, -, rfl⟩ := Option.map_eq_some_iff.mp he
        have : (0 : Int) ≤ -1 := hpos
        omega
      · rw [if_neg hk] at he
        exact ⟨he, fun h => absurd h hk⟩
    · intro hs
      rw [freeSlot_frame]
      exact shaped_onStore (c := { c with refCount := c.refCount.set slot 0 }) hs slot
        fun store => SlotCheckpointStore.ring_reset
  · exact ⟨fun k idx e he _ => ⟨he, fun _ => by omega⟩, id⟩

/-- `Remove` of a whole sequence. -/
theorem removeAll_sourced (h : Sourced ids layers c) (seq : Int) (fails : Nat → Nat → Nat → Bool) :
    Sourced ids layers (c.removeAll seq 0 maxInt32 fails).1 := by
  have hslots := removeAll_slots h.slots seq 0 maxInt32 fails
  obtain ⟨kv, hrem, hlined, hrows, hst⟩ := lined_remove h.lined seq 0 fails
  have hs₁ : Sourced ids layers { c with kv := kv, pendingRestore := c.pendingRestore.erase seq } :=
    (h.withKv hlined hrows fun s i p hp => ((hst s i p).mp hp).1).congr rfl rfl rfl (fun _ _ => rfl) rfl rfl
  unfold removeAll at hslots ⊢
  rw [hrem] at hslots ⊢
  dsimp only at hslots ⊢
  cases hk : c.slotForSeq.lookup seq with
  | none => exact hs₁
  | some slot =>
    rw [hk] at hslots
    have hvalid : { c with kv := kv, pendingRestore := c.pendingRestore.erase seq }.validSlot slot = true :=
      (h.slots.valid hk).2
    dsimp only at hslots ⊢
    rw [if_neg (not_not.mpr hvalid)] at hslots ⊢
    obtain ⟨hentry, hshaped⟩ :=
      releaseSlot_entry { c with kv := kv, pendingRestore := c.pendingRestore.erase seq } slot
    have hf := releaseSlot_frame { c with kv := kv, pendingRestore := c.pendingRestore.erase seq } slot true
    generalize { c with kv := kv, pendingRestore := c.pendingRestore.erase seq }.releaseSlot slot true = c₂ at *
    have hrow : ∀ b k, c₂.row b k = c.row b k := fun b k => by rw [row, row, hf]
    have hlook : ∀ s k, (c₂.slotForSeq.erase seq).lookup s = some k → c.slotForSeq.lookup s = some k ∧ s ≠ seq := by
      intro s k hs
      have hne : s ≠ seq := by
        rintro rfl
        rw [AList.lookup_erase] at hs
        cases hs
      rw [AList.lookup_erase_ne hne, hf] at hs
      exact ⟨hs, hne⟩
    refine ⟨hslots, by rw [hf]; exact h.room, by rw [hf]; exact hlined, ?_, ?_, ?_, hshaped hs₁.traced.shaped⟩
    · intro b hb s i p hstored hlt
      have hstored : Stores c₂.kv.cells s i p := hstored
      rw [hf] at hstored
      have hold := (hst s i p).mp hstored
      cases hs : (c₂.slotForSeq.erase seq).lookup s with
      | none =>
        have hnil : { c₂ with slotForSeq := c₂.slotForSeq.erase seq }.seqRow b s = [] := by
          rw [seqRow, hs]
          rfl
        obtain ⟨n, -, hn⟩ := h.lined.lined s
        have := (hn p).mp ⟨i, hold.1⟩
        rw [hnil, List.length_nil] at hlt
        omega
      | some k =>
        obtain ⟨hs', -⟩ := hlook s k hs
        rw [seqRow_of_lookup hs] at hlt ⊢
        have hlt : p < (c₂.row b k).length := hlt
        show c₂.kv.rows i = (c₂.row b k)[p.toNat]?
        rw [hrow, ← seqRow_of_lookup hs'] at hlt ⊢
        rw [hf]
        show kv.rows i = _
        rw [hrows]
        exact h.traced.compat b hb s i p hold.1 hlt
    · intro b hb k idx e he hpos
      show e.pos < (c₂.row b k).length ∧ e.tensors.lookup b = some ((c₂.row b k).take (e.pos.toNat + 1))
      rw [hrow]
      exact h.traced.live b hb k idx e (hentry k idx e he hpos).1 hpos
    · intro k hfree idx e he
      by_contra hneg
      obtain ⟨hold, hshared⟩ := hentry k idx e he (by omega)
      -- The slot had a user, which must have been this sequence.
      have hno : ∀ s, s ≠ seq → c.slotForSeq.lookup s ≠ some k := by
        intro s hs hl
        refine hfree s ?_
        show (c₂.slotForSeq.erase seq).lookup s = some k
        rw [AList.lookup_erase_ne hs, hf]
        exact hl
      by_cases hks : c.slotForSeq.lookup seq = some k
      · rw [hk, Option.some.injEq] at hks
        subst hks
        have := h.slots.count_one hk hno
        have hshared : 1 < c.refCount.getD slot 0 := hshared rfl
        omega
      · refine hneg (h.traced.free k (fun s hl => ?_) idx e hold)
        by_cases hs : s = seq
        · exact hks (hs ▸ hl)
        · exact hno s hs hl

/-! ## Copies -/

theorem leaveSlot_frame (c : Recurrent α) (seq : Int) :
    (c.leaveSlot seq).states = c.states ∧ (c.leaveSlot seq).checkpoints = c.checkpoints ∧
      (c.leaveSlot seq).checkpointCount = c.checkpointCount := by
  unfold leaveSlot
  split
  · exact ⟨rfl, rfl, rfl⟩
  · rename_i slot _
    dsimp only
    split
    · unfold releaseSlot
      dsimp only
      split
      · rw [if_neg Bool.false_ne_true, freeSlot_frame]
        exact ⟨rfl, rfl, rfl⟩
      · exact ⟨rfl, rfl, rfl⟩
    · exact ⟨rfl, rfl, rfl⟩

theorem copyPrefix_frame (c : Recurrent α) (srcSeq dstSeq len : Int) :
    (c.copyPrefix srcSeq dstSeq len).states = c.states ∧
      (c.copyPrefix srcSeq dstSeq len).checkpoints = c.checkpoints ∧
      (c.copyPrefix srcSeq dstSeq len).checkpointCount = c.checkpointCount := by
  have h := leaveSlot_frame { c with kv := c.kv.copyPrefix srcSeq dstSeq len } dstSeq
  unfold copyPrefix
  dsimp only
  split
  · exact h
  · split <;> exact h

theorem copyPrefix_sourced (h : Sourced ids layers c) {srcSeq dstSeq : Int} (hne : srcSeq ≠ dstSeq)
    (hdst : dstSeq ∈ ids) (hclear : ∀ slot ∈ c.slotForSeq.lookup dstSeq,
      c.refCount.getD slot 0 ≤ 1 → Cleared c slot = true) (len : Int) :
    Sourced ids layers (c.copyPrefix srcSeq dstSeq len) := by
  have hslots := @copyPrefix_slots _ ids c h.slots srcSeq dstSeq hdst len
  have hmax := copyPrefix_max h.slots srcSeq dstSeq len
  obtain ⟨hkv, hlook⟩ := copyPrefix_spec h.slots hne len
  obtain ⟨hstates, hstores, hcount⟩ := copyPrefix_frame c srcSeq dstSeq len
  have hst := @Causal.copyPrefix_stores _ c.kv _ _ len hne
  generalize c.copyPrefix srcSeq dstSeq len = c₁ at *
  have hrow : ∀ b k, c₁.row b k = c.row b k := fun b k => by rw [row, row, hstates]
  have hent : ∀ k idx, c₁.entryAt k idx = c.entryAt k idx := fun k idx => by rw [entryAt, entryAt, hstores]
  have hseq : ∀ b s, c₁.seqRow b s = if s = dstSeq then c.seqRow b srcSeq else c.seqRow b s := by
    intro b s
    simp only [seqRow, hlook, funext (hrow b)]
    split <;> rfl
  refine ⟨hslots, hmax ▸ h.room, ?_, ?_, ?_, ?_, ?_⟩
  · rw [hkv]
    exact lined_copyPrefix h.lined hne len
  · intro b hb s i p hstored hlt
    rw [hkv, hst] at hstored
    rw [hseq] at hlt ⊢
    rw [hkv]
    by_cases hs : s = dstSeq
    · rw [if_pos hs] at hstored hlt ⊢
      exact h.traced.compat b hb srcSeq i p hstored.1 hlt
    · rw [if_neg hs] at hstored hlt ⊢
      exact h.traced.compat b hb s i p hstored hlt
  · intro b hb k idx e he hpos
    rw [hent] at he
    rw [hrow]
    exact h.traced.live b hb k idx e he hpos
  · intro k hfree idx e he
    rw [hent] at he
    have hno : ∀ s, s ≠ dstSeq → c.slotForSeq.lookup s ≠ some k := by
      intro s hs hl
      refine hfree s ?_
      rw [hlook, if_neg hs]
      exact hl
    by_cases hk : c.slotForSeq.lookup dstSeq = some k
    · have hone := h.slots.count_one hk hno
      exact Cleared.entry (hclear k hk (by omega)) he
    · refine h.traced.free k (fun s hl => ?_) idx e he
      by_cases hs : s = dstSeq
      · exact hk (hs ▸ hl)
      · exact hno s hs hl
  · intro k store hk
    rw [hstores] at hk
    rw [hcount]
    exact h.traced.shaped k store hk

end

/-! ## Runs -/

/-- The calls of a run, with whole passes. -/
inductive Call (α : Type) where
  | forward (batch : List Token) (inputs : List α) (reserve : Bool)
  | ensureWritable
  | copyPrefix (srcSeq dstSeq prefixLen : Int)
  | prepareRestore (seq targetPos : Int)
  | removeFrom (seq beginIndex : Int) (fails : Nat → Nat → Nat → Bool)

def call (layers : List Buffer) (c : Recurrent α) : Call α → Option (Recurrent α)
  | .forward batch inputs reserve => (c.forward layers batch inputs reserve).map (·.1)
  | .ensureWritable => c.ensureWritable.map (·.1)
  | .copyPrefix srcSeq dstSeq prefixLen => some (c.copyPrefix srcSeq dstSeq prefixLen)
  | .prepareRestore seq targetPos => some (c.prepareRestore seq targetPos).1
  | .removeFrom seq beginIndex fails => some (c.remove seq beginIndex maxInt32 fails).1

/-- Batches that go on where their sequences end, copies to another sequence, and only `ids`. -/
def Lawful (ids : Finset Int) (c : Recurrent α) : Call α → Prop
  | .forward batch inputs reserve => (∀ t ∈ batch, t.seq ∈ ids) ∧
    (reserve = false → inputs.length = batch.length ∧ Extends c.kv.cells batch)
  | .ensureWritable => True
  | .copyPrefix srcSeq dstSeq _ => srcSeq ≠ dstSeq ∧ srcSeq ∈ ids ∧ dstSeq ∈ ids
  | .prepareRestore seq _ => seq ∈ ids
  | .removeFrom seq beginIndex _ => seq ∈ ids ∧ 0 ≤ beginIndex

instance (ids : Finset Int) (c : Recurrent α) (op : Call α) : Decidable (Lawful ids c op) := by
  cases op <;> unfold Lawful <;> infer_instance

/-- What keeps states and stored inputs together: a batch goes on from states of the right length, `CopyPrefix`
gives up no slot with checkpoints, and `Remove` restores what `PrepareRestore` chose. -/
def Tidy (layers : List Buffer) (c : Recurrent α) : Call α → Prop
  | .forward batch _ reserve => reserve = false → Level layers c batch
  | .copyPrefix _ dstSeq _ => ∀ slot ∈ c.slotForSeq.lookup dstSeq,
    c.refCount.getD slot 0 ≤ 1 → Cleared c slot = true
  | .removeFrom seq beginIndex _ => ∀ r ∈ c.pendingRestore.lookup seq, r.pos + 1 = beginIndex →
    Current c seq r = true
  | _ => True

instance (layers : List Buffer) (c : Recurrent α) (op : Call α) : Decidable (Tidy layers c op) := by
  cases op <;> unfold Tidy <;> infer_instance

section
variable {ids : Finset Int} {layers : List Buffer} {c c' : Recurrent α}

theorem sourced_initial (h : Initial c) (hcard : ids.card ≤ c.maxSequences) : Sourced ids layers c := by
  have hslots := slots_initial h ids
  obtain ⟨shift, padding, count, _, _, n, capacity, maxBatch, h⟩ := h
  obtain ⟨kv, hkv, rfl⟩ := Option.map_eq_some_iff.mp h
  obtain ⟨hno, -⟩ := Causal.init_empty hkv
  refine ⟨hslots, hcard, lined_init ?_ ?_ hkv, fun b hb s i p hs => absurd hs (hno s i p), ?_, ?_, ?_⟩
  · rfl
  · rfl
  · intro b hb slot idx e he
    cases he
  · intro slot _ idx e he
    cases he
  · intro slot store hs
    cases hs

theorem sourced_call (hnd : layers.Nodup) (h : Sourced ids layers c) {op : Call α} (hl : Lawful ids c op)
    (ht : Tidy layers c op) (hs : c.call layers op = some c') : Sourced ids layers c' := by
  cases op with
  | forward batch inputs reserve =>
    obtain ⟨⟨c₁, err⟩, hf, rfl⟩ := Option.map_eq_some_iff.mp hs
    cases reserve with
    | true => exact forward_reserved h hf
    | false =>
      obtain ⟨hids, hl⟩ := hl
      exact forward_sourced h hnd hids (hl rfl).1 (hl rfl).2 (ht rfl) hf
  | ensureWritable =>
    obtain ⟨⟨c₁, err⟩, hf, rfl⟩ := Option.map_eq_some_iff.mp hs
    exact (ensureWritableLoop_moved layers h.slots hf).1.sourced (ensureWritableLoop_spec h.slots hf).1 h
  | copyPrefix srcSeq dstSeq prefixLen =>
    cases hs
    exact copyPrefix_sourced h hl.1 hl.2.2 ht prefixLen
  | prepareRestore seq targetPos =>
    cases hs
    unfold prepareRestore
    split
    · exact h
    · split
      · exact h
      · split
        · exact h
        · split
          · exact h
          · exact h.congr rfl rfl rfl (fun _ _ => rfl) rfl rfl
  | removeFrom seq beginIndex fails =>
    cases hs
    unfold remove
    rw [if_neg fun hcond => hcond.2 rfl]
    split
    · exact (removeTail_sourced h ht fails).1
    · obtain rfl : beginIndex = 0 := by
        have := hl.2
        omega
      exact removeAll_sourced h seq fails

theorem sourced_of_reaches (hnd : layers.Nodup) (h : Reaches (call layers)
      (fun c op => Lawful ids c op ∧ Tidy layers c op) (fun c => Initial c ∧ ids.card ≤ c.maxSequences) c) :
    Sourced ids layers c :=
  h.invariant (I := Sourced ids layers) (fun _ hc => sourced_initial hc.1 hc.2)
    fun _ _ _ hs hop hstep => sourced_call hnd hs hop.1 hop.2 hstep

/-- The state of the sequence was computed from the inputs that are stored for it, which are those before `pos`. -/
def FromStored (layers : List Buffer) (c : Recurrent α) (seq pos : Int) : Prop :=
  ∃ slot, c.slotForSeq.lookup seq = some slot ∧ ∀ b ∈ layers, ((c.row b slot).length : Int) = pos ∧
    ∀ p x, (0 ≤ p ∧ (c.row b slot)[p.toNat]? = some x) ↔ ∃ i, Stores c.kv.cells seq i p ∧ c.kv.rows i = some x

/-- `PrepareRestore` finds the slot of the sequence and a checkpoint in it. -/
theorem prepareRestore_spec {seq target restored : Int} (h : c.prepareRestore seq target = (c', some restored)) :
    ∃ r : CheckpointRestore, r.pos + 1 = restored ∧ 0 ≤ r.pos ∧ r.pos < target ∧ Current c' seq r = true ∧
      c' = { c with pendingRestore := c.pendingRestore.insert seq r } := by
  unfold prepareRestore at h
  split at h
  · cases h
  · split at h
    · cases h
    · rename_i slot hslot
      split at h
      · cases h
      · rename_i store hstore
        split at h
        · cases h
        · rename_i idx pos hbest
          obtain ⟨e, he, hp, h0, hlt⟩ := SlotCheckpointStore.bestIndex_spec hbest
          obtain ⟨rfl, hr⟩ := Prod.mk.inj h
          refine ⟨⟨slot, idx, pos⟩, Option.some.inj hr, h0, hlt, current_iff.mpr ⟨hslot, fun e' he' _ => ?_⟩, rfl⟩
          obtain ⟨store', hs', he'⟩ := Option.bind_eq_some_iff.mp he'
          have hs' : c.checkpoints.lookup slot = some store' := hs'
          rw [hstore, Option.some.injEq] at hs'
          subst hs'
          rw [he, Option.some.injEq] at he'
          rw [← he', hp]

/-- The restored state comes from the inputs that are stored. -/
theorem restored_from_stored (hnd : layers.Nodup) (h : Reaches (call layers)
      (fun c op => Lawful ids c op ∧ Tidy layers c op) (fun c => Initial c ∧ ids.card ≤ c.maxSequences) c)
    {seq target restored : Int} {fails : Nat → Nat → Nat → Bool} {c₁ c₂ : Recurrent α}
    (hp : c.prepareRestore seq target = (c₁, some restored)) (htarget : target ≤ nextPos c.kv.cells seq)
    (hr : c₁.remove seq restored maxInt32 fails = (c₂, none)) : FromStored layers c₂ seq restored := by
  have hs := sourced_of_reaches hnd h
  obtain ⟨r, hpos, h0, hlt, hcur, hc₁⟩ := prepareRestore_spec hp
  have hs₁ : Sourced ids layers c₁ := by
    rw [hc₁]
    exact hs.congr rfl rfl rfl (fun _ _ => rfl) rfl rfl
  have hkv : c₁.kv = c.kv := by rw [hc₁]
  have hpend : ∀ r' ∈ c₁.pendingRestore.lookup seq, r'.pos + 1 = restored → Current c₁ seq r' = true := by
    intro r' hr' _
    rw [hc₁, AList.lookup_insert, Option.mem_some_iff] at hr'
    exact hr' ▸ hcur
  obtain ⟨hs₂, hok⟩ := removeTail_sourced hs₁ hpend fails
  have htail : c₁.removeTail seq restored maxInt32 fails = (c₂, none) := by
    rw [← hr, remove, if_neg fun hcond => hcond.2 rfl, if_pos (by omega)]
  rw [htail] at hs₂ hok
  obtain ⟨hlen, hslot, hst⟩ := hok rfl
  obtain ⟨slot, hslot⟩ := Option.isSome_iff_exists.mp hslot
  refine ⟨slot, hslot, fun b hb => ?_⟩
  have hlen : ((c₂.row b slot).length : Int) = restored := by
    rw [← seqRow_of_lookup hslot b]
    exact hlen b hb
  obtain ⟨n, hmax, hn⟩ := hs.lined.lined seq
  rw [nextPos_eq hn] at htarget
  have hstored : ∀ i p, Stores c₂.kv.cells seq i p → p < (c₂.row b slot).length →
      c₂.kv.rows i = (c₂.row b slot)[p.toNat]? := by
    intro i p hi hp
    rw [← seqRow_of_lookup hslot b] at hp ⊢
    exact hs₂.traced.compat b hb seq i p hi hp
  refine ⟨hlen, fun p x => ⟨fun ⟨hp0, hx⟩ => ?_, fun ⟨i, hi, hx⟩ => ?_⟩⟩
  · have hplt := (List.getElem?_eq_some_iff.mp hx).1
    obtain ⟨i, hi⟩ := (hn p).mpr ⟨hp0, by omega⟩
    have hi : Stores c₂.kv.cells seq i p := by
      rw [hst, hkv]
      exact ⟨hi, fun _ => by omega⟩
    exact ⟨i, hi, (hstored i p hi (by omega)).trans hx⟩
  · have hold := (hst seq i p).mp hi
    rw [hkv] at hold
    have hp := (hn p).mp ⟨i, hold.1⟩
    have hlt := hold.2 rfl
    exact ⟨hp.1, (hstored i p hi (by omega)).symm.trans hx⟩

end

/-- One recurrent layer: a convolution state and a recurrent one. -/
def oneLayer : List Buffer := [⟨0, .conv⟩, ⟨0, .recurrent⟩]

/-- A batch of one sequence. -/
def seqBatch (seq : Int) (start count : Nat) : List Token := (List.range count).map fun k => ⟨seq, start + k⟩

/-- A sequence with a checkpoint, a copy of it that goes on by itself, and a second restore. -/
def tidyRun : List (Call Nat) :=
  [.forward (seqBatch 0 0 3) [1, 2, 3] false, .copyPrefix 0 1 3, .forward (seqBatch 1 3 2) [4, 5] false,
    .prepareRestore 0 3, .removeFrom 0 3 fun _ _ _ => false, .ensureWritable]

theorem tidyRun_restored : ∃ c c₁ c₂ : Recurrent Nat, Reaches (call oneLayer)
      (fun c op => Lawful {0, 1} c op ∧ Tidy oneLayer c op)
      (fun c => Initial c ∧ ({0, 1} : Finset Int).card ≤ c.maxSequences) c ∧
    c.prepareRestore 1 5 = (c₁, some 3) ∧ (5 : Int) ≤ nextPos c.kv.cells 1 ∧
    c₁.remove 1 3 maxInt32 (fun _ _ _ => false) = (c₂, none) ∧ FromStored oneLayer c₂ 1 3 := by
  let c₀ := (init { (newRecurrentCache true : Recurrent Nat) with checkpointMinPos := 1 } 2 8 4).get
    (by decide +kernel)
  let c := (exec (call oneLayer) c₀ tidyRun).get (by decide +kernel)
  have hc : Reaches (call oneLayer) (fun c op => Lawful {0, 1} c op ∧ Tidy oneLayer c op)
      (fun c => Initial c ∧ ({0, 1} : Finset Int).card ≤ c.maxSequences) c :=
    reaches_of_exec (Reaches.init ⟨⟨true, 0, 32, 1, 1280, 2, 8, 4, (Option.some_get _).symm⟩, by decide +kernel⟩)
      (by decide +kernel) (Option.some_get _).symm
  let c₁ := (c.prepareRestore 1 5).1
  have hp : (c.prepareRestore 1 5).2 = some 3 := by decide +kernel
  have h₁ : c.prepareRestore 1 5 = (c₁, some 3) := by rw [← hp]
  let c₂ := (c₁.remove 1 3 maxInt32 fun _ _ _ => false).1
  have hr : (c₁.remove 1 3 maxInt32 fun _ _ _ => false).2 = none := by decide +kernel
  have h₂ : c₁.remove 1 3 maxInt32 (fun _ _ _ => false) = (c₂, none) := by rw [← hr]
  have hn : (5 : Int) ≤ nextPos c.kv.cells 1 := by decide +kernel
  exact ⟨c, c₁, c₂, hc, h₁, hn, h₂, restored_from_stored (by decide) hc h₁ hn h₂⟩

/-- The slot of sequence 1 has a checkpoint when `CopyPrefix` frees it, and the next user of the slot finds it. -/
def staleRun : List (Call Nat) :=
  [.forward (seqBatch 1 0 17) (List.replicate 17 1) false, .forward (seqBatch 0 0 5) (List.replicate 5 2) false,
    .copyPrefix 0 1 5, .removeFrom 1 0 fun _ _ _ => false,
    .forward (seqBatch 1 0 18) (List.replicate 18 3) false]

/-- After it sequence 1 stores one input 17 times, and its state comes from another one. -/
theorem staleRun_restored : ∃ c c₁ c₂ : Recurrent Nat, Reaches (call oneLayer) (Lawful {0, 1})
      (fun c => Initial c ∧ ({0, 1} : Finset Int).card ≤ c.maxSequences) c ∧
    c.prepareRestore 1 18 = (c₁, some 17) ∧ (18 : Int) ≤ nextPos c.kv.cells 1 ∧
    c₁.remove 1 17 maxInt32 (fun _ _ _ => false) = (c₂, none) ∧
    (∀ i < c₂.kv.cells.length, Stores c₂.kv.cells 1 i 0 → c₂.kv.rows i = some 3) ∧
    c₂.seqRow ⟨0, .recurrent⟩ 1 = List.replicate 17 1 ∧ ¬ FromStored oneLayer c₂ 1 17 := by
  let c₀ := ((newRecurrentCache true : Recurrent Nat).init 2 32 32).get (by decide +kernel)
  let c := (exec (call oneLayer) c₀ staleRun).get (by decide +kernel)
  have hc : Reaches (call oneLayer) (Lawful {0, 1})
      (fun c => Initial c ∧ ({0, 1} : Finset Int).card ≤ c.maxSequences) c :=
    reaches_of_exec (Reaches.init ⟨⟨true, 0, 32, 16, 1280, 2, 32, 32, (Option.some_get _).symm⟩, by decide +kernel⟩)
      (by decide +kernel) (Option.some_get _).symm
  let c₁ := (c.prepareRestore 1 18).1
  have hp : (c.prepareRestore 1 18).2 = some 17 := by decide +kernel
  have h₁ : c.prepareRestore 1 18 = (c₁, some 17) := by rw [← hp]
  let c₂ := (c₁.remove 1 17 maxInt32 fun _ _ _ => false).1
  have hr : (c₁.remove 1 17 maxInt32 fun _ _ _ => false).2 = none := by decide +kernel
  have h₂ : c₁.remove 1 17 maxInt32 (fun _ _ _ => false) = (c₂, none) := by rw [← hr]
  have hn : (18 : Int) ≤ nextPos c.kv.cells 1 := by decide +kernel
  have hkv : ∀ i < c₂.kv.cells.length, Stores c₂.kv.cells 1 i 0 → c₂.kv.rows i = some 3 := by decide +kernel
  have hrow : c₂.seqRow ⟨0, .recurrent⟩ 1 = List.replicate 17 1 := by decide +kernel
  refine ⟨c, c₁, c₂, hc, h₁, hn, h₂, hkv, hrow, ?_⟩
  rintro ⟨slot, hslot, hall⟩
  have hone : (c₂.row ⟨0, .recurrent⟩ slot)[(0 : Int).toNat]? = some 1 := by
    rw [← seqRow_of_lookup hslot, hrow]
    rfl
  obtain ⟨i, hi, hx⟩ := ((hall ⟨0, .recurrent⟩ (by decide)).2 0 1).mp ⟨le_rfl, hone⟩
  have hlt : i < c₂.kv.cells.length := by
    obtain ⟨cell, hcell, -⟩ := hi
    exact (List.getElem?_eq_some_iff.mp hcell).1
  rw [hkv i hlt hi] at hx
  cases hx

end Recurrent

end Xdragon.Kvcache
