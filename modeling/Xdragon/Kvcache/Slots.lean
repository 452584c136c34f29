import Xdragon.Kvcache.Recurrent
import Xdragon.Lib.Pool

/-!
# The slots of the recurrent cache

The slots, their counts and the free list are a pool. Here is what `StartForward` does to it.
-/

open Xdragon.Lib

namespace Xdragon.Kvcache

variable {α : Type}

theorem Causal.startForward_error {c c' : Causal α} {batch : List Token} {reserve : Bool} {err : CacheError}
    (h : c.startForward batch reserve = (c', some err)) : err ≠ .kvCacheFull none := by
  unfold Causal.startForward at h
  dsimp only at h
  split at h
  · cases h
  · split at h
    · cases h
      simp
    · cases h

namespace Recurrent

def pool (c : Recurrent α) : Pool Int := ⟨c.slotForSeq, c.refCount, c.freeSlots⟩

/-! ## What leaves the slots alone -/

/-- Only states, checkpoints and the notes of the current pass differ. -/
structure Kept (c c' : Recurrent α) : Prop where
  pool : c'.pool = c.pool
  maxSequences : c'.maxSequences = c.maxSequences
  kv : c'.kv = c.kv
  curSeqs : c'.curSeqs = c.curSeqs

theorem Kept.refl (c : Recurrent α) : Kept c c := ⟨rfl, rfl, rfl, rfl⟩

theorem Kept.trans {c c' c'' : Recurrent α} (h : Kept c c') (h' : Kept c' c'') : Kept c c'' :=
  ⟨h'.pool.trans h.pool, h'.maxSequences.trans h.maxSequences, h'.kv.trans h.kv, h'.curSeqs.trans h.curSeqs⟩

theorem Kept.foldl {β : Type} {f : Recurrent α → β → Recurrent α} (hf : ∀ c x, Kept c (f c x))
    {c₀ c : Recurrent α} (h : Kept c₀ c) (xs : List β) : Kept c₀ (xs.foldl f c) := by
  induction xs generalizing c with
  | nil => exact h
  | cons x xs ih => exact ih (h.trans (hf c x))

theorem Kept.foldlM {β : Type} {f : Recurrent α → β → Option (Recurrent α)}
    (hf : ∀ c x c', f c x = some c' → Kept c c') {xs : List β} {c c' : Recurrent α}
    (h : xs.foldlM f c = some c') : Kept c c' := by
  induction xs generalizing c with
  | nil =>
    obtain rfl : c = c' := Option.some.inj h
    exact .refl c
  | cons x xs ih =>
    rw [List.foldlM_cons, Option.bind_eq_bind, Option.bind_eq_some_iff] at h
    obtain ⟨c₁, h₁, h⟩ := h
    exact (hf c x c₁ h₁).trans (ih h)

theorem kept_setRows (c : Recurrent α) (f : Buffer → (Nat → List α) → Nat → List α) : Kept c (c.setRows f) :=
  ⟨rfl, rfl, rfl, rfl⟩

theorem kept_buffer (c : Recurrent α) (b : Buffer) : Kept c (c.buffer b) := by
  unfold buffer
  split <;> exact ⟨rfl, rfl, rfl, rfl⟩

theorem kept_checkpointStore (c : Recurrent α) (slot : Nat) : Kept c (c.checkpointStore slot).2 := by
  unfold checkpointStore
  split <;> exact ⟨rfl, rfl, rfl, rfl⟩

theorem kept_onStore (c : Recurrent α) (slot : Nat) (f : SlotCheckpointStore α → SlotCheckpointStore α) :
    Kept c (c.onStore slot f) := by
  unfold onStore
  split <;> exact ⟨rfl, rfl, rfl, rfl⟩

theorem kept_copyCheckpoints (c : Recurrent α) (srcSlot dstSlot : Nat) :
    Kept c (c.copyCheckpoints srcSlot dstSlot) := by
  unfold copyCheckpoints
  split
  · exact .refl c
  · split
    · exact .refl c
    · split
      · exact .refl c
      · exact (kept_checkpointStore c dstSlot).trans ⟨rfl, rfl, rfl, rfl⟩

theorem kept_planSeq (batch : List Token) (c : Recurrent α) (e : Int × Nat) : Kept c (planSeq batch c e) := by
  unfold planSeq
  split
  · exact ⟨rfl, rfl, rfl, rfl⟩
  · split
    · exact ⟨rfl, rfl, rfl, rfl⟩
    · exact (kept_checkpointStore c e.2).trans ⟨rfl, rfl, rfl, rfl⟩

theorem kept_finalizeStartForward (c : Recurrent α) (batch : List Token) (reserve : Bool) :
    Kept c (c.finalizeStartForward batch reserve) := by
  unfold finalizeStartForward planCheckpoints
  dsimp only
  split
  · exact ⟨rfl, rfl, rfl, rfl⟩
  · refine Kept.foldl (kept_planSeq batch) ?_ _
    exact ⟨rfl, rfl, rfl, rfl⟩

theorem kept_checkpointIndexForSlot (c : Recurrent α) (slot : Nat) (pos : Int) :
    Kept c (c.checkpointIndexForSlot slot pos).2 := by
  unfold checkpointIndexForSlot
  split
  · exact .refl c
  · split
    · exact .refl c
    · refine (kept_checkpointStore c slot).trans ?_
      dsimp only
      split <;> exact ⟨rfl, rfl, rfl, rfl⟩

theorem kept_captureSeq {b : Buffer} {src : List (List α)} {c c' : Recurrent α} {e : Int × Nat}
    (h : captureSeq b src c e = some c') : Kept c c' := by
  unfold captureSeq at h
  split at h
  · cases h
    exact .refl c
  · obtain ⟨slot, -, rfl⟩ := Option.map_eq_some_iff.mp h
    have hk := kept_checkpointIndexForSlot c slot e.1
    generalize c.checkpointIndexForSlot slot e.1 = r at hk
    obtain ⟨idx, c₁⟩ := r
    cases idx with
    | none => exact hk
    | some idx => exact hk.trans (kept_onStore _ _ _)

theorem kept_reserveCheckpoint (c : Recurrent α) (b : Buffer) : Kept c (c.reserveCheckpoint b) := by
  unfold reserveCheckpoint
  split
  · exact .refl c
  · refine (Kept.foldl (fun c slot => ?_) (.refl c) _).trans ⟨rfl, rfl, rfl, rfl⟩
    exact (kept_checkpointStore c slot).trans (kept_onStore _ _ _)

theorem kept_capture {c c' : Recurrent α} {b : Buffer} {src : List (List α)}
    (h : c.capture b src = some c') : Kept c c' := by
  unfold capture at h
  split at h
  · cases h
    exact .refl c
  · split at h
    · cases h
      exact kept_reserveCheckpoint c b
    · exact Kept.foldlM (fun _ _ _ => kept_captureSeq) h

theorem kept_updateState {c c' : Recurrent α} {b : Buffer} {src : List (List α)}
    (h : c.updateState b src = some c') : Kept c c' := by
  have hk := kept_capture h
  exact (kept_buffer c b).trans ⟨hk.pool, hk.maxSequences, hk.kv, hk.curSeqs⟩

theorem kept_applyCheckpointRestore (c : Recurrent α) (restore : CheckpointRestore) :
    Kept c (c.applyCheckpointRestore restore).1 := by
  unfold applyCheckpointRestore
  split
  · exact .refl c
  · refine (Kept.foldl (fun c e => ?_) (.refl c) _).trans (kept_onStore _ _ _)
    exact (kept_buffer c e.1).trans ⟨rfl, rfl, rfl, rfl⟩

/-! ## What changes the slots -/

/-- Counts and free list are exact, and only `ids` have slots. -/
structure Slots (ids : Finset Int) (c : Recurrent α) : Prop where
  exact : c.pool.Exact c.maxSequences
  within : c.pool.Within ids

theorem Slots.kept {ids : Finset Int} {c c' : Recurrent α} (h : Slots ids c) (hk : Kept c c') : Slots ids c' :=
  ⟨by rw [hk.pool, hk.maxSequences]; exact h.exact, by rw [hk.pool]; exact h.within⟩

theorem Slots.valid {ids : Finset Int} {c : Recurrent α} (h : Slots ids c) {seq : Int} {slot : Nat}
    (hs : c.slotForSeq.lookup seq = some slot) : slot < c.maxSequences ∧ c.validSlot slot = true := by
  have hlt := h.exact.valid seq slot hs
  refine ⟨hlt, ?_⟩
  have hlen : c.refCount.length = c.maxSequences := h.exact.length
  simpa [validSlot, hlen] using hlt

theorem allocSlot_frame {c c' : Recurrent α} {slot : Nat} (h : c.allocSlot = some (slot, c')) :
    c' = { c with freeSlots := c'.freeSlots } := by
  obtain ⟨k, -, he⟩ := Option.map_eq_some_iff.mp h
  obtain ⟨-, rfl⟩ := Prod.mk.inj he
  rfl

theorem allocSlot_pool {c c' : Recurrent α} {slot : Nat} (h : c.allocSlot = some (slot, c')) :
    c.pool.take = some (slot, c'.pool) := by
  obtain ⟨k, hk, he⟩ := Option.map_eq_some_iff.mp h
  obtain ⟨rfl, rfl⟩ := Prod.mk.inj he
  exact Option.map_eq_some_iff.mpr ⟨k, hk, rfl⟩

theorem allocSlot_none {c : Recurrent α} (h : c.allocSlot = none) : c.pool.take = none :=
  Option.map_eq_none_iff.mpr (Option.map_eq_none_iff.mp h)

theorem Slots.useSlot {ids : Finset Int} {c c' : Recurrent α} {seq : Int} {slot : Nat} (h : Slots ids c)
    (hseq : seq ∈ ids) (hn : c.slotForSeq.lookup seq = none) (ha : c.allocSlot = some (slot, c')) :
    Slots ids (c'.useSlot seq slot) := by
  have hmax : c'.maxSequences = c.maxSequences := by rw [allocSlot_frame ha]
  have hslot : c'.slotForSeq = c.slotForSeq := by rw [allocSlot_frame ha]
  constructor
  · have := h.exact.fresh hn (allocSlot_pool ha)
    rwa [← hmax] at this
  · intro s k hs
    have hs : (c'.slotForSeq.insert seq slot).lookup s = some k := hs
    by_cases he : s = seq
    · exact he ▸ hseq
    · rw [AList.lookup_insert_ne he, hslot] at hs
      exact h.within s k hs

/-- What `detach` does, besides copying. -/
theorem detach_spec {c c' : Recurrent α} {seq : Int} {slot newSlot : Nat}
    (h : c.detach seq slot = some (newSlot, c')) :
    ∃ c₁, c.allocSlot = some (newSlot, c₁) ∧ c'.pool = (c₁.pool.lower slot).assign seq newSlot ∧
      c'.maxSequences = c.maxSequences ∧ c'.kv = c.kv ∧ c'.curSeqs = c.curSeqs ∧
      c'.slotForSeq = c.slotForSeq.insert seq newSlot := by
  obtain ⟨⟨k, c₁⟩, ha, he⟩ := Option.map_eq_some_iff.mp h
  obtain ⟨rfl, rfl⟩ := Prod.mk.inj he
  have hf := allocSlot_frame ha
  have hk := (kept_setRows c₁ _).trans (kept_copyCheckpoints (c₁.copyRecurrentState slot k) slot k)
  refine ⟨c₁, ha, ?_, ?_, ?_, ?_, ?_⟩
  · have hp := hk.pool
    simp only [pool, Pool.mk.injEq] at hp
    simp only [pool, Pool.assign, Pool.lower, hp]
  · exact hk.maxSequences.trans (by rw [hf])
  · exact hk.kv.trans (by rw [hf])
  · exact hk.curSeqs.trans (by rw [hf])
  · have hp := hk.pool
    simp only [pool, Pool.mk.injEq] at hp
    simp only [hp.1]
    rw [hf]

theorem Slots.detach {ids : Finset Int} {c c' : Recurrent α} {seq : Int} {slot newSlot : Nat}
    (h : Slots ids c) (hs : c.slotForSeq.lookup seq = some slot) (hshared : 1 < c.refCount.getD slot 0)
    (hd : c.detach seq slot = some (newSlot, c')) : Slots ids c' := by
  obtain ⟨c₁, ha, hp, hmax, -, -, hslots⟩ := detach_spec hd
  constructor
  · rw [hp, hmax]
    exact h.exact.detach hs hshared (allocSlot_pool ha)
  · intro s k hk
    have hk : c'.slotForSeq.lookup s = some k := hk
    rw [hslots] at hk
    by_cases he : s = seq
    · exact he ▸ h.within seq slot hs
    · rw [AList.lookup_insert_ne he] at hk
      exact h.within s k hk

/-- A shared slot can always be detached. -/
theorem Slots.detach_room {ids : Finset Int} {c : Recurrent α} {seq : Int} {slot : Nat} (h : Slots ids c)
    (hcard : ids.card ≤ c.maxSequences) (hs : c.slotForSeq.lookup seq = some slot)
    (hshared : 1 < c.refCount.getD slot 0) : c.detach seq slot ≠ none := by
  intro hd
  exact h.exact.room_detach h.within hcard hs hshared (allocSlot_none (Option.map_eq_none_iff.mp hd))

theorem onStore_frame (c : Recurrent α) (slot : Nat) (f : SlotCheckpointStore α → SlotCheckpointStore α) :
    c.onStore slot f = { c with checkpoints := (c.onStore slot f).checkpoints } := by
  unfold onStore
  split <;> rfl

theorem freeSlot_frame (c : Recurrent α) (slot : Nat) :
    c.freeSlot slot = { c with freeSlots := (c.freeSlot slot).freeSlots } := by
  unfold freeSlot
  split <;> rfl

theorem releaseSlot_frame (c : Recurrent α) (slot : Nat) (clear : Bool) :
    c.releaseSlot slot clear = { c with
      refCount := (c.releaseSlot slot clear).refCount
      freeSlots := (c.releaseSlot slot clear).freeSlots
      checkpoints := (c.releaseSlot slot clear).checkpoints } := by
  unfold releaseSlot
  dsimp only
  split
  · cases clear with
    | false => rw [if_neg Bool.false_ne_true, freeSlot_frame]
    | true => rw [if_pos rfl, freeSlot_frame, clearCheckpoints, onStore_frame]
  · rfl

theorem releaseSlot_pool {c : Recurrent α} {slot : Nat} (hslot : slot < c.maxSequences) (clear : Bool) :
    (c.releaseSlot slot clear).pool = c.pool.release slot := by
  have hfree : ∀ c' : Recurrent α, c'.maxSequences = c.maxSequences →
      (c'.freeSlot slot).pool = { c'.pool with free := c'.freeSlots ++ [slot] } := by
    intro c' hmax
    unfold freeSlot
    rw [if_pos (by rw [hmax]; exact hslot)]
    rfl
  unfold releaseSlot Pool.release
  have hc : c.pool.count = c.refCount := rfl
  rw [hc]
  by_cases hlast : c.refCount.getD slot 0 - 1 ≤ 0
  · simp only [hlast, if_true]
    cases clear with
    | false =>
      rw [if_neg Bool.false_ne_true]
      exact hfree _ rfl
    | true =>
      have hk : Kept { c with refCount := c.refCount.set slot 0 }
        ({ c with refCount := c.refCount.set slot 0 }.clearCheckpoints slot) := kept_onStore _ _ _
      rw [if_pos rfl, hfree _ hk.maxSequences, hk.pool]
      have hp := hk.pool
      simp only [pool, Pool.mk.injEq] at hp
      rw [hp.2.2]
      rfl
  · simp only [hlast, if_false]
    rfl

/-- A sequence that gives up its slot. -/
theorem Slots.leave {ids : Finset Int} {c c' : Recurrent α} {seq : Int} {slot : Nat} (h : Slots ids c)
    (hs : c.slotForSeq.lookup seq = some slot) (hp : c'.pool = (c.pool.release slot).leave seq)
    (hmax : c'.maxSequences = c.maxSequences) : Slots ids c' := by
  constructor
  · rw [hp, hmax]
    exact h.exact.drop hs
  · intro s k hk
    have hk : c'.pool.slot.lookup s = some k := hk
    have hrel : (c.pool.release slot).slot = c.slotForSeq := by
      unfold Pool.release
      split <;> rfl
    rw [hp] at hk
    simp only [Pool.leave, hrel] at hk
    by_cases he : s = seq
    · rw [he, AList.lookup_erase] at hk
      cases hk
    · rw [AList.lookup_erase_ne he] at hk
      exact h.within s k hk

/-! ## The forward pass -/

theorem findSlots_frame (seqs : List Int) (newSlots : List Nat) (c : Recurrent α) :
    (findSlots seqs newSlots c).1 = { c with
      slotForSeq := (findSlots seqs newSlots c).1.slotForSeq
      refCount := (findSlots seqs newSlots c).1.refCount
      freeSlots := (findSlots seqs newSlots c).1.freeSlots
      curSlots := (findSlots seqs newSlots c).1.curSlots } := by
  fun_induction findSlots seqs newSlots c with
  | case1 newSlots c => rfl
  | case2 seq rest newSlots c slot hs ih => exact ih
  | case3 seq rest newSlots c hs ha => rfl
  | case4 seq rest newSlots c hs slot c' ha ih =>
    rw [ih, allocSlot_frame ha]
    rfl

theorem findSlots_slots {ids : Finset Int} {seqs : List Int} {c : Recurrent α} (h : Slots ids c)
    (hseqs : ∀ s ∈ seqs, s ∈ ids) (newSlots : List Nat) : Slots ids (findSlots seqs newSlots c).1 := by
  fun_induction findSlots seqs newSlots c with
  | case1 newSlots c => exact h
  | case2 seq rest newSlots c slot hs ih =>
    exact ih ⟨h.exact, h.within⟩ fun s hs' => hseqs s (List.mem_cons_of_mem _ hs')
  | case3 seq rest newSlots c hs ha => exact h
  | case4 seq rest newSlots c hs slot c' ha ih =>
    have hu := h.useSlot (hseqs seq (by simp)) hs ha
    exact ih ⟨hu.exact, hu.within⟩ fun s hs' => hseqs s (List.mem_cons_of_mem _ hs')

/-- With no more sequences than slots, every sequence of the batch gets one. -/
theorem findSlots_room {ids : Finset Int} {seqs : List Int} {c : Recurrent α} (h : Slots ids c)
    (hcard : ids.card ≤ c.maxSequences) (hseqs : ∀ s ∈ seqs, s ∈ ids) (newSlots : List Nat) :
    (findSlots seqs newSlots c).2.2 = none := by
  fun_induction findSlots seqs newSlots c with
  | case1 newSlots c => rfl
  | case2 seq rest newSlots c slot hs ih =>
    exact ih ⟨h.exact, h.within⟩ hcard fun s hs' => hseqs s (List.mem_cons_of_mem _ hs')
  | case3 seq rest newSlots c hs ha =>
    exact absurd (allocSlot_none ha) (h.exact.room_fresh h.within hcard (hseqs seq (by simp)) hs)
  | case4 seq rest newSlots c hs slot c' ha ih =>
    have hu := h.useSlot (hseqs seq (by simp)) hs ha
    refine ih ⟨hu.exact, hu.within⟩ ?_ fun s hs' => hseqs s (List.mem_cons_of_mem _ hs')
    rw [allocSlot_frame ha]
    exact hcard

theorem mem_seqsOf {batch : List Token} {s : Int} : s ∈ seqsOf batch ↔ ∃ t ∈ batch, t.seq = s := by
  have hgen : ∀ seqs, s ∈ batch.foldl (fun seqs t => if t.seq ∈ seqs then seqs else seqs ++ [t.seq]) seqs ↔
      s ∈ seqs ∨ ∃ t ∈ batch, t.seq = s := by
    induction batch with
    | nil => simp
    | cons t batch ih =>
      intro seqs
      rw [List.foldl_cons, ih]
      by_cases ht : t.seq ∈ seqs
      · simp only [ht, if_true, List.mem_cons, exists_eq_or_imp]
        exact ⟨fun h => h.elim .inl fun h => .inr (.inr h), fun h => h.elim .inl fun h => h.elim
          (fun h => .inl (h ▸ ht)) .inr⟩
      · simp only [ht, if_false, List.mem_append, List.mem_cons, List.not_mem_nil, or_false, exists_eq_or_imp,
          or_assoc]
        exact or_congr_right (or_congr_left eq_comm)
  rw [seqsOf, hgen]
  simp

theorem seqsOf_nodup (batch : List Token) : (seqsOf batch).Nodup := by
  have hgen : ∀ seqs : List Int, seqs.Nodup →
      (batch.foldl (fun seqs t => if t.seq ∈ seqs then seqs else seqs ++ [t.seq]) seqs).Nodup := by
    induction batch with
    | nil => exact fun seqs h => h
    | cons t batch ih =>
      intro seqs h
      rw [List.foldl_cons]
      apply ih
      split
      · exact h
      · rename_i ht
        exact List.nodup_append.mpr ⟨h, by simp, fun a ha b hb hab => ht (by simp_all)⟩
  exact hgen [] List.nodup_nil

theorem seqsOf_single {first : Token} {rest : List Token} (h : ∀ t ∈ rest, t.seq = first.seq) :
    seqsOf (first :: rest) = [first.seq] := by
  have hgen : rest.foldl (fun seqs t => if t.seq ∈ seqs then seqs else seqs ++ [t.seq]) [first.seq] =
      [first.seq] := by
    induction rest with
    | nil => rfl
    | cons t rest ih =>
      rw [List.foldl_cons, if_pos (by simp [h t (by simp)])]
      exact ih fun t' ht' => h t' (List.mem_cons_of_mem _ ht')
  simpa [seqsOf] using hgen

/-- One sequence is no special case, except for what an error leaves in `curSlots`. -/
theorem startForwardSingleSeq_cases (c : Recurrent α) (seq : Int) (seqTokens : Nat) (batch : List Token)
    (reserve : Bool) :
    c.startForwardSingleSeq seq seqTokens batch reserve =
        { c with curSeqs := [seq], curSeqTokens := seqTokens }.startForwardMultiSeq batch reserve ∨
      (c.slotForSeq.lookup seq = none ∧ c.freeSlots = [] ∧ c.startForwardSingleSeq seq seqTokens batch reserve =
        ({ c with curSeqs := [seq], curSeqTokens := seqTokens }, some (.kvCacheFull none))) := by
  unfold startForwardSingleSeq startForwardMultiSeq
  cases reserve with
  | true => exact .inl rfl
  | false =>
    simp only [Bool.false_eq_true, if_false, findSlots]
    cases hs : c.slotForSeq.lookup seq with
    | some slot => exact .inl rfl
    | none =>
      cases hf : c.freeSlots.getLast? with
      | none => exact .inr ⟨rfl, List.getLast?_eq_none_iff.mp hf, by simp [allocSlot, hf]⟩
      | some slot =>
        left
        simp only [allocSlot, hf, Option.map_some]
        rfl

/-- Everything that `StartForward` can do. -/
theorem startForward_cases (c : Recurrent α) (batch : List Token) (reserve : Bool) :
    (∃ kv err, c.kv.startForward batch reserve = (kv, some err) ∧
      c.startForward batch reserve = ({ c with kv := kv }, some err)) ∨
    ∃ kv, c.kv.startForward batch reserve = (kv, none) ∧
      ((batch = [] ∧ c.startForward batch reserve = ({ c with
          kv := kv, curSeqs := [], curSlots := [], curSeqTokens := 0, reserveCheckpoints := false
          writableEnsured := false, writableError := none }, none)) ∨
      (∃ s ∈ seqsOf batch, countOf batch s ≠ batch.length / (seqsOf batch).length ∧
        c.startForward batch reserve = ({ c with kv := kv, curSeqs := seqsOf batch }, some .notSupported)) ∨
      (∀ s ∈ seqsOf batch, countOf batch s = batch.length / (seqsOf batch).length) ∧ ∃ seqTokens,
        (c.startForward batch reserve = { c with
          kv := kv, curSeqs := seqsOf batch, curSeqTokens := seqTokens }.startForwardMultiSeq batch reserve ∨
        ((∃ s ∈ seqsOf batch, c.slotForSeq.lookup s = none) ∧ c.freeSlots = [] ∧
          c.startForward batch reserve = ({ c with
            kv := kv, curSeqs := seqsOf batch, curSeqTokens := seqTokens }, some (.kvCacheFull none))))) := by
  unfold startForward
  cases hkv : c.kv.startForward batch reserve with
  | mk kv err =>
    cases err with
    | some err => exact .inl ⟨kv, err, rfl, rfl⟩
    | none =>
      refine .inr ⟨kv, rfl, ?_⟩
      cases batch with
      | nil => exact .inl ⟨rfl, rfl⟩
      | cons first rest =>
        right
        dsimp only
        split
        · rename_i hall
          have hall : ∀ t ∈ rest, t.seq = first.seq := by simpa using hall
          have hseqs := seqsOf_single hall
          rw [hseqs]
          right
          constructor
          · intro s hs
            rw [List.mem_singleton] at hs
            subst hs
            simp only [countOf, List.length_singleton, Nat.div_one]
            rw [List.countP_eq_length]
            simpa using hall
          · refine ⟨(first :: rest).length, ?_⟩
            rcases startForwardSingleSeq_cases { c with kv := kv } first.seq (first :: rest).length
              (first :: rest) reserve with h | ⟨h1, h2, h3⟩
            · exact .inl h
            · exact .inr ⟨⟨first.seq, by simp, h1⟩, h2, h3⟩
        · split
          · rename_i hany
            obtain ⟨s, hs, hne⟩ := List.any_eq_true.mp hany
            exact .inl ⟨s, hs, by simpa using hne, rfl⟩
          · rename_i hany
            refine .inr ⟨fun s hs => ?_, _, .inl rfl⟩
            by_contra hne
            exact hany (List.any_eq_true.mpr ⟨s, hs, by simpa using hne⟩)

theorem kept_zeroSlots (c : Recurrent α) (slots : List Nat) : Kept c (c.zeroSlots slots) := by
  unfold zeroSlots
  split
  · exact .refl c
  · exact kept_setRows c _

theorem startForwardMultiSeq_slots {ids : Finset Int} {c : Recurrent α} (h : Slots ids c)
    (hseqs : ∀ s ∈ c.curSeqs, s ∈ ids) (batch : List Token) (reserve : Bool) :
    Slots ids (c.startForwardMultiSeq batch reserve).1 := by
  unfold startForwardMultiSeq
  split
  · refine Slots.kept ?_ (kept_finalizeStartForward _ _ _)
    exact ⟨h.exact, h.within⟩
  · have hf : Slots ids (findSlots c.curSeqs [] { c with curSlots := [] }).1 := by
      refine findSlots_slots ?_ hseqs []
      exact ⟨h.exact, h.within⟩
    split <;> rename_i heq <;> rw [heq] at hf
    · exact hf
    · exact hf.kept ((kept_zeroSlots _ _).trans (kept_finalizeStartForward _ _ _))

theorem startForward_slots {ids : Finset Int} {c : Recurrent α} (h : Slots ids c) {batch : List Token}
    (hseqs : ∀ t ∈ batch, t.seq ∈ ids) (reserve : Bool) : Slots ids (c.startForward batch reserve).1 := by
  have hseqs' : ∀ s ∈ seqsOf batch, s ∈ ids := by
    intro s hs
    obtain ⟨t, ht, rfl⟩ := mem_seqsOf.mp hs
    exact hseqs t ht
  rcases startForward_cases c batch reserve with
    ⟨_, _, -, he⟩ | ⟨_, -, ⟨-, he⟩ | ⟨_, -, -, he⟩ | ⟨-, _, he | ⟨-, -, he⟩⟩⟩ <;> rw [he]
  · exact ⟨h.exact, h.within⟩
  · exact ⟨h.exact, h.within⟩
  · exact ⟨h.exact, h.within⟩
  · refine startForwardMultiSeq_slots ?_ hseqs' batch reserve
    exact ⟨h.exact, h.within⟩
  · exact ⟨h.exact, h.within⟩

theorem startForwardMultiSeq_max (c : Recurrent α) (batch : List Token) (reserve : Bool) :
    (c.startForwardMultiSeq batch reserve).1.maxSequences = c.maxSequences := by
  have hf := findSlots_frame c.curSeqs [] { c with curSlots := [] }
  unfold startForwardMultiSeq
  split
  · exact (kept_finalizeStartForward _ _ _).maxSequences
  · split <;> rename_i heq <;> rw [heq] at hf <;> simp only at hf
    · rw [hf]
    · refine ((kept_zeroSlots _ _).trans (kept_finalizeStartForward _ _ _)).maxSequences.trans ?_
      rw [hf]

theorem startForward_max (c : Recurrent α) (batch : List Token) (reserve : Bool) :
    (c.startForward batch reserve).1.maxSequences = c.maxSequences := by
  rcases startForward_cases c batch reserve with
    ⟨_, _, -, he⟩ | ⟨_, -, ⟨-, he⟩ | ⟨_, -, -, he⟩ | ⟨-, _, he | ⟨-, -, he⟩⟩⟩ <;> rw [he]
  exact startForwardMultiSeq_max _ batch reserve

theorem startForwardMultiSeq_room {ids : Finset Int} {c : Recurrent α} (h : Slots ids c)
    (hcard : ids.card ≤ c.maxSequences) (hseqs : ∀ s ∈ c.curSeqs, s ∈ ids) (batch : List Token)
    (reserve : Bool) : (c.startForwardMultiSeq batch reserve).2 = none := by
  unfold startForwardMultiSeq
  split
  · rfl
  · have hr : (findSlots c.curSeqs [] { c with curSlots := [] }).2.2 = none := by
      refine findSlots_room ?_ ?_ hseqs []
      · exact ⟨h.exact, h.within⟩
      · exact hcard
    split <;> rename_i heq <;> rw [heq] at hr
    · cases hr

/-- `StartForward` never runs out of slots. -/
theorem startForward_room {ids : Finset Int} {c : Recurrent α} (h : Slots ids c)
    (hcard : ids.card ≤ c.maxSequences) {batch : List Token} (hseqs : ∀ t ∈ batch, t.seq ∈ ids)
    (reserve : Bool) : (c.startForward batch reserve).2 ≠ some (.kvCacheFull none) := by
  have hseqs' : ∀ s ∈ seqsOf batch, s ∈ ids := by
    intro s hs
    obtain ⟨t, ht, rfl⟩ := mem_seqsOf.mp hs
    exact hseqs t ht
  rcases startForward_cases c batch reserve with
    ⟨_, err, hkv, he⟩ | ⟨_, -, ⟨-, he⟩ | ⟨_, -, -, he⟩ | ⟨-, _, he | ⟨⟨s, hs, hn⟩, hfree, -⟩⟩⟩
  · rw [he]
    simpa using Causal.startForward_error hkv
  · simp [he]
  · simp [he]
  · have hroom : (c.startForward batch reserve).2 = none := by
      rw [he]
      refine startForwardMultiSeq_room ?_ ?_ hseqs' batch reserve
      · exact ⟨h.exact, h.within⟩
      · exact hcard
    simp [hroom]
  · refine absurd ?_ (h.exact.room_fresh h.within hcard (hseqs' s hs) hn)
    simp [Pool.take, pool, hfree]

end Recurrent

end Xdragon.Kvcache
