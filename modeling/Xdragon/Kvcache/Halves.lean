import Xdragon.Kvcache.Attention
import Xdragon.Kvcache.Writable

/-!
# The two halves of the recurrent cache

A sequence with cells in the attention half should have a slot in the recurrent half. `Remove` of the
start of a sequence breaks this, and so does a `StartForward` that fails in its second half.
-/

open Xdragon.Lib

namespace Xdragon.Kvcache

variable {α : Type}

namespace Recurrent

/-- Every sequence with cells has a slot. -/
def Joined (c : Recurrent α) : Prop :=
  ∀ seq i p, Stores c.kv.cells seq i p → (c.slotForSeq.lookup seq).isSome

/-! ## The forward pass -/

theorem startForwardMultiSeq_kv (c : Recurrent α) (batch : List Token) (reserve : Bool) :
    (c.startForwardMultiSeq batch reserve).1.kv = c.kv := by
  have hf := findSlots_frame c.curSeqs [] { c with curSlots := [] }
  unfold startForwardMultiSeq
  split
  · exact (kept_finalizeStartForward _ _ _).kv
  · split <;> rename_i heq <;> rw [heq] at hf <;> simp only at hf
    · rw [hf]
    · refine ((kept_zeroSlots _ _).trans (kept_finalizeStartForward _ _ _)).kv.trans ?_
      rw [hf]

theorem startForward_kv (c : Recurrent α) (batch : List Token) (reserve : Bool) :
    (c.startForward batch reserve).1.kv = (c.kv.startForward batch reserve).1 := by
  rcases startForward_cases c batch reserve with
    ⟨_, _, hkv, he⟩ | ⟨_, hkv, ⟨-, he⟩ | ⟨_, -, -, he⟩ | ⟨-, _, he | ⟨-, -, he⟩⟩⟩ <;> rw [he, hkv]
  exact startForwardMultiSeq_kv _ batch reserve

/-- A sequence with a slot keeps it. -/
theorem findSlots_keeps {seqs : List Int} {newSlots : List Nat} {c : Recurrent α} {s : Int} {slot : Nat}
    (h : c.slotForSeq.lookup s = some slot) : (findSlots seqs newSlots c).1.slotForSeq.lookup s = some slot := by
  fun_induction findSlots seqs newSlots c with
  | case1 newSlots c => exact h
  | case2 seq rest newSlots c k hs ih => exact ih h
  | case3 seq rest newSlots c hs ha => exact h
  | case4 seq rest newSlots c hs k c' ha ih =>
    apply ih
    have hne : s ≠ seq := by
      rintro rfl
      rw [hs] at h
      cases h
    show (c'.slotForSeq.insert seq k).lookup s = some slot
    rw [AList.lookup_insert_ne hne, allocSlot_frame ha]
    exact h

theorem findSlots_has {seqs : List Int} {newSlots : List Nat} {c : Recurrent α}
    (h : (findSlots seqs newSlots c).2.2 = none) :
    ∀ s ∈ seqs, ((findSlots seqs newSlots c).1.slotForSeq.lookup s).isSome := by
  fun_induction findSlots seqs newSlots c with
  | case1 newSlots c => exact fun s hs => absurd hs List.not_mem_nil
  | case2 seq rest newSlots c k hs ih =>
    intro s hmem
    rcases List.mem_cons.mp hmem with rfl | hmem
    · refine Option.isSome_iff_exists.mpr ⟨k, findSlots_keeps ?_⟩
      exact hs
    · exact ih h s hmem
  | case3 seq rest newSlots c hs ha => cases h
  | case4 seq rest newSlots c hs k c' ha ih =>
    intro s hmem
    rcases List.mem_cons.mp hmem with rfl | hmem
    · refine Option.isSome_iff_exists.mpr ⟨k, findSlots_keeps ?_⟩
      exact AList.lookup_insert c'.slotForSeq
    · exact ih h s hmem

/-- The sequences that need a new slot. -/
def newSeqs (c : Recurrent α) (seqs : List Int) : List Int :=
  seqs.filter fun s => (c.slotForSeq.lookup s).isNone

/-- Enough free slots are enough. -/
theorem findSlots_enough {seqs : List Int} {newSlots : List Nat} {c : Recurrent α} (hnd : seqs.Nodup)
    (h : (newSeqs c seqs).length ≤ c.freeSlots.length) : (findSlots seqs newSlots c).2.2 = none := by
  fun_induction findSlots seqs newSlots c with
  | case1 newSlots c => rfl
  | case2 seq rest newSlots c k hs ih =>
    refine ih hnd.of_cons ?_
    simpa [newSeqs, hs] using h
  | case3 seq rest newSlots c hs ha =>
    have : c.freeSlots = [] := by
      simpa [allocSlot] using ha
    simp [newSeqs, hs, this] at h
  | case4 seq rest newSlots c hs k c' ha ih =>
    refine ih hnd.of_cons ?_
    obtain ⟨hnot, -⟩ := List.nodup_cons.mp hnd
    have hnew : newSeqs { c'.useSlot seq k with curSlots := c'.curSlots ++ [k] } rest = newSeqs c rest := by
      refine List.filter_congr fun s hs' => ?_
      have hne : s ≠ seq := fun he => hnot (he ▸ hs')
      show ((c'.slotForSeq.insert seq k).lookup s).isNone = _
      rw [AList.lookup_insert_ne hne, allocSlot_frame ha]
    have hlen : c.freeSlots.length = c'.freeSlots.length + 1 := by
      obtain ⟨k', hl, he⟩ := Option.map_eq_some_iff.mp ha
      obtain ⟨-, rfl⟩ := Prod.mk.inj he
      have hne : c.freeSlots ≠ [] := fun hx => by rw [hx] at hl; cases hl
      have := List.length_pos_iff.mpr hne
      simp only [List.length_dropLast]
      omega
    rw [hnew]
    have hlen' : (newSeqs c (seq :: rest)).length = (newSeqs c rest).length + 1 := by
      simp [newSeqs, hs]
    show (newSeqs c rest).length ≤ c'.freeSlots.length
    omega

theorem Kept.slotForSeq {c c' : Recurrent α} (h : Kept c c') : c'.slotForSeq = c.slotForSeq :=
  congrArg Pool.slot h.pool

theorem startForwardMultiSeq_slotForSeq (c : Recurrent α) (batch : List Token) (reserve : Bool) :
    (c.startForwardMultiSeq batch reserve).1.slotForSeq =
      if reserve then c.slotForSeq else (findSlots c.curSeqs [] { c with curSlots := [] }).1.slotForSeq := by
  unfold startForwardMultiSeq
  split
  · exact (kept_finalizeStartForward _ _ _).slotForSeq
  · split <;> rename_i heq <;> rw [heq]
    exact ((kept_zeroSlots _ _).trans (kept_finalizeStartForward _ _ _)).slotForSeq

theorem startForward_keeps {c : Recurrent α} {s : Int} {slot : Nat} (h : c.slotForSeq.lookup s = some slot)
    (batch : List Token) (reserve : Bool) :
    (c.startForward batch reserve).1.slotForSeq.lookup s = some slot := by
  rcases startForward_cases c batch reserve with
    ⟨_, _, -, he⟩ | ⟨_, -, ⟨-, he⟩ | ⟨_, -, -, he⟩ | ⟨-, _, he | ⟨-, -, he⟩⟩⟩ <;> rw [he]
  · exact h
  · exact h
  · exact h
  · rw [startForwardMultiSeq_slotForSeq]
    split
    · exact h
    · exact findSlots_keeps h
  · exact h

/-- When the second half of `StartForward` cannot fail. -/
def Fits (c : Recurrent α) (batch : List Token) : Prop :=
  (∀ s ∈ seqsOf batch, countOf batch s = batch.length / (seqsOf batch).length) ∧
    (newSeqs c (seqsOf batch)).length ≤ c.freeSlots.length

instance (c : Recurrent α) (batch : List Token) : Decidable (Fits c batch) := by
  unfold Fits; infer_instance

theorem startForward_has {c : Recurrent α} {batch : List Token} (hfits : Fits c batch)
    (hkv : (c.kv.startForward batch false).2 = none) :
    ∀ t ∈ batch, ((c.startForward batch false).1.slotForSeq.lookup t.seq).isSome := by
  intro t ht
  have hmem := mem_seqsOf.mpr ⟨t, ht, rfl⟩
  rcases startForward_cases c batch false with
    ⟨_, _, hkv', -⟩ | ⟨kv, -, ⟨rfl, -⟩ | ⟨s, hs, hne, -⟩ | ⟨-, n, he | ⟨⟨s, hs, hnone⟩, hfree, -⟩⟩⟩
  · rw [hkv'] at hkv
    cases hkv
  · cases ht
  · exact absurd (hfits.1 s hs) hne
  · rw [he, startForwardMultiSeq_slotForSeq]
    refine findSlots_has (findSlots_enough (seqsOf_nodup batch) ?_) t.seq hmem
    exact hfits.2
  · have hin : s ∈ newSeqs c (seqsOf batch) := List.mem_filter.mpr ⟨hs, by simp [hnone]⟩
    have := List.length_pos_of_mem hin
    have := hfits.2
    rw [hfree, List.length_nil] at this
    omega

/-! ## Removals -/

theorem detach_isSome {c c' : Recurrent α} {seq : Int} {slot newSlot : Nat}
    (h : c.detach seq slot = some (newSlot, c')) (hs : c.slotForSeq.lookup seq = some slot) (s : Int) :
    (c'.slotForSeq.lookup s).isSome = (c.slotForSeq.lookup s).isSome := by
  obtain ⟨_, -, -, -, -, -, hslots⟩ := detach_spec h
  rw [hslots]
  by_cases he : s = seq
  · subst he
    rw [AList.lookup_insert, hs]
    rfl
  · rw [AList.lookup_insert_ne he]

theorem kept_shiftCheckpoints (c : Recurrent α) (slot : Nat) (beginIndex endIndex : Int) :
    Kept c (c.shiftCheckpoints slot beginIndex endIndex) :=
  kept_onStore c slot _

/-- A `Remove` in the middle that succeeds. -/
theorem removeMiddle_ok {c : Recurrent α} {seq beginIndex endIndex : Int} {fails : Nat → Nat → Nat → Bool}
    (hok : (c.removeMiddle seq beginIndex endIndex fails).2 = none) :
    (c.removeMiddle seq beginIndex endIndex fails).1.kv = (c.kv.remove seq beginIndex endIndex fails).1 ∧
      ∀ s, ((c.removeMiddle seq beginIndex endIndex fails).1.slotForSeq.lookup s).isSome =
        (c.slotForSeq.lookup s).isSome := by
  unfold removeMiddle at hok ⊢
  cases hkv : c.kv.remove seq beginIndex endIndex fails with
  | mk kv err =>
    cases err with
    | some err =>
      rw [hkv] at hok
      cases hok
    | none =>
      simp only [hkv] at hok ⊢
      cases hs : c.slotForSeq.lookup seq with
      | none => exact ⟨rfl, fun _ => rfl⟩
      | some slot =>
        simp only [hs] at hok ⊢
        split
        · exact ⟨rfl, fun _ => rfl⟩
        · split
          · cases hd : detach { c with kv := kv, pendingRestore := c.pendingRestore.erase seq } seq slot with
            | none => exact ⟨rfl, fun _ => rfl⟩
            | some e =>
              obtain ⟨newSlot, c₁⟩ := e
              have hk := kept_shiftCheckpoints c₁ newSlot beginIndex endIndex
              obtain ⟨_, -, -, -, hkv₁, -⟩ := detach_spec hd
              refine ⟨hk.kv.trans hkv₁, fun s => ?_⟩
              dsimp only
              rw [hk.slotForSeq]
              exact detach_isSome hd hs s
          · have hk := kept_shiftCheckpoints { c with kv := kv, pendingRestore := c.pendingRestore.erase seq } slot
              beginIndex endIndex
            refine ⟨hk.kv, fun s => ?_⟩
            dsimp only
            rw [hk.slotForSeq]

/-- A `Remove` of the end that succeeds. -/
theorem removeTail_ok {c : Recurrent α} {seq beginIndex endIndex : Int} {fails : Nat → Nat → Nat → Bool}
    (hok : (c.removeTail seq beginIndex endIndex fails).2 = none) :
    ∃ restore c₁ kv, c.pendingRestore.lookup seq = some restore ∧ restore.pos + 1 = beginIndex ∧
      (c.restoreEntry restore).isSome ∧ c.detachToRestore seq restore = some c₁ ∧
      c₁.kv.remove seq beginIndex endIndex fails = (kv, none) ∧
      c.removeTail seq beginIndex endIndex fails =
        { c₁ with kv := kv, pendingRestore := c₁.pendingRestore.erase seq }.applyCheckpointRestore
          ((c₁.pendingRestore.lookup seq).getD default) := by
  unfold removeTail at hok ⊢
  cases hr : c.pendingRestore.lookup seq with
  | none =>
    rw [hr] at hok
    cases hok
  | some restore =>
    simp only [hr] at hok ⊢
    by_cases hcond : restore.pos + 1 ≠ beginIndex ∨ (c.restoreEntry restore).isNone = true
    · simp only [hcond, if_true] at hok
      cases hok
    · simp only [hcond, if_false] at hok ⊢
      rw [not_or, not_not] at hcond
      cases hd : c.detachToRestore seq restore with
      | none =>
        rw [hd] at hok
        cases hok
      | some c₁ =>
        simp only [hd] at hok ⊢
        cases hkv : c₁.kv.remove seq beginIndex endIndex fails with
        | mk kv err =>
          cases err with
          | some err =>
            rw [hkv] at hok
            cases hok
          | none =>
            refine ⟨restore, c₁, kv, rfl, hcond.1, ?_, hd, hkv, rfl⟩
            simpa [Option.isSome_iff_ne_none] using hcond.2

theorem detachToRestore_kv {c c' : Recurrent α} {seq : Int} {restore : CheckpointRestore}
    (h : c.detachToRestore seq restore = some c') :
    c'.kv = c.kv ∧ ∀ s, (c'.slotForSeq.lookup s).isSome = (c.slotForSeq.lookup s).isSome := by
  unfold detachToRestore at h
  split at h
  · cases h
    exact ⟨rfl, fun _ => rfl⟩
  · rename_i slot hs
    split at h
    · obtain ⟨⟨newSlot, c₁⟩, hd, rfl⟩ := Option.map_eq_some_iff.mp h
      obtain ⟨_, -, -, -, hkv, -⟩ := detach_spec hd
      exact ⟨hkv, fun s => detach_isSome hd hs s⟩
    · cases h
      exact ⟨rfl, fun _ => rfl⟩

/-- A `Remove` from the start that succeeds. -/
theorem removeAll_ok {c : Recurrent α} {seq beginIndex endIndex : Int} {fails : Nat → Nat → Nat → Bool}
    (hok : (c.removeAll seq beginIndex endIndex fails).2 = none) :
    (c.kv.remove seq beginIndex endIndex fails).2 = none ∧
      (c.removeAll seq beginIndex endIndex fails).1.kv = (c.kv.remove seq beginIndex endIndex fails).1 ∧
      ∀ s, s ≠ seq → (c.removeAll seq beginIndex endIndex fails).1.slotForSeq.lookup s = c.slotForSeq.lookup s := by
  unfold removeAll at hok ⊢
  cases hkv : c.kv.remove seq beginIndex endIndex fails with
  | mk kv err =>
    cases err with
    | some err =>
      rw [hkv] at hok
      cases hok
    | none =>
      refine ⟨rfl, ?_⟩
      dsimp only
      cases hs : c.slotForSeq.lookup seq with
      | none => exact ⟨rfl, fun _ _ => rfl⟩
      | some slot =>
        dsimp only
        split
        · exact ⟨rfl, fun s hne => AList.lookup_erase_ne hne⟩
        · rw [releaseSlot_frame]
          exact ⟨rfl, fun s hne => AList.lookup_erase_ne hne⟩

/-- What a successful `Remove` does to both halves. -/
theorem remove_ok {c : Recurrent α} {seq beginIndex endIndex : Int} {fails : Nat → Nat → Nat → Bool}
    (hok : (c.remove seq beginIndex endIndex fails).2 = none) :
    (c.remove seq beginIndex endIndex fails).1.kv = (c.kv.remove seq beginIndex endIndex fails).1 ∧
      ((0 < beginIndex ∧ ∀ s, ((c.remove seq beginIndex endIndex fails).1.slotForSeq.lookup s).isSome =
        (c.slotForSeq.lookup s).isSome) ∨
      (beginIndex ≤ 0 ∧ (c.kv.remove seq beginIndex endIndex fails).2 = none ∧ ∀ s, s ≠ seq →
        (c.remove seq beginIndex endIndex fails).1.slotForSeq.lookup s = c.slotForSeq.lookup s)) := by
  by_cases h0 : 0 < beginIndex
  · by_cases hend : endIndex ≠ maxInt32
    · have hr : c.remove seq beginIndex endIndex fails = c.removeMiddle seq beginIndex endIndex fails :=
        if_pos ⟨h0, hend⟩
      rw [hr] at hok ⊢
      obtain ⟨h1, h2⟩ := removeMiddle_ok hok
      exact ⟨h1, .inl ⟨h0, h2⟩⟩
    · have hr : c.remove seq beginIndex endIndex fails = c.removeTail seq beginIndex endIndex fails :=
        (if_neg fun h => hend h.2).trans (if_pos h0)
      rw [hr] at hok ⊢
      obtain ⟨restore, c₁, kv, -, -, -, hd, hkv, he⟩ := removeTail_ok hok
      obtain ⟨hkv₁, hslots⟩ := detachToRestore_kv hd
      have hk := kept_applyCheckpointRestore { c₁ with kv := kv, pendingRestore := c₁.pendingRestore.erase seq }
        ((c₁.pendingRestore.lookup seq).getD default)
      rw [← he] at hk
      rw [hkv₁] at hkv
      refine ⟨hk.kv.trans (by rw [hkv]), .inl ⟨h0, fun s => ?_⟩⟩
      rw [hk.slotForSeq]
      exact hslots s
  · have hr : c.remove seq beginIndex endIndex fails = c.removeAll seq beginIndex endIndex fails :=
      (if_neg fun h => h0 h.1).trans (if_neg h0)
    rw [hr] at hok ⊢
    obtain ⟨h1, h2, h3⟩ := removeAll_ok hok
    exact ⟨h2, .inr ⟨by omega, h1, h3⟩⟩

/-! ## Copies -/

theorem copyPrefix_spec {ids : Finset Int} {c : Recurrent α} (h : Slots ids c) {srcSeq dstSeq : Int}
    (hne : srcSeq ≠ dstSeq) (prefixLen : Int) :
    (c.copyPrefix srcSeq dstSeq prefixLen).kv = c.kv.copyPrefix srcSeq dstSeq prefixLen ∧
      ∀ s, (c.copyPrefix srcSeq dstSeq prefixLen).slotForSeq.lookup s =
        if s = dstSeq then c.slotForSeq.lookup srcSeq else c.slotForSeq.lookup s := by
  have hl := leaveSlot_spec (c := { c with kv := c.kv.copyPrefix srcSeq dstSeq prefixLen })
    ⟨h.exact, h.within⟩ dstSeq
  unfold copyPrefix
  dsimp only
  generalize { c with kv := c.kv.copyPrefix srcSeq dstSeq prefixLen }.leaveSlot dstSeq = c₁ at hl
  obtain ⟨h₁, -, hkv, hslots⟩ := hl
  have hsrc : c₁.slotForSeq.lookup srcSeq = c.slotForSeq.lookup srcSeq := by
    rw [hslots, AList.lookup_erase_ne hne]
  have hother : ∀ s, s ≠ dstSeq → c₁.slotForSeq.lookup s = c.slotForSeq.lookup s := by
    intro s hs
    rw [hslots, AList.lookup_erase_ne hs]
  have hgone : c₁.slotForSeq.lookup dstSeq = none := by rw [hslots, AList.lookup_erase]
  cases hs : c₁.slotForSeq.lookup srcSeq with
  | none =>
    refine ⟨hkv, fun s => ?_⟩
    by_cases he : s = dstSeq
    · rw [if_pos he, ← hsrc, hs, he]
      exact hgone
    · rw [if_neg he]
      exact hother s he
  | some slot =>
    simp only [(h₁.valid hs).2, if_true]
    refine ⟨hkv, fun s => ?_⟩
    by_cases he : s = dstSeq
    · rw [if_pos he, he, AList.lookup_insert, ← hsrc, hs]
    · rw [if_neg he, AList.lookup_insert_ne he]
      exact hother s he

/-! ## Runs -/

/-- The calls that the two halves should survive. -/
def Proper (c : Recurrent α) : Op α → Prop
  | .copyPrefix srcSeq dstSeq _ => srcSeq ≠ dstSeq
  | .remove seq beginIndex endIndex fails =>
    0 ≤ beginIndex ∧ beginIndex < endIndex ∧ endIndex ≤ maxInt32 ∧
      (c.remove seq beginIndex endIndex fails).2 = none
  | _ => True

instance (c : Recurrent α) (op : Op α) : Decidable (Proper c op) :=
  match op with
  | .copyPrefix .. => inferInstanceAs (Decidable (_ ≠ _))
  | .remove .. => inferInstanceAs (Decidable (_ ∧ _))
  | .startForward .. | .ensureWritable | .updateState .. | .prepareRestore .. => inferInstanceAs (Decidable True)

/-- The calls that do not part the halves: a new sequence only comes in a batch that the second half of
`StartForward` accepts, and `Remove` from the start takes everything that is stored. -/
def Careful (c : Recurrent α) : Op α → Prop
  | .startForward batch reserve =>
    reserve = true ∨ (c.kv.startForward batch false).2 ≠ none ∨
      (∀ t ∈ batch, (c.slotForSeq.lookup t.seq).isSome) ∨ Fits c batch
  | .remove seq beginIndex endIndex _ =>
    beginIndex = 0 → ∀ cell ∈ c.kv.cells, seq ∈ cell.sequences → 0 ≤ cell.pos ∧ cell.pos < endIndex
  | _ => True

instance (c : Recurrent α) (op : Op α) : Decidable (Careful c op) :=
  match op with
  | .startForward .. => inferInstanceAs (Decidable (_ ∨ _))
  | .remove .. => inferInstanceAs (Decidable (_ → _))
  | .ensureWritable | .updateState .. | .copyPrefix .. | .prepareRestore .. => inferInstanceAs (Decidable True)

theorem initial_kv {c : Recurrent α} (h : Initial c) : Causal.Initial c.kv ∧ c.slotForSeq = ∅ := by
  obtain ⟨_, _, _, _, _, n, _, _, h⟩ := h
  obtain ⟨kv, hkv, rfl⟩ := Option.map_eq_some_iff.mp h
  exact ⟨⟨_, _, _, _, hkv⟩, rfl⟩

/-- The calls name finitely many sequences. -/
theorem exists_uses {c : Recurrent α} {op : Op α} (h : Proper c op) : ∃ ids, Uses ids op := by
  cases op with
  | startForward batch reserve =>
    exact ⟨(batch.map (·.seq)).toFinset, fun t ht => by simpa using ⟨t, ht, rfl⟩⟩
  | ensureWritable => exact ⟨∅, trivial⟩
  | updateState b src => exact ⟨∅, trivial⟩
  | copyPrefix srcSeq dstSeq prefixLen => exact ⟨{srcSeq, dstSeq}, h, by simp, by simp⟩
  | prepareRestore seq targetPos => exact ⟨{seq}, by simp [Uses]⟩
  | remove seq beginIndex endIndex fails => exact ⟨{seq}, by simp [Uses]⟩

theorem Uses.mono {ids ids' : Finset Int} (hsub : ids ⊆ ids') {op : Op α} (h : Uses ids op) : Uses ids' op := by
  cases op with
  | startForward batch reserve => exact fun t ht => hsub (h t ht)
  | ensureWritable => trivial
  | updateState b src => trivial
  | copyPrefix srcSeq dstSeq prefixLen => exact ⟨h.1, hsub h.2.1, hsub h.2.2⟩
  | prepareRestore seq targetPos => exact hsub h
  | remove seq beginIndex endIndex fails => exact hsub h

/-- What every state of a proper run has: some sequences own the slots, and the ranges cover the cells. -/
structure Healthy (c : Recurrent α) : Prop where
  slots : ∃ ids, Slots ids c
  ranged : Causal.Ranged c.kv

theorem healthy_initial {c : Recurrent α} (h : Initial c) : Healthy c :=
  ⟨⟨∅, slots_initial h ∅⟩, (Causal.sound_initial (initial_kv h).1).ranged⟩

theorem ranged_startForward {c : Causal α} (h : Causal.Ranged c) (batch : List Token) (reserve : Bool) :
    Causal.Ranged (c.startForward batch reserve).1 := by
  cases reserve with
  | true => exact ⟨h.covers, h.below⟩
  | false =>
    rcases Causal.startForward_cases h batch with ⟨c', err, he, hw⟩ | ⟨c', he, hf⟩
    · rw [he]
      exact hw.ranged
    · rw [he]
      exact hf.ranged

/-- The attention half of a call. -/
theorem kv_of_apply {c c' : Recurrent α} {op : Op α} {err : Option CacheError} (h : Healthy c)
    (hp : Proper c op) (hs : c.apply op = some (c', err)) :
    match op with
    | .startForward batch reserve => c'.kv = (c.kv.startForward batch reserve).1
    | .copyPrefix srcSeq dstSeq prefixLen => c'.kv = c.kv.copyPrefix srcSeq dstSeq prefixLen
    | .remove seq beginIndex endIndex fails => c'.kv = (c.kv.remove seq beginIndex endIndex fails).1
    | _ => c'.kv = c.kv := by
  obtain ⟨ids, hslots⟩ := h.slots
  cases op with
  | startForward batch reserve =>
    have hs : c.startForward batch reserve = (c', err) := Option.some.inj hs
    have := startForward_kv c batch reserve
    rwa [hs] at this
  | ensureWritable => exact (ensureWritableLoop_spec hslots hs).2.1.kv
  | updateState b src =>
    obtain ⟨c₁, hc, he⟩ := Option.map_eq_some_iff.mp hs
    obtain ⟨rfl, -⟩ := Prod.mk.inj he
    exact (kept_updateState hc).kv
  | copyPrefix srcSeq dstSeq prefixLen =>
    obtain ⟨rfl, -⟩ := Prod.mk.inj (Option.some.inj hs)
    exact (copyPrefix_spec hslots hp prefixLen).1
  | prepareRestore seq targetPos =>
    obtain ⟨rfl, -⟩ := Prod.mk.inj (Option.some.inj hs)
    exact (kept_prepareRestore c seq targetPos).kv
  | remove seq beginIndex endIndex fails =>
    have hs : c.remove seq beginIndex endIndex fails = (c', err) := Option.some.inj hs
    have := (remove_ok hp.2.2.2).1
    rwa [hs] at this

theorem healthy_step {c c' : Recurrent α} {op : Op α} {err : Option CacheError} (h : Healthy c)
    (hp : Proper c op) (hs : c.apply op = some (c', err)) : Healthy c' := by
  constructor
  · obtain ⟨ids, hslots⟩ := h.slots
    obtain ⟨ids', hu⟩ := exists_uses hp
    have hslots' : Slots (ids ∪ ids') c :=
      ⟨hslots.exact, fun s k hk => Finset.mem_union_left _ (hslots.within s k hk)⟩
    exact ⟨_, (slots_step hslots' (hu.mono Finset.subset_union_right) hs).1⟩
  · have hkv := kv_of_apply h hp hs
    cases op with
    | startForward batch reserve => exact hkv ▸ ranged_startForward h.ranged batch reserve
    | ensureWritable => exact hkv ▸ h.ranged
    | updateState b src => exact hkv ▸ h.ranged
    | copyPrefix srcSeq dstSeq prefixLen => exact hkv ▸ Causal.copyPrefix_ranged h.ranged hp
    | prepareRestore seq targetPos => exact hkv ▸ h.ranged
    | remove seq beginIndex endIndex fails => exact hkv ▸ Causal.remove_ranged h.ranged ..

/-- A `StartForward` that keeps the halves together. -/
theorem joined_startForward {c : Recurrent α} (h : Healthy c) (hj : Joined c) {batch : List Token}
    {reserve : Bool} (hc : Careful c (.startForward batch reserve)) :
    Joined (c.startForward batch reserve).1 := by
  intro seq i p hst
  rw [startForward_kv] at hst
  have hold : ∀ s i p, Stores c.kv.cells s i p →
      ((c.startForward batch reserve).1.slotForSeq.lookup s).isSome := by
    intro s i p hs
    obtain ⟨slot, hslot⟩ := Option.isSome_iff_exists.mp (hj s i p hs)
    exact Option.isSome_iff_exists.mpr ⟨slot, startForward_keeps hslot batch reserve⟩
  cases reserve with
  | true => exact hold seq i p hst
  | false =>
    rcases Causal.startForward_cases h.ranged batch with ⟨kv, err, hkv, hw⟩ | ⟨kv, hkv, hf⟩
    · rw [hkv] at hst
      exact hold seq i p (hw.sub seq i p hst)
    · rw [hkv] at hst
      obtain ⟨old, hsub, -, -, hstores⟩ := hf.kept
      rcases (hstores seq i p).mp hst with hst | ⟨e, he, rfl, -, -⟩
      · exact hold seq i p (hsub seq i p hst)
      · have hmem : e.1 ∈ batch := (List.of_mem_zip he).1
        rcases hc with hc | hc | hc | hc
        · cases hc
        · exact absurd (by rw [hkv]) hc
        · obtain ⟨slot, hslot⟩ := Option.isSome_iff_exists.mp (hc e.1 hmem)
          exact Option.isSome_iff_exists.mpr ⟨slot, startForward_keeps hslot batch false⟩
        · exact startForward_has hc (by rw [hkv]) e.1 hmem

/-- A `Remove` that keeps the halves together. -/
theorem joined_remove {c : Recurrent α} (hj : Joined c) {seq beginIndex endIndex : Int}
    {fails : Nat → Nat → Nat → Bool} (hp : Proper c (.remove seq beginIndex endIndex fails))
    (hc : Careful c (.remove seq beginIndex endIndex fails)) :
    Joined (c.remove seq beginIndex endIndex fails).1 := by
  obtain ⟨h0, -, -, hok⟩ := hp
  obtain ⟨hkv, hslots⟩ := remove_ok hok
  intro s i p hst
  rw [hkv] at hst
  by_cases hs : s = seq
  · subst hs
    rcases hslots with ⟨hpos, hslots⟩ | ⟨hle, hok', -⟩
    · obtain ⟨q, hq⟩ := Causal.remove_stores_was hst
      rw [hslots]
      exact hj s i q hq
    · -- Everything that is stored goes, so nothing is left.
      obtain ⟨q, ⟨cell, hcell, hmem, rfl⟩, hq, -⟩ := (Causal.remove_stores_self hok' i p).mp hst
      have := hc (by omega) cell (List.mem_of_getElem? hcell) hmem
      omega
  · rw [Causal.remove_stores_other _ _ _ _ hs] at hst
    have := hj s i p hst
    rcases hslots with ⟨-, hslots⟩ | ⟨-, -, hslots⟩
    · rw [hslots]
      exact this
    · rw [hslots s hs]
      exact this

theorem joined_step {c c' : Recurrent α} {op : Op α} {err : Option CacheError} (h : Healthy c) (hj : Joined c)
    (hp : Proper c op) (hc : Careful c op) (hs : c.apply op = some (c', err)) : Joined c' := by
  obtain ⟨ids, hslots⟩ := h.slots
  cases op with
  | startForward batch reserve =>
    have hs : c.startForward batch reserve = (c', err) := Option.some.inj hs
    have := joined_startForward h hj hc
    rwa [hs] at this
  | ensureWritable =>
    have hw := (ensureWritableLoop_spec hslots hs).2.1
    intro seq i p hst
    rw [hw.kv] at hst
    rw [hw.had]
    exact hj seq i p hst
  | updateState b src =>
    obtain ⟨c₁, hc, he⟩ := Option.map_eq_some_iff.mp hs
    obtain ⟨rfl, -⟩ := Prod.mk.inj he
    have hk := kept_updateState hc
    intro seq i p hst
    rw [hk.kv] at hst
    rw [hk.slotForSeq]
    exact hj seq i p hst
  | copyPrefix srcSeq dstSeq prefixLen =>
    obtain ⟨rfl, -⟩ := Prod.mk.inj (Option.some.inj hs)
    obtain ⟨hkv, hlook⟩ := copyPrefix_spec hslots hp prefixLen
    intro seq i p hst
    rw [hkv, Causal.copyPrefix_stores hp] at hst
    rw [hlook]
    split at hst <;> rename_i he
    · rw [if_pos he]
      exact hj srcSeq i p hst.1
    · rw [if_neg he]
      exact hj seq i p hst
  | prepareRestore seq targetPos =>
    obtain ⟨rfl, -⟩ := Prod.mk.inj (Option.some.inj hs)
    have hk := kept_prepareRestore c seq targetPos
    intro seq i p hst
    rw [hk.kv] at hst
    rw [hk.slotForSeq]
    exact hj seq i p hst
  | remove seq beginIndex endIndex fails =>
    have hs : c.remove seq beginIndex endIndex fails = (c', err) := Option.some.inj hs
    have := joined_remove hj hp hc
    rwa [hs] at this

/-- In a run of careful calls, no sequence has cells without a slot. -/
theorem halves_joined {c : Recurrent α}
    (h : Reaches step (fun c op => Proper c op ∧ Careful c op) Initial c) : Joined c := by
  have hinv : Healthy c ∧ Joined c := by
    refine h.invariant (I := fun c => Healthy c ∧ Joined c) (fun c hc => ⟨healthy_initial hc, ?_⟩) ?_
    · intro seq i p hst
      obtain ⟨c₀, _, _, _, hkv⟩ := (initial_kv hc).1
      exact absurd hst ((Causal.init_empty hkv).1 seq i p)
    · rintro c op c' ⟨hh, hj⟩ ⟨hp, hc⟩ hs
      obtain ⟨⟨c₁, err⟩, ha, rfl⟩ := Option.map_eq_some_iff.mp hs
      exact ⟨healthy_step hh hp ha, joined_step hh hj hp hc ha⟩
  exact hinv.2

/-- A fork, a restore from a checkpoint and removals of whole sequences. -/
def carefulRun : List (Op Nat) :=
  [.startForward [⟨0, 0⟩, ⟨0, 1⟩] false, .updateState ⟨0, .conv⟩ [[7, 8]], .copyPrefix 0 1 2,
    .prepareRestore 0 2, .remove 0 2 maxInt32 fun _ _ _ => false, .startForward [⟨0, 2⟩, ⟨1, 2⟩] false,
    .ensureWritable, .remove 1 0 3 fun _ _ _ => false]

theorem carefulRun_joined : ∃ c : Recurrent Nat,
    Reaches step (fun c op => Proper c op ∧ Careful c op) Initial c ∧ Joined c := by
  let c₀ := (init { (newRecurrentCache true : Recurrent Nat) with checkpointMinPos := 1 } 2 8 4).get
    (by decide)
  let c := (exec step c₀ carefulRun).get (by decide)
  have hc : Reaches step (fun c op => Proper c op ∧ Careful c op) Initial c :=
    reaches_of_exec (Reaches.init ⟨true, 0, 32, 1, 1280, 2, 8, 4, (Option.some_get _).symm⟩) (by decide)
      (Option.some_get _).symm
  exact ⟨c, hc, halves_joined hc⟩

/-- A context shift that keeps nothing at the start: three tokens, and the first one is dropped. -/
def shiftedRun : List (Op Nat) :=
  [.startForward [⟨0, 0⟩, ⟨0, 1⟩, ⟨0, 2⟩] false, .updateState ⟨0, .conv⟩ [[7, 8, 9]],
    .remove 0 0 1 fun _ _ _ => false]

/-- After it the sequence has two cells and no slot. -/
theorem shiftedRun_parted : ∃ c : Recurrent Nat, Reaches step Proper Initial c ∧
    Stores c.kv.cells 0 1 0 ∧ Stores c.kv.cells 0 2 1 ∧ c.slotForSeq.lookup 0 = none ∧ ¬ Joined c := by
  let c₀ := ((newRecurrentCache true : Recurrent Nat).init 2 8 4).get (by decide)
  let c := (exec step c₀ shiftedRun).get (by decide)
  have hc : Reaches step Proper Initial c :=
    reaches_of_exec (Reaches.init ⟨true, 0, 32, 16, 1280, 2, 8, 4, (Option.some_get _).symm⟩) (by decide)
      (Option.some_get _).symm
  have hst : Stores c.kv.cells 0 1 0 := by decide
  have hnone : c.slotForSeq.lookup 0 = none := by decide
  refine ⟨c, hc, hst, by decide, hnone, fun hj => ?_⟩
  have := hj 0 1 0 hst
  rw [hnone] at this
  cases this

end Recurrent

end Xdragon.Kvcache
