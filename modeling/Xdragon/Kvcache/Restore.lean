import Xdragon.Kvcache.Sourced

/-!
# Going back to a checkpoint

`PrepareRestore` picks a checkpoint of the slot, and `Remove` of the end writes it back.
-/

open Xdragon.Lib

namespace Xdragon.Kvcache

variable {α : Type}

namespace SlotCheckpointStore

/-! ## Stores -/

/-- The chosen entry is below the target. -/
theorem bestIndex_spec {s : SlotCheckpointStore α} {target pos : Int} {idx : Nat}
    (h : s.bestIndex target = some (idx, pos)) :
    ∃ e, s.entries[idx]? = some e ∧ e.pos = pos ∧ 0 ≤ pos ∧ pos < target := by
  have hfold : ∀ (es : List (CheckpointEntry α × Nat)) (best : Option (Nat × Int)),
      es.foldl (betterIndex target) best = some (idx, pos) →
      best = some (idx, pos) ∨ ∃ e ∈ es, e.2 = idx ∧ e.1.pos = pos ∧ 0 ≤ pos ∧ pos < target := by
    intro es
    induction es with
    | nil => exact fun best h => .inl h
    | cons e es ih =>
      intro best h
      rcases ih _ h with hb | ⟨f, hf, hrest⟩
      · unfold betterIndex at hb
        have hnew : some (e.2, e.1.pos) = some (idx, pos) → ¬ (e.1.pos < 0 ∨ target ≤ e.1.pos) →
            ∃ f ∈ e :: es, f.2 = idx ∧ f.1.pos = pos ∧ 0 ≤ pos ∧ pos < target := by
          intro he hcond
          obtain ⟨h1, h2⟩ := Prod.mk.inj (Option.some.inj he)
          exact ⟨e, by simp, h1, h2, by omega, by omega⟩
        split at hb
        · exact .inl hb
        · rename_i hcond
          split at hb
          · exact .inr (hnew hb hcond)
          · split at hb
            · exact .inr (hnew hb hcond)
            · exact .inl hb
      · exact .inr ⟨f, List.mem_cons_of_mem _ hf, hrest⟩
  rcases hfold _ _ h with hn | ⟨e, he, hi, hp, h0, hlt⟩
  · cases hn
  · subst hi
    exact ⟨e.1, List.mem_zipIdx_iff_getElem?.mp he, hp, h0, hlt⟩

theorem minIdx_lt {entries : List (CheckpointEntry α)} (h : entries ≠ []) : minIdx entries < entries.length := by
  have hfold : ∀ (es : List (CheckpointEntry α × Nat)) (best : Int × Nat), best.2 < entries.length →
      (∀ e ∈ es, e.2 < entries.length) → (es.foldl (fun (best : Int × Nat) e =>
        if 0 ≤ e.1.pos ∧ e.1.pos < best.1 then (e.1.pos, e.2) else best) best).2 < entries.length := by
    intro es
    induction es with
    | nil => exact fun best h _ => h
    | cons e es ih =>
      intro best hbest hes
      refine ih _ ?_ fun f hf => hes f (List.mem_cons_of_mem _ hf)
      dsimp only
      split
      · exact hes e (by simp)
      · exact hbest
  refine hfold _ _ (List.length_pos_iff.mpr h) fun e he => ?_
  exact (List.getElem?_eq_some_iff.mp (List.mem_zipIdx_iff_getElem?.mp he)).1

theorem ring_recount (entries : List (CheckpointEntry α)) (lastPos : Int) :
    Recurrent.Ring entries.length (recount entries lastPos) := by
  unfold recount
  dsimp only
  split
  · rename_i h0
    refine ⟨rfl, fun _ e he => ?_, id⟩
    have := List.countP_eq_zero.mp h0 e he
    simpa using this
  · rename_i h0
    refine ⟨rfl, fun h => absurd h h0, fun hpos => ?_⟩
    cases hf : entries.findIdx? fun e => e.pos < 0 with
    | some i => exact (List.findIdx?_eq_some_iff_getElem.mp hf).1
    | none => exact minIdx_lt (List.length_pos_iff.mp hpos)

theorem ring_pruneAfter {n : Nat} {s : SlotCheckpointStore α} (h : Recurrent.Ring n s) (pos : Int) :
    Recurrent.Ring n (s.pruneAfter pos) := by
  have hr := ring_recount (s.entries.map fun e => if pos < e.pos then { e with pos := -1 } else e) pos
  rwa [List.length_map, h.length] at hr

theorem ring_reset {n : Nat} {s : SlotCheckpointStore α} (h : Recurrent.Ring n s) : Recurrent.Ring n s.reset := by
  refine ⟨by rw [reset, List.length_map]; exact h.length, fun _ e he => ?_, id⟩
  obtain ⟨e₀, -, rfl⟩ := List.mem_map.mp he
  show (-1 : Int) < 0
  decide

/-- A checkpoint that is left after pruning was there before. -/
theorem pruneAfter_live {s : SlotCheckpointStore α} {pos : Int} {idx : Nat} {e : CheckpointEntry α}
    (h : (s.pruneAfter pos).entries[idx]? = some e) (hpos : 0 ≤ e.pos) : s.entries[idx]? = some e ∧ e.pos ≤ pos := by
  rw [pruneAfter, recount_entries, List.getElem?_map] at h
  obtain ⟨e₀, he₀, rfl⟩ := Option.map_eq_some_iff.mp h
  by_cases hlt : pos < e₀.pos
  · rw [if_pos hlt] at hpos
    have : (0 : Int) ≤ -1 := hpos
    omega
  · rw [if_neg hlt] at hpos ⊢
    exact ⟨he₀, by omega⟩

end SlotCheckpointStore

namespace Recurrent

/-! ## Writing a checkpoint back -/

theorem row_restoreTensor (slot : Nat) (c : Recurrent α) (e : (_ : Buffer) × List α) (b : Buffer) (k : Nat) :
    (restoreTensor slot c e).row b k = if b = e.1 ∧ k = slot then e.2 else c.row b k := by
  unfold restoreTensor
  dsimp only
  by_cases hb : b = e.1
  · subst hb
    rw [row, AList.lookup_insert, Option.getD_some, Function.update_apply]
    by_cases hk : k = slot
    · simp [hk]
    · rw [if_neg hk, if_neg fun h => hk h.2]
      exact row_buffer c e.1 e.1 k
  · rw [row, AList.lookup_insert_ne hb, if_neg fun h => hb h.1]
    exact row_buffer c e.1 b k

theorem row_restoreTensors {slot : Nat} {es : List ((_ : Buffer) × List α)} (hnd : es.NodupKeys) (c : Recurrent α)
    (b : Buffer) (k : Nat) : (es.foldl (restoreTensor slot) c).row b k =
      if k = slot then (es.dlookup b).getD (c.row b k) else c.row b k := by
  induction es generalizing c with
  | nil => simp
  | cons e es ih =>
    obtain ⟨hnot, hnd⟩ := List.nodupKeys_cons.mp hnd
    rw [List.foldl_cons, ih hnd, row_restoreTensor]
    by_cases hk : k = slot
    · simp only [hk, if_true, and_true]
      by_cases hb : b = e.1
      · subst hb
        rw [List.dlookup_cons_eq, List.dlookup_eq_none.mpr hnot]
        simp
      · rw [List.dlookup_cons_ne _ _ hb, if_neg hb]
    · simp [hk]

theorem restoreTensors_frame (slot : Nat) (es : List ((_ : Buffer) × List α)) (c : Recurrent α) :
    es.foldl (restoreTensor slot) c = { c with states := (es.foldl (restoreTensor slot) c).states } := by
  induction es generalizing c with
  | nil => rfl
  | cons e es ih =>
    rw [List.foldl_cons, ih]
    dsimp only [restoreTensor]
    rw [buffer_frame]

theorem restoreEntry_spec {c : Recurrent α} {r : CheckpointRestore} {e : CheckpointEntry α}
    (h : c.restoreEntry r = some e) : c.entryAt r.slot r.idx = some e ∧ 0 ≤ e.pos := by
  unfold restoreEntry at h
  obtain ⟨store, hs, he⟩ := Option.bind_eq_some_iff.mp h
  obtain ⟨he, hcond⟩ := Option.filter_eq_some_iff.mp he
  rw [Bool.and_eq_true, decide_eq_true_eq] at hcond
  refine ⟨?_, hcond.1⟩
  rw [entryAt, hs]
  exact he

section
variable {ids : Finset Int} {layers : List Buffer} {c c' : Recurrent α}

theorem Moved.sourced (h : Moved layers c c') (hslots : Slots ids c') (hs : Sourced ids layers c) :
    Sourced ids layers c' :=
  ⟨hslots, by rw [h.frame]; exact hs.room, by rw [h.frame]; exact hs.lined, h.traced hs.traced⟩

/-- A cut of stored inputs. -/
theorem Sourced.withKv (h : Sourced ids layers c) {kv : Causal α} (hkv : Lined kv) (hrows : kv.rows = c.kv.rows)
    (hsub : ∀ s i p, Stores kv.cells s i p → Stores c.kv.cells s i p) : Sourced ids layers { c with kv := kv } :=
  ⟨⟨h.slots.exact, h.slots.within⟩, h.room, hkv,
    h.traced.withKv fun _ _ s i p hst _ => ⟨hsub s i p hst, by rw [hrows]⟩⟩

/-- The checkpoint of a slot takes its state back, and drops the later checkpoints. -/
theorem applyCheckpointRestore_sourced (h : Sourced ids layers c) {r : CheckpointRestore}
    (hentry : ∀ e, c.entryAt r.slot r.idx = some e → 0 ≤ e.pos → e.pos = r.pos) :
    Sourced ids layers (c.applyCheckpointRestore r).1 ∧ ((c.applyCheckpointRestore r).2 = none →
      ∀ b ∈ layers, (((c.applyCheckpointRestore r).1.row b r.slot).length : Int) = r.pos + 1) := by
  have hkept := kept_applyCheckpointRestore c r
  unfold applyCheckpointRestore at hkept ⊢
  cases hr : c.restoreEntry r with
  | none => exact ⟨h, fun hn => by cases hn⟩
  | some entry =>
    obtain ⟨hat, hpos⟩ := restoreEntry_spec hr
    have hp := hentry entry hat hpos
    rw [hr] at hkept
    dsimp only at hkept ⊢
    have hrows := @row_restoreTensors _ r.slot _ entry.tensors.nodupKeys c
    have hf := restoreTensors_frame r.slot entry.tensors.entries c
    generalize entry.tensors.entries.foldl (restoreTensor r.slot) c = c₁ at hkept hrows hf ⊢
    have hent : ∀ k idx, c₁.entryAt k idx = c.entryAt k idx := fun k idx => by rw [entryAt, entryAt, hf]
    have hstore : ∀ k, c₁.checkpoints.lookup k = c.checkpoints.lookup k := fun k => by rw [hf]
    have hon := onStore_frame c₁ r.slot (·.pruneAfter r.pos)
    have hrow : ∀ b ∈ layers, ∀ k, (c₁.onStore r.slot (·.pruneAfter r.pos)).row b k =
        if k = r.slot then (c.row b k).take (r.pos.toNat + 1) else c.row b k := by
      intro b hb k
      have hk : (c₁.onStore r.slot (·.pruneAfter r.pos)).row b k = c₁.row b k := by rw [row, row, hon]
      rw [hk, hrows]
      by_cases hks : k = r.slot
      · have hlook : entry.tensors.entries.dlookup b = some ((c.row b r.slot).take (entry.pos.toNat + 1)) :=
          (h.traced.live b hb r.slot r.idx entry hat hpos).2
        rw [if_pos hks, if_pos hks, hlook, Option.getD_some, hp, hks]
      · rw [if_neg hks, if_neg hks]
    have hlen : ∀ b ∈ layers, r.pos < (c.row b r.slot).length := fun b hb => by
      have := (h.traced.live b hb r.slot r.idx entry hat hpos).1
      omega
    have hslots := hkept.slotForSeq
    have hlive : ∀ k idx e, (c₁.onStore r.slot (·.pruneAfter r.pos)).entryAt k idx = some e → 0 ≤ e.pos →
        c.entryAt k idx = some e ∧ (k = r.slot → e.pos ≤ r.pos) := by
      intro k idx e he he0
      rw [entryAt_onStore] at he
      by_cases hks : k = r.slot
      · rw [if_pos hks] at he
        obtain ⟨store, hst, he⟩ := Option.bind_eq_some_iff.mp he
        obtain ⟨h1, h2⟩ := SlotCheckpointStore.pruneAfter_live he he0
        refine ⟨?_, fun _ => h2⟩
        rw [entryAt, hks, ← hstore, hst]
        exact h1
      · rw [if_neg hks, hent] at he
        exact ⟨he, fun hk => absurd hk hks⟩
    refine ⟨⟨h.slots.kept hkept, by rw [hkept.maxSequences]; exact h.room, by rw [hkept.kv]; exact h.lined, ?_, ?_, ?_,
      ?_⟩, fun _ b hb => ?_⟩
    · intro b hb s i p hst hlt
      rw [hkept.kv] at hst ⊢
      have hseq : ∃ n, (c₁.onStore r.slot (·.pruneAfter r.pos)).seqRow b s = (c.seqRow b s).take n := by
        rw [seqRow, hslots, seqRow]
        cases c.slotForSeq.lookup s with
        | none => exact ⟨0, rfl⟩
        | some k =>
          rw [Option.map_some, Option.map_some, Option.getD_some, Option.getD_some, hrow b hb k]
          split
          · exact ⟨_, rfl⟩
          · exact ⟨_, List.take_length.symm⟩
      obtain ⟨n, hn⟩ := hseq
      rw [hn, List.length_take] at hlt
      rw [hn, List.getElem?_take, if_pos ?_]
      · exact h.traced.compat b hb s i p hst (by omega)
      · obtain ⟨m, -, hm⟩ := h.lined.lined s
        have := (hm p).mp ⟨i, hst⟩
        omega
    · intro b hb k idx e he he0
      obtain ⟨he, hle⟩ := hlive k idx e he he0
      obtain ⟨h1, h2⟩ := h.traced.live b hb k idx e he he0
      rw [hrow b hb]
      by_cases hks : k = r.slot
      · have hle := hle hks
        have hlen := hlen b hb
        subst hks
        rw [if_pos rfl, List.length_take, List.take_take, h2]
        refine ⟨by omega, ?_⟩
        congr 2
        omega
      · rw [if_neg hks]
        exact ⟨h1, h2⟩
    · intro k hfree idx e he
      rw [hslots] at hfree
      by_contra hneg
      exact hneg (h.traced.free k hfree idx e (hlive k idx e he (by omega)).1)
    · refine shaped_onStore ?_ _ fun store hring => SlotCheckpointStore.ring_pruneAfter hring r.pos
      intro k store hk
      rw [hstore] at hk
      rw [show c₁.checkpointCount = c.checkpointCount by rw [hf]]
      exact h.traced.shaped k store hk
    · have := hlen b hb
      rw [hrow b hb, if_pos rfl, List.length_take]
      omega

/-! ## Removals -/

/-- The checkpoint is still in the slot of the sequence, and was not recorded again. -/
def Current (c : Recurrent α) (seq : Int) (r : CheckpointRestore) : Bool :=
  c.slotForSeq.lookup seq = some r.slot && (c.entryAt r.slot r.idx).all fun e => e.pos < 0 || e.pos = r.pos

theorem current_iff {seq : Int} {r : CheckpointRestore} : Current c seq r = true ↔
    c.slotForSeq.lookup seq = some r.slot ∧ ∀ e, c.entryAt r.slot r.idx = some e → 0 ≤ e.pos → e.pos = r.pos := by
  unfold Current
  rw [Bool.and_eq_true, decide_eq_true_eq, Option.all_eq_true]
  refine and_congr_right fun _ => forall₂_congr fun e _ => ?_
  rw [Bool.or_eq_true, decide_eq_true_eq, decide_eq_true_eq]
  omega

/-- The sequence has the checkpoint in a slot of its own. -/
theorem detachToRestore_sourced (h : Sourced ids layers c) {seq : Int} {r : CheckpointRestore}
    (hpend : c.pendingRestore.lookup seq = some r) (hcur : Current c seq r = true) :
    ∃ c₁ slot, c.detachToRestore seq r = some c₁ ∧ Sourced ids layers c₁ ∧ c₁.kv = c.kv ∧
      c₁.slotForSeq.lookup seq = some slot ∧ c₁.pendingRestore.lookup seq = some { r with slot := slot } ∧
      ∀ e, c₁.entryAt slot r.idx = some e → 0 ≤ e.pos → e.pos = r.pos := by
  obtain ⟨hslot, hentry⟩ := current_iff.mp hcur
  have hroom := detachToRestore_room h.slots h.room seq r
  unfold detachToRestore at hroom ⊢
  simp only [hslot] at hroom ⊢
  split
  · rename_i hshared
    rw [if_pos hshared] at hroom
    cases hd : c.detach seq r.slot with
    | none =>
      rw [hd] at hroom
      exact absurd rfl hroom
    | some res =>
      obtain ⟨newSlot, c₁⟩ := res
      have hs₁ := (moved_detach layers h.slots hslot hshared.2 hd c₁.curSlots).sourced
        (h.slots.detach hslot hshared.2 hd) h
      have hf := detach_frame hd
      refine ⟨_, newSlot, rfl, hs₁.congr rfl rfl rfl (fun _ _ => rfl) rfl rfl, by rw [hf], ?_, AList.lookup_insert _, ?_⟩
      · show c₁.slotForSeq.lookup seq = some newSlot
        rw [hf, AList.lookup_insert]
      · intro e he hpos
        rcases (entryAt_detach h.traced.shaped hd).2.2 r.idx e he hpos with he | ⟨e₀, he₀, hp, -⟩
        · have := h.traced.free newSlot (h.slots.detach_fresh hd) r.idx e he
          omega
        · rw [hp]
          exact hentry e₀ he₀ (hp ▸ hpos)
  · exact ⟨c, r.slot, rfl, h, rfl, hslot, hpend, hentry⟩

theorem removeTail_sourced (h : Sourced ids layers c) {seq beginIndex : Int}
    (hcur : ∀ r ∈ c.pendingRestore.lookup seq, r.pos + 1 = beginIndex → Current c seq r = true)
    (fails : Nat → Nat → Nat → Bool) :
    Sourced ids layers (c.removeTail seq beginIndex maxInt32 fails).1 ∧
      ((c.removeTail seq beginIndex maxInt32 fails).2 = none →
        (∀ b ∈ layers, ((c.removeTail seq beginIndex maxInt32 fails).1.seqRow b seq).length = beginIndex) ∧
        ((c.removeTail seq beginIndex maxInt32 fails).1.slotForSeq.lookup seq).isSome ∧
        ∀ s i p, Stores (c.removeTail seq beginIndex maxInt32 fails).1.kv.cells s i p ↔
          Stores c.kv.cells s i p ∧ (s = seq → p < beginIndex)) := by
  unfold removeTail
  cases hpend : c.pendingRestore.lookup seq with
  | none => exact ⟨h, fun hn => by cases hn⟩
  | some r =>
    dsimp only
    split
    · exact ⟨h, fun hn => by cases hn⟩
    · rename_i hcond
      have hpos : r.pos + 1 = beginIndex := by
        by_contra hne
        exact hcond (.inl hne)
      obtain ⟨c₁, slot, hd, hs₁, hkv, hslot, hpend₁, hentry⟩ := detachToRestore_sourced h hpend (hcur r hpend hpos)
      obtain ⟨kv, hrem, hlined, hrows, hst⟩ := lined_remove hs₁.lined seq beginIndex fails
      rw [hd]
      dsimp only
      rw [hrem]
      dsimp only
      rw [hpend₁, Option.getD_some]
      have hs₂ : Sourced ids layers { c₁ with kv := kv, pendingRestore := c₁.pendingRestore.erase seq } :=
        (hs₁.withKv hlined hrows fun s i p hp => ((hst s i p).mp hp).1).congr rfl rfl rfl (fun _ _ => rfl) rfl rfl
      obtain ⟨hs₃, hrow⟩ := applyCheckpointRestore_sourced hs₂ (r := { r with slot := slot }) hentry
      have hkept := kept_applyCheckpointRestore
        { c₁ with kv := kv, pendingRestore := c₁.pendingRestore.erase seq } { r with slot := slot }
      refine ⟨hs₃, fun hok => ⟨fun b hb => ?_, ?_, fun s i p => ?_⟩⟩
      · rw [seqRow_of_lookup (by rw [hkept.slotForSeq]; exact hslot), hrow hok b hb]
        exact hpos
      · rw [hkept.slotForSeq]
        show (c₁.slotForSeq.lookup seq).isSome
        rw [hslot]
        rfl
      · rw [hkept.kv, ← hkv]
        exact hst s i p

end

end Recurrent

end Xdragon.Kvcache
