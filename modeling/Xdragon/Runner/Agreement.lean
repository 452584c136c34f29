import Xdragon.Runner.Stocked

/-!
# The input cache agrees with the causal cache

In every run of the runner, the causal cache stores the inputs of every slot at their positions, and for a
sequence that is being processed its pending inputs after them and nothing else.
-/

open Xdragon.Lib

namespace Xdragon.Runner

open Xdragon.Kvcache

namespace Server

/-- The slot of a sequence, with what is stored for it. -/
structure Holds (c : InputCache) (seq : Sequence) (slot : InputCacheSlot) : Prop where
  has : c.slots[seq.cache]? = some slot
  inUse : slot.inUse = true
  stored : Has c.cache seq.cache (slot.inputs ++ seq.pendingInputs)
  spans : Spans c.cache.cells seq.cache (slot.inputs.length + seq.pendingInputs.length)

structure Agrees (s : Server) : Prop where
  stocked : s.cache.Stocked
  numCtx : s.cache.numCtx ≤ maxInt32
  held : ∀ i seq, s.sequence i = some seq → ∃ slot, Holds s.cache seq slot
  apart : ∀ i j seq seq', s.sequence i = some seq → s.sequence j = some seq' → seq.cache = seq'.cache → i = j

theorem sequence_set {s : Server} {i : Nat} {seq : Sequence} (h : s.sequence i = some seq) (new : Option Sequence)
    (j : Nat) : { s with seqs := s.seqs.set i new }.sequence j = if i = j then new else s.sequence j := by
  have hi : i < s.seqs.length := by
    by_contra hge
    rw [sequence, List.getElem?_eq_none (by omega)] at h
    cases h
  unfold sequence
  dsimp only
  rw [List.getElem?_set]
  simp only [hi, if_true]
  split <;> rfl

theorem Holds.slot_eq {s : Server} {seq : Sequence} {slot : InputCacheSlot} (h : Holds s.cache seq slot) :
    s.slot seq.cache = slot := by
  rw [Server.slot, List.getD_eq_getElem?_getD, h.has]
  rfl

theorem Holds.spares {c c' : InputCache} {seq : Sequence} {slot : InputCacheSlot} (h : Holds c seq slot)
    (hs : c.Spares c') : Holds c' seq slot := by
  have hcells := hs.cells _ _ h.has h.inUse
  refine ⟨hs.slots _ _ h.has h.inUse, h.inUse, h.stored.mono fun i p _ hp => ⟨(hcells i p).mpr hp, by rw [hs.rows]⟩, ?_⟩
  intro p
  simp only [hcells]
  exact h.spans p

/-! ## Adding and removing sequences -/

theorem agrees_addSequence {s s' : Server} (h : Agrees s) {prompt : List Input} {cachePrompt : Bool}
    {now used : Int} {fails : Nat → Nat → Nat → Bool}
    (hs : s.addSequence prompt cachePrompt now used fails = some s') : Agrees s' := by
  unfold addSequence at hs
  split at hs
  · cases hs
    exact h
  · rename_i seqIdx hidx
    split at hs
    · cases hs
    · rename_i c err hl
      cases hs
      obtain ⟨h1, h2, -⟩ := InputCache.loadCacheSlot_spec h.stocked hl
      refine ⟨h1, by rw [h2.numCtx]; exact h.numCtx, fun i seq hi => ?_, h.apart⟩
      obtain ⟨slot, hh⟩ := h.held i seq hi
      exact ⟨slot, hh.spares h2⟩
    · rename_i c k rest hl
      cases hs
      obtain ⟨h1, h2, h3⟩ := InputCache.loadCacheSlot_spec h.stocked hl
      obtain ⟨hloaded, slot₀, hslot₀, hfree⟩ := h3 k rest rfl
      obtain ⟨slot, hslot, huse, -, hspan⟩ := hloaded.slot
      have hseq : ∀ j, { s with
          cache := c, seqs := s.seqs.set seqIdx (some { ref := s.nextRef, cache := k })
          nextRef := s.nextRef + 1 }.sequence j = if seqIdx = j then some { ref := s.nextRef, cache := k }
            else s.sequence j := by
        have hlt : seqIdx < s.seqs.length := (List.findIdx?_eq_some_iff_getElem.mp hidx).1
        intro j
        unfold sequence
        dsimp only
        rw [List.getElem?_set]
        simp only [hlt, if_true]
        split <;> rfl
      -- A sequence that was there has a slot in use, so that it is another one.
      have hnew : ∀ i seq, s.sequence i = some seq → seq.cache ≠ k := by
        rintro i seq hi rfl
        obtain ⟨slot', hh⟩ := h.held i seq hi
        rw [hh.has, Option.some.injEq] at hslot₀
        rw [← hslot₀, hh.inUse] at hfree
        cases hfree
      refine ⟨h1, by rw [show c.numCtx = s.cache.numCtx from h2.numCtx]; exact h.numCtx, fun i seq hi => ?_, ?_⟩
      · rw [hseq] at hi
        split at hi
        · cases hi
          refine ⟨slot, hslot, huse, ?_, hspan⟩
          rw [List.append_nil]
          exact h1.stored k slot hslot
        · obtain ⟨slot', hh⟩ := h.held i seq hi
          exact ⟨slot', hh.spares h2⟩
      · intro i j seq seq' hi hj he
        rw [hseq] at hi hj
        split at hi <;> split at hj
        · omega
        · cases hi
          exact absurd he.symm (hnew j seq' hj)
        · cases hj
          exact absurd he (hnew i seq hi)
        · exact h.apart i j seq seq' hi hj he

/-- A change of the slot of one sequence only. -/
theorem Agrees.update {s : Server} (h : Agrees s) {i : Nat} {seq : Sequence} (hi : s.sequence i = some seq)
    (new : Option Sequence) {c : InputCache} (hst : c.Stocked) (hctx : c.numCtx = s.cache.numCtx)
    (hslots : ∀ j, j ≠ seq.cache → c.slots[j]? = s.cache.slots[j]?)
    (hcells : ∀ k : Int, k ≠ seq.cache → ∀ j p, Stores c.cache.cells k j p ↔ Stores s.cache.cache.cells k j p)
    (hrows : c.cache.rows = s.cache.cache.rows)
    (hnew : ∀ seq', new = some seq' → seq'.cache = seq.cache ∧ ∃ slot, Holds c seq' slot) :
    Agrees { s with cache := c, seqs := s.seqs.set i new } := by
  have hseq := sequence_set hi new
  refine ⟨hst, hctx.trans_le h.numCtx, fun j seq' hj => ?_, fun j k seq₁ seq₂ hj hk he => ?_⟩
  · have hj := (hseq j).symm.trans hj
    split at hj
    · exact (hnew seq' hj).2
    · rename_i hne
      obtain ⟨slot, hh⟩ := h.held j seq' hj
      have hcache : seq'.cache ≠ seq.cache := fun he => hne (h.apart i j seq seq' hi hj he.symm)
      have hc := hcells seq'.cache (by omega)
      refine ⟨slot, (hslots _ hcache).trans hh.has, hh.inUse,
        hh.stored.mono fun k p _ hp => ⟨(hc k p).mpr hp, by rw [hrows]⟩, fun p => ?_⟩
      simp only [hc]
      exact hh.spans p
  · have hj := (hseq j).symm.trans hj
    have hk := (hseq k).symm.trans hk
    split at hj <;> split at hk
    · omega
    · rename_i hik
      exact absurd (h.apart i k seq seq₂ hi hk ((hnew seq₁ hj).1.symm.trans he)) hik
    · rename_i hij _
      exact absurd (h.apart i j seq seq₁ hi hj ((hnew seq₂ hk).1.symm.trans he.symm)) hij
    · exact h.apart j k seq₁ seq₂ hj hk he

theorem getElem?_modify_slots {slots : List InputCacheSlot} {k : Nat} {slot : InputCacheSlot}
    (h : slots[k]? = some slot) (f : InputCacheSlot → InputCacheSlot) (j : Nat) :
    (slots.modify k f)[j]? = if k = j then some (f slot) else slots[j]? := by
  rw [List.getElem?_modify]
  split
  · rename_i hkj
    rw [← hkj, h]
    rfl
  · simp

/-- Other inputs for one slot, which are stored. -/
theorem stocked_modify {c : InputCache} (h : c.Stocked) {k : Nat} {slot : InputCacheSlot}
    (hslot : c.slots[k]? = some slot) (f : InputCacheSlot → InputCacheSlot) (hid : (f slot).id = slot.id)
    (hhas : Has c.cache k (f slot).inputs) : { c with slots := c.slots.modify k f }.Stocked := by
  have hget := getElem?_modify_slots hslot f
  refine ⟨h.lined, fun j slot' hj => ?_, fun j slot' hj => ?_⟩
  · have hj := (hget j).symm.trans hj
    split at hj
    · rename_i hkj
      cases hj
      exact (hid.trans (h.ids k slot hslot)).trans hkj
    · exact h.ids j slot' hj
  · have hj := (hget j).symm.trans hj
    split at hj
    · rename_i hkj
      cases hj
      exact hkj ▸ hhas
    · exact h.stored j slot' hj

theorem agrees_removeSequence {s s' : Server} (h : Agrees s) {i : Nat} {tokenLen : Option Nat}
    (hs : s.removeSequence i tokenLen = some s') : Agrees s' := by
  unfold removeSequence at hs
  split at hs
  · cases hs
  · rename_i seq hi
    dsimp only at hs
    split at hs
    · cases hs
    · cases hs
      obtain ⟨slot, hh⟩ := h.held i seq hi
      refine h.update hi _ ?_ rfl ?_ (fun _ _ _ _ => .rfl) rfl fun seq' hn => by cases hn
      · refine stocked_modify h.stocked hh.has _ ?_ ?_
        · rfl
        · exact (h.stocked.stored _ _ hh.has).take _
      · intro j hj
        rw [getElem?_modify_slots hh.has, if_neg (Ne.symm hj)]

/-! ## Shifting and committing -/

theorem agrees_shiftSequence {s s' : Server} (h : Agrees s) {i : Nat} {numKeep : Int}
    {fails : Nat → Nat → Nat → Bool} (hs : s.shiftSequence i numKeep fails = some s') : Agrees s' := by
  unfold shiftSequence at hs
  split at hs
  · cases hs
  · rename_i seq hi
    split at hs
    · cases hs
    · rename_i hpend
      rw [not_not] at hpend
      obtain ⟨slot, hh⟩ := h.held i seq hi
      have hspan := hh.spans
      rw [hpend, List.length_nil, Nat.add_zero] at hspan
      have hgen : ∀ c res, s.cache.shiftCacheSlot seq.cache numKeep fails = some (c, res) →
          Agrees { s with cache := c } := by
        intro c res hsh
        obtain ⟨h1, h2⟩ := InputCache.shiftCacheSlot_spec h.stocked hh.has hh.inUse hspan hsh
        obtain ⟨slot', hslot', huse', hspan'⟩ := h2.slot
        have hset : s.seqs.set i (some seq) = s.seqs := by
          have hi : (s.seqs[i]?).join = some seq := hi
          obtain ⟨hlt, hget⟩ := List.getElem?_eq_some_iff.mp (Option.join_eq_some_iff.mp hi)
          rw [← hget, List.set_getElem_self]
        have hup := h.update hi (some seq) h1 h2.numCtx h2.slots h2.cells h2.rows fun seq' hn => by
          cases hn
          refine ⟨rfl, slot', hslot', huse', ?_, ?_⟩
          · rw [hpend, List.append_nil]
            exact h1.stored _ _ hslot'
          · rw [hpend]
            exact hspan'
        rwa [hset] at hup
      split at hs
      · cases hs
        exact hgen _ _ (by assumption)
      · cases hs
        exact hgen _ _ (by assumption)
      · cases hs

theorem agrees_commitInputs {s : Server} (h : Agrees s) (seqs : List (Option Nat)) (i : Nat) :
    Agrees (commitInputs seqs s i) := by
  unfold commitInputs
  split
  · exact h
  · rename_i seq hi
    split
    · obtain ⟨slot, hh⟩ := h.held i seq hi
      have hget := getElem?_modify_slots hh.has fun slot => { slot with inputs := slot.inputs ++ seq.pendingInputs }
      refine h.update hi _ ?_ rfl ?_ (fun _ _ _ _ => .rfl) rfl fun seq' hn => ?_
      · refine stocked_modify h.stocked hh.has _ ?_ ?_
        · rfl
        · exact hh.stored
      · intro j hj
        rw [hget, if_neg (Ne.symm hj)]
      · cases hn
        refine ⟨rfl, { slot with inputs := slot.inputs ++ seq.pendingInputs }, ?_, hh.inUse, ?_, ?_⟩
        · dsimp only
          rw [hget, if_pos rfl]
        · rw [List.append_nil]
          exact hh.stored
        · rw [List.length_append]
          exact hh.spans
    · exact h

theorem agrees_computeBatch {s s' : Server} (h : Agrees s) (hs : s.computeBatch = some s') : Agrees s' := by
  unfold computeBatch at hs
  split at hs
  · cases hs
  · rename_i seqs rest _
    cases hs
    have hfold : ∀ (is : List Nat) (s : Server), Agrees s → Agrees (is.foldl (commitInputs seqs) s) := by
      intro is
      induction is with
      | nil => exact fun s h => h
      | cons i is ih => exact fun s h => ih _ (agrees_commitInputs h seqs i)
    refine hfold _ _ ?_
    exact ⟨h.stocked, h.numCtx, h.held, h.apart⟩

/-! ## Forwarding a batch -/

/-- The tokens of one sequence. -/
theorem tokens_positions (slot : Int) (start : Int) (n : Nat) (s : Int) :
    positionsOf s ((List.range n).map fun k : Nat => ⟨slot, start + k⟩) =
      if s = slot then (List.range n).map fun k : Nat => start + k else [] := by
  unfold positionsOf
  split
  · rename_i hs
    rw [List.filter_eq_self.mpr ?_, List.map_map]
    · rfl
    · intro t ht
      obtain ⟨k, -, rfl⟩ := List.mem_map.mp ht
      simpa using hs.symm
  · rename_i hs
    rw [List.map_eq_nil_iff, List.filter_eq_nil_iff]
    intro t ht
    obtain ⟨k, -, rfl⟩ := List.mem_map.mp ht
    simpa using Ne.symm hs

theorem tokens_inputs (slot : Int) (start : Int) (xs : List Input) (s : Int) :
    inputsOf ((List.range xs.length).map fun k : Nat => ⟨slot, start + k⟩) xs s = if s = slot then xs else [] := by
  unfold inputsOf
  split
  · rename_i hs
    rw [List.filter_eq_self.mpr ?_, List.map_snd_zip (by simp)]
    intro e he
    obtain ⟨k, -, hk⟩ := List.mem_map.mp (List.of_mem_zip he).1
    rw [← hk]
    simpa using hs.symm
  · rename_i hs
    rw [List.map_eq_nil_iff, List.filter_eq_nil_iff]
    intro e he
    obtain ⟨k, -, hk⟩ := List.mem_map.mp (List.of_mem_zip he).1
    rw [← hk]
    simpa using Ne.symm hs

/-- What a batch takes from a sequence: it goes on after the inputs and the pending inputs of its slot. -/
structure Taken (s s' : Server) (batch : List Token) (inputs : List Input) (i : Nat) (seq : Sequence)
    (xs : List Input) : Prop where
  sequence : s'.sequence i = some { seq with pendingInputs := seq.pendingInputs ++ xs }
  inputs : inputsOf batch inputs seq.cache = xs
  positions : positionsOf seq.cache batch = (List.range xs.length).map fun k : Nat =>
    ((s.slot seq.cache).inputs.length + seq.pendingInputs.length : Int) + k
  fits : xs ≠ [] → ((s.slot seq.cache).inputs.length + seq.pendingInputs.length + xs.length : Int) ≤ s.cache.numCtx

structure Built (s s' : Server) (batch : List Token) (inputs : List Input) : Prop where
  cache : s'.cache = s.cache
  length : batch.length = inputs.length
  taken : ∀ i seq, s.sequence i = some seq → ∃ xs, Taken s s' batch inputs i seq xs
  others : ∀ i, s.sequence i = none → s'.sequence i = none
  tokens : ∀ t ∈ batch, ∃ i seq, s.sequence i = some seq ∧ t.seq = seq.cache

theorem buildBatch_built {parts : List (Nat × List Input)} {s s' : Server} {batch : List Token} {inputs : List Input}
    (hids : ∀ i seq, s.sequence i = some seq → (s.slot seq.cache).id = seq.cache)
    (hapart : ∀ i j seq seq', s.sequence i = some seq → s.sequence j = some seq' → seq.cache = seq'.cache → i = j)
    (hb : buildBatch parts s = some (s', batch, inputs)) : Built s s' batch inputs := by
  induction parts generalizing s batch inputs with
  | nil =>
    simp only [buildBatch, Option.some.injEq, Prod.mk.injEq] at hb
    obtain ⟨rfl, rfl, rfl⟩ := hb
    refine ⟨rfl, rfl, fun i seq hi => ⟨[], ?_, rfl, rfl, fun hn => absurd rfl hn⟩, fun i hi => hi, by simp⟩
    rw [List.append_nil]
    exact hi
  | cons part rest ih =>
    obtain ⟨i, ins⟩ := part
    simp only [buildBatch] at hb
    split at hb
    · exact ih hids hapart hb
    · rename_i seq hi
      split at hb
      · cases hb
      · rename_i s₁ tokens hadd
        obtain ⟨⟨s₂, ts, ys⟩, hrest, he⟩ := Option.map_eq_some_iff.mp hb
        simp only [Prod.mk.injEq] at he
        obtain ⟨rfl, rfl, rfl⟩ := he
        unfold addInputs at hadd
        dsimp only at hadd
        split at hadd
        · cases hadd
        · rename_i hfits
          obtain ⟨rfl, rfl⟩ := Prod.mk.inj (Option.some.inj hadd)
          have hseq := sequence_set hi (some { seq with pendingInputs := seq.pendingInputs ++ ins })
          have hslot : ∀ k, { s with
              seqs := s.seqs.set i (some { seq with pendingInputs := seq.pendingInputs ++ ins }) }.slot k = s.slot k :=
            fun k => rfl
          have hcache : ∀ j seq', { s with seqs := s.seqs.set i (some { seq with
              pendingInputs := seq.pendingInputs ++ ins }) }.sequence j = some seq' →
              ∃ seq₀, s.sequence j = some seq₀ ∧ seq'.cache = seq₀.cache := by
            intro j seq' hj
            rw [hseq] at hj
            split at hj
            · rename_i hij
              cases hj
              exact ⟨seq, hij ▸ hi, rfl⟩
            · exact ⟨seq', hj, rfl⟩
          have hbuilt := ih (fun j seq' hj => by
              obtain ⟨seq₀, h₀, he⟩ := hcache j seq' hj
              rw [hslot, he]
              exact hids j seq₀ h₀)
            (fun j k seq₁ seq₂ hj hk he => by
              obtain ⟨seq₁', h₁, he₁⟩ := hcache j seq₁ hj
              obtain ⟨seq₂', h₂, he₂⟩ := hcache k seq₂ hk
              exact hapart j k seq₁' seq₂' h₁ h₂ (he₁.symm.trans (he.trans he₂))) hrest
          have hid := hids i seq hi
          rw [hid]
          have hpos := tokens_positions seq.cache ((s.slot seq.cache).inputs.length + seq.pendingInputs.length : Nat)
            ins.length
          have hins := tokens_inputs seq.cache ((s.slot seq.cache).inputs.length + seq.pendingInputs.length : Nat) ins
          have hlen : ((List.range ins.length).map fun k : Nat => (⟨seq.cache,
              ((s.slot seq.cache).inputs.length + seq.pendingInputs.length : Nat) + k⟩ : Token)).length = ins.length := by
            simp
          have htok : ∀ t ∈ (List.range ins.length).map fun k : Nat => (⟨seq.cache,
              ((s.slot seq.cache).inputs.length + seq.pendingInputs.length : Nat) + k⟩ : Token), t.seq = seq.cache := by
            intro t ht
            obtain ⟨k, -, rfl⟩ := List.mem_map.mp ht
            rfl
          generalize ((List.range ins.length).map fun k : Nat => (⟨seq.cache,
              ((s.slot seq.cache).inputs.length + seq.pendingInputs.length : Nat) + k⟩ : Token)) = tokens at *
          refine ⟨hbuilt.cache, by rw [List.length_append, List.length_append, hlen, hbuilt.length], ?_, ?_, ?_⟩
          · intro j seq' hj
            by_cases hij : i = j
            · -- The sequence of this part goes on after the new inputs.
              subst hij
              rw [hi, Option.some.injEq] at hj
              subst hj
              obtain ⟨xs, h1, h2, h3, h4⟩ := hbuilt.taken i _ ((hseq i).trans (if_pos rfl))
              refine ⟨ins ++ xs, ?_, ?_, ?_, ?_⟩
              · rw [h1, List.append_assoc]
              · rw [inputsOf_append hlen, hins, if_pos rfl, h2]
              · have hl : (ins ++ xs).length = ins.length + xs.length := List.length_append
                rw [positionsOf_append, hpos, if_pos rfl, h3, hl, List.range_add, List.map_append, List.map_map]
                push_cast
                congr 1
                refine List.map_congr_left fun k _ => ?_
                simp only [hslot, List.length_append, Function.comp_apply]
                push_cast
                omega
              · intro _
                rw [List.length_append]
                by_cases hxs : xs = []
                · subst hxs
                  push_cast at hfits ⊢
                  simpa using Int.not_lt.mp hfits
                · have := h4 hxs
                  rw [hslot, List.length_append] at this
                  push_cast at this ⊢
                  omega
            · obtain ⟨xs, h1, h2, h3, h4⟩ := hbuilt.taken j seq' ((hseq j).trans ((if_neg hij).trans hj))
              have hne : (seq'.cache : Int) ≠ seq.cache := by
                intro he
                exact hij (hapart i j seq seq' hi hj (by omega))
              refine ⟨xs, h1, ?_, ?_, h4⟩
              · rw [inputsOf_append hlen, hins, if_neg hne, h2, List.nil_append]
              · rw [positionsOf_append, hpos, if_neg hne, h3, List.nil_append]
                rfl
          · intro j hj
            have hij : i ≠ j := by
              rintro rfl
              rw [hi] at hj
              cases hj
            exact hbuilt.others j ((hseq j).trans ((if_neg hij).trans hj))
          · intro t ht
            rcases List.mem_append.mp ht with ht | ht
            · exact ⟨i, seq, hi, htok t ht⟩
            · obtain ⟨j, seq', hj, hts⟩ := hbuilt.tokens t ht
              obtain ⟨seq₀, h₀, he⟩ := hcache j seq' hj
              exact ⟨j, seq₀, h₀, hts.trans (by rw [he])⟩

/-- A sequence after the batch is one from before it with more pending inputs. -/
theorem Built.sequence {s s₁ : Server} {batch : List Token} {inputs : List Input} (hb : Built s s₁ batch inputs)
    {i : Nat} {seq' : Sequence} (hi : s₁.sequence i = some seq') : ∃ seq xs, s.sequence i = some seq ∧
      Taken s s₁ batch inputs i seq xs ∧ seq' = { seq with pendingInputs := seq.pendingInputs ++ xs } := by
  cases hseq : s.sequence i with
  | none =>
    rw [hb.others i hseq] at hi
    cases hi
  | some seq =>
    obtain ⟨xs, ht⟩ := hb.taken i seq hseq
    rw [ht.sequence, Option.some.injEq] at hi
    exact ⟨seq, xs, rfl, ht, hi.symm⟩

theorem Built.apart {s s₁ : Server} {batch : List Token} {inputs : List Input} (hb : Built s s₁ batch inputs)
    (h : Agrees s) : ∀ i j seq seq', s₁.sequence i = some seq → s₁.sequence j = some seq' → seq.cache = seq'.cache →
      i = j := by
  intro i j seq seq' hi hj he
  obtain ⟨seq₁, _, h₁, -, rfl⟩ := hb.sequence hi
  obtain ⟨seq₂, _, h₂, -, rfl⟩ := hb.sequence hj
  exact h.apart i j seq₁ seq₂ h₁ h₂ he

theorem Built.agrees_nil {s s₁ : Server} {inputs : List Input} (hb : Built s s₁ [] inputs) (h : Agrees s) :
    Agrees s₁ := by
  refine ⟨by rw [hb.cache]; exact h.stocked, by rw [hb.cache]; exact h.numCtx, fun i seq' hi => ?_, hb.apart h⟩
  obtain ⟨seq, xs, hseq, ht, rfl⟩ := hb.sequence hi
  have hxs : xs = [] := by
    rw [← ht.inputs]
    rfl
  subst hxs
  rw [List.append_nil, hb.cache]
  exact h.held i seq hseq

/-- The batch goes on where the sequences end. -/
theorem Built.extends {s s₁ : Server} {batch : List Token} {inputs : List Input} (hb : Built s s₁ batch inputs)
    (h : Agrees s) : Extends s.cache.cache.cells batch := by
  intro t ht
  obtain ⟨i, seq, hi, hts⟩ := hb.tokens t ht
  obtain ⟨slot, hh⟩ := h.held i seq hi
  obtain ⟨xs, htk⟩ := hb.taken i seq hi
  have hpos := htk.positions
  have hfits := htk.fits
  rw [hh.slot_eq] at hpos hfits
  have hne : xs ≠ [] := by
    rintro rfl
    have hmem : t.pos ∈ positionsOf seq.cache batch := mem_positionsOf_iff.mpr ⟨t, ht, hts, rfl⟩
    rw [hpos] at hmem
    cases hmem
  have hl : (positionsOf seq.cache batch).length = xs.length := by rw [hpos]; simp
  have := h.numCtx
  have := hfits hne
  rw [hts, nextPos_eq hh.spans, hl]
  refine ⟨?_, by push_cast; omega⟩
  rw [hpos]
  push_cast
  rfl

/-- The causal cache stores the inputs of a batch. -/
theorem Built.agrees_put {s s₁ s' : Server} {batch : List Token} {inputs : List Input} (hb : Built s s₁ batch inputs)
    (h : Agrees s) {kv : Causal Input} (hok : s.cache.cache.startForward batch false = (kv, none))
    (hcache : s'.cache = { s.cache with cache := kv.put inputs }) (hseqs : s'.seqs = s₁.seqs) : Agrees s' := by
  have hsequence : ∀ i, s'.sequence i = s₁.sequence i := fun i => by rw [Server.sequence, Server.sequence, hseqs]
  have hext := hb.extends h
  have ha := appended_startForward h.stocked.lined hext hok
  have hkeep : ∀ s' i p, Stores s.cache.cache.cells s' i p →
      Stores kv.cells s' i p ∧ (kv.put inputs).rows i = s.cache.cache.rows i := by
    intro s' i p hp
    refine ⟨(ha.stores s' i p).mpr (.inl hp), ?_⟩
    rw [put_rows_other fun hi => ha.fresh i hi s' p hp, ha.rows]
  refine ⟨?_, by rw [hcache]; exact h.numCtx, fun i seq' hi => ?_, ?_⟩
  · rw [hcache]
    refine ⟨ha.lined.put inputs, h.stocked.ids, ?_⟩
    exact fun i slot hi => (h.stocked.stored i slot hi).mono fun j p _ hp => hkeep i j p hp
  · rw [hsequence] at hi
    obtain ⟨seq, xs, hseq, ht, rfl⟩ := hb.sequence hi
    obtain ⟨slot, hh⟩ := h.held i seq hseq
    have hpos := ht.positions
    have hl : (positionsOf seq.cache batch).length = xs.length := by rw [hpos]; simp
    obtain ⟨n, hmax, hn⟩ := h.stocked.lined.lined seq.cache
    have hnn : (n : Int) = (slot.inputs.length + seq.pendingInputs.length : Nat) := by
      rw [← nextPos_eq hn, nextPos_eq hh.spans]
    have hspans := ha.spans seq.cache _ hh.spans (by omega)
    rw [hl] at hspans
    rw [hcache]
    refine ⟨slot, hh.has, hh.inUse, ?_, ?_⟩
    · intro p x hx
      dsimp only at hx ⊢
      rw [← List.append_assoc] at hx
      by_cases hp : p < (slot.inputs ++ seq.pendingInputs).length
      · rw [List.getElem?_append_left hp] at hx
        obtain ⟨j, y, hj, hy, hsame⟩ := hh.stored p x hx
        obtain ⟨hj', hrow⟩ := hkeep _ j p hj
        exact ⟨j, y, hj', hrow.trans hy, hsame⟩
      · rw [List.getElem?_append_right (by omega)] at hx
        rw [List.length_append] at hp hx
        have hlt := (List.getElem?_eq_some_iff.mp hx).1
        obtain ⟨j, hj⟩ := (hspans p).mpr ⟨by omega, by push_cast; omega⟩
        refine ⟨j, x, hj, ?_, rfl, rfl⟩
        rcases ha.put_rows hext hb.length.symm hj with ⟨hjold, -⟩ | ⟨-, hrow⟩
        · have := (hh.spans p).mp ⟨j, hjold⟩
          push_cast at this
          omega
        · rw [hrow, ht.inputs, nextPos_eq hh.spans, ← hx]
          congr 1
          omega
    · dsimp only
      rw [List.length_append, ← Nat.add_assoc]
      exact hspans
  · intro i j seq seq' hi hj
    rw [hsequence] at hi hj
    exact hb.apart h i j seq seq' hi hj

theorem agrees_forwardBatch {s s' : Server} (h : Agrees s) {parts : List (Nat × List Input)}
    (hs : s.forwardBatch parts = some s') : Agrees s' := by
  unfold forwardBatch at hs
  split at hs
  · cases hs
  rename_i s₁ batch inputs hbuild
  have hids : ∀ i seq, s.sequence i = some seq → (s.slot seq.cache).id = seq.cache := by
    intro i seq hi
    obtain ⟨slot, hh⟩ := h.held i seq hi
    rw [hh.slot_eq]
    exact h.stocked.ids _ _ hh.has
  have hb := buildBatch_built hids h.apart hbuild
  split at hs
  · rename_i hnil
    cases hs
    rw [hnil] at hb
    exact hb.agrees_nil h
  · split at hs
    · cases hs
    · rename_i kv hok
      cases hs
      rw [hb.cache] at hok
      refine hb.agrees_put h hok ?_ rfl
      dsimp only
      rw [hb.cache]

/-! ## Runs -/

theorem agrees_initial {s : Server} (h : Initial s) : Agrees s := by
  obtain ⟨kv, kvSize, numSlots, batchSize, multi, parallel, hw, hm, hmax, hnew, hseqs, -⟩ := h
  have hnone : ∀ i seq, s.sequence i ≠ some seq := by
    intro i seq hi
    rw [sequence, hseqs, List.getElem?_replicate] at hi
    split at hi <;> cases hi
  unfold newInputCache at hnew
  split at hnew
  · cases hnew
  · dsimp only at hnew
    split at hnew
    · cases hnew
    · obtain ⟨cache, hinit, hc⟩ := Option.map_eq_some_iff.mp hnew
      have hc := Except.ok.inj hc
      have hslot : ∀ (i : Nat) slot, s.cache.slots[i]? = some slot → slot = { id := i } := by
        intro i slot hi
        rw [← hc, List.getElem?_map] at hi
        obtain ⟨k, hk, rfl⟩ := Option.map_eq_some_iff.mp hi
        obtain ⟨hlt, hk⟩ := List.getElem?_eq_some_iff.mp hk
        rw [← hk, List.getElem_range]
      refine ⟨⟨?_, fun i slot hi => by rw [hslot i slot hi], fun i slot hi => ?_⟩, ?_,
        fun i seq hi => absurd hi (hnone i seq), fun i j seq _ hi => absurd hi (hnone i seq)⟩
      · rw [← hc]
        exact lined_init hw hm hinit
      · rw [hslot i slot hi]
        intro p x hx
        cases hx
      · rw [← hc]
        have hdiv := Nat.div_le_self kvSize numSlots
        show ((kvSize / numSlots : Nat) : Int) ≤ maxInt32
        omega

theorem agrees_step {s s' : Server} (h : Agrees s) {e : Event} (hs : s.step e = some s') : Agrees s' := by
  cases e with
  | addSequence prompt cachePrompt now used fails => exact agrees_addSequence h hs
  | forwardBatch parts => exact agrees_forwardBatch h hs
  | shiftSequence i numKeep fails => exact agrees_shiftSequence h hs
  | computeBatch => exact agrees_computeBatch h hs
  | removeSequence i tokenLen => exact agrees_removeSequence h hs

/-- Each input of a slot is in exactly one cell of its sequence. -/
def Cached (c : InputCache) : Prop :=
  ∀ slot ∈ c.slots, ∀ (i : Nat) x, slot.inputs[i]? = some x →
    ∃ j, Stores c.cache.cells slot.id j i ∧ (∀ j', Stores c.cache.cells slot.id j' i → j' = j) ∧
      ∃ y, c.cache.rows j = some y ∧ y.Same x

/-- In every run, the causal cache has the inputs of the slots, and `LoadCacheSlot` returns what is left to do. -/
theorem inputs_cached {s : Server} (h : Reaches step (fun _ _ => True) Initial s) :
    Cached s.cache ∧ ∀ prompt cachePrompt now used fails c i rest,
      s.cache.loadCacheSlot prompt cachePrompt now used fails = some (c, .ok (i, rest)) →
      rest ≠ [] ∧ ∃ slot, c.slots[i]? = some slot ∧ slot.inputs ++ rest = prompt ∧
        ∀ j p, Stores c.cache.cells slot.id j p → p < slot.inputs.length := by
  have ha : Agrees s := h.invariant (I := Agrees) (fun _ => agrees_initial) fun _ _ _ h _ hs => agrees_step h hs
  refine ⟨fun slot hslot i x hx => ?_, fun prompt cachePrompt now used fails c i rest hl => ?_⟩
  · obtain ⟨k, hk⟩ := List.getElem?_of_mem hslot
    rw [ha.stocked.ids k slot hk]
    obtain ⟨j, y, hj, hy, hsame⟩ := ha.stocked.stored k slot hk i x hx
    exact ⟨j, hj, fun j' hj' => ha.stocked.lined.once _ _ _ _ hj' hj, y, hy, hsame⟩
  · obtain ⟨h1, -, h3⟩ := InputCache.loadCacheSlot_spec ha.stocked hl
    obtain ⟨hloaded, -⟩ := h3 i rest rfl
    obtain ⟨slot, hslot, -, happ, hspan⟩ := hloaded.slot
    refine ⟨hloaded.rest, slot, hslot, happ, fun j p hp => ?_⟩
    rw [h1.ids i slot hslot] at hp
    exact ((hspan p).mp ⟨j, hp⟩).2

/-- Two users with a common prefix. The first one stops while an input is pending. -/
def forkedRun : List Event :=
  let prompt : List Input := [⟨1, 0, 0⟩, ⟨2, 0, 0⟩, ⟨3, 0, 0⟩]
  let other : List Input := [⟨1, 0, 0⟩, ⟨2, 0, 0⟩, ⟨4, 7, 0⟩]
  [.addSequence prompt true 1 1 fun _ _ _ => false, .forwardBatch [(0, prompt)], .computeBatch,
    .addSequence other true 2 2 fun _ _ _ => false,
    .forwardBatch [(0, [⟨5, 0, 0⟩]), (1, [⟨4, 7, 0⟩])], .removeSequence 0 (some 2), .computeBatch]

/-- Two slots of eight inputs each, for more users than one. -/
def twoSlots : Server where
  cache :=
    { numCtx := 8
      slots := [{ id := 0 }, { id := 1 }]
      multiUserCache := true
      cache := ((Causal.newCausalCache true).init 2 8 4).getD (Causal.newCausalCache true) }
  seqs := [none, none]

theorem forkedRun_cached : ∃ s : Server, Reaches step (fun _ _ => True) Initial s ∧
    s.cache.slots.map (·.inputs.map (·.token)) = [[1, 2], [1, 2, 4]] ∧ Cached s.cache ∧
    ∃ c i rest, s.cache.loadCacheSlot [⟨1, 0, 0⟩, ⟨2, 0, 0⟩] true 3 3 (fun _ _ _ => false) = some (c, .ok (i, rest)) ∧
      rest ≠ [] := by
  let s := (exec step twoSlots forkedRun).get (by decide)
  have hs : Reaches step (fun _ _ => True) Initial s :=
    reaches_of_exec (Reaches.init ⟨Causal.newCausalCache true, 16, 2, 4, true, 2, rfl, rfl, by decide, rfl, rfl, rfl⟩)
      (by decide) (Option.some_get _).symm
  have hl : ∃ c i rest, s.cache.loadCacheSlot [⟨1, 0, 0⟩, ⟨2, 0, 0⟩] true 3 3 (fun _ _ _ => false) =
      some (c, .ok (i, rest)) := ⟨_, _, _, rfl⟩
  obtain ⟨c, i, rest, hl⟩ := hl
  exact ⟨s, hs, by decide, (inputs_cached hs).1, c, i, rest, hl, ((inputs_cached hs).2 _ _ _ _ _ _ _ _ hl).1⟩

end Server

end Xdragon.Runner
