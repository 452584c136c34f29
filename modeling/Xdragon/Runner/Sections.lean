import Xdragon.Runner.Queue

/-!
# The two sections of `computeBatch`

The first section commits the pending inputs of the batch and gives each sequence that has no input left a
placeholder. The second one adds the sampled pieces and removes the sequences that are done.
-/

open Xdragon.Lib

namespace Xdragon.Runner.Pipeline

open Xdragon.Kvcache

namespace Server

/-! ## The first section -/

/-- What the first section does with a sequence. -/
inductive Started (s : Server) (b : BatchState) (tokens : Nat → Int) (st : Server × BatchState) (i : Nat)
    (seq : Sequence) : Prop
  | skipped : (b.seqs[i]?).join ≠ some seq.ref → st.1.sequence i = some seq →
    (st.1.slot seq.cache).inputs = (s.slot seq.cache).inputs → (st.2.nextBatchTokens[i]?).join = none →
    Started s b tokens st i seq
  | committed : (b.seqs[i]?).join = some seq.ref → seq.inputs ≠ [] →
    st.1.sequence i = some { seq with pendingInputs := [] } →
    (st.1.slot seq.cache).inputs = (s.slot seq.cache).inputs ++ seq.pendingInputs →
    (st.2.nextBatchTokens[i]?).join = none → Started s b tokens st i seq
  | sampled : (b.seqs[i]?).join = some seq.ref → seq.inputs = [] →
    st.1.sequence i = some { seq with
      pendingInputs := [], inputs := [{ token := tokens i }], sampledBy := some b.id } →
    (st.1.slot seq.cache).inputs = (s.slot seq.cache).inputs ++ seq.pendingInputs →
    (st.2.nextBatchTokens[i]?).join = some { token := tokens i } → Started s b tokens st i seq

/-- The first section after some sequences. -/
structure Starting (s : Server) (b : BatchState) (tokens : Nat → Int) (todo : List Nat) (st : Server × BatchState) :
    Prop where
  agrees : Runner.Server.Agrees st.1.full
  numCtx : st.1.cache.numCtx = s.cache.numCtx
  kv : st.1.cache.cache = s.cache.cache
  frame : st.1 = { s with cache := st.1.cache, seqs := st.1.seqs, unread := st.1.unread }
  batch : st.2 = { b with nextBatchTokens := st.2.nextBatchTokens, iBatches := st.2.iBatches }
  length : st.1.seqs.length = s.seqs.length ∧ st.2.nextBatchTokens.length = s.seqs.length
  absent : ∀ i, s.sequence i = none → st.1.sequence i = none ∧ (st.2.nextBatchTokens[i]?).join = none
  untouched : ∀ i ∈ todo, st.1.sequence i = s.sequence i ∧ (st.2.nextBatchTokens[i]?).join = none ∧
    ∀ seq, s.sequence i = some seq → st.1.slot seq.cache = s.slot seq.cache
  done : ∀ i seq, s.sequence i = some seq → i ∉ todo → Started s b tokens st i seq
  unread : (∀ i seq, s.sequence i = some seq → (b.seqs[i]?).join = some seq.ref → seq.inputs = [] →
    ∀ c ∈ s.computing, seq.sampledBy ≠ some c.id) → st.1.unread = s.unread

theorem Started.congr {s : Server} {b : BatchState} {tokens : Nat → Int} {st st' : Server × BatchState} {i : Nat}
    {seq : Sequence} (h : Started s b tokens st i seq) (hseq : st'.1.sequence i = st.1.sequence i)
    (hslot : st'.1.slot seq.cache = st.1.slot seq.cache)
    (hnext : st'.2.nextBatchTokens[i]? = st.2.nextBatchTokens[i]?) : Started s b tokens st' i seq := by
  cases h with
  | skipped h1 h2 h3 h4 => exact .skipped h1 (hseq.trans h2) (hslot ▸ h3) (hnext ▸ h4)
  | committed h1 h2 h3 h4 h5 => exact .committed h1 h2 (hseq.trans h3) (hslot ▸ h4) (hnext ▸ h5)
  | sampled h1 h2 h3 h4 h5 => exact .sampled h1 h2 (hseq.trans h3) (hslot ▸ h4) (hnext ▸ h5)

theorem agrees_commit {s : Server} (h : Runner.Server.Agrees s.full) {i : Nat} {seq seq' : Sequence}
    (hi : s.sequence i = some seq) (href : seq'.ref = seq.ref) (hcache : seq'.cache = seq.cache)
    (hpend : seq'.pendingInputs = []) {s' : Server}
    (hslots : s'.cache = { s.cache with slots := s.cache.slots.modify seq.cache fun slot =>
      { slot with inputs := slot.inputs ++ seq.pendingInputs } })
    (hseqs : s'.seqs = s.seqs.set i (some seq')) : Runner.Server.Agrees s'.full := by
  have hcommit := Runner.Server.agrees_commitInputs h (List.replicate i none ++ [some seq.ref]) i
  unfold Runner.Server.commitInputs at hcommit
  unfold full at hcommit
  rw [seen_sequence, hi] at hcommit
  dsimp only [Option.map_some] at hcommit
  rw [if_pos (by simp)] at hcommit
  refine agrees_congr hcommit hslots fun j => ?_
  unfold Runner.Server.sequence full seen
  rw [hseqs, List.map_set]
  simp [href, hcache, hpend]

theorem Starting.commit {s : Server} {b : BatchState} {tokens : Nat → Int} {i : Nat} {todo : List Nat}
    {st st' : Server × BatchState} (h : Starting s b tokens (i :: todo) st) (hnotin : i ∉ todo) {seq : Sequence}
    (hi : st.1.sequence i = some seq) (hbatch : (b.seqs[i]?).join = some seq.ref) (new : Sequence)
    (href : new.ref = seq.ref) (hcache : new.cache = seq.cache)
    (hpend : new.pendingInputs = [])
    (hslots : st'.1.cache = { st.1.cache with slots := st.1.cache.slots.modify seq.cache fun slot =>
      { slot with inputs := slot.inputs ++ seq.pendingInputs } })
    (hfst : st'.1 = { st.1 with cache := st'.1.cache, seqs := st.1.seqs.set i (some new), unread := st'.1.unread })
    (hsnd : st'.2 = { st.2 with nextBatchTokens := st'.2.nextBatchTokens, iBatches := st'.2.iBatches })
    (hnext : ∀ j, i ≠ j → st'.2.nextBatchTokens[j]? = st.2.nextBatchTokens[j]?)
    (hlen : st'.2.nextBatchTokens.length = st.2.nextBatchTokens.length)
    (hunread : ¬ (seq.inputs = [] ∧ st.1.computing.any fun c => seq.sampledBy = some c.id) →
      st'.1.unread = st.1.unread)
    (hstarted : (st'.1.slot seq.cache).inputs = (s.slot seq.cache).inputs ++ seq.pendingInputs →
      st'.1.sequence i = some new → Started s b tokens st' i seq) : Starting s b tokens todo st' := by
  obtain ⟨htodo, -, hslot⟩ := h.untouched i (by simp)
  have hs : s.sequence i = some seq := htodo.symm.trans hi
  have hseqs : st'.1.seqs = st.1.seqs.set i (some new) := by rw [hfst]
  have hget : ∀ j, st'.1.sequence j = if i = j then some new else st.1.sequence j := by
    intro j
    rw [← sequence_set hi (some new) j, sequence, hseqs]
  have hin := slot_of_seen h.agrees hi
  have hsl : ∀ k, k ≠ seq.cache → st'.1.slot k = st.1.slot k := by
    intro k hk
    unfold slot
    rw [hslots, List.getD_eq_getElem?_getD, Runner.Server.getElem?_modify_slots hin, if_neg (Ne.symm hk),
      List.getD_eq_getElem?_getD]
  have hself : (st'.1.slot seq.cache).inputs = (s.slot seq.cache).inputs ++ seq.pendingInputs := by
    rw [← hslot seq hs]
    unfold slot at hin ⊢
    rw [hslots, List.getD_eq_getElem?_getD, Runner.Server.getElem?_modify_slots hin, if_pos rfl]
    rfl
  have hother : ∀ j seq', i ≠ j → st.1.sequence j = some seq' → seq'.cache ≠ seq.cache :=
    fun j seq' hne hj => (apart_of_seen h.agrees hi hj hne).symm
  refine ⟨agrees_commit h.agrees hi href hcache hpend hslots hseqs, ?_, ?_, ?_, ?_, ⟨?_, ?_⟩, fun j hj => ?_, fun j hj => ?_,
    fun j seq' hj hn => ?_, fun hread => ?_⟩
  · rw [hslots]
    exact h.numCtx
  · rw [hslots]
    exact h.kv
  · rw [hfst]
    dsimp only
    rw [h.frame]
  · rw [hsnd]
    dsimp only
    rw [h.batch]
  · rw [hseqs, List.length_set]
    exact h.length.1
  · exact hlen.trans h.length.2
  · have hne : i ≠ j := by
      rintro rfl
      rw [hs] at hj
      cases hj
    rw [hget, if_neg hne, hnext j hne]
    exact h.absent j hj
  · have hne : i ≠ j := fun hij => hnotin (hij ▸ hj)
    obtain ⟨h1, h2, h3⟩ := h.untouched j (List.mem_cons_of_mem _ hj)
    rw [hget, if_neg hne, hnext j hne]
    refine ⟨h1, h2, fun seq' hj' => ?_⟩
    rw [hsl _ (hother j seq' hne (h1.trans hj'))]
    exact h3 seq' hj'
  · by_cases hij : i = j
    · subst hij
      rw [hs, Option.some.injEq] at hj
      subst hj
      exact hstarted hself ((hget i).trans (if_pos rfl))
    · have hmem : j ∉ i :: todo := by
        rw [List.mem_cons, not_or]
        exact ⟨Ne.symm hij, hn⟩
      have hst := h.done j seq' hj hmem
      refine hst.congr ((hget j).trans (if_neg hij)) (hsl _ ?_) (hnext j hij)
      cases hst with
      | skipped _ h2 => exact hother j seq' hij h2
      | committed _ _ h3 =>
        have := hother j _ hij h3
        exact this
      | sampled _ _ h3 =>
        have := hother j _ hij h3
        exact this
  · refine (hunread ?_).trans (h.unread hread)
    rintro ⟨hnil, hany⟩
    rw [show st.1.computing = s.computing by rw [h.frame], List.any_eq_true] at hany
    obtain ⟨c, hc, hid⟩ := hany
    exact hread i seq hs hbatch hnil c hc (by simpa using hid)

theorem starting_step {s : Server} {b : BatchState} {tokens : Nat → Int} {i : Nat} {todo : List Nat}
    {st : Server × BatchState} (h : Starting s b tokens (i :: todo) st) (hnotin : i ∉ todo) (hlt : i < s.seqs.length) :
    Starting s b tokens todo (startSequence tokens st i) := by
  obtain ⟨htodo, hnext, hslot⟩ := h.untouched i (by simp)
  have hbseqs : st.2.seqs = b.seqs := by rw [h.batch]
  have hbid : st.2.id = b.id := by rw [h.batch]
  -- nothing happens
  have hskip : (∀ seq, s.sequence i = some seq → (b.seqs[i]?).join ≠ some seq.ref) → Starting s b tokens todo st := by
    intro hne
    refine ⟨h.agrees, h.numCtx, h.kv, h.frame, h.batch, h.length, h.absent,
      fun j hj => h.untouched j (List.mem_cons_of_mem _ hj), fun j seq hj hn => ?_, h.unread⟩
    by_cases hij : j = i
    · subst hij
      exact .skipped (hne seq hj) (htodo.trans hj) (by rw [hslot seq hj]) hnext
    · exact h.done j seq hj (by rw [List.mem_cons, not_or]; exact ⟨hij, hn⟩)
  unfold startSequence
  split
  · rename_i hi
    refine hskip fun seq hseq => ?_
    rw [← htodo, hi] at hseq
    cases hseq
  · rename_i seq hi
    have hs : s.sequence i = some seq := htodo.symm.trans hi
    split
    · rename_i href
      refine hskip fun seq' hseq => ?_
      rw [hs, Option.some.injEq] at hseq
      rw [← hseq, ← hbseqs]
      exact href
    · rename_i href
      rw [not_not, hbseqs] at href
      dsimp only
      split
      · rename_i hne
        exact h.commit hnotin hi href { seq with pendingInputs := [] } rfl rfl rfl rfl rfl rfl (fun _ _ => rfl) rfl
          (fun _ => rfl) fun h1 h2 => .committed href hne h2 h1 hnext
      · rename_i hnil
        rw [not_not] at hnil
        refine h.commit hnotin hi href { seq with
          pendingInputs := [], inputs := [{ token := tokens i }], sampledBy := some st.2.id } rfl rfl rfl rfl rfl rfl
          (fun j hne => List.getElem?_set_ne hne) List.length_set (fun hread => ?_) fun h1 h2 => .sampled href hnil (hbid ▸ h2) h1 ?_
        · dsimp only
          unfold readPlaceholder
          dsimp only
          rw [if_neg hread, List.append_nil]
        · dsimp only
          rw [List.getElem?_set_self (by rw [h.length.2]; exact hlt)]
          rfl

theorem starting_foldl {s : Server} {b : BatchState} {tokens : Nat → Int} {todo : List Nat} (hnodup : todo.Nodup)
    (hlt : ∀ i ∈ todo, i < s.seqs.length) {st : Server × BatchState} (h : Starting s b tokens todo st) :
    Starting s b tokens [] (todo.foldl (startSequence tokens) st) := by
  induction todo generalizing st with
  | nil => exact h
  | cons i todo ih =>
    rw [List.nodup_cons] at hnodup
    exact ih hnodup.2 (fun j hj => hlt j (List.mem_cons_of_mem _ hj)) (starting_step h hnodup.1 (hlt i (by simp)))

theorem sequence_none {s : Server} {i : Nat} (h : s.seqs.length ≤ i) : s.sequence i = none := by
  rw [sequence, List.getElem?_eq_none h]
  rfl

/-- The state after the first section. -/
structure StartedBatch (s : Server) (b : BatchState) (tokens : Nat → Int) (st : Server × BatchState) (s' : Server) :
    Prop where
  starting : Starting s b tokens [] st
  state : s' = { st.1 with built := none, computing := st.2 :: s.computing }
  ready : ∀ c ∈ s.computing, b.inputsReady ≠ some c.id

theorem startCompute_cases {s s' : Server} {tokens : Nat → Int} (h : Orderly s) (hs : s.startCompute tokens = some s') :
    ∃ b st, s.built = some b ∧ StartedBatch s b tokens st s' := by
  unfold startCompute at hs
  split at hs
  · cases hs
  · rename_i b hb
    split at hs
    · cases hs
    · rename_i hready
      refine ⟨b, _, hb, ?_, (Option.some.inj hs).symm, ?_⟩
      · refine starting_foldl List.nodup_range (fun i hi => List.mem_range.mp hi) ?_
        have hrep : ∀ i : Nat, ((List.replicate s.seqs.length (none : Option Input))[i]?).join = none := by
          intro i
          rw [List.getElem?_replicate]
          split <;> rfl
        refine ⟨h.agrees, rfl, rfl, rfl, rfl, ⟨rfl, by simp⟩, fun i hi => ⟨hi, hrep i⟩,
          fun i _ => ⟨rfl, hrep i, fun _ _ => rfl⟩, fun i seq hi hn => ?_, fun _ => rfl⟩
        rw [List.mem_range, not_lt] at hn
        rw [sequence_none hn] at hi
        cases hi
      · intro c hc heq
        apply hready
        rw [List.any_eq_true]
        exact ⟨c, hc, by simpa using heq⟩

section
variable {s s' : Server} {b : BatchState} {tokens : Nat → Int} {st : Server × BatchState}
  (h : StartedBatch s b tokens st s')
include h

theorem StartedBatch.sequence (i : Nat) : s'.sequence i = st.1.sequence i := by
  rw [h.state]
  rfl

theorem StartedBatch.slot (k : Nat) : s'.slot k = st.1.slot k := by
  rw [h.state]
  rfl

theorem StartedBatch.started {i : Nat} {seq' : Sequence} (hi : s'.sequence i = some seq') : ∃ seq,
    s.sequence i = some seq ∧ Started s b tokens st i seq := by
  rw [h.sequence] at hi
  cases hs : s.sequence i with
  | none =>
    rw [(h.starting.absent i hs).1] at hi
    cases hi
  | some seq => exact ⟨seq, rfl, h.starting.done i seq hs (by simp)⟩

end

theorem queued_of_started {s : Server} {b : BatchState} {tokens : Nat → Int} {st : Server × BatchState} {i : Nat}
    {seq seq' : Sequence} (hctx : 0 ≤ s.cache.numCtx) (hq : Queued s.cache.numCtx (s.slot seq.cache) seq)
    (hwait : seq.pendingInputs ≠ [] → (b.seqs[i]?).join = some seq.ref) (hst : Started s b tokens st i seq)
    (hi : st.1.sequence i = some seq') :
    Queued s.cache.numCtx (st.1.slot seq'.cache) seq' ∧ seq'.pendingInputs = [] := by
  cases hst with
  | skipped hne hseq hslot =>
    rw [hi, Option.some.injEq] at hseq
    subst hseq
    have hnil : seq'.pendingInputs = [] := by
      by_contra hp
      exact hne (hwait hp)
    refine ⟨⟨hq.ne, ?_⟩, hnil⟩
    rw [hslot]
    exact hq.fits
  | committed href hne hseq hslot =>
    rw [hi, Option.some.injEq] at hseq
    subst hseq
    refine ⟨⟨by simpa using hne, ?_⟩, rfl⟩
    dsimp only
    rw [hslot, List.nil_append]
    obtain hfits | ⟨x, hpend, hx, hsame, hfits, hfull⟩ := hq.fits
    · rw [List.append_assoc]
      exact .inl hfits
    · rw [hpend, List.append_nil]
      exact .inr ⟨x, rfl, hx, hsame, hfits, hfull⟩
  | sampled href hnil hseq hslot =>
    rw [hi, Option.some.injEq] at hseq
    subst hseq
    refine ⟨⟨by simp, ?_⟩, rfl⟩
    dsimp only
    rw [hslot, List.nil_append]
    obtain hfits | ⟨x, hpend, hx, hsame, hfits, hfull⟩ := hq.fits
    · rw [hnil, List.append_nil] at hfits
      have hle := hfits.length_le hctx
      by_cases hlt : (((s.slot seq.cache).inputs ++ seq.pendingInputs).length : Int) < s.cache.numCtx
      · exact .inl (hfits.concat rfl hlt)
      · exact .inr ⟨_, rfl, rfl, rfl, hfits, by omega⟩
    · rw [hnil] at hx
      cases hx

theorem orderly_startCompute {s s' : Server} {tokens : Nat → Int} (h : Orderly s)
    (hs : s.startCompute tokens = some s') : Orderly s' := by
  obtain ⟨b, st, hb, hst⟩ := startCompute_cases h hs
  have hctx : s'.cache.numCtx = s.cache.numCtx := by
    rw [hst.state]
    exact hst.starting.numCtx
  have hq : ∀ i seq', s'.sequence i = some seq' →
      Queued s.cache.numCtx (st.1.slot seq'.cache) seq' ∧ seq'.pendingInputs = [] := by
    intro i seq' hi
    obtain ⟨seq, hseq, hstarted⟩ := hst.started hi
    rw [hst.sequence] at hi
    exact queued_of_started h.ctx (h.queued i seq hseq) (h.waiting b hb i seq hseq) hstarted hi
  refine ⟨hctx ▸ h.ctx, ?_, fun i seq' hi => ?_, fun _ i seq' hi => (hq i seq' hi).2, fun b' hb' => ?_⟩
  · rw [hst.state]
    exact hst.starting.agrees
  · rw [hctx, hst.slot]
    exact (hq i seq' hi).1
  · rw [hst.state] at hb'
    cases hb'

/-! ## The second section -/

/-- What the second section does with a sequence. -/
inductive Finished (b : BatchState) (s : Server) (i : Nat) : Server → Prop
  | skipped : (∀ seq, s.sequence i = some seq → (b.seqs[i]?).join = some seq.ref →
    (b.nextBatchTokens[i]?).join = none) → Finished b s i s
  | removed {seq : Sequence} {n : Nat} {s' : Server} : s.sequence i = some seq → (b.seqs[i]?).join = some seq.ref →
    n ≤ (s.slot seq.cache).inputs.length → s' = { s with cache := s'.cache, seqs := s.seqs.set i none } →
    s'.cache = { s.cache with slots := s.cache.slots.modify seq.cache fun slot =>
      { slot with inputs := slot.inputs.take n, inUse := false } } → Finished b s i s'
  | kept {seq : Sequence} (pending : List Bytes) : s.sequence i = some seq → (b.seqs[i]?).join = some seq.ref →
    (b.nextBatchTokens[i]?).join ≠ none → pending.length ≤ seq.pendingResponses.length + 1 →
    Finished b s i { s with seqs := s.seqs.set i (some { seq with
      numPredicted := seq.numPredicted + 1, pendingResponses := pending }) }

theorem finished_removeSequence {b : BatchState} {s : Server} {i : Nat} {seq seq' : Sequence}
    (hin : s.cache.slots[seq.cache]? = some (s.slot seq.cache)) (hi : s.sequence i = some seq)
    (href : (b.seqs[i]?).join = some seq.ref) (hcache : seq'.cache = seq.cache) :
    Finished b s i (s.removeSequence i seq') := by
  refine .removed hi href (Nat.le_refl _) rfl ?_
  unfold removeSequence
  dsimp only
  congr 1
  refine List.ext_getElem? fun k => ?_
  rw [hcache, Runner.Server.getElem?_modify_slots hin, Runner.Server.getElem?_modify_slots hin, List.take_length]

theorem finished_addPiece {b : BatchState} {s s' : Server} {i : Nat} {seq : Sequence} {piece : Bytes} {quit : Bool}
    (hin : s.cache.slots[seq.cache]? = some (s.slot seq.cache)) (hi : s.sequence i = some seq)
    (href : (b.seqs[i]?).join = some seq.ref) (hnext : (b.nextBatchTokens[i]?).join ≠ none)
    (h : s.addPiece i { seq with numPredicted := seq.numPredicted + 1 } piece quit = some s') : Finished b s i s' := by
  unfold addPiece at h
  dsimp only at h
  split at h
  · cases h
    exact finished_removeSequence hin hi href rfl
  · split at h
    · rename_i stop hstop
      split at h
      · cases h
      · rename_i hlen
        cases h
        refine .removed hi href (n := (tokenLen (s.slot seq.cache).inputs.length (seq.pendingResponses ++ [piece]).length
          (truncateStop (seq.pendingResponses ++ [piece]) stop).1.length
          (truncateStop (seq.pendingResponses ++ [piece]) stop).2).toNat) (by omega) rfl ?_
        unfold removeSequence
        dsimp only
        congr 1
        refine List.ext_getElem? fun k => ?_
        rw [Runner.Server.getElem?_modify_slots hin, List.getElem?_modify, List.getElem?_modify]
        split
        · rename_i hk
          rw [← hk, hin]
          rfl
        · simp
    · split at h
      · cases h
        exact .kept (seq.pendingResponses ++ [piece]) hi href hnext (by simp)
      · split at h
        · cases h
          exact finished_removeSequence hin hi href rfl
        · cases h
          exact .kept [] hi href hnext (by simp)

theorem finishSequence_cases {b : BatchState} {quit : Nat → Bool} {s s' : Server} {i : Nat}
    (hin : ∀ seq, s.sequence i = some seq → s.cache.slots[seq.cache]? = some (s.slot seq.cache))
    (h : finishSequence b quit s i = some s') : Finished b s i s' := by
  unfold finishSequence at h
  split at h
  · rename_i seq next hi hnext
    have hne : (b.nextBatchTokens[i]?).join ≠ none := by rw [hnext]; simp
    split at h
    · rename_i href
      cases h
      refine .skipped fun seq' hseq href' => ?_
      rw [hi, Option.some.injEq] at hseq
      rw [hseq] at href
      exact absurd href' href
    · rename_i href
      rw [not_not] at href
      have hin := hin seq hi
      dsimp only at h
      split at h
      · cases h
        exact finished_removeSequence hin hi href rfl
      · split at h
        · cases h
        · split at h
          · cases h
          · split at h
            · cases h
              exact finished_removeSequence hin hi href rfl
            · split at h
              · cases h
              · exact finished_addPiece hin hi href hne h
  · rename_i hnone
    cases h
    refine .skipped fun seq hi href => ?_
    cases hnext : (b.nextBatchTokens[i]?).join with
    | none => rfl
    | some next => exact absurd hnext (hnone seq next hi)

/-- What became of a sequence in the second section. -/
inductive Result (b : BatchState) (s t : Server) (i : Nat) (seq : Sequence) : Prop
  | skipped : ((b.seqs[i]?).join = some seq.ref → (b.nextBatchTokens[i]?).join = none) → t.sequence i = some seq →
    t.slot seq.cache = s.slot seq.cache → Result b s t i seq
  | removed : t.sequence i = none → Result b s t i seq
  | kept (pending : List Bytes) : (b.seqs[i]?).join = some seq.ref → (b.nextBatchTokens[i]?).join ≠ none →
    pending.length ≤ seq.pendingResponses.length + 1 →
    t.sequence i = some { seq with numPredicted := seq.numPredicted + 1, pendingResponses := pending } →
    t.slot seq.cache = s.slot seq.cache → Result b s t i seq

theorem Result.congr {b : BatchState} {s t t' : Server} {i : Nat} {seq : Sequence} (h : Result b s t i seq)
    (hseq : t'.sequence i = t.sequence i)
    (hslot : ∀ seq', t.sequence i = some seq' → t'.slot seq'.cache = t.slot seq'.cache) : Result b s t' i seq := by
  cases h with
  | skipped h1 h2 h3 => exact .skipped h1 (hseq.trans h2) ((hslot _ h2).trans h3)
  | removed h1 => exact .removed (hseq.trans h1)
  | kept pending h1 h2 h3 h4 h5 => exact .kept pending h1 h2 h3 (hseq.trans h4) ((hslot _ h4).trans h5)

/-- The second section after some sequences. -/
structure Finishing (b : BatchState) (s : Server) (todo : List Nat) (t : Server) : Prop where
  agrees : Runner.Server.Agrees t.full
  numCtx : t.cache.numCtx = s.cache.numCtx
  kv : t.cache.cache = s.cache.cache
  frame : t = { s with cache := t.cache, seqs := t.seqs }
  length : t.seqs.length = s.seqs.length
  absent : ∀ i, s.sequence i = none → t.sequence i = none
  untouched : ∀ i ∈ todo, t.sequence i = s.sequence i ∧
    ∀ seq, s.sequence i = some seq → t.slot seq.cache = s.slot seq.cache
  done : ∀ i seq, s.sequence i = some seq → i ∉ todo → Result b s t i seq

theorem Finishing.update {b : BatchState} {s t t' : Server} {i : Nat} {todo : List Nat}
    (h : Finishing b s (i :: todo) t) (hnotin : i ∉ todo) {seq : Sequence} (hi : t.sequence i = some seq)
    (new : Option Sequence) (hagrees : Runner.Server.Agrees t'.full) (hctx : t'.cache.numCtx = t.cache.numCtx)
    (hkv : t'.cache.cache = t.cache.cache)
    (hframe : t' = { t with cache := t'.cache, seqs := t.seqs.set i new })
    (hslot : ∀ k, k ≠ seq.cache → t'.slot k = t.slot k)
    (hres : t'.sequence i = new → Result b s t' i seq) : Finishing b s todo t' := by
  obtain ⟨htodo, -⟩ := h.untouched i (by simp)
  have hs : s.sequence i = some seq := htodo.symm.trans hi
  have hseqs : t'.seqs = t.seqs.set i new := by rw [hframe]
  have hget : ∀ j, t'.sequence j = if i = j then new else t.sequence j := by
    intro j
    rw [← sequence_set hi new j, sequence, hseqs]
  have hother : ∀ j seq', i ≠ j → t.sequence j = some seq' → seq'.cache ≠ seq.cache :=
    fun j seq' hne hj => (apart_of_seen h.agrees hi hj hne).symm
  refine ⟨hagrees, hctx.trans h.numCtx, hkv.trans h.kv, ?_, ?_, fun j hj => ?_, fun j hj => ?_, fun j seq' hj hn => ?_⟩
  · rw [hframe]
    dsimp only
    rw [h.frame]
  · rw [hseqs, List.length_set, h.length]
  · have hne : i ≠ j := by
      rintro rfl
      rw [hs] at hj
      cases hj
    rw [hget, if_neg hne]
    exact h.absent j hj
  · have hne : i ≠ j := fun hij => hnotin (hij ▸ hj)
    obtain ⟨h1, h2⟩ := h.untouched j (List.mem_cons_of_mem _ hj)
    rw [hget, if_neg hne]
    refine ⟨h1, fun seq' hj' => ?_⟩
    rw [hslot _ (hother j seq' hne (h1.trans hj'))]
    exact h2 seq' hj'
  · by_cases hij : i = j
    · subst hij
      rw [hs, Option.some.injEq] at hj
      subst hj
      exact hres ((hget i).trans (if_pos rfl))
    · have hmem : j ∉ i :: todo := by
        rw [List.mem_cons, not_or]
        exact ⟨Ne.symm hij, hn⟩
      refine (h.done j seq' hj hmem).congr ((hget j).trans (if_neg hij)) fun seq₁ h₁ => ?_
      exact hslot _ (hother j seq₁ hij h₁)

theorem agrees_of_set {s : Server} {i : Nat} {seq seq' : Sequence} (h : Runner.Server.Agrees s.full)
    (hi : s.sequence i = some seq) (href : seq'.ref = seq.ref) (hcache : seq'.cache = seq.cache)
    (hpend : seq'.pendingInputs = seq.pendingInputs) :
    Runner.Server.Agrees { s with seqs := s.seqs.set i (some seq') }.full := by
  refine agrees_congr h rfl fun j => ?_
  have hset := sequence_set hi (some seq') j
  unfold full
  rw [seen_sequence, seen_sequence]
  unfold sequence at hset hi ⊢
  dsimp only
  rw [hset]
  split
  · rename_i hij
    rw [← hij, hi]
    simp [href, hcache, hpend]
  · rfl

theorem finishing_step {b : BatchState} {quit : Nat → Bool} {s t t' : Server} {i : Nat} {todo : List Nat}
    (h : Finishing b s (i :: todo) t) (hnotin : i ∉ todo) (hs : finishSequence b quit t i = some t') :
    Finishing b s todo t' := by
  obtain ⟨htodo, hslot⟩ := h.untouched i (by simp)
  cases finishSequence_cases (fun seq hi => slot_of_seen h.agrees hi) hs with
  | skipped hskip =>
    refine ⟨h.agrees, h.numCtx, h.kv, h.frame, h.length, h.absent,
      fun j hj => h.untouched j (List.mem_cons_of_mem _ hj), fun j seq hj hn => ?_⟩
    by_cases hij : j = i
    · subst hij
      exact .skipped (hskip seq (htodo.trans hj)) (htodo.trans hj) (hslot seq hj)
    · exact h.done j seq hj (by rw [List.mem_cons, not_or]; exact ⟨hij, hn⟩)
  | @removed seq n _ hi href hn hframe hcache =>
    have hin := slot_of_seen h.agrees hi
    refine h.update hnotin hi none (agrees_trim h.agrees hi hn hcache (by rw [hframe])) (by rw [hcache])
      (by rw [hcache]) hframe (fun k hk => ?_) .removed
    unfold slot
    rw [hcache, List.getD_eq_getElem?_getD, Runner.Server.getElem?_modify_slots hin, if_neg (Ne.symm hk),
      List.getD_eq_getElem?_getD]
  | @kept seq pending hi href hnext hlen =>
    refine h.update hnotin hi (some { seq with numPredicted := seq.numPredicted + 1, pendingResponses := pending })
      (agrees_of_set h.agrees hi rfl rfl rfl) rfl rfl rfl (fun _ _ => rfl) fun hseq => ?_
    exact .kept pending href hnext hlen hseq (hslot seq (htodo.symm.trans hi))

theorem finishing_exec {b : BatchState} {quit : Nat → Bool} {s t t' : Server} {todo rest : List Nat}
    (hnodup : (todo ++ rest).Nodup) (h : Finishing b s (todo ++ rest) t)
    (hs : exec (finishSequence b quit) t todo = some t') : Finishing b s rest t' := by
  induction todo generalizing t with
  | nil =>
    cases hs
    exact h
  | cons i todo ih =>
    rw [List.cons_append, List.nodup_cons] at hnodup
    obtain ⟨t₁, h₁, h₂⟩ := Option.bind_eq_some_iff.mp hs
    exact ih hnodup.2 (finishing_step h hnodup.1 h₁) h₂

theorem finishing_start {b : BatchState} {s : Server} (h : Runner.Server.Agrees s.full) {n : Nat}
    (hn : s.seqs.length ≤ n) : Finishing b s (List.range n) s := by
  refine ⟨h, rfl, rfl, rfl, rfl, fun _ hi => hi, fun _ _ => ⟨rfl, fun _ _ => rfl⟩, fun i seq hi hn => ?_⟩
  rw [List.mem_range, not_lt] at hn
  rw [sequence_none (by omega)] at hi
  cases hi

/-- The state after the second section. -/
structure FinishedBatch (s : Server) (b : BatchState) (t s' : Server) : Prop where
  mem : b ∈ s.computing
  finishing : Finishing b s [] t
  state : s' = { t with computing := t.computing.filter (·.id ≠ b.id) }

theorem finishCompute_cases {s s' : Server} {id : Nat} {quit : Nat → Bool} (h : Runner.Server.Agrees s.full)
    (hs : s.finishCompute id quit = some s') : ∃ b t, b.id = id ∧ FinishedBatch s b t s' := by
  unfold finishCompute at hs
  split at hs
  · cases hs
  · rename_i b hb
    obtain ⟨t, ht, rfl⟩ := Option.map_eq_some_iff.mp hs
    have hid : b.id = id := by simpa using List.find?_some hb
    have hstart := finishing_start (b := b) h (Nat.le_refl _)
    rw [← List.append_nil (List.range s.seqs.length)] at hstart
    refine ⟨b, t, hid, List.mem_of_find?_eq_some hb, finishing_exec ?_ hstart ht, ?_⟩
    · rw [List.append_nil]
      exact List.nodup_range
    · rw [hid]

section
variable {s t s' : Server} {b : BatchState} (h : FinishedBatch s b t s')
include h

theorem FinishedBatch.sequence (i : Nat) : s'.sequence i = t.sequence i := by
  rw [h.state]
  rfl

theorem FinishedBatch.slot (k : Nat) : s'.slot k = t.slot k := by
  rw [h.state]
  rfl

theorem FinishedBatch.result {i : Nat} {seq' : Sequence} (hi : s'.sequence i = some seq') : ∃ seq,
    s.sequence i = some seq ∧ Result b s t i seq := by
  rw [h.sequence] at hi
  cases hs : s.sequence i with
  | none =>
    rw [h.finishing.absent i hs] at hi
    cases hi
  | some seq => exact ⟨seq, rfl, h.finishing.done i seq hs (by simp)⟩

/-- A sequence that is still there has the same inputs. -/
theorem FinishedBatch.same {i : Nat} {seq' : Sequence} (hi : s'.sequence i = some seq') : ∃ seq pending n,
    s.sequence i = some seq ∧ seq' = { seq with pendingResponses := pending, numPredicted := n } ∧
      s'.slot seq.cache = s.slot seq.cache := by
  obtain ⟨seq, hseq, hres⟩ := h.result hi
  rw [h.sequence] at hi
  refine ⟨seq, seq'.pendingResponses, seq'.numPredicted, hseq, ?_⟩
  rw [h.slot]
  cases hres with
  | skipped _ h2 h3 =>
    rw [hi, Option.some.injEq] at h2
    subst h2
    exact ⟨rfl, h3⟩
  | removed h1 =>
    rw [h1] at hi
    cases hi
  | kept pending _ _ _ h4 h5 =>
    rw [hi, Option.some.injEq] at h4
    subst h4
    exact ⟨rfl, h5⟩

end

theorem orderly_finishCompute {s s' : Server} {id : Nat} {quit : Nat → Bool} (h : Orderly s)
    (hs : s.finishCompute id quit = some s') : Orderly s' := by
  obtain ⟨b, t, -, hf⟩ := finishCompute_cases h.agrees hs
  have hctx : s'.cache.numCtx = s.cache.numCtx := by
    rw [hf.state]
    exact hf.finishing.numCtx
  have hbuilt : s'.built = s.built := by
    rw [hf.state, hf.finishing.frame]
  refine ⟨hctx ▸ h.ctx, ?_, fun i seq' hi => ?_, fun hnone i seq' hi => ?_, fun b' hb' i seq' hi hne => ?_⟩
  · rw [hf.state]
    exact hf.finishing.agrees
  · obtain ⟨seq, pending, n, hseq, rfl, hslot⟩ := hf.same hi
    have hq := h.queued i seq hseq
    dsimp only
    rw [hctx, hslot]
    exact ⟨hq.ne, hq.fits⟩
  · obtain ⟨seq, pending, n, hseq, rfl, -⟩ := hf.same hi
    exact h.idle (hbuilt.symm.trans hnone) i seq hseq
  · obtain ⟨seq, pending, n, hseq, rfl, -⟩ := hf.same hi
    exact h.waiting b' (hbuilt.symm.trans hb') i seq hseq hne

end Server

end Xdragon.Runner.Pipeline
