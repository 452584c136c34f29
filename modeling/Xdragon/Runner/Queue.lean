import Mathlib.Data.Nat.ModEq
import Xdragon.Runner.Visits

/-!
# The queues of the sequences

What one call of `forwardBatch` does, when the inputs of the sequences fit into the context: the caches stay in
step, and each sequence has some of its next inputs in the batch, or is shifted.
-/

open Xdragon.Lib

namespace Xdragon.Runner.Pipeline

open Xdragon.Kvcache

namespace Server

/-! ## The server as the caches see it -/

/-- The sequences with the given pending inputs. -/
def seen (pending : Sequence → List Input) (s : Server) : Runner.Server where
  cache := s.cache
  seqs := s.seqs.map fun o => o.map fun seq =>
    { ref := seq.ref, cache := seq.cache, pendingInputs := pending seq }
  nextRef := s.nextRef

/-- With what the causal cache will have when the batch is computed. -/
def full (s : Server) : Runner.Server := s.seen (·.pendingInputs)

/-- Without the inputs of the batch that is being built. -/
def committed (s : Server) : Runner.Server := s.seen fun _ => []

theorem seen_sequence (pending : Sequence → List Input) (s : Server) (i : Nat) :
    (s.seen pending).sequence i = (s.sequence i).map fun seq =>
      { ref := seq.ref, cache := seq.cache, pendingInputs := pending seq } := by
  unfold Runner.Server.sequence sequence seen
  rw [List.getElem?_map]
  cases s.seqs[i]? <;> rfl

theorem sequence_set {s : Server} {i : Nat} {seq : Sequence} (h : s.sequence i = some seq) (new : Option Sequence)
    (j : Nat) : ((s.seqs.set i new)[j]?).join = if i = j then new else s.sequence j := by
  have hi : i < s.seqs.length := by
    by_contra hge
    rw [sequence, List.getElem?_eq_none (by omega)] at h
    cases h
  rw [List.getElem?_set]
  simp only [hi, if_true]
  split <;> rfl

/-- `forwardBatch` starts with all sequences. -/
theorem startForward_ref {s : Server} {i : Nat} {seq : Sequence} (h : s.sequence i = some seq) :
    (s.startForward.seqs[i]?).join = some seq.ref := by
  simp only [startForward, List.getElem?_map]
  unfold sequence at h
  cases hget : s.seqs[i]? with
  | none =>
    rw [hget] at h
    cases h
  | some o =>
    rw [hget, Option.join_some] at h
    rw [h]
    rfl

/-- The invariant of the caches needs the sequences only. -/
theorem agrees_congr {s s' : Runner.Server} (h : Runner.Server.Agrees s) (hcache : s'.cache = s.cache)
    (hseq : ∀ i, s'.sequence i = s.sequence i) : Runner.Server.Agrees s' := by
  refine ⟨hcache ▸ h.stocked, hcache ▸ h.numCtx, fun i seq hi => ?_, fun i j seq seq' hi hj => ?_⟩
  · rw [hcache]
    exact h.held i seq ((hseq i).symm.trans hi)
  · exact h.apart i j seq seq' ((hseq i).symm.trans hi) ((hseq j).symm.trans hj)

section
variable {pending : Sequence → List Input} {s : Server} (h : Runner.Server.Agrees (s.seen pending)) {i : Nat}
  {seq : Sequence} (hi : s.sequence i = some seq)
include h hi

theorem slot_of_seen : s.cache.slots[seq.cache]? = some (s.slot seq.cache) := by
  obtain ⟨slot, hh⟩ := h.held i _ ((seen_sequence pending s i).trans (by rw [hi]; rfl))
  have hs : (s.seen pending).slot seq.cache = slot := hh.slot_eq
  have hhas : s.cache.slots[seq.cache]? = some slot := hh.has
  rw [hhas, ← hs]
  rfl

theorem slot_id : (s.slot seq.cache).id = seq.cache := h.stocked.ids _ _ (slot_of_seen h hi)

theorem apart_of_seen {j : Nat} {seq' : Sequence} (hj : s.sequence j = some seq') (hne : i ≠ j) :
    seq.cache ≠ seq'.cache := by
  intro he
  exact hne (h.apart i j _ _ ((seen_sequence pending s i).trans (by rw [hi]; rfl))
    ((seen_sequence pending s j).trans (by rw [hj]; rfl)) he)

end

section
variable {pending : Sequence → List Input} {s : Server} (h : Runner.Server.Agrees (s.seen pending)) {i : Nat}
  {seq : Sequence} (hi : s.sequence i = some seq)
include h hi

/-- A removed sequence leaves a part of its inputs in the slot. -/
theorem agrees_trim {n : Nat} (hn : n ≤ (s.slot seq.cache).inputs.length) {s' : Server}
    (hcache : s'.cache = { s.cache with slots := s.cache.slots.modify seq.cache fun slot =>
      { slot with inputs := slot.inputs.take n, inUse := false } })
    (hseqs : s'.seqs = s.seqs.set i none) : Runner.Server.Agrees (s'.seen pending) := by
  have hrem : (s.seen pending).removeSequence i (some n) = some { s.seen pending with
      cache := s'.cache, seqs := (s.seen pending).seqs.set i none } := by
    unfold Runner.Server.removeSequence
    rw [seen_sequence, hi]
    dsimp only [Option.map_some]
    rw [if_neg (by simpa [Runner.Server.slot, seen, slot] using hn), hcache]
    rfl
  refine agrees_congr (Runner.Server.agrees_removeSequence h hrem) rfl fun j => ?_
  unfold Runner.Server.sequence seen
  rw [hseqs, List.map_set]
  rfl

theorem agrees_removed : Runner.Server.Agrees ((s.removeSequence i seq).seen pending) := by
  refine agrees_trim h hi (Nat.le_refl _) ?_ rfl
  unfold removeSequence
  dsimp only
  congr 1
  refine List.ext_getElem? fun k => ?_
  have hslot := slot_of_seen h hi
  rw [Runner.Server.getElem?_modify_slots hslot, Runner.Server.getElem?_modify_slots hslot, List.take_length]

theorem agrees_shifted (hpend : pending seq = []) {numKeep : Int} {fails : Nat → Nat → Nat → Bool} {cache : InputCache}
    {err : Option InputCacheError} (hs : s.cache.shiftCacheSlot seq.cache numKeep fails = some (cache, err))
    (herr : ∀ e, err = some e → ∃ inputs, e = .reprocess inputs) :
    Runner.Server.Agrees ({ s with cache := cache }.seen pending) := by
  have hshift : (s.seen pending).shiftSequence i numKeep fails = some ({ s with cache := cache }.seen pending) := by
    unfold Runner.Server.shiftSequence
    rw [seen_sequence, hi]
    dsimp only [Option.map_some, seen]
    rw [hpend, if_neg (by simp), hs]
    cases err with
    | none => rfl
    | some e =>
      obtain ⟨inputs, rfl⟩ := herr e rfl
      rfl
  exact Runner.Server.agrees_shiftSequence h hshift

end

theorem slot_set {slots : List InputCacheSlot} {k j : Nat} (slot : InputCacheSlot) (h : k ≠ j) :
    (slots.set k slot).getD j default = slots.getD j default := by
  rw [List.getD_eq_getElem?_getD, List.getElem?_set_ne h, List.getD_eq_getElem?_getD]

end Server

/-! ## The loop over the sequences -/

namespace Forward

/-- What became of a sequence in the batch so far. -/
inductive Outcome (s : Server) (f : Forward) (i : Nat) (seq : Sequence) : Prop
  | takes (t iBatch : Nat) : t ≤ seq.inputs.length → (WellFormed seq.inputs → Whole seq.inputs t) →
    (f.seqs[i]?).join = some seq.ref → f.server.slot seq.cache = s.slot seq.cache →
    f.server.sequence i = some { seq with
      iBatch := iBatch, pendingInputs := seq.inputs.take t, inputs := seq.inputs.drop t } → Outcome s f i seq
  | removed : f.server.sequence i = none → Outcome s f i seq
  | shifted (x : Input) (iBatch : Nat) (discard : Int) : seq.shift = true → seq.inputs = [x] →
    ((s.slot seq.cache).inputs.length : Int) = s.cache.numCtx →
    Drops s.cache (s.slot seq.cache) seq.numKeep discard → (f.seqs[i]?).join = some seq.ref →
    (f.server.slot seq.cache).inputs =
      InputCache.withoutDiscarded (s.slot seq.cache).inputs seq.numKeep discard →
    f.server.sequence i = some { seq with iBatch := iBatch, pendingInputs := [x], inputs := [] } → Outcome s f i seq
  | reprocess (x : Input) (discard : Int) : seq.shift = true → seq.inputs = [x] →
    ((s.slot seq.cache).inputs.length : Int) = s.cache.numCtx →
    Drops s.cache (s.slot seq.cache) seq.numKeep discard → (f.seqs[i]?).join = none →
    (f.server.slot seq.cache).inputs = [] →
    f.server.sequence i = some { seq with
      inputs := InputCache.withoutDiscarded (s.slot seq.cache).inputs seq.numKeep discard ++ [x] } →
    Outcome s f i seq

/-- The inputs of a sequence in the batch. -/
structure Placed (f : Forward) (seq : Sequence) : Prop where
  inputs : inputsOf f.tokens f.batchInputs seq.cache = seq.pendingInputs
  positions : positionsOf seq.cache f.tokens = (List.range seq.pendingInputs.length).map fun k : Nat =>
    ((f.server.slot seq.cache).inputs.length + k : Int)
  fits : seq.pendingInputs ≠ [] →
    ((f.server.slot seq.cache).inputs.length + seq.pendingInputs.length : Int) ≤ f.server.cache.numCtx
  /-- The row of the last input. -/
  row : seq.inputs = [] → ∃ r, f.batchOutputs[seq.iBatch]? = some r ∧
    f.tokens[r]? = some ⟨seq.cache, (f.server.slot seq.cache).inputs.length + seq.pendingInputs.length - 1⟩ ∧
    f.batchInputs[r]? = seq.pendingInputs.getLast?

/-- The loop after some sequences. Those of `todo` were not visited yet. -/
structure Loop (s : Server) (todo : List Nat) (f : Forward) : Prop where
  agrees : Runner.Server.Agrees f.server.committed
  length : f.tokens.length = f.batchInputs.length
  placed : ∀ i seq, f.server.sequence i = some seq → Placed f seq
  tokens : ∀ t ∈ f.tokens, ∃ i seq, f.server.sequence i = some seq ∧ t.seq = seq.cache
  numCtx : f.server.cache.numCtx = s.cache.numCtx
  frame : f.server = { s with cache := f.server.cache, seqs := f.server.seqs }
  len : f.server.seqs.length = s.seqs.length
  absent : ∀ i, s.sequence i = none → f.server.sequence i = none
  outcome : ∀ i seq, s.sequence i = some seq → Outcome s f i seq
  todo : ∀ i ∈ todo, f.server.sequence i = s.sequence i ∧ f.seqs[i]? = s.startForward.seqs[i]? ∧
    ∀ seq, s.sequence i = some seq → f.server.slot seq.cache = s.slot seq.cache

theorem Outcome.congr {s : Server} {f f' : Forward} {i : Nat} {seq : Sequence} (h : Outcome s f i seq)
    (hseqs : f'.seqs[i]? = f.seqs[i]?) (hslot : ∀ seq', f.server.sequence i = some seq' →
      f'.server.slot seq'.cache = f.server.slot seq'.cache)
    (hseq : f'.server.sequence i = f.server.sequence i) : Outcome s f' i seq := by
  cases h with
  | takes t iBatch h1 hw h2 h3 h4 =>
    exact .takes t iBatch h1 hw (hseqs ▸ h2) ((hslot _ h4).trans h3) (hseq.trans h4)
  | removed h1 => exact .removed (hseq.trans h1)
  | shifted x iBatch discard h1 h2 h3 h4 h5 h6 h7 =>
    exact .shifted x iBatch discard h1 h2 h3 h4 (hseqs ▸ h5) ((congrArg _ (hslot _ h7)).trans h6) (hseq.trans h7)
  | reprocess x discard h1 h2 h3 h4 h5 h6 h7 =>
    exact .reprocess x discard h1 h2 h3 h4 (hseqs ▸ h5) ((congrArg _ (hslot _ h7)).trans h6) (hseq.trans h7)

/-- A batch that goes on with inputs of one slot. -/
structure Adds (f f' : Forward) (slot : Nat) (xs : List Input) : Prop where
  batchInputs : f'.batchInputs = f.batchInputs ++ xs
  tokens : f'.tokens = f.tokens ++ (List.range xs.length).map fun k : Nat =>
    (⟨slot, (f'.server.slot slot).inputs.length + k⟩ : Token)
  outputs : f.batchOutputs <+: f'.batchOutputs

theorem Adds.nil {f f' : Forward} {slot : Nat} (hb : f'.batchInputs = f.batchInputs) (ht : f'.tokens = f.tokens)
    (ho : f'.batchOutputs = f.batchOutputs) : Adds f f' slot [] :=
  ⟨by simp [hb], by simp [ht], by simp [ho]⟩

theorem Adds.length {f f' : Forward} {slot : Nat} {xs : List Input} (h : Adds f f' slot xs)
    (hlen : f.tokens.length = f.batchInputs.length) : f'.tokens.length = f'.batchInputs.length := by
  rw [h.tokens, h.batchInputs]
  simp [hlen]

theorem Adds.positions {f f' : Forward} {slot : Nat} {xs : List Input} (h : Adds f f' slot xs) (k : Nat) :
    positionsOf k f'.tokens = positionsOf k f.tokens ++ if k = slot then (List.range xs.length).map fun n : Nat =>
      ((f'.server.slot slot).inputs.length + n : Int) else [] := by
  have := Runner.Server.tokens_positions slot (f'.server.slot slot).inputs.length xs.length k
  rw [h.tokens, positionsOf_append, this]
  simp only [Int.natCast_inj]

theorem Adds.inputs {f f' : Forward} {slot : Nat} {xs : List Input} (h : Adds f f' slot xs)
    (hlen : f.tokens.length = f.batchInputs.length) (k : Nat) : inputsOf f'.tokens f'.batchInputs k =
      inputsOf f.tokens f.batchInputs k ++ if k = slot then xs else [] := by
  have := Runner.Server.tokens_inputs slot (f'.server.slot slot).inputs.length xs k
  rw [h.tokens, h.batchInputs, inputsOf_append hlen, this]
  simp only [Int.natCast_inj]

/-- The other sequences of the batch stay where they are. -/
theorem Placed.adds {f f' : Forward} {slot : Nat} {xs : List Input} (hadds : Adds f f' slot xs)
    (hlen : f.tokens.length = f.batchInputs.length) {seq : Sequence} (h : Placed f seq) (hne : seq.cache ≠ slot)
    (hslot : f'.server.slot seq.cache = f.server.slot seq.cache)
    (hctx : f'.server.cache.numCtx = f.server.cache.numCtx) : Placed f' seq := by
  refine ⟨?_, ?_, ?_, fun hnil => ?_⟩
  · rw [hadds.inputs hlen, if_neg hne, List.append_nil, h.inputs]
  · rw [hadds.positions, if_neg hne, List.append_nil, h.positions, hslot]
  · rw [hslot, hctx]
    exact h.fits
  · obtain ⟨r, h1, h2, h3⟩ := h.row hnil
    have hr : r < f.tokens.length := (List.getElem?_eq_some_iff.mp h2).1
    refine ⟨r, ?_, ?_, ?_⟩
    · obtain ⟨more, hmore⟩ := hadds.outputs
      rw [← hmore, List.getElem?_append_left (List.getElem?_eq_some_iff.mp h1).1]
      exact h1
    · rw [hadds.tokens, List.getElem?_append_left hr, hslot]
      exact h2
    · rw [hadds.batchInputs, List.getElem?_append_left (by omega)]
      exact h3

theorem Loop.update {s : Server} {i : Nat} {todo : List Nat} {f f' : Forward} (h : Loop s (i :: todo) f)
    (hnotin : i ∉ todo) {seq : Sequence} (hi : f.server.sequence i = some seq) (new : Option Sequence)
    (hserver : f'.server = { f.server with cache := f'.server.cache, seqs := f.server.seqs.set i new })
    {xs : List Input} (hadds : Adds f f' seq.cache xs)
    (hseqs : ∀ j, j ≠ i → f'.seqs[j]? = f.seqs[j]?)
    (hctx : f'.server.cache.numCtx = f.server.cache.numCtx)
    (hslots : ∀ k, k ≠ seq.cache → f'.server.slot k = f.server.slot k)
    (hagrees : Runner.Server.Agrees f'.server.committed)
    (hnone : new = none → f'.tokens = f.tokens ∧ seq.pendingInputs = [])
    (hnew : ∀ seq', new = some seq' → seq'.cache = seq.cache ∧ Placed f' seq')
    (hout : Outcome s f' i seq) : Loop s todo f' := by
  have hs : s.sequence i = some seq := (h.todo i (by simp)).1.symm.trans hi
  have hget : ∀ j, f'.server.sequence j = if i = j then new else f.server.sequence j := by
    intro j
    rw [← Server.sequence_set hi new j, hserver]
    rfl
  have hother : ∀ j seq', i ≠ j → f.server.sequence j = some seq' → seq'.cache ≠ seq.cache :=
    fun j seq' hne hj => (Server.apart_of_seen h.agrees hi hj hne).symm
  refine ⟨hagrees, hadds.length h.length, fun j seq' hj => ?_, fun t ht => ?_, hctx.trans h.numCtx, ?_, ?_,
    fun j hj => ?_, fun j seq' hj => ?_, fun j hj => ?_⟩
  · rw [hget] at hj
    split at hj
    · exact (hnew seq' hj).2
    · rename_i hne
      have hc := hother j seq' hne hj
      exact Placed.adds hadds h.length (h.placed j seq' hj) hc (hslots _ hc) hctx
  · -- a token of the batch belongs to a sequence that is still there
    have hold : ∀ t ∈ f.tokens, ∃ j seq', f'.server.sequence j = some seq' ∧ t.seq = seq'.cache := by
      intro t ht
      obtain ⟨j, seq', hj, hts⟩ := h.tokens t ht
      by_cases hij : i = j
      · subst hij
        rw [hi, Option.some.injEq] at hj
        subst hj
        cases hn : new with
        | none =>
          have hmem : t.pos ∈ positionsOf seq.cache f.tokens := mem_positionsOf_iff.mpr ⟨t, ht, hts, rfl⟩
          rw [(h.placed i seq hi).positions, (hnone hn).2] at hmem
          cases hmem
        | some seq' =>
          refine ⟨i, seq', (hget i).trans ((if_pos rfl).trans hn), ?_⟩
          rw [(hnew seq' hn).1]
          exact hts
      · exact ⟨j, seq', (hget j).trans ((if_neg hij).trans hj), hts⟩
    cases hn : new with
    | none =>
      rw [(hnone hn).1] at ht
      exact hold t ht
    | some seq' =>
      rw [hadds.tokens, List.mem_append] at ht
      obtain ht | ht := ht
      · exact hold t ht
      · obtain ⟨k, -, rfl⟩ := List.mem_map.mp ht
        refine ⟨i, seq', (hget i).trans ((if_pos rfl).trans hn), ?_⟩
        rw [(hnew seq' hn).1]
  · rw [hserver]
    dsimp only
    rw [h.frame]
  · rw [hserver]
    dsimp only
    rw [List.length_set, h.len]
  · rw [hget]
    split
    · rename_i hij
      rw [← hij, hs] at hj
      cases hj
    · exact h.absent j hj
  · by_cases hij : i = j
    · subst hij
      rw [hs, Option.some.injEq] at hj
      exact hj ▸ hout
    · refine (h.outcome j seq' hj).congr (hseqs j (Ne.symm hij)) (fun seq₁ h₁ => ?_) ((hget j).trans (if_neg hij))
      exact hslots _ (hother j seq₁ hij h₁)
  · have hne : i ≠ j := fun hij => hnotin (hij ▸ hj)
    obtain ⟨h1, h2, h3⟩ := h.todo j (List.mem_cons_of_mem _ hj)
    refine ⟨?_, (hseqs j hne.symm).trans h2, fun seq' hj' => ?_⟩
    · rw [hget, if_neg hne]
      exact h1
    · rw [hslots _ (hother j seq' hne (h1.trans hj'))]
      exact h3 seq' hj'

theorem Takes.adds {f f₁ f' : Forward} {seq seq' : Sequence} {t : Nat} (h : Takes f seq t f₁ seq')
    (hid : (f.server.slot seq.cache).id = seq.cache) (hslot : f'.server.slot seq.cache = f.server.slot seq.cache)
    (hbatch : f'.batchInputs = f₁.batchInputs) (htokens : f'.tokens = f₁.tokens)
    (houtputs : f'.batchOutputs = f₁.batchOutputs) : Adds f f' seq.cache (seq.inputs.take t) := by
  refine ⟨hbatch.trans h.batchInputs, ?_, houtputs ▸ h.outputs⟩
  rw [htokens, h.tokens, hslot, hid, List.length_take, Nat.min_eq_left h.le]

/-- A sequence that had nothing in the batch. -/
theorem Takes.placed {f f₁ f' : Forward} {seq seq' : Sequence} {t : Nat} (h : Takes f seq t f₁ seq')
    (hadds : Adds f f' seq.cache (seq.inputs.take t)) (hlen : f.tokens.length = f.batchInputs.length)
    (hpos : positionsOf seq.cache f.tokens = []) (hins : inputsOf f.tokens f.batchInputs seq.cache = [])
    (hne : seq.inputs ≠ []) (houtputs : f'.batchOutputs = f₁.batchOutputs)
    (hfits : t ≠ 0 → ((f'.server.slot seq.cache).inputs.length + t : Int) ≤ f'.server.cache.numCtx) :
    Placed f' { seq' with inputs := seq.inputs.drop t } := by
  have hcache : seq'.cache = seq.cache := by rw [h.sequence]
  have hpend : seq'.pendingInputs = seq.inputs.take t := by rw [h.sequence]
  have htake : (seq.inputs.take t).length = t := by
    rw [List.length_take]
    exact Nat.min_eq_left h.le
  refine ⟨?_, ?_, fun hn => ?_, fun hnil => ?_⟩
  · rw [hcache, hpend, hadds.inputs hlen, hins, if_pos rfl]
    rfl
  · rw [hcache, hpend, hadds.positions, hpos, if_pos rfl]
    rfl
  · rw [hcache, hpend, htake]
    refine hfits ?_
    rintro rfl
    exact hn (by rw [hpend, List.take_zero])
  · -- the row is the one of the last input
    rw [List.drop_eq_nil_iff] at hnil
    have ht : t = seq.inputs.length := Nat.le_antisymm h.le hnil
    have h0 : t ≠ 0 := by
      rw [ht]
      exact fun he => hne (List.length_eq_zero_iff.mp he)
    refine ⟨f.batchInputs.length + t - 1, ?_, ?_, ?_⟩
    · rw [houtputs]
      exact h.row ht h0
    · dsimp only
      rw [hadds.tokens, List.getElem?_append_right (by omega), List.getElem?_map, htake, hpend, htake, hcache,
        List.getElem?_range (by omega)]
      simp only [Option.map_some, Option.some.injEq, Token.mk.injEq, true_and]
      omega
    · dsimp only
      rw [hadds.batchInputs, List.getElem?_append_right (by omega), hpend, List.getLast?_eq_getElem?, htake]
      congr 1
      omega

/-- Nothing of the inputs is in the slot or the batch. -/
theorem agrees_set {f : Forward} {i : Nat} {seq seq' : Sequence} (h : Runner.Server.Agrees f.server.committed)
    (hi : f.server.sequence i = some seq) (href : seq'.ref = seq.ref) (hcache : seq'.cache = seq.cache) :
    Runner.Server.Agrees { f.server with seqs := f.server.seqs.set i (some seq') }.committed := by
  refine Server.agrees_congr h rfl fun j => ?_
  have hset := Server.sequence_set hi (some seq') j
  unfold Server.committed
  rw [Server.seen_sequence, Server.seen_sequence]
  unfold Server.sequence at hset ⊢
  dsimp only
  rw [hset]
  split
  · rename_i hij
    rw [← hij]
    unfold Server.sequence at hi
    rw [hi]
    simp [href, hcache]
  · rfl

/-- The loop is at a sequence with inputs. -/
structure Next (s : Server) (i : Nat) (todo : List Nat) (f : Forward) (seq : Sequence) : Prop where
  loop : Loop s (i :: todo) f
  notin : i ∉ todo
  sequence : f.server.sequence i = some seq
  pending : seq.pendingInputs = []
  inputs : seq.inputs ≠ []
  ref : (f.seqs[i]?).join = some seq.ref
  slot : f.server.slot seq.cache = s.slot seq.cache

section
variable {fails : Nat → Nat → Nat → Bool} {s : Server} {i : Nat} {todo : List Nat} {f f₁ : Forward} {seq seq' : Sequence}

theorem Next.has (h : Next s i todo f seq) : f.server.cache.slots[seq.cache]? = some (f.server.slot seq.cache) :=
  Server.slot_of_seen h.loop.agrees h.sequence

theorem Next.positions (h : Next s i todo f seq) : positionsOf seq.cache f.tokens = [] := by
  simpa [h.pending] using (h.loop.placed i seq h.sequence).positions

theorem Next.noInputs (h : Next s i todo f seq) : inputsOf f.tokens f.batchInputs seq.cache = [] :=
  (h.loop.placed i seq h.sequence).inputs.trans h.pending

theorem Next.takes (h : Next s i todo f seq) {t : Nat} (ht : Takes f seq t f₁ seq')
    (hfits : t ≠ 0 → ((f.server.slot seq.cache).inputs.length + t : Int) ≤ f.server.cache.numCtx)
    (hwhole : WellFormed seq.inputs → Whole seq.inputs t) :
    Loop s todo { f₁ with server := { f₁.server with
      seqs := f₁.server.seqs.set i (some { seq' with inputs := seq.inputs.drop t }) } } := by
  have hsame : ∀ k, f₁.server.slot k = f.server.slot k := fun k => by rw [ht.server]
  have hctx : f₁.server.cache.numCtx = f.server.cache.numCtx := by rw [ht.server]
  have hadds : Adds f { f₁ with server := { f₁.server with
      seqs := f₁.server.seqs.set i (some { seq' with inputs := seq.inputs.drop t }) } } seq.cache
      (seq.inputs.take t) := ht.adds (Server.slot_id h.loop.agrees h.sequence) (hsame _) rfl rfl rfl
  refine h.loop.update h.notin h.sequence (some { seq' with inputs := seq.inputs.drop t }) ?_ hadds
    (fun j _ => by rw [ht.seqs]) hctx (fun k _ => hsame k) ?_ (fun hn => nomatch hn) ?_ ?_
  · dsimp only
    rw [ht.server]
  · dsimp only
    rw [ht.server]
    exact agrees_set h.loop.agrees h.sequence (by rw [ht.sequence]) (by rw [ht.sequence])
  · intro seq'' hn
    cases hn
    refine ⟨by rw [ht.sequence], ht.placed hadds h.loop.length h.positions h.noInputs h.inputs rfl fun h0 => ?_⟩
    have := hfits h0
    rw [← hsame, ← hctx] at this
    exact this
  · refine .takes t seq'.iBatch ht.le hwhole (by rw [ht.seqs]; exact h.ref) ((hsame _).trans h.slot) ?_
    have hset := Server.sequence_set h.sequence (some { seq' with inputs := seq.inputs.drop t }) i
    rw [if_pos rfl, ← ht.server] at hset
    refine hset.trans (congrArg some ?_)
    exact congrArg (fun q : Sequence => { q with inputs := seq.inputs.drop t }) ht.sequence

theorem Next.removed (h : Next s i todo f seq) :
    Loop s todo { f with server := f.server.removeSequence i seq, seqs := f.seqs.set i none } := by
  refine h.loop.update h.notin h.sequence none rfl (Adds.nil rfl rfl rfl) ?_ rfl ?_
    (Server.agrees_removed h.loop.agrees h.sequence) (fun _ => ⟨rfl, h.pending⟩) (fun _ hn => nomatch hn) (.removed ?_)
  · intro j hj
    dsimp only
    rw [List.getElem?_set_ne hj.symm]
  · intro k hk
    unfold Server.slot Server.removeSequence
    dsimp only
    rw [List.getD_eq_getElem?_getD, Runner.Server.getElem?_modify_slots h.has, if_neg (Ne.symm hk),
      List.getD_eq_getElem?_getD]
  · exact (Server.sequence_set h.sequence none i).trans (if_pos rfl)

theorem Next.shifted (h : Next s i todo f seq) {x : Input} {cache : InputCache} (hshift : seq.shift = true)
    (hx : seq.inputs = [x]) (hfull : ((f.server.slot seq.cache).inputs.length : Int) = f.server.cache.numCtx)
    (hs : f.server.cache.shiftCacheSlot seq.cache seq.numKeep fails = some (cache, none))
    (ht : Takes { f with server := { f.server with cache := cache } } seq 1 f₁ seq') :
    Loop s todo { f₁ with server := { f₁.server with
      seqs := f₁.server.seqs.set i (some { seq' with inputs := [] }) } } := by
  obtain ⟨hctx, hok, -⟩ := shiftCacheSlot_full h.has hfull hs
  obtain ⟨discard, hdrops, hslots⟩ := hok rfl
  have hslot : { f.server with cache := cache }.slot seq.cache = { f.server.slot seq.cache with
      inputs := InputCache.withoutDiscarded (f.server.slot seq.cache).inputs seq.numKeep discard } := by
    unfold Server.slot
    dsimp only
    rw [hslots, List.getD_eq_getElem?_getD, List.getElem?_set_self (List.getElem?_eq_some_iff.mp h.has).1]
    rfl
  have hagrees := Server.agrees_shifted h.loop.agrees h.sequence rfl hs fun e he => nomatch he
  have hid := Server.slot_id hagrees h.sequence
  have hsame : ∀ k, f₁.server.slot k = { f.server with cache := cache }.slot k := fun k => by rw [ht.server]
  have hdrop : seq.inputs.drop 1 = [] := by rw [hx]; rfl
  have hadds₀ : Adds { f with server := { f.server with cache := cache } } { f₁ with server := { f₁.server with
      seqs := f₁.server.seqs.set i (some { seq' with inputs := [] }) } } seq.cache (seq.inputs.take 1) :=
    ht.adds hid (hsame _) rfl rfl rfl
  have hadds : Adds f _ seq.cache (seq.inputs.take 1) := ⟨hadds₀.batchInputs, hadds₀.tokens, hadds₀.outputs⟩
  have hplaced := ht.placed hadds₀ h.loop.length h.positions h.noInputs h.inputs rfl fun _ => by
    have hlt := hdrops.length_lt
    have hs₁ : f₁.server.slot seq.cache = _ := (hsame _).trans hslot
    have hc₁ : f₁.server.cache.numCtx = f.server.cache.numCtx := by
      rw [ht.server]
      exact hctx
    show ((f₁.server.slot seq.cache).inputs.length + (1 : Nat) : Int) ≤ f₁.server.cache.numCtx
    rw [hs₁, hc₁]
    dsimp only
    omega
  rw [hdrop] at hplaced
  refine h.loop.update h.notin h.sequence (some { seq' with inputs := [] }) ?_ hadds (fun j _ => by rw [ht.seqs])
    ?_ ?_ ?_ (fun hn => nomatch hn) ?_ ?_
  · dsimp only
    rw [ht.server]
  · dsimp only
    rw [ht.server]
    exact hctx
  · intro k hk
    refine (hsame k).trans ?_
    unfold Server.slot
    dsimp only
    rw [hslots, Server.slot_set _ (Ne.symm hk)]
  · dsimp only
    rw [ht.server]
    exact agrees_set hagrees h.sequence (by rw [ht.sequence]) (by rw [ht.sequence])
  · intro seq'' hn
    cases hn
    exact ⟨by rw [ht.sequence], hplaced⟩
  · refine .shifted x seq'.iBatch discard hshift hx ?_ ?_ (by rw [ht.seqs]; exact h.ref) ?_ ?_
    · rw [← h.slot, ← h.loop.numCtx]
      exact hfull
    · rw [← h.slot]
      exact hdrops.congr h.loop.numCtx.symm
    · rw [← h.slot]
      exact congrArg _ ((hsame _).trans hslot)
    · have hset := Server.sequence_set h.sequence (some { seq' with inputs := [] }) i
      rw [if_pos rfl, show f.server.seqs = f₁.server.seqs by rw [ht.server]] at hset
      refine hset.trans (congrArg some ?_)
      have hseq := congrArg (fun q : Sequence => { q with inputs := [] }) ht.sequence
      rwa [hx] at hseq

theorem Next.reprocess (h : Next s i todo f seq) {x : Input} {cache : InputCache} {inputs : List Input}
    (hshift : seq.shift = true) (hx : seq.inputs = [x])
    (hfull : ((f.server.slot seq.cache).inputs.length : Int) = f.server.cache.numCtx)
    (hs : f.server.cache.shiftCacheSlot seq.cache seq.numKeep fails = some (cache, some (.reprocess inputs))) :
    Loop s todo { f with
      server := { f.server with
        cache := cache
        seqs := f.server.seqs.set i (some { seq with inputs := inputs ++ [x] }) }
      seqs := f.seqs.set i none } := by
  obtain ⟨hctx, -, herr⟩ := shiftCacheSlot_full h.has hfull hs
  obtain ⟨discard, hdrops, hinputs, hslots⟩ := herr inputs rfl
  have hslot : cache.slots.getD seq.cache default = { f.server.slot seq.cache with inputs := [] } := by
    rw [hslots, List.getD_eq_getElem?_getD, List.getElem?_set_self (List.getElem?_eq_some_iff.mp h.has).1]
    rfl
  have hagrees := Server.agrees_shifted h.loop.agrees h.sequence rfl hs fun e he => by
    cases he
    exact ⟨inputs, rfl⟩
  refine h.loop.update h.notin h.sequence (some { seq with inputs := inputs ++ [x] }) rfl (Adds.nil rfl rfl rfl)
    ?_ hctx ?_ ?_ (fun hn => nomatch hn) ?_ ?_
  · intro j hj
    dsimp only
    rw [List.getElem?_set_ne hj.symm]
  · intro k hk
    unfold Server.slot
    dsimp only
    rw [hslots, Server.slot_set _ (Ne.symm hk)]
  · exact agrees_set (f := { f with server := { f.server with cache := cache } }) hagrees h.sequence rfl rfl
  · intro seq'' hn
    cases hn
    refine ⟨rfl, ?_, ?_, fun hne => absurd h.pending hne, fun hnil => by simp at hnil⟩
    · exact h.noInputs.trans h.pending.symm
    · dsimp only
      rw [h.positions, h.pending]
      rfl
  · refine .reprocess x discard hshift hx ?_ ?_ ?_ ?_ ?_
    · rw [← h.slot, ← h.loop.numCtx]
      exact hfull
    · rw [← h.slot]
      exact hdrops.congr h.loop.numCtx.symm
    · dsimp only
      rw [List.getElem?_set, if_pos rfl]
      split <;> rfl
    · exact congrArg InputCacheSlot.inputs hslot
    · rw [← h.slot, ← hinputs]
      exact (Server.sequence_set h.sequence (some { seq with inputs := inputs ++ [x] }) i).trans (if_pos rfl)

end

theorem loop_visit {fails : Nat → Nat → Nat → Bool} {s : Server} {i : Nat} {todo : List Nat} {f f' : Forward}
    (h : Loop s (i :: todo) f) (hnotin : i ∉ todo) (hidle : ∀ j seq, s.sequence j = some seq → seq.pendingInputs = [])
    (hq : ∀ j seq, s.sequence j = some seq → Queued s.cache.numCtx (s.slot seq.cache) seq)
    (hv : visit fails f i = some f') : Loop s todo f' := by
  obtain ⟨htodo, hseqs, hslot⟩ := h.todo i (by simp)
  cases hi : f.server.sequence i with
  | none =>
    unfold visit at hv
    rw [hi] at hv
    cases hv
    exact ⟨h.agrees, h.length, h.placed, h.tokens, h.numCtx, h.frame, h.len, h.absent, h.outcome,
      fun j hj => h.todo j (List.mem_cons_of_mem _ hj)⟩
  | some seq =>
    have hs : s.sequence i = some seq := htodo.symm.trans hi
    have hpend := hidle i seq hs
    have hqueued := hq i seq hs
    have hnext : Next s i todo f seq :=
      ⟨h, hnotin, hi, hpend, by simpa [hpend] using hqueued.ne, hseqs ▸ Server.startForward_ref hs, hslot seq hs⟩
    rw [← h.numCtx, ← hslot seq hs] at hqueued
    cases visit_cases hi hpend hqueued hv with
    | takes ht hfits hwhole => exact hnext.takes ht hfits hwhole
    | removed => exact hnext.removed
    | shifted hshift hx hfull _ hs' ht => exact hnext.shifted hshift hx hfull hs' ht
    | reprocess hshift hx hfull _ hs' => exact hnext.reprocess hshift hx hfull hs'

theorem loop_exec {fails : Nat → Nat → Nat → Bool} {s : Server} {todo : List Nat} (hnodup : todo.Nodup)
    (hidle : ∀ j seq, s.sequence j = some seq → seq.pendingInputs = [])
    (hq : ∀ j seq, s.sequence j = some seq → Queued s.cache.numCtx (s.slot seq.cache) seq) {f f' : Forward}
    (h : Loop s todo f) (hv : exec (visit fails) f todo = some f') : Loop s [] f' := by
  induction todo generalizing f with
  | nil =>
    cases hv
    exact h
  | cons i todo ih =>
    rw [List.nodup_cons] at hnodup
    obtain ⟨f₁, h₁, h₂⟩ := Option.bind_eq_some_iff.mp hv
    exact ih hnodup.2 (loop_visit h hnodup.1 hidle hq h₁) h₂

end Forward

/-! ## The sequences between two steps -/

namespace Server

theorem order_nodup (s : Server) : s.order.Nodup := by
  refine List.Nodup.map_on ?_ List.nodup_range
  intro a ha b hb hab
  rw [List.mem_range] at ha hb
  have hmod : a ≡ b [MOD s.seqs.length] := Nat.ModEq.add_left_cancel' s.nextSeq hab
  exact Nat.ModEq.eq_of_lt_of_lt hmod ha hb

/-- The invariant of a run. -/
structure Orderly (s : Server) : Prop where
  ctx : 0 ≤ s.cache.numCtx
  agrees : Runner.Server.Agrees s.full
  queued : ∀ i seq, s.sequence i = some seq → Queued s.cache.numCtx (s.slot seq.cache) seq
  idle : s.built = none → ∀ i seq, s.sequence i = some seq → seq.pendingInputs = []
  waiting : ∀ b, s.built = some b → ∀ i seq, s.sequence i = some seq → seq.pendingInputs ≠ [] →
    (b.seqs[i]?).join = some seq.ref

theorem committed_of_idle {s : Server} (hidle : ∀ i seq, s.sequence i = some seq → seq.pendingInputs = []) (i : Nat) :
    s.committed.sequence i = s.full.sequence i := by
  unfold committed full
  rw [seen_sequence, seen_sequence]
  cases hi : s.sequence i with
  | none => rfl
  | some seq => simp [hidle i seq hi]

theorem loop_start {s : Server} (h : Orderly s) (hb : s.built = none) : Forward.Loop s s.order s.startForward := by
  have hidle := h.idle hb
  refine ⟨agrees_congr h.agrees rfl (committed_of_idle hidle), rfl, fun i seq hi => ?_, fun t ht => (nomatch ht), rfl, rfl,
    rfl, fun i hi => hi, fun i seq hi => ?_, fun i hi => ⟨rfl, rfl, fun _ _ => rfl⟩⟩
  · have hpend := hidle i seq hi
    refine ⟨?_, ?_, fun hne => absurd hpend hne, fun hnil => ?_⟩
    · rw [hpend]
      rfl
    · rw [hpend]
      rfl
    · exact absurd (by rw [hpend, hnil]; rfl) (h.queued i seq hi).ne
  · refine .takes 0 seq.iBatch (Nat.zero_le _) (fun _ => whole_zero _) (startForward_ref hi) rfl ?_
    rw [List.take_zero, List.drop_zero, ← hidle i seq hi]
    exact hi

/-! ## Forwarding -/

/-- The sequences of the batch are those of the server. -/
theorem built_of_loop {s : Server} {f : Forward} (h : Forward.Loop s [] f) :
    Runner.Server.Built f.server.committed f.server.full f.tokens f.batchInputs := by
  refine ⟨rfl, h.length, fun i seq hi => ?_, fun i hi => ?_, fun t ht => ?_⟩
  · unfold committed at hi
    rw [seen_sequence, Option.map_eq_some_iff] at hi
    obtain ⟨q, hq, rfl⟩ := hi
    have hp := h.placed i q hq
    refine ⟨q.pendingInputs, ?_, hp.inputs, ?_, fun hne => ?_⟩
    · unfold full
      rw [seen_sequence, hq]
      rfl
    · rw [hp.positions]
      refine List.map_congr_left fun k _ => ?_
      simp [committed, seen, Runner.Server.slot, slot]
    · have := hp.fits hne
      simpa [committed, seen, Runner.Server.slot, slot] using this
  · unfold committed at hi
    unfold full
    rw [seen_sequence, Option.map_eq_none_iff] at hi
    rw [seen_sequence, hi]
    rfl
  · obtain ⟨i, q, hq, hts⟩ := h.tokens t ht
    refine ⟨i, { ref := q.ref, cache := q.cache }, ?_, hts⟩
    unfold committed
    rw [seen_sequence, hq]
    rfl

/-- What `forwardBatch` leaves behind its loop. -/
structure Forwarded (s : Server) (f : Forward) (s' : Server) : Prop where
  loop : Forward.Loop s [] f
  seqs : s'.seqs = f.server.seqs
  slots : s'.cache.slots = f.server.cache.slots
  numCtx : s'.cache.numCtx = f.server.cache.numCtx
  nextRef : s'.nextRef = s.nextRef
  computing : s'.computing = s.computing
  batch : (f.batchInputs = [] ∧ s'.built = none ∧ s'.previousBatch = none ∧ s'.cache = f.server.cache ∧
      s'.unread = s.unread ∧ s'.batchID = s.batchID) ∨
    ∃ kv, f.server.cache.cache.startForward f.tokens false = (kv, none) ∧
      s'.cache = { f.server.cache with cache := kv.put f.batchInputs } ∧
      s'.unread = s.unread.filter (· ∉ kv.curLoc) ∧ s'.previousBatch = some s.batchID ∧ s'.batchID = s.batchID + 1 ∧
      s'.built = some { id := s.batchID, seqs := f.seqs, batchInputs := f.batchInputs, tokens := f.tokens
                        outputs := f.batchOutputs, inputsReady := s.previousBatch }

theorem forwardBatch_cases {s s' : Server} {fails : Nat → Nat → Nat → Bool} (h : Orderly s)
    (hs : s.forwardBatch fails = some s') : s.built = none ∧ ∃ f,
      exec (Forward.visit fails) s.startForward s.order = some f ∧ Forwarded s f s' := by
  unfold forwardBatch at hs
  split at hs
  · cases hs
  · rename_i hcond
    have hb : s.built = none := by
      rw [not_or, Option.not_isSome_iff_eq_none] at hcond
      exact hcond.1
    obtain ⟨f, hf, hfin⟩ := Option.bind_eq_some_iff.mp hs
    have hloop := Forward.loop_exec (order_nodup s) (h.idle hb) h.queued (loop_start h hb) hf
    have hframe := hloop.frame
    have hbuilt : f.server.built = none := by rw [hframe]; exact hb
    have href : f.server.nextRef = s.nextRef := by rw [hframe]
    have hcomp : f.server.computing = s.computing := by rw [hframe]
    have hid : f.server.batchID = s.batchID := by rw [hframe]
    have hunread : f.server.unread = s.unread := by rw [hframe]
    have hprev : f.server.previousBatch = s.previousBatch := by rw [hframe]
    refine ⟨hb, f, hf, ?_⟩
    unfold finishForward at hfin
    dsimp only at hfin
    split at hfin
    · rename_i hnil
      cases hfin
      exact ⟨hloop, rfl, rfl, rfl, href, hcomp, .inl ⟨hnil, hbuilt, rfl, rfl, hunread, hid⟩⟩
    · split at hfin
      · cases hfin
      · rename_i kv hkv
        cases hfin
        refine ⟨hloop, rfl, rfl, rfl, href, hcomp, .inr ⟨kv, hkv, rfl, ?_, ?_, ?_, ?_⟩⟩
        · rw [← hunread]
        · rw [← hid]
        · rw [← hid]
        · rw [← hid, ← hprev]

section
variable {s s' : Server} {f : Forward} (h : Forwarded s f s')
include h

theorem Forwarded.sequence (i : Nat) : s'.sequence i = f.server.sequence i := by
  rw [Server.sequence, Server.sequence, h.seqs]

theorem Forwarded.slot (k : Nat) : s'.slot k = f.server.slot k := by
  rw [Server.slot, Server.slot, h.slots]

/-- A sequence after `forwardBatch` was there before. -/
theorem Forwarded.outcome {i : Nat} {seq' : Sequence} (hi : s'.sequence i = some seq') : ∃ seq,
    s.sequence i = some seq ∧ Forward.Outcome s f i seq := by
  rw [h.sequence] at hi
  cases hs : s.sequence i with
  | none =>
    rw [h.loop.absent i hs] at hi
    cases hi
  | some seq => exact ⟨seq, rfl, h.loop.outcome i seq hs⟩

end

theorem queued_of_outcome {s : Server} {f : Forward} {i : Nat} {seq seq' : Sequence}
    (hloop : Forward.Loop s [] f) (hq : Queued s.cache.numCtx (s.slot seq.cache) seq) (hpend : seq.pendingInputs = [])
    (hout : Forward.Outcome s f i seq) (hi : f.server.sequence i = some seq') :
    Queued s.cache.numCtx (f.server.slot seq'.cache) seq' := by
  have hplaced := hloop.placed i seq' hi
  -- only a single input with a full slot is shifted
  have hsingle : ∀ x, seq.inputs = [x] → ((s.slot seq.cache).inputs.length : Int) = s.cache.numCtx →
      x.sameBatch = 0 ∧ Fits s.cache.numCtx (s.slot seq.cache).inputs := by
    intro x hx hfull
    obtain hfits | ⟨y, -, hy, hsame, hfits, -⟩ := hq.fits
    · have := hfits (s.slot seq.cache).inputs.length x (by rw [hpend, hx]; simp)
      omega
    · rw [hx] at hy
      cases hy
      exact ⟨hsame, hfits⟩
  cases hout with
  | takes t iBatch ht hwhole href hslot hseq =>
    rw [hi, Option.some.injEq] at hseq
    subst hseq
    refine ⟨?_, ?_⟩
    · dsimp only
      rw [List.take_append_drop]
      simpa [hpend] using hq.ne
    · dsimp only
      rw [hslot, List.take_append_drop]
      obtain hfits | ⟨x, -, hx, hsame, hfits, hfull⟩ := hq.fits
      · rw [hpend] at hfits
        exact .inl hfits
      · cases t with
        | zero => exact .inr ⟨x, by rw [List.take_zero], by rw [List.drop_zero, hx], hsame, hfits, hfull⟩
        | succ n =>
          have := hplaced.fits (by dsimp only; rw [hx]; simp)
          rw [hloop.numCtx, hslot, hfull] at this
          dsimp only at this
          rw [hx] at this
          simp at this
  | removed hnone =>
    rw [hnone] at hi
    cases hi
  | shifted x iBatch discard hshift hx hfull hdrops href hslot hseq =>
    rw [hi, Option.some.injEq] at hseq
    subst hseq
    obtain ⟨hsame, hfits⟩ := hsingle x hx hfull
    have hlt := hdrops.length_lt
    refine ⟨by simp, .inl ?_⟩
    dsimp only
    rw [hslot, List.append_nil]
    have := hdrops.pos
    exact (hfits.without hdrops.keep (by omega) hdrops.le).concat hsame (by omega)
  | reprocess x discard hshift hx hfull hdrops href hslot hseq =>
    rw [hi, Option.some.injEq] at hseq
    subst hseq
    obtain ⟨hsame, hfits⟩ := hsingle x hx hfull
    have hlt := hdrops.length_lt
    refine ⟨by simp, .inl ?_⟩
    dsimp only
    rw [hslot, hpend, List.nil_append, List.nil_append]
    have := hdrops.pos
    exact (hfits.without hdrops.keep (by omega) hdrops.le).concat hsame (by omega)

theorem orderly_forwardBatch {s s' : Server} {fails : Nat → Nat → Nat → Bool} (h : Orderly s)
    (hs : s.forwardBatch fails = some s') : Orderly s' := by
  obtain ⟨hb, f, -, hf⟩ := forwardBatch_cases h hs
  have hbuilt := built_of_loop hf.loop
  refine ⟨?_, ?_, fun i seq' hi => ?_, fun hnone i seq' hi => ?_, fun b hsome i seq' hi hne => ?_⟩
  · rw [hf.numCtx, hf.loop.numCtx]
    exact h.ctx
  · obtain ⟨hnil, -, -, hcache, -⟩ | ⟨kv, hkv, hcache, -⟩ := hf.batch
    · have htokens : f.tokens = [] := List.length_eq_zero_iff.mp (by rw [hf.loop.length, hnil]; rfl)
      rw [htokens] at hbuilt
      refine agrees_congr (hbuilt.agrees_nil hf.loop.agrees) hcache fun i => ?_
      unfold full
      rw [seen_sequence, seen_sequence, hf.sequence]
    · refine hbuilt.agrees_put hf.loop.agrees hkv hcache ?_
      simp only [full, seen, hf.seqs]
  · obtain ⟨seq, hseq, hout⟩ := hf.outcome hi
    rw [hf.numCtx, hf.loop.numCtx, hf.slot]
    rw [hf.sequence] at hi
    exact queued_of_outcome hf.loop (h.queued i seq hseq) (h.idle hb i seq hseq) hout hi
  · obtain ⟨hnil, -⟩ | ⟨kv, -, -, -, -, -, hbuilt'⟩ := hf.batch
    · rw [hf.sequence] at hi
      rw [← (hf.loop.placed i seq' hi).inputs, hnil]
      simp [inputsOf]
    · rw [hbuilt'] at hnone
      cases hnone
  · obtain ⟨hnil, hnone, -⟩ | ⟨kv, -, -, -, -, -, hbuilt'⟩ := hf.batch
    · rw [hnone] at hsome
      cases hsome
    · rw [hbuilt', Option.some.injEq] at hsome
      subst hsome
      obtain ⟨seq, hseq, hout⟩ := hf.outcome hi
      rw [hf.sequence] at hi
      cases hout with
      | takes t iBatch ht hwhole href hslot hnew =>
        rw [hi, Option.some.injEq] at hnew
        subst hnew
        exact href
      | removed hgone =>
        rw [hgone] at hi
        cases hi
      | shifted x iBatch discard hshift hx hfull hdrops href hslot hnew =>
        rw [hi, Option.some.injEq] at hnew
        subst hnew
        exact href
      | reprocess x discard hshift hx hfull hdrops href hslot hnew =>
        rw [hi, Option.some.injEq] at hnew
        subst hnew
        exact absurd (h.idle hb i seq hseq) hne

end Server

end Xdragon.Runner.Pipeline
