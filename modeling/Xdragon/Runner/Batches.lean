import Xdragon.Runner.Sections

/-!
# Batches of a run

In every run in which the groups of the prompts fit into the context, a batch of `forwardBatch` has the pending
inputs of each sequence at the positions after its slot, and no input is left out or sent twice.
-/

open Xdragon.Lib

namespace Xdragon.Runner.Pipeline

open Xdragon.Kvcache

/-! ## New sequences -/

theorem moveStart_le {numKeep : Int} {xs : List Input} {i sameBatch : Nat} {start r : Int}
    (h : moveStart numKeep xs i sameBatch start = .ok r) : start ≤ r := by
  induction xs generalizing i sameBatch start with
  | nil =>
    cases h
    exact le_refl _
  | cons x xs ih =>
    unfold moveStart at h
    split at h
    · cases h
      exact le_refl _
    · dsimp only at h
      have hmoved : start ≤ if start = i then start + 1 else start := by
        split <;> omega
      split at h
      · split at h
        · cases h
        · exact hmoved.trans (ih h)
      · exact hmoved.trans (ih h)

/-- A truncated prompt has no group within the kept inputs. -/
theorem moveStart_keep {numKeep : Int} {xs : List Input} {i sameBatch : Nat} {start r : Int}
    (h : moveStart numKeep xs i sameBatch start = .ok r) (hstart : numKeep ≤ start) {k : Nat} {x : Input}
    (hx : xs[k]? = some x) (hk : (i + k : Int) < numKeep) : x.sameBatch = 0 := by
  induction xs generalizing i sameBatch start k with
  | nil => cases hx
  | cons y xs ih =>
    unfold moveStart at h
    rw [if_neg (by omega)] at h
    dsimp only at h
    rw [if_neg (by omega : ¬ start = (i : Int))] at h
    split at h
    · rw [if_pos (by omega)] at h
      cases h
    · rename_i hy
      cases k with
      | zero =>
        cases hx
        omega
      | succ k => exact ih h hstart hx (by push_cast at hk ⊢; omega)

/-- The group of each input ends within the inputs or the context. -/
def Bounded (numCtx : Int) (inputs : List Input) : Prop := Fits (max inputs.length numCtx) inputs

theorem fits_truncateInputs {numCtx numKeep : Int} {inputs prompt : List Input} {truncate : Bool}
    (hb : Bounded numCtx inputs) (hkeep : numKeep ≤ numCtx - 1)
    (h : truncateInputs numCtx inputs numKeep truncate = some (.ok prompt)) : Fits numCtx prompt := by
  unfold truncateInputs at h
  split at h
  · rename_i hle
    cases h
    rwa [Bounded, max_eq_right hle] at hb
  · rename_i hlt
    rw [Bounded, max_eq_left (by omega)] at hb
    split at h
    · cases h
    · dsimp only at h
      split at h
      · cases h
      · rename_i start hstart
        split at h
        · cases h
        · split at h
          · cases h
          · rename_i hle h0
            cases h
            have hs := moveStart_le hstart
            intro j x hx
            have htake : (inputs.take numKeep.toNat).length = numKeep.toNat := by
              rw [List.length_take]
              omega
            rw [List.getElem?_append, htake] at hx
            split at hx
            · rw [List.getElem?_take, if_pos (by omega)] at hx
              rw [moveStart_keep hstart (by omega) hx (by omega)]
              omega
            · rw [List.getElem?_drop] at hx
              have := hb _ x hx
              push_cast at this
              omega

theorem fits_newSequence {numCtx numKeep : Int} {inputs prompt : List Input} {params : NewSequenceParams}
    (hb : Bounded numCtx inputs) (h : newSequence numCtx inputs params = some (.ok (prompt, numKeep))) :
    Fits numCtx prompt := by
  unfold newSequence at h
  split at h
  · cases h
  · obtain ⟨res, hres, he⟩ := Option.map_eq_some_iff.mp h
    cases res with
    | error err => cases he
    | ok inputs' =>
      cases he
      exact fits_truncateInputs hb (min_le_right _ _) hres

namespace Server

/-! ## The invariant of a run -/

/-- A new sequence. -/
structure Added (s : Server) (prompt : List Input) (numKeep : Int) (i : Nat) (seq : Sequence) (s' : Server) : Prop where
  free : s.sequence i = none
  sequence : ∀ j, s'.sequence j = if i = j then some seq else s.sequence j
  slot : (s'.slot seq.cache).inputs ++ seq.inputs = prompt
  rest : seq.inputs ≠ []
  fresh : seq.pendingInputs = [] ∧ seq.pendingResponses = [] ∧ seq.ref = s.nextRef ∧ seq.numKeep = numKeep
  others : ∀ j seq', s.sequence j = some seq' → s'.slot seq'.cache = s.slot seq'.cache
  frame : s' = { s with cache := s'.cache, seqs := s'.seqs, nextRef := s.nextRef + 1 }

/-- What `completion` does. -/
inductive Completed (s : Server) (inputs : List Input) (params : NewSequenceParams) (cachePrompt : Bool) (now used : Int)
    (fails : Nat → Nat → Nat → Bool) : Server → Prop
  | refused : Completed s inputs params cachePrompt now used fails s
  | failed {cache : InputCache} : (∀ j seq, s.sequence j = some seq →
      { s with cache := cache }.slot seq.cache = s.slot seq.cache) →
    Completed s inputs params cachePrompt now used fails { s with cache := cache }
  | added {prompt rest : List Input} {numKeep : Int} {i k : Nat} {seq : Sequence} {s' : Server} :
    newSequence s.cache.numCtx inputs params = some (.ok (prompt, numKeep)) →
    s.cache.loadCacheSlot prompt cachePrompt now used fails = some (s'.cache, .ok (k, rest)) →
    Added s prompt numKeep i seq s' → seq.inputs = rest → seq.shift = params.shift →
    Completed s inputs params cachePrompt now used fails s'

theorem slot_of_spares {s : Server} (h : Runner.Server.Agrees s.full) {cache : InputCache} (hs : s.cache.Spares cache)
    {j : Nat} {seq : Sequence} (hj : s.sequence j = some seq) :
    { s with cache := cache }.slot seq.cache = s.slot seq.cache := by
  have hin := slot_of_seen h hj
  obtain ⟨slot, hh⟩ := h.held j _ ((seen_sequence (·.pendingInputs) s j).trans (by rw [hj]; rfl))
  have hslot : s.cache.slots[seq.cache]? = some slot := hh.has
  have hsame := hs.slots _ _ hslot hh.inUse
  unfold Server.slot
  dsimp only
  rw [List.getD_eq_getElem?_getD, List.getD_eq_getElem?_getD, hsame, hslot]

theorem completion_full {s s' : Server} {inputs prompt : List Input} {params : NewSequenceParams} {numKeep : Int}
    {cachePrompt : Bool} {now used : Int} {fails : Nat → Nat → Nat → Bool}
    (hnew : newSequence s.cache.numCtx inputs params = some (.ok (prompt, numKeep)))
    (hs : s.completion inputs params cachePrompt now used fails = some s') :
    s.full.addSequence prompt cachePrompt now used fails = some s'.full := by
  have hfind : s.full.seqs.findIdx? (·.isNone) = s.seqs.findIdx? (·.isNone) := by
    simp only [full, seen, List.findIdx?_map]
    congr 1
    funext o
    cases o <;> rfl
  unfold completion at hs
  rw [hnew] at hs
  dsimp only at hs
  unfold Runner.Server.addSequence
  rw [hfind]
  cases hidx : s.seqs.findIdx? (·.isNone) with
  | none =>
    rw [hidx] at hs
    cases hs
    rfl
  | some i =>
    have hcache : s.full.cache = s.cache := rfl
    rw [hidx] at hs
    rw [hcache]
    dsimp only at hs ⊢
    cases hl : s.cache.loadCacheSlot prompt cachePrompt now used fails with
    | none =>
      rw [hl] at hs
      cases hs
    | some r =>
      rw [hl] at hs
      obtain ⟨cache, e | ⟨slot, suffix⟩⟩ := r
      · cases hs
        rfl
      · cases hs
        simp only [full, seen, List.map_set, Option.map_some]

theorem completion_cases {s s' : Server} (h : Runner.Server.Agrees s.full) {inputs : List Input}
    {params : NewSequenceParams} {cachePrompt : Bool} {now used : Int} {fails : Nat → Nat → Nat → Bool}
    (hs : s.completion inputs params cachePrompt now used fails = some s') :
    Completed s inputs params cachePrompt now used fails s' ∧ Runner.Server.Agrees s'.full ∧
      s'.cache.numCtx = s.cache.numCtx := by
  have hs₀ := hs
  unfold completion at hs
  split at hs
  · cases hs
  · cases hs
    exact ⟨.refused, h, rfl⟩
  · rename_i prompt numKeep hnew
    have hagrees := Runner.Server.agrees_addSequence h (completion_full hnew hs₀)
    split at hs
    · cases hs
      exact ⟨.refused, h, rfl⟩
    · rename_i i hidx
      split at hs
      · cases hs
      · rename_i cache err hl
        cases hs
        obtain ⟨-, hspares, -⟩ := InputCache.loadCacheSlot_spec h.stocked hl
        exact ⟨.failed fun j seq hj => slot_of_spares h hspares hj, hagrees, hspares.numCtx⟩
      · rename_i cache k rest hl
        cases hs
        obtain ⟨-, hspares, hok⟩ := InputCache.loadCacheSlot_spec h.stocked hl
        obtain ⟨hloaded, -⟩ := hok k rest rfl
        obtain ⟨slot, hslot, -, happ, -⟩ := hloaded.slot
        obtain ⟨hlt, hnone, -⟩ := List.findIdx?_eq_some_iff_getElem.mp hidx
        have hadd : Added s prompt numKeep i
            { ref := s.nextRef, cache := k, inputs := rest, numPredict := params.numPredict, stop := params.stop
              numKeep := numKeep, embeddingOnly := params.embedding, shift := params.shift } { s with
                cache := cache
                seqs := s.seqs.set i (some
                  { ref := s.nextRef, cache := k, inputs := rest, numPredict := params.numPredict, stop := params.stop
                    numKeep := numKeep, embeddingOnly := params.embedding, shift := params.shift })
                nextRef := s.nextRef + 1 } := ?_
        · exact ⟨.added hnew hl hadd rfl rfl, hagrees, hspares.numCtx⟩
        refine ⟨?_, fun j => ?_, ?_, hloaded.rest, ⟨rfl, rfl, rfl, rfl⟩, fun j seq hj => ?_, rfl⟩
        · rw [sequence, List.getElem?_eq_getElem hlt]
          exact Option.isNone_iff_eq_none.mp hnone
        · unfold sequence
          dsimp only
          rw [List.getElem?_set]
          simp only [hlt, if_true]
          split <;> rfl
        · unfold Server.slot
          dsimp only
          rw [List.getD_eq_getElem?_getD, hslot]
          exact happ
        · exact slot_of_spares h hspares hj

theorem orderly_completion {s s' : Server} (h : Orderly s) {inputs : List Input} {params : NewSequenceParams}
    {cachePrompt : Bool} {now used : Int} {fails : Nat → Nat → Nat → Bool} (hb : Bounded s.cache.numCtx inputs)
    (hs : s.completion inputs params cachePrompt now used fails = some s') : Orderly s' := by
  obtain ⟨hc, hagrees, hctx⟩ := completion_cases h.agrees hs
  cases hc with
  | refused => exact h
  | failed hslot =>
    refine ⟨hctx ▸ h.ctx, hagrees, fun i seq hi => ?_, h.idle, h.waiting⟩
    rw [hctx, hslot i seq hi]
    exact h.queued i seq hi
  | @added prompt rest numKeep i k seq _ hnew hl hadd _ _ =>
    have hfits := fits_newSequence hb hnew
    obtain ⟨hpend, -⟩ := hadd.fresh
    have hbuilt : s'.built = s.built := by rw [hadd.frame]
    refine ⟨hctx ▸ h.ctx, hagrees, fun j seq' hj => ?_, fun hnone j seq' hj => ?_, fun b hb j seq' hj hne => ?_⟩
    · rw [hctx]
      rw [hadd.sequence] at hj
      split at hj
      · cases hj
        refine ⟨by simpa [hpend] using hadd.rest, .inl ?_⟩
        rw [hpend, List.nil_append, hadd.slot]
        exact hfits
      · rw [hadd.others j seq' hj]
        exact h.queued j seq' hj
    · rw [hadd.sequence] at hj
      split at hj
      · cases hj
        exact hpend
      · exact h.idle (hbuilt.symm.trans hnone) j seq' hj
    · rw [hadd.sequence] at hj
      split at hj
      · cases hj
        exact absurd hpend hne
      · exact h.waiting b (hbuilt.symm.trans hb) j seq' hj hne

/-- The prompts of a run fit into the context. -/
def PromptFits (s : Server) : Event → Prop
  | .completion inputs _ _ _ _ _ => Bounded s.cache.numCtx inputs
  | _ => True

instance (s : Server) (e : Event) : Decidable (PromptFits s e) := by
  cases e <;> unfold PromptFits <;> first | exact .isTrue trivial | unfold Bounded; infer_instance

theorem orderly_step {s s' : Server} (h : Orderly s) {e : Event} (hok : PromptFits s e) (hs : s.step e = some s') :
    Orderly s' := by
  cases e with
  | completion inputs params cachePrompt now used fails => exact orderly_completion h hok hs
  | forwardBatch fails => exact orderly_forwardBatch h hs
  | startCompute tokens => exact orderly_startCompute h hs
  | finishCompute id quit => exact orderly_finishCompute h hs

theorem orderly_initial {s : Server} (h : Initial s) : Orderly s := by
  obtain ⟨kv, kvSize, parallel, multi, hw, hm, hmax, hnew, hseqs, -, -, -, hbuilt, -⟩ := h
  have hnone : ∀ i seq, s.sequence i ≠ some seq := by
    intro i seq hi
    rw [sequence, hseqs, List.getElem?_replicate] at hi
    split at hi <;> cases hi
  have hagrees : Runner.Server.Agrees s.full := by
    refine Runner.Server.agrees_initial ⟨kv, kvSize, parallel, s.batchSize, multi, parallel, hw, hm, hmax, hnew, ?_, rfl⟩
    simp only [full, seen, hseqs, List.map_replicate, Option.map_none]
  refine ⟨?_, hagrees, fun i seq hi => absurd hi (hnone i seq), fun _ i seq hi => absurd hi (hnone i seq),
    fun b hb => ?_⟩
  · unfold newInputCache at hnew
    split at hnew
    · cases hnew
    · dsimp only at hnew
      split at hnew
      · cases hnew
      · obtain ⟨cache, -, hc⟩ := Option.map_eq_some_iff.mp hnew
        rw [← Except.ok.inj hc]
        exact Int.natCast_nonneg _
  · rw [hbuilt] at hb
    cases hb

theorem orderly_of_reaches {s : Server} {ok : Server → Event → Prop} (himp : ∀ s e, ok s e → PromptFits s e)
    (h : Reaches step ok Initial s) : Orderly s :=
  h.invariant (fun _ => orderly_initial) fun _ e _ h hok hs => orderly_step h (himp _ e hok) hs

/-! ## The batches -/

/-- The batch that a server has built. -/
structure Batched (s : Server) (b : BatchState) : Prop where
  length : b.tokens.length = b.batchInputs.length
  positions : ∀ t ∈ b.tokens, t.pos < s.cache.numCtx
  owned : ∀ t ∈ b.tokens, ∃ i seq, s.sequence i = some seq ∧ t.seq = (s.slot seq.cache).id
  entries : ∀ i seq, s.sequence i = some seq →
    inputsOf b.tokens b.batchInputs (s.slot seq.cache).id = seq.pendingInputs ∧
    positionsOf (s.slot seq.cache).id b.tokens = (List.range seq.pendingInputs.length).map fun k : Nat =>
      ((s.slot seq.cache).inputs.length + k : Int)
  /-- The row of the last input, when all inputs were taken. -/
  last : ∀ i seq, s.sequence i = some seq → seq.inputs = [] → ∃ r, b.outputs[seq.iBatch]? = some r ∧
    b.tokens[r]? = some ⟨(s.slot seq.cache).id, (s.slot seq.cache).inputs.length + seq.pendingInputs.length - 1⟩ ∧
    b.batchInputs[r]? = seq.pendingInputs.getLast?

theorem batched_of_forwarded {s s' : Server} {f : Forward} (h : Forwarded s f s') {b : BatchState}
    (hb : s'.built = some b) : Batched s' b := by
  obtain ⟨-, hnone, -⟩ | ⟨kv, -, hcache, -, -, -, hbuilt⟩ := h.batch
  · rw [hnone] at hb
    cases hb
  · rw [hbuilt, Option.some.injEq] at hb
    subst hb
    have hid : ∀ i seq, s'.sequence i = some seq → (s'.slot seq.cache).id = seq.cache := by
      intro i seq hi
      rw [h.slot]
      exact slot_id h.loop.agrees ((h.sequence i).symm.trans hi)
    have hplaced : ∀ i seq, s'.sequence i = some seq → Forward.Placed f seq :=
      fun i seq hi => h.loop.placed i seq ((h.sequence i).symm.trans hi)
    refine ⟨h.loop.length, fun t ht => ?_, fun t ht => ?_, fun i seq hi => ?_, fun i seq hi hnil => ?_⟩
    · obtain ⟨i, seq, hi, hts⟩ := h.loop.tokens t ht
      have hp := h.loop.placed i seq hi
      have hmem : t.pos ∈ positionsOf seq.cache f.tokens := mem_positionsOf_iff.mpr ⟨t, ht, hts, rfl⟩
      rw [hp.positions, List.mem_map] at hmem
      obtain ⟨k, hk, hpos⟩ := hmem
      rw [List.mem_range] at hk
      have hfits := hp.fits (by rintro hnil; rw [hnil] at hk; cases hk)
      rw [h.numCtx]
      omega
    · obtain ⟨i, seq, hi, hts⟩ := h.loop.tokens t ht
      have hi' := (h.sequence i).trans hi
      exact ⟨i, seq, hi', hts.trans (by rw [hid i seq hi'])⟩
    · rw [hid i seq hi, h.slot]
      exact ⟨(hplaced i seq hi).inputs, (hplaced i seq hi).positions⟩
    · rw [hid i seq hi, h.slot]
      exact (hplaced i seq hi).row hnil

/-- The inputs that a step puts into a batch for the sequence. -/
def sentBy (i : Nat) (s' : Server) : Event → List Input
  | .forwardBatch _ => match s'.built, s'.sequence i with
    | some b, some seq => inputsOf b.tokens b.batchInputs (s'.slot seq.cache).id
    | _, _ => []
  | _ => []

/-- The input that a step samples for the sequence. -/
def sampledBy (i : Nat) (s' : Server) : Event → List Input
  | .startCompute _ => match s'.computing with
    | b :: _ => ((b.nextBatchTokens[i]?).join).toList
    | [] => []
  | _ => []

/-- `forwardBatch` changes a slot only by a shift. -/
def Shifts (s s' : Server) (seq : Sequence) : Event → Prop
  | .forwardBatch _ => (s'.slot seq.cache).inputs ≠ (s.slot seq.cache).inputs
  | _ => False

/-- A run in which the sequence stays and is not shifted, with what is sent and what is sampled for it. -/
inductive Served (i ref : Nat) : Server → List Input → List Input → Server → Prop
  | nil {s : Server} {seq : Sequence} : s.sequence i = some seq → seq.ref = ref → Served i ref s [] [] s
  | cons {s s₁ s₂ : Server} {seq : Sequence} {sent sampled : List Input} (e : Event) : s.sequence i = some seq →
    seq.ref = ref → PromptFits s e → s.step e = some s₁ → ¬ Shifts s s₁ seq e → Served i ref s₁ sent sampled s₂ →
    Served i ref s (sentBy i s₁ e ++ sent) (sampledBy i s₁ e ++ sampled) s₂

theorem Served.start {i ref : Nat} {s s' : Server} {sent sampled : List Input} (h : Served i ref s sent sampled s') :
    ∃ seq, s.sequence i = some seq ∧ seq.ref = ref := by
  cases h with
  | nil hi href => exact ⟨_, hi, href⟩
  | cons e hi href => exact ⟨_, hi, href⟩

theorem forwardBatch_inputs {s s' : Server} {fails : Nat → Nat → Nat → Bool} (h : Orderly s)
    (hs : s.forwardBatch fails = some s') {i : Nat} {seq seq' : Sequence} (hi : s.sequence i = some seq)
    (hi' : s'.sequence i = some seq') (hslot : (s'.slot seq.cache).inputs = (s.slot seq.cache).inputs) :
    seq.inputs = seq'.pendingInputs ++ seq'.inputs := by
  obtain ⟨-, f, -, hf⟩ := forwardBatch_cases h hs
  rw [hf.slot] at hslot
  rw [hf.sequence] at hi'
  cases hf.loop.outcome i seq hi with
  | takes t iBatch _ _ _ _ hnew =>
    rw [hi', Option.some.injEq] at hnew
    subst hnew
    exact (List.take_append_drop t seq.inputs).symm
  | removed hgone =>
    rw [hgone] at hi'
    cases hi'
  | shifted x iBatch discard _ _ _ hdrops _ hnew =>
    have hlt := hdrops.length_lt
    rw [← hnew, hslot] at hlt
    exact absurd hlt (lt_irrefl _)
  | reprocess x discard _ _ _ hdrops _ hnew =>
    have hlt := hdrops.length_lt
    rw [← hslot, hnew] at hlt
    cases hlt

theorem served_step {s s' : Server} {e : Event} (h : Orderly s) (hok : PromptFits s e) (hs : s.step e = some s')
    {i : Nat} {seq seq' : Sequence} (hi : s.sequence i = some seq) (hi' : s'.sequence i = some seq')
    (hns : ¬ Shifts s s' seq e) : seq.inputs ++ sampledBy i s' e = sentBy i s' e ++ seq'.inputs := by
  cases e with
  | completion inputs params cachePrompt now used fails =>
    have hsame : seq' = seq := by
      obtain ⟨hc, -⟩ := completion_cases h.agrees hs
      cases hc with
      | refused => rw [hi, Option.some.injEq] at hi'; exact hi'.symm
      | failed _ => exact Option.some.inj (hi'.symm.trans hi)
      | added hnew hl hadd =>
        rw [hadd.sequence] at hi'
        split at hi'
        · rename_i hij
          rw [← hij, hadd.free] at hi
          cases hi
        · exact Option.some.inj (hi'.symm.trans hi)
    rw [hsame]
    exact List.append_nil _
  | forwardBatch fails =>
    have hslot : (s'.slot seq.cache).inputs = (s.slot seq.cache).inputs := not_not.mp hns
    have hin := forwardBatch_inputs h hs hi hi' hslot
    have ho := orderly_step h hok hs
    obtain ⟨-, f, -, hf⟩ := forwardBatch_cases h hs
    simp only [sampledBy, sentBy, List.append_nil]
    rw [hin]
    congr 1
    cases hb : s'.built with
    | none => exact ho.idle hb i seq' hi'
    | some b =>
      rw [hi']
      exact ((batched_of_forwarded hf hb).entries i seq' hi').1.symm
  | startCompute tokens =>
    obtain ⟨b, st, -, hst⟩ := startCompute_cases h hs
    have hcomp : s'.computing = st.2 :: s.computing := by rw [hst.state]
    rw [hst.sequence] at hi'
    simp only [sampledBy, sentBy, hcomp, List.nil_append]
    cases hst.starting.done i seq hi (by simp) with
    | skipped _ hnew _ hnext =>
      rw [hi', Option.some.injEq] at hnew
      rw [hnew, hnext]
      exact List.append_nil _
    | committed _ _ hnew _ hnext =>
      rw [hi', Option.some.injEq] at hnew
      rw [hnew, hnext]
      exact List.append_nil _
    | sampled _ hnil hnew _ hnext =>
      rw [hi', Option.some.injEq] at hnew
      rw [hnew, hnext, hnil]
      rfl
  | finishCompute id quit =>
    obtain ⟨b, t, -, hf⟩ := finishCompute_cases h.agrees hs
    obtain ⟨seq₀, pending, n, hseq, rfl, -⟩ := hf.same hi'
    rw [hi, Option.some.injEq] at hseq
    subst hseq
    exact List.append_nil _

/-- What is sent is what was there before, in order, and nothing else. -/
theorem Served.inputs {i ref : Nat} {s s' : Server} {sent sampled : List Input} (hserved : Served i ref s sent sampled s')
    (h : Orderly s) {seq seq' : Sequence} (hi : s.sequence i = some seq) (hi' : s'.sequence i = some seq') :
    seq.inputs ++ sampled = sent ++ seq'.inputs := by
  induction hserved generalizing seq with
  | nil =>
    rw [hi, Option.some.injEq] at hi'
    rw [hi']
    exact List.append_nil _
  | @cons s s₁ s₂ seq₀ sent sampled e hi₀ _ hok hs hns hrest ih =>
    rw [hi, Option.some.injEq] at hi₀
    subst hi₀
    obtain ⟨seq₁, h₁, -⟩ := hrest.start
    have hstep := served_step h hok hs hi h₁ hns
    have hih := ih (orderly_step h hok hs) h₁ hi'
    rw [← List.append_assoc, hstep, List.append_assoc, hih, List.append_assoc]

/-- In every run whose prompts fit, the batches have the pending inputs of the sequences after their slots, and
what is sent of a sequence between two shifts is what it had to do, in order. -/
theorem forwardBatch_batched {s : Server} (h : Reaches step PromptFits Initial s) :
    (∀ fails s' b, s.forwardBatch fails = some s' → s'.built = some b → Batched s' b) ∧
    ∀ i ref sent sampled s' seq seq', Served i ref s sent sampled s' → s.sequence i = some seq →
      s'.sequence i = some seq' → seq.inputs ++ sampled = sent ++ seq'.inputs := by
  have ho := orderly_of_reaches (fun _ _ h => h) h
  refine ⟨fun fails s' b hs hb => ?_, fun i ref sent sampled s' seq seq' hserved hi hi' => hserved.inputs ho hi hi'⟩
  obtain ⟨-, f, -, hf⟩ := forwardBatch_cases ho hs
  exact batched_of_forwarded hf hb

/-- One letter for each token. Token 0 is the end. -/
def letters : Tokenizer where
  isEOS := fun token => token = 0
  decode := fun token => some [token.toNat.toUInt8]

/-- Nothing was asked yet. -/
def idleServer (shiftFn : Bool) (parallel numCtx batchSize : Nat) : Server where
  cache :=
    { numCtx := numCtx
      slots := (List.range parallel).map fun i => { id := i }
      multiUserCache := false
      cache := ((Causal.newCausalCache shiftFn).init parallel numCtx batchSize).getD (Causal.newCausalCache shiftFn) }
  seqs := List.replicate parallel none
  batchSize := batchSize
  tokenizer := letters

/-- Two users. The first prompt has a group that does not fit into the batch with the rest. -/
def twoPrompts : List Event :=
  [.completion [⟨1, 0, 0⟩, ⟨2, 0, 0⟩, ⟨3, 7, 2⟩, ⟨4, 0, 0⟩, ⟨5, 0, 0⟩] {} true 1 1 fun _ _ _ => false,
    .completion [⟨6, 0, 0⟩] {} true 2 2 fun _ _ _ => false]

theorem twoPrompts_batched : ∃ s s' b, Reaches step PromptFits Initial s ∧
    s.forwardBatch (fun _ _ _ => false) = some s' ∧ s'.built = some b ∧
    b.batchInputs.map (·.token) = [1, 2, 6] ∧ b.tokens.map (·.pos) = [0, 1, 0] ∧ Batched s' b ∧
    ∀ i ref sent sampled s' seq seq', Served i ref s sent sampled s' → s.sequence i = some seq →
      s'.sequence i = some seq' → seq.inputs ++ sampled = sent ++ seq'.inputs := by
  let s := (exec step (idleServer true 2 8 4) twoPrompts).get (by decide)
  have hs : Reaches step PromptFits Initial s :=
    reaches_of_exec (Reaches.init ⟨Causal.newCausalCache true, 16, 2, false, rfl, rfl, by decide, rfl, rfl, rfl, rfl, rfl, rfl,
      rfl, rfl⟩) (by decide) (Option.some_get _).symm
  let s' := (s.forwardBatch fun _ _ _ => false).get (by decide)
  have hs' : s.forwardBatch (fun _ _ _ => false) = some s' := (Option.some_get _).symm
  let b := s'.built.get (by decide)
  have hb : s'.built = some b := (Option.some_get _).symm
  exact ⟨s, s', b, hs, hs', hb, by decide, by decide, (forwardBatch_batched hs).1 _ _ _ hs' hb,
    (forwardBatch_batched hs).2⟩

/-- The last group of the prompt is larger than what follows it, and the model cannot shift. -/
def openGroup : List Event :=
  [.completion [⟨1, 0, 0⟩, ⟨2, 0, 0⟩, ⟨3, 0, 0⟩, ⟨4, 0, 0⟩, ⟨5, 0, 3⟩, ⟨6, 0, 0⟩] { shift := true } true 1 1
      fun _ _ _ => false,
    .forwardBatch fun _ _ _ => false, .startCompute fun _ => 0, .finishCompute 0 fun _ => false]

/-- The batch has input 3 where the sequence has input 6. -/
theorem openGroup_not_batched : ∃ s s' b seq, Reaches step (fun _ _ => True) Initial s ∧
    s.forwardBatch (fun _ _ _ => false) = some s' ∧ s'.built = some b ∧ s'.sequence 0 = some seq ∧
    seq.pendingInputs.map (·.token) = [6] ∧
    (inputsOf b.tokens b.batchInputs (s'.slot seq.cache).id).map (·.token) = [3] ∧ ¬ Batched s' b := by
  let s := (exec step (idleServer false 1 6 4) openGroup).get (by decide)
  have hs : Reaches step (fun _ _ => True) Initial s :=
    reaches_of_exec (Reaches.init ⟨Causal.newCausalCache false, 6, 1, false, rfl, rfl, by decide, rfl, rfl, rfl, rfl, rfl, rfl,
      rfl, rfl⟩) (by decide) (Option.some_get _).symm
  let s' := (s.forwardBatch fun _ _ _ => false).get (by decide)
  have hs' : s.forwardBatch (fun _ _ _ => false) = some s' := (Option.some_get _).symm
  let b := s'.built.get (by decide)
  have hb : s'.built = some b := (Option.some_get _).symm
  let seq := (s'.sequence 0).get (by decide)
  have hseq : s'.sequence 0 = some seq := (Option.some_get _).symm
  have hpend : seq.pendingInputs.map (·.token) = [6] := by decide
  have hsent : (inputsOf b.tokens b.batchInputs (s'.slot seq.cache).id).map (·.token) = [3] := by decide
  refine ⟨s, s', b, seq, hs, hs', hb, hseq, hpend, hsent, fun hbat => ?_⟩
  have he := congrArg (List.map (·.token)) (hbat.entries 0 seq hseq).1
  rw [hpend, hsent] at he
  cases he

end Server

end Xdragon.Runner.Pipeline
