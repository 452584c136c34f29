import Xdragon.Runner.Batches

/-!
# Trimming a slot at a stop string

`computeBatch` counts the inputs of a slot back from its end by the pieces that a stop string removes. This is in
range as long as the pieces that are held back are in the slot, which a shift can change.
-/

open Xdragon.Lib

namespace Xdragon.Runner.Pipeline

open Xdragon.Kvcache

/-! ## The pieces before a stop -/

theorem splitPieces_length (joined : Bytes) (start : Nat) (lengths : List Nat) :
    (splitPieces joined start lengths).1.length ≤ lengths.length ∧
      ((splitPieces joined start lengths).2 = true → 0 < (splitPieces joined start lengths).1.length) := by
  induction lengths generalizing start with
  | nil => simp [splitPieces]
  | cons length lengths ih =>
    rw [splitPieces]
    split_ifs
    · simp
    · simp
    · obtain ⟨h1, -⟩ := ih (start + length)
      simp only [List.length_cons]
      omega

theorem truncateStop_length (pieces : List Bytes) (stop : Bytes) :
    (truncateStop pieces stop).1.length ≤ pieces.length ∧
      ((truncateStop pieces stop).2 = true → 0 < (truncateStop pieces stop).1.length) := by
  unfold truncateStop
  split
  · simp
  · rename_i i _
    have := splitPieces_length (pieces.flatten.take i) 0 (pieces.map (·.length))
    rwa [List.length_map] at this

/-- A sequence of the batch is the one that was there. -/
theorem Forward.Outcome.ref {s : Server} {f : Forward} {i : Nat} {seq seq' : Sequence} (h : Outcome s f i seq)
    (hi : f.server.sequence i = some seq') : seq'.ref = seq.ref := by
  cases h with
  | takes t iBatch _ _ _ _ hnew =>
    rw [hi, Option.some.injEq] at hnew
    rw [hnew]
  | removed hgone =>
    rw [hgone] at hi
    cases hi
  | shifted x iBatch discard _ _ _ _ _ _ hnew =>
    rw [hi, Option.some.injEq] at hnew
    rw [hnew]
  | reprocess x discard _ _ _ _ _ _ hnew =>
    rw [hi, Option.some.injEq] at hnew
    rw [hnew]

namespace Server

theorem tokenLen_bounds {cacheLen origLen newLen : Nat} {tokenTruncated : Bool} (hnew : newLen ≤ origLen)
    (htrunc : tokenTruncated = true → 0 < newLen) (hle : origLen ≤ cacheLen + 1) :
    0 ≤ tokenLen cacheLen origLen newLen tokenTruncated ∧
      tokenLen cacheLen origLen newLen tokenTruncated ≤ cacheLen := by
  unfold tokenLen
  split
  · rename_i h
    obtain h | h := h
    · have := htrunc h
      omega
    · omega
  · rename_i h
    rw [not_or] at h
    omega

/-! ## The tokens that are being sampled -/

/-- The batch samples a token for the sequence. -/
def Samples (b : BatchState) (i : Nat) (seq : Sequence) : Prop :=
  (b.seqs[i]?).join = some seq.ref ∧ ((b.nextBatchTokens[i]?).join).isSome

instance (b : BatchState) (i : Nat) (seq : Sequence) : Decidable (Samples b i seq) := by
  unfold Samples
  infer_instance

/-- How many tokens of the sequence are being sampled. -/
def sampling (s : Server) (i : Nat) (seq : Sequence) : Nat := s.computing.countP fun b => Samples b i seq

/-- How many inputs a shift leaves in the slot of the sequence. If the cache cannot shift, all inputs are done
again. -/
def leftByShift (s : Server) (seq : Sequence) (fails : Nat → Nat → Nat → Bool) : Int :=
  let slot := s.slot seq.cache
  let discard := (s.cache.shiftDiscard slot.inputs seq.numKeep).getD 0
  if (s.cache.cache.remove slot.id seq.numKeep (seq.numKeep + discard) fails).2 = none then slot.inputs.length - discard
  else 0

/-- When the loop of `forwardBatch` shifts a sequence, the pieces that are held back and the tokens that are being
sampled are left in the slot, except for the last one. -/
def ShiftSafe (fails : Nat → Nat → Nat → Bool) (f : Forward) (i : Nat) : Prop :=
  ∀ seq, f.server.sequence i = some seq → seq.shift = true →
    ((f.server.slot seq.cache).inputs.length : Int) = f.server.cache.numCtx →
    f.batchInputs.length < max 1 f.server.batchSize →
    (seq.pendingResponses.length + f.server.sampling i seq : Int) ≤ f.server.leftByShift seq fails + 1

/-- No group reaches past the context, shifts leave the pieces that are held back, and a batch does not read a
placeholder before its token is there. -/
def StopSafe (s : Server) : Event → Prop
  | .completion inputs _ _ _ _ _ => Bounded s.cache.numCtx inputs
  | .forwardBatch fails => Checked (Forward.visit fails) (ShiftSafe fails) s.startForward s.order
  | .startCompute _ => ∀ b, s.built = some b → ∀ i seq, s.sequence i = some seq → (b.seqs[i]?).join = some seq.ref →
    seq.inputs = [] → ∀ c ∈ s.computing, seq.sampledBy ≠ some c.id
  | .finishCompute _ _ => True

instance (fails : Nat → Nat → Nat → Bool) (f : Forward) (i : Nat) : Decidable (ShiftSafe fails f i) :=
  decidable_of_iff (∀ seq ∈ f.server.sequence i, seq.shift = true →
    ((f.server.slot seq.cache).inputs.length : Int) = f.server.cache.numCtx →
    f.batchInputs.length < max 1 f.server.batchSize →
    (seq.pendingResponses.length + f.server.sampling i seq : Int) ≤ f.server.leftByShift seq fails + 1) Iff.rfl

instance (s : Server) (e : Event) : Decidable (StopSafe s e) :=
  match e with
  | .completion inputs _ _ _ _ _ => inferInstanceAs (Decidable (Fits (max inputs.length s.cache.numCtx) inputs))
  | .forwardBatch fails => inferInstanceAs (Decidable (Checked (Forward.visit fails) (ShiftSafe fails) s.startForward s.order))
  | .startCompute _ => decidable_of_iff (∀ b ∈ s.built, ∀ i < s.seqs.length, ∀ seq ∈ s.sequence i,
      (b.seqs[i]?).join = some seq.ref → seq.inputs = [] → ∀ c ∈ s.computing, seq.sampledBy ≠ some c.id) (by
    constructor
    · intro h b hb i seq hi
      refine h b hb i ?_ seq hi
      by_contra hge
      rw [sequence_none (by omega)] at hi
      cases hi
    · exact fun h b hb i _ seq hi => h b hb i seq hi)
  | .finishCompute _ _ => .isTrue trivial

theorem promptFits_of_stopSafe (s : Server) (e : Event) (h : StopSafe s e) : PromptFits s e := by
  cases e with
  | completion inputs => exact h
  | _ => trivial

/-- The pieces and the tokens of each sequence are in its slot, except for the last one. -/
def Covered (s : Server) : Prop :=
  ∀ i seq, s.sequence i = some seq →
    seq.pendingResponses.length + s.sampling i seq ≤ (s.slot seq.cache).inputs.length + 1

structure Counted (s : Server) : Prop where
  covered : Covered s
  computing : ∀ b ∈ s.computing, ∀ i seq, Samples b i seq → seq.ref < s.nextRef
  refs : ∀ i seq, s.sequence i = some seq → seq.ref < s.nextRef
  unread : s.unread = []

theorem samples_congr {seq seq' : Sequence} (href : seq'.ref = seq.ref) (b : BatchState) (i : Nat) :
    Samples b i seq' ↔ Samples b i seq := by
  rw [Samples, Samples, href]

theorem sampling_congr {s s' : Server} (hc : s'.computing = s.computing) {i : Nat} {seq seq' : Sequence}
    (href : seq'.ref = seq.ref) : s'.sampling i seq' = s.sampling i seq := by
  unfold sampling
  rw [hc]
  simp only [samples_congr href]

theorem sampling_cons {s s' : Server} {b : BatchState} (hc : s'.computing = b :: s.computing) {i : Nat}
    {seq seq' : Sequence} (href : seq'.ref = seq.ref) :
    s'.sampling i seq' = s.sampling i seq + if Samples b i seq then 1 else 0 := by
  unfold sampling
  rw [hc, List.countP_cons]
  simp only [samples_congr href, decide_eq_true_eq]

/-- A batch that samples the sequence is done. -/
theorem sampling_filter {s s' : Server} {b : BatchState} (hc : s'.computing = s.computing.filter (·.id ≠ b.id))
    {i : Nat} {seq seq' : Sequence} (href : seq'.ref = seq.ref) : s'.sampling i seq' ≤ s.sampling i seq ∧
      (b ∈ s.computing → Samples b i seq → s'.sampling i seq' < s.sampling i seq) := by
  unfold sampling
  simp only [hc, samples_congr href]
  have hsplit := List.countP_eq_countP_filter_add s.computing (fun c => Samples c i seq) (·.id ≠ b.id)
  refine ⟨by omega, fun hb hsam => ?_⟩
  have hpos : 0 < (s.computing.filter fun c => !decide (c.id ≠ b.id)).countP fun c => Samples c i seq :=
    List.countP_pos_iff.mpr ⟨b, List.mem_filter.mpr ⟨hb, by simp⟩, decide_eq_true hsam⟩
  omega

/-! ## Forwarding -/

theorem leftByShift_eq {s : Server} {seq : Sequence} {fails : Nat → Nat → Nat → Bool} {cache : InputCache}
    {err : Option InputCacheError} (hin : s.cache.slots[seq.cache]? = some (s.slot seq.cache))
    (hfull : ((s.slot seq.cache).inputs.length : Int) = s.cache.numCtx)
    (h : s.cache.shiftCacheSlot seq.cache seq.numKeep fails = some (cache, err))
    (herr : ∀ e, err = some e → ∃ inputs, e = .reprocess inputs) :
    s.leftByShift seq fails = (cache.slots.getD seq.cache default).inputs.length := by
  have hset : ∀ new, (s.cache.slots.set seq.cache new).getD seq.cache default = new := by
    intro new
    rw [List.getD_eq_getElem?_getD, List.getElem?_set_self (List.getElem?_eq_some_iff.mp hin).1]
    rfl
  unfold InputCache.shiftCacheSlot at h
  split at h
  · cases h
    obtain ⟨inputs, he⟩ := herr _ rfl
    cases he
  · rename_i hkeep
    rw [hin] at h
    dsimp only at h
    split at h
    · cases h
    · rename_i discard hdisc
      have hd := drops_of_full hfull (by omega) hdisc
      have h1 := hd.keep
      have h2 := hd.pos
      have h3 := hd.le
      rw [if_neg (by omega)] at h
      unfold leftByShift
      dsimp only
      rw [hdisc, Option.getD_some]
      split at h
      · rename_i hrem
        cases h
        rw [hrem, if_neg (by simp), hset]
        rfl
      · rename_i hrem
        cases h
        rw [hrem, if_pos rfl, hset]
        dsimp only
        rw [InputCache.withoutDiscarded, List.length_append, List.length_take, List.length_drop]
        omega

theorem Covered.set {s s' : Server} (h : Covered s) {pending : Sequence → List Input}
    (hagrees : Runner.Server.Agrees (s.seen pending)) {i : Nat} {seq : Sequence} (hi : s.sequence i = some seq)
    (hcomp : s'.computing = s.computing) (new : Option Sequence) (hseqs : s'.seqs = s.seqs.set i new)
    (hslots : ∀ k, k ≠ seq.cache → (s'.slot k).inputs = (s.slot k).inputs)
    (hnew : ∀ seq', new = some seq' → seq'.pendingResponses = seq.pendingResponses ∧ seq'.ref = seq.ref ∧
      seq.pendingResponses.length + s.sampling i seq ≤ (s'.slot seq'.cache).inputs.length + 1) : Covered s' := by
  intro j seq' hj
  rw [sequence, hseqs, sequence_set hi] at hj
  split at hj
  · rename_i hij
    obtain ⟨hpieces, href, hle⟩ := hnew seq' hj
    rw [← hij, sampling_congr hcomp href, hpieces]
    exact hle
  · rename_i hij
    rw [sampling_congr hcomp rfl, hslots _ (apart_of_seen hagrees hi hj hij).symm]
    exact h j seq' hj

theorem covered_visit {fails : Nat → Nat → Nat → Bool} {f f' : Forward} {i : Nat}
    (hagrees : Runner.Server.Agrees f.server.committed)
    (hidle : ∀ seq, f.server.sequence i = some seq → seq.pendingInputs = [])
    (hq : ∀ seq, f.server.sequence i = some seq → Queued f.server.cache.numCtx (f.server.slot seq.cache) seq)
    (hsafe : ShiftSafe fails f i) (h : Covered f.server) (hv : Forward.visit fails f i = some f') : Covered f'.server := by
  cases hi : f.server.sequence i with
  | none =>
    unfold Forward.visit at hv
    rw [hi] at hv
    cases hv
    exact h
  | some seq =>
    have hin := slot_of_seen hagrees hi
    cases Forward.visit_cases hi (hidle seq hi) (hq seq hi) hv with
    | takes ht hfits hwhole =>
      refine h.set hagrees hi (by rw [ht.server]) (some _) (by rw [ht.server]) (fun k _ => ?_) fun seq'' hs => ?_
      · unfold slot
        rw [ht.server]
      · cases hs
        rw [ht.sequence]
        refine ⟨rfl, rfl, ?_⟩
        unfold slot
        rw [ht.server]
        exact h i seq hi
    | removed =>
      refine h.set hagrees hi rfl none rfl (fun k hk => ?_) fun seq'' hs => (nomatch hs)
      unfold slot removeSequence
      dsimp only
      rw [List.getD_eq_getElem?_getD, Runner.Server.getElem?_modify_slots hin, if_neg (Ne.symm hk),
        List.getD_eq_getElem?_getD]
    | @shifted x cache _ _ hshift hx hfull hroom hs ht =>
      have hleft := leftByShift_eq hin hfull hs fun _ he => (nomatch he)
      obtain ⟨discard, -, hslots⟩ := (shiftCacheSlot_full hin hfull hs).2.1 rfl
      have hle := hsafe seq hi hshift hfull hroom
      refine h.set hagrees hi (by rw [ht.server]) (some _) (by rw [ht.server]) (fun k hk => ?_) fun seq'' he => ?_
      · unfold slot
        rw [ht.server]
        dsimp only
        rw [hslots, slot_set _ (Ne.symm hk)]
      · cases he
        rw [ht.sequence]
        refine ⟨rfl, rfl, ?_⟩
        unfold slot
        rw [ht.server]
        dsimp only
        omega
    | @reprocess x cache inputs hshift hx hfull hroom hs =>
      have hleft := leftByShift_eq hin hfull hs fun _ he => ⟨inputs, (Option.some.inj he).symm⟩
      obtain ⟨discard, -, -, hslots⟩ := (shiftCacheSlot_full hin hfull hs).2.2 inputs rfl
      have hle := hsafe seq hi hshift hfull hroom
      refine h.set hagrees hi rfl (some _) rfl (fun k hk => ?_) fun seq'' he => ?_
      · unfold slot
        dsimp only
        rw [hslots, slot_set _ (Ne.symm hk)]
      · cases he
        refine ⟨rfl, rfl, ?_⟩
        unfold slot
        dsimp only
        omega

theorem covered_exec {fails : Nat → Nat → Nat → Bool} {s : Server} {todo : List Nat} (hnodup : todo.Nodup)
    (hidle : ∀ j seq, s.sequence j = some seq → seq.pendingInputs = [])
    (hq : ∀ j seq, s.sequence j = some seq → Queued s.cache.numCtx (s.slot seq.cache) seq) {f f' : Forward}
    (hloop : Forward.Loop s todo f) (hsafe : Checked (Forward.visit fails) (ShiftSafe fails) f todo) (h : Covered f.server)
    (hv : exec (Forward.visit fails) f todo = some f') : Covered f'.server := by
  induction todo generalizing f with
  | nil =>
    cases hv
    exact h
  | cons i todo ih =>
    rw [List.nodup_cons] at hnodup
    obtain ⟨f₁, h₁, h₂⟩ := Option.bind_eq_some_iff.mp hv
    obtain ⟨hsafe₁, hsafe₂⟩ := hsafe
    rw [h₁] at hsafe₂
    obtain ⟨htodo, -, hslot⟩ := hloop.todo i (by simp)
    refine ih hnodup.2 (Forward.loop_visit hloop hnodup.1 hidle hq h₁) hsafe₂ (covered_visit hloop.agrees ?_ ?_ hsafe₁ h h₁) h₂
    · exact fun seq hi => hidle i seq (htodo.symm.trans hi)
    · intro seq hi
      have hs := htodo.symm.trans hi
      rw [hloop.numCtx, hslot seq hs]
      exact hq i seq hs

theorem counted_forwardBatch {s s' : Server} {fails : Nat → Nat → Nat → Bool} (ho : Orderly s) (h : Counted s)
    (hsafe : StopSafe s (.forwardBatch fails)) (hs : s.forwardBatch fails = some s') : Counted s' := by
  obtain ⟨hb, f, hf, hfwd⟩ := forwardBatch_cases ho hs
  have hcov := covered_exec (order_nodup s) (ho.idle hb) ho.queued (loop_start ho hb) hsafe h.covered hf
  have hcomp : f.server.computing = s.computing := by rw [hfwd.loop.frame]
  refine ⟨fun i seq hi => ?_, fun b hmem => ?_, fun i seq hi => ?_, ?_⟩
  · rw [sampling_congr (hfwd.computing.trans hcomp.symm) rfl, hfwd.slot]
    exact hcov i seq ((hfwd.sequence i).symm.trans hi)
  · rw [hfwd.computing] at hmem
    rw [hfwd.nextRef]
    exact h.computing b hmem
  · rw [hfwd.nextRef]
    obtain ⟨seq₀, hseq, hout⟩ := hfwd.outcome hi
    rw [hout.ref ((hfwd.sequence i).symm.trans hi)]
    exact h.refs i seq₀ hseq
  · obtain ⟨-, -, -, -, hunread, -⟩ | ⟨kv, -, -, hunread, -⟩ := hfwd.batch
    · rw [hunread, h.unread]
    · rw [hunread, h.unread]
      rfl

/-! ## The other steps -/

theorem counted_completion {s s' : Server} (ho : Orderly s) (h : Counted s) {inputs : List Input}
    {params : NewSequenceParams} {cachePrompt : Bool} {now used : Int} {fails : Nat → Nat → Nat → Bool}
    (hs : s.completion inputs params cachePrompt now used fails = some s') : Counted s' := by
  obtain ⟨hc, -, -⟩ := completion_cases ho.agrees hs
  cases hc with
  | refused => exact h
  | @failed cache hslot =>
    refine ⟨fun i seq hi => ?_, h.computing, h.refs, h.unread⟩
    rw [hslot i seq hi]
    exact h.covered i seq hi
  | @added prompt rest numKeep i k seq _ hnew hl hadd _ _ =>
    obtain ⟨-, hpieces, href, -⟩ := hadd.fresh
    have hcomp : s'.computing = s.computing := by rw [hadd.frame]
    have hnext : s'.nextRef = s.nextRef + 1 := by rw [hadd.frame]
    refine ⟨fun j seq' hj => ?_, fun b hb j seq' hsam => ?_, fun j seq' hj => ?_, ?_⟩
    · rw [hadd.sequence] at hj
      split at hj
      · -- no batch has the new sequence
        cases hj
        have hzero : s'.sampling j seq = 0 := by
          unfold sampling
          rw [hcomp, List.countP_eq_zero]
          intro b hb hsam
          have := h.computing b hb j seq (of_decide_eq_true hsam)
          omega
        rw [hzero, hpieces]
        exact Nat.zero_le _
      · rw [sampling_congr hcomp rfl, hadd.others j seq' hj]
        exact h.covered j seq' hj
    · rw [hcomp] at hb
      rw [hnext]
      exact Nat.lt_succ_of_lt (h.computing b hb j seq' hsam)
    · rw [hnext]
      rw [hadd.sequence] at hj
      split at hj
      · cases hj
        omega
      · exact Nat.lt_succ_of_lt (h.refs j seq' hj)
    · rw [hadd.frame]
      exact h.unread

/-- The first section samples one token more for a sequence, and its slot has at least one input more. -/
theorem covered_started {s : Server} {b : BatchState} {tokens : Nat → Int} {st : Server × BatchState} {s' : Server}
    (ho : Orderly s) (h : Covered s) (hst : StartedBatch s b tokens st s') : Covered s' := by
  have hcomp : s'.computing = st.2 :: s.computing := by rw [hst.state]
  intro i seq' hi
  obtain ⟨seq, hseq, hstarted⟩ := hst.started hi
  have hle := h i seq hseq
  rw [hst.sequence] at hi
  rw [hst.slot]
  have hcount : seq'.ref = seq.ref → s'.sampling i seq' = s.sampling i seq + if Samples st.2 i seq then 1 else 0 :=
    sampling_cons hcomp
  -- without a token for it the batch does not count
  have hnone : (st.2.nextBatchTokens[i]?).join = none → ¬ Samples st.2 i seq := by
    intro hnext hsam
    rw [Samples, hnext] at hsam
    exact absurd hsam.2 (by simp)
  cases hstarted with
  | skipped hne hnew hslot hnext =>
    rw [hi, Option.some.injEq] at hnew
    subst hnew
    rw [hcount rfl, if_neg (hnone hnext), hslot]
    exact hle
  | committed href hne hnew hslot hnext =>
    rw [hi, Option.some.injEq] at hnew
    subst hnew
    rw [hcount rfl, if_neg (hnone hnext), hslot, List.length_append]
    dsimp only
    omega
  | sampled href hnil hnew hslot hnext =>
    rw [hi, Option.some.injEq] at hnew
    subst hnew
    have hpos : 0 < seq.pendingInputs.length := by
      rw [List.length_pos_iff]
      simpa [hnil] using (ho.queued i seq hseq).ne
    have hone : (if Samples st.2 i seq then 1 else 0) ≤ 1 := by
      split <;> omega
    rw [hcount rfl, hslot, List.length_append]
    dsimp only
    omega

theorem counted_startCompute {s s' : Server} {tokens : Nat → Int} (ho : Orderly s) (h : Counted s)
    (hsafe : StopSafe s (.startCompute tokens)) (hs : s.startCompute tokens = some s') : Counted s' := by
  obtain ⟨b, st, hb, hst⟩ := startCompute_cases ho hs
  have hnext : s'.nextRef = s.nextRef := by
    rw [hst.state]
    dsimp only
    rw [hst.starting.frame]
  refine ⟨covered_started ho h.covered hst, fun c hc i seq hsam => ?_, fun i seq' hi => ?_, ?_⟩
  · rw [hnext]
    rw [hst.state] at hc
    obtain rfl | hc := List.mem_cons.mp hc
    · -- a token is sampled only for a sequence of the server
      obtain ⟨href, hsome⟩ := hsam
      rw [Option.isSome_iff_ne_none] at hsome
      cases hi : s.sequence i with
      | none => exact absurd (hst.starting.absent i hi).2 hsome
      | some seq₀ =>
        cases hst.starting.done i seq₀ hi (by simp) with
        | skipped _ _ _ hnone => exact absurd hnone hsome
        | committed _ _ _ _ hnone => exact absurd hnone hsome
        | sampled href' _ _ _ _ =>
          rw [hst.starting.batch] at href
          dsimp only at href
          rw [href', Option.some.injEq] at href
          rw [← href]
          exact h.refs i seq₀ hi
    · exact h.computing c hc i seq hsam
  · rw [hnext]
    obtain ⟨seq, hseq, hstarted⟩ := hst.started hi
    have hlt := h.refs i seq hseq
    rw [hst.sequence] at hi
    cases hstarted with
    | skipped _ hnew =>
      rw [hi, Option.some.injEq] at hnew
      rw [hnew]
      exact hlt
    | committed _ _ hnew =>
      rw [hi, Option.some.injEq] at hnew
      rw [hnew]
      exact hlt
    | sampled _ _ hnew =>
      rw [hi, Option.some.injEq] at hnew
      rw [hnew]
      exact hlt
  · rw [hst.state]
    exact (hst.starting.unread (hsafe b hb)).trans h.unread

theorem counted_finishCompute {s s' : Server} {id : Nat} {quit : Nat → Bool} (ho : Orderly s) (h : Counted s)
    (hs : s.finishCompute id quit = some s') : Counted s' := by
  obtain ⟨b, t, -, hf⟩ := finishCompute_cases ho.agrees hs
  have hcomp : s'.computing = s.computing.filter (·.id ≠ b.id) := by
    rw [hf.state]
    dsimp only
    rw [hf.finishing.frame]
  have hnext : s'.nextRef = s.nextRef := by
    rw [hf.state]
    dsimp only
    rw [hf.finishing.frame]
  refine ⟨fun i seq' hi => ?_, fun c hc => ?_, fun i seq' hi => ?_, ?_⟩
  · obtain ⟨seq, hseq, hres⟩ := hf.result hi
    have hle := h.covered i seq hseq
    rw [hf.sequence] at hi
    rw [hf.slot]
    cases hres with
    | skipped _ hnew hslot =>
      rw [hi, Option.some.injEq] at hnew
      subst hnew
      have hmono := (sampling_filter hcomp (i := i) (show seq'.ref = seq'.ref from rfl)).1
      rw [hslot]
      omega
    | removed hgone =>
      rw [hgone] at hi
      cases hi
    | kept pending href hsome hlen hnew hslot =>
      rw [hi, Option.some.injEq] at hnew
      subst hnew
      have hlt := (sampling_filter hcomp (i := i) (show { seq with
        numPredicted := seq.numPredicted + 1, pendingResponses := pending }.ref = seq.ref from rfl)).2 hf.mem
          ⟨href, Option.isSome_iff_ne_none.mpr hsome⟩
      dsimp only
      rw [hslot]
      omega
  · rw [hcomp] at hc
    rw [hnext]
    exact h.computing c (List.mem_of_mem_filter hc)
  · obtain ⟨seq, pending, n, hseq, rfl, -⟩ := hf.same hi
    rw [hnext]
    exact h.refs i seq hseq
  · rw [hf.state]
    dsimp only
    rw [hf.finishing.frame]
    exact h.unread

theorem counted_step {s s' : Server} (ho : Orderly s) (h : Counted s) {e : Event} (hok : StopSafe s e)
    (hs : s.step e = some s') : Counted s' := by
  cases e with
  | completion inputs params cachePrompt now used fails => exact counted_completion ho h hs
  | forwardBatch fails => exact counted_forwardBatch ho h hok hs
  | startCompute tokens => exact counted_startCompute ho h hok hs
  | finishCompute id quit => exact counted_finishCompute ho h hs

theorem counted_initial {s : Server} (h : Initial s) : Counted s := by
  obtain ⟨-, -, parallel, -, -, -, -, -, hseqs, -, -, -, -, hcomp, hunread⟩ := h
  have hnone : ∀ i seq, s.sequence i ≠ some seq := by
    intro i seq hi
    rw [sequence, hseqs, List.getElem?_replicate] at hi
    split at hi <;> cases hi
  refine ⟨fun i seq hi => absurd hi (hnone i seq), fun b hb => ?_, fun i seq hi => absurd hi (hnone i seq), hunread⟩
  rw [hcomp] at hb
  cases hb

theorem counted_of_reaches {s : Server} (h : Reaches step StopSafe Initial s) : Orderly s ∧ Counted s := by
  refine h.invariant (I := fun s => Orderly s ∧ Counted s) (fun s hi => ⟨orderly_initial hi, counted_initial hi⟩) ?_
  intro s e s' ⟨ho, hc⟩ hok hs
  exact ⟨orderly_step ho (promptFits_of_stopSafe s e hok) hs, counted_step ho hc hok hs⟩

/-! ## The stop -/

/-- The second section gets a piece of the sequence that completes a stop string. -/
structure HitsStop (b : BatchState) (t : Server) (i : Nat) (seq : Sequence) (piece stop : Bytes) : Prop where
  sequence : t.sequence i = some seq
  ref : (b.seqs[i]?).join = some seq.ref
  text : seq.embeddingOnly = false
  row : ∃ iBatch, (b.iBatches[i]?).join = some iBatch ∧ iBatch < b.outputs.length
  token : ∃ next, (b.nextBatchTokens[i]?).join = some next ∧ t.tokenizer.isEOS next.token = false ∧
    t.tokenizer.decode next.token = some piece
  limit : ¬ (0 < seq.numPredict ∧ seq.numPredict ≤ seq.numPredicted + 1)
  stop : findStop (seq.pendingResponses ++ [piece]).flatten seq.stop = some stop

/-- The length of the slot after the stop string. -/
def stopLen (t : Server) (seq : Sequence) (piece stop : Bytes) : Int :=
  tokenLen (t.slot seq.cache).inputs.length (seq.pendingResponses ++ [piece]).length
    (truncateStop (seq.pendingResponses ++ [piece]) stop).1.length (truncateStop (seq.pendingResponses ++ [piece]) stop).2

theorem HitsStop.finishSequence {b : BatchState} {t : Server} {i : Nat} {seq : Sequence} {piece stop : Bytes}
    (h : HitsStop b t i seq piece stop) (hin : t.cache.slots[seq.cache]? = some (t.slot seq.cache))
    (h0 : 0 ≤ t.stopLen seq piece stop) (hle : t.stopLen seq piece stop ≤ (t.slot seq.cache).inputs.length)
    (quit : Nat → Bool) : ∃ t', finishSequence b quit t i = some t' ∧ t'.cache.cache = t.cache.cache ∧
      t'.unread = t.unread ∧ t'.slot seq.cache = { t.slot seq.cache with
        inputs := (t.slot seq.cache).inputs.take (t.stopLen seq piece stop).toNat, inUse := false } := by
  obtain ⟨iBatch, hrow, hlt⟩ := h.row
  obtain ⟨next, hnext, heos, hpiece⟩ := h.token
  unfold Server.finishSequence
  rw [h.sequence, hnext]
  dsimp only
  rw [if_neg (not_not.mpr h.ref), if_neg (by simp [h.text]), hrow]
  dsimp only
  rw [if_neg (by omega), if_neg (by simp [heos]), hpiece]
  dsimp only
  unfold addPiece
  dsimp only
  rw [if_neg (by have := h.limit; push_cast; exact this), h.stop]
  unfold stopLen at h0 hle ⊢
  dsimp only
  rw [if_neg (by omega)]
  refine ⟨_, rfl, rfl, rfl, ?_⟩
  have hlt := (List.getElem?_eq_some_iff.mp hin).1
  unfold slot removeSequence at *
  dsimp only
  rw [List.getD_eq_getElem?_getD, List.getElem?_modify_eq, List.getElem?_modify_eq, hin]
  rfl

/-- In every run in which no group reaches past the context, the shifts leave the pieces that are held back, and no
placeholder is read too early: at a stop string the new length is in range, and each input that is left is stored in
one cell, which was computed from it. -/
theorem stop_trims {s t : Server} (h : Reaches step StopSafe Initial s) {b : BatchState} (hb : b ∈ s.computing)
    {quit : Nat → Bool} {i : Nat} (ht : exec (finishSequence b quit) s (List.range i) = some t) {seq : Sequence}
    {piece stop : Bytes} (hstop : HitsStop b t i seq piece stop) :
    0 ≤ t.stopLen seq piece stop ∧ t.stopLen seq piece stop ≤ (t.slot seq.cache).inputs.length ∧
    ∃ t', finishSequence b quit t i = some t' ∧
      (t'.slot seq.cache).inputs = (t.slot seq.cache).inputs.take (t.stopLen seq piece stop).toNat ∧
      ∀ (p : Nat) x, (t'.slot seq.cache).inputs[p]? = some x → ∃ j y,
        Stores t'.cache.cache.cells (t'.slot seq.cache).id j p ∧ t'.cache.cache.rows j = some y ∧ y.Same x ∧
        j ∉ t'.unread ∧ ∀ k, Stores t'.cache.cache.cells (t'.slot seq.cache).id k p → k = j := by
  obtain ⟨ho, hc⟩ := counted_of_reaches h
  -- the sequence is as it was at the start of the section
  have hfin : Finishing b s ((List.range (1 + s.seqs.length)).map (i + ·)) t := by
    refine finishing_exec ?_ ?_ ht
    · rw [← List.range_add]
      exact List.nodup_range
    · rw [← List.range_add]
      exact finishing_start ho.agrees (by omega)
  obtain ⟨hsame, hslot⟩ := hfin.untouched i (List.mem_map.mpr ⟨0, List.mem_range.mpr (by omega), rfl⟩)
  have hs : s.sequence i = some seq := hsame.symm.trans hstop.sequence
  have hcov := hc.covered i seq hs
  obtain ⟨next, hnext, -, -⟩ := hstop.token
  have hsampling : 0 < s.sampling i seq :=
    List.countP_pos_iff.mpr ⟨b, hb, decide_eq_true ⟨hstop.ref, by rw [hnext]; rfl⟩⟩
  obtain ⟨hnew, htrunc⟩ := truncateStop_length (seq.pendingResponses ++ [piece]) stop
  have hlen : (seq.pendingResponses ++ [piece]).length ≤ (t.slot seq.cache).inputs.length + 1 := by
    rw [hslot seq hs, List.length_append, List.length_singleton]
    omega
  obtain ⟨h0, hle⟩ := tokenLen_bounds hnew htrunc hlen
  have hin := slot_of_seen hfin.agrees hstop.sequence
  obtain ⟨t', ht', hkv, hunread, hslot'⟩ := hstop.finishSequence hin h0 hle quit
  refine ⟨h0, hle, t', ht', by rw [hslot'], fun p x hx => ?_⟩
  rw [hslot'] at hx
  obtain ⟨j, y, hst, hrow, hy⟩ := (hfin.agrees.stocked.stored _ _ hin).take _ p x hx
  have hid : ((t'.slot seq.cache).id : Int) = seq.cache := by
    rw [hslot']
    exact congrArg _ (slot_id hfin.agrees hstop.sequence)
  rw [hid, hkv, hunread]
  refine ⟨j, y, hst, hrow, hy, ?_, fun k hk => hfin.agrees.stocked.lined.once _ _ _ _ hk hst⟩
  rw [hfin.frame]
  dsimp only
  rw [hc.unread]
  exact List.not_mem_nil

/-- A prompt of one input, and four letters that are sampled one after another, each while the batch of the last
one is in the second section. The letters together are the stop string. -/
def heldLetters : List Event :=
  [.completion [⟨9, 0, 0⟩] { shift := true, stop := [[97, 98, 99, 100]] } true 1 1 fun _ _ _ => false,
    .forwardBatch fun _ _ _ => false, .startCompute fun _ => 97, .forwardBatch fun _ _ _ => false,
    .finishCompute 0 fun _ => false, .startCompute fun _ => 98, .forwardBatch fun _ _ _ => false,
    .finishCompute 1 fun _ => false, .startCompute fun _ => 99, .forwardBatch fun _ _ _ => false,
    .finishCompute 2 fun _ => false, .startCompute fun _ => 100, .forwardBatch fun _ _ _ => false]

theorem heldLetters_trims : ∃ s b seq t', Reaches step StopSafe Initial s ∧ b ∈ s.computing ∧
    HitsStop b s 0 seq [100] [97, 98, 99, 100] ∧ s.stopLen seq [100] [97, 98, 99, 100] = 1 ∧
    finishSequence b (fun _ => false) s 0 = some t' ∧ (t'.slot seq.cache).inputs.map (·.token) = [9] ∧
    ∀ (p : Nat) x, (t'.slot seq.cache).inputs[p]? = some x → ∃ j y,
      Stores t'.cache.cache.cells (t'.slot seq.cache).id j p ∧ t'.cache.cache.rows j = some y ∧ y.Same x ∧
      j ∉ t'.unread ∧ ∀ k, Stores t'.cache.cache.cells (t'.slot seq.cache).id k p → k = j := by
  let s := (exec step (idleServer true 1 8 4) heldLetters).get (by decide)
  have hs : Reaches step StopSafe Initial s :=
    reaches_of_exec (Reaches.init ⟨Causal.newCausalCache true, 8, 1, false, rfl, rfl, by decide, rfl, rfl, rfl, rfl, rfl, rfl,
      rfl, rfl⟩) (by decide) (Option.some_get _).symm
  let b := (s.computing[0]?).get (by decide)
  have hb : b ∈ s.computing := List.mem_of_getElem? (Option.some_get _).symm
  let seq := (s.sequence 0).get (by decide)
  have hstop : HitsStop b s 0 seq [100] [97, 98, 99, 100] :=
    ⟨(Option.some_get _).symm, by decide, by decide, ⟨0, by decide⟩,
      ⟨{ token := 100 }, by decide⟩, by decide, by decide⟩
  have hstart : exec (finishSequence b fun _ => false) s (List.range 0) = some s := rfl
  obtain ⟨-, -, t', ht', hslot, hkv⟩ := stop_trims hs hb hstart hstop
  refine ⟨s, b, seq, t', hs, hb, hstop, by decide, ht', ?_, hkv⟩
  rw [hslot]
  decide

/-- With a context of four the last batch drops half of the slot. -/
theorem shortContext_out_of_range : ∃ s b seq, Reaches step (fun _ _ => True) Initial s ∧ b ∈ s.computing ∧
    HitsStop b s 0 seq [100] [97, 98, 99, 100] ∧ s.stopLen seq [100] [97, 98, 99, 100] = -1 ∧
    finishSequence b (fun _ => false) s 0 = none ∧ s.finishCompute 3 (fun _ => false) = none := by
  let s := (exec step (idleServer true 1 4 4) heldLetters).get (by decide)
  have hs : Reaches step (fun _ _ => True) Initial s :=
    reaches_of_exec (Reaches.init ⟨Causal.newCausalCache true, 4, 1, false, rfl, rfl, by decide, rfl, rfl, rfl, rfl, rfl, rfl,
      rfl, rfl⟩) (by decide) (Option.some_get _).symm
  let b := (s.computing[0]?).get (by decide)
  have hb : s.computing[0]? = some b := (Option.some_get _).symm
  let seq := (s.sequence 0).get (by decide)
  have hseq : s.sequence 0 = some seq := (Option.some_get _).symm
  refine ⟨s, b, seq, hs, List.mem_of_getElem? hb, ⟨hseq, by decide, by decide, ⟨0, by decide⟩,
    ⟨{ token := 100 }, by decide⟩, by decide, by decide⟩, by decide, by decide,
    by decide⟩

end Server

end Xdragon.Runner.Pipeline
