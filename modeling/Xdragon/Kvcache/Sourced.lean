import Xdragon.Kvcache.Traced

/-!
# A pass keeps states and inputs together

A batch that goes on where its sequences end, and whose states are as long as the stored inputs, leaves
states, checkpoints and inputs that still match.
-/

open Xdragon.Lib

namespace Xdragon.Kvcache

variable {α : Type}

namespace Recurrent

/-- Slots, stored inputs and states of a cache that is used for the sequences `ids`. -/
structure Sourced (ids : Finset Int) (layers : List Buffer) (c : Recurrent α) : Prop where
  slots : Slots ids c
  room : ids.card ≤ c.maxSequences
  lined : Lined c.kv
  traced : Traced layers c

/-- Each state of the batch is as long as the stored part of its sequence. -/
def Level (layers : List Buffer) (c : Recurrent α) (batch : List Token) : Prop :=
  ∀ t ∈ batch, ∀ b ∈ layers, ((c.seqRow b t.seq).length : Int) = nextPos c.kv.cells t.seq

instance (layers : List Buffer) (c : Recurrent α) (batch : List Token) : Decidable (Level layers c batch) := by
  unfold Level; infer_instance

/-! ## The states of the sequences -/

section
variable {layers : List Buffer} {batch : List Token} {inputs : List α} {c c' : Recurrent α}

theorem inputsOf_eq_nil {s : Int} (h : ∀ t ∈ batch, t.seq ≠ s) : inputsOf batch inputs s = [] := by
  rw [inputsOf, List.map_eq_nil_iff, List.filter_eq_nil_iff]
  intro e he
  simpa using h e.1 (List.of_mem_zip he).1

/-- Each sequence goes on with its own inputs. -/
theorem Running.seqRow (hr : Ready layers batch inputs c) (h : Running layers batch inputs c [] c') (hm : Matched c)
    (hown : ∀ s ∈ c.curSeqs, Own c s) (hcur : c.curSeqs = seqsOf batch) {b : Buffer} (hb : b ∈ layers) (s : Int) :
    c'.seqRow b s = c.seqRow b s ++ inputsOf batch inputs s := by
  have hslots : c'.slotForSeq = c.slotForSeq := by rw [h.frame]
  have hout : s ∉ c.curSeqs → inputsOf batch inputs s = [] := by
    intro hs
    refine inputsOf_eq_nil fun t ht he => hs ?_
    rw [hcur]
    exact mem_seqsOf.mpr ⟨t, ht, he⟩
  cases hk : c.slotForSeq.lookup s with
  | none =>
    have hs : s ∉ c.curSeqs := by
      intro hs
      obtain ⟨i, hi⟩ := List.getElem?_of_mem hs
      have := congrArg (fun l : List (Option Nat) => l[i]?) hm
      simp only [List.getElem?_map, hi, Option.map_some, hk] at this
      cases hslot : c.curSlots[i]? <;> simp [hslot] at this
    rw [Recurrent.seqRow, Recurrent.seqRow, hslots, hk, hout hs]
    rfl
  | some k =>
    rw [seqRow_of_lookup hk, seqRow_of_lookup (hslots ▸ hk), h.rows b hb, if_neg List.not_mem_nil, after]
    congr 1
    by_cases hs : s ∈ c.curSeqs
    · obtain ⟨i, hi⟩ := List.getElem?_of_mem hs
      have hlt : i < c.curSlots.length := by
        rw [hr.length]
        exact (List.getElem?_eq_some_iff.mp hi).1
      have hzip : (c.curSeqs.zip c.curSlots)[i]? = some (s, c.curSlots[i]) :=
        List.getElem?_zip_eq_some.mpr ⟨hi, List.getElem?_eq_getElem hlt⟩
      have hmem := List.mem_of_getElem? hzip
      have hslot := matched_zip hm hmem
      rw [hk, Option.some.injEq] at hslot
      have hslot : k = c.curSlots[i] := hslot
      rw [hslot]
      exact hr.gain_eq hmem
    · rw [hout hs]
      refine gain_other fun e he hek => hs ?_
      have hmem := (List.of_mem_zip he).1
      have := hown e.1 hmem e.2 s (matched_zip hm he) (hek ▸ hk)
      exact this ▸ hmem

/-- The stores of slots without a sequence stay as they are. -/
theorem Running.unplanned (h : Running layers batch inputs c [] c') (hm : Matched c) {slot : Nat}
    (hfree : ∀ s, c.slotForSeq.lookup s ≠ some slot) : c'.checkpoints.lookup slot = c.checkpoints.lookup slot := by
  refine h.filling.rest slot ?_
  rintro ⟨e, -, -, hslot⟩
  have := congrArg (fun l : List (Option Nat) => l[e.2]?) hm
  simp only [List.getElem?_map, hslot, Option.map_some] at this
  cases hs : c.curSeqs[e.2]? with
  | none => simp [hs] at this
  | some s =>
    rw [hs, Option.map_some, Option.some.injEq] at this
    exact hfree s this.symm

end

/-! ## One pass -/

/-- With private slots for the batch the next layer does not look for them again. -/
theorem layersPass_ensured {batch : List Token} {inputs : List α} {b : Buffer} {rest : List Buffer}
    {c c' : Recurrent α} (h : c.ensureWritableOnce = some c') (hw : c'.writableEnsured = true) :
    layersPass batch inputs (b :: rest) c = layersPass batch inputs (b :: rest) c' := by
  have h' : c'.ensureWritableOnce = some c' := by simp [ensureWritableOnce, hw]
  have hl : layerPass batch inputs c b = layerPass batch inputs c' b := by
    unfold layerPass
    rw [h, h']
  simp only [layersPass, hl]

/-- A batch whose inputs are stored, before its layers run. -/
structure Primed (layers : List Buffer) (batch : List Token) (inputs : List α) (c : Recurrent α) : Prop where
  matched : Matched c
  curSeqs : c.curSeqs = seqsOf batch
  curCheckpointSlots : c.curCheckpointSlots = ∅
  writableEnsured : c.writableEnsured = false
  writableError : c.writableError = none
  reserveCheckpoints : c.reserveCheckpoints = false
  noPlan : c.checkpointCount = 0 → c.curCheckpointPos = []
  plan : ∀ (i : Nat) (pos : Int), c.curCheckpointPos[i]? = some pos → 0 ≤ pos → ∃ s, c.curSeqs[i]? = some s ∧
    ∀ b ∈ layers, pos + 1 = (c.seqRow b s).length + (inputsOf batch inputs s).length
  stored : ∀ b ∈ layers, ∀ s i p, Stores c.kv.cells s i p →
    p < (c.seqRow b s ++ inputsOf batch inputs s).length →
    c.kv.rows i = (c.seqRow b s ++ inputsOf batch inputs s)[p.toNat]?

section
variable {ids : Finset Int} {layers : List Buffer} {batch : List Token} {inputs : List α} {c c' : Recurrent α}

/-- The first layer finds private slots. -/
theorem Primed.ready (h : Primed layers batch inputs c) (hs : Sourced ids layers c)
    (he : c.ensureWritableOnce = some c') :
    Ready layers batch inputs c' ∧ Sourced ids layers c' ∧ Matched c' ∧ (∀ s ∈ c'.curSeqs, Own c' s) ∧
      c'.curSeqs = seqsOf batch ∧ c'.kv = c.kv ∧ ∀ b s, c'.seqRow b s = c.seqRow b s := by
  obtain ⟨hmoved, hslots, hflag, hm, hown⟩ := ensureWritableOnce_moved layers hs.slots hs.room he
  replace hm := hm (h.curSeqs ▸ seqsOf_nodup batch) h.matched
  replace hown := hown h.writableEnsured
  have ht := hmoved.traced hs.traced
  have hf := hmoved.frame
  have hkv : c'.kv = c.kv := by rw [hf]
  have hseqs : c'.curSeqs = c.curSeqs := by rw [hf]
  have hlen : c'.curSlots.length = c'.curSeqs.length := by
    have := congrArg List.length hm
    simpa using this
  refine ⟨?_, ⟨hslots, by rw [hf]; exact hs.room, hkv ▸ hs.lined, ht⟩, hm, hown, hseqs.trans h.curSeqs, hkv,
    hmoved.rows⟩
  refine ⟨hflag, by rw [hf]; exact h.writableError, by rw [hf]; exact h.reserveCheckpoints, ?_, hlen, by rw [hf]; exact h.curCheckpointSlots,
    by rw [hf]; exact h.noPlan, ?_, ht.live, ht.shaped⟩
  · intro e he f hf hef
    refine hown f.1 (List.of_mem_zip hf).1 f.2 e.1 (matched_zip hm hf) ?_
    rw [← hef]
    exact matched_zip hm he
  · intro i pos hi hpos
    rw [hf] at hi
    obtain ⟨s, hsi, hlayers⟩ := h.plan i pos hi hpos
    rw [← hseqs] at hsi
    have hlt : i < c'.curSlots.length := by
      rw [hlen]
      exact (List.getElem?_eq_some_iff.mp hsi).1
    have hzip : (c'.curSeqs.zip c'.curSlots)[i]? = some (s, c'.curSlots[i]) :=
      List.getElem?_zip_eq_some.mpr ⟨hsi, List.getElem?_eq_getElem hlt⟩
    refine ⟨_, hzip, fun b hb => ?_⟩
    rw [← seqRow_of_lookup (matched_zip hm (List.mem_of_getElem? hzip)) b, hmoved.rows]
    exact hlayers b hb

/-- The layers of a pass keep the invariant. -/
theorem layersPass_sourced (h : Primed layers batch inputs c) (hs : Sourced ids layers c) (hnd : layers.Nodup)
    {err : Option CacheError} (hp : layersPass batch inputs layers c = some (c', err)) : Sourced ids layers c' := by
  cases hl : layers with
  | nil =>
    rw [hl] at hp
    simp only [layersPass, Option.some.injEq, Prod.mk.injEq] at hp
    rw [← hp.1, ← hl]
    exact hs
  | cons b rest =>
    rw [← hl]
    cases he : c.ensureWritableOnce with
    | none =>
      rw [hl] at hp
      simp only [layersPass, layerPass, he, Option.bind_none] at hp
      cases hp
    | some c₁ =>
      obtain ⟨hr, hs₁, hm, hown, hcur, hkv, hrows⟩ := h.ready hs he
      have hp₁ : layersPass batch inputs layers c₁ = some (c', err) := by
        rw [← hp, hl]
        exact (layersPass_ensured he hr.ensured).symm
      obtain ⟨-, hrun⟩ := layersPass_running hr (fun _ hb => hb) hnd hr.running hp₁
      have hf := hrun.frame
      have hslots : c'.slotForSeq = c₁.slotForSeq := by rw [hf]
      have hkv' : c'.kv = c₁.kv := by rw [hf]
      refine ⟨?_, by rw [hf]; exact hs₁.room, hkv' ▸ hs₁.lined, ?_, ?_, ?_, hrun.filling.shaped⟩
      · rw [hf]
        exact ⟨hs₁.slots.exact, hs₁.slots.within⟩
      · intro b hb s i p hst hlt
        rw [hrun.seqRow hr hm hown hcur hb, hrows] at hlt ⊢
        rw [hkv', hkv] at hst ⊢
        exact h.stored b hb s i p hst hlt
      · intro b hb slot idx e he hpos
        obtain ⟨h1, h2⟩ := hrun.filling.live b hb slot idx e he hpos
        rw [hrun.rows b hb, if_neg List.not_mem_nil]
        refine ⟨h1, h2.resolve_right ?_⟩
        rintro ⟨hidx, hnot⟩
        exact hnot ⟨hb, List.not_mem_nil, (hrun.filling.cur slot idx hidx).1⟩
      · intro slot hfree idx e he
        rw [hslots] at hfree
        rw [entryAt_of_lookup (hrun.unplanned hm hfree)] at he
        exact hs₁.traced.free slot hfree idx e he

end

/-! ## Passes that compute nothing -/

/-- Entries may have got tensors that they did not have. -/
structure Grown (c c' : Recurrent α) : Prop where
  frame : c' = { c with checkpoints := c'.checkpoints, checkpointReserved := c'.checkpointReserved }
  live : ∀ slot idx e, c'.entryAt slot idx = some e → 0 ≤ e.pos → ∃ e₀, c.entryAt slot idx = some e₀ ∧
    e.pos = e₀.pos ∧ ∀ b t, e₀.tensors.lookup b = some t → e.tensors.lookup b = some t
  shaped : Shaped c → Shaped c'

theorem Grown.refl (c : Recurrent α) : Grown c c := ⟨rfl, fun _ _ e he _ => ⟨e, he, rfl, fun _ _ h => h⟩, id⟩

theorem Grown.trans {c c' c'' : Recurrent α} (h : Grown c c') (h' : Grown c' c'') : Grown c c'' := by
  refine ⟨by rw [h'.frame, h.frame], ?_, fun hs => h'.shaped (h.shaped hs)⟩
  intro slot idx e he hpos
  obtain ⟨e₁, he₁, hp₁, ht₁⟩ := h'.live slot idx e he hpos
  obtain ⟨e₂, he₂, hp₂, ht₂⟩ := h.live slot idx e₁ he₁ (hp₁ ▸ hpos)
  exact ⟨e₂, he₂, hp₁.trans hp₂, fun b t hb => ht₁ b t (ht₂ b t hb)⟩

theorem Grown.traced {layers : List Buffer} {c c' : Recurrent α} (h : Grown c c') (ht : Traced layers c) :
    Traced layers c' := by
  have hf := h.frame
  have hrow : ∀ b slot, c'.row b slot = c.row b slot := fun b slot => by rw [row, row, hf]
  have hseq : ∀ b s, c'.seqRow b s = c.seqRow b s := by
    intro b s
    rw [hf]
    rfl
  refine ⟨?_, ?_, ?_, h.shaped ht.shaped⟩
  · intro b hb s i p
    rw [hseq, show c'.kv = c.kv by rw [hf]]
    exact ht.compat b hb s i p
  · intro b hb slot idx e he hpos
    obtain ⟨e₀, he₀, hp, htensors⟩ := h.live slot idx e he hpos
    obtain ⟨h1, h2⟩ := ht.live b hb slot idx e₀ he₀ (hp ▸ hpos)
    rw [hrow, hp]
    exact ⟨h1, htensors b _ h2⟩
  · intro slot hfree idx e he
    rw [show c'.slotForSeq = c.slotForSeq by rw [hf]] at hfree
    by_contra hpos
    obtain ⟨e₀, he₀, hp, -⟩ := h.live slot idx e he (by omega)
    have := ht.free slot hfree idx e₀ he₀
    omega

theorem ensureTensor_spec (e : CheckpointEntry α) (b : Buffer) :
    (SlotCheckpointStore.ensureTensor e b).pos = e.pos ∧ ∀ b' t, e.tensors.lookup b' = some t →
      (SlotCheckpointStore.ensureTensor e b).tensors.lookup b' = some t := by
  unfold SlotCheckpointStore.ensureTensor
  cases hb : e.tensors.lookup b with
  | some _ => exact ⟨rfl, fun _ _ h => h⟩
  | none =>
    refine ⟨rfl, fun b' t ht => ?_⟩
    have hne : b' ≠ b := by
      rintro rfl
      rw [hb] at ht
      cases ht
    rwa [AList.lookup_insert_ne hne]

theorem grown_reserveSlot (c : Recurrent α) (b : Buffer) (slot : Nat) :
    Grown c ((c.checkpointStore slot).2.onStore slot fun s =>
      { s with entries := s.entries.map (SlotCheckpointStore.ensureTensor · b) }) := by
  have hn := noCapture_checkpointStore c slot
  refine ⟨by rw [onStore_frame, checkpointStore_frame], ?_, fun hs => shaped_onStore (hn.shaped hs) slot ?_⟩
  · intro k idx e he hpos
    rw [entryAt_onStore] at he
    split at he
    · rename_i hk
      subst hk
      rw [checkpointStore_lookup, Option.bind_some, List.getElem?_map] at he
      obtain ⟨e₀, he₀, rfl⟩ := Option.map_eq_some_iff.mp he
      obtain ⟨hp, ht⟩ := ensureTensor_spec e₀ b
      refine ⟨e₀, hn.live k idx e₀ ?_ (hp ▸ hpos), hp, ht⟩
      rw [entryAt, checkpointStore_lookup]
      exact he₀
    · exact ⟨e, hn.live k idx e he hpos, rfl, fun _ _ h => h⟩
  · intro store hring
    refine ⟨by rw [List.length_map]; exact hring.length, fun h0 e he => ?_, hring.next⟩
    obtain ⟨e₀, he₀, rfl⟩ := List.mem_map.mp he
    rw [(ensureTensor_spec e₀ b).1]
    exact hring.empty h0 e₀ he₀

theorem grown_reserveCheckpoint (c : Recurrent α) (b : Buffer) : Grown c (c.reserveCheckpoint b) := by
  have hfold : ∀ (slots : List Nat) (c : Recurrent α), Grown c (slots.foldl (fun c slot =>
      (c.checkpointStore slot).2.onStore slot fun s =>
        { s with entries := s.entries.map (SlotCheckpointStore.ensureTensor · b) }) c) := by
    intro slots
    induction slots with
    | nil => exact Grown.refl
    | cons slot slots ih => exact fun c => (grown_reserveSlot c b slot).trans (ih _)
  unfold reserveCheckpoint
  split
  · exact .refl c
  · have h := hfold (List.range c.maxSequences) c
    exact ⟨by rw [h.frame], h.live, h.shaped⟩

/-- A reserving pass, or a pass over an empty batch. -/
def Resting (c : Recurrent α) : Prop := c.reserveCheckpoints = true ∨ (c.curSeqs = [] ∧ c.curSlots = [])

/-- Without slots there is nothing to capture. -/
theorem captureSeq_idle {b : Buffer} {src : List (List α)} {c c' : Recurrent α} {es : List (Int × Nat)}
    (hslots : c.curSlots = []) (h : es.foldlM (captureSeq b src) c = some c') : c' = c := by
  induction es with
  | nil => exact (Option.some.inj h).symm
  | cons e es ih =>
    rw [List.foldlM_cons, Option.bind_eq_bind, Option.bind_eq_some_iff] at h
    obtain ⟨c₁, h₁, h⟩ := h
    unfold captureSeq at h₁
    rw [hslots] at h₁
    split at h₁
    · cases h₁
      exact ih h
    · cases h₁

section
variable {ids : Finset Int} {layers : List Buffer} {batch : List Token} {inputs : List α} {c c' : Recurrent α}

theorem Sourced.congr (h : Sourced ids layers c) (hpool : c'.pool = c.pool) (hmax : c'.maxSequences = c.maxSequences)
    (hkv : c'.kv = c.kv) (hrows : ∀ b slot, c'.row b slot = c.row b slot)
    (hstores : c'.checkpoints = c.checkpoints) (hcount : c'.checkpointCount = c.checkpointCount) :
    Sourced ids layers c' := by
  refine ⟨⟨?_, ?_⟩, by rw [hmax]; exact h.room, by rw [hkv]; exact h.lined, ?_⟩
  · rw [hpool, hmax]
    exact h.slots.exact
  · rw [hpool]
    exact h.slots.within
  · exact h.traced.congr hkv (congrArg Pool.slot hpool) hrows hstores hcount

theorem Sourced.buffer (h : Sourced ids layers c) (b : Buffer) : Sourced ids layers (c.buffer b) :=
  h.congr (kept_buffer c b).pool (kept_buffer c b).maxSequences (kept_buffer c b).kv (row_buffer c b) (by rw [buffer_frame]) (by rw [buffer_frame])

theorem Grown.sourced (h : Grown c c') (hs : Sourced ids layers c) : Sourced ids layers c' := by
  have hf := h.frame
  refine ⟨?_, by rw [hf]; exact hs.room, by rw [hf]; exact hs.lined, h.traced hs.traced⟩
  rw [hf]
  exact ⟨hs.slots.exact, hs.slots.within⟩

/-- Writing the rows of no slot. -/
theorem Sourced.updateState (h : Sourced ids layers c) (hslots : c.curSlots = []) (hres : c.reserveCheckpoints = false)
    {b : Buffer} {src : List (List α)} (hu : c.updateState b src = some c') :
    Sourced ids layers c' ∧ c'.curSlots = c.curSlots ∧ c'.curSeqs = c.curSeqs := by
  have hb := buffer_frame c b
  have hrow := row_buffer c b
  have hs := h.buffer b
  unfold Recurrent.updateState at hu
  generalize c.buffer b = c₁ at hu hb hrow hs
  have hcs : c₁.curSlots = [] := by rw [hb]; exact hslots
  dsimp only at hu
  have hnone : c₁.curSlots.zip src = [] := by rw [hcs, List.zip_nil_left]
  rw [hnone, List.foldl_nil] at hu
  have hc' : c' = { c₁ with states := c₁.states.insert b ((c₁.states.lookup b).getD fun _ => []) } := by
    unfold capture at hu
    split at hu
    · exact (Option.some.inj hu).symm
    · rw [if_neg (by rw [hb]; simp [hres])] at hu
      exact captureSeq_idle hcs hu
  rw [hc']
  refine ⟨hs.congr rfl rfl rfl (fun b' slot => ?_) rfl rfl, by rw [hb], by rw [hb]⟩
  by_cases hbb : b' = b
  · rw [hbb, row, AList.lookup_insert]
    rfl
  · rw [row, AList.lookup_insert_ne hbb]
    rfl

theorem layerPass_resting (h : Resting c) (hs : Sourced ids layers c) {b : Buffer} {err : Option CacheError}
    (hp : layerPass batch inputs c b = some (c', err)) : Sourced ids layers c' ∧ Resting c' := by
  obtain ⟨c₁, he, hp⟩ := Option.bind_eq_some_iff.mp hp
  obtain ⟨hmoved, hslots, -⟩ := ensureWritableOnce_moved layers hs.slots hs.room he
  have hf := hmoved.frame
  have hs₁ : Sourced ids layers c₁ :=
    ⟨hslots, by rw [hf]; exact hs.room, by rw [hf]; exact hs.lined, hmoved.traced hs.traced⟩
  have hrest : Resting c₁ := by
    refine h.imp (fun hr => by rw [hf]; exact hr) ?_
    rintro ⟨hseqs, hcur⟩
    have hnone : c.curSeqs.any c.needsWritable = false := by
      rw [hseqs]
      rfl
    unfold ensureWritableOnce at he
    simp only [hnone, Bool.false_eq_true, if_false] at he
    split at he <;> cases he <;> exact ⟨hseqs, hcur⟩
  split at hp
  · cases hp
    exact ⟨hs₁, hrest⟩
  · dsimp only at hp
    have hs₂ := hs₁.buffer b
    have hb := buffer_frame c₁ b
    generalize c₁.buffer b = c₂ at hp hs₂ hb
    obtain ⟨c₃, hu, he₃⟩ := Option.map_eq_some_iff.mp hp
    obtain ⟨rfl, -⟩ := Prod.mk.inj he₃
    split at hu
    · rename_i hres
      unfold capture at hu
      split at hu
      · cases hu
        exact ⟨hs₂, .inl hres⟩
      · cases hu
        have hg := grown_reserveCheckpoint c₂ b
        exact ⟨hg.sourced hs₂, .inl (by rw [hg.frame]; exact hres)⟩
    · rename_i hres
      have hidle : c₂.curSeqs = [] ∧ c₂.curSlots = [] := by
        rw [hb] at hres ⊢
        exact hrest.resolve_left hres
      obtain ⟨h1, h2, h3⟩ := hs₂.updateState hidle.2 (by simpa using hres) hu
      exact ⟨h1, .inr ⟨h3.trans hidle.1, h2.trans hidle.2⟩⟩

theorem layersPass_resting {rest : List Buffer} (h : Resting c) (hs : Sourced ids layers c) {err : Option CacheError}
    (hp : layersPass batch inputs rest c = some (c', err)) : Sourced ids layers c' := by
  induction rest generalizing c with
  | nil =>
    simp only [layersPass, Option.some.injEq, Prod.mk.injEq] at hp
    rw [← hp.1]
    exact hs
  | cons b rest ih =>
    simp only [layersPass] at hp
    cases hl : layerPass batch inputs c b with
    | none =>
      rw [hl] at hp
      cases hp
    | some r =>
      obtain ⟨c₁, err₁⟩ := r
      obtain ⟨hs₁, hr₁⟩ := layerPass_resting h hs hl
      rw [hl] at hp
      cases err₁ with
      | some err₁ =>
        cases hp
        exact hs₁
      | none => exact ih hr₁ hs₁ hp

end

/-! ## The whole pass -/

section
variable {ids : Finset Int} {layers : List Buffer} {batch : List Token} {inputs : List α} {c c' : Recurrent α}

/-- New cells of the batch are after the end of the states. -/
theorem Sourced.appended (h : Sourced ids layers c) (hlevel : Level layers c batch) (hext : Extends c.kv.cells batch)
    {kv : Causal α} (ha : Appended c.kv batch kv) :
    (∀ t ∈ batch, ∀ b ∈ layers, ((c.seqRow b t.seq).length : Int) ≤ t.pos) ∧
      Sourced ids layers { c with kv := kv } := by
  have hpos : ∀ t ∈ batch, ∀ b ∈ layers, ((c.seqRow b t.seq).length : Int) ≤ t.pos := by
    intro t ht b hb
    rw [hlevel t ht b hb]
    have hmem : t.pos ∈ positionsOf t.seq batch := mem_positionsOf_iff.mpr ⟨t, ht, rfl, rfl⟩
    rw [(hext t ht).1] at hmem
    obtain ⟨k, -, hk⟩ := List.mem_map.mp hmem
    omega
  refine ⟨hpos, ⟨h.slots.exact, h.slots.within⟩, h.room, ha.lined, h.traced.withKv ?_⟩
  intro b hb s i p hst hlt
  rcases (ha.stores s i p).mp hst with hst | ⟨e, he, rfl, -, rfl⟩
  · exact ⟨hst, by rw [ha.rows]⟩
  · have := hpos e.1 (List.of_mem_zip he).1 b hb
    omega

/-- What is stored after `Put` goes with the states and the inputs of the batch. -/
theorem stored_put (h : Sourced ids layers c) (hlevel : Level layers c batch) (hext : Extends c.kv.cells batch)
    (hlen : inputs.length = batch.length) {kv : Causal α} (ha : Appended c.kv batch kv) {b : Buffer} (hb : b ∈ layers)
    {s p : Int} {i : Nat} (hst : Stores kv.cells s i p)
    (hlt : p < (c.seqRow b s ++ inputsOf batch inputs s).length) :
    (kv.put inputs).rows i = (c.seqRow b s ++ inputsOf batch inputs s)[p.toNat]? := by
  obtain ⟨n, hmax, hn⟩ := h.lined.lined s
  by_cases hs : ∃ t ∈ batch, t.seq = s
  · obtain ⟨t, ht, rfl⟩ := hs
    have hl := hlevel t ht b hb
    rcases ha.put_rows hext hlen hst with ⟨hold, hrow⟩ | ⟨hle, hrow⟩
    · have hp := (hn p).mp ⟨i, hold⟩
      rw [nextPos_eq hn] at hl
      rw [hrow, List.getElem?_append_left (by omega)]
      exact h.traced.compat b hb t.seq i p hold (by omega)
    · rw [hrow, List.getElem?_append_right (by omega)]
      congr 1
      omega
  · have hnil : inputsOf batch inputs s = [] := inputsOf_eq_nil fun t ht he => hs ⟨t, ht, he⟩
    rw [hnil, List.append_nil] at hlt ⊢
    rcases ha.put_rows hext hlen hst with ⟨hold, hrow⟩ | ⟨hle, hrow⟩
    · rw [hrow]
      exact h.traced.compat b hb s i p hold hlt
    · -- A sequence that is not in the batch has no new cell.
      rcases (ha.stores s i p).mp hst with hold | ⟨e, he, hes, -⟩
      · have := (hn p).mp ⟨i, hold⟩
        rw [nextPos_eq hn] at hle
        omega
      · exact absurd ⟨e.1, (List.of_mem_zip he).1, hes⟩ hs

/-- Slots and inputs for the batch. -/
theorem seated_primed (h : Sourced ids layers c) (hlevel : Level layers c batch) (hext : Extends c.kv.cells batch)
    (hlen : inputs.length = batch.length) {kv : Causal α} (ha : Appended c.kv batch kv) {n : Nat}
    (hs₀ : Sourced ids layers { c with kv := kv, curSeqs := seqsOf batch, curSeqTokens := n })
    (hseat : Seated batch { c with kv := kv, curSeqs := seqsOf batch, curSeqTokens := n } c')
    (hslots : Slots ids c') (hroom : ids.card ≤ c'.maxSequences) :
    Primed layers batch inputs { c' with kv := c'.kv.put inputs } ∧
      Sourced ids layers { c' with kv := c'.kv.put inputs } := by
  have hkv : c'.kv = kv := hseat.kv
  have hrows : ∀ b s, c'.seqRow b s = c.seqRow b s := hseat.rows
  have hseqs : c'.curSeqs = seqsOf batch := hseat.curSeqs
  have hstored := fun b hb s i p => @stored_put _ ids layers batch inputs c h hlevel hext hlen kv ha b hb s p i
  refine ⟨⟨hseat.curSlots, hseqs, hseat.curCheckpointSlots, hseat.writableEnsured, hseat.writableError,
    hseat.reserveCheckpoints, hseat.noPlan, ?_, ?_⟩, ⟨hslots.exact, hslots.within⟩, hroom, ?_, ?_⟩
  · intro i pos hi hpos
    obtain ⟨e, he, hmax⟩ := hseat.plan i pos hi hpos
    have hes : c'.curSeqs[i]? = some e.1 := (List.getElem?_zip_eq_some.mp he).1
    refine ⟨e.1, hes, fun b hb => ?_⟩
    have hmem := List.mem_of_getElem? hes
    rw [hseqs] at hmem
    obtain ⟨t, ht, hte⟩ := mem_seqsOf.mp hmem
    rw [← hte] at hmax ⊢
    show pos + 1 = ((c'.seqRow b t.seq).length : Int) + (inputsOf batch inputs t.seq).length
    rw [hrows, hlevel t ht b hb, length_inputsOf hlen]
    exact posMax_eq (hext t ht).1 hmax
  · intro b hb s i p hst hlt
    have hst : Stores c'.kv.cells s i p := hst
    have hlt : p < (c'.seqRow b s ++ inputsOf batch inputs s).length := hlt
    show (c'.kv.put inputs).rows i = (c'.seqRow b s ++ inputsOf batch inputs s)[p.toNat]?
    rw [hrows] at hlt ⊢
    rw [hkv] at hst ⊢
    exact hstored b hb s i p hst hlt
  · show Lined (c'.kv.put inputs)
    rw [hkv]
    exact ha.lined.put inputs
  · refine (seated_traced hs₀.traced hseat).withKv ?_
    intro b hb s i p hst hlt
    have hst : Stores c'.kv.cells s i p := hst
    refine ⟨hst, ?_⟩
    -- A cell below the end of a state is older than the batch.
    rw [hrows] at hlt
    rw [hkv] at hst ⊢
    rcases (ha.stores s i p).mp hst with hold | ⟨e, he, rfl, -, rfl⟩
    · rw [put_rows_other fun hi => ha.fresh i hi s p hold]
    · have := (h.appended hlevel hext ha).1 e.1 (List.of_mem_zip he).1 b hb
      omega

/-- A pass keeps the states, the checkpoints and the stored inputs together. -/
theorem forward_sourced (h : Sourced ids layers c) (hnd : layers.Nodup) (hids : ∀ t ∈ batch, t.seq ∈ ids)
    (hlen : inputs.length = batch.length) (hext : Extends c.kv.cells batch) (hlevel : Level layers c batch)
    {err : Option CacheError} (hf : c.forward layers batch inputs false = some (c', err)) :
    Sourced ids layers c' := by
  have hroom := startForward_room h.slots h.room hids false
  unfold forward at hf
  rcases startForward_cases c batch false with ⟨kv, err₁, hkv, he⟩ | ⟨kv, hkv, hcases⟩
  · rw [he] at hf
    cases hf
    obtain ⟨h1, h2, h3⟩ := lined_startForward_failed h.lined hkv
    refine ⟨⟨h.slots.exact, h.slots.within⟩, h.room, h1, h.traced.withKv ?_⟩
    intro b hb s i p hst _
    rw [h2] at hst
    exact ⟨hst, by rw [h3]⟩
  have ha := appended_startForward h.lined hext hkv
  obtain ⟨hpos, hs⟩ := h.appended hlevel hext ha
  rcases hcases with ⟨rfl, he⟩ | ⟨s, -, -, he⟩ | ⟨-, n, he | ⟨-, -, he⟩⟩
  · rw [he] at hf
    obtain rfl := List.length_eq_zero_iff.mp hlen
    refine layersPass_resting (.inr ⟨rfl, rfl⟩) (c := { c with
      kv := kv.put [], curSeqs := [], curSlots := [], curSeqTokens := 0, reserveCheckpoints := false
      writableEnsured := false, writableError := none }) ?_ hf
    have hput : kv.put [] = kv := by simp [Causal.put]
    rw [hput]
    exact hs.congr rfl rfl rfl (fun _ _ => rfl) rfl rfl
  · rw [he] at hf
    cases hf
    exact hs.congr rfl rfl rfl (fun _ _ => rfl) rfl rfl
  · have hs₀ : Sourced ids layers { c with kv := kv, curSeqs := seqsOf batch, curSeqTokens := n } :=
      hs.congr rfl rfl rfl (fun _ _ => rfl) rfl rfl
    have hseqs : ∀ s ∈ seqsOf batch, s ∈ ids := by
      intro s hs
      obtain ⟨t, ht, rfl⟩ := mem_seqsOf.mp hs
      exact hids t ht
    have hslots := startForward_slots h.slots hids false
    have hmax := startForward_max c batch false
    have hok := startForwardMultiSeq_room hs₀.slots hs₀.room hseqs batch false
    have hseated := fun c₁ => @startForwardMultiSeq_seated _ ids _ c₁ batch hs₀.slots hseqs
    rw [he] at hf hslots hmax
    generalize { c with kv := kv, curSeqs := seqsOf batch, curSeqTokens := n }.startForwardMultiSeq batch
      false = r at hf hslots hmax hok hseated
    obtain ⟨c₁, err₁⟩ := r
    obtain rfl : err₁ = none := hok
    have hseat := hseated c₁ rfl
    have hroom : ids.card ≤ c₁.maxSequences := by
      rw [show c₁.maxSequences = c.maxSequences from hmax]
      exact h.room
    obtain ⟨hp, hs₁⟩ := seated_primed h hlevel hext hlen ha hs₀ hseat hslots hroom
    exact layersPass_sourced hp hs₁ hnd hf
  · rw [he] at hroom
    exact absurd rfl hroom

theorem NoCapture.sourced (h : NoCapture c c') (hk : Kept c c') (hs : Sourced ids layers c) :
    Sourced ids layers c' := by
  have hrow : ∀ b slot, c'.row b slot = c.row b slot := fun b slot => by rw [row, row, h.states]
  refine ⟨hs.slots.kept hk, by rw [hk.maxSequences]; exact hs.room, by rw [hk.kv]; exact hs.lined, ?_, ?_, ?_,
    h.shaped hs.traced.shaped⟩
  · intro b hb s i p
    have hseq : c'.seqRow b s = c.seqRow b s := by rw [seqRow, seqRow, hk.slotForSeq, funext (hrow b)]
    rw [hk.kv, hseq]
    exact hs.traced.compat b hb s i p
  · intro b hb slot idx e he hpos
    rw [hrow]
    exact hs.traced.live b hb slot idx e (h.live slot idx e he hpos) hpos
  · intro slot hfree idx e he
    rw [hk.slotForSeq] at hfree
    by_contra hpos
    exact hpos (hs.traced.free slot hfree idx e (h.live slot idx e he (by omega)))

/-- A reserving pass changes no state and no checkpoint. -/
theorem forward_reserved (h : Sourced ids layers c) {err : Option CacheError}
    (hf : c.forward layers batch inputs true = some (c', err)) : Sourced ids layers c' := by
  have hs : ∀ kv, c.kv.startForward batch true = (kv, none) → Sourced ids layers { c with kv := kv } := by
    rintro kv hkv
    obtain ⟨rfl, -⟩ := Prod.mk.inj hkv
    refine ⟨⟨h.slots.exact, h.slots.within⟩, h.room, ?_, h.traced.withKv fun _ _ _ _ _ hst _ => ⟨hst, rfl⟩⟩
    exact ⟨⟨h.lined.ranged.covers, h.lined.ranged.below⟩, h.lined.plain, h.lined.once, h.lined.lined⟩
  unfold forward at hf
  simp only [if_true] at hf
  rcases startForward_cases c batch true with
    ⟨kv, err₁, hkv, -⟩ | ⟨kv, hkv, ⟨-, he⟩ | ⟨_, -, -, he⟩ | ⟨-, n, he | ⟨-, -, he⟩⟩⟩
  · cases hkv
  · rw [he] at hf
    refine layersPass_resting ?_ ?_ hf
    · exact .inr ⟨rfl, rfl⟩
    · exact (hs kv hkv).congr rfl rfl rfl (fun _ _ => rfl) rfl rfl
  · rw [he] at hf
    cases hf
    exact (hs kv hkv).congr rfl rfl rfl (fun _ _ => rfl) rfl rfl
  · rw [he] at hf
    have hp := finalizeStartForward_planned { c with
      kv := kv, curSeqs := seqsOf batch, curSeqTokens := n, curSlots := List.range (seqsOf batch).length } batch true
    have hs₁ : Sourced ids layers { c with
        kv := kv, curSeqs := seqsOf batch, curSeqTokens := n, curSlots := List.range (seqsOf batch).length } :=
      (hs kv hkv).congr rfl rfl rfl (fun _ _ => rfl) rfl rfl
    have hs₀ := hp.noCapture.sourced hp.kept hs₁
    refine layersPass_resting ?_ ?_ hf
    · exact .inl hp.reserveCheckpoints
    · exact hs₀.congr rfl rfl rfl (fun _ _ => rfl) rfl rfl
  · rw [he] at hf
    cases hf
    exact (hs kv hkv).congr rfl rfl rfl (fun _ _ => rfl) rfl rfl

end

end Recurrent

end Xdragon.Kvcache
