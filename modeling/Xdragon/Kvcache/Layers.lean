import Xdragon.Kvcache.Capture

/-!
# The recurrent layers of a pass

Each layer moves the states of the batch on by its inputs, and every checkpoint is complete at the end.
-/

open Xdragon.Lib

namespace Xdragon.Kvcache

variable {α : Type}

namespace Recurrent

/-- The inputs that go into the state of a slot. -/
def gain (c : Recurrent α) (batch : List Token) (inputs : List α) (slot : Nat) : List α :=
  (((c.curSeqs.zip c.curSlots).find? fun e => e.2 = slot).map fun e => inputsOf batch inputs e.1).getD []

/-- The state of a slot after the pass. -/
def after (c : Recurrent α) (batch : List Token) (inputs : List α) (b : Buffer) (slot : Nat) : List α :=
  c.row b slot ++ c.gain batch inputs slot

/-- The slots with a planned checkpoint. -/
def PlannedSlot (c : Recurrent α) (slot : Nat) : Prop :=
  ∃ e ∈ c.curCheckpointPos.zipIdx, 0 ≤ e.1 ∧ c.curSlots[e.2]? = some slot

/-- Before the first update: private slots, a plan, and checkpoints that are part of the states. -/
structure Ready (layers : List Buffer) (batch : List Token) (inputs : List α) (c : Recurrent α) : Prop where
  ensured : c.writableEnsured = true
  noError : c.writableError = none
  computes : c.reserveCheckpoints = false
  apart : ∀ e ∈ c.curSeqs.zip c.curSlots, ∀ f ∈ c.curSeqs.zip c.curSlots, e.2 = f.2 → e.1 = f.1
  length : c.curSlots.length = c.curSeqs.length
  fresh : c.curCheckpointSlots = ∅
  noPlan : c.checkpointCount = 0 → c.curCheckpointPos = []
  plan : ∀ (i : Nat) (pos : Int), c.curCheckpointPos[i]? = some pos → 0 ≤ pos →
    ∃ e : Int × Nat, (c.curSeqs.zip c.curSlots)[i]? = some e ∧
      ∀ b ∈ layers, pos + 1 = (c.row b e.2).length + (inputsOf batch inputs e.1).length
  live : ∀ b ∈ layers, ∀ slot idx e, c.entryAt slot idx = some e → 0 ≤ e.pos →
    e.pos < (c.row b slot).length ∧ e.tensors.lookup b = some ((c.row b slot).take (e.pos.toNat + 1))
  shaped : Shaped c

section
variable {layers : List Buffer} {batch : List Token} {inputs : List α} {c : Recurrent α}

theorem Ready.gain_eq (h : Ready layers batch inputs c) {e : Int × Nat} (he : e ∈ c.curSeqs.zip c.curSlots) :
    c.gain batch inputs e.2 = inputsOf batch inputs e.1 := by
  unfold gain
  cases hf : (c.curSeqs.zip c.curSlots).find? fun f => f.2 = e.2 with
  | none =>
    rw [List.find?_eq_none] at hf
    exact absurd (decide_eq_true rfl) (hf e he)
  | some f =>
    have hmem := List.mem_of_find?_eq_some hf
    have heq : f.2 = e.2 := by simpa using List.find?_some hf
    rw [Option.map_some, Option.getD_some, h.apart f hmem e he heq]

theorem gain_other {slot : Nat} (h : ∀ e ∈ c.curSeqs.zip c.curSlots, e.2 ≠ slot) : c.gain batch inputs slot = [] := by
  unfold gain
  rw [List.find?_eq_none.mpr fun e he => by simpa using h e he]
  rfl

/-- What is left to do when the layers of `rest` have not run yet. -/
structure Running (layers : List Buffer) (batch : List Token) (inputs : List α) (c : Recurrent α)
    (rest : List Buffer) (c' : Recurrent α) : Prop where
  frame : c' = { c with
    states := c'.states, checkpoints := c'.checkpoints, curCheckpointSlots := c'.curCheckpointSlots }
  filling : Filling layers (c.after batch inputs) c.PlannedSlot c.checkpoints.lookup
    (fun b slot => b ∈ layers ∧ b ∉ rest ∧ c.PlannedSlot slot) c'
  rows : ∀ b ∈ layers, ∀ slot, c'.row b slot = if b ∈ rest then c.row b slot else c.after batch inputs b slot

theorem Ready.running (h : Ready layers batch inputs c) : Running layers batch inputs c layers c := by
  refine ⟨rfl, ⟨?_, ?_, ?_, fun _ _ => rfl, h.shaped⟩, fun b hb slot => (if_pos hb).symm⟩
  · intro b hb slot idx e he hpos
    obtain ⟨h1, h2⟩ := h.live b hb slot idx e he hpos
    refine ⟨?_, .inl ?_⟩
    · rw [after, List.length_append]
      omega
    · rw [h2, after, List.take_append_of_le_length (by omega)]
  · rintro b slot ⟨hb, hnot, -⟩
    exact absurd hb hnot
  · intro slot idx hs
    rw [h.fresh, AList.lookup_empty] at hs
    cases hs

theorem row_buffer (c : Recurrent α) (b' b : Buffer) (slot : Nat) : (c.buffer b').row b slot = c.row b slot := by
  unfold buffer
  cases hs : c.states.lookup b' with
  | some _ => rfl
  | none =>
    by_cases hb : b = b'
    · subst hb
      simp only [row, AList.lookup_insert, hs]
      rfl
    · simp only [row, AList.lookup_insert_ne hb]

/-- Writing rows: the last one for a slot counts. -/
theorem foldl_update_eq {es : List (Nat × List α)} {slot : Nat} {v : List α} (hv : ∀ e ∈ es, e.1 = slot → e.2 = v)
    (rows : Nat → List α) (h : rows slot = v ∨ ∃ e ∈ es, e.1 = slot) :
    es.foldl (fun rows e => Function.update rows e.1 e.2) rows slot = v := by
  induction es generalizing rows with
  | nil =>
    simpa using h
  | cons e es ih =>
    rw [List.foldl_cons]
    refine ih (fun e' he' => hv e' (List.mem_cons_of_mem _ he')) _ ?_
    by_cases he : e.1 = slot
    · left
      subst he
      rw [Function.update_self]
      exact hv e (by simp) rfl
    · rw [Function.update_of_ne (Ne.symm he)]
      refine h.imp id fun hx => ?_
      obtain ⟨e', he', hslot⟩ := hx
      rcases List.mem_cons.mp he' with rfl | he'
      · exact absurd hslot he
      · exact ⟨e', he', hslot⟩

/-- The new states of a layer. -/
theorem row_update {c c' : Recurrent α} (h : Ready layers batch inputs c) {b : Buffer}
    (hrow : ∀ slot, c'.row b slot = c.row b slot) (hseqs : c'.curSeqs = c.curSeqs) (hslots : c'.curSlots = c.curSlots)
    (slot : Nat) : (c'.curSlots.zip (c'.nextRows batch inputs b)).foldl (fun rows e => Function.update rows e.1 e.2)
      (c'.row b) slot = c.after batch inputs b slot := by
  have hzip : c'.curSlots.zip (c'.nextRows batch inputs b) = (c.curSeqs.zip c.curSlots).map fun e =>
      (e.2, c.row b e.2 ++ inputsOf batch inputs e.1) := by
    have hmap : c.curSlots = (c.curSeqs.zip c.curSlots).map (·.2) := (List.map_snd_zip (by rw [h.length])).symm
    have hnext : c'.nextRows batch inputs b = (c.curSeqs.zip c.curSlots).map fun e =>
        c.row b e.2 ++ inputsOf batch inputs e.1 := by
      rw [nextRows, hseqs, hslots]
      exact List.map_congr_left fun e _ => by rw [hrow]
    rw [hslots, hnext]
    conv_lhs =>
      arg 1
      rw [hmap]
    rw [List.zip_map']
  rw [hzip]
  refine foldl_update_eq ?_ _ ?_
  · rintro e he rfl
    obtain ⟨f, hf, rfl⟩ := List.mem_map.mp he
    rw [after, h.gain_eq hf]
  · by_cases hs : ∃ e ∈ c.curSeqs.zip c.curSlots, e.2 = slot
    · obtain ⟨e, he, rfl⟩ := hs
      exact .inr ⟨_, List.mem_map_of_mem he, rfl⟩
    · left
      rw [hrow, after, gain_other fun e he hes => hs ⟨e, he, hes⟩, List.append_nil]

theorem buffer_frame (c : Recurrent α) (b : Buffer) : c.buffer b = { c with states := (c.buffer b).states } := by
  unfold buffer
  split <;> rfl

theorem Filling.congr {E : Buffer → Nat → List α} {P : Nat → Prop} {S : Nat → Option (SlotCheckpointStore α)}
    {D D' : Buffer → Nat → Prop} {c c' : Recurrent α} (h : Filling layers E P S D c)
    (hD : ∀ b slot, D b slot ↔ D' b slot) (hc : c'.checkpoints = c.checkpoints)
    (hcur : c'.curCheckpointSlots = c.curCheckpointSlots) (hcount : c'.checkpointCount = c.checkpointCount) :
    Filling layers E P S D' c' := by
  have hent : ∀ slot idx, c'.entryAt slot idx = c.entryAt slot idx := fun slot idx => by rw [entryAt, entryAt, hc]
  refine ⟨?_, ?_, ?_, ?_, ?_⟩
  · intro b hb slot idx e he hpos
    rw [hent] at he
    rw [hcur, ← hD]
    exact h.live b hb slot idx e he hpos
  · intro b slot hd
    rw [hcur]
    exact h.seen b slot ((hD b slot).mpr hd)
  · intro slot idx hs
    rw [hcur] at hs
    rw [hent]
    exact h.cur slot idx hs
  · rw [hc]
    exact h.rest
  · intro slot store hs
    rw [hc] at hs
    rw [hcount]
    exact h.shaped slot store hs

/-- One layer of the pass. -/
theorem layerPass_running (hr : Ready layers batch inputs c) {b : Buffer} {rest : List Buffer} {c₁ c' : Recurrent α}
    {err : Option CacheError} (hb : b ∈ layers) (hnot : b ∉ rest) (h : Running layers batch inputs c (b :: rest) c₁)
    (hp : layerPass batch inputs c₁ b = some (c', err)) : err = none ∧ Running layers batch inputs c rest c' := by
  have hens : c₁.ensureWritableOnce = some c₁ := by
    have : c₁.writableEnsured = true := by rw [h.frame]; exact hr.ensured
    simp [ensureWritableOnce, this]
  have herr : c₁.writableError = none := by rw [h.frame]; exact hr.noError
  have hres : (c₁.buffer b).reserveCheckpoints = false := by rw [buffer_frame, h.frame]; exact hr.computes
  unfold layerPass at hp
  rw [hens, Option.bind_some, herr] at hp
  dsimp only at hp
  rw [hres, if_neg Bool.false_ne_true] at hp
  obtain ⟨c₂, hu, he⟩ := Option.map_eq_some_iff.mp hp
  obtain ⟨rfl, rfl⟩ := Prod.mk.inj he
  refine ⟨rfl, ?_⟩
  have hrow : ∀ slot, (c₁.buffer b).row b slot = c.row b slot := by
    intro slot
    rw [row_buffer, h.rows b hb, if_pos (by simp)]
  have hseqs : (c₁.buffer b).curSeqs = c.curSeqs := by rw [buffer_frame, h.frame]
  have hslots : (c₁.buffer b).curSlots = c.curSlots := by rw [buffer_frame, h.frame]
  have hnew := row_update hr hrow hseqs hslots
  have hbuf : ((c₁.buffer b).buffer b) = c₁.buffer b := by
    have : ∃ rows, (c₁.buffer b).states.lookup b = some rows := by
      unfold buffer
      cases hs : c₁.states.lookup b with
      | some rows => exact ⟨rows, hs⟩
      | none => exact ⟨_, AList.lookup_insert _⟩
    obtain ⟨rows, hrows⟩ := this
    conv_lhs => rw [buffer, hrows]
  unfold updateState at hu
  rw [hbuf] at hu
  dsimp only at hu
  rw [show ((c₁.buffer b).states.lookup b).getD (fun _ => []) = (c₁.buffer b).row b from rfl] at hu
  generalize hsrc : (c₁.buffer b).nextRows batch inputs b = src at hu hnew
  generalize hrows' : ((c₁.buffer b).curSlots.zip src).foldl (fun rows e => Function.update rows e.1 e.2)
    ((c₁.buffer b).row b) = rows' at hu hnew
  have hframe : { c₁.buffer b with states := (c₁.buffer b).states.insert b rows' } = { c with
      states := (c₁.buffer b).states.insert b rows', checkpoints := c₁.checkpoints
      curCheckpointSlots := c₁.curCheckpointSlots } := by
    rw [buffer_frame, h.frame]
  have hrows₀ : ∀ b' ∈ layers, ∀ slot, { c₁.buffer b with
      states := (c₁.buffer b).states.insert b rows' }.row b' slot =
      if b' ∈ rest then c.row b' slot else c.after batch inputs b' slot := by
    intro b' hb' slot
    by_cases hbb : b' = b
    · subst hbb
      rw [if_neg hnot, row, AList.lookup_insert]
      exact hnew slot
    · rw [row, AList.lookup_insert_ne hbb]
      refine (row_buffer c₁ b b' slot).trans ?_
      rw [h.rows b' hb']
      simp [hbb]
  generalize { c₁.buffer b with states := (c₁.buffer b).states.insert b rows' } = c₀ at hu hframe hrows₀
  have hcount : c₀.checkpointCount = c.checkpointCount := by rw [hframe]
  have hfill : Filling layers (c.after batch inputs) c.PlannedSlot c.checkpoints.lookup
      (fun b' slot => b' ∈ layers ∧ b' ∉ b :: rest ∧ c.PlannedSlot slot) c₀ :=
    h.filling.congr (fun _ _ => .rfl) (by rw [hframe]) (by rw [hframe]) (by rw [hcount, h.frame])
  unfold capture at hu
  split at hu
  · -- Without checkpoints there is nothing to capture.
    rename_i h0
    rw [Option.some.injEq] at hu
    subst hu
    have hplan : ∀ slot, ¬ c.PlannedSlot slot := by
      rintro slot ⟨e, he, -⟩
      rw [hr.noPlan (hcount ▸ h0)] at he
      simp at he
    refine ⟨by rw [hframe], hfill.congr (fun b' slot => ?_) rfl rfl rfl, hrows₀⟩
    simp [hplan slot]
  · rename_i h0
    rw [if_neg (by rw [hframe]; simp [hr.computes])] at hu
    have hcs : c₀.curSlots = c.curSlots := by rw [hframe]
    have hcp : c₀.curCheckpointPos = c.curCheckpointPos := by rw [hframe]
    rw [hcp] at hu
    obtain ⟨g1, g2⟩ := captureSeqs_filling hfill (Nat.pos_of_ne_zero h0) (fun e he hpos => by
      have hi : c.curCheckpointPos[e.2]? = some e.1 := List.mem_zipIdx_iff_getElem?.mp he
      obtain ⟨f, hf, hlen⟩ := hr.plan e.2 e.1 hi hpos
      have hfmem := List.mem_of_getElem? hf
      have hslot : c.curSlots[e.2]? = some f.2 := by
        obtain ⟨-, hs⟩ := List.getElem?_zip_eq_some.mp hf
        exact hs
      refine ⟨f.2, by rw [hcs, hslot], ⟨e, he, hpos, hslot⟩, fun b' hb' => ?_, ?_⟩
      · rw [after, List.length_append, hr.gain_eq hfmem]
        have := hlen b' hb'
        push_cast
        omega
      · rw [← hsrc, nextRows, hseqs, hslots, List.getD_eq_getElem?_getD, List.getElem?_map, hf, Option.map_some,
          Option.getD_some, hrow, after, hr.gain_eq hfmem]) hu
    refine ⟨by rw [g2, hframe], g1.congr (fun b' slot => ?_) rfl rfl rfl, ?_⟩
    · rw [hcs]
      constructor
      · rintro (⟨h1, h2, h3⟩ | ⟨rfl, h3⟩)
        · exact ⟨h1, fun hm => h2 (List.mem_cons_of_mem _ hm), h3⟩
        · exact ⟨hb, hnot, h3⟩
      · rintro ⟨h1, h2, h3⟩
        by_cases hbb : b' = b
        · exact .inr ⟨hbb, h3⟩
        · exact .inl ⟨h1, fun hm => (List.mem_cons.mp hm).elim hbb h2, h3⟩
    · intro b' hb' slot
      rw [← hrows₀ b' hb' slot, g2]
      rfl

/-- All layers: every state moves on, and every checkpoint is complete. -/
theorem layersPass_running (hr : Ready layers batch inputs c) {rest : List Buffer} {c₁ c' : Recurrent α}
    {err : Option CacheError} (hsub : ∀ b ∈ rest, b ∈ layers) (hnd : rest.Nodup)
    (h : Running layers batch inputs c rest c₁) (hp : layersPass batch inputs rest c₁ = some (c', err)) :
    err = none ∧ Running layers batch inputs c [] c' := by
  induction rest generalizing c₁ with
  | nil =>
    simp only [layersPass, Option.some.injEq, Prod.mk.injEq] at hp
    obtain ⟨rfl, rfl⟩ := hp
    exact ⟨rfl, h⟩
  | cons b rest ih =>
    obtain ⟨hnot, hnd⟩ := List.nodup_cons.mp hnd
    simp only [layersPass] at hp
    cases hl : layerPass batch inputs c₁ b with
    | none =>
      rw [hl] at hp
      cases hp
    | some r =>
      obtain ⟨c₂, err₂⟩ := r
      obtain ⟨rfl, h₂⟩ := layerPass_running hr (hsub b (by simp)) hnot h hl
      rw [hl] at hp
      exact ih (fun b' hb' => hsub b' (List.mem_cons_of_mem _ hb')) hnd h₂ hp

end

end Recurrent

end Xdragon.Kvcache
