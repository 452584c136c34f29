import Xdragon.Kvcache.Pass

/-!
# Capturing checkpoints

The first layer of a pass records a new entry for each planned slot, and each layer fills in its tensor.
Until the last layer is done, some checkpoints are not complete.
-/

open Xdragon.Lib

namespace Xdragon.Kvcache

variable {α : Type}

namespace SlotCheckpointStore

theorem ring_record {n : Nat} {s : SlotCheckpointStore α} (h : Recurrent.Ring n s) (hn : 0 < n) (pos : Int) :
    s.record pos = (some s.next, (s.record pos).2) ∧ Recurrent.Ring n (s.record pos).2 ∧
      (s.record pos).2.entries = s.entries.modify s.next fun e => { e with pos := pos } := by
  have hne : s.entries ≠ [] := List.length_pos_iff.mp (by rw [h.length]; exact hn)
  have hlt := h.next hn
  unfold record
  rw [if_neg hne]
  refine ⟨rfl, ⟨?_, ?_, ?_⟩, rfl⟩
  · simpa [setPos] using h.length
  · intro h0
    dsimp only at h0
    have := h.length
    split at h0 <;> omega
  · intro _
    dsimp only
    rw [h.length]
    exact Nat.mod_lt _ hn

theorem ring_setTensor {n : Nat} {s : SlotCheckpointStore α} (h : Recurrent.Ring n s) (idx : Nat) (b : Buffer)
    (state : List α) : Recurrent.Ring n (s.setTensor idx b state) := by
  refine ⟨by simpa [setTensor] using h.length, fun h0 e he => ?_, h.next⟩
  obtain ⟨i, hi⟩ := List.getElem?_of_mem he
  simp only [setTensor, List.getElem?_modify] at hi
  obtain ⟨e₀, he₀, rfl⟩ := Option.map_eq_some_iff.mp hi
  have := h.empty h0 e₀ (List.mem_of_getElem? he₀)
  split <;> exact this

end SlotCheckpointStore

namespace Recurrent

/-! ## Entries -/

theorem entryAt_onStore (c : Recurrent α) (slot : Nat) (f : SlotCheckpointStore α → SlotCheckpointStore α)
    (k idx : Nat) : (c.onStore slot f).entryAt k idx =
      if k = slot then (c.checkpoints.lookup slot).bind fun store => (f store).entries[idx]? else c.entryAt k idx := by
  unfold onStore
  by_cases hk : k = slot
  · subst hk
    rw [if_pos rfl]
    cases hs : c.checkpoints.lookup k with
    | none => simp [entryAt, hs]
    | some store => simp [entryAt, AList.lookup_insert]
  · rw [if_neg hk]
    cases hs : c.checkpoints.lookup slot with
    | none => rfl
    | some store => simp [entryAt, AList.lookup_insert_ne hk]

theorem lookup_onStore_ne (c : Recurrent α) {slot k : Nat} (hk : k ≠ slot)
    (f : SlotCheckpointStore α → SlotCheckpointStore α) :
    (c.onStore slot f).checkpoints.lookup k = c.checkpoints.lookup k := by
  unfold onStore
  split
  · exact AList.lookup_insert_ne hk
  · rfl

theorem shaped_onStore {c : Recurrent α} (h : Shaped c) (slot : Nat)
    {f : SlotCheckpointStore α → SlotCheckpointStore α}
    (hf : ∀ store, Ring c.checkpointCount store → Ring c.checkpointCount (f store)) : Shaped (c.onStore slot f) := by
  intro k store hk
  have hcount : (c.onStore slot f).checkpointCount = c.checkpointCount := by rw [onStore_frame]
  rw [hcount]
  unfold onStore at hk
  cases hs : c.checkpoints.lookup slot with
  | none =>
    rw [hs] at hk
    exact h k store hk
  | some st =>
    rw [hs] at hk
    dsimp only at hk
    by_cases hkk : k = slot
    · subst hkk
      rw [AList.lookup_insert, Option.some.injEq] at hk
      exact hk ▸ hf st (h k st hs)
    · rw [AList.lookup_insert_ne hkk] at hk
      exact h k store hk

/-! ## Filling in -/

/-- The state of a pass between two captures. `E` is what each state will be after it, `P` holds for the
slots with a planned checkpoint, the other stores are those of `S`, and `D` says which tensors of the new
entries are there already. -/
structure Filling (layers : List Buffer) (E : Buffer → Nat → List α) (P : Nat → Prop)
    (S : Nat → Option (SlotCheckpointStore α)) (D : Buffer → Nat → Prop) (c : Recurrent α) : Prop where
  live : ∀ b ∈ layers, ∀ slot idx e, c.entryAt slot idx = some e → 0 ≤ e.pos → e.pos < (E b slot).length ∧
    (e.tensors.lookup b = some ((E b slot).take (e.pos.toNat + 1)) ∨
      (c.curCheckpointSlots.lookup slot = some idx ∧ ¬ D b slot))
  seen : ∀ b slot, D b slot → c.curCheckpointSlots.lookup slot ≠ none
  cur : ∀ slot idx, c.curCheckpointSlots.lookup slot = some idx → P slot ∧
    ∃ e, c.entryAt slot idx = some e ∧ 0 ≤ e.pos ∧ ∀ b ∈ layers, e.pos + 1 = (E b slot).length
  rest : ∀ slot, ¬ P slot → c.checkpoints.lookup slot = S slot
  shaped : Shaped c

section
variable {layers : List Buffer} {E : Buffer → Nat → List α} {P : Nat → Prop}
  {S : Nat → Option (SlotCheckpointStore α)} {D : Buffer → Nat → Prop} {c c' : Recurrent α}

/-- The entry of a slot for this pass. -/
theorem checkpointIndexForSlot_filling (h : Filling layers E P S D c) (hcount : 0 < c.checkpointCount)
    {slot : Nat} (hP : P slot) {pos : Int} (hpos : 0 ≤ pos) (hE : ∀ b ∈ layers, pos + 1 = (E b slot).length) :
    ∃ idx c', c.checkpointIndexForSlot slot pos = (some idx, c') ∧ Filling layers E P S D c' ∧
      c'.curCheckpointSlots.lookup slot = some idx ∧ c' = { c with
        checkpoints := c'.checkpoints, curCheckpointSlots := c'.curCheckpointSlots } := by
  unfold checkpointIndexForSlot
  rw [if_neg (by omega)]
  cases hcur : c.curCheckpointSlots.lookup slot with
  | some idx => exact ⟨idx, c, rfl, h, hcur, rfl⟩
  | none =>
    have hsh := checkpointStore_shaped h.shaped slot
    have hf := checkpointStore_frame c slot
    have hring := hsh slot _ (checkpointStore_lookup c slot)
    rw [show (c.checkpointStore slot).2.checkpointCount = c.checkpointCount by rw [hf]] at hring
    obtain ⟨hrec, hring', hentries⟩ := SlotCheckpointStore.ring_record hring hcount pos
    have hlive := @checkpointStore_live _ c slot
    have hlook := checkpointStore_lookup c slot
    have hother := fun k (hk : k ≠ slot) => checkpointStore_lookup_ne c hk
    generalize c.checkpointStore slot = r at hf hring hrec hring' hentries hlive hlook hother hsh
    obtain ⟨store, c₁⟩ := r
    dsimp only at hf hring hrec hring' hentries hlive hlook hother hsh ⊢
    rw [hrec]
    dsimp only
    have hcurs : c₁.curCheckpointSlots = c.curCheckpointSlots := by rw [hf]
    have hnotD : ∀ b, ¬ D b slot := fun b hD => h.seen b slot hD hcur
    have hent : ∀ idx, (store.record pos).2.entries[idx]? =
        if store.next = idx then store.entries[idx]?.map fun e => { e with pos := pos } else store.entries[idx]? := by
      intro idx
      rw [hentries, List.getElem?_modify]
      split
      · rfl
      · simp
    have hold : ∀ idx e, store.entries[idx]? = some e → 0 ≤ e.pos → c.entryAt slot idx = some e := by
      intro idx e he he0
      refine hlive ?_ he0
      rw [entryAt, hlook, Option.bind_some, he]
    have hself : ∀ idx : Nat, (AList.lookup slot (c₁.checkpoints.insert slot (store.record pos).2)).bind
        (fun store => store.entries[idx]?) = (store.record pos).2.entries[idx]? := by
      intro idx
      rw [AList.lookup_insert, Option.bind_some]
    have hrest : ∀ k idx : Nat, k ≠ slot → (AList.lookup k (c₁.checkpoints.insert slot (store.record pos).2)).bind
        (fun store => store.entries[idx]?) = c.entryAt k idx := by
      intro k idx hk
      rw [AList.lookup_insert_ne hk, hother k hk, entryAt]
    refine ⟨store.next, _, rfl, ⟨?_, ?_, ?_, ?_, ?_⟩, AList.lookup_insert _, ?_⟩
    · intro b hb k idx e he he0
      by_cases hk : k = slot
      · subst hk
        rw [entryAt, hself, hent] at he
        split at he
        · rename_i hidx
          obtain ⟨e₀, -, rfl⟩ := Option.map_eq_some_iff.mp he
          refine ⟨by have := hE b hb; dsimp only; omega, .inr ⟨?_, hnotD b⟩⟩
          rw [AList.lookup_insert, hidx]
        · obtain ⟨h1, h2⟩ := h.live b hb k idx e (hold idx e he he0) he0
          refine ⟨h1, .inl (h2.resolve_right fun hx => ?_)⟩
          rw [hcur] at hx
          cases hx.1
      · rw [entryAt, hrest k idx hk] at he
        obtain ⟨h1, h2⟩ := h.live b hb k idx e he he0
        refine ⟨h1, h2.imp id fun hx => ⟨?_, hx.2⟩⟩
        rw [AList.lookup_insert_ne hk, hcurs]
        exact hx.1
    · intro b k hD
      have hk : k ≠ slot := fun hk => hnotD b (hk ▸ hD)
      rw [AList.lookup_insert_ne hk, hcurs]
      exact h.seen b k hD
    · intro k idx hk
      by_cases hks : k = slot
      · subst hks
        rw [AList.lookup_insert, Option.some.injEq] at hk
        subst hk
        have hlt : store.next < store.entries.length := by
          rw [hring.length]
          exact hring.next hcount
        refine ⟨hP, { store.entries[store.next] with pos := pos }, ?_, hpos, hE⟩
        rw [entryAt, hself, hent, if_pos rfl, List.getElem?_eq_getElem hlt]
        rfl
      · rw [AList.lookup_insert_ne hks, hcurs] at hk
        obtain ⟨hPk, e, he, he0, hEe⟩ := h.cur k idx hk
        exact ⟨hPk, e, (hrest k idx hks).trans he, he0, hEe⟩
    · intro k hPk
      have hks : k ≠ slot := fun hks => hPk (hks ▸ hP)
      dsimp only
      rw [AList.lookup_insert_ne hks, hother k hks]
      exact h.rest k hPk
    · intro k st hk
      dsimp only at hk ⊢
      rw [show c₁.checkpointCount = c.checkpointCount by rw [hf]]
      by_cases hks : k = slot
      · subst hks
        rw [AList.lookup_insert, Option.some.injEq] at hk
        exact hk ▸ hring'
      · rw [AList.lookup_insert_ne hks] at hk
        have := hsh k st hk
        rwa [show c₁.checkpointCount = c.checkpointCount by rw [hf]] at this
    · rw [hf]

/-- One tensor of the entry for this pass. -/
theorem setTensor_filling (h : Filling layers E P S D c) (b' : Buffer) {slot idx : Nat}
    (hcur : c.curCheckpointSlots.lookup slot = some idx) :
    Filling layers E P S (fun b k => D b k ∨ (b = b' ∧ k = slot))
      (c.onStore slot (·.setTensor idx b' (E b' slot))) := by
  have hcurs : (c.onStore slot (·.setTensor idx b' (E b' slot))).curCheckpointSlots = c.curCheckpointSlots := by
    rw [onStore_frame]
  obtain ⟨hP, e₁, he₁, hpos₁, hE₁⟩ := h.cur slot idx hcur
  -- Every entry has its position from before, and all tensors but one.
  have hwas : ∀ k i e, (c.onStore slot (·.setTensor idx b' (E b' slot))).entryAt k i = some e →
      ∃ e₀, c.entryAt k i = some e₀ ∧ e.pos = e₀.pos ∧
        e.tensors = if k = slot ∧ idx = i then e₀.tensors.insert b' (E b' slot) else e₀.tensors := by
    intro k i e he
    rw [entryAt_onStore] at he
    by_cases hk : k = slot
    · subst hk
      rw [if_pos rfl] at he
      obtain ⟨store, hstore, he⟩ := Option.bind_eq_some_iff.mp he
      rw [SlotCheckpointStore.setTensor, List.getElem?_modify] at he
      obtain ⟨e₀, he₀, rfl⟩ := Option.map_eq_some_iff.mp he
      refine ⟨e₀, by rw [entryAt, hstore, Option.bind_some, he₀], ?_, ?_⟩
      · split <;> rfl
      · by_cases hi : idx = i <;> simp [hi]
    · rw [if_neg hk] at he
      exact ⟨e, he, rfl, by simp [hk]⟩
  refine ⟨?_, ?_, ?_, ?_, shaped_onStore h.shaped slot fun store hring => SlotCheckpointStore.ring_setTensor hring _ _ _⟩
  · intro b hb k i e he hpos
    obtain ⟨e₀, he₀, hp, htens⟩ := hwas k i e he
    obtain ⟨h1, h2⟩ := h.live b hb k i e₀ he₀ (hp ▸ hpos)
    rw [hcurs, htens, hp]
    refine ⟨h1, ?_⟩
    by_cases hki : k = slot ∧ idx = i
    · rw [if_pos hki]
      obtain ⟨rfl, rfl⟩ := hki
      by_cases hbb : b = b'
      · subst hbb
        rw [he₁, Option.some.injEq] at he₀
        subst he₀
        have := hE₁ b hb
        rw [AList.lookup_insert, List.take_of_length_le (by omega)]
        exact .inl rfl
      · rw [AList.lookup_insert_ne hbb]
        exact h2.imp id fun hx => ⟨hx.1, fun hD => hD.elim hx.2 fun hy => hbb hy.1⟩
    · rw [if_neg hki]
      refine h2.imp id fun hx => ⟨hx.1, fun hD => hD.elim hx.2 fun hy => ?_⟩
      obtain ⟨-, rfl⟩ := hy
      rw [hcur, Option.some.injEq] at hx
      exact hki ⟨rfl, hx.1⟩
  · intro b k hD
    rw [hcurs]
    rcases hD with hD | ⟨-, rfl⟩
    · exact h.seen b k hD
    · rw [hcur]
      simp
  · intro k i hk
    rw [hcurs] at hk
    obtain ⟨hPk, e₀, he₀, hpos₀, hE₀⟩ := h.cur k i hk
    refine ⟨hPk, ?_⟩
    rw [entryAt_onStore]
    by_cases hks : k = slot
    · subst hks
      obtain ⟨store, hstore, he₀⟩ := Option.bind_eq_some_iff.mp he₀
      rw [if_pos rfl, hstore, Option.bind_some, SlotCheckpointStore.setTensor, List.getElem?_modify, he₀]
      refine ⟨_, rfl, ?_, ?_⟩
      · split <;> exact hpos₀
      · intro b hb
        split <;> exact hE₀ b hb
    · rw [if_neg hks]
      exact ⟨e₀, he₀, hpos₀, hE₀⟩
  · intro k hPk
    have hks : k ≠ slot := fun hks => hPk (hks ▸ hP)
    rw [lookup_onStore_ne c hks]
    exact h.rest k hPk

theorem captureSeq_filling (h : Filling layers E P S D c) (hcount : 0 < c.checkpointCount) {b' : Buffer}
    {src : List (List α)} {e : Int × Nat} (hpos : 0 ≤ e.1) {slot : Nat} (hP : P slot)
    (hslot : c.curSlots[e.2]? = some slot) (hE : ∀ b ∈ layers, e.1 + 1 = (E b slot).length)
    (hsrc : src.getD e.2 [] = E b' slot) (hc : captureSeq b' src c e = some c') :
    Filling layers E P S (fun b k => D b k ∨ (b = b' ∧ k = slot)) c' ∧ c' = { c with
      checkpoints := c'.checkpoints, curCheckpointSlots := c'.curCheckpointSlots } := by
  unfold captureSeq at hc
  rw [if_neg (by omega), hslot, Option.map_some, Option.some.injEq] at hc
  obtain ⟨idx, c₁, heq, hfill, hcur, hframe⟩ := checkpointIndexForSlot_filling h hcount hP hpos hE
  rw [heq] at hc
  subst hc
  dsimp only
  rw [hsrc]
  refine ⟨setTensor_filling hfill b' hcur, ?_⟩
  rw [onStore_frame, hframe]

/-- The loop of `capture` over the planned positions. -/
theorem captureSeqs_filling {b' : Buffer} {src : List (List α)} {es : List (Int × Nat)}
    (h : Filling layers E P S D c) (hcount : 0 < c.checkpointCount)
    (hes : ∀ e ∈ es, 0 ≤ e.1 → ∃ slot, c.curSlots[e.2]? = some slot ∧ P slot ∧
      (∀ b ∈ layers, e.1 + 1 = (E b slot).length) ∧ src.getD e.2 [] = E b' slot)
    (hc : es.foldlM (captureSeq b' src) c = some c') :
    Filling layers E P S (fun b k => D b k ∨ (b = b' ∧ ∃ e ∈ es, 0 ≤ e.1 ∧ c.curSlots[e.2]? = some k)) c' ∧
      c' = { c with checkpoints := c'.checkpoints, curCheckpointSlots := c'.curCheckpointSlots } := by
  induction es generalizing D c with
  | nil =>
    obtain rfl : c = c' := Option.some.inj hc
    refine ⟨⟨fun b hb k i e he hp => ?_, fun b k hD => ?_, h.cur, h.rest, h.shaped⟩, rfl⟩
    · obtain ⟨h1, h2⟩ := h.live b hb k i e he hp
      exact ⟨h1, h2.imp id fun hx => ⟨hx.1, by simpa using hx.2⟩⟩
    · exact h.seen b k (by simpa using hD)
  | cons e es ih =>
    rw [List.foldlM_cons, Option.bind_eq_bind, Option.bind_eq_some_iff] at hc
    obtain ⟨c₁, h₁, hc⟩ := hc
    by_cases hpos : 0 ≤ e.1
    · obtain ⟨slot, hslot, hP, hE, hsrc⟩ := hes e (by simp) hpos
      obtain ⟨hf, hframe⟩ := captureSeq_filling h hcount hpos hP hslot hE hsrc h₁
      have hslots : c₁.curSlots = c.curSlots := by rw [hframe]
      have hcount₁ : 0 < c₁.checkpointCount := by rw [hframe]; exact hcount
      obtain ⟨g1, g2⟩ := ih hf hcount₁ (by
        intro e' he'
        rw [hslots]
        exact hes e' (List.mem_cons_of_mem _ he')) hc
      refine ⟨?_, by rw [g2, hframe]⟩
      have hD : (fun b k => (D b k ∨ (b = b' ∧ k = slot)) ∨
          (b = b' ∧ ∃ e ∈ es, 0 ≤ e.1 ∧ c₁.curSlots[e.2]? = some k)) =
          fun b k => D b k ∨ (b = b' ∧ ∃ e' ∈ e :: es, 0 ≤ e'.1 ∧ c.curSlots[e'.2]? = some k) := by
        funext b k
        rw [hslots, or_assoc, ← and_or_left, @eq_comm _ k slot]
        simp only [List.mem_cons, exists_eq_or_imp, hslot, hpos, true_and, Option.some.injEq]
      rwa [hD] at g1
    · have hsame : c = c₁ := by
        unfold captureSeq at h₁
        rw [if_pos (by omega), Option.some.injEq] at h₁
        exact h₁
      subst hsame
      obtain ⟨g1, g2⟩ := ih h hcount (fun e' he' => hes e' (List.mem_cons_of_mem _ he')) hc
      refine ⟨?_, g2⟩
      have hD : (fun b k => D b k ∨ (b = b' ∧ ∃ e ∈ es, 0 ≤ e.1 ∧ c.curSlots[e.2]? = some k)) =
          fun b k => D b k ∨ (b = b' ∧ ∃ e' ∈ e :: es, 0 ≤ e'.1 ∧ c.curSlots[e'.2]? = some k) := by
        funext b k
        simp only [List.mem_cons, exists_eq_or_imp, hpos, false_and, false_or]
      rwa [hD] at g1

end

end Recurrent

end Xdragon.Kvcache
