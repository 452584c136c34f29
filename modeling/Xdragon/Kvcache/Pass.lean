import Xdragon.Kvcache.Halves
import Xdragon.Kvcache.Lined

/-!
# A forward pass

A model with recurrent layers calls `StartForward`, and then each layer reads the states of the batch and
writes new ones. The cache takes care of private slots and of checkpoints on the way.
-/

open Xdragon.Lib

namespace Xdragon.Kvcache

variable {α : Type}

namespace Recurrent

/-! ## The pass -/

/-- What a layer computes: each state goes on with the inputs of its sequence. -/
def nextRows (c : Recurrent α) (batch : List Token) (inputs : List α) (b : Buffer) : List (List α) :=
  (c.curSeqs.zip c.curSlots).map fun e => c.row b e.2 ++ inputsOf batch inputs e.1

/-- One layer: `ConvState` or `RecurrentState`, and the update. A reserving pass computes nothing. -/
def layerPass (batch : List Token) (inputs : List α) (c : Recurrent α) (b : Buffer) :
    Option (Recurrent α × Option CacheError) :=
  c.ensureWritableOnce.bind fun c =>
    match c.writableError with
    | some err => some (c, some err)
    | none =>
      let c := c.buffer b
      (if c.reserveCheckpoints then c.capture b [] else c.updateState b (c.nextRows batch inputs b)).map
        fun c => (c, none)

/-- The layers in order, up to the first error. -/
def layersPass (batch : List Token) (inputs : List α) :
    List Buffer → Recurrent α → Option (Recurrent α × Option CacheError)
  | [], c => some (c, none)
  | b :: rest, c =>
    match layerPass batch inputs c b with
    | none => none
    | some (c, some err) => some (c, some err)
    | some (c, none) => layersPass batch inputs rest c

/-- A whole pass, with the `Put` of the attention layers. -/
def forward (c : Recurrent α) (layers : List Buffer) (batch : List Token) (inputs : List α) (reserve : Bool) :
    Option (Recurrent α × Option CacheError) :=
  match c.startForward batch reserve with
  | (c, some err) => some (c, some err)
  | (c, none) =>
    layersPass batch inputs layers { c with kv := if reserve then c.kv else c.kv.put inputs }

/-! ## Entries of the checkpoint stores -/

def entryAt (c : Recurrent α) (slot idx : Nat) : Option (CheckpointEntry α) :=
  (c.checkpoints.lookup slot).bind fun store => store.entries[idx]?

/-- A ring of `n` entries that says how many checkpoints it has. -/
structure Ring (n : Nat) (store : SlotCheckpointStore α) : Prop where
  length : store.entries.length = n
  empty : store.size = 0 → ∀ e ∈ store.entries, e.pos < 0
  next : 0 < n → store.next < n

def Shaped (c : Recurrent α) : Prop :=
  ∀ slot store, c.checkpoints.lookup slot = some store → Ring c.checkpointCount store

theorem entryAt_of_lookup {c c' : Recurrent α} {slot : Nat}
    (h : c'.checkpoints.lookup slot = c.checkpoints.lookup slot) (idx : Nat) :
    c'.entryAt slot idx = c.entryAt slot idx := by
  rw [entryAt, entryAt, h]

theorem ring_newStore (n : Nat) : Ring n (newSlotCheckpointStore α n) := by
  refine ⟨List.length_replicate, fun _ e he => ?_, id⟩
  rw [List.eq_of_mem_replicate he]
  show (-1 : Int) < 0
  decide

/-- A store that was just made holds nothing. -/
theorem newStore_dead {n idx : Nat} {e : CheckpointEntry α}
    (h : (newSlotCheckpointStore α n).entries[idx]? = some e) : e.pos < 0 :=
  (ring_newStore n).empty rfl e (List.mem_of_getElem? h)

theorem checkpointStore_live {c : Recurrent α} {slot k idx : Nat} {e : CheckpointEntry α}
    (h : (c.checkpointStore slot).2.entryAt k idx = some e) (hpos : 0 ≤ e.pos) : c.entryAt k idx = some e := by
  by_cases hk : k = slot
  · subst hk
    rw [entryAt, checkpointStore_lookup, Option.bind_some] at h
    unfold checkpointStore at h
    rw [entryAt]
    cases hs : c.checkpoints.lookup k with
    | some store =>
      rw [hs] at h
      exact h
    | none =>
      rw [hs] at h
      have := newStore_dead h
      omega
  · rwa [entryAt_of_lookup (checkpointStore_lookup_ne c hk)] at h

theorem checkpointStore_shaped {c : Recurrent α} (h : Shaped c) (slot : Nat) :
    Shaped (c.checkpointStore slot).2 := by
  intro k store hk
  have hcount : (c.checkpointStore slot).2.checkpointCount = c.checkpointCount := by
    rw [checkpointStore_frame]
  rw [hcount]
  by_cases he : k = slot
  · subst he
    unfold checkpointStore at hk
    cases hs : c.checkpoints.lookup k with
    | some store' =>
      rw [hs] at hk
      exact h k store hk
    | none =>
      rw [hs] at hk
      dsimp only at hk
      rw [AList.lookup_insert, Option.some.injEq] at hk
      subst hk
      exact ring_newStore _
  · rw [checkpointStore_lookup_ne c he] at hk
    exact h k store hk

/-- No new checkpoint, and the stores keep their shape. -/
structure NoCapture (c c' : Recurrent α) : Prop where
  live : ∀ slot idx e, c'.entryAt slot idx = some e → 0 ≤ e.pos → c.entryAt slot idx = some e
  shaped : Shaped c → Shaped c'
  states : c'.states = c.states
  pendingRestore : c'.pendingRestore = c.pendingRestore
  checkpointCount : c'.checkpointCount = c.checkpointCount

theorem NoCapture.refl (c : Recurrent α) : NoCapture c c := ⟨fun _ _ _ h _ => h, id, rfl, rfl, rfl⟩

theorem NoCapture.trans {c c' c'' : Recurrent α} (h : NoCapture c c') (h' : NoCapture c' c'') : NoCapture c c'' :=
  ⟨fun s i e he hp => h.live s i e (h'.live s i e he hp) hp, fun hs => h'.shaped (h.shaped hs),
    h'.states.trans h.states, h'.pendingRestore.trans h.pendingRestore, h'.checkpointCount.trans h.checkpointCount⟩

theorem noCapture_checkpointStore (c : Recurrent α) (slot : Nat) : NoCapture c (c.checkpointStore slot).2 :=
  ⟨fun _ _ _ => checkpointStore_live, fun h => checkpointStore_shaped h slot, by rw [checkpointStore_frame],
    by rw [checkpointStore_frame], by rw [checkpointStore_frame]⟩

/-! ## The plan -/

/-- One sequence of the plan adds one position, which is the last one of the sequence or negative. -/
theorem planSeq_spec (batch : List Token) (c : Recurrent α) (e : Int × Nat) :
    NoCapture c (planSeq batch c e) ∧ (planSeq batch c e).curSlots = c.curSlots ∧
      (planSeq batch c e).curCheckpointSlots = c.curCheckpointSlots ∧
      (planSeq batch c e).writableEnsured = c.writableEnsured ∧
      (planSeq batch c e).writableError = c.writableError ∧
      (planSeq batch c e).reserveCheckpoints = c.reserveCheckpoints ∧
      ∃ q, (planSeq batch c e).curCheckpointPos = c.curCheckpointPos ++ [q] ∧
        (0 ≤ q → posMax batch e.1 = some q) := by
  unfold planSeq
  cases hp : posMax batch e.1 with
  | none =>
    exact ⟨⟨fun _ _ _ h _ => h, id, rfl, rfl, rfl⟩, rfl, rfl, rfl, rfl, rfl, -1, rfl, fun h => by omega⟩
  | some pos =>
    dsimp only
    split
    · exact ⟨⟨fun _ _ _ h _ => h, id, rfl, rfl, rfl⟩, rfl, rfl, rfl, rfl, rfl, -1, rfl, fun h => by omega⟩
    · have hn := noCapture_checkpointStore c e.2
      have hf := checkpointStore_frame c e.2
      refine ⟨⟨hn.live, hn.shaped, hn.states, hn.pendingRestore, hn.checkpointCount⟩, by rw [hf], by rw [hf],
        by rw [hf], by rw [hf], by rw [hf], _, by rw [hf], ?_⟩
      split
      · exact fun _ => rfl
      · exact fun h => by omega

/-- What `StartForward` notes at its end. -/
structure Planned (batch : List Token) (reserve : Bool) (c c' : Recurrent α) : Prop where
  kept : Kept c c'
  noCapture : NoCapture c c'
  curSlots : c'.curSlots = c.curSlots
  curCheckpointSlots : c'.curCheckpointSlots = ∅
  writableEnsured : c'.writableEnsured = false
  writableError : c'.writableError = none
  reserveCheckpoints : c'.reserveCheckpoints = reserve
  noPlan : c'.checkpointCount = 0 → c'.curCheckpointPos = []
  plan : ∀ (i : Nat) (pos : Int), c'.curCheckpointPos[i]? = some pos → 0 ≤ pos →
    ∃ e : Int × Nat, (c.curSeqs.zip c.curSlots)[i]? = some e ∧ posMax batch e.1 = some pos

theorem finalizeStartForward_planned (c : Recurrent α) (batch : List Token) (reserve : Bool) :
    Planned batch reserve c (c.finalizeStartForward batch reserve) := by
  have hgen : ∀ (es : List (Int × Nat)) (c : Recurrent α),
      NoCapture c (es.foldl (planSeq batch) c) ∧ (es.foldl (planSeq batch) c).curSlots = c.curSlots ∧
      (es.foldl (planSeq batch) c).curCheckpointSlots = c.curCheckpointSlots ∧
      (es.foldl (planSeq batch) c).writableEnsured = c.writableEnsured ∧
      (es.foldl (planSeq batch) c).writableError = c.writableError ∧
      (es.foldl (planSeq batch) c).reserveCheckpoints = c.reserveCheckpoints ∧
      ∃ qs, (es.foldl (planSeq batch) c).curCheckpointPos = c.curCheckpointPos ++ qs ∧
        List.Forall₂ (fun e q => 0 ≤ q → posMax batch e.1 = some q) es qs := by
    intro es
    induction es with
    | nil => exact fun c => ⟨.refl c, rfl, rfl, rfl, rfl, rfl, [], (List.append_nil _).symm, .nil⟩
    | cons e es ih =>
      intro c
      obtain ⟨h1, h2, h3, h4, h5, h6, q, h7, h8⟩ := planSeq_spec batch c e
      obtain ⟨g1, g2, g3, g4, g5, g6, qs, g7, g8⟩ := ih (planSeq batch c e)
      refine ⟨h1.trans g1, g2.trans h2, g3.trans h3, g4.trans h4, g5.trans h5, g6.trans h6, q :: qs, ?_, .cons h8 g8⟩
      rw [List.foldl_cons, g7, h7, List.append_assoc]
      rfl
  have hkept := kept_finalizeStartForward c batch reserve
  unfold finalizeStartForward planCheckpoints at hkept ⊢
  dsimp only at hkept ⊢
  split
  · rename_i hcond
    rw [if_pos hcond] at hkept
    exact ⟨hkept, ⟨fun _ _ _ h _ => h, id, rfl, rfl, rfl⟩, rfl, rfl, rfl, rfl, rfl, fun _ => rfl,
      fun i pos hi => by cases hi⟩
  · rename_i hcond
    rw [if_neg hcond] at hkept
    obtain ⟨g1, g2, g3, g4, g5, g6, qs, g7, g8⟩ := hgen (c.curSeqs.zip c.curSlots) { c with
      writableEnsured := false, writableError := none, reserveCheckpoints := reserve
      curCheckpointPos := [], curCheckpointSlots := ∅ }
    refine ⟨hkept, ⟨g1.live, g1.shaped, g1.states, g1.pendingRestore, g1.checkpointCount⟩, g2, g3, g4, g5, g6, ?_, ?_⟩
    · intro h0
      rw [g1.checkpointCount] at h0
      exact absurd (.inl h0) hcond
    intro i pos hi hpos
    rw [g7, List.nil_append] at hi
    obtain ⟨hlt, rfl⟩ := List.getElem?_eq_some_iff.mp hi
    have hlen := g8.length_eq
    refine ⟨_, List.getElem?_eq_getElem (by omega), ?_⟩
    exact (List.forall₂_iff_get.mp g8).2 i (by omega) hlt hpos

/-! ## Slots for the batch -/

/-- The state of a sequence. Without a slot it would start from zero. -/
def seqRow (c : Recurrent α) (b : Buffer) (seq : Int) : List α :=
  ((c.slotForSeq.lookup seq).map (c.row b)).getD []

theorem seqRow_of_lookup {c : Recurrent α} {seq : Int} {slot : Nat} (h : c.slotForSeq.lookup seq = some slot)
    (b : Buffer) : c.seqRow b seq = c.row b slot := by
  rw [seqRow, h]
  rfl

/-- The new slots were free, and `curSlots` follows the sequences. -/
theorem findSlots_seats {ids : Finset Int} {seqs : List Int} {newSlots : List Nat} {c : Recurrent α}
    (h : Slots ids c) (hseqs : ∀ s ∈ seqs, s ∈ ids) (hok : (findSlots seqs newSlots c).2.2 = none) :
    ∃ ns ss, (findSlots seqs newSlots c).2.1 = newSlots ++ ns ∧
      (∀ k ∈ ns, ∀ s, c.slotForSeq.lookup s ≠ some k) ∧
      (∀ s k, (findSlots seqs newSlots c).1.slotForSeq.lookup s = some k →
        c.slotForSeq.lookup s = some k ∨ (c.slotForSeq.lookup s = none ∧ k ∈ ns)) ∧
      (findSlots seqs newSlots c).1.curSlots = c.curSlots ++ ss ∧
      ss.map some = seqs.map (findSlots seqs newSlots c).1.slotForSeq.lookup := by
  fun_induction findSlots seqs newSlots c with
  | case1 newSlots c =>
    exact ⟨[], [], (List.append_nil _).symm, by simp, fun s k hk => .inl hk, (List.append_nil _).symm, rfl⟩
  | case2 seq rest newSlots c slot hs ih =>
    obtain ⟨ns, ss, h1, h2, h3, h4, h5⟩ := ih ⟨h.exact, h.within⟩ (fun s hs' => hseqs s (List.mem_cons_of_mem _ hs')) hok
    refine ⟨ns, slot :: ss, h1, h2, h3, by rw [h4, List.append_assoc]; rfl, ?_⟩
    rw [List.map_cons, List.map_cons, h5]
    congr 1
    refine (findSlots_keeps ?_).symm
    exact hs
  | case3 seq rest newSlots c hs ha => cases hok
  | case4 seq rest newSlots c hs slot c' ha ih =>
    have hu := h.useSlot (hseqs seq (by simp)) hs ha
    obtain ⟨ns, ss, h1, h2, h3, h4, h5⟩ := ih ⟨hu.exact, hu.within⟩ (fun s hs' => hseqs s (List.mem_cons_of_mem _ hs')) hok
    have hslots : ∀ s, (c'.useSlot seq slot).slotForSeq.lookup s =
        if s = seq then some slot else c.slotForSeq.lookup s := by
      intro s
      show (c'.slotForSeq.insert seq slot).lookup s = _
      by_cases he : s = seq
      · rw [if_pos he, he, AList.lookup_insert]
      · rw [if_neg he, AList.lookup_insert_ne he, allocSlot_frame ha]
    have hfresh : ∀ s, c.slotForSeq.lookup s ≠ some slot := fun s =>
      Pool.users_eq_zero.mp (Pool.take_spec h.exact (allocSlot_pool ha)).2.1 s
    refine ⟨slot :: ns, slot :: ss, by rw [h1, List.append_assoc]; rfl, ?_, ?_, ?_, ?_⟩
    · intro k hk s hl
      rcases List.mem_cons.mp hk with rfl | hk
      · exact hfresh s hl
      · refine h2 k hk s ((hslots s).trans ?_)
        have hne : s ≠ seq := by
          rintro rfl
          rw [hs] at hl
          cases hl
        rw [if_neg hne, hl]
    · intro s k hk
      rcases h3 s k hk with hk | ⟨hk, hmem⟩
      · have hk := (hslots s).symm.trans hk
        by_cases he : s = seq
        · rw [if_pos he, Option.some.injEq] at hk
          exact .inr ⟨he ▸ hs, by simp [hk]⟩
        · rw [if_neg he] at hk
          exact .inl hk
      · have hk := (hslots s).symm.trans hk
        by_cases he : s = seq
        · rw [if_pos he] at hk
          cases hk
        · rw [if_neg he] at hk
          exact .inr ⟨hk, List.mem_cons_of_mem _ hmem⟩
    · rw [h4, allocSlot_frame ha, List.append_assoc]
      rfl
    · rw [List.map_cons, List.map_cons, h5]
      congr 1
      refine (findSlots_keeps ?_).symm
      exact AList.lookup_insert c'.slotForSeq

theorem row_zeroSlots (c : Recurrent α) (slots : List Nat) (b : Buffer) (slot : Nat) :
    (c.zeroSlots slots).row b slot = if slot ∈ slots then [] else c.row b slot := by
  unfold zeroSlots
  by_cases hnil : slots = []
  · simp [hnil]
  · rw [if_neg hnil, row_setRows, row]
    cases c.states.lookup b with
    | none => simp
    | some rows => rfl

/-- A batch whose sequences have their slots, before the layers run. -/
structure Seated (batch : List Token) (c c' : Recurrent α) : Prop where
  kv : c'.kv = c.kv
  curSeqs : c'.curSeqs = c.curSeqs
  curSlots : c'.curSlots.map some = c'.curSeqs.map c'.slotForSeq.lookup
  rows : ∀ b s, c'.seqRow b s = c.seqRow b s
  slotRows : ∀ b slot s, c.slotForSeq.lookup s = some slot → c'.row b slot = c.row b slot
  free : ∀ slot, (∀ s, c'.slotForSeq.lookup s ≠ some slot) → ∀ s, c.slotForSeq.lookup s ≠ some slot
  live : ∀ slot idx e, c'.entryAt slot idx = some e → 0 ≤ e.pos → c.entryAt slot idx = some e
  shaped : Shaped c → Shaped c'
  pendingRestore : c'.pendingRestore = c.pendingRestore
  checkpointCount : c'.checkpointCount = c.checkpointCount
  curCheckpointSlots : c'.curCheckpointSlots = ∅
  writableEnsured : c'.writableEnsured = false
  writableError : c'.writableError = none
  reserveCheckpoints : c'.reserveCheckpoints = false
  noPlan : c'.checkpointCount = 0 → c'.curCheckpointPos = []
  plan : ∀ (i : Nat) (pos : Int), c'.curCheckpointPos[i]? = some pos → 0 ≤ pos →
    ∃ e : Int × Nat, (c'.curSeqs.zip c'.curSlots)[i]? = some e ∧ posMax batch e.1 = some pos

theorem startForwardMultiSeq_seated {ids : Finset Int} {c c' : Recurrent α} {batch : List Token}
    (h : Slots ids c) (hseqs : ∀ s ∈ c.curSeqs, s ∈ ids)
    (hok : c.startForwardMultiSeq batch false = (c', none)) : Seated batch c c' := by
  unfold startForwardMultiSeq at hok
  rw [if_neg Bool.false_ne_true] at hok
  have hf := findSlots_frame c.curSeqs [] { c with curSlots := [] }
  have hseats : (findSlots c.curSeqs [] { c with curSlots := [] }).2.2 = none → _ :=
    fun hn => @findSlots_seats α ids c.curSeqs [] { c with curSlots := [] } ⟨h.exact, h.within⟩ hseqs hn
  have hkeeps : ∀ s k, c.slotForSeq.lookup s = some k →
      (findSlots c.curSeqs [] { c with curSlots := [] }).1.slotForSeq.lookup s = some k := by
    intro s k hk
    refine findSlots_keeps ?_
    exact hk
  generalize findSlots c.curSeqs [] { c with curSlots := [] } = r at hok hf hseats hkeeps
  obtain ⟨c₁, newSlots, err⟩ := r
  cases err with
  | some err => cases hok
  | none =>
    obtain ⟨rfl, -⟩ := Prod.mk.inj hok
    obtain ⟨ns, ss, h1, h2, h3, h4, h5⟩ := hseats rfl
    simp only [List.nil_append] at h1 h4
    simp only at hf
    subst h1
    have hz := kept_zeroSlots c₁ newSlots
    have hzs : (c₁.zeroSlots newSlots) = { c₁ with states := (c₁.zeroSlots newSlots).states } := by
      unfold zeroSlots
      split <;> rfl
    have hp := finalizeStartForward_planned (c₁.zeroSlots newSlots) batch false
    generalize (c₁.zeroSlots newSlots).finalizeStartForward batch false = c' at hp
    have hslots : c'.slotForSeq = c₁.slotForSeq := hp.kept.slotForSeq.trans hz.slotForSeq
    have hcur : c'.curSlots = ss := by rw [hp.curSlots, hzs, ← h4]
    have hseqs' : c'.curSeqs = c.curSeqs := by rw [hp.kept.curSeqs, hz.curSeqs, hf]
    have hrow : ∀ b k, c'.row b k = if k ∈ newSlots then [] else c.row b k := by
      intro b k
      have h₁ : c₁.row b k = c.row b k := by rw [row, row, hf]
      have h₂ : c'.row b k = (c₁.zeroSlots newSlots).row b k := by rw [row, row, hp.noCapture.states]
      rw [h₂, row_zeroSlots, h₁]
    have hused : ∀ b k s, c.slotForSeq.lookup s = some k → c'.row b k = c.row b k := by
      intro b k s hs
      rw [hrow, if_neg fun hk => h2 k hk s hs]
    have hentry : ∀ k idx, (c₁.zeroSlots newSlots).entryAt k idx = c.entryAt k idx := by
      intro k idx
      rw [hzs, hf]
      rfl
    refine ⟨?_, hseqs', ?_, ?_, hused, ?_, ?_, ?_, ?_, ?_, hp.curCheckpointSlots, hp.writableEnsured, hp.writableError,
      hp.reserveCheckpoints, hp.noPlan, ?_⟩
    · rw [hp.kept.kv, hz.kv, hf]
    · rw [hcur, hslots, h5, hseqs']
    · intro b s
      rw [seqRow, hslots]
      cases hs : c₁.slotForSeq.lookup s with
      | none =>
        have hnone : c.slotForSeq.lookup s = none := by
          cases hs' : c.slotForSeq.lookup s with
          | none => rfl
          | some k =>
            rw [hkeeps s k hs'] at hs
            cases hs
        rw [seqRow, hnone]
        rfl
      | some k =>
        rcases h3 s k hs with hk | ⟨hk, hmem⟩
        · have hk : c.slotForSeq.lookup s = some k := hk
          rw [seqRow_of_lookup hk, ← hused b k s hk]
          rfl
        · have hk : c.slotForSeq.lookup s = none := hk
          rw [seqRow, hk]
          show c'.row b k = []
          rw [hrow, if_pos hmem]
    · intro k hk s hs
      exact hk s (by rw [hslots]; exact hkeeps s k hs)
    · intro k idx e he hpos
      rw [← hentry]
      exact hp.noCapture.live k idx e he hpos
    · intro hsh
      apply hp.noCapture.shaped
      rw [hzs, hf]
      exact hsh
    · rw [hp.noCapture.pendingRestore, hzs, hf]
    · rw [hp.noCapture.checkpointCount, hzs, hf]
    · intro i pos hi hpos
      have := hp.plan i pos hi hpos
      rwa [← hp.curSlots, ← hp.kept.curSeqs] at this

end Recurrent

end Xdragon.Kvcache
