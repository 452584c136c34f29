import Xdragon.Runner.Agreement
import Xdragon.Runner.Pipeline

/-!
# What a batch takes from one sequence

The loop of `forwardBatch` over the inputs of a sequence, when no group of the sequence reaches past the context:
it takes some of the first inputs, or the one input that is left needs a shift.
-/

open Xdragon.Lib

namespace Xdragon.Runner.Pipeline

open Xdragon.Kvcache

/-- The group of each input ends within the context. -/
def Fits (numCtx : Int) (l : List Input) : Prop :=
  ∀ (j : Nat) x, l[j]? = some x → (j + 1 + x.sameBatch : Int) ≤ numCtx

instance (numCtx : Int) (l : List Input) : Decidable (Fits numCtx l) :=
  decidable_of_iff (∀ e ∈ l.zipIdx, (e.2 + 1 + e.1.sameBatch : Int) ≤ numCtx) (by
    constructor
    · exact fun h j x hx => h (x, j) (List.mem_zipIdx_iff_getElem?.mpr hx)
    · exact fun h e he => h e.2 e.1 (List.mem_zipIdx_iff_getElem?.mp he))

theorem Fits.length_le {numCtx : Int} {l : List Input} (h : Fits numCtx l) (h0 : 0 ≤ numCtx) :
    (l.length : Int) ≤ numCtx := by
  rcases List.eq_nil_or_concat' l with rfl | ⟨init, x, rfl⟩
  · simpa using h0
  · have := h init.length x (by simp)
    rw [List.length_append, List.length_singleton]
    push_cast
    omega

/-- An input alone needs one place only. -/
theorem Fits.concat {numCtx : Int} {l : List Input} (h : Fits numCtx l) {x : Input} (hx : x.sameBatch = 0)
    (hlen : (l.length : Int) < numCtx) : Fits numCtx (l ++ [x]) := by
  intro j y hy
  rw [List.getElem?_append] at hy
  split at hy
  · exact h j y hy
  · obtain ⟨hj, rfl⟩ := List.getElem?_eq_some_iff.mp hy
    simp only [List.length_singleton] at hj
    simp only [List.getElem_singleton, hx]
    omega

/-- Dropping inputs moves the others down. -/
theorem Fits.without {numCtx : Int} {l : List Input} (h : Fits numCtx l) {numKeep discard : Int} (h0 : 0 ≤ numKeep)
    (hd : 0 ≤ discard) (hle : numKeep + discard ≤ l.length) :
    Fits numCtx (InputCache.withoutDiscarded l numKeep discard) := by
  intro j x hx
  rw [InputCache.getElem?_withoutDiscarded h0 hd hle] at hx
  have := h _ x hx
  split at this <;> omega

/-! ## Groups -/

/-- An input with `SameBatch` n is followed by n inputs without. -/
def WellFormed (l : List Input) : Prop :=
  ∀ (j : Nat) x, l[j]? = some x → ∀ n, 0 < n → n ≤ x.sameBatch → ∃ y, l[j + n]? = some y ∧ y.sameBatch = 0

/-- No group goes over the `k`th input. -/
def Whole (l : List Input) (k : Nat) : Prop :=
  ∀ (j : Nat) x, l[j]? = some x → j < k → j + x.sameBatch < k

/-- Each input of a list with its place says what follows it. -/
theorem wellFormed_iff (l : List Input) :
    (∀ e ∈ l.zipIdx, ∀ n < e.1.sameBatch, (l[e.2 + (n + 1)]?).any (·.sameBatch = 0) = true) ↔ WellFormed l := by
  constructor
  · intro h j x hx n h0 hn
    have := h (x, j) (List.mem_zipIdx_iff_getElem?.mpr hx) (n - 1) (by dsimp only; omega)
    rw [show n - 1 + 1 = n by omega, Option.any_eq_true] at this
    obtain ⟨y, hy, hs⟩ := this
    exact ⟨y, hy, by simpa using hs⟩
  · intro h e he n hn
    obtain ⟨y, hy, hs⟩ := h e.2 e.1 (List.mem_zipIdx_iff_getElem?.mp he) (n + 1) (by omega) hn
    rw [hy]
    simpa using hs

instance (l : List Input) : Decidable (WellFormed l) := decidable_of_iff _ (wellFormed_iff l)

instance (l : List Input) (k : Nat) : Decidable (Whole l k) :=
  decidable_of_iff (∀ e ∈ l.zipIdx, e.2 < k → e.2 + e.1.sameBatch < k) (by
    constructor
    · exact fun h j x hx => h (x, j) (List.mem_zipIdx_iff_getElem?.mpr hx)
    · exact fun h e he => h e.2 e.1 (List.mem_zipIdx_iff_getElem?.mp he))

theorem whole_zero (l : List Input) : Whole l 0 := fun _ _ _ h => nomatch h

/-- The `r` inputs from `i` on belong to a group that began before. -/
structure Members (l : List Input) (i r : Nat) : Prop where
  le : i + r ≤ l.length
  plain : ∀ (k : Nat) x, l[k]? = some x → i ≤ k → k < i + r → x.sameBatch = 0
  before : ∀ (k : Nat) x, l[k]? = some x → k < i → k + x.sameBatch < i + r

/-- The next input of a group, or the first one of the next group. -/
theorem Members.next {l : List Input} (hwf : WellFormed l) {i r : Nat} (h : Members l i r) {inp : Input}
    (hi : l[i]? = some inp) : Members l (i + 1) (max (r - 1) inp.sameBatch) := by
  have hlt : i < l.length := (List.getElem?_eq_some_iff.mp hi).1
  by_cases hr : r = 0
  · subst hr
    have hmem : ∀ n, 0 < n → n ≤ inp.sameBatch → ∃ y, l[i + n]? = some y ∧ y.sameBatch = 0 := hwf i inp hi
    refine ⟨?_, fun k x hk h1 h2 => ?_, fun k x hk h1 => ?_⟩
    · by_cases h0 : inp.sameBatch = 0
      · rw [h0]
        exact hlt
      · obtain ⟨y, hy, -⟩ := hmem inp.sameBatch (by omega) (Nat.le_refl _)
        have := (List.getElem?_eq_some_iff.mp hy).1
        simp only [Nat.zero_sub, Nat.zero_le, max_eq_right]
        omega
    · simp only [Nat.zero_sub, Nat.zero_le, max_eq_right] at h2
      obtain ⟨y, hy, hs⟩ := hmem (k - i) (by omega) (by omega)
      rw [show i + (k - i) = k by omega, hk] at hy
      cases hy
      exact hs
    · simp only [Nat.zero_sub, Nat.zero_le, max_eq_right]
      by_cases hki : k = i
      · subst hki
        rw [hi] at hk
        cases hk
        omega
      · have := h.before k x hk (by omega)
        omega
  · have hsame : inp.sameBatch = 0 := h.plain i inp hi (Nat.le_refl _) (by omega)
    rw [hsame, max_eq_left (Nat.zero_le _)]
    refine ⟨by have := h.le; omega, fun k x hk h1 h2 => h.plain k x hk (by omega) (by omega), fun k x hk h1 => ?_⟩
    by_cases hki : k = i
    · subst hki
      rw [hi] at hk
      cases hk
      omega
    · have := h.before k x hk (by omega)
      omega

namespace Forward

/-- The batch takes the first `t` inputs of the sequence. -/
structure Takes (f : Forward) (seq : Sequence) (t : Nat) (f' : Forward) (seq' : Sequence) : Prop where
  le : t ≤ seq.inputs.length
  server : f'.server = f.server
  seqs : f'.seqs = f.seqs
  batchInputs : f'.batchInputs = f.batchInputs ++ seq.inputs.take t
  tokens : f'.tokens = f.tokens ++ (List.range t).map fun k : Nat =>
    (⟨(f.server.slot seq.cache).id, (f.server.slot seq.cache).inputs.length + k⟩ : Token)
  outputs : f.batchOutputs <+: f'.batchOutputs
  row : t = seq.inputs.length → t ≠ 0 → f'.batchOutputs[seq'.iBatch]? = some (f.batchInputs.length + t - 1)
  sequence : seq' = { seq with iBatch := seq'.iBatch, pendingInputs := seq.inputs.take t }

theorem Takes.zero {f : Forward} {seq : Sequence} (h : seq.pendingInputs = []) : Takes f seq 0 f seq := by
  refine ⟨Nat.zero_le _, rfl, rfl, by simp, by simp, List.prefix_rfl, fun _ h0 => absurd rfl h0, ?_⟩
  rw [List.take_zero, ← h]

theorem Takes.length_pendingInputs {f f' : Forward} {seq seq' : Sequence} {t : Nat} (h : Takes f seq t f' seq') :
    seq'.pendingInputs.length = t := by
  rw [h.sequence, List.length_take]
  exact Nat.min_eq_left h.le

theorem Takes.addInput {f f₁ : Forward} {seq seq₁ : Sequence} {i : Nat} (h : Takes f seq i f₁ seq₁) {inp : Input}
    (hi : seq.inputs[i]? = some inp) :
    ∃ f₂ seq₂, f₁.addInput seq₁ i inp = some (f₂, seq₂) ∧ Takes f seq (i + 1) f₂ seq₂ := by
  have hlt : i < seq.inputs.length := (List.getElem?_eq_some_iff.mp hi).1
  have hpend := h.length_pendingInputs
  have hinputs : seq₁.inputs = seq.inputs := by rw [h.sequence]
  have hcache : seq₁.cache = seq.cache := by rw [h.sequence]
  have htake : seq.inputs.take (i + 1) = seq.inputs.take i ++ [inp] := by
    rw [List.take_add_one, hi]
    rfl
  have hbatch : f₁.batchInputs.length = f.batchInputs.length + i := by
    rw [h.batchInputs, List.length_append, List.length_take]
    omega
  unfold Forward.addInput
  rw [hinputs, hi]
  refine ⟨_, _, rfl, hlt, h.server, h.seqs, ?_, ?_, ?_, ?_, ?_⟩
  · rw [h.batchInputs, htake, List.append_assoc]
  · rw [h.tokens, h.server, hcache, hpend, List.range_succ, List.map_append, List.append_assoc]
    rfl
  · dsimp only
    split
    · exact h.outputs.trans (List.prefix_append _ _)
    · exact h.outputs
  · intro hlast _
    dsimp only
    rw [if_pos (.inl hlast), List.getElem?_append_right (Nat.le_refl _), Nat.sub_self, hbatch]
    rfl
  · dsimp only
    rw [h.sequence, htake]

/-- With room in the context for all groups, the loop takes some of the inputs, and no part of a group. -/
theorem takes_of_fits {fails : Nat → Nat → Nat → Bool} {seqIdx : Nat} {f : Forward} {seq : Sequence}
    (hfits : ∀ (k : Nat) x, seq.inputs[k]? = some x →
      ((f.server.slot seq.cache).inputs.length + k + 1 + x.sameBatch : Int) ≤ f.server.cache.numCtx)
    {rest : List Input} {i batchSize : Nat} (hrest : rest = seq.inputs.drop i) {f₁ : Forward} {seq₁ : Sequence}
    (h : Takes f seq i f₁ seq₁) (hgroup : WellFormed seq.inputs →
      ∃ r, Members seq.inputs i r ∧ (r = 0 ∨ f₁.batchInputs.length + r ≤ batchSize))
    {out : Forward × Option Sequence} (hout : takeInputs fails seqIdx rest i batchSize f₁ seq₁ = some out) :
    ∃ t seq', out.2 = some seq' ∧ Takes f seq t out.1 seq' ∧ (WellFormed seq.inputs → Whole seq.inputs t) := by
  induction rest generalizing i batchSize f₁ seq₁ with
  | nil =>
    cases hout
    refine ⟨i, seq₁, rfl, h, fun hwf => ?_⟩
    obtain ⟨r, hr, -⟩ := hgroup hwf
    have hle := List.drop_eq_nil_iff.mp hrest.symm
    have := hr.le
    intro j x hx hj
    have := hr.before j x hx hj
    omega
  | cons inp rest ih =>
    have hi : seq.inputs[i]? = some inp := by
      rw [← List.head?_drop, ← hrest]
      rfl
    have hfit := hfits i inp hi
    have hpend := h.length_pendingInputs
    have hcache : seq₁.cache = seq.cache := by rw [h.sequence]
    have hdrop : rest = seq.inputs.drop (i + 1) := by
      rw [← List.tail_drop, ← hrest]
      rfl
    unfold takeInputs at hout
    dsimp only at hout
    have hsize : batchSize ≤ if 1 + inp.sameBatch > batchSize then 1 + inp.sameBatch else batchSize := by
      split <;> omega
    generalize (if 1 + inp.sameBatch > batchSize then 1 + inp.sameBatch else batchSize) = size at hout hsize
    split at hout
    · -- the batch is full, which it is not inside of a group
      rename_i hfull
      cases hout
      refine ⟨i, seq₁, rfl, ?_, fun hwf => ?_⟩
      · split
        · exact ⟨h.le, h.server, h.seqs, h.batchInputs, h.tokens, h.outputs, h.row, h.sequence⟩
        · exact h
      · obtain ⟨r, hr, hroom⟩ := hgroup hwf
        have h0 : r = 0 := by
          by_contra hne
          have := hr.plain i inp hi (Nat.le_refl _) (by omega)
          omega
        subst h0
        exact hr.before
    · rename_i hroom
      rw [h.server, hcache, hpend, if_neg (by push_cast; omega)] at hout
      obtain ⟨f₂, seq₂, hadd, h₂⟩ := h.addInput hi
      rw [hadd, Option.bind_some] at hout
      refine ih hdrop h₂ (fun hwf => ?_) hout
      obtain ⟨r, hr, hin⟩ := hgroup hwf
      refine ⟨_, hr.next hwf hi, ?_⟩
      have hlen : f₂.batchInputs.length = f₁.batchInputs.length + 1 := by
        rw [h₂.batchInputs, h.batchInputs, List.length_append, List.length_append, List.length_take, List.length_take]
        have := h₂.le
        omega
      omega

end Forward

/-! ## A full context -/

/-- What a shift of a full slot drops. -/
structure Drops (c : InputCache) (slot : InputCacheSlot) (numKeep discard : Int) : Prop where
  keep : 0 ≤ numKeep
  pos : 0 < discard
  le : numKeep + discard ≤ slot.inputs.length
  discard : c.shiftDiscard slot.inputs numKeep = some discard

theorem discardLoop_pos {targetFree : Int} {xs : List Input} (hxs : xs ≠ []) {currentFree : Int}
    (h : currentFree < targetFree) : 0 < InputCache.discardLoop targetFree xs 0 currentFree 0 := by
  obtain ⟨x, rest, rfl⟩ := List.exists_cons_of_ne_nil hxs
  rw [InputCache.discardLoop, if_neg (by omega)]
  have := (InputCache.discardLoop_bounds targetFree rest (if 0 < x.sameBatch then x.sameBatch else 0 - 1)
    (currentFree + 1) (0 + 1)).1
  omega

theorem drops_of_full {c : InputCache} {slot : InputCacheSlot} {numKeep discard : Int}
    (hfull : (slot.inputs.length : Int) = c.numCtx) (hkeep : numKeep < c.numCtx)
    (h : c.shiftDiscard slot.inputs numKeep = some discard) : Drops c slot numKeep discard := by
  obtain ⟨h1, h2, h3⟩ := InputCache.shiftDiscard_bounds h
  refine ⟨h1, ?_, h3, h⟩
  unfold InputCache.shiftDiscard at h
  rw [if_neg (by omega), Option.some.injEq] at h
  rw [← h]
  apply discardLoop_pos
  · intro hnil
    rw [List.drop_eq_nil_iff] at hnil
    omega
  · omega

/-- A shift of a full slot drops some of its inputs, or clears it. -/
theorem shiftCacheSlot_full {c c' : InputCache} {i : Nat} {slot : InputCacheSlot} (hslot : c.slots[i]? = some slot)
    (hfull : (slot.inputs.length : Int) = c.numCtx) {numKeep : Int} {fails : Nat → Nat → Nat → Bool}
    {err : Option InputCacheError} (h : c.shiftCacheSlot i numKeep fails = some (c', err)) : c'.numCtx = c.numCtx ∧
    (err = none → ∃ discard, Drops c slot numKeep discard ∧ c'.slots = c.slots.set i
      { slot with inputs := InputCache.withoutDiscarded slot.inputs numKeep discard }) ∧
    ∀ inputs, err = some (.reprocess inputs) → ∃ discard, Drops c slot numKeep discard ∧
      inputs = InputCache.withoutDiscarded slot.inputs numKeep discard ∧
      c'.slots = c.slots.set i { slot with inputs := [] } := by
  unfold InputCache.shiftCacheSlot at h
  split at h
  · cases h
    exact ⟨rfl, fun h => (nomatch h), fun _ h => (nomatch h)⟩
  · rename_i hkeep
    rw [hslot] at h
    dsimp only at h
    split at h
    · cases h
    · rename_i discard hdisc
      have hd := drops_of_full hfull (by omega) hdisc
      rw [if_neg (by have := hd.pos; omega)] at h
      split at h
      · cases h
        refine ⟨rfl, fun h => (nomatch h), fun inputs he => ⟨discard, hd, ?_, rfl⟩⟩
        cases he
        rfl
      · cases h
        exact ⟨rfl, fun _ => ⟨discard, hd, rfl⟩, fun _ h => (nomatch h)⟩

theorem Drops.congr {c c' : InputCache} {slot : InputCacheSlot} {numKeep discard : Int}
    (h : Drops c slot numKeep discard) (hctx : c'.numCtx = c.numCtx) : Drops c' slot numKeep discard := by
  refine ⟨h.keep, h.pos, h.le, ?_⟩
  unfold InputCache.shiftDiscard
  rw [hctx]
  exact h.discard

theorem Drops.length_lt {c : InputCache} {slot : InputCacheSlot} {numKeep discard : Int}
    (h : Drops c slot numKeep discard) :
    (InputCache.withoutDiscarded slot.inputs numKeep discard).length < slot.inputs.length := by
  have h1 := h.keep
  have h2 := h.pos
  have h3 := h.le
  rw [InputCache.withoutDiscarded, List.length_append, List.length_take, List.length_drop]
  omega

/-! ## One sequence -/

/-- The inputs of a sequence that are not in its slot yet. If a prompt fits into the context, one input is left
when the context is full. -/
structure Queued (numCtx : Int) (slot : InputCacheSlot) (seq : Sequence) : Prop where
  ne : seq.pendingInputs ++ seq.inputs ≠ []
  fits : Fits numCtx (slot.inputs ++ (seq.pendingInputs ++ seq.inputs)) ∨
    ∃ x, seq.pendingInputs = [] ∧ seq.inputs = [x] ∧ x.sameBatch = 0 ∧ Fits numCtx slot.inputs ∧
      (slot.inputs.length : Int) = numCtx

namespace Forward

/-- What `forwardBatch` does with a sequence. -/
inductive Visited (fails : Nat → Nat → Nat → Bool) (f : Forward) (i : Nat) (seq : Sequence) : Forward → Prop
  | takes {t : Nat} {f' : Forward} {seq' : Sequence} : Takes f seq t f' seq' →
    (t ≠ 0 → ((f.server.slot seq.cache).inputs.length + t : Int) ≤ f.server.cache.numCtx) →
    (WellFormed seq.inputs → Whole seq.inputs t) → Visited fails f i seq { f' with server := { f'.server with
      seqs := f'.server.seqs.set i (some { seq' with inputs := seq.inputs.drop t }) } }
  | removed : Visited fails f i seq { f with
      server := f.server.removeSequence i seq, seqs := f.seqs.set i none }
  | shifted {x : Input} {cache : InputCache} {f' : Forward} {seq' : Sequence} : seq.shift = true → seq.inputs = [x] →
    ((f.server.slot seq.cache).inputs.length : Int) = f.server.cache.numCtx →
    f.batchInputs.length < max 1 f.server.batchSize →
    f.server.cache.shiftCacheSlot seq.cache seq.numKeep fails = some (cache, none) →
    Takes { f with server := { f.server with cache := cache } } seq 1 f' seq' →
    Visited fails f i seq { f' with server := { f'.server with
      seqs := f'.server.seqs.set i (some { seq' with inputs := [] }) } }
  | reprocess {x : Input} {cache : InputCache} {inputs : List Input} : seq.shift = true → seq.inputs = [x] →
    ((f.server.slot seq.cache).inputs.length : Int) = f.server.cache.numCtx →
    f.batchInputs.length < max 1 f.server.batchSize →
    f.server.cache.shiftCacheSlot seq.cache seq.numKeep fails = some (cache, some (.reprocess inputs)) →
    Visited fails f i seq { f with
      server := { f.server with
        cache := cache
        seqs := f.server.seqs.set i (some { seq with inputs := inputs ++ [x] }) }
      seqs := f.seqs.set i none }

/-- The loop at the only input of a sequence whose slot is full. -/
theorem takeInputs_full {fails : Nat → Nat → Nat → Bool} {f : Forward} {i batchSize : Nat} {seq : Sequence}
    {x : Input} (hpend : seq.pendingInputs = []) (hx : seq.inputs = [x]) (hsame : x.sameBatch = 0)
    (hfull : ((f.server.slot seq.cache).inputs.length : Int) = f.server.cache.numCtx)
    {out : Forward × Option Sequence} (hout : takeInputs fails i [x] 0 batchSize f seq = some out) :
    (∃ f', out = (f', some seq) ∧ Takes f seq 0 f' seq) ∨
    out = ({ f with server := f.server.removeSequence i seq, seqs := f.seqs.set i none }, none) ∨
    seq.shift = true ∧ f.batchInputs.length < max 1 batchSize ∧ ((∃ cache f' seq', out = (f', some seq') ∧
      f.server.cache.shiftCacheSlot seq.cache seq.numKeep fails = some (cache, none) ∧
      Takes { f with server := { f.server with cache := cache } } seq 1 f' seq') ∨
    ∃ cache inputs, out = ({ f with server := { f.server with cache := cache }, seqs := f.seqs.set i none },
        some { seq with inputs := inputs ++ seq.inputs }) ∧
      f.server.cache.shiftCacheSlot seq.cache seq.numKeep fails = some (cache, some (.reprocess inputs))) := by
  unfold takeInputs at hout
  dsimp only at hout
  have hsize : (if 1 + x.sameBatch > batchSize then 1 + x.sameBatch else batchSize) = max 1 batchSize := by
    rw [hsame]
    split <;> omega
  rw [hsize] at hout
  split at hout
  · cases hout
    refine .inl ⟨_, rfl, ?_⟩
    have hzero := @Takes.zero f seq hpend
    split
    · exact ⟨hzero.le, hzero.server, hzero.seqs, hzero.batchInputs, hzero.tokens, hzero.outputs, hzero.row, hzero.sequence⟩
    · exact hzero
  · rename_i hroom
    rw [if_pos (by rw [hpend, hsame, List.length_nil]; push_cast; omega), if_neg (by simp [hpend])] at hout
    split at hout
    · cases hout
      exact .inr (.inl rfl)
    · rename_i hshift
      refine .inr (.inr ⟨by simpa using hshift, by omega, ?_⟩)
      split at hout
      · rename_i cache hs
        have hzero := @Takes.zero { f with server := { f.server with cache := cache } } seq hpend
        obtain ⟨f₂, seq₂, hadd, h₂⟩ := hzero.addInput (show seq.inputs[0]? = some x by rw [hx]; rfl)
        rw [hadd, Option.bind_some, takeInputs, Option.some.injEq] at hout
        exact .inl ⟨cache, f₂, seq₂, hout.symm, hs, h₂⟩
      · rename_i cache inputs hs
        rw [takeInputs, Option.some.injEq] at hout
        exact .inr ⟨cache, inputs, hout.symm, hs⟩
      · cases hout

theorem visit_cases {fails : Nat → Nat → Nat → Bool} {f f' : Forward} {i : Nat} {seq : Sequence}
    (hi : f.server.sequence i = some seq) (hpend : seq.pendingInputs = [])
    (hq : Queued f.server.cache.numCtx (f.server.slot seq.cache) seq) (h : visit fails f i = some f') :
    Visited fails f i seq f' := by
  unfold visit at h
  rw [hi] at h
  dsimp only at h
  obtain hfits | ⟨x, -, hx, hsame, -, hfull⟩ := hq.fits
  · have hroom : ∀ (k : Nat) x, seq.inputs[k]? = some x →
        ((f.server.slot seq.cache).inputs.length + k + 1 + x.sameBatch : Int) ≤ f.server.cache.numCtx := by
      intro k x hx
      have := hfits ((f.server.slot seq.cache).inputs.length + k) x (by
        rw [hpend, List.nil_append, List.getElem?_append_right (by omega), Nat.add_sub_cancel_left]
        exact hx)
      push_cast at this
      omega
    cases hout : takeInputs fails i seq.inputs 0 f.server.batchSize f seq with
    | none =>
      rw [hout] at h
      cases h
    | some out =>
      have hstart : WellFormed seq.inputs → ∃ r, Members seq.inputs 0 r ∧ (r = 0 ∨ f.batchInputs.length + r ≤
          f.server.batchSize) := by
        intro _
        exact ⟨0, ⟨Nat.zero_le _, fun _ _ _ _ h => (nomatch h), fun _ _ _ h => (nomatch h)⟩, .inl rfl⟩
      obtain ⟨t, seq', h1, h3, h4⟩ := takes_of_fits hroom (List.drop_zero).symm (Takes.zero hpend) hstart hout
      obtain ⟨f₁, o⟩ := out
      dsimp only at h1
      subst h1
      have hinputs : seq'.inputs = seq.inputs := by rw [h3.sequence]
      rw [hout] at h
      dsimp only at h
      rw [h3.length_pendingInputs, hinputs, if_neg (by have := h3.le; omega), Option.some.injEq] at h
      rw [← h]
      refine .takes h3 (fun h0 => ?_) h4
      obtain ⟨k, rfl⟩ := Nat.exists_eq_succ_of_ne_zero h0
      have := hroom k _ (List.getElem?_eq_getElem h3.le)
      push_cast
      omega
  · cases hout : takeInputs fails i [x] 0 f.server.batchSize f seq with
    | none =>
      rw [hx, hout] at h
      cases h
    | some out =>
      have hlen : seq.pendingInputs.length = 0 := by simp [hpend]
      rw [hx, hout] at h
      obtain ⟨f₁, rfl, h3⟩ | rfl | ⟨hshift, hroom, ⟨cache, f₁, seq', rfl, hs, h3⟩ | ⟨cache, inputs, rfl, hs⟩⟩ :=
        takeInputs_full hpend hx hsame hfull hout
      · dsimp only at h
        rw [hlen, if_neg (by simp), Option.some.injEq] at h
        rw [← h]
        exact .takes h3 (fun h0 => absurd rfl h0) fun _ => whole_zero _
      · cases h
        exact .removed
      · dsimp only at h
        have hinputs : seq'.inputs = seq.inputs := by rw [h3.sequence]
        rw [h3.length_pendingInputs, hinputs, hx, if_neg (by simp), Option.some.injEq] at h
        rw [← h]
        exact .shifted hshift hx hfull hroom hs h3
      · dsimp only at h
        rw [hlen, if_neg (by simp), Option.some.injEq, List.drop_zero, hx] at h
        rw [← h]
        exact .reprocess hshift hx hfull hroom hs

end Forward

end Xdragon.Runner.Pipeline
