import Xdragon.Kvcache.Shift
import Xdragon.Runner.InputCache

/-!
# What a shift discards

`ShiftDiscard` walks over the inputs with two counters. It stops at the first cut that splits no group and leaves
enough free places. A group may reach past the last input, as one in the tests of the package does.
-/

namespace Xdragon.Runner

open Xdragon.Kvcache

/-! ## Groups -/

/-- A member of a group has no group of its own. -/
def Apart (l : List Input) : Prop :=
  ∀ (j : Nat) x, l[j]? = some x → ∀ n, 0 < n → n ≤ x.sameBatch → ∀ y, l[j + n]? = some y → y.sameBatch = 0

/-- The `p`th input belongs to a group that begins before it. -/
def Inside (l : List Input) (p : Nat) : Prop :=
  p < l.length ∧ ∃ (j : Nat) (x : Input), l[j]? = some x ∧ j < p ∧ p ≤ j + x.sameBatch

instance (l : List Input) : Decidable (Apart l) :=
  decidable_of_iff (∀ e ∈ l.zipIdx, ∀ n < e.1.sameBatch, (l[e.2 + (n + 1)]?).all (·.sameBatch = 0)) (by
    constructor
    · intro h j x hx n h0 hn y hy
      have := h (x, j) (List.mem_zipIdx_iff_getElem?.mpr hx) (n - 1) (by dsimp only; omega)
      rw [show n - 1 + 1 = n by omega, hy] at this
      simpa using this
    · intro h e he n hn
      rw [Option.all_eq_true]
      intro y hy
      exact decide_eq_true (h e.2 e.1 (List.mem_zipIdx_iff_getElem?.mp he) (n + 1) (by omega) hn y hy))

instance (l : List Input) (p : Nat) : Decidable (Inside l p) :=
  decidable_of_iff (p < l.length ∧ ∃ e ∈ l.zipIdx, e.2 < p ∧ p ≤ e.2 + e.1.sameBatch) (by
    refine and_congr_right fun _ => ⟨?_, ?_⟩
    · rintro ⟨e, he, h⟩
      exact ⟨e.2, e.1, List.mem_zipIdx_iff_getElem?.mp he, h⟩
    · rintro ⟨j, x, hx, h⟩
      exact ⟨(x, j), List.mem_zipIdx_iff_getElem?.mpr hx, h⟩)

theorem not_inside_of_plain {l : List Input} (h : ∀ x ∈ l, x.sameBatch = 0) (p : Nat) : ¬ Inside l p := by
  rintro ⟨-, j, x, hx, hlt, hle⟩
  have := h x (List.mem_of_getElem? hx)
  omega

/-- Of the last group that begins before the `i`th input `r` inputs are left. -/
structure Left (l : List Input) (i r : Nat) : Prop where
  before : ∀ (j : Nat) x, l[j]? = some x → j < i → j + x.sameBatch < i + r
  group : r ≠ 0 → ∃ (j : Nat) (x : Input), l[j]? = some x ∧ j < i ∧ i + r = j + x.sameBatch + 1

theorem Left.inside {l : List Input} {i r : Nat} (h : Left l i r) (hi : i < l.length) : Inside l i ↔ r ≠ 0 := by
  constructor
  · rintro ⟨-, j, x, hx, hlt, hle⟩
    have := h.before j x hx hlt
    omega
  · intro hr
    obtain ⟨j, x, hx, hlt, heq⟩ := h.group hr
    exact ⟨hi, j, x, hx, hlt, by omega⟩

theorem left_zero {l : List Input} {i : Nat} (hi : i < l.length) (h : ¬ Inside l i) : Left l i 0 := by
  refine ⟨fun j x hx hlt => ?_, fun h0 => absurd rfl h0⟩
  apply Nat.lt_of_not_le
  intro hle
  exact h ⟨hi, j, x, hx, hlt, hle⟩

theorem Left.next {l : List Input} (hl : Apart l) {i r : Nat} (h : Left l i r) {x : Input} (hx : l[i]? = some x) :
    Left l (i + 1) (if 0 < x.sameBatch then x.sameBatch else r - 1) := by
  split
  · rename_i hpos
    -- the input begins a group, so no group is left
    have hr : r = 0 := by
      apply Classical.byContradiction
      intro hr
      obtain ⟨j, y, hy, hlt, heq⟩ := h.group hr
      have := hl j y hy (i - j) (by omega) (by omega) x (by rw [show j + (i - j) = i by omega]; exact hx)
      omega
    refine ⟨fun j y hy hlt => ?_, fun _ => ⟨i, x, hx, by omega, by omega⟩⟩
    rcases Nat.lt_succ_iff_lt_or_eq.mp hlt with hji | rfl
    · have := h.before j y hy hji
      omega
    · obtain rfl := Option.some.inj (hx.symm.trans hy)
      omega
  · refine ⟨fun j y hy hlt => ?_, fun hr => ?_⟩
    · rcases Nat.lt_succ_iff_lt_or_eq.mp hlt with hji | rfl
      · have := h.before j y hy hji
        omega
      · obtain rfl := Option.some.inj (hx.symm.trans hy)
        omega
    · obtain ⟨j, y, hy, hlt, heq⟩ := h.group (by omega)
      exact ⟨j, y, hy, by omega, by omega⟩

/-! ## The loop -/

/-- The loop stops `k` inputs after the `i`th one. -/
def Stops (l : List Input) (targetFree free : Int) (i k : Nat) : Prop :=
  ¬ Inside l (i + k) ∧ (targetFree ≤ free + k ∨ l.length ≤ i + k)

theorem stops_succ (l : List Input) (targetFree free : Int) (i k : Nat) :
    Stops l targetFree (free + 1) (i + 1) k ↔ Stops l targetFree free i (k + 1) := by
  unfold Stops
  rw [show i + 1 + k = i + (k + 1) by omega, show free + 1 + (k : Int) = free + (k + 1 : Nat) by omega]

/-- The loop stops as early as it can. -/
theorem discardLoop_least (targetFree : Int) {l rest : List Input} (hl : Apart l) {i : Nat}
    (sameBatch free discard : Int) (hrest : rest = l.drop i) (h : i < l.length → Left l i sameBatch.toNat) :
    ∃ k : Nat, InputCache.discardLoop targetFree rest sameBatch free discard = discard + k ∧ k ≤ rest.length ∧
      Stops l targetFree free i k ∧ ∀ k' < k, ¬ Stops l targetFree free i k' := by
  induction rest generalizing i sameBatch free discard with
  | nil =>
    have hle := List.drop_eq_nil_iff.mp hrest.symm
    refine ⟨0, (Int.add_zero _).symm, Nat.le_refl _, ⟨fun hin => ?_, .inr hle⟩, nofun⟩
    exact absurd hin.1 (by omega)
  | cons x rest ih =>
    have hx : l[i]? = some x := by
      rw [← List.head?_drop, ← hrest]
      rfl
    have hdrop : rest = l.drop (i + 1) := by
      rw [← List.tail_drop, ← hrest]
      rfl
    have hi := (List.getElem?_eq_some_iff.mp hx).1
    have hin := (h hi).inside hi
    rw [InputCache.discardLoop]
    split
    · rename_i hstop
      refine ⟨0, (Int.add_zero _).symm, Nat.zero_le _, ⟨fun hno => ?_, .inl (by omega)⟩, nofun⟩
      exact hin.mp hno (by omega)
    · rename_i hgo
      have hnext : Left l (i + 1) (if 0 < x.sameBatch then (x.sameBatch : Int) else sameBatch - 1).toNat := by
        have := (h hi).next hl hx
        split at this
        · rename_i hpos
          rwa [if_pos hpos, Int.toNat_natCast]
        · rename_i hpos
          rwa [if_neg hpos, show (sameBatch - 1).toNat = sameBatch.toNat - 1 by omega]
      obtain ⟨k, hk, hle, hstop, hleast⟩ := ih _ (free + 1) (discard + 1) hdrop fun _ => hnext
      refine ⟨k + 1, ?_, Nat.succ_le_succ hle, (stops_succ ..).mp hstop, fun k' hk' => ?_⟩
      · rw [hk]
        omega
      · cases k' with
        | zero =>
          rintro ⟨hno, hfree⟩
          rw [Nat.add_zero, hin, Classical.not_not] at hno
          omega
        | succ k' =>
          rw [← stops_succ]
          exact hleast k' (by omega)

/-! ## What is discarded -/

/-- A shift leaves half of the inputs that it does not keep, or at least one place. -/
def targetFree (numCtx numKeep : Int) : Int := max ((numCtx - numKeep).tdiv 2) 1

/-- `ShiftDiscard` of `llamarunner/cache.go`, which knows no groups. -/
def Llamarunner.shiftDiscard (numCtx inputLen numKeep : Int) : Int :=
  max (targetFree numCtx numKeep - (numCtx - inputLen)) 0

/-- After the inputs that are kept, `d` inputs can be discarded. -/
structure Discards (numCtx : Int) (inputs : List Input) (numKeep d : Int) : Prop where
  nonneg : 0 ≤ d
  le : d ≤ inputs.length - numKeep
  whole : ¬ Inside inputs (numKeep + d).toNat
  free : targetFree numCtx numKeep ≤ numCtx - inputs.length + d ∨ d = inputs.length - numKeep

/-- The least discard. -/
structure DiscardsLeast (numCtx : Int) (inputs : List Input) (numKeep d : Int) : Prop
    extends Discards numCtx inputs numKeep d where
  least : ∀ d', Discards numCtx inputs numKeep d' → d ≤ d'

theorem targetFree_le {numCtx numKeep : Int} (h : numKeep < numCtx) :
    1 ≤ targetFree numCtx numKeep ∧ targetFree numCtx numKeep ≤ numCtx - numKeep := by
  unfold targetFree
  rw [Int.tdiv_eq_ediv_of_nonneg (by omega)]
  omega

theorem DiscardsLeast.pos {numCtx numKeep d : Int} {inputs : List Input} (h : DiscardsLeast numCtx inputs numKeep d)
    (hkeep : numKeep < numCtx) (hfull : inputs.length = numCtx) : 1 ≤ d := by
  have htarget := targetFree_le hkeep
  rcases h.free with hfree | hall <;> omega

/-- Without groups the free places are the only condition. -/
theorem DiscardsLeast.eq_llamarunner {numCtx numKeep d : Int} {inputs : List Input}
    (h : DiscardsLeast numCtx inputs numKeep d) (hkeep : numKeep < numCtx) (hle : numKeep ≤ inputs.length)
    (hplain : ∀ x ∈ inputs, x.sameBatch = 0) : d = Llamarunner.shiftDiscard numCtx inputs.length numKeep := by
  have htarget := targetFree_le hkeep
  unfold Llamarunner.shiftDiscard
  apply Int.le_antisymm
  · exact h.least _ ⟨by omega, by omega, not_inside_of_plain hplain _, .inl (by omega)⟩
  · have h0 := h.nonneg
    rcases h.free with hfree | hall <;> omega

namespace InputCache

theorem shiftDiscard_spec (c : InputCache) {inputs : List Input} {numKeep : Int} (h0 : 0 ≤ numKeep)
    (hle : numKeep ≤ inputs.length) (hgroups : Apart inputs) (hkeep : ¬ Inside inputs numKeep.toNat) :
    ∃ d, c.shiftDiscard inputs numKeep = some d ∧ DiscardsLeast c.numCtx inputs numKeep d := by
  obtain ⟨k, hk, hlen, ⟨hwhole, hfree⟩, hleast⟩ := discardLoop_least (targetFree c.numCtx numKeep) hgroups 0
    (c.numCtx - inputs.length) 0 rfl fun hi => left_zero hi hkeep
  rw [List.length_drop] at hlen
  refine ⟨k, ?_, ⟨by omega, by omega, ?_, by omega⟩, fun d' hd' => ?_⟩
  · unfold shiftDiscard
    rw [if_neg (by omega), ← targetFree, hk, Int.zero_add]
  · rwa [show (numKeep + k).toNat = numKeep.toNat + k by omega]
  · have h1 := hd'.nonneg
    have h2 := hd'.whole
    have h3 := hd'.free
    apply Int.le_of_not_gt
    intro hlt
    refine hleast d'.toNat (by omega) ⟨?_, by omega⟩
    rwa [show (numKeep + d').toNat = numKeep.toNat + d'.toNat by omega] at h2

/-- The outcome of `ShiftCacheSlot`: the slot is left without the discarded inputs. If the KV cache cannot remove
them nothing is left in it, and the inputs that would be left are returned. -/
inductive SlotShift (c : InputCache) (i : Nat) (slot : InputCacheSlot) (numKeep d : Int)
    (fails : Nat → Nat → Nat → Bool) : InputCache → Option InputCacheError → Prop
  | success {c' : InputCache} : d = 0 ∨ (c.cache.remove slot.id numKeep (numKeep + d) fails).2 = none →
    c'.slots = c.slots.set i { slot with
      inputs := slot.inputs.take numKeep.toNat ++ slot.inputs.drop (numKeep + d).toNat } →
    SlotShift c i slot numKeep d fails c' none
  | failure {c' : InputCache} : (c.cache.remove slot.id numKeep (numKeep + d) fails).2 ≠ none →
    c'.slots = c.slots.set i { slot with inputs := [] } → c'.cache.Forgotten slot.id →
    SlotShift c i slot numKeep d fails c'
      (some (.reprocess (slot.inputs.take numKeep.toNat ++ slot.inputs.drop (numKeep + d).toNat)))

theorem shiftCacheSlot_slotShift {c : InputCache} {i : Nat} {slot : InputCacheSlot} {numKeep d : Int}
    (hi : c.slots[i]? = some slot) (h0 : 0 ≤ numKeep) (hkeep : numKeep < c.numCtx)
    (hd : c.shiftDiscard slot.inputs numKeep = some d) (hpos : 0 ≤ d) (hcache : Causal.Bounded c.cache.cells)
    (fails : Nat → Nat → Nat → Bool) :
    ∃ c' err, c.shiftCacheSlot i numKeep fails = some (c', err) ∧ SlotShift c i slot numKeep d fails c' err := by
  unfold shiftCacheSlot
  rw [if_neg (by omega), hi]
  simp only [hd]
  split
  · rename_i hle
    obtain rfl : d = 0 := by omega
    refine ⟨c, none, rfl, .success (.inl rfl) ?_⟩
    obtain ⟨hlt, rfl⟩ := List.getElem?_eq_some_iff.mp hi
    rw [Int.add_zero, List.take_append_drop]
    exact (List.set_getElem_self hlt).symm
  · have hbounded := hcache.remove h0 (by omega : numKeep ≤ numKeep + d) slot.id fails
    split
    · rename_i cache err hremove
      rw [hremove] at hbounded
      refine ⟨_, _, rfl, .failure (by rw [hremove]; nofun) rfl ?_⟩
      exact (Causal.remove_all hbounded slot.id fails).2
    · rename_i cache hremove
      exact ⟨_, _, rfl, .success (.inr (by rw [hremove])) rfl⟩

/-- The least discard that splits no group, and what a shift by it leaves. The positions are bounded in every run of
the KV cache. -/
theorem shift_least (c : InputCache) (inputs : List Input) {numKeep : Int} (h0 : 0 ≤ numKeep)
    (hkeep : numKeep < c.numCtx) (hle : numKeep ≤ inputs.length) (hgroups : Apart inputs)
    (hin : ¬ Inside inputs numKeep.toNat) (hcache : Causal.Bounded c.cache.cells) :
    ∃ d, c.shiftDiscard inputs numKeep = some d ∧ DiscardsLeast c.numCtx inputs numKeep d ∧
      ((inputs.length : Int) = c.numCtx → 1 ≤ d) ∧
      ((∀ x ∈ inputs, x.sameBatch = 0) → d = Llamarunner.shiftDiscard c.numCtx inputs.length numKeep) ∧
      ∀ i slot fails, c.slots[i]? = some slot → slot.inputs = inputs →
        ∃ c' err, c.shiftCacheSlot i numKeep fails = some (c', err) ∧ SlotShift c i slot numKeep d fails c' err := by
  obtain ⟨d, hd, hleast⟩ := shiftDiscard_spec c h0 hle hgroups hin
  refine ⟨d, hd, hleast, hleast.pos hkeep, hleast.eq_llamarunner hkeep hle, ?_⟩
  rintro i slot fails hi rfl
  exact shiftCacheSlot_slotShift hi h0 hkeep hd hleast.nonneg hcache fails

/-- A full slot, with a group of four inputs. -/
def groupSlot : InputCacheSlot :=
  { id := 0, inputs := [⟨1, 0, 0⟩, ⟨2, 0, 0⟩, ⟨3, 0, 3⟩, ⟨4, 0, 0⟩, ⟨5, 0, 0⟩, ⟨6, 0, 0⟩, ⟨7, 0, 0⟩, ⟨8, 0, 0⟩] }

def groupCache (shiftFn : Bool) : InputCache :=
  let cache := ((Causal.newCausalCache shiftFn).init 1 8 8).getD (Causal.newCausalCache shiftFn)
  { numCtx := 8
    slots := [groupSlot]
    multiUserCache := false
    cache := (cache.startForward ((List.range 8).map fun pos => ⟨0, pos⟩) false).1 }

/-- Three inputs are enough, but the group goes with them. One KV cache can shift, and the other one is cleared. -/
theorem groupSlot_shift :
    (∀ shiftFn, (groupCache shiftFn).shiftDiscard groupSlot.inputs 1 = some 5) ∧
      Llamarunner.shiftDiscard 8 groupSlot.inputs.length 1 = 3 ∧
      (∃ c', SlotShift (groupCache true) 0 groupSlot 1 5 (fun _ _ _ => false) c' none) ∧
      ∃ c' err, SlotShift (groupCache false) 0 groupSlot 1 5 (fun _ _ _ => false) c' (some err) := by
  have hd : ∀ shiftFn, (groupCache shiftFn).shiftDiscard groupSlot.inputs 1 = some 5 := fun _ => rfl
  have hshift : ∀ shiftFn, ∃ c' err, (groupCache shiftFn).shiftCacheSlot 0 1 (fun _ _ _ => false) = some (c', err) ∧
      SlotShift (groupCache shiftFn) 0 groupSlot 1 5 (fun _ _ _ => false) c' err := by
    intro shiftFn
    have hbounded : ∀ cell ∈ (groupCache shiftFn).cache.cells, 0 ≤ cell.pos ∧ cell.pos < maxInt32 := by
      cases shiftFn <;> decide
    obtain ⟨d, hd', -, -, -, hslot⟩ := shift_least (groupCache shiftFn) groupSlot.inputs (by decide : (0 : Int) ≤ 1)
      (by decide : (1 : Int) < 8) (by decide) (by decide) (by decide) hbounded
    obtain rfl : d = 5 := Option.some.inj (hd'.symm.trans (hd shiftFn))
    exact hslot 0 groupSlot _ rfl rfl
  refine ⟨hd, rfl, ?_, ?_⟩
  · obtain ⟨c', err, hrun, hspec⟩ := hshift true
    have herr : ((groupCache true).shiftCacheSlot 0 1 fun _ _ _ => false).any (·.2.isNone) = true := by decide
    rw [hrun] at herr
    cases err with
    | none => exact ⟨c', hspec⟩
    | some err => cases herr
  · obtain ⟨c', err, hrun, hspec⟩ := hshift false
    have herr : ((groupCache false).shiftCacheSlot 0 1 fun _ _ _ => false).any (·.2.isSome) = true := by decide
    rw [hrun] at herr
    cases err with
    | none => cases herr
    | some err => exact ⟨c', err, hspec⟩

end InputCache

end Xdragon.Runner
