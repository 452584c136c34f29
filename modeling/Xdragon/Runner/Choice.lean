import Mathlib.Data.List.Induction
import Xdragon.Runner.Stocked

/-!
# The choice of a slot

For one user the longest free slot is found, or none is free. For several users the oldest free slot is only found if
it was used before the search has begun, and no slot at all if all are in use.
-/

namespace Xdragon.Runner

open Xdragon.Kvcache

namespace InputCache

/-! ## What is claimed -/

/-- The slot starts with the first `n` inputs of the prompt. -/
def Matches (c : InputCache) (prompt : List Input) (i : Nat) (n : Int) : Prop :=
  ∃ slot, c.slots[i]? = some slot ∧ 0 ≤ n ∧ n ≤ slot.inputs.length ∧
    ∀ p : Nat, p < n → ∃ x y, slot.inputs[p]? = some x ∧ prompt[p]? = some y ∧ x.Same y

def AllBusy (c : InputCache) : Prop := ∀ slot ∈ c.slots, slot.inUse = true

structure ChoosesRight (c : InputCache) (prompt : List Input) (now : Int) : Prop where
  /-- No slot that is nil is read. -/
  total : c.findCacheSlot prompt now ≠ none
  free : ∀ c' i n, c.findCacheSlot prompt now = some (c', .ok (i, n)) → FreeSlot c i ∧ Matches c' prompt i n
  busy : ∀ cachePrompt used fails, (∃ c', c.loadCacheSlot prompt cachePrompt now used fails = some (c', .error .noSlots)) ↔
    AllBusy c
  goesOn : ∀ cachePrompt used fails c' i rest,
    c.loadCacheSlot prompt cachePrompt now used fails = some (c', .ok (i, rest)) →
      ∃ c₁ n, c.findCacheSlot prompt now = some (c₁, .ok (i, n))

/-- The first of the slots with the longest prefix. -/
def FirstLongest (slots : List InputCacheSlot) (prompt : List Input) (i : Nat) (slot : InputCacheSlot) : Prop :=
  slots[i]? = some slot ∧ ∀ (j : Nat) s, slots[j]? = some s →
    countCommonPrefix s.inputs prompt ≤ countCommonPrefix slot.inputs prompt ∧
      (j < i → countCommonPrefix s.inputs prompt < countCommonPrefix slot.inputs prompt)

/-- The slot with the longest prefix is free and has nothing else, or a free slot was used before now. -/
def Answerable (c : InputCache) (prompt : List Input) (now : Int) : Prop :=
  (∃ i slot, FirstLongest c.slots prompt i slot ∧ slot.inUse = false ∧
    countCommonPrefix slot.inputs prompt = slot.inputs.length) ∨
  ∃ slot ∈ c.slots, slot.inUse = false ∧ slot.lastUsed < now

/-! ## The loops -/

theorem longer_none {prompt : List Input} (es : List (InputCacheSlot × Nat)) {best : Int × Option Nat}
    (hbest : best.2 = none → best.1 = -1) :
    (es.foldl (longer prompt) best).2 = none ↔ best.2 = none ∧ ∀ e ∈ es, e.1.inUse = true := by
  induction es generalizing best with
  | nil => simp
  | cons e es ih =>
    have hnext : ((longer prompt best e).2 = none ↔ best.2 = none ∧ e.1.inUse = true) ∧
        ((longer prompt best e).2 = none → (longer prompt best e).1 = -1) := by
      unfold longer
      by_cases huse : e.1.inUse = true
      · simpa [huse] using hbest
      · rw [if_neg huse]
        dsimp only
        split
        · simp [huse]
        · rename_i hge
          refine ⟨iff_of_false (fun h => ?_) fun h => huse h.2, hbest⟩
          have := hbest h
          omega
    rw [List.foldl_cons, ih hnext.2, hnext.1, List.forall_mem_cons, and_assoc]

/-- What the loop for several users has found among some slots. -/
structure Best (slots : List InputCacheSlot) (prompt : List Input) (now : Int) (best : BestSlot) : Prop where
  longest : ∀ i, best.longestSlot = some i → ∃ slot, FirstLongest slots prompt i slot ∧
    best.longest = countCommonPrefix slot.inputs prompt
  empty : best.longestSlot = none → slots = [] ∧ best.longest = -1
  oldest : best.oldestSlot = none ↔ ∀ slot ∈ slots, ¬ (slot.inUse = false ∧ slot.lastUsed < now)
  clock : best.oldestSlot = none → best.oldest = now

theorem FirstLongest.snoc {slots : List InputCacheSlot} {prompt : List Input} {i : Nat} {slot s : InputCacheSlot}
    (h : FirstLongest slots prompt i slot)
    (hs : countCommonPrefix s.inputs prompt ≤ countCommonPrefix slot.inputs prompt) :
    FirstLongest (slots ++ [s]) prompt i slot := by
  have hi := (List.getElem?_eq_some_iff.mp h.1).1
  refine ⟨by rw [List.getElem?_append_left hi]; exact h.1, fun j t hj => ?_⟩
  rw [List.getElem?_append] at hj
  split at hj
  · exact h.2 j t hj
  · obtain ⟨hlt, ht⟩ := List.getElem?_eq_some_iff.mp hj
    rw [List.getElem_singleton] at ht
    exact ⟨ht ▸ hs, fun hji => by omega⟩

theorem firstLongest_last {slots : List InputCacheSlot} {prompt : List Input} {s : InputCacheSlot}
    (h : ∀ t ∈ slots, countCommonPrefix t.inputs prompt < countCommonPrefix s.inputs prompt) :
    FirstLongest (slots ++ [s]) prompt slots.length s := by
  refine ⟨List.getElem?_concat_length, fun j t hj => ?_⟩
  rw [List.getElem?_append] at hj
  split at hj
  · have := h t (List.mem_of_getElem? hj)
    exact ⟨Nat.le_of_lt this, fun _ => this⟩
  · obtain ⟨_, ht⟩ := List.getElem?_eq_some_iff.mp hj
    rw [List.getElem_singleton] at ht
    exact ⟨Nat.le_of_eq (by rw [ht]), fun hlt => by omega⟩

theorem Best.step {slots : List InputCacheSlot} {prompt : List Input} {now : Int} {best : BestSlot}
    (h : Best slots prompt now best) (s : InputCacheSlot) :
    Best (slots ++ [s]) prompt now (better prompt best (s, slots.length)) := by
  -- the longest one first, then the oldest one
  have hlonger : ∀ best' : BestSlot, best' = (if best.longest < (countCommonPrefix s.inputs prompt : Int) then
      { best with longest := countCommonPrefix s.inputs prompt, longestSlot := some slots.length } else best) →
      (∀ i, best'.longestSlot = some i → ∃ slot, FirstLongest (slots ++ [s]) prompt i slot ∧
        best'.longest = countCommonPrefix slot.inputs prompt) ∧
      best'.longestSlot ≠ none ∧ best'.oldest = best.oldest ∧ best'.oldestSlot = best.oldestSlot := by
    rintro best' rfl
    split
    · rename_i hlt
      refine ⟨fun i hi => ?_, nofun, rfl, rfl⟩
      obtain rfl := Option.some.inj hi
      refine ⟨s, firstLongest_last fun t ht => ?_, rfl⟩
      cases hl : best.longestSlot with
      | none =>
        rw [(h.empty hl).1] at ht
        cases ht
      | some i =>
        obtain ⟨slot, hslot, hlen⟩ := h.longest i hl
        obtain ⟨j, hj⟩ := List.getElem?_of_mem ht
        have := (hslot.2 j t hj).1
        omega
    · rename_i hge
      refine ⟨fun i hi => ?_, fun hnone => ?_, rfl, rfl⟩
      · obtain ⟨slot, hslot, hlen⟩ := h.longest i hi
        exact ⟨slot, hslot.snoc (by omega), hlen⟩
      · have := (h.empty hnone).2
        omega
  unfold better
  dsimp only
  obtain ⟨hlongest, hne, hclock, hold⟩ := hlonger _ rfl
  generalize (if best.longest < (countCommonPrefix s.inputs prompt : Int) then
      { best with longest := countCommonPrefix s.inputs prompt, longestSlot := some slots.length } else best) = best'
    at hlongest hne hclock hold
  have hall : (∀ slot ∈ slots ++ [s], ¬ (slot.inUse = false ∧ slot.lastUsed < now)) ↔
      best.oldestSlot = none ∧ ¬ (s.inUse = false ∧ s.lastUsed < now) := by
    rw [List.forall_mem_append, List.forall_mem_singleton, h.oldest]
  split
  · rename_i hcond
    refine ⟨hlongest, fun hnone => absurd hnone hne, iff_of_false nofun fun hno => ?_, nofun⟩
    obtain ⟨hnone, hs⟩ := hall.mp hno
    rw [hclock, h.clock hnone] at hcond
    exact hs ⟨by simpa using hcond.2, hcond.1⟩
  · rename_i hcond
    refine ⟨hlongest, fun hnone => absurd hnone hne, ?_, fun hnone => by rw [hclock, h.clock (hold ▸ hnone)]⟩
    rw [hall, hold, iff_self_and]
    intro hnone hs
    rw [hclock, h.clock hnone] at hcond
    exact hcond ⟨hs.2, by simpa using hs.1⟩

theorem best_foldl (slots : List InputCacheSlot) (prompt : List Input) (now : Int) :
    Best slots prompt now (slots.zipIdx.foldl (better prompt) { oldest := now }) := by
  induction slots using List.reverseRecOn with
  | nil => exact ⟨nofun, fun _ => ⟨rfl, rfl⟩, by simp, fun _ => rfl⟩
  | append_singleton slots s ih =>
    rw [List.zipIdx_append, List.foldl_append]
    have := ih.step s
    simpa using this

/-! ## The choice -/

theorem Offers.matches {c : InputCache} {prompt : List Input} {i : Nat} {n : Int} (h : Offers c prompt i n) :
    Matches c prompt i n := by
  obtain ⟨⟨slot, hslot, -, hn⟩, h0⟩ := h
  have := countCommonPrefix_le_left slot.inputs prompt
  exact ⟨slot, hslot, h0, by omega, fun p hp => countCommonPrefix_same (by omega)⟩

theorem FirstLongest.unique {slots : List InputCacheSlot} {prompt : List Input} {i j : Nat} {s t : InputCacheSlot}
    (h : FirstLongest slots prompt i s) (h' : FirstLongest slots prompt j t) : s = t := by
  have hij : i = j := by
    rcases Nat.lt_trichotomy i j with hlt | heq | hgt
    · have h1 := (h'.2 i s h.1).2 hlt
      have h2 := (h.2 j t h'.1).1
      omega
    · exact heq
    · have h1 := (h.2 j t h'.1).2 hgt
      have h2 := (h'.2 i s h.1).1
      omega
  have hs := h.1
  rw [hij, h'.1, Option.some.injEq] at hs
  exact hs.symm

/-- For several users a free slot is found, or a slot that is nil is read. -/
theorem findBestCacheSlot_cases (c : InputCache) (prompt : List Input) (now : Int) :
    (¬ Answerable c prompt now ∧ c.findBestCacheSlot prompt now = none) ∨
      (Answerable c prompt now ∧ ∃ c' i n, c.findBestCacheSlot prompt now = some (c', .ok (i, n)) ∧ FreeSlot c i ∧
        Offers c' prompt i n) := by
  have hbest := best_foldl c.slots prompt now
  have hfound : Found c prompt (c.slots.zipIdx.foldl (better prompt) { oldest := now }) :=
    better_foldl (mem_zipIdx_slots c) ⟨nofun, nofun⟩
  unfold findBestCacheSlot
  dsimp only
  generalize c.slots.zipIdx.foldl (better prompt) { oldest := now } = best at hbest hfound
  cases hl : best.longestSlot with
  | none =>
    obtain ⟨hnil, -⟩ := hbest.empty hl
    refine .inl ⟨?_, rfl⟩
    rintro (⟨i, slot, h, -⟩ | ⟨slot, h, -⟩)
    · have := h.1
      rw [hnil] at this
      cases this
    · rw [hnil] at h
      cases h
  | some i =>
    obtain ⟨src, hsrc, hlen⟩ := hbest.longest i hl
    simp only [Option.bind_some, hsrc.1, Option.map_some]
    by_cases hwhole : best.longest = src.inputs.length ∧ ¬ src.inUse = true
    · rw [if_pos hwhole]
      have hfree : src.inUse = false := by simpa using hwhole.2
      exact .inr ⟨.inl ⟨i, src, hsrc, hfree, by omega⟩, c, i, _, rfl, ⟨src, hsrc.1, hfree⟩,
        ⟨src, hsrc.1, hfree, by omega⟩, by omega⟩
    · rw [if_neg hwhole]
      cases ho : best.oldestSlot with
      | none =>
        refine .inl ⟨?_, rfl⟩
        rintro (⟨j, slot, h, hfree, hcount⟩ | ⟨slot, h, hold⟩)
        · obtain rfl := hsrc.unique h
          exact hwhole ⟨by omega, by simp [hfree]⟩
        · exact hbest.oldest.mp ho slot h hold
      | some j =>
        obtain ⟨dst, hdst, hfree⟩ := hfound.oldest j ho
        simp only [Option.bind_some, hdst, Option.map_some, hfree, Bool.false_eq_true, if_false]
        refine .inr ⟨.inr ?_, _, j, _, rfl, ⟨dst, hdst, hfree⟩, fork_offers hsrc.1 hdst hfree hlen⟩
        by_contra hno
        have : best.oldestSlot = none := hbest.oldest.mpr fun slot hslot h => hno ⟨slot, hslot, h⟩
        rw [ho] at this
        cases this

/-- For one user a free slot is found, unless all are in use. -/
theorem findLongestCacheSlot_cases (c : InputCache) (prompt : List Input) :
    (AllBusy c ∧ c.findLongestCacheSlot prompt = .error .noSlots) ∨
      (¬ AllBusy c ∧ ∃ i n, c.findLongestCacheSlot prompt = .ok (i, n) ∧ Offers c prompt i n) := by
  have hnone : (c.slots.zipIdx.foldl (longer prompt) (-1, none)).2 = none ↔
      (none : Option Nat) = none ∧ ∀ e ∈ c.slots.zipIdx, e.1.inUse = true := longer_none c.slots.zipIdx fun _ => rfl
  have hbusy : (∀ e ∈ c.slots.zipIdx, e.1.inUse = true) ↔ AllBusy c := by
    rw [AllBusy, ← List.zipIdx_map_fst 0 c.slots, List.forall_mem_map]
    simp
  have hoffers := fun i n => @findLongestCacheSlot_offers c prompt i n
  rw [hbusy, eq_self, true_and] at hnone
  unfold findLongestCacheSlot at hoffers ⊢
  generalize c.slots.zipIdx.foldl (longer prompt) (-1, none) = best at hnone hoffers
  obtain ⟨longest, longestSlot⟩ := best
  cases longestSlot with
  | none => exact .inl ⟨hnone.mp rfl, rfl⟩
  | some i => exact .inr ⟨fun h => (nomatch hnone.mpr h), i, longest, rfl, hoffers i longest rfl⟩

/-- What is done with the slot fails by an error of the cache only, or returns the slot. -/
theorem trimSlot_result {c c' : InputCache} {i : Nat} {slot : InputCacheSlot} {prompt : List Input} {numPast : Int}
    {fails : Nat → Nat → Nat → Bool} {res : Except InputCacheError (Nat × List Input)}
    (h : c.trimSlot i slot prompt numPast fails = some (c', res)) :
    (∃ rest, res = .ok (i, rest)) ∨ ∃ err, res = .error (.cache err) := by
  have hsplit : ∀ {c₁ : InputCache} {n : Int}, c₁.splitPrompt i prompt n = some (c', res) → ∃ rest, res = .ok (i, rest) := by
    intro c₁ n hs
    unfold splitPrompt at hs
    split at hs
    · cases hs
    · obtain ⟨-, rfl⟩ := Prod.mk.inj (Option.some.inj hs)
      exact ⟨_, rfl⟩
  unfold trimSlot at h
  dsimp only at h
  split at h
  · exact .inl (hsplit h)
  · split at h
    · rename_i err _
      obtain ⟨-, rfl⟩ := Prod.mk.inj (Option.some.inj h)
      exact .inr ⟨err, rfl⟩
    · exact .inl (hsplit h)

theorem loadCacheSlot_error {c c₁ : InputCache} {prompt : List Input} {now : Int} {err : InputCacheError}
    (h : c.findCacheSlot prompt now = some (c₁, .error err)) (cachePrompt : Bool) (used : Int)
    (fails : Nat → Nat → Nat → Bool) : c.loadCacheSlot prompt cachePrompt now used fails = some (c₁, .error err) := by
  unfold loadCacheSlot
  rw [h]

theorem loadCacheSlot_ok {c c₁ c' : InputCache} {prompt : List Input} {now : Int} {i : Nat} {n : Int}
    (h : c.findCacheSlot prompt now = some (c₁, .ok (i, n))) {cachePrompt : Bool} {used : Int}
    {fails : Nat → Nat → Nat → Bool} {res : Except InputCacheError (Nat × List Input)}
    (hl : c.loadCacheSlot prompt cachePrompt now used fails = some (c', res)) :
    (∃ rest, res = .ok (i, rest)) ∨ ∃ err, res = .error (.cache err) := by
  unfold loadCacheSlot at hl
  rw [h] at hl
  dsimp only at hl
  split at hl
  · cases hl
  · exact trimSlot_result hl

theorem choosesRight_error {c c₁ : InputCache} {prompt : List Input} {now : Int}
    (h : c.findCacheSlot prompt now = some (c₁, .error .noSlots)) (hbusy : AllBusy c) : ChoosesRight c prompt now := by
  refine ⟨by simp [h], fun c' i n hf => ?_, fun cachePrompt used fails => ?_, fun cachePrompt used fails c' i rest hl => ?_⟩
  · rw [h] at hf
    cases hf
  · exact iff_of_true ⟨c₁, loadCacheSlot_error h ..⟩ hbusy
  · rw [loadCacheSlot_error h] at hl
    cases hl

theorem choosesRight_ok {c c₁ : InputCache} {prompt : List Input} {now : Int} {i : Nat} {n : Int}
    (h : c.findCacheSlot prompt now = some (c₁, .ok (i, n))) (hfree : FreeSlot c i) (hoffers : Offers c₁ prompt i n) :
    ChoosesRight c prompt now := by
  refine ⟨by simp [h], fun c' j m hf => ?_, fun cachePrompt used fails => ?_, fun cachePrompt used fails c' j rest hl => ?_⟩
  · rw [h, Option.some.injEq, Prod.mk.injEq, Except.ok.injEq, Prod.mk.injEq] at hf
    obtain ⟨rfl, rfl, rfl⟩ := hf
    exact ⟨hfree, hoffers.matches⟩
  · refine iff_of_false ?_ fun hbusy => ?_
    · rintro ⟨c', hl⟩
      rcases loadCacheSlot_ok h hl with ⟨rest, hres⟩ | ⟨err, hres⟩
      · cases hres
      · cases hres
    · obtain ⟨slot, hslot, huse⟩ := hfree
      have := hbusy slot (List.mem_of_getElem? hslot)
      rw [huse] at this
      cases this
  · rcases loadCacheSlot_ok h hl with ⟨rest', hres⟩ | ⟨err, hres⟩
    · obtain ⟨rfl, rfl⟩ := Prod.mk.inj (Except.ok.inj hres)
      exact ⟨c₁, n, h⟩
    · cases hres

/-- The choice is right for one user, and for several users exactly if the slot with the longest prefix is free and has
nothing else, or a free slot was used before the search. -/
theorem choosesRight_iff (c : InputCache) (prompt : List Input) (now : Int) :
    ChoosesRight c prompt now ↔ (c.multiUserCache = true → Answerable c prompt now) := by
  by_cases hmulti : c.multiUserCache = true
  · have hfind : c.findCacheSlot prompt now = c.findBestCacheSlot prompt now := if_pos hmulti
    simp only [hmulti, true_imp_iff]
    rcases findBestCacheSlot_cases c prompt now with ⟨hno, hnone⟩ | ⟨hyes, c', i, n, hok, hfree, hoffers⟩
    · exact iff_of_false (fun h => h.total (hfind.trans hnone)) hno
    · exact iff_of_true (choosesRight_ok (hfind.trans hok) hfree hoffers) hyes
  · have hfind : c.findCacheSlot prompt now = some (c, c.findLongestCacheSlot prompt) := if_neg hmulti
    refine iff_of_true ?_ fun h => absurd h hmulti
    rcases findLongestCacheSlot_cases c prompt with ⟨hbusy, herr⟩ | ⟨-, i, n, hok, hoffers⟩
    · exact choosesRight_error (hfind.trans (by rw [herr])) hbusy
    · obtain ⟨slot, hslot, huse, -⟩ := hoffers.slot
      exact choosesRight_ok (hfind.trans (by rw [hok])) ⟨slot, hslot, huse⟩ hoffers

/-- Two users, and both slots in use: the oldest slot that is free is nil. -/
theorem busySlots_none : AllBusy ⟨8, [{ id := 0, inUse := true }, { id := 1, inUse := true }], true, .newCausalCache true⟩ ∧
    ¬ ChoosesRight ⟨8, [{ id := 0, inUse := true }, { id := 1, inUse := true }], true, .newCausalCache true⟩
      [{ token := 1 }] 5 := by
  refine ⟨by simp [AllBusy], fun h => h.total ?_⟩
  decide

end InputCache

end Xdragon.Runner
