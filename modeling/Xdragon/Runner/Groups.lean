import Xdragon.Runner.Batches

/-!
# Groups of inputs

The inputs of a group have to be in the same batch. The functions that cut a list of inputs are `NewSequence`,
`LoadCacheSlot`, `ShiftCacheSlot` and `forwardBatch`. `LoadCacheSlot` does not look at groups, and neither does
`ShiftCacheSlot` at the inputs that it keeps.
-/

open Xdragon.Lib

namespace Xdragon.Runner.Pipeline

open Xdragon.Kvcache

/-! ## Cuts between groups -/

theorem WellFormed.whole {l : List Input} (h : WellFormed l) : Whole l l.length := by
  intro j x hx hj
  by_cases h0 : x.sameBatch = 0
  · omega
  · obtain ⟨y, hy, -⟩ := h j x hx x.sameBatch (by omega) (Nat.le_refl _)
    exact (List.getElem?_eq_some_iff.mp hy).1

theorem WellFormed.right {a b : List Input} (h : WellFormed (a ++ b)) : WellFormed b := by
  intro j x hx n h0 hn
  obtain ⟨y, hy, hs⟩ := h (a.length + j) x (by rw [List.getElem?_append_right (by omega), Nat.add_sub_cancel_left]; exact hx)
    n h0 hn
  rw [List.getElem?_append_right (by omega), Nat.add_assoc, Nat.add_sub_cancel_left] at hy
  exact ⟨y, hy, hs⟩

theorem WellFormed.drop {l : List Input} (h : WellFormed l) (k : Nat) : WellFormed (l.drop k) := by
  rw [← List.take_append_drop k l] at h
  exact h.right

theorem WellFormed.take {l : List Input} (h : WellFormed l) {k : Nat} (hk : Whole l k) : WellFormed (l.take k) := by
  intro j x hx n h0 hn
  rw [List.getElem?_take] at hx
  split at hx
  · rename_i hj
    obtain ⟨y, hy, hs⟩ := h j x hx n h0 hn
    have := hk j x hx hj
    refine ⟨y, ?_, hs⟩
    rw [List.getElem?_take, if_pos (by omega)]
    exact hy
  · cases hx

theorem WellFormed.append {a b : List Input} (ha : WellFormed a) (hb : WellFormed b) : WellFormed (a ++ b) := by
  intro j x hx n h0 hn
  rw [List.getElem?_append] at hx
  split at hx
  · obtain ⟨y, hy, hs⟩ := ha j x hx n h0 hn
    have := (List.getElem?_eq_some_iff.mp hy).1
    exact ⟨y, by rw [List.getElem?_append_left this]; exact hy, hs⟩
  · rename_i hj
    obtain ⟨y, hy, hs⟩ := hb _ x hx n h0 hn
    refine ⟨y, ?_, hs⟩
    rw [List.getElem?_append_right (by omega), ← hy]
    congr 1
    omega

theorem wellFormed_single {x : Input} (hx : x.sameBatch = 0) : WellFormed [x] := by
  intro j y hy n h0 hn
  rw [List.getElem?_singleton] at hy
  split at hy
  · cases hy
    omega
  · cases hy

/-- A cut depends on what is before it only. -/
theorem Whole.congr {l m : List Input} {k : Nat} (h : Whole l k) (hlm : l.take k = m.take k) : Whole m k := by
  intro j x hx hj
  refine h j x ?_ hj
  have := congrArg (fun l : List Input => l[j]?) hlm
  simp only [List.getElem?_take, if_pos hj] at this
  rw [this, hx]

theorem Whole.left {a b : List Input} {k : Nat} (h : Whole (a ++ b) k) (hk : k ≤ a.length) : Whole a k :=
  h.congr (List.take_append_of_le_length hk)

theorem Whole.append_right {a : List Input} {k : Nat} (h : Whole a k) (hk : k ≤ a.length) (b : List Input) :
    Whole (a ++ b) k :=
  h.congr (List.take_append_of_le_length hk).symm

theorem Whole.append {a b : List Input} {k : Nat} (ha : WellFormed a) (hb : Whole b k) :
    Whole (a ++ b) (a.length + k) := by
  intro j x hx hj
  rw [List.getElem?_append] at hx
  split at hx
  · rename_i hlt
    have := ha.whole j x hx hlt
    omega
  · have := hb _ x hx (by omega)
    omega

/-- A part of the inputs is dropped, from one cut to another. -/
structure Cut (l : List Input) (a b : Nat) : Prop where
  le : a ≤ b
  length : b ≤ l.length
  first : Whole l a
  second : Whole l b

theorem Cut.wellFormed {l : List Input} {a b : Nat} (h : Cut l a b) (hl : WellFormed l) :
    WellFormed (l.take a ++ l.drop b) :=
  (hl.take h.first).append (hl.drop b)

theorem Cut.length_take {l : List Input} {a b : Nat} (h : Cut l a b) : (l.take a).length = a := by
  rw [List.length_take]
  have := h.le
  have := h.length
  omega

/-- Up to the first cut nothing changes. -/
theorem Cut.whole_left {l : List Input} {a b k : Nat} (h : Cut l a b) (hk : Whole l k) (hle : k ≤ a) :
    Whole (l.take a ++ l.drop b) k := by
  refine hk.congr ?_
  rw [List.take_append_of_le_length (by rw [h.length_take]; exact hle), List.take_take, Nat.min_eq_left hle]

theorem Cut.whole_right {l : List Input} {a b k : Nat} (h : Cut l a b) (hl : WellFormed l) (hk : Whole l k)
    (hle : b ≤ k) : Whole (l.take a ++ l.drop b) (a + (k - b)) := by
  have hdrop : Whole (l.drop b) (k - b) := by
    intro j x hx hj
    rw [List.getElem?_drop] at hx
    have := hk (b + j) x hx (by omega)
    omega
  have := Whole.append (hl.take h.first) hdrop
  rwa [h.length_take] at this

theorem whole_of_drop {l : List Input} {a d : Nat} (ha : Whole l a) (hd : Whole (l.drop a) d) : Whole l (a + d) := by
  intro j x hx hj
  by_cases hja : j < a
  · have := ha j x hx hja
    omega
  · have := hd (j - a) x (by rw [List.getElem?_drop, show a + (j - a) = j by omega]; exact hx) (by omega)
    omega

/-! ## Shifting -/

theorem members_zero (l : List Input) : Members l 0 0 :=
  ⟨Nat.zero_le _, fun _ _ _ _ h => (nomatch h), fun _ _ _ h => (nomatch h)⟩

theorem Members.whole {l : List Input} {i : Nat} (h : Members l i 0) : Whole l i := h.before

/-- A discard ends between two groups. -/
theorem discardLoop_whole (targetFree sameBatch free : Int) {l rest : List Input} (hl : WellFormed l) {i : Nat}
    (hrest : rest = l.drop i) (h : Members l i sameBatch.toNat) :
    Whole l (InputCache.discardLoop targetFree rest sameBatch free i).toNat := by
  induction rest generalizing i sameBatch free with
  | nil =>
    have hle := List.drop_eq_nil_iff.mp hrest.symm
    have h0 : sameBatch.toNat = 0 := by
      have := h.le
      omega
    rw [h0] at h
    exact h.whole
  | cons x rest ih =>
    have hi : l[i]? = some x := by
      rw [← List.head?_drop, ← hrest]
      rfl
    have hdrop : rest = l.drop (i + 1) := by
      rw [← List.tail_drop, ← hrest]
      rfl
    rw [InputCache.discardLoop]
    split
    · rename_i hstop
      have h0 : sameBatch.toNat = 0 := by omega
      rw [h0] at h
      exact h.whole
    · have hnext := h.next hl hi
      refine ih _ _ hdrop ?_
      have hmax : (if 0 < x.sameBatch then (x.sameBatch : Int) else sameBatch - 1).toNat =
          max (sameBatch.toNat - 1) x.sameBatch := by
        split
        · -- an input of a group has no group of its own
          rename_i hpos
          have h0 : sameBatch.toNat = 0 := by
            by_contra hne
            have := h.plain i x hi (Nat.le_refl _) (by omega)
            omega
          omega
        · omega
      rw [hmax]
      exact hnext

theorem drops_cut {c : InputCache} {slot : InputCacheSlot} {numKeep discard : Int} (h : Drops c slot numKeep discard)
    (hwf : WellFormed slot.inputs) (hkeep : Whole slot.inputs numKeep.toNat) :
    Cut slot.inputs numKeep.toNat (numKeep + discard).toNat := by
  have h1 := h.keep
  have h2 := h.pos
  have h3 := h.le
  have hd := h.discard
  unfold InputCache.shiftDiscard at hd
  rw [if_neg (by omega), Option.some.injEq] at hd
  have hwhole := discardLoop_whole (max ((c.numCtx - numKeep).tdiv 2) 1) 0 (c.numCtx - slot.inputs.length)
    (hwf.drop numKeep.toNat) (List.drop_zero).symm (members_zero _)
  refine ⟨by omega, by omega, hkeep, ?_⟩
  have := whole_of_drop hkeep hwhole
  rw [show (numKeep + discard).toNat = numKeep.toNat + discard.toNat by omega, ← hd]
  exact this

/-! ## New sequences -/

/-- A truncated prompt starts between two groups, or has nothing left. -/
theorem moveStart_whole {numKeep : Int} {l rest : List Input} (hl : WellFormed l) {i sameBatch : Nat} {start r : Int}
    (hrest : rest = l.drop i) (h : Members l i sameBatch) (hi : (i : Int) ≤ start)
    (hr : moveStart numKeep rest i sameBatch start = .ok r) : Whole l r.toNat ∨ l.length ≤ r := by
  induction rest generalizing i sameBatch start with
  | nil =>
    cases hr
    have := List.drop_eq_nil_iff.mp hrest.symm
    exact .inr (by omega)
  | cons x rest ih =>
    have hx : l[i]? = some x := by
      rw [← List.head?_drop, ← hrest]
      rfl
    have hdrop : rest = l.drop (i + 1) := by
      rw [← List.tail_drop, ← hrest]
      rfl
    unfold moveStart at hr
    split at hr
    · rename_i hstop
      cases hr
      obtain ⟨rfl, rfl⟩ := hstop
      exact .inl h.whole
    · dsimp only at hr
      have hnext := h.next hl hx
      have hle : ((i + 1 : Nat) : Int) ≤ if start = i then start + 1 else start := by
        split <;> omega
      split at hr
      · rename_i hne
        split at hr
        · cases hr
        · have h0 : sameBatch = 0 := by
            by_contra hpos
            exact hne (h.plain i x hx (Nat.le_refl _) (by omega))
          rw [h0, show max (0 - 1) x.sameBatch = x.sameBatch by omega] at hnext
          exact ih hdrop hnext hle hr
      · rename_i hzero
        rw [not_not] at hzero
        rw [hzero, Nat.max_zero] at hnext
        exact ih hdrop hnext hle hr

theorem wellFormed_bounded {inputs : List Input} (h : WellFormed inputs) (numCtx : Int) : Bounded numCtx inputs := by
  intro j x hx
  have := h.whole j x hx (List.getElem?_eq_some_iff.mp hx).1
  omega

/-- `NewSequence` leaves all inputs, or drops a part of them. -/
theorem newSequence_cut {numCtx numKeep : Int} {inputs prompt : List Input} {params : NewSequenceParams}
    (hwf : WellFormed inputs) (h : newSequence numCtx inputs params = some (.ok (prompt, numKeep))) :
    numKeep = keepOf numCtx inputs params.numKeep ∧ (prompt = inputs ∧ inputs.length ≤ numCtx ∨
      ∃ b, Cut inputs numKeep.toNat b ∧ prompt = inputs.take numKeep.toNat ++ inputs.drop b) := by
  unfold newSequence at h
  split at h
  · cases h
  · obtain ⟨res, hres, he⟩ := Option.map_eq_some_iff.mp h
    cases res with
    | error err => cases he
    | ok prompt' =>
      cases he
      refine ⟨rfl, ?_⟩
      have hkeep : keepOf numCtx inputs params.numKeep ≤ numCtx - 1 := min_le_right _ _
      generalize keepOf numCtx inputs params.numKeep = numKeep at hres hkeep ⊢
      unfold truncateInputs at hres
      split at hres
      · rename_i hle
        cases hres
        exact .inl ⟨rfl, hle⟩
      · rename_i hlt
        split at hres
        · cases hres
        · dsimp only at hres
          split at hres
          · cases hres
          · rename_i start hstart
            split at hres
            · cases hres
            · rename_i hle
              split at hres
              · cases hres
              · rename_i h0
                cases hres
                have hs := moveStart_le hstart
                refine .inr ⟨start.toNat, ⟨by omega, by omega, fun j x hx hj => ?_, ?_⟩, rfl⟩
                · rw [moveStart_keep hstart (by omega) hx (by omega)]
                  exact hj
                · have hw := moveStart_whole hwf (List.drop_zero).symm (members_zero _) (by omega) hstart
                  exact hw.resolve_right hle

/-! ## The prefix of a prompt that is reused -/

/-- The longest prefix of the prompt in a slot. A single user has free slots only. -/
def longestPrefix (c : InputCache) (prompt : List Input) : Int :=
  (c.slots.filter fun slot => c.multiUserCache || !slot.inUse).foldl
    (fun n slot => max n (countCommonPrefix slot.inputs prompt)) 0

/-- One input is always left. -/
def reusedPrefix (c : InputCache) (prompt : List Input) : Nat :=
  if longestPrefix c prompt = prompt.length then prompt.length - 1 else (longestPrefix c prompt).toNat

theorem foldl_max (g : InputCacheSlot → Int) (slots : List InputCacheSlot) (a b : Int) :
    slots.foldl (fun n slot => max n (g slot)) (max a b) = max a (slots.foldl (fun n slot => max n (g slot)) b) := by
  induction slots generalizing b with
  | nil => rfl
  | cons slot slots ih =>
    rw [List.foldl_cons, List.foldl_cons, max_assoc]
    exact ih _

theorem longer_longest (prompt : List Input) (es : List (InputCacheSlot × Nat)) (best : Int × Option Nat) :
    (es.foldl (InputCache.longer prompt) best).1 = ((es.map (·.1)).filter fun slot => !slot.inUse).foldl
      (fun n slot => max n (countCommonPrefix slot.inputs prompt : Int)) best.1 := by
  induction es generalizing best with
  | nil => rfl
  | cons e es ih =>
    rw [List.foldl_cons, ih, List.map_cons]
    unfold InputCache.longer
    cases hu : e.1.inUse with
    | true => simp [hu]
    | false =>
      rw [List.filter_cons, hu]
      simp only [Bool.not_false, Bool.false_eq_true, if_true, if_false, List.foldl_cons]
      congr 1
      split <;> omega

theorem better_longest (prompt : List Input) (es : List (InputCacheSlot × Nat)) (best : InputCache.BestSlot) :
    (es.foldl (InputCache.better prompt) best).longest = (es.map (·.1)).foldl
      (fun n slot => max n (countCommonPrefix slot.inputs prompt : Int)) best.longest := by
  induction es generalizing best with
  | nil => rfl
  | cons e es ih =>
    rw [List.foldl_cons, ih, List.map_cons, List.foldl_cons]
    congr 1
    unfold InputCache.better
    dsimp only
    have hstep : (if best.longest < (countCommonPrefix e.1.inputs prompt : Int) then
        { best with longest := countCommonPrefix e.1.inputs prompt, longestSlot := some e.2 } else best).longest =
        max best.longest (countCommonPrefix e.1.inputs prompt) := by
      split
      · rename_i hlt
        exact (max_eq_right (le_of_lt hlt)).symm
      · rename_i hge
        exact (max_eq_left (not_lt.mp hge)).symm
    rw [← hstep]
    split <;> split <;> rfl

/-- The search finds the longest prefix. -/
theorem findCacheSlot_longest {c c' : InputCache} (h : c.Stocked) {prompt : List Input} {now : Int} {i : Nat} {n : Int}
    (hf : c.findCacheSlot prompt now = some (c', .ok (i, n))) : n = longestPrefix c prompt := by
  have h0 : 0 ≤ n := ((InputCache.findCacheSlot_spec h hf).2.2 i n rfl).1.nonneg
  have hslots : c.slots.zipIdx.map (·.1) = c.slots := by simp
  have hmax := fun slots => foldl_max (fun slot => (countCommonPrefix slot.inputs prompt : Int)) slots 0 (-1)
  unfold InputCache.findCacheSlot at hf
  unfold longestPrefix
  cases hm : c.multiUserCache with
  | true =>
    rw [hm, if_pos rfl] at hf
    unfold InputCache.findBestCacheSlot at hf
    dsimp only at hf
    have hl := better_longest prompt c.slots.zipIdx { oldest := now }
    rw [hslots] at hl
    generalize c.slots.zipIdx.foldl (InputCache.better prompt) { oldest := now } = best at hf hl
    have hn : n = best.longest := by
      split at hf
      · cases hf
      · split at hf
        · cases hf
          rfl
        · split at hf
          · cases hf
          · split at hf
            · cases hf
            · cases hf
              rfl
    have := hmax c.slots
    simp only [Bool.true_or, List.filter_true]
    rw [show max (0 : Int) (-1) = 0 by decide] at this
    rw [this, ← hl, ← hn, max_eq_right h0]
  | false =>
    rw [hm, if_neg (by simp)] at hf
    have hl := longer_longest prompt c.slots.zipIdx (-1, none)
    rw [hslots] at hl
    unfold InputCache.findLongestCacheSlot at hf
    simp only [Option.some.injEq, Prod.mk.injEq] at hf
    obtain ⟨-, hf⟩ := hf
    have hn : n = (c.slots.zipIdx.foldl (InputCache.longer prompt) (-1, none)).1 := by
      split at hf
      · cases hf
      · rename_i longest slot he
        cases hf
        rw [he]
    have := hmax (c.slots.filter fun slot => !slot.inUse)
    rw [show max (0 : Int) (-1) = 0 by decide] at this
    simp only [Bool.false_or]
    rw [this, ← hl, ← hn, max_eq_right h0]

theorem splitPrompt_rest {c c' : InputCache} {i k : Nat} {prompt rest : List Input} {numPast : Int}
    (h : c.splitPrompt i prompt numPast = some (c', .ok (k, rest))) : rest = prompt.drop numPast.toNat := by
  unfold InputCache.splitPrompt at h
  split at h
  · cases h
  · cases h
    rfl

theorem trimSlot_rest {c c' : InputCache} {i k : Nat} {slot : InputCacheSlot} {prompt rest : List Input} {numPast : Int}
    {fails : Nat → Nat → Nat → Bool} (h : c.trimSlot i slot prompt numPast fails = some (c', .ok (k, rest))) :
    rest = prompt ∨ rest = prompt.drop numPast.toNat := by
  unfold InputCache.trimSlot at h
  dsimp only at h
  split at h
  · have hrest := splitPrompt_rest h
    split at hrest
    · exact .inl hrest
    · exact .inr hrest
  · split at h
    · cases h
    · exact .inl (splitPrompt_rest h)

theorem loadCacheSlot_reused {c c' : InputCache} (h : c.Stocked) {prompt rest : List Input} {cachePrompt : Bool}
    {now used : Int} {fails : Nat → Nat → Nat → Bool} {i : Nat} (hne : prompt ≠ [])
    (hl : c.loadCacheSlot prompt cachePrompt now used fails = some (c', .ok (i, rest))) :
    rest = prompt ∨ cachePrompt = true ∧ rest = prompt.drop (reusedPrefix c prompt) := by
  unfold InputCache.loadCacheSlot at hl
  split at hl
  · cases hl
  · cases hl
  · rename_i c₁ k numPast hf
    have hlong := findCacheSlot_longest h hf
    dsimp only at hl
    split at hl
    · cases hl
    · have hrest := trimSlot_rest hl
      cases cachePrompt with
      | false =>
        have hlen : ¬ (0 : Int) = prompt.length := by
          have := List.length_pos_iff.mpr hne
          omega
        simp only [Bool.false_eq_true, if_false, if_neg hlen, Int.toNat_zero, List.drop_zero, or_self] at hrest
        exact .inl hrest
      | true =>
        refine hrest.imp_right fun hr => ⟨rfl, ?_⟩
        rw [hr, if_pos rfl, hlong]
        unfold reusedPrefix
        congr 1
        split <;> omega

namespace Server

/-! ## Runs -/

/-- All inputs of a sequence: those of its slot, those of the batch, and the others. -/
def line (s : Server) (seq : Sequence) : List Input :=
  (s.slot seq.cache).inputs ++ (seq.pendingInputs ++ seq.inputs)

/-- Every group is wholly in the slot, wholly in the batch, or wholly left. -/
structure Unsplit (s : Server) (seq : Sequence) : Prop where
  slot : Whole (s.line seq) (s.slot seq.cache).inputs.length
  pending : Whole (s.line seq) ((s.slot seq.cache).inputs.length + seq.pendingInputs.length)

/-- What holds for the groups of a sequence. -/
structure Grouped (s : Server) (seq : Sequence) : Prop where
  wellFormed : WellFormed (s.line seq)
  unsplit : Unsplit s seq
  keep : seq.shift = true → Whole (s.line seq) seq.numKeep.toNat

/-- The prompt has whole groups. -/
def PromptGrouped (_ : Server) : Event → Prop
  | .completion inputs _ _ _ _ _ => WellFormed inputs
  | _ => True

instance (s : Server) (e : Event) : Decidable (PromptGrouped s e) :=
  match e with
  | .completion inputs .. => inferInstanceAs (Decidable (WellFormed inputs))
  | .forwardBatch _ | .startCompute _ | .finishCompute .. => inferInstanceAs (Decidable True)

/-- The prompt has whole groups, its first `numKeep` inputs do not end in a group, and neither does the part of it
that a slot has. -/
def GroupsKept (s : Server) : Event → Prop
  | .completion inputs params cachePrompt _ _ _ => WellFormed inputs ∧
    (params.shift = true → inputs.length ≤ s.cache.numCtx →
      Whole inputs (keepOf s.cache.numCtx inputs params.numKeep).toNat) ∧
    (cachePrompt = true → ∀ prompt numKeep, newSequence s.cache.numCtx inputs params = some (.ok (prompt, numKeep)) →
      Whole prompt (reusedPrefix s.cache prompt))
  | _ => True

/-- What holds of a prompt, if there is one. -/
def decidableOfPrompt (p : List Input → Prop) [DecidablePred p] (res : Option (Except SequenceError (List Input × Int))) :
    Decidable (∀ prompt numKeep, res = some (.ok (prompt, numKeep)) → p prompt) :=
  match res with
  | none => .isTrue fun _ _ h => by cases h
  | some (.error _) => .isTrue fun _ _ h => by cases h
  | some (.ok out) => decidable_of_iff (p out.1) ⟨fun h _ _ heq => by cases heq; exact h, fun h => h out.1 out.2 rfl⟩

instance (s : Server) (e : Event) : Decidable (GroupsKept s e) :=
  match e with
  | .completion inputs params _ .. =>
    have := decidableOfPrompt (fun prompt => Whole prompt (reusedPrefix s.cache prompt))
      (newSequence s.cache.numCtx inputs params)
    inferInstanceAs (Decidable (_ ∧ (_ → _ → _) ∧ (_ → _)))
  | .forwardBatch _ | .startCompute _ | .finishCompute .. => inferInstanceAs (Decidable True)

theorem promptFits_of_groupsKept (s : Server) (e : Event) (h : GroupsKept s e) : PromptFits s e := by
  cases e with
  | completion inputs => exact wellFormed_bounded h.1 _
  | _ => trivial

theorem length_line (s : Server) (seq : Sequence) : (s.line seq).length =
    (s.slot seq.cache).inputs.length + seq.pendingInputs.length + seq.inputs.length := by
  simp only [line, List.length_append]
  omega

theorem grouped_completion {s s' : Server} {inputs : List Input} {params : NewSequenceParams} {cachePrompt : Bool}
    {now used : Int} {fails : Nat → Nat → Nat → Bool} (ho : Orderly s)
    (hok : GroupsKept s (.completion inputs params cachePrompt now used fails)) {prompt rest : List Input} {numKeep : Int}
    {i k : Nat} {seq : Sequence} (hnew : newSequence s.cache.numCtx inputs params = some (.ok (prompt, numKeep)))
    (hl : s.cache.loadCacheSlot prompt cachePrompt now used fails = some (s'.cache, .ok (k, rest)))
    (hadd : Added s prompt numKeep i seq s') (hinputs : seq.inputs = rest) (hshift : seq.shift = params.shift) :
    Grouped s' seq ∧ ∃ a b, Cut inputs a b ∧ s'.line seq = inputs.take a ++ inputs.drop b := by
  obtain ⟨hwf, hkeep, hreuse⟩ := hok
  obtain ⟨hpend, -, -, hnk⟩ := hadd.fresh
  obtain ⟨hnumKeep, hcases⟩ := newSequence_cut hwf hnew
  have hline : s'.line seq = prompt := by rw [line, hpend, List.nil_append, hadd.slot]
  have hcut : ∃ a b, Cut inputs a b ∧ prompt = inputs.take a ++ inputs.drop b := by
    obtain ⟨rfl, -⟩ | ⟨b, hcut, hp⟩ := hcases
    · exact ⟨0, 0, ⟨Nat.le_refl _, Nat.zero_le _, whole_zero _, whole_zero _⟩, by simp⟩
    · exact ⟨_, b, hcut, hp⟩
  obtain ⟨a, b, hc, hp⟩ := hcut
  have hpwf : WellFormed prompt := hp ▸ hc.wellFormed hwf
  -- the slot has the prefix that `LoadCacheSlot` found, or nothing
  have hslot : Whole prompt (s'.slot seq.cache).inputs.length := by
    have hlen := congrArg List.length hadd.slot
    rw [List.length_append, hinputs] at hlen
    have hne : prompt ≠ [] := by
      rintro rfl
      have := List.length_pos_iff.mpr hadd.rest
      rw [hinputs] at this
      rw [List.length_nil] at hlen
      omega
    have hst : s.cache.Stocked := ho.agrees.stocked
    obtain hr | ⟨htrue, hr⟩ := loadCacheSlot_reused hst hne hl
    · rw [hr] at hlen
      rw [show (s'.slot seq.cache).inputs.length = 0 by omega]
      exact whole_zero _
    · have hw := hreuse htrue prompt numKeep hnew
      rw [hr, List.length_drop] at hlen
      have hpos := List.length_pos_iff.mpr hadd.rest
      rw [hinputs, hr, List.length_drop] at hpos
      rw [show (s'.slot seq.cache).inputs.length = reusedPrefix s.cache prompt by omega]
      exact hw
  refine ⟨⟨hline ▸ hpwf, ⟨hline ▸ hslot, ?_⟩, fun hsh => ?_⟩, a, b, hc, hline.trans hp⟩
  · rw [hline, hpend, List.length_nil, Nat.add_zero]
    exact hslot
  · rw [hline, hnk, hnumKeep]
    obtain ⟨rfl, hle⟩ | ⟨b', hcut, hp'⟩ := hcases
    · exact hkeep (hshift ▸ hsh) hle
    · rw [hp', ← hnumKeep]
      exact hcut.whole_left hcut.first (Nat.le_refl _)

/-- The groups of a sequence depend on its inputs. -/
theorem Grouped.congr {s s' : Server} {seq seq' : Sequence} (h : Grouped s seq)
    (hslot : (s'.slot seq'.cache).inputs = (s.slot seq.cache).inputs) (hpend : seq'.pendingInputs = seq.pendingInputs)
    (hinputs : seq'.inputs = seq.inputs) (hshift : seq'.shift = seq.shift) (hkeep : seq'.numKeep = seq.numKeep) :
    Grouped s' seq' := by
  have hline : s'.line seq' = s.line seq := by rw [line, line, hslot, hpend, hinputs]
  refine ⟨hline ▸ h.wellFormed, ⟨?_, ?_⟩, ?_⟩
  · rw [hline, hslot]
    exact h.unsplit.slot
  · rw [hline, hslot, hpend]
    exact h.unsplit.pending
  · rw [hline, hshift, hkeep]
    exact h.keep

/-- A shift drops whole groups. -/
theorem grouped_shift {s : Server} {seq : Sequence} (hg : Grouped s seq) (hpend : seq.pendingInputs = []) {x : Input}
    (hshift : seq.shift = true) {discard : Int} (hd : Drops s.cache (s.slot seq.cache) seq.numKeep discard)
    (hx : seq.inputs = [x]) :
    ∃ a b, Cut (s.line seq) a b ∧ a = seq.numKeep.toNat ∧ b ≤ (s.slot seq.cache).inputs.length ∧
      InputCache.withoutDiscarded (s.slot seq.cache).inputs seq.numKeep discard ++ [x] =
        (s.line seq).take a ++ (s.line seq).drop b ∧
      (InputCache.withoutDiscarded (s.slot seq.cache).inputs seq.numKeep discard).length =
        a + ((s.slot seq.cache).inputs.length - b) := by
  have h1 := hd.keep
  have h2 := hd.pos
  have h3 := hd.le
  have hline : s.line seq = (s.slot seq.cache).inputs ++ [x] := by rw [line, hpend, hx]; rfl
  have hslot : WellFormed (s.slot seq.cache).inputs := by
    have := hg.wellFormed.take hg.unsplit.slot
    rwa [line, List.take_left] at this
  have hcut := drops_cut hd hslot ((hline ▸ hg.keep hshift).left (by omega))
  refine ⟨seq.numKeep.toNat, (seq.numKeep + discard).toNat, ⟨hcut.le, ?_, hg.keep hshift, ?_⟩, rfl, hcut.length, ?_, ?_⟩
  · rw [hline, List.length_append]
    have := hcut.length
    omega
  · rw [hline]
    exact hcut.second.append_right hcut.length _
  · rw [hline, InputCache.withoutDiscarded, List.take_append_of_le_length (by omega),
      List.drop_append_of_le_length hcut.length, List.append_assoc]
  · rw [InputCache.withoutDiscarded, List.length_append, hcut.length_take, List.length_drop]

/-- What `forwardBatch` leaves of the inputs. -/
theorem grouped_outcome {s : Server} {f : Forward} {i : Nat} {seq seq' : Sequence} (hg : Grouped s seq)
    (hpend : seq.pendingInputs = []) (hout : Forward.Outcome s f i seq) (hi : f.server.sequence i = some seq') :
    Grouped f.server seq' ∧ seq'.ref = seq.ref ∧ ∃ a b, Cut (s.line seq) a b ∧
      b ≤ (s.slot seq.cache).inputs.length ∧ f.server.line seq' = (s.line seq).take a ++ (s.line seq).drop b := by
  cases hout with
  | takes t iBatch ht hwhole href hslot hseq =>
    rw [hi, Option.some.injEq] at hseq
    subst hseq
    have hline : f.server.line { seq with
        iBatch := iBatch, pendingInputs := seq.inputs.take t, inputs := seq.inputs.drop t } = s.line seq := by
      simp only [line, hslot, hpend, List.take_append_drop, List.nil_append]
    refine ⟨⟨hline ▸ hg.wellFormed, ⟨?_, ?_⟩, ?_⟩, rfl, 0, 0,
      ⟨Nat.le_refl _, Nat.zero_le _, whole_zero _, whole_zero _⟩, Nat.zero_le _, by rw [hline]; simp⟩
    · rw [hline]
      dsimp only
      rw [hslot]
      exact hg.unsplit.slot
    · rw [hline]
      dsimp only
      rw [hslot, List.length_take, Nat.min_eq_left ht]
      have hwf : WellFormed (s.slot seq.cache).inputs := by
        have := hg.wellFormed.take hg.unsplit.slot
        rwa [line, List.take_left] at this
      have hin : WellFormed seq.inputs := by
        have := hg.wellFormed.right
        rwa [hpend, List.nil_append] at this
      rw [line, hpend, List.nil_append]
      exact Whole.append hwf (hwhole hin)
    · rw [hline]
      exact hg.keep
  | removed hgone =>
    rw [hgone] at hi
    cases hi
  | shifted x iBatch discard hshift hx hfull hdrops href hslot hseq =>
    rw [hi, Option.some.injEq] at hseq
    subst hseq
    obtain ⟨a, b, hcut, ha, hb, hlist, hlen⟩ := grouped_shift hg hpend hshift hdrops hx
    have hline : f.server.line { seq with iBatch := iBatch, pendingInputs := [x], inputs := [] } =
        (s.line seq).take a ++ (s.line seq).drop b := by
      rw [← hlist, line, hslot]
      rfl
    refine ⟨⟨hline ▸ hcut.wellFormed hg.wellFormed, ⟨?_, ?_⟩, fun _ => ?_⟩, rfl, a, b, hcut, hb, hline⟩
    · rw [hline]
      dsimp only
      rw [hslot, hlen]
      exact hcut.whole_right hg.wellFormed hg.unsplit.slot hb
    · have hend := (hcut.wellFormed hg.wellFormed).whole
      rw [← hline, length_line] at hend
      exact hend
    · rw [hline, ← ha]
      exact hcut.whole_left hcut.first (Nat.le_refl _)
  | reprocess x discard hshift hx hfull hdrops href hslot hseq =>
    rw [hi, Option.some.injEq] at hseq
    subst hseq
    obtain ⟨a, b, hcut, ha, hb, hlist, hlen⟩ := grouped_shift hg hpend hshift hdrops hx
    have hline : f.server.line { seq with
        inputs := InputCache.withoutDiscarded (s.slot seq.cache).inputs seq.numKeep discard ++ [x] } =
        (s.line seq).take a ++ (s.line seq).drop b := by
      rw [← hlist, line, hslot, hpend]
      rfl
    refine ⟨⟨hline ▸ hcut.wellFormed hg.wellFormed, ⟨?_, ?_⟩, fun _ => ?_⟩, rfl, a, b, hcut, hb, hline⟩
    · dsimp only
      rw [hslot]
      exact whole_zero _
    · dsimp only
      rw [hslot, hpend]
      exact whole_zero _
    · rw [hline, ← ha]
      exact hcut.whole_left hcut.first (Nat.le_refl _)

/-- A step drops a part of the inputs of a sequence that is between two groups, or a part of a new prompt, and adds
an input that is sampled. -/
inductive Kept (s : Server) (e : Event) (s' : Server) (i : Nat) (seq' : Sequence) : Prop
  | old {seq : Sequence} {a b : Nat} (new : List Input) : s.sequence i = some seq → seq'.ref = seq.ref →
    Cut (s.line seq) a b → s'.line seq' = (s.line seq).take a ++ (s.line seq).drop b ++ new → Kept s e s' i seq'
  | new {inputs : List Input} {params : NewSequenceParams} {cachePrompt : Bool} {now used : Int}
    {fails : Nat → Nat → Nat → Bool} {a b : Nat} : e = .completion inputs params cachePrompt now used fails →
    Cut inputs a b → s'.line seq' = inputs.take a ++ inputs.drop b → Kept s e s' i seq'

theorem Kept.same {s s' : Server} {e : Event} {i : Nat} {seq seq' : Sequence} (hi : s.sequence i = some seq)
    (href : seq'.ref = seq.ref) (hline : s'.line seq' = s.line seq) : Kept s e s' i seq' := by
  refine .old [] hi href (a := 0) (b := 0) ⟨Nat.le_refl _, Nat.zero_le _, whole_zero _, whole_zero _⟩ ?_
  simp [hline]

theorem grouped_started {s : Server} {b : BatchState} {tokens : Nat → Int} {st : Server × BatchState} {i : Nat}
    {seq seq' : Sequence} (hg : Grouped s seq) (hst : Started s b tokens st i seq)
    (hi : st.1.sequence i = some seq') : Grouped st.1 seq' ∧ seq'.ref = seq.ref ∧
      ∃ new, st.1.line seq' = s.line seq ++ new := by
  cases hst with
  | skipped _ hseq hslot _ =>
    rw [hi, Option.some.injEq] at hseq
    subst hseq
    refine ⟨hg.congr hslot rfl rfl rfl rfl, rfl, [], ?_⟩
    rw [line, line, hslot, List.append_nil]
  | committed _ _ hseq hslot _ =>
    rw [hi, Option.some.injEq] at hseq
    subst hseq
    have hline : st.1.line { seq with pendingInputs := [] } = s.line seq := by
      simp only [line, hslot, List.nil_append, List.append_assoc]
    have hw := hg.unsplit.pending
    refine ⟨⟨hline ▸ hg.wellFormed, ⟨?_, ?_⟩, hline ▸ hg.keep⟩, rfl, [], by rw [hline, List.append_nil]⟩
    · rw [hline]
      dsimp only
      rw [hslot, List.length_append]
      exact hw
    · rw [hline]
      dsimp only
      rw [hslot, List.length_append]
      exact hw
  | sampled _ hnil hseq hslot _ =>
    rw [hi, Option.some.injEq] at hseq
    subst hseq
    have hline : st.1.line { seq with
        pendingInputs := [], inputs := [{ token := tokens i }], sampledBy := some b.id } =
        s.line seq ++ [{ token := tokens i }] := by
      simp only [line, hslot, hnil, List.nil_append, List.append_nil, List.append_assoc]
    have hlen := length_line s seq
    rw [hnil, List.length_nil, Nat.add_zero] at hlen
    have hend : Whole (s.line seq ++ [{ token := tokens i }])
        ((s.slot seq.cache).inputs.length + seq.pendingInputs.length) := by
      rw [← hlen]
      exact hg.wellFormed.whole.append_right (Nat.le_refl _) _
    refine ⟨⟨?_, ⟨?_, ?_⟩, fun hsh => ?_⟩, rfl, _, hline⟩
    · rw [hline]
      exact hg.wellFormed.append (wellFormed_single rfl)
    · rw [hline]
      dsimp only
      rw [hslot, List.length_append]
      exact hend
    · rw [hline]
      dsimp only
      rw [hslot, List.length_append]
      exact hend
    · -- `numKeep` may be beyond the inputs
      rw [hline]
      dsimp only
      intro j x hx hj
      rw [List.getElem?_append] at hx
      split at hx
      · exact hg.keep hsh j x hx hj
      · obtain ⟨-, rfl⟩ := List.getElem?_eq_some_iff.mp hx
        simpa using hj

/-- The sequences keep whole groups in every step. -/
theorem grouped_step {s s' : Server} {e : Event} (ho : Orderly s)
    (hg : ∀ i seq, s.sequence i = some seq → Grouped s seq) (hok : GroupsKept s e) (hs : s.step e = some s') {i : Nat}
    {seq' : Sequence} (hi : s'.sequence i = some seq') : Grouped s' seq' ∧ Kept s e s' i seq' := by
  cases e with
  | completion inputs params cachePrompt now used fails =>
    obtain ⟨hc, -⟩ := completion_cases ho.agrees hs
    cases hc with
    | refused => exact ⟨hg i seq' hi, .same hi rfl rfl⟩
    | failed hslot =>
      have hsame := hslot i seq' hi
      exact ⟨(hg i seq' hi).congr (by rw [hsame]) rfl rfl rfl rfl, .same hi rfl (by rw [line, line, hsame])⟩
    | added hnew hl hadd hinputs hshift =>
      have hj := hi
      rw [hadd.sequence] at hj
      split at hj
      · cases hj
        obtain ⟨h1, a, b, h2, h3⟩ := grouped_completion ho hok hnew hl hadd hinputs hshift
        exact ⟨h1, .new rfl h2 h3⟩
      · have hsame := hadd.others i seq' hj
        exact ⟨(hg i seq' hj).congr (by rw [hsame]) rfl rfl rfl rfl, .same hj rfl (by rw [line, line, hsame])⟩
  | forwardBatch fails =>
    obtain ⟨hb, f, -, hf⟩ := forwardBatch_cases ho hs
    obtain ⟨seq, hseq, hout⟩ := hf.outcome hi
    rw [hf.sequence] at hi
    obtain ⟨h1, href, a, b, h2, -, h3⟩ := grouped_outcome (hg i seq hseq) (ho.idle hb i seq hseq) hout hi
    refine ⟨h1.congr (by rw [hf.slot]) rfl rfl rfl rfl, .old [] hseq href h2 ?_⟩
    rw [List.append_nil, ← h3, line, line, hf.slot]
  | startCompute tokens =>
    obtain ⟨b, st, -, hst⟩ := startCompute_cases ho hs
    obtain ⟨seq, hseq, hstarted⟩ := hst.started hi
    rw [hst.sequence] at hi
    obtain ⟨h1, href, new, h2⟩ := grouped_started (hg i seq hseq) hstarted hi
    refine ⟨h1.congr (by rw [hst.slot]) rfl rfl rfl rfl, .old new hseq href (a := 0) (b := 0)
      ⟨Nat.le_refl _, Nat.zero_le _, whole_zero _, whole_zero _⟩ ?_⟩
    rw [List.take_zero, List.drop_zero, List.nil_append, ← h2, line, line, hst.slot]
  | finishCompute id quit =>
    obtain ⟨b, t, -, hf⟩ := finishCompute_cases ho.agrees hs
    obtain ⟨seq, pending, n, hseq, rfl, hslot⟩ := hf.same hi
    refine ⟨(hg i seq hseq).congr (by rw [hslot]) rfl rfl rfl rfl, .same hseq rfl ?_⟩
    rw [line, line, hslot]

/-- In every run that keeps the condition, no group is split: not between the slot, the batch and the other inputs,
and not by what a step drops. The pending inputs are what a call of `forwardBatch` has in its batch. -/
theorem groups_unsplit {s : Server} (h : Reaches step GroupsKept Initial s) :
    (∀ i seq, s.sequence i = some seq → Unsplit s seq) ∧
    (∀ fails s' b i seq', s.forwardBatch fails = some s' → s'.built = some b → s'.sequence i = some seq' →
      Unsplit s' seq' ∧ inputsOf b.tokens b.batchInputs (s'.slot seq'.cache).id = seq'.pendingInputs) ∧
    ∀ e s' i seq', GroupsKept s e → s.step e = some s' → s'.sequence i = some seq' → Kept s e s' i seq' := by
  have hinv : Orderly s ∧ ∀ i seq, s.sequence i = some seq → Grouped s seq := by
    refine h.invariant (I := fun s => Orderly s ∧ ∀ i seq, s.sequence i = some seq → Grouped s seq) ?_ ?_
    · intro s hs
      refine ⟨orderly_initial hs, fun i seq hi => ?_⟩
      obtain ⟨-, -, parallel, -, -, -, -, -, hseqs, -⟩ := hs
      rw [sequence, hseqs, List.getElem?_replicate] at hi
      split at hi <;> cases hi
    · rintro s e s' ⟨ho, hg⟩ hok hs
      exact ⟨orderly_step ho (promptFits_of_groupsKept s e hok) hs, fun i seq hi => (grouped_step ho hg hok hs hi).1⟩
  refine ⟨fun i seq hi => (hinv.2 i seq hi).unsplit, fun fails s' b i seq' hs hb hi => ?_,
    fun e s' i seq' hok hs hi => (grouped_step hinv.1 hinv.2 hok hs hi).2⟩
  obtain ⟨-, f, -, hf⟩ := forwardBatch_cases hinv.1 hs
  exact ⟨(grouped_step (e := .forwardBatch fails) hinv.1 hinv.2 trivial hs hi).1.unsplit, ((batched_of_forwarded hf hb).entries i seq' hi).1⟩

/-- A text with an image: the image is a group with the marks around it. -/
def imagePrompt (hash : Nat) (question : Int) : List Input :=
  [⟨108, 0, 4⟩, ⟨255999, 0, 0⟩, ⟨0, hash, 0⟩, ⟨256000, 0, 0⟩, ⟨108, 0, 0⟩, ⟨question, 0, 0⟩]

/-- A first question is answered, and a second one comes. -/
def twoQuestions (second : List Input) : List Event :=
  [.completion (imagePrompt 1 5) {} true 1 1 fun _ _ _ => false, .forwardBatch fun _ _ _ => false,
    .startCompute fun _ => 0, .forwardBatch fun _ _ _ => false, .finishCompute 0 fun _ => false,
    .startCompute fun _ => 0, .finishCompute 1 fun _ => false, .completion second {} true 2 2 fun _ _ _ => false]

/-- The same image: its group is in the slot. -/
theorem sameImage_unsplit : ∃ s seq, Reaches step GroupsKept Initial s ∧ s.sequence 0 = some seq ∧
    (s.slot seq.cache).inputs.length = 5 ∧ Unsplit s seq := by
  let s := (exec step (idleServer true 1 16 2) (twoQuestions (imagePrompt 1 6))).get (by decide)
  have hs : Reaches step GroupsKept Initial s :=
    reaches_of_exec (Reaches.init ⟨Causal.newCausalCache true, 16, 1, false, rfl, rfl, by decide, rfl, rfl, rfl, rfl, rfl, rfl,
      rfl, rfl⟩) (by decide) (Option.some_get _).symm
  let seq := (s.sequence 0).get (by decide)
  have hseq : s.sequence 0 = some seq := (Option.some_get _).symm
  exact ⟨s, seq, hs, hseq, by decide, (groups_unsplit hs).1 0 seq hseq⟩

/-- Another image: its group begins in the slot, and the batch has only a part of the rest of it. -/
theorem otherImage_split : ∃ s seq, Reaches step PromptGrouped Initial s ∧
    s.sequence 0 = some seq ∧ s.line seq = imagePrompt 2 5 ∧ (s.slot seq.cache).inputs.length = 2 ∧
    seq.pendingInputs.length = 2 ∧ ¬ Unsplit s seq := by
  let run := twoQuestions (imagePrompt 2 5) ++ [.forwardBatch fun _ _ _ => false]
  let s := (exec step (idleServer true 1 16 2) run).get (by decide)
  have hs : Reaches step PromptGrouped Initial s :=
    reaches_of_exec (Reaches.init ⟨Causal.newCausalCache true, 16, 1, false, rfl, rfl, by decide, rfl, rfl, rfl, rfl, rfl, rfl,
      rfl, rfl⟩) (by decide) (Option.some_get _).symm
  let seq := (s.sequence 0).get (by decide)
  have hseq : s.sequence 0 = some seq := (Option.some_get _).symm
  have hline : s.line seq = imagePrompt 2 5 := by decide
  have hlen : (s.slot seq.cache).inputs.length = 2 := by decide
  refine ⟨s, seq, hs, hseq, hline, hlen, by decide, fun h => ?_⟩
  have := h.slot
  rw [hline, hlen] at this
  revert this
  decide

end Server

end Xdragon.Runner.Pipeline
