import Xdragon.Lib.Links
import Xdragon.Tokenizer.Merges

/-!
# The symbols that are left

The loop over the pairs merges the symbols like rounds over a list do, whatever waits in the heap.
-/

namespace Xdragon.Tokenizer

open Xdragon.Lib (Heap Links Waiting WeakOrder Round Merged mergeNeighbours)
open Xdragon.Lib.Links (IsPair Accepts Queued Finds)

def links (merges : List Merge) : Links Char where
  tok i := (symbolAt merges i).runes
  next i := (symbolAt merges i).n
  prev i := (symbolAt merges i).p

/-- The symbols that were not merged into others. -/
def symbols (merges : List Merge) : List (List Char) := (merges.map (·.runes)).filter (· ≠ [])

/-! ## Lists of symbols -/

section
variable {merges : List Merge}

@[simp] theorem links_tok (i : Nat) : (links merges).tok i = (symbolAt merges i).runes := rfl
@[simp] theorem links_next (i : Nat) : (links merges).next i = (symbolAt merges i).n := rfl
@[simp] theorem links_prev (i : Nat) : (links merges).prev i = (symbolAt merges i).p := rfl

theorem texts_links : (links merges).texts 0 merges.length = symbols merges := by
  have hmap : (List.range' 0 merges.length).map (links merges).tok = merges.map (·.runes) := by
    apply List.ext_getElem
    · simp
    · intro i hi hi'
      rw [List.getElem_map, List.getElem_map, List.getElem_range', Nat.zero_add, Nat.one_mul]
      exact congrArg Merge.runes (symbolAt_eq _ _ (by simpa using hi'))
  rw [Links.texts, hmap, symbols]

theorem initial_links (runes : List Char) : (links (initialMerges runes)).Initial (runes.map fun r => [r]) := by
  have hlen : (initialMerges runes).length = runes.length := by simp [initialMerges]
  constructor
  · intro i hi
    rw [List.length_map] at hi
    rw [links_tok, symbolAt_initial hi, List.getElem_map]
  · intro i hi
    rw [List.length_map] at hi
    rw [links_next, symbolAt_initial hi]
  · intro i hi
    rw [List.length_map] at hi
    rw [links_prev, symbolAt_initial hi]
  · intro i hi
    rw [List.length_map] at hi
    rw [links_tok, symbolAt_of_le _ _ (by omega)]

theorem same_mergePair {a b : Nat} (ha : a < merges.length) (hb : b < merges.length) :
    ((links merges).merge a b).Same (links (mergePair merges a b)) merges.length := by
  constructor
  · intro i
    by_cases hi : i < merges.length
    · exact (mergePair_runes hi).symm
    · have hlive : (symbolAt (mergePair merges a b) i).runes = [] := by rw [symbolAt_of_le _ _ (by simpa using hi)]
      have hdead : (symbolAt merges i).runes = [] := by rw [symbolAt_of_le _ _ (by omega)]
      simp only [links, Links.merge]
      rw [hlive, hdead, if_neg (by omega), if_neg (by omega)]
  · intro i
    by_cases hi : i < merges.length
    · exact (mergePair_n hi).symm
    · simp only [links, Links.merge]
      rw [symbolAt_of_le _ i (by omega), symbolAt_of_le (mergePair merges a b) i (by simpa using hi), if_neg (by omega)]
  · intro i hi
    exact (mergePair_p hi).symm

end

/-! ## Pairings -/

/-- Each pair has the key of the symbols that it was found for, and every two symbols with a key are found. -/
structure Pairing.Exact {π K : Type} (pairing : Pairing π) (key : List Char → List Char → Option K) (rank : π → K)
    (Found : π → List Char → List Char → Prop) : Prop where
  found : ∀ merges a b pair, pairing.pairwise merges a b = some pair → (pairing.a pair : Int) = a ∧ pairing.b pair = b ∧
    b < merges.length ∧ Found pair (symbolAt merges (pairing.a pair)).runes (symbolAt merges b).runes
  complete : ∀ merges (a b : Nat), b < merges.length → ∀ x ∈ key (symbolAt merges a).runes (symbolAt merges b).runes,
    ∃ pair, pairing.pairwise merges a b = some pair ∧ rank pair = x
  current : ∀ pair l r x, Found pair l r → (pairing.current pair l (r ++ x) = true ↔ x = [] ∧ key l r = some (rank pair))

section
variable {π K : Type} {pairing : Pairing π} {key : List Char → List Char → Option K} {rank : π → K}
  {Found : π → List Char → List Char → Prop}

def Pairing.waiting (pairing : Pairing π) (rank : π → K) (Found : π → List Char → List Char → Prop) : Waiting Char K π where
  a := pairing.a
  b := pairing.b
  rank
  Found
  Current pair l r := pairing.current pair l r = true

@[simp] theorem waiting_a (pair : π) : (pairing.waiting rank Found).a pair = pairing.a pair := rfl
@[simp] theorem waiting_b (pair : π) : (pairing.waiting rank Found).b pair = pairing.b pair := rfl
@[simp] theorem waiting_rank (pair : π) : (pairing.waiting rank Found).rank pair = rank pair := rfl

theorem Pairing.Exact.lawful (h : pairing.Exact key rank Found) : (pairing.waiting rank Found).Lawful key :=
  fun pair l r x hfound => h.current pair l r x hfound

theorem accepts_iff (merges : List Merge) (pair : π) : Accepts (pairing.waiting rank Found) (links merges) pair ↔
    ¬ ((symbolAt merges (pairing.a pair)).runes = [] ∨ (symbolAt merges (pairing.b pair)).runes = [] ∨
      pairing.current pair (symbolAt merges (pairing.a pair)).runes (symbolAt merges (pairing.b pair)).runes = false) := by
  rw [not_or, not_or, Bool.not_eq_false]
  rfl

variable {less : π → π → Bool} {heap : Heap π less} {ts : List (List Char)} {merges : List Merge}

/-- Pairs of neighbours are found. -/
theorem Pairing.Exact.finds (h : pairing.Exact key rank Found) (hlen : merges.length = ts.length) :
    Finds (pairing.waiting rank Found) key (links merges) ts (pairing.pairwise merges) where
  negative i j hi := by
    rw [Option.eq_none_iff_forall_ne_some]
    intro q hq
    have := (h.found _ _ _ _ hq).1
    omega
  pair i hi q hfind := by
    obtain ⟨ha, hb, hlt, hfound⟩ := h.found _ _ _ _ hfind
    obtain rfl : pairing.a q = i := by omega
    exact ⟨rfl, hi, hb.symm, by rw [waiting_b, hb, ← hlen]; exact hlt, by rw [waiting_b, hb]; exact hfound⟩
  complete i _ hn x hx := h.complete merges i _ (hlen ▸ hn) x hx

/-- All neighbours with a key are in the heap at first. -/
theorem queued_initial (h : pairing.Exact key rank Found) (runes : List Char) :
    Queued (pairing.waiting rank Found) key (links (initialMerges runes)) (runes.map fun r => [r])
      (heap.items (heap.pushAll ((List.range (runes.length - 1)).map fun (i : Nat) =>
        pairing.pairwise (initialMerges runes) i (i + 1)) heap.empty)) := by
  refine Queued.initial (initial_links runes) (by simp) (h.finds (by simp [initialMerges])) ?_
  intro q
  simp [heap.mem_pushAll, heap.items_empty]

/-- All neighbours with a key are in the heap after a merge. -/
theorem queued_mergePair (h : pairing.Exact key rank Found) (hlen : merges.length = ts.length) {items : List π} {pair : π}
    {rest : heap.State} (hq : Queued (pairing.waiting rank Found) key (links merges) ts items)
    (hitems : ∀ q, q ∈ items ↔ q = pair ∨ q ∈ heap.items rest)
    (hpair : IsPair (pairing.waiting rank Found) (links merges) ts pair) :
    Queued (pairing.waiting rank Found) key (links (mergePair merges (pairing.a pair) (pairing.b pair))) ts
      (heap.items (pushPairs pairing heap (mergePair merges (pairing.a pair) (pairing.b pair)) (pairing.a pair) rest)) := by
  have hsame := same_mergePair (lt_of_runes hpair.1) (hlen ▸ hpair.2.2.1)
  refine hq.merge hitems hpair (hlen ▸ hsame) (h.finds (by simpa using hlen)) fun q => ?_
  rw [pushPairs, heap.mem_pushAll, or_comm]
  simp [eq_comm]

/-! ## Runs of the loop -/

theorem mergeLoop_end {pairs : heap.State} (hpop : heap.pop pairs = none) : mergeLoop pairing heap merges pairs = merges := by
  rw [mergeLoop, hpop]

theorem mergeLoop_skip {pairs rest : heap.State} {pair : π} (hpop : heap.pop pairs = some (pair, rest))
    (hskip : ¬ Accepts (pairing.waiting rank Found) (links merges) pair) :
    mergeLoop pairing heap merges pairs = mergeLoop pairing heap merges rest := by
  rw [accepts_iff, not_not] at hskip
  conv_lhs => rw [mergeLoop, hpop]
  dsimp only
  rw [dif_pos hskip]

theorem mergeLoop_merge {pairs rest : heap.State} {pair : π} (hpop : heap.pop pairs = some (pair, rest))
    (haccept : Accepts (pairing.waiting rank Found) (links merges) pair) :
    mergeLoop pairing heap merges pairs = mergeLoop pairing heap (mergePair merges (pairing.a pair) (pairing.b pair))
      (pushPairs pairing heap (mergePair merges (pairing.a pair) (pairing.b pair)) (pairing.a pair) rest) := by
  rw [accepts_iff] at haccept
  conv_lhs => rw [mergeLoop, hpop]
  dsimp only
  rw [dif_neg haccept]

/-- What is popped is merged if it is a pair of neighbours with its key, and skipped if not. -/
theorem queued_pop (h : pairing.Exact key rank Found) (hlen : merges.length = ts.length) {pairs rest : heap.State} {pair : π}
    (hq : Queued (pairing.waiting rank Found) key (links merges) ts (heap.items pairs))
    (hpop : heap.pop pairs = some (pair, rest)) :
    (¬ Accepts (pairing.waiting rank Found) (links merges) pair →
      Queued (pairing.waiting rank Found) key (links merges) ts (heap.items rest)) ∧
    (Accepts (pairing.waiting rank Found) (links merges) pair →
      IsPair (pairing.waiting rank Found) (links merges) ts pair ∧
      key (symbolAt merges (pairing.a pair)).runes (symbolAt merges (pairing.b pair)).runes = some (rank pair) ∧
      Queued (pairing.waiting rank Found) key (links (mergePair merges (pairing.a pair) (pairing.b pair))) ts
        (heap.items (pushPairs pairing heap (mergePair merges (pairing.a pair) (pairing.b pair)) (pairing.a pair) rest))) := by
  have hitems : ∀ q, q ∈ heap.items pairs ↔ q = pair ∨ q ∈ heap.items rest := fun q => heap.mem_pop hpop
  constructor
  · intro hskip
    exact hq.skip h.lawful hitems hskip
  · intro haccept
    have hwas := hq.pairs pair ((hitems pair).mpr (.inl rfl))
    obtain ⟨hpair, hkey⟩ := (hwas.accepts_iff h.lawful hq.sound).mp haccept
    exact ⟨hpair, hkey, queued_mergePair h hlen hq hitems hpair⟩

theorem least_pop (hless : WeakOrder less) {pairs rest : heap.State} {pair : π} (hpop : heap.pop pairs = some (pair, rest)) :
    ∀ q ∈ heap.items pairs, less q pair = false := by
  intro q hq
  rcases (heap.mem_pop hpop).mp hq with rfl | hq
  · exact hless.irrefl q
  · exact heap.pop_least hless hpop q hq

theorem symbols_of_length (hlen : merges.length = ts.length) : (links merges).texts 0 ts.length = symbols merges :=
  hlen ▸ texts_links

theorem symbols_mergePair (hlen : merges.length = ts.length) {pair : π}
    (hpair : IsPair (pairing.waiting rank Found) (links merges) ts pair) :
    ((links merges).merge (pairing.a pair) (pairing.b pair)).texts 0 ts.length =
      symbols (mergePair merges (pairing.a pair) (pairing.b pair)) := by
  have hsame := same_mergePair (lt_of_runes hpair.1) (hlen ▸ hpair.2.2.1)
  rw [← @symbols_of_length ts _ (by simpa using hlen)]
  exact Links.texts_congr fun j _ _ => hsame.tok j

variable {lessKey : K → K → Bool}

/-- A loop whose heap pops the first pair of a least rank does what the rounds at the first neighbours do. -/
theorem mergeLoop_leftmost (h : pairing.Exact key rank Found) (hless : WeakOrder less)
    (horder : ∀ e e', less e' e = false → lessKey (rank e') (rank e) = false ∧
      (pairing.a e' < pairing.a e → lessKey (rank e) (rank e') = true)) (hlen : merges.length = ts.length)
    {pairs : heap.State} (hq : Queued (pairing.waiting rank Found) key (links merges) ts (heap.items pairs)) :
    symbols (mergeLoop pairing heap merges pairs) = mergeNeighbours key lessKey (symbols merges) := by
  induction merges, pairs using mergeLoop.induct pairing heap with
  | case1 merges pairs hpop =>
    rw [heap.pop_eq_none.mp hpop] at hq
    rw [mergeLoop_end hpop, ← symbols_of_length hlen, Lib.mergeNeighbours_of_merged hq.merged]
  | case2 merges pairs pair rest hpop left right hskip ih =>
    have hno := fun haccept => (@accepts_iff _ _ _ rank Found merges pair).mp haccept hskip
    rw [mergeLoop_skip hpop hno]
    exact ih hlen ((queued_pop h hlen hq hpop).1 hno)
  | case3 merges pairs pair rest hpop left right hskip ih =>
    have haccept := (@accepts_iff _ _ _ rank Found merges pair).mpr hskip
    obtain ⟨hpair, hkey, hnext⟩ := (queued_pop h hlen hq hpop).2 haccept
    have hleast := least_pop hless hpop
    have hround := @Queued.leftmost _ _ _ _ _ _ _ _ _ lessKey hq (fun q hmem => (horder pair q (hleast q hmem)).1)
      (fun q hmem => (horder pair q (hleast q hmem)).2) hpair hkey
    rw [mergeLoop_merge hpop haccept, ih (by simpa using hlen) hnext, ← symbols_of_length hlen, hround]
    exact congrArg _ (symbols_mergePair hlen hpair).symm

/-- A loop whose heap pops some pair of a least rank goes through rounds, up to their end. -/
theorem mergeLoop_rounds (h : pairing.Exact key rank Found) (hless : WeakOrder less)
    (horder : ∀ e e', less e' e = false → lessKey (rank e') (rank e) = false) (hlen : merges.length = ts.length)
    {pairs : heap.State} (hq : Queued (pairing.waiting rank Found) key (links merges) ts (heap.items pairs)) :
    Relation.ReflTransGen (Round key lessKey) (symbols merges) (symbols (mergeLoop pairing heap merges pairs)) ∧
      Merged key (symbols (mergeLoop pairing heap merges pairs)) := by
  induction merges, pairs using mergeLoop.induct pairing heap with
  | case1 merges pairs hpop =>
    rw [heap.pop_eq_none.mp hpop] at hq
    rw [mergeLoop_end hpop]
    exact ⟨.refl, symbols_of_length hlen ▸ hq.merged⟩
  | case2 merges pairs pair rest hpop left right hskip ih =>
    have hno := fun haccept => (@accepts_iff _ _ _ rank Found merges pair).mp haccept hskip
    rw [mergeLoop_skip hpop hno]
    exact ih hlen ((queued_pop h hlen hq hpop).1 hno)
  | case3 merges pairs pair rest hpop left right hskip ih =>
    have haccept := (@accepts_iff _ _ _ rank Found merges pair).mpr hskip
    obtain ⟨hpair, hkey, hnext⟩ := (queued_pop h hlen hq hpop).2 haccept
    have hleast := least_pop hless hpop
    have hround := @Queued.round _ _ _ _ _ _ _ _ _ lessKey hq (fun q hmem => horder pair q (hleast q hmem)) hpair hkey
    rw [mergeLoop_merge hpop haccept]
    obtain ⟨hrun, hend⟩ := ih (by simpa using hlen) hnext
    refine ⟨.head ?_ hrun, hend⟩
    rw [← symbols_of_length hlen]
    exact symbols_mergePair hlen hpair ▸ hround

theorem symbols_initial (runes : List Char) : symbols (initialMerges runes) = runes.map fun r => [r] := by
  have hlen : (initialMerges runes).length = (runes.map fun r => [r]).length := by simp [initialMerges]
  rw [← symbols_of_length hlen]
  exact (initial_links runes).texts (by simp)

theorem mergeAll_leftmost (h : pairing.Exact key rank Found) (hless : WeakOrder less)
    (horder : ∀ e e', less e' e = false → lessKey (rank e') (rank e) = false ∧
      (pairing.a e' < pairing.a e → lessKey (rank e) (rank e') = true)) (runes : List Char) :
    symbols (mergeAll pairing heap runes) = mergeNeighbours key lessKey (runes.map fun r => [r]) := by
  rw [← symbols_initial]
  exact mergeLoop_leftmost h hless horder (by simp [initialMerges]) (queued_initial h runes)

theorem mergeAll_rounds (h : pairing.Exact key rank Found) (hless : WeakOrder less)
    (horder : ∀ e e', less e' e = false → lessKey (rank e') (rank e) = false) (runes : List Char) :
    Relation.ReflTransGen (Round key lessKey) (runes.map fun r => [r]) (symbols (mergeAll pairing heap runes)) ∧
      Merged key (symbols (mergeAll pairing heap runes)) := by
  rw [← symbols_initial]
  exact mergeLoop_rounds h hless horder (by simp [initialMerges]) (queued_initial h runes)

end

end Xdragon.Tokenizer
