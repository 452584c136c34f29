import Xdragon.Tokenizer.BytePair
import Xdragon.Tokenizer.Symbols
import Xdragon.XTokenizer.BpeMerge

/-!
# The two byte pair encoders

The loop of one encoder merges some pair of minimal rank each time, the loop of the other one the first such pair.
Every order of the rounds is a run of the first loop for some heap.
-/

namespace Xdragon.Tokenizer

open Xdragon.Lib (Bytes ascii Heap toRunes ofRunes ofRunes_append WeakOrder Round Merged LeastKey mergeNeighbours scriptedHeap exists_least
  pop_scripted pushAll_scripted listHeap)
open Xdragon.Lib.Links (IsPair Accepts Queued)

deriving instance DecidableEq for Pair

/-! ## Runs that are told what to pop -/

section
variable {π K : Type} {pairing : Pairing π} {key : List Char → List Char → Option K} {rank : π → K}
  {Found : π → List Char → List Char → Prop} {less : π → π → Bool} {lessKey : K → K → Bool} {ts : List (List Char)}

theorem mem_erase_or [DecidableEq π] {items : List π} {e : π} (he : e ∈ items) (q : π) : q ∈ items ↔ q = e ∨ q ∈ items.erase e := by
  rw [(List.perm_cons_erase he).mem_iff, List.mem_cons]

/-- A pair in the queue that is no pair of neighbours of a least key is skipped. -/
theorem not_accepts {items : List π} {e : π} {merges : List Merge} (h : pairing.Exact key rank Found)
    (hlen : merges.length = ts.length) (hq : Queued (pairing.waiting rank Found) key (links merges) ts items) (he : e ∈ items)
    (hkeys : ∀ l r, [l, r] <:+: symbols merges → key l r ≠ some (rank e)) :
    ¬ Accepts (pairing.waiting rank Found) (links merges) e := by
  intro haccept
  obtain ⟨hpair, hkey⟩ := ((hq.pairs e he).accepts_iff h.lawful hq.sound).mp haccept
  refine hkeys _ _ ?_ hkey
  have hrow := (Lib.Links.texts_merge hq.sound hpair.1 hpair.2.1 hpair.2.2.1).1
  rw [symbols_of_length hlen] at hrow
  exact ⟨_, _, by rw [hrow, List.append_assoc]; rfl⟩

/-- The queue of a scripted heap after a merge. -/
theorem pushPairs_scripted [DecidableEq π] (s : List π) (merges : List Merge) (a : Nat) (items script : List π) :
    pushPairs pairing (scriptedHeap less s) merges a (items, script) =
      ([pairing.pairwise merges (symbolAt merges a).p a, pairing.pairwise merges a (symbolAt merges a).n].reduceOption.reverse ++
        items, script) :=
  pushAll_scripted s _ items script

/-- Every order of the rounds is a run of the loop. -/
theorem exists_script [DecidableEq π] (h : pairing.Exact key rank Found) (hless : WeakOrder less)
    (horder : ∀ e e', less e' e = lessKey (rank e') (rank e)) (merges : List Merge) (items : List π)
    (us : List (List Char)) (hlen : merges.length = ts.length)
    (hq : Queued (pairing.waiting rank Found) key (links merges) ts items)
    (hrun : Relation.ReflTransGen (Round key lessKey) (symbols merges) us) (hend : Merged key us) :
    ∃ script, ∀ s, symbols (mergeLoop pairing (scriptedHeap less s) merges (items, script)) = us := by
  induction hn : 2 * alive merges + items.length using Nat.strong_induction_on generalizing merges items with
  | _ n ih =>
    by_cases hempty : items = []
    · subst hempty
      have hmerged : Merged key (symbols merges) := symbols_of_length hlen ▸ hq.merged
      rcases hrun.cases_head with rfl | ⟨v, hround, -⟩
      · exact ⟨[], fun s => congrArg symbols (mergeLoop_end rfl)⟩
      · exact absurd hround hmerged.not_round
    obtain ⟨e₀, he₀, hleast₀⟩ := exists_least hless hempty
    have hskipped (e : π) (he : e ∈ items) (hleast : ∀ q ∈ items, less q e = false)
        (hno : ¬ Accepts (pairing.waiting rank Found) (links merges) e) :
        ∃ script, ∀ s, symbols (mergeLoop pairing (scriptedHeap less s) merges (items, script)) = us := by
      have hshort := List.length_erase_of_mem he
      have hpos := List.length_pos_of_mem he
      obtain ⟨script, hscript⟩ := ih (2 * alive merges + (items.erase e).length) (by omega) merges (items.erase e) hlen
        (hq.skip h.lawful (mem_erase_or he) hno) hrun rfl
      refine ⟨e :: script, fun s => ?_⟩
      rw [mergeLoop_skip (pop_scripted s he hleast) hno]
      exact hscript s
    rcases hrun.cases_head with rfl | ⟨v, hround, hrest⟩
    · -- the rounds are over, and what is left in the queue is outdated
      exact hskipped e₀ he₀ hleast₀ (not_accepts h hlen hq he₀ fun l r hin => by simp [hend l r hin])
    generalize hrow : symbols merges = row at hround
    rcases hround with @⟨before, behind, l, r, x, hkey, hleastkey⟩
    have hrow' := hrow
    rw [← symbols_of_length hlen] at hrow'
    obtain ⟨i, hi, hin, rfl, rfl, rfl⟩ := hq.sound.place (Nat.le_refl _) hrow'
    obtain ⟨e, he, rfl, hpair, rfl⟩ := hq.complete i hi hin x hkey
    by_cases hlt : less e₀ e = true
    · -- a pair of a smaller rank is outdated
      refine hskipped e₀ he₀ hleast₀ (not_accepts h hlen hq he₀ fun l r hin hkey' => ?_)
      have hnot : lessKey (rank e₀) (rank e) = false := hleastkey l r (hrow ▸ hin) _ hkey'
      rw [← horder, hlt] at hnot
      cases hnot
    · have hleast : ∀ q ∈ items, less q e = false := fun q hmem =>
        hless.trans_not _ _ _ (hleast₀ q hmem) (Bool.eq_false_iff.mpr hlt)
      have hnext := hpair.2.1
      rw [hnext] at hkey hrow' hrest
      have haccept := ((hq.pairs e he).accepts_iff h.lawful hq.sound).mpr ⟨hpair, hkey⟩
      -- the pair is merged as it is in the round
      obtain ⟨hbefore, hafter⟩ := Lib.Links.texts_merge hq.sound hi hnext hpair.2.2.1
      rw [hrow', List.append_cancel_left_eq, List.cons.injEq, List.cons.injEq] at hbefore
      rw [← hbefore.2.2] at hafter
      have hmerged := (symbols_mergePair hlen hpair).symm.trans hafter
      have hqueued := @queued_mergePair _ _ _ _ _ _ _ (scriptedHeap less []) _ _ h hlen _ _ (items.erase e, []) hq
        (mem_erase_or he) hpair
      rw [pushPairs_scripted] at hqueued
      have halive := @alive_mergePair merges (pairing.a e) (pairing.b e) hi haccept.2.1
      have hshort := List.length_erase_of_mem he
      have hpos := List.length_pos_of_mem he
      generalize hpushed : [pairing.pairwise (mergePair merges (pairing.a e) (pairing.b e))
        (symbolAt (mergePair merges (pairing.a e) (pairing.b e)) (pairing.a e)).p (pairing.a e),
        pairing.pairwise (mergePair merges (pairing.a e) (pairing.b e)) (pairing.a e)
          (symbolAt (mergePair merges (pairing.a e) (pairing.b e)) (pairing.a e)).n] = found at hqueued
      have hfound : found.reduceOption.length ≤ 2 := by
        rw [← hpushed]
        exact List.reduceOption_length_le _
      obtain ⟨script, hscript⟩ := ih
        (2 * alive (mergePair merges (pairing.a e) (pairing.b e)) + (found.reduceOption.reverse ++ items.erase e).length)
        (by rw [List.length_append, List.length_reverse]; omega) _ _ (by simpa using hlen) hqueued (by rw [hmerged]; exact hrest) rfl
      refine ⟨e :: script, fun s => ?_⟩
      rw [mergeLoop_merge (pop_scripted s he hleast) haccept, pushPairs_scripted, hpushed]
      exact hscript s

end

/-! ## The two encoders -/

namespace BytePairEncoding

variable {S : Type} (bpe : BytePairEncoding S)

/-- The rank of two neighbours whose concatenation is in the vocabulary. -/
def rank (left right : List Char) : Option Int :=
  if bpe.vocab.merge (ofRunes left) (ofRunes right) < 0 ∨ bpe.vocab.encode (ofRunes left ++ ofRunes right) < 0 then none
  else some (bpe.vocab.merge (ofRunes left) (ofRunes right))

/-- What the pairs were found for is told by their values. -/
theorem exact_pairing : bpe.pairing.Exact bpe.rank Pair.rank fun pair left right =>
    pair.value = ofRunes left ++ ofRunes right ∧ pair.rank = bpe.vocab.merge (ofRunes left) (ofRunes right) ∧ 0 ≤ pair.rank where
  found merges a b pair h := by
    have h' : bpe.pairwise merges a b = some pair := h
    unfold pairwise at h'
    split_ifs at h' with hout
    dsimp only at h'
    split_ifs at h' with hrank
    obtain rfl := Option.some.inj h'
    rw [not_or] at hout
    exact ⟨Int.toNat_of_nonneg (by omega), rfl, by omega, rfl, rfl, by simpa using hrank⟩
  complete merges a b hb x hx := by
    unfold rank at hx
    split_ifs at hx with hnone
    · cases hx
    obtain rfl := Option.some.inj hx
    rw [not_or] at hnone
    have hfind : bpe.pairwise merges a b = some {
        a := a
        b := b
        rank := bpe.vocab.merge (ofRunes (symbolAt merges a).runes) (ofRunes (symbolAt merges b).runes)
        value := ofRunes (symbolAt merges a).runes ++ ofRunes (symbolAt merges b).runes } := by
      unfold pairwise
      rw [if_neg (by omega)]
      dsimp only
      rw [Int.toNat_natCast, if_neg hnone.1]
    exact ⟨_, hfind, rfl⟩
  current pair l r x hfound := by
    obtain ⟨hvalue, hrank, hpos⟩ := hfound
    have hcurrent : bpe.pairing.current pair l (r ++ x) = true ↔
        ofRunes l ++ ofRunes (r ++ x) = pair.value ∧ ¬ bpe.vocab.encode pair.value < 0 := decide_eq_true_iff
    have hnil : ofRunes l ++ ofRunes (r ++ x) = pair.value ↔ x = [] := by
      rw [hvalue, ofRunes_append, ← List.append_assoc, List.append_right_eq_self]
      constructor
      · intro h
        rw [← Lib.toRunes_ofRunes x, h]
        rfl
      · rintro rfl
        rfl
    have hkey : bpe.rank l r = some pair.rank ↔ ¬ bpe.vocab.encode pair.value < 0 := by
      unfold rank
      rw [← hrank, ← hvalue]
      split_ifs with hnone
      · rcases hnone with hneg | hneg
        · omega
        · simp [hneg]
      · rw [not_or] at hnone
        simp [hnone.2]
    rw [hcurrent, hnil, hkey]

theorem weakOrder_pair : WeakOrder lessPair := by
  constructor
  · intro i j
    simp only [lessPair, decide_eq_true_eq, decide_eq_false_iff_not]
    omega
  · intro i j k
    simp only [lessPair, decide_eq_false_iff_not]
    omega

/-- The maps of the other tokenizer for the same vocabulary and merges. -/
def maps : XTokenizer.Vocabulary where
  reverse s := if bpe.vocab.encode s < 0 then none else some (bpe.vocab.encode s)
  merges key := (lastIndex key bpe.vocab.merges).map fun (i : Nat) => (i : Int)

theorem rank_maps (l r : List Char) : XTokenizer.rank bpe.maps (ofRunes l) (ofRunes r) = bpe.rank l r := by
  unfold XTokenizer.rank rank Vocabulary.merge
  simp only [maps]
  rcases lastIndex (ofRunes l ++ ascii " " ++ ofRunes r) bpe.vocab.merges with - | i
  · simp
  · by_cases hneg : bpe.vocab.encode (ofRunes l ++ ofRunes r) < 0
    · simp [hneg]
    · have hpos : ¬ ((i : Int) < 0) := by omega
      simp [hneg, hpos]

/-- What the other encoder leaves, rune by rune. -/
theorem tokens_eq (xheap : Heap XTokenizer.BpePair XTokenizer.lessBpePair) (text : Bytes) :
    XTokenizer.tokens (XTokenizer.mergedNodes bpe.maps xheap text) =
      (mergeNeighbours bpe.rank (fun x y => decide (x < y)) ((toRunes text).map fun r => [r])).map ofRunes := by
  have hrunes : (toRunes text).map String.utf8EncodeChar = ((toRunes text).map fun r => [r]).map ofRunes := by
    simp [ofRunes]
  rw [XTokenizer.tokens_mergedNodes, hrunes, Lib.mergeNeighbours_map ofRunes_append bpe.rank_maps]

/-- A token of two equal ones. -/
def doubled : BytePairEncoding Int where
  vocab := {
    values := [ascii "a", ascii "aa"]
    types := [tokenTypeNormal, tokenTypeNormal]
    merges := [ascii "a a"] }
  regexps := []

end BytePairEncoding

end Xdragon.Tokenizer
