import Xdragon.Tokenizer.SentencePiece
import Xdragon.Tokenizer.Symbols

/-!
# Pieces of the highest score

The queue of the encoder merges the same symbols as rounds over the pieces do, the first pair of a highest score each
time. Its entries are told to be outdated by their size alone.
-/

namespace Xdragon.Tokenizer

open Xdragon.Lib (Heap Bytes ascii toRunes ofRunes ofRunes_append WeakOrder mergeNeighbours)

/-- Scores without NaN, of which different ones may be equal. -/
structure TotalScores (S : Type) [LT S] [DecidableLT S] [BEq S] : Prop where
  asymm : ∀ x y : S, x < y → ¬ y < x
  trans_not : ∀ x y z : S, ¬ x < y → ¬ y < z → ¬ x < z
  beq_iff : ∀ x y : S, (x == y) = true ↔ ¬ x < y ∧ ¬ y < x

section
variable {S : Type} [LT S] [DecidableLT S] [BEq S]

/-- The queue orders its entries by their scores, and those of equal scores by their places. -/
theorem weakOrder_candidate (hS : TotalScores S) : WeakOrder (lessCandidate (S := S)) := by
  have hless : ∀ i j : Candidate S, lessCandidate i j = true ↔ j.score < i.score ∨ (¬ i.score < j.score ∧ i.a < j.a) := by
    intro i j
    simp only [lessCandidate, Bool.or_eq_true, Bool.and_eq_true, decide_eq_true_eq, hS.beq_iff]
    tauto
  constructor
  · intro i j hij
    rw [Bool.eq_false_iff, Ne, hless, not_or]
    rcases (hless i j).mp hij with hlt | ⟨hnot, ha⟩
    · exact ⟨hS.asymm _ _ hlt, fun h => h.1 hlt⟩
    · exact ⟨hnot, fun h => by omega⟩
  · intro i j k hij hjk
    rw [Bool.eq_false_iff, Ne, hless, not_or] at hij hjk ⊢
    refine ⟨hS.trans_not _ _ _ hjk.1 hij.1, ?_⟩
    rintro ⟨hik, ha⟩
    have hsame : ¬ i.score < j.score := hS.trans_not _ _ _ hik hjk.1
    have hsame' : ¬ j.score < k.score := hS.trans_not _ _ _ hij.1 hik
    have hij' : ¬ i.a < j.a := fun h => hij.2 ⟨hsame, h⟩
    have hjk' : ¬ j.a < k.a := fun h => hjk.2 ⟨hsame', h⟩
    omega

end

namespace SentencePiece

variable {S : Type} (spm : SentencePiece S)

/-- The score of two pieces whose concatenation is a token. -/
def score (left right : List Char) : Option S :=
  let id := spm.vocab.encode (ofRunes left ++ ofRunes right)
  if id ≥ 0 then spm.vocab.scores[id.toNat]? else none

theorem pairwise_eq (merges : List Merge) (a : Int) (b : Nat) : spm.pairwise merges a b =
    if a < 0 ∨ b ≥ merges.length then none
    else (spm.score (symbolAt merges a.toNat).runes (symbolAt merges b).runes).map fun score =>
      { a := a.toNat, b, score
        size := (ofRunes (symbolAt merges a.toNat).runes).length + (ofRunes (symbolAt merges b).runes).length } := by
  unfold pairwise score
  dsimp only
  split_ifs <;> rfl

/-- What the entries of the queue were found for is told by their size. -/
theorem exact_pairing : spm.pairing.Exact spm.score Candidate.score fun pair left right =>
    pair.size = (ofRunes left).length + (ofRunes right).length ∧ spm.score left right = some pair.score where
  found merges a b pair h := by
    have h' : spm.pairwise merges a b = some pair := h
    rw [pairwise_eq] at h'
    split_ifs at h' with hout
    obtain ⟨score, hscore, rfl⟩ := Option.map_eq_some_iff.mp h'
    rw [not_or] at hout
    exact ⟨Int.toNat_of_nonneg (by omega), rfl, by omega, rfl, hscore⟩
  complete merges a b hb x hx := by
    have hfind := spm.pairwise_eq merges a b
    rw [if_neg (by omega), Int.toNat_natCast, hx] at hfind
    exact ⟨_, hfind, rfl⟩
  current pair l r x hfound := by
    obtain ⟨hsize, hscore⟩ := hfound
    have hcurrent : spm.pairing.current pair l (r ++ x) = true ↔
        (ofRunes l).length + (ofRunes (r ++ x)).length = pair.size := decide_eq_true_iff
    rw [hcurrent, hsize, ofRunes_append, List.length_append]
    constructor
    · intro hlen
      refine ⟨?_, hscore⟩
      have hnil : ofRunes x = [] := List.length_eq_zero_iff.mp (by omega)
      rw [← Lib.toRunes_ofRunes x, hnil]
      rfl
    · rintro ⟨rfl, -⟩
      simp

variable [LT S] [DecidableLT S] [BEq S] (heap : Heap (Candidate S) lessCandidate)

/-- The pieces that are left are those of the rounds that merge the first of the pairs of the highest score. -/
theorem merges_highest (hS : TotalScores S) (text : Bytes) : symbols (mergeAll spm.pairing heap (toRunes text)) =
    mergeNeighbours spm.score (fun x y => decide (y < x)) ((toRunes text).map fun r => [r]) := by
  apply mergeAll_leftmost spm.exact_pairing (weakOrder_candidate hS)
  intro e e' hle
  simp only [lessCandidate, Bool.or_eq_false_iff, Bool.and_eq_false_iff, decide_eq_false_iff_not] at hle
  refine ⟨decide_eq_false hle.1, ?_⟩
  intro ha
  rw [decide_eq_true_iff]
  by_contra hnot
  have hbeq : (e'.score == e.score) = true := (hS.beq_iff _ _).mpr ⟨hnot, hle.1⟩
  rcases hle.2 with hne | hplace
  · rw [hne] at hbeq
    cases hbeq
  · exact hplace ha

theorem totalScores_int : TotalScores Int where
  asymm x y h := by omega
  trans_not x y z hxy hyz := by omega
  beq_iff x y := by
    rw [beq_iff_eq]
    omega

/-- Two pairs that overlap. -/
def overlapping : SentencePiece Int where
  vocab := {
    values := [ascii "a", ascii "b", ascii "ab", ascii "ba"]
    types := [tokenTypeNormal, tokenTypeNormal, tokenTypeNormal, tokenTypeNormal]
    scores := [0, 0, 1, 1]
    merges_lt := no_merges }
  scores_length := rfl

/-- Of two pairs of equal scores, the left one is merged. -/
theorem overlapping_highest : symbols (mergeAll overlapping.pairing (Lib.listHeap lessCandidate) (toRunes (ascii "aba"))) =
      mergeNeighbours overlapping.score (fun x y => decide (y < x)) ((toRunes (ascii "aba")).map fun r => [r]) ∧
    mergeNeighbours overlapping.score (fun x y => decide (y < x)) ((toRunes (ascii "aba")).map fun r => [r]) =
      [['a', 'b'], ['a']] :=
  ⟨overlapping.merges_highest _ totalScores_int (ascii "aba"), by decide +kernel⟩

end SentencePiece

end Xdragon.Tokenizer
