import Mathlib.Data.Finset.Card
import Xdragon.Lib.Links
import Xdragon.Lib.Utf8
import Xdragon.Lib.Wire

/-!
# The merges of the second tokenizer

The pairs of a heap are merged while the nodes keep their neighbours, and what is popped may be outdated.
-/

namespace Xdragon.XTokenizer

open Xdragon.Lib (Bytes ascii Heap toRunes ofRunes Links Waiting WeakOrder Round Merged mergeNeighbours validString listHeap)
open Xdragon.Lib.Links (IsPair Accepts Queued WasPair)

/-- The maps of the vocabulary, and the ids of the byte tokens. -/
structure Vocabulary where
  reverse : Bytes → Option Int
  merges : Bytes → Option Int
  byteTokens : UInt8 → Int := fun _ => -1

inductive TokenizerType where
  | bpe
  | sentencePiece

structure BpeMergeNode where
  prev : Int
  next : Nat
  token : Bytes

structure BpePair where
  left : Nat
  right : Nat
  rank : Int
  value : Bytes

def lessBpePair (i j : BpePair) : Bool := i.rank < j.rank || (i.rank == j.rank && i.left < j.left)

/-- Indices are in bounds where a node is read. -/
def nodeAt (nodes : List BpeMergeNode) (i : Nat) : BpeMergeNode := nodes.getD i { prev := -1, next := 0, token := [] }

def initialNodes (runes : List Char) : List BpeMergeNode :=
  runes.mapIdx fun i r => { prev := (i : Int) - 1, next := i + 1, token := String.utf8EncodeChar r }

def setToken (i : Nat) (token : Bytes) (nodes : List BpeMergeNode) : List BpeMergeNode :=
  nodes.modify i fun n => { n with token }

def setNext (i next : Nat) (nodes : List BpeMergeNode) : List BpeMergeNode := nodes.modify i fun n => { n with next }

def setPrev (i : Nat) (prev : Int) (nodes : List BpeMergeNode) : List BpeMergeNode := nodes.modify i fun n => { n with prev }

/-- The right one of two nodes is merged into the left one. -/
def mergeNodes (nodes : List BpeMergeNode) (pair : BpePair) : List BpeMergeNode :=
  let right := nodeAt nodes pair.right
  let nodes := setNext pair.left right.next (setToken pair.right [] (setToken pair.left pair.value nodes))
  if right.next < nodes.length then setPrev right.next pair.left nodes else nodes

/-- The nodes with a token. -/
def live (nodes : List BpeMergeNode) : Nat := ((Finset.range nodes.length).filter fun i => (nodeAt nodes i).token ≠ []).card

/-! ## One merge -/

section
variable {nodes : List BpeMergeNode} {pair : BpePair}

theorem nodeAt_eq {i : Nat} (h : i < nodes.length) : nodeAt nodes i = nodes[i] := by
  simp [nodeAt, List.getD_eq_getElem?_getD, h]

theorem nodeAt_of_le {i : Nat} (h : nodes.length ≤ i) : nodeAt nodes i = { prev := -1, next := 0, token := [] } := by
  simp [nodeAt, List.getD_eq_getElem?_getD, h]

theorem lt_of_token {i : Nat} (h : (nodeAt nodes i).token ≠ []) : i < nodes.length := by
  by_contra hge
  exact h (by rw [nodeAt_of_le (by omega)])

theorem nodeAt_modify (f : BpeMergeNode → BpeMergeNode) {i j : Nat} (h : j < nodes.length) :
    nodeAt (nodes.modify i f) j = if i = j then f (nodeAt nodes j) else nodeAt nodes j := by
  rw [nodeAt_eq (by simpa using h), nodeAt_eq h, List.getElem_modify]

@[simp] theorem length_setToken (i : Nat) (t : Bytes) : (setToken i t nodes).length = nodes.length := by simp [setToken]
@[simp] theorem length_setNext (i n : Nat) : (setNext i n nodes).length = nodes.length := by simp [setNext]
@[simp] theorem length_setPrev (i : Nat) (p : Int) : (setPrev i p nodes).length = nodes.length := by simp [setPrev]

@[simp] theorem length_mergeNodes : (mergeNodes nodes pair).length = nodes.length := by
  unfold mergeNodes
  dsimp only
  split_ifs <;> simp

/-- What a merge writes. -/
theorem nodeAt_mergeNodes {i : Nat} (h : i < nodes.length) : nodeAt (mergeNodes nodes pair) i = {
    prev := if (nodeAt nodes pair.right).next = i then pair.left else (nodeAt nodes i).prev
    next := if pair.left = i then (nodeAt nodes pair.right).next else (nodeAt nodes i).next
    token := if pair.right = i then [] else if pair.left = i then pair.value else (nodeAt nodes i).token } := by
  have hnodes : nodeAt (setNext pair.left (nodeAt nodes pair.right).next
      (setToken pair.right [] (setToken pair.left pair.value nodes))) i = {
        prev := (nodeAt nodes i).prev
        next := if pair.left = i then (nodeAt nodes pair.right).next else (nodeAt nodes i).next
        token := if pair.right = i then [] else if pair.left = i then pair.value else (nodeAt nodes i).token } := by
    rw [setNext, nodeAt_modify _ (by simpa using h), setToken, nodeAt_modify _ (by simpa using h), setToken, nodeAt_modify _ h]
    split_ifs <;> rfl
  unfold mergeNodes
  dsimp only
  split
  · rw [setPrev, nodeAt_modify _ (by simpa using h), hnodes]
    split_ifs <;> rfl
  · rename_i hlt
    have hne : (nodeAt nodes pair.right).next ≠ i := by
      rintro rfl
      exact hlt (by simpa using h)
    rw [hnodes, if_neg hne]

/-- Each merge leaves one node less. -/
theorem live_mergeNodes (hl : (nodeAt nodes pair.left).token ≠ []) (hr : (nodeAt nodes pair.right).token ≠ []) :
    live (mergeNodes nodes pair) < live nodes := by
  unfold live
  apply Finset.card_lt_card
  rw [Finset.ssubset_iff_of_subset]
  · refine ⟨pair.right, ?_, ?_⟩
    · simpa [hr] using lt_of_token hr
    · have hnone : (nodeAt (mergeNodes nodes pair) pair.right).token = [] := by
        rw [nodeAt_mergeNodes (lt_of_token hr)]
        simp
      simp [hnone]
  · intro i hi
    simp only [Finset.mem_filter, Finset.mem_range, length_mergeNodes] at hi ⊢
    refine ⟨hi.1, ?_⟩
    intro hnone
    have hlive := hi.2
    rw [nodeAt_mergeNodes hi.1] at hlive
    dsimp only at hlive
    split_ifs at hlive with hright hleft
    · exact hlive rfl
    · exact hl (hleft ▸ hnone)
    · exact hlive hnone

end

/-! ## The loop -/

section
variable (vocab : Vocabulary)

def pairwise (nodes : List BpeMergeNode) (left : Int) (right : Nat) : Option BpePair :=
  if left < 0 ∨ right ≥ nodes.length then none
  else
    let leftToken := (nodeAt nodes left.toNat).token
    let rightToken := (nodeAt nodes right).token
    if leftToken = [] ∨ rightToken = [] then none
    else
      match vocab.merges (leftToken ++ ascii " " ++ rightToken) with
      | none => none
      | some rank =>
        let value := leftToken ++ rightToken
        match vocab.reverse value with
        | none => none
        | some _ => some { left := left.toNat, right, rank, value }

variable (heap : Heap BpePair lessBpePair)

/-- What is popped is merged, or is outdated. -/
def mergeLoop (nodes : List BpeMergeNode) (pairs : heap.State) : List BpeMergeNode :=
  match _hpop : heap.pop pairs with
  | none => nodes
  | some (pair, pairs) =>
    let left := nodeAt nodes pair.left
    let right := nodeAt nodes pair.right
    if _hskip : left.token = [] ∨ right.token = [] ∨ left.next ≠ pair.right ∨ right.prev ≠ pair.left ∨
        left.token ++ right.token ≠ pair.value then
      mergeLoop nodes pairs
    else
      let merged := mergeNodes nodes pair
      mergeLoop merged (heap.pushAll [pairwise vocab merged (nodeAt merged pair.left).prev pair.left,
        pairwise vocab merged pair.left (nodeAt merged pair.left).next] pairs)
  termination_by 2 * live nodes + (heap.items pairs).length
  decreasing_by
    · have := heap.length_pop _hpop
      omega
    · simp only [not_or] at _hskip
      have hlen := heap.length_pop _hpop
      have hlive := live_mergeNodes _hskip.1 _hskip.2.1
      refine lt_of_le_of_lt (Nat.add_le_add_left (heap.length_pushAll_le _ _) _) ?_
      simp only [List.length_cons, List.length_nil]
      omega

/-- The nodes of a string after all merges. -/
def mergedNodes (encoded : Bytes) : List BpeMergeNode :=
  let runes := toRunes encoded
  let nodes := initialNodes runes
  let pairs := (List.range (runes.length - 1)).map fun (i : Nat) => pairwise vocab nodes i (i + 1)
  mergeLoop vocab heap nodes (heap.pushAll pairs heap.empty)

/-- The byte that a rune stands for. -/
def decodeByteLevelRune (r : Char) : Option UInt8 :=
  let n := r.toNat
  if n ≤ 0xff then some (UInt8.ofNat n)
  else if n = 0x0100 then some 0x00
  else if n = 0x0143 then some 0xad
  else if n > 0x0100 ∧ n ≤ 0x0120 then some (UInt8.ofNat (n - 0x0100))
  else if n > 0x0120 ∧ n ≤ 0x0142 then some (UInt8.ofNat (n - 0x00a2))
  else none

/-- The ids of the bytes of a token. -/
def appendByteFallback (typ : TokenizerType) (ids : List Int) (token : Bytes) : List Int :=
  let bytes := match typ with
    | .bpe => (toRunes token).filterMap decodeByteLevelRune
    | .sentencePiece => token
  ids ++ bytes.filterMap fun b => if vocab.byteTokens b ≥ 0 then some (vocab.byteTokens b) else none

def encodeBPEMerge (typ : TokenizerType) (encoded : Bytes) (ids : List Int) : List Int :=
  (mergedNodes vocab heap encoded).foldl (fun ids node =>
    if node.token = [] then ids
    else
      match vocab.reverse node.token with
      | some id => ids ++ [id]
      | none => appendByteFallback vocab typ ids node.token) ids

/-! ## What the loop leaves -/

def links (nodes : List BpeMergeNode) : Links UInt8 where
  tok i := (nodeAt nodes i).token
  next i := (nodeAt nodes i).next
  prev i := (nodeAt nodes i).prev

/-- The tokens that are left. -/
def tokens (nodes : List BpeMergeNode) : List Bytes := (nodes.map (·.token)).filter (· ≠ [])

/-- The rank of two neighbours whose concatenation is in the vocabulary. -/
def rank (l r : Bytes) : Option Int :=
  if (vocab.reverse (l ++ r)).isSome then vocab.merges (l ++ ascii " " ++ r) else none

def waiting : Waiting UInt8 Int BpePair where
  a := BpePair.left
  b := BpePair.right
  rank := BpePair.rank
  Found pair l r := pair.value = l ++ r ∧ rank vocab l r = some pair.rank
  Current pair l r := l ++ r = pair.value

theorem lawful_waiting : (waiting vocab).Lawful (rank vocab) := by
  rintro pair l r x ⟨hvalue, hrank⟩
  simp only [waiting, hvalue]
  constructor
  · intro h
    rw [← List.append_assoc] at h
    exact ⟨List.append_right_eq_self.mp h, hrank⟩
  · rintro ⟨rfl, -⟩
    rw [List.append_nil]

section
variable {vocab}

@[simp] theorem links_tok (nodes : List BpeMergeNode) (i : Nat) : (links nodes).tok i = (nodeAt nodes i).token := rfl
@[simp] theorem links_next (nodes : List BpeMergeNode) (i : Nat) : (links nodes).next i = (nodeAt nodes i).next := rfl
@[simp] theorem links_prev (nodes : List BpeMergeNode) (i : Nat) : (links nodes).prev i = (nodeAt nodes i).prev := rfl

theorem pairwise_eq {nodes : List BpeMergeNode} {left : Int} {right : Nat} (hl : (nodeAt nodes left.toNat).token ≠ [])
    (hr : (nodeAt nodes right).token ≠ []) (hleft : 0 ≤ left) : pairwise vocab nodes left right =
      (rank vocab (nodeAt nodes left.toNat).token (nodeAt nodes right).token).map fun rank =>
        { left := left.toNat, right, rank, value := (nodeAt nodes left.toNat).token ++ (nodeAt nodes right).token } := by
  have hright := lt_of_token hr
  unfold pairwise rank
  rw [if_neg (by omega)]
  dsimp only
  rw [if_neg (by simp [hl, hr])]
  rcases vocab.merges ((nodeAt nodes left.toNat).token ++ ascii " " ++ (nodeAt nodes right).token) with - | rank
  · simp
  · rcases vocab.reverse ((nodeAt nodes left.toNat).token ++ (nodeAt nodes right).token) with - | id <;> rfl

theorem finds_pairwise {nodes : List BpeMergeNode} {ts : List Bytes} (hsound : (links nodes).Sound ts)
    (hlen : nodes.length = ts.length) :
    Lib.Links.Finds (waiting vocab) (rank vocab) (links nodes) ts (pairwise vocab nodes) where
  negative i j hi := by
    unfold pairwise
    rw [if_pos (.inl hi)]
  pair i hi q hfind := by
    have hlt : (nodeAt nodes i).next < nodes.length := by
      by_contra hge
      rw [pairwise, links_next, if_pos (.inr (by omega))] at hfind
      cases hfind
    have hnext := hsound.next_tok i hi (hlen ▸ hlt)
    rw [pairwise_eq (by simpa using hi) hnext (by omega)] at hfind
    obtain ⟨x, hx, rfl⟩ := Option.map_eq_some_iff.mp hfind
    rw [Int.toNat_natCast] at hx
    exact ⟨rfl, hi, rfl, hlen ▸ hlt, rfl, hx⟩
  complete i hi hn x hx := by
    have hnext := hsound.next_tok i hi hn
    have hfind := @pairwise_eq vocab _ (i : Int) _ (by simpa using hi) hnext (by omega)
    rw [Int.toNat_natCast] at hfind
    exact ⟨_, hfind.trans (congrArg _ hx), rfl⟩

theorem texts_links (nodes : List BpeMergeNode) : (links nodes).texts 0 nodes.length = tokens nodes := by
  have hmap : (List.range' 0 nodes.length).map (links nodes).tok = nodes.map (·.token) := by
    apply List.ext_getElem
    · simp
    · intro i hi hi'
      rw [List.getElem_map, List.getElem_map, List.getElem_range', Nat.zero_add, Nat.one_mul]
      exact congrArg BpeMergeNode.token (nodeAt_eq (by simpa using hi'))
  rw [Links.texts, hmap, tokens]

theorem initial_links (runes : List Char) : (links (initialNodes runes)).Initial (runes.map String.utf8EncodeChar) := by
  have hlen : (initialNodes runes).length = runes.length := by simp [initialNodes]
  have hnode : ∀ i (hi : i < runes.length), nodeAt (initialNodes runes) i =
      { prev := (i : Int) - 1, next := i + 1, token := String.utf8EncodeChar runes[i] } := by
    intro i hi
    rw [nodeAt_eq (by omega)]
    simp [initialNodes]
  constructor
  · intro i hi
    rw [List.length_map] at hi
    rw [links_tok, hnode i hi, List.getElem_map]
  · intro i hi
    rw [List.length_map] at hi
    rw [links_next, hnode i hi]
  · intro i hi
    rw [List.length_map] at hi
    rw [links_prev, hnode i hi]
  · intro i hi
    rw [List.length_map] at hi
    rw [links_tok, nodeAt_of_le (by omega)]

theorem same_mergeNodes {nodes : List BpeMergeNode} {pair : BpePair} (hl : pair.left < nodes.length)
    (hr : pair.right < nodes.length) (hvalue : pair.value = (nodeAt nodes pair.left).token ++ (nodeAt nodes pair.right).token) :
    ((links nodes).merge pair.left pair.right).Same (links (mergeNodes nodes pair)) nodes.length := by
  constructor
  · intro i
    simp only [Links.merge, links_tok]
    by_cases hi : i < nodes.length
    · rw [nodeAt_mergeNodes hi, hvalue]
    · rw [@nodeAt_of_le (mergeNodes nodes pair) _ (by simpa using hi), if_neg (by omega), if_neg (by omega),
        nodeAt_of_le (by omega)]
  · intro i
    simp only [Links.merge, links_next]
    by_cases hi : i < nodes.length
    · rw [nodeAt_mergeNodes hi]
    · rw [@nodeAt_of_le (mergeNodes nodes pair) _ (by simpa using hi), if_neg (by omega), nodeAt_of_le (i := i) (by omega)]
  · intro i hi
    simp only [Links.merge, links_prev, links_next, nodeAt_mergeNodes hi]
    rfl

/-- The tests on the links and on the value tell what is no pair of neighbours any more. -/
theorem skip_iff {nodes : List BpeMergeNode} {ts : List Bytes} {pair : BpePair} (hsound : (links nodes).Sound ts)
    (hwas : WasPair (waiting vocab) (links nodes) ts pair) :
    ((nodeAt nodes pair.left).token = [] ∨ (nodeAt nodes pair.right).token = [] ∨ (nodeAt nodes pair.left).next ≠ pair.right ∨
      (nodeAt nodes pair.right).prev ≠ pair.left ∨
      (nodeAt nodes pair.left).token ++ (nodeAt nodes pair.right).token ≠ pair.value) ↔
    ¬ Accepts (waiting vocab) (links nodes) pair := by
  constructor
  · intro hskip haccept
    obtain ⟨hpair, -⟩ := (hwas.accepts_iff (lawful_waiting vocab) hsound).mp haccept
    obtain ⟨hl, hr, hvalue⟩ := haccept
    obtain ⟨-, hnext, hlt, -⟩ := hpair
    have hprev := hsound.prev_next _ hl (hnext ▸ hlt)
    rw [hnext] at hprev
    rcases hskip with h | h | h | h | h
    · exact hl h
    · exact hr h
    · exact h hnext
    · exact h hprev
    · exact h hvalue
  · intro hnot
    by_contra hskip
    simp only [not_or, not_not] at hskip
    exact hnot ⟨hskip.1, hskip.2.1, hskip.2.2.2.2⟩

theorem weakOrder_bpePair : WeakOrder lessBpePair := by
  constructor
  · intro i j
    simp only [lessBpePair, Bool.or_eq_true, Bool.or_eq_false_iff, Bool.and_eq_true, Bool.and_eq_false_iff, decide_eq_true_eq,
      decide_eq_false_iff_not, beq_iff_eq, beq_eq_false_iff_ne]
    omega
  · intro i j k
    simp only [lessBpePair, Bool.or_eq_false_iff, Bool.and_eq_false_iff, decide_eq_false_iff_not, beq_eq_false_iff_ne]
    omega

end

/-- A least rank, and the leftmost pair of that rank. -/
theorem of_not_less {pair q : BpePair} (h : lessBpePair q pair = false) :
    decide (q.rank < pair.rank) = false ∧ (q.left < pair.left → decide (pair.rank < q.rank) = true) := by
  simp only [lessBpePair, Bool.or_eq_false_iff, Bool.and_eq_false_iff, decide_eq_false_iff_not, beq_eq_false_iff_ne] at h
  simp only [decide_eq_false_iff_not, decide_eq_true_eq]
  omega

section
variable {vocab}

/-- The loop merges what the rounds at the first neighbours of a least rank merge. -/
theorem mergeLoop_leftmost {ts : List Bytes} {nodes : List BpeMergeNode} (hlen : nodes.length = ts.length) {pairs : heap.State}
    (hq : Queued (waiting vocab) (rank vocab) (links nodes) ts (heap.items pairs)) :
    tokens (mergeLoop vocab heap nodes pairs) = mergeNeighbours (rank vocab) (fun x y => decide (x < y)) (tokens nodes) := by
  induction nodes, pairs using mergeLoop.induct vocab heap with
  | case1 nodes pairs hpop =>
    rw [mergeLoop, hpop]
    rw [heap.pop_eq_none.mp hpop] at hq
    rw [← texts_links, hlen, Lib.mergeNeighbours_of_merged hq.merged]
  | case2 nodes pairs pair rest hpop left right hskip ih =>
    have hwas := hq.pairs pair ((heap.mem_pop hpop).mpr (.inl rfl))
    rw [mergeLoop, hpop]
    dsimp only
    rw [dif_pos hskip]
    exact ih hlen (hq.skip (lawful_waiting vocab) (fun q => heap.mem_pop hpop) ((skip_iff hq.sound hwas).mp hskip))
  | case3 nodes pairs pair rest hpop left right hskip merged ih =>
    have hwas := hq.pairs pair ((heap.mem_pop hpop).mpr (.inl rfl))
    rw [mergeLoop, hpop]
    dsimp only
    rw [dif_neg hskip]
    have haccept := not_not.mp ((not_congr (skip_iff hq.sound hwas)).mp hskip)
    obtain ⟨hpair, hkey⟩ := (hwas.accepts_iff (lawful_waiting vocab) hq.sound).mp haccept
    have hsame := same_mergeNodes (lt_of_token hpair.1) (hlen ▸ hpair.2.2.1) hpair.2.2.2.1
    have hmerged : merged.length = ts.length := length_mergeNodes.trans hlen
    have hsound := (hq.sound.merge hpair.1 hpair.2.1 hpair.2.2.1).same (hlen ▸ hsame)
    have hnext := hq.merge (fun q => heap.mem_pop hpop) hpair (hlen ▸ hsame) (finds_pairwise hsound hmerged)
      fun q => show q ∈ heap.items (heap.pushAll [pairwise vocab merged (nodeAt merged pair.left).prev pair.left,
        pairwise vocab merged pair.left (nodeAt merged pair.left).next] rest) ↔ _ by
        rw [heap.mem_pushAll, or_comm]
        simp only [List.mem_cons, List.not_mem_nil, or_false, eq_comm]
        rfl
    have hleast : ∀ q ∈ heap.items pairs, lessBpePair q pair = false := by
      intro q hmem
      rcases (heap.mem_pop hpop).mp hmem with rfl | hmem
      · exact weakOrder_bpePair.irrefl q
      · exact heap.pop_least weakOrder_bpePair hpop q hmem
    have hround := @Queued.leftmost _ _ _ _ _ _ _ _ _ (fun x y => decide (x < y)) hq
      (fun q hmem => (of_not_less (hleast q hmem)).1) (fun q hmem => (of_not_less (hleast q hmem)).2) hpair hkey
    rw [ih hmerged hnext, ← texts_links nodes, hlen, hround]
    refine congrArg _ ?_
    rw [← texts_links, hmerged]
    exact (Links.texts_congr fun j _ _ => hsame.tok j).symm

/-- The nodes that are left are those of the rounds that merge the first of the pairs of the lowest rank. -/
theorem tokens_mergedNodes (encoded : Bytes) : tokens (mergedNodes vocab heap encoded) =
    mergeNeighbours (rank vocab) (fun x y => decide (x < y)) ((toRunes encoded).map String.utf8EncodeChar) := by
  have hne : ∀ t ∈ (toRunes encoded).map String.utf8EncodeChar, t ≠ [] := by
    intro t ht
    obtain ⟨r, -, rfl⟩ := List.mem_map.mp ht
    exact String.utf8EncodeChar_ne_nil
  have hinitial := initial_links (toRunes encoded)
  have hlen : (initialNodes (toRunes encoded)).length = ((toRunes encoded).map String.utf8EncodeChar).length := by
    simp [initialNodes]
  have hfirst : tokens (initialNodes (toRunes encoded)) = (toRunes encoded).map String.utf8EncodeChar := by
    rw [← texts_links, hlen, hinitial.texts hne]
  rw [← hfirst]
  refine mergeLoop_leftmost heap hlen (Queued.initial hinitial hne (finds_pairwise (hinitial.sound hne) hlen) fun q => ?_)
  simp [heap.mem_pushAll, heap.items_empty]

theorem weakOrder_rank : WeakOrder fun x y : Int => decide (x < y) := by
  constructor
  · intro x y
    simp only [decide_eq_true_eq, decide_eq_false_iff_not]
    omega
  · intro x y z
    simp only [decide_eq_false_iff_not]
    omega

/-- Besides, the tokens make up the runes of the string, which are the string itself if it is valid. -/
theorem mergedNodes_correct (encoded : Bytes) :
    tokens (mergedNodes vocab heap encoded) =
      mergeNeighbours (rank vocab) (fun x y => decide (x < y)) ((toRunes encoded).map String.utf8EncodeChar) ∧
    (tokens (mergedNodes vocab heap encoded)).flatten = ofRunes (toRunes encoded) ∧
    ((tokens (mergedNodes vocab heap encoded)).flatten = encoded ↔ validString encoded = true) := by
  have htokens := @tokens_mergedNodes vocab heap encoded
  have hflatten : (tokens (mergedNodes vocab heap encoded)).flatten = ofRunes (toRunes encoded) := by
    rw [htokens, Lib.flatten_rounds (Lib.rounds_mergeNeighbours weakOrder_rank _).1]
    rfl
  refine ⟨htokens, hflatten, ?_⟩
  rw [hflatten]
  constructor
  · intro h
    rw [← h]
    exact Lib.validString_ofRunes _
  · intro hvalid
    exact Lib.ofRunes_toRunes hvalid

end

end

/-- No tokens and no ranks. -/
def noTokens : Vocabulary where
  reverse _ := none
  merges _ := none

/-- A byte at which no rune is encoded comes out as three bytes. -/
theorem strayByte_changes : ([0xff] : Bytes) ≠ [] ∧
    (tokens (mergedNodes noTokens (listHeap lessBpePair) [0xff])).flatten = [0xef, 0xbf, 0xbd] ∧
    ([0xef, 0xbf, 0xbd] : Bytes) ≠ [0xff] := by
  decide +kernel

end Xdragon.XTokenizer
