import Xdragon.Lib.Heap
import Xdragon.Lib.Utf8

/-!
# Merging neighbours

The symbols of a text are merged pair by pair. Each keeps the indices of its neighbours, and a symbol that
was merged into another one has no runes left.
-/

namespace Xdragon.Tokenizer

open Xdragon.Lib (Heap)

structure Merge where
  p : Int
  n : Nat
  runes : List Char

/-- Indices are in bounds where a symbol is read. -/
def symbolAt (merges : List Merge) (i : Nat) : Merge := merges.getD i { p := -1, n := 0, runes := [] }

def initialMerges (runes : List Char) : List Merge :=
  runes.mapIdx fun r rune => { p := (r : Int) - 1, n := r + 1, runes := [rune] }

/-- What the encoders do differently: which pairs they look for, and when a pair still is what it was. -/
structure Pairing (π : Type) where
  a : π → Nat
  b : π → Nat
  pairwise : List Merge → Int → Nat → Option π
  current : π → List Char → List Char → Bool

def setRunes (i : Nat) (runes : List Char) (merges : List Merge) : List Merge :=
  merges.modify i fun m => { m with runes }

def setNext (i n : Nat) (merges : List Merge) : List Merge := merges.modify i fun m => { m with n }

def setPrevious (i : Nat) (p : Int) (merges : List Merge) : List Merge := merges.modify i fun m => { m with p }

/-- The right one of two symbols is merged into the left one. -/
def mergePair (merges : List Merge) (a b : Nat) : List Merge :=
  let left := symbolAt merges a
  let right := symbolAt merges b
  let merges := setNext a right.n (setRunes b [] (setRunes a (left.runes ++ right.runes) merges))
  if right.n < merges.length then setPrevious right.n a merges else merges

/-- The symbols that have runes. -/
def alive (merges : List Merge) : Nat := (merges.map (·.runes)).countP (· ≠ [])

/-! ## One merge -/

section
variable (merges : List Merge) (i j : Nat)

theorem symbolAt_eq (h : i < merges.length) : symbolAt merges i = merges[i] := by
  simp [symbolAt, List.getD_eq_getElem?_getD, h]

theorem symbolAt_of_le (h : merges.length ≤ i) : symbolAt merges i = { p := -1, n := 0, runes := [] } := by
  simp [symbolAt, List.getD_eq_getElem?_getD, h]

theorem symbolAt_modify (f : Merge → Merge) : symbolAt (merges.modify i f) j =
    if i = j ∧ j < merges.length then f (symbolAt merges j) else symbolAt merges j := by
  unfold symbolAt
  rw [List.getD_eq_getElem?_getD, List.getD_eq_getElem?_getD, List.getElem?_modify]
  by_cases hj : j < merges.length
  · by_cases hi : i = j <;> simp [hj, hi]
  · simp [hj]

@[simp] theorem length_setRunes (runes : List Char) : (setRunes i runes merges).length = merges.length := by simp [setRunes]
@[simp] theorem length_setNext (n : Nat) : (setNext i n merges).length = merges.length := by simp [setNext]
@[simp] theorem length_setPrevious (p : Int) : (setPrevious i p merges).length = merges.length := by simp [setPrevious]

@[simp] theorem runes_setNext (n : Nat) : (symbolAt (setNext i n merges) j).runes = (symbolAt merges j).runes := by
  rw [setNext, symbolAt_modify]
  split <;> rfl

@[simp] theorem runes_setPrevious (p : Int) : (symbolAt (setPrevious i p merges) j).runes = (symbolAt merges j).runes := by
  rw [setPrevious, symbolAt_modify]
  split <;> rfl

@[simp] theorem n_setRunes (runes : List Char) : (symbolAt (setRunes i runes merges) j).n = (symbolAt merges j).n := by
  rw [setRunes, symbolAt_modify]
  split <;> rfl

@[simp] theorem n_setPrevious (p : Int) : (symbolAt (setPrevious i p merges) j).n = (symbolAt merges j).n := by
  rw [setPrevious, symbolAt_modify]
  split <;> rfl

@[simp] theorem p_setRunes (runes : List Char) : (symbolAt (setRunes i runes merges) j).p = (symbolAt merges j).p := by
  rw [setRunes, symbolAt_modify]
  split <;> rfl

@[simp] theorem p_setNext (n : Nat) : (symbolAt (setNext i n merges) j).p = (symbolAt merges j).p := by
  rw [setNext, symbolAt_modify]
  split <;> rfl

theorem runes_setRunes (runes : List Char) (h : j < merges.length) : (symbolAt (setRunes i runes merges) j).runes =
    if i = j then runes else (symbolAt merges j).runes := by
  rw [setRunes, symbolAt_modify]
  split_ifs <;> simp_all

end

section
variable {merges : List Merge} {a b : Nat}

theorem lt_of_runes {i : Nat} (h : (symbolAt merges i).runes ≠ []) : i < merges.length := by
  by_contra hge
  exact h (by rw [symbolAt_of_le _ _ (by omega)])

@[simp] theorem length_mergePair : (mergePair merges a b).length = merges.length := by
  unfold mergePair
  dsimp only
  split <;> simp

theorem mergePair_runes {i : Nat} (h : i < merges.length) : (symbolAt (mergePair merges a b) i).runes =
    if b = i then [] else if a = i then (symbolAt merges a).runes ++ (symbolAt merges b).runes else (symbolAt merges i).runes := by
  have hset : (symbolAt (setRunes b [] (setRunes a ((symbolAt merges a).runes ++ (symbolAt merges b).runes) merges)) i).runes =
      if b = i then [] else if a = i then (symbolAt merges a).runes ++ (symbolAt merges b).runes
        else (symbolAt merges i).runes := by
    rw [runes_setRunes _ _ _ _ (by simpa using h), runes_setRunes _ _ _ _ h]
  unfold mergePair
  dsimp only
  split
  · rw [runes_setPrevious, runes_setNext, hset]
  · rw [runes_setNext, hset]

theorem mergePair_n {i : Nat} (h : i < merges.length) : (symbolAt (mergePair merges a b) i).n =
    if a = i then (symbolAt merges b).n else (symbolAt merges i).n := by
  unfold mergePair
  dsimp only
  split
  all_goals
    first | rw [n_setPrevious] | skip
    rw [setNext, symbolAt_modify]
    split_ifs <;> simp_all

theorem mergePair_p {i : Nat} (h : i < merges.length) : (symbolAt (mergePair merges a b) i).p =
    if (symbolAt merges b).n = i then (a : Int) else (symbolAt merges i).p := by
  unfold mergePair
  dsimp only
  split
  · rw [setPrevious, symbolAt_modify]
    split_ifs <;> simp_all
  · rename_i hlt
    rw [if_neg (by rintro rfl; exact hlt (by simpa using h))]
    simp

theorem map_runes_mergePair : (mergePair merges a b).map (·.runes) =
    ((merges.map (·.runes)).set a ((symbolAt merges a).runes ++ (symbolAt merges b).runes)).set b [] := by
  apply List.ext_getElem
  · simp
  · intro i hi hi'
    have hlt : i < merges.length := by simpa using hi
    have hrunes := mergePair_runes (a := a) (b := b) hlt
    rw [symbolAt_eq _ _ (by simpa using hlt), symbolAt_eq _ i hlt] at hrunes
    rw [List.getElem_map, hrunes, List.getElem_set, List.getElem_set, List.getElem_map]

theorem countP_set_runes {l : List (List Char)} {i : Nat} (hi : i < l.length) (h : l[i] ≠ []) (r : List Char) :
    (l.set i r).countP (· ≠ []) + 1 = l.countP (· ≠ []) + if r ≠ [] then 1 else 0 := by
  have hpos : 0 < l.countP (· ≠ []) := List.countP_pos_iff.mpr ⟨l[i], List.getElem_mem hi, by simpa using h⟩
  rw [List.countP_set hi, if_pos (by simpa using h)]
  simp only [decide_eq_true_eq]
  omega

/-- Each merge leaves one symbol less. -/
theorem alive_mergePair (ha : (symbolAt merges a).runes ≠ []) (hb : (symbolAt merges b).runes ≠ []) :
    alive (mergePair merges a b) + 1 = alive merges := by
  have hla : a < (merges.map (·.runes)).length := by simpa using lt_of_runes ha
  have hlb : b < (merges.map (·.runes)).length := by simpa using lt_of_runes hb
  have hga : (merges.map (·.runes))[a] ≠ [] := by rwa [List.getElem_map, ← symbolAt_eq]
  have hgb : (merges.map (·.runes))[b] ≠ [] := by rwa [List.getElem_map, ← symbolAt_eq]
  have hset := countP_set_runes hla hga ((symbolAt merges a).runes ++ (symbolAt merges b).runes)
  rw [if_pos (by simp [ha])] at hset
  have hmem : b < ((merges.map (·.runes)).set a ((symbolAt merges a).runes ++ (symbolAt merges b).runes)).length := by
    simpa using hlb
  have hget : ((merges.map (·.runes)).set a ((symbolAt merges a).runes ++ (symbolAt merges b).runes))[b] ≠ [] := by
    rw [List.getElem_set]
    split_ifs
    · simp [ha]
    · exact hgb
  have hempty := countP_set_runes hmem hget []
  rw [if_neg (by simp)] at hempty
  unfold alive
  rw [map_runes_mergePair]
  omega

theorem flatten_set_first {rs : List (List Char)} {b : Nat} (hb : b < rs.length)
    (h : ∀ i (hi : i < rs.length), i < b → rs[i] = []) : rs[b] ++ (rs.set b []).flatten = rs.flatten := by
  induction rs generalizing b with
  | nil => cases hb
  | cons x rs ih =>
    cases b with
    | zero => simp
    | succ b =>
      have hx : x = [] := h 0 (by simp) (Nat.succ_pos b)
      have hrest := ih (b := b) (by simpa using hb) fun i hi hib => h (i + 1) (Nat.succ_lt_succ hi) (Nat.succ_lt_succ hib)
      simpa [hx] using hrest

theorem flatten_set {rs : List (List Char)} {a b : Nat} (hab : a < b) (hb : b < rs.length)
    (h : ∀ i (hi : i < rs.length), a < i → i < b → rs[i] = []) :
    ((rs.set a (rs[a] ++ rs[b])).set b []).flatten = rs.flatten := by
  induction rs generalizing a b with
  | nil => cases hb
  | cons x rs ih =>
    obtain ⟨b, rfl⟩ : ∃ k, b = k + 1 := ⟨b - 1, by omega⟩
    have hb' : b < rs.length := by simpa using hb
    cases a with
    | zero =>
      have hrest := flatten_set_first hb' fun i hi hib =>
        h (i + 1) (Nat.succ_lt_succ hi) (Nat.succ_pos i) (Nat.succ_lt_succ hib)
      simp [hrest]
    | succ a =>
      have hrest := ih (a := a) (Nat.lt_of_succ_lt_succ hab) hb' fun i hi hai hib =>
        h (i + 1) (Nat.succ_lt_succ hi) (Nat.succ_lt_succ hai) (Nat.succ_lt_succ hib)
      simpa using hrest

/-- A merge of symbols with nothing between them keeps the text. -/
theorem flatMap_mergePair (hab : a < b) (hb : b < merges.length)
    (h : ∀ i, a < i → i < b → (symbolAt merges i).runes = []) :
    (mergePair merges a b).flatMap (·.runes) = merges.flatMap (·.runes) := by
  have hset := @flatten_set (merges.map (·.runes)) _ _ hab (by simpa using hb) fun i hi hai hib => by
    rw [List.getElem_map, ← symbolAt_eq]
    exact h i hai hib
  simp only [List.getElem_map, ← symbolAt_eq] at hset
  rw [List.flatMap_def, List.flatMap_def, map_runes_mergePair, hset]

end

/-! ## The loop -/

section
variable {π : Type} (pairing : Pairing π) {less : π → π → Bool} (heap : Heap π less)

/-- After a merge the pairs of the merged symbol with its neighbours are looked for. -/
def pushPairs (merges : List Merge) (a : Nat) (pairs : heap.State) : heap.State :=
  heap.pushAll [pairing.pairwise merges (symbolAt merges a).p a, pairing.pairwise merges a (symbolAt merges a).n] pairs

/-- The loop over the pairs, the least one first. -/
def mergeLoop (merges : List Merge) (pairs : heap.State) : List Merge :=
  match _hpop : heap.pop pairs with
  | none => merges
  | some (pair, pairs) =>
    let left := symbolAt merges (pairing.a pair)
    let right := symbolAt merges (pairing.b pair)
    if _hskip : left.runes = [] ∨ right.runes = [] ∨ pairing.current pair left.runes right.runes = false then
      mergeLoop merges pairs
    else
      mergeLoop (mergePair merges (pairing.a pair) (pairing.b pair))
        (pushPairs pairing heap (mergePair merges (pairing.a pair) (pairing.b pair)) (pairing.a pair) pairs)
  termination_by 2 * alive merges + (heap.items pairs).length
  decreasing_by
    · have := heap.length_pop _hpop
      omega
    · simp only [not_or] at _hskip
      have hlen := heap.length_pop _hpop
      have halive := alive_mergePair _hskip.1 _hskip.2.1
      refine lt_of_le_of_lt (Nat.add_le_add_left (heap.length_pushAll_le _ _) _) ?_
      simp only [List.length_cons, List.length_nil]
      omega

/-- The symbols of a text after all merges. -/
def mergeAll (runes : List Char) : List Merge :=
  let merges := initialMerges runes
  let pairs := (List.range (runes.length - 1)).map fun (i : Nat) => pairing.pairwise merges i (i + 1)
  mergeLoop pairing heap merges (heap.pushAll pairs heap.empty)

end

/-! ## What the loop keeps -/

/-- Nothing is left between a symbol and its neighbours. -/
structure Linked (merges : List Merge) : Prop where
  previous : ∀ i, (symbolAt merges i).runes ≠ [] → (symbolAt merges i).p < i ∧
    ∀ j : Nat, (symbolAt merges i).p < j → j < i → (symbolAt merges j).runes = []
  next : ∀ i, (symbolAt merges i).runes ≠ [] → i < (symbolAt merges i).n ∧
    ∀ j, i < j → j < (symbolAt merges i).n → (symbolAt merges j).runes = []

/-- `Fits` says what a pair was found for, and stays true when its symbols grow. -/
structure Pairing.Lawful {π : Type} (pairing : Pairing π) (Fits : π → List Char → List Char → Prop)
    (Known : List Char → Prop) : Prop where
  pairwise : ∀ merges a b pair, pairing.pairwise merges a b = some pair → (pairing.a pair : Int) = a ∧ pairing.b pair = b ∧
    b < merges.length ∧ Fits pair (symbolAt merges (pairing.a pair)).runes (symbolAt merges b).runes
  grow : ∀ pair l r x y, Fits pair l r → Fits pair (l ++ x) (r ++ y)
  known : ∀ pair l r, pairing.current pair l r = true → Fits pair l r → Known (l ++ r)

/-- A pair of neighbours, if both are still there. -/
structure Pairing.Adjacent {π : Type} (pairing : Pairing π) (Fits : π → List Char → List Char → Prop) (merges : List Merge)
    (pair : π) : Prop where
  lt : pairing.a pair < pairing.b pair
  bound : pairing.b pair < merges.length
  between : (symbolAt merges (pairing.a pair)).runes ≠ [] → (symbolAt merges (pairing.b pair)).runes ≠ [] →
    ∀ i, pairing.a pair < i → i < pairing.b pair → (symbolAt merges i).runes = []
  fits : (symbolAt merges (pairing.a pair)).runes ≠ [] → (symbolAt merges (pairing.b pair)).runes ≠ [] →
    Fits pair (symbolAt merges (pairing.a pair)).runes (symbolAt merges (pairing.b pair)).runes

section
variable {merges : List Merge} {a b : Nat}

theorem symbolAt_initial {runes : List Char} {i : Nat} (h : i < runes.length) :
    symbolAt (initialMerges runes) i = { p := (i : Int) - 1, n := i + 1, runes := [runes[i]] } := by
  rw [symbolAt_eq _ _ (by simpa [initialMerges] using h)]
  simp [initialMerges]

theorem flatMap_initial (runes : List Char) : (initialMerges runes).flatMap (·.runes) = runes := by
  have hmap : (initialMerges runes).map (·.runes) = runes.map fun r => [r] := by
    apply List.ext_getElem
    · simp [initialMerges]
    · intro i hi hi'
      simp [initialMerges]
  rw [List.flatMap_def, hmap, ← List.flatMap_def, List.flatMap_singleton']

theorem linked_initial (runes : List Char) : Linked (initialMerges runes) := by
  have hlt : ∀ i, (symbolAt (initialMerges runes) i).runes ≠ [] → i < runes.length := by
    intro i hi
    simpa [initialMerges] using lt_of_runes hi
  constructor
  · intro i hi
    rw [symbolAt_initial (hlt i hi)]
    dsimp only
    exact ⟨by omega, fun j hj hji => by omega⟩
  · intro i hi
    rw [symbolAt_initial (hlt i hi)]
    dsimp only
    exact ⟨by omega, fun j hj hji => by omega⟩

/-- A symbol that has runes after a merge had them before. -/
theorem runes_of_mergePair {i : Nat} (ha : (symbolAt merges a).runes ≠ []) (h : (symbolAt (mergePair merges a b) i).runes ≠ []) :
    i ≠ b ∧ (symbolAt merges i).runes ≠ [] := by
  have hi : i < merges.length := by simpa using lt_of_runes h
  rw [mergePair_runes hi] at h
  split_ifs at h with hb hai
  · exact absurd rfl h
  · exact ⟨fun hib => hb hib.symm, hai ▸ ha⟩
  · exact ⟨fun hib => hb hib.symm, h⟩

theorem dead_mergePair {i : Nat} (ha : (symbolAt merges a).runes ≠ []) (h : i = b ∨ (symbolAt merges i).runes = []) :
    (symbolAt (mergePair merges a b) i).runes = [] := by
  by_contra hne
  obtain ⟨hb, hi⟩ := runes_of_mergePair ha hne
  exact h.elim hb hi

theorem linked_mergePair (h : Linked merges) (ha : (symbolAt merges a).runes ≠ []) (hb : (symbolAt merges b).runes ≠ [])
    (hab : a < b) (hbetween : ∀ i, a < i → i < b → (symbolAt merges i).runes = []) : Linked (mergePair merges a b) := by
  constructor
  · intro i hi
    obtain ⟨hib, hlive⟩ := runes_of_mergePair ha hi
    have hlt : i < merges.length := lt_of_runes hlive
    obtain ⟨hp, hdead⟩ := h.previous i hlive
    rw [mergePair_p hlt]
    split
    · -- the symbol after the right one now follows the left one
      rename_i hn
      obtain ⟨hbn, hnext⟩ := h.next b hb
      refine ⟨by omega, ?_⟩
      intro j haj hji
      refine dead_mergePair ha ?_
      by_cases hjb : j = b
      · exact .inl hjb
      · by_cases hlt : j < b
        · exact .inr (hbetween j (by omega) hlt)
        · exact .inr (hnext j (by omega) (by omega))
    · exact ⟨hp, fun j hpj hji => dead_mergePair ha (.inr (hdead j hpj hji))⟩
  · intro i hi
    obtain ⟨hib, hlive⟩ := runes_of_mergePair ha hi
    have hlt : i < merges.length := lt_of_runes hlive
    obtain ⟨hn, hdead⟩ := h.next i hlive
    rw [mergePair_n hlt]
    split
    · rename_i hai
      obtain ⟨hbn, hnext⟩ := h.next b hb
      refine ⟨by omega, ?_⟩
      intro j hij hjn
      refine dead_mergePair ha ?_
      by_cases hjb : j = b
      · exact .inl hjb
      · by_cases hlt : j < b
        · exact .inr (hbetween j (by omega) hlt)
        · exact .inr (hnext j (by omega) hjn)
    · exact ⟨hn, fun j hij hjn => dead_mergePair ha (.inr (hdead j hij hjn))⟩

/-- A symbol that is still there has the runes it had, and perhaps more. -/
theorem runes_grow {i : Nat} (ha : (symbolAt merges a).runes ≠ []) (h : (symbolAt (mergePair merges a b) i).runes ≠ []) :
    ∃ x, (symbolAt (mergePair merges a b) i).runes = (symbolAt merges i).runes ++ x := by
  obtain ⟨hib, hlive⟩ := runes_of_mergePair ha h
  rw [mergePair_runes (lt_of_runes hlive), if_neg hib.symm]
  split
  · rename_i hai
    exact ⟨_, by rw [hai]⟩
  · exact ⟨[], by simp⟩

end

section
variable {π : Type} {pairing : Pairing π} {Fits : π → List Char → List Char → Prop} {Known : List Char → Prop}
  {merges : List Merge} {pair : π}

theorem Pairing.Adjacent.mergePair (hlaw : pairing.Lawful Fits Known) (h : pairing.Adjacent Fits merges pair) {a b : Nat}
    (ha : (symbolAt merges a).runes ≠ []) : pairing.Adjacent Fits (mergePair merges a b) pair := by
  refine ⟨h.lt, by simpa using h.bound, ?_, ?_⟩
  · intro hl hr i hai hib
    exact dead_mergePair ha (.inr (h.between (runes_of_mergePair ha hl).2 (runes_of_mergePair ha hr).2 i hai hib))
  · intro hl hr
    obtain ⟨x, hx⟩ := runes_grow ha hl
    obtain ⟨y, hy⟩ := runes_grow ha hr
    rw [hx, hy]
    exact hlaw.grow _ _ _ x y (h.fits (runes_of_mergePair ha hl).2 (runes_of_mergePair ha hr).2)

/-- The pairs of a symbol with its neighbours. -/
theorem Pairing.Lawful.adjacent (hlaw : pairing.Lawful Fits Known) {a : Int} {b : Nat}
    (hpair : pairing.pairwise merges a b = some pair) (hab : a < b)
    (hbetween : ∀ i : Nat, a < i → i < b → (symbolAt merges i).runes = []) : pairing.Adjacent Fits merges pair := by
  obtain ⟨ha, hb, hlt, hfits⟩ := hlaw.pairwise _ _ _ _ hpair
  subst hb
  exact ⟨by omega, hlt, fun _ _ i hai hib => hbetween i (by omega) hib, fun _ _ => hfits⟩

variable {less : π → π → Bool} {heap : Heap π less}

/-- The loop keeps the text, and every symbol that is left is known. -/
theorem mergeLoop_spec (hlaw : pairing.Lawful Fits Known) {pairs : heap.State} (hlinked : Linked merges)
    (hpairs : ∀ pair ∈ heap.items pairs, pairing.Adjacent Fits merges pair)
    (hknown : ∀ i, (symbolAt merges i).runes ≠ [] → Known (symbolAt merges i).runes) :
    (mergeLoop pairing heap merges pairs).flatMap (·.runes) = merges.flatMap (·.runes) ∧
      ∀ i, (symbolAt (mergeLoop pairing heap merges pairs) i).runes ≠ [] →
        Known (symbolAt (mergeLoop pairing heap merges pairs) i).runes := by
  induction merges, pairs using mergeLoop.induct pairing heap with
  | case1 merges pairs hpop =>
    rw [mergeLoop, hpop]
    exact ⟨rfl, hknown⟩
  | case2 merges pairs pair pairs' hpop left right hskip ih =>
    have hrest := fun q hq => hpairs q ((heap.mem_pop hpop).mpr (.inr hq))
    rw [mergeLoop, hpop]
    dsimp only
    rw [dif_pos hskip]
    exact ih hlinked hrest hknown
  | case3 merges pairs pair pairs' hpop left right hskip ih =>
    have hadj := hpairs pair ((heap.mem_pop hpop).mpr (.inl rfl))
    have hrest := fun q hq => hpairs q ((heap.mem_pop hpop).mpr (.inr hq))
    rw [mergeLoop, hpop]
    dsimp only
    rw [dif_neg hskip]
    simp only [not_or, Bool.not_eq_false] at hskip
    obtain ⟨hl, hr, hcurrent⟩ := hskip
    have hbetween := hadj.between hl hr
    have hlinked' := linked_mergePair hlinked hl hr hadj.lt hbetween
    have hmerged : (symbolAt (mergePair merges (pairing.a pair) (pairing.b pair)) (pairing.a pair)).runes = left.runes ++ right.runes := by
      rw [mergePair_runes (lt_of_runes hl), if_neg (by have := hadj.lt; omega), if_pos rfl]
    have hlive : (symbolAt (mergePair merges (pairing.a pair) (pairing.b pair)) (pairing.a pair)).runes ≠ [] := by
      rw [hmerged]
      exact List.append_ne_nil_of_left_ne_nil hl _
    rw [← flatMap_mergePair hadj.lt hadj.bound hbetween]
    refine ih hlinked' ?_ ?_
    · intro q hq
      obtain hq | hq := heap.mem_pushAll.mp hq
      · obtain hq | hq := List.mem_cons.mp hq
        · obtain ⟨hp, hdead⟩ := hlinked'.previous _ hlive
          exact hlaw.adjacent hq.symm hp hdead
        · obtain ⟨hn, hdead⟩ := hlinked'.next _ hlive
          exact hlaw.adjacent (List.mem_singleton.mp hq).symm (by exact_mod_cast hn)
            fun i hai hin => hdead i (by exact_mod_cast hai) hin
      · exact (hrest q hq).mergePair hlaw hl
    · intro i hi
      obtain ⟨hib, hold⟩ := runes_of_mergePair hl hi
      rw [mergePair_runes (lt_of_runes hold), if_neg hib.symm]
      split
      · exact hlaw.known pair _ _ hcurrent (hadj.fits hl hr)
      · exact hknown i hold

/-- The symbols that are left make up the text, and each one is known. -/
theorem mergeAll_spec (hlaw : pairing.Lawful Fits Known) {runes : List Char} (hknown : ∀ r ∈ runes, Known [r]) :
    (mergeAll pairing heap runes).flatMap (·.runes) = runes ∧
      ∀ m ∈ mergeAll pairing heap runes, m.runes ≠ [] → Known m.runes := by
  have hspec := @mergeLoop_spec _ _ _ _ (initialMerges runes) _ _ hlaw
    (heap.pushAll ((List.range (runes.length - 1)).map fun (i : Nat) =>
      pairing.pairwise (initialMerges runes) i (i + 1)) heap.empty) (linked_initial runes) ?_ ?_
  · obtain ⟨hkeep, hall⟩ := hspec
    rw [flatMap_initial] at hkeep
    refine ⟨hkeep, ?_⟩
    · intro m hm hne
      unfold mergeAll at hm
      obtain ⟨i, hi, rfl⟩ := List.getElem_of_mem hm
      have := hall i
      rw [symbolAt_eq _ _ hi] at this
      exact this hne
  · intro pair hpair
    obtain hpair | hpair := heap.mem_pushAll.mp hpair
    · obtain ⟨i, hi, hpair⟩ := List.mem_map.mp hpair
      exact hlaw.adjacent hpair (by omega) fun j hij hji => by omega
    · rw [heap.items_empty] at hpair
      cases hpair
  · intro i hi
    have hlt : i < runes.length := by simpa [initialMerges] using lt_of_runes hi
    rw [symbolAt_initial hlt]
    exact hknown _ (List.getElem_mem hlt)

end

end Xdragon.Tokenizer
