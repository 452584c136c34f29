import Xdragon.Lib.Runes
import Xdragon.Tokenizer.BytePair

/-!
# What pre-tokenisation keeps

`BytePairEncoding.split` yields the text in front of a match from the start of the part, not from the end of the match before. So
it repeats text unless every match follows the one before it.
-/

namespace Xdragon.Tokenizer

open Xdragon.Lib (Bytes ascii validString ofRunes toRunes ofRunes_append toRunes_ofRunes ofRunes_toRunes
  flatten_map_ofRunes)

/-! ## Matches -/

/-- Matches in a slice of `len` runes that are not empty and do not overlap, in increasing order. -/
@[grind =]
def Ordered (len : Nat) : Nat → List Match → Prop
  | _, [] => True
  | offset, m :: ms => offset ≤ m.index ∧ 0 < m.length ∧ m.index + m.length ≤ len ∧ Ordered len (m.index + m.length) ms

/-- Each match starts where the one before ends. -/
@[grind =]
def Follows : Nat → List Match → Prop
  | _, [] => True
  | offset, m :: ms => m.index = offset ∧ Follows (m.index + m.length) ms

/-- No text lies between two matches. -/
def Adjacent : List Match → Prop
  | [] => True
  | m :: ms => Follows (m.index + m.length) ms

/-- The matches of a part and the text around them, in their order. -/
@[grind =]
def cutAt (r : List Char) : Nat → List Match → List (List Char)
  | offset, [] => if offset < r.length then [r.drop offset] else []
  | offset, m :: ms =>
    (if offset < m.index then [(r.take m.index).drop offset] else []) ++
      (r.drop m.index).take m.length :: cutAt r (m.index + m.length) ms

/-- No text lies between two matches of an expression in a part that the expressions before it cut out. -/
@[grind =]
def Gapless : List Regexp → List Char → Prop
  | [], _ => True
  | re :: res, r => Adjacent (re r) ∧ ∀ part ∈ cutAt r 0 (re r), Gapless res part

variable {r : List Char} {offset : Nat} {ms : List Match}

theorem flatten_cutAt (h : Ordered r.length offset ms) : (cutAt r offset ms).flatten = r.drop offset := by
  induction ms generalizing offset with
  | nil =>
    rw [cutAt]
    split_ifs with hlt
    · exact List.append_nil _
    · exact (List.drop_eq_nil_of_le (by omega)).symm
  | cons m ms ih =>
    obtain ⟨hle, -, hbound, hrest⟩ := h
    have hgap : (if offset < m.index then [(r.take m.index).drop offset] else []).flatten = (r.take m.index).drop offset := by
      split_ifs with hlt
      · exact List.append_nil _
      · rw [List.drop_eq_nil_of_le (by rw [List.length_take]; omega)]
        rfl
    rw [cutAt, List.flatten_append, List.flatten_cons, hgap, ih hrest, ← List.drop_drop, List.take_append_drop,
      ← List.drop_append_of_le_length (by rw [List.length_take]; omega), List.take_append_drop]

/-- What is yielded for adjacent matches is what the matches cut out. -/
theorem yieldMatches_follows (h : Follows offset ms) : yieldMatches r offset ms = (cutAt r offset ms).map ofRunes := by
  induction ms generalizing offset with
  | nil =>
    rw [yieldMatches, cutAt]
    split_ifs <;> rfl
  | cons m ms ih =>
    obtain ⟨rfl, hrest⟩ := h
    have hgap : ¬ (m.index : Int) - m.index ≠ 0 := by simp
    rw [yieldMatches, cutAt, ih hrest, if_neg hgap, if_neg (Nat.lt_irrefl _)]
    rfl

theorem yieldMatches_adjacent (h : Adjacent ms) : yieldMatches r 0 ms = (cutAt r 0 ms).map ofRunes := by
  cases ms with
  | nil => exact yieldMatches_follows trivial
  | cons m ms =>
    rw [yieldMatches, cutAt, yieldMatches_follows h]
    by_cases hm : m.index = 0
    · simp [hm]
    · have hpos : 0 < m.index := Nat.pos_of_ne_zero hm
      simp [hm, hpos]

theorem length_drop_ofRunes_le (r : List Char) (n : Nat) : (ofRunes (r.drop n)).length ≤ (ofRunes r).length := by
  conv_rhs => rw [← List.take_append_drop n r, ofRunes_append, List.length_append]
  omega

/-- At least the rest of the part is yielded, and more than that if a gap follows a match. -/
theorem length_yieldMatches (h : Ordered r.length offset ms) :
    (ofRunes (r.drop offset)).length ≤ (yieldMatches r offset ms).flatten.length ∧
    (0 < offset → ¬ Follows offset ms → (ofRunes (r.drop offset)).length < (yieldMatches r offset ms).flatten.length) := by
  induction ms generalizing offset with
  | nil =>
    refine ⟨?_, fun _ hnot => absurd trivial hnot⟩
    rw [yieldMatches]
    split_ifs with hlt
    · simp
    · rw [List.drop_eq_nil_of_le (by omega)]
      simp
  | cons m ms ih =>
    obtain ⟨hle, -, hbound, hrest⟩ := h
    obtain ⟨hlength, hstrict⟩ := ih hrest
    -- the rest of the part is the gap, the match and what is behind it
    have hdrop : (ofRunes (r.drop offset)).length = (ofRunes ((r.take m.index).drop offset)).length +
        ((ofRunes ((r.drop m.index).take m.length)).length + (ofRunes (r.drop (m.index + m.length))).length) := by
      have heq : r.drop offset = (r.take m.index).drop offset ++ ((r.drop m.index).take m.length ++ r.drop (m.index + m.length)) := by
        rw [← List.drop_drop, List.take_append_drop, ← List.drop_append_of_le_length (by rw [List.length_take]; omega),
          List.take_append_drop]
      rw [heq, ofRunes_append, ofRunes_append, List.length_append, List.length_append]
    have hgap := length_drop_ofRunes_le (r.take m.index) offset
    rw [yieldMatches, List.flatten_append, List.flatten_cons, List.length_append, List.length_append]
    by_cases hm : m.index = offset
    · have hnil : (r.take m.index).drop offset = [] := List.drop_eq_nil_of_le (by rw [List.length_take]; omega)
      have hzero : (ofRunes []).length = 0 := rfl
      rw [hnil, hzero] at hdrop
      have hnogap : ¬ (offset : Int) - m.index ≠ 0 := by omega
      rw [if_neg hnogap, List.flatten_nil, List.length_nil, hdrop]
      refine ⟨by omega, fun hpos hnot => ?_⟩
      have := hstrict (by omega) fun hrest => hnot ⟨hm, hrest⟩
      omega
    · have hyield : (offset : Int) - m.index ≠ 0 := by omega
      rw [if_pos hyield, List.flatten_singleton]
      refine ⟨by omega, fun hpos _ => ?_⟩
      have hmore : (ofRunes ((r.take m.index).drop offset)).length < (ofRunes (r.take m.index)).length := by
        have hsplit : ofRunes (r.take m.index) = ofRunes ((r.take m.index).take offset) ++ ofRunes ((r.take m.index).drop offset) := by
          rw [← ofRunes_append, List.take_append_drop]
        obtain ⟨c, rest, hc⟩ : ∃ c rest, (r.take m.index).take offset = c :: rest := by
          apply List.exists_cons_of_length_pos
          rw [List.length_take, List.length_take]
          omega
        have hlen : 0 < (ofRunes (c :: rest)).length := by
          have := c.utf8Size_pos
          rw [ofRunes, List.flatMap_cons, List.length_append, String.length_utf8EncodeChar]
          omega
        rw [hsplit, hc, List.length_append]
        omega
      omega

/-- A part is yielded as it is if and only if its matches are adjacent, and otherwise something is yielded twice. -/
theorem yieldMatches_part (h : Ordered r.length 0 ms) :
    (Adjacent ms ∧ yieldMatches r 0 ms = (cutAt r 0 ms).map ofRunes) ∨
    (¬ Adjacent ms ∧ (ofRunes r).length < (yieldMatches r 0 ms).flatten.length) := by
  by_cases hadj : Adjacent ms
  · exact .inl ⟨hadj, yieldMatches_adjacent hadj⟩
  · refine .inr ⟨hadj, ?_⟩
    cases ms with
    | nil => exact absurd trivial hadj
    | cons m ms =>
      obtain ⟨-, hpos, hbound, hrest⟩ := h
      have hstrict := (length_yieldMatches hrest).2 (by omega) hadj
      have hsplit : ofRunes r = ofRunes (r.take m.index) ++
          (ofRunes ((r.drop m.index).take m.length) ++ ofRunes (r.drop (m.index + m.length))) := by
        rw [← ofRunes_append, ← ofRunes_append, ← List.drop_drop, List.take_append_drop, List.take_append_drop]
      have hgap : (if ((0 : Nat) : Int) - m.index ≠ 0 then [ofRunes (r.take m.index)] else []).flatten = ofRunes (r.take m.index) := by
        split_ifs with hm
        · exact List.append_nil _
        · obtain hm : m.index = 0 := by omega
          rw [hm]
          rfl
      rw [yieldMatches, List.flatten_append, List.flatten_cons, hgap, hsplit]
      simp only [List.length_append]
      omega

theorem yieldMatches_valid (r : List Char) (offset : Nat) (ms : List Match) :
    ∃ parts : List (List Char), yieldMatches r offset ms = parts.map ofRunes := by
  induction ms generalizing offset with
  | nil =>
    rw [yieldMatches]
    split_ifs
    · exact ⟨[r.drop offset], rfl⟩
    · exact ⟨[], rfl⟩
  | cons m ms ih =>
    obtain ⟨parts, hparts⟩ := ih (m.index + m.length)
    rw [yieldMatches, hparts]
    split_ifs
    · exact ⟨r.take m.index :: (r.drop m.index).take m.length :: parts, rfl⟩
    · exact ⟨(r.drop m.index).take m.length :: parts, rfl⟩

/-! ## Splits -/

/-- Every expression finds matches that are not empty and do not overlap, in increasing order. -/
def Matching (re : Regexp) : Prop := ∀ r, Ordered r.length 0 (re r)

/-- The parts that an expression makes of parts. -/
def splitParts (parts : List Bytes) (re : Regexp) : List Bytes :=
  parts.flatMap fun part => yieldMatches (toRunes part) 0 (re (toRunes part))

theorem splitParts_ofRunes (parts : List (List Char)) (re : Regexp) :
    splitParts (parts.map ofRunes) re = parts.flatMap fun part => yieldMatches part 0 (re part) := by
  rw [splitParts, List.flatMap_map]
  exact List.flatMap_congr fun part _ => by rw [toRunes_ofRunes]

/-- One expression: either all parts are cut at adjacent matches, or the parts become longer. -/
theorem splitParts_cases {re : Regexp} (hre : Matching re) (parts : List (List Char)) :
    ((∀ part ∈ parts, Adjacent (re part)) ∧
      splitParts (parts.map ofRunes) re = (parts.flatMap fun part => cutAt part 0 (re part)).map ofRunes) ∨
    (¬ (∀ part ∈ parts, Adjacent (re part)) ∧ ∃ parts' : List (List Char), splitParts (parts.map ofRunes) re = parts'.map ofRunes ∧
      (ofRunes parts.flatten).length < (ofRunes parts'.flatten).length) := by
  simp only [splitParts_ofRunes]
  induction parts with
  | nil => exact .inl ⟨nofun, rfl⟩
  | cons part parts ih =>
    have hcut : (cutAt part 0 (re part)).flatten = part := flatten_cutAt (hre part)
    have hcuts : (parts.flatMap fun part => cutAt part 0 (re part)).flatten = parts.flatten := by
      rw [List.flatMap_def, List.flatten_flatten, List.map_map]
      exact congrArg List.flatten (List.map_id'' (fun part => flatten_cutAt (hre part)) parts)
    simp only [List.flatMap_cons, List.forall_mem_cons, List.flatten_cons, ofRunes_append, List.length_append]
    obtain ⟨hadj, hyield⟩ | ⟨hnot, hyield⟩ := yieldMatches_part (hre part)
    · obtain ⟨hrest, heq⟩ | ⟨hrest, parts', heq, hlt⟩ := ih
      · refine .inl ⟨⟨hadj, hrest⟩, ?_⟩
        rw [hyield, heq, List.map_append]
      · refine .inr ⟨fun h => hrest h.2, cutAt part 0 (re part) ++ parts', ?_, ?_⟩
        · rw [hyield, heq, List.map_append]
        · rw [List.flatten_append, hcut, ofRunes_append, List.length_append]
          omega
    · obtain ⟨qs, hqs⟩ := yieldMatches_valid part 0 (re part)
      have hqs' : (ofRunes qs.flatten).length = (yieldMatches part 0 (re part)).flatten.length := by
        rw [hqs, flatten_map_ofRunes]
      obtain ⟨hrest, heq⟩ | ⟨hrest, parts', heq, hlt⟩ := ih
      · refine .inr ⟨fun h => hnot h.1, qs ++ (parts.flatMap fun part => cutAt part 0 (re part)), ?_, ?_⟩
        · rw [hqs, heq, List.map_append]
        · rw [List.flatten_append, hcuts, ofRunes_append, List.length_append]
          omega
      · refine .inr ⟨fun h => hnot h.1, qs ++ parts', ?_, ?_⟩
        · rw [hqs, heq, List.map_append]
        · rw [List.flatten_append, ofRunes_append, List.length_append]
          omega

/-- All expressions: text that is yielded twice stays. -/
theorem foldl_splitParts {res : List Regexp} (hres : ∀ re ∈ res, Matching re) (parts : List (List Char)) :
    ((res.foldl splitParts (parts.map ofRunes)).flatten = ofRunes parts.flatten ↔ ∀ part ∈ parts, Gapless res part) ∧
    (ofRunes parts.flatten).length ≤ (res.foldl splitParts (parts.map ofRunes)).flatten.length := by
  induction res generalizing parts with
  | nil =>
    rw [List.foldl_nil, flatten_map_ofRunes]
    exact ⟨iff_of_true rfl fun _ _ => trivial, Nat.le_refl _⟩
  | cons re res ih =>
    have hre := hres re (List.mem_cons_self ..)
    have ih := fun parts => ih (fun re' hre' => hres re' (List.mem_cons_of_mem _ hre')) parts
    rw [List.foldl_cons]
    obtain ⟨hadj, heq⟩ | ⟨hnot, parts', heq, hlt⟩ := splitParts_cases hre parts
    · have hcuts : (parts.flatMap fun part => cutAt part 0 (re part)).flatten = parts.flatten := by
        rw [List.flatMap_def, List.flatten_flatten, List.map_map]
        exact congrArg List.flatten (List.map_id'' (fun part => flatten_cutAt (hre part)) parts)
      obtain ⟨hiff, hle⟩ := ih (parts.flatMap fun part => cutAt part 0 (re part))
      rw [hcuts] at hiff hle
      rw [heq]
      refine ⟨hiff.trans ?_, hle⟩
      constructor
      · exact fun h part hpart => ⟨hadj part hpart, fun q hq => h q (List.mem_flatMap.mpr ⟨part, hpart, hq⟩)⟩
      · intro h q hq
        obtain ⟨part, hpart, hq⟩ := List.mem_flatMap.mp hq
        exact (h part hpart).2 q hq
    · have hle := (ih parts').2
      rw [heq]
      refine ⟨iff_of_false (fun h => ?_) fun h => hnot fun part hpart => (h part hpart).1, by omega⟩
      rw [h] at hle
      omega

/-- A text is split without loss, and without repetition, if and only if no text lies between two matches. -/
theorem split_eq_iff {S : Type} (bpe : BytePairEncoding S) (hmatching : ∀ re ∈ bpe.regexps, Matching re) {s : Bytes}
    (hs : validString s = true) : (bpe.split s).flatten = s ↔ Gapless bpe.regexps (toRunes s) := by
  have h := (foldl_splitParts hmatching [toRunes s]).1
  have hsplit : bpe.split s = bpe.regexps.foldl splitParts [s] := rfl
  rw [List.map_singleton, ofRunes_toRunes hs, List.flatten_singleton, ofRunes_toRunes hs] at h
  rw [hsplit, h, List.forall_mem_singleton]

/-- The places of a letter from an index on. -/
@[grind =]
def letterFrom (c : Char) : Nat → Regexp
  | _, [] => []
  | i, x :: r => if x = c then ⟨i, 1⟩ :: letterFrom c (i + 1) r else letterFrom c (i + 1) r

/-- A pattern of one letter. -/
def letter (c : Char) : Regexp := letterFrom c 0

theorem matching_letter (c : Char) : Matching (letter c) := by
  have hfrom : ∀ r i offset, offset ≤ i → Ordered (i + r.length) offset (letterFrom c i r) := by
    intro r
    induction r with
    | nil => exact fun i offset _ => trivial
    | cons x r ih =>
      intro i offset hle
      rw [letterFrom, List.length_cons, show i + (r.length + 1) = i + 1 + r.length by omega]
      split_ifs with hx
      · exact ⟨hle, Nat.one_pos, Nat.le_add_right (i + 1) r.length, ih (i + 1) (i + 1) (Nat.le_refl _)⟩
      · exact ih (i + 1) offset (by omega)
  intro r
  have := hfrom r 0 0 (Nat.le_refl _)
  rwa [Nat.zero_add] at this

theorem no_types : ([] : List Int).length = ([] : List Bytes).length := rfl

/-- A tokenizer that cuts at the letter `b`. -/
def cutAtB : BytePairEncoding Unit where
  vocab   := { values := [], types := [], types_length := no_types, values_lt := no_merges, merges_lt := no_merges }
  regexps := [letter 'b']

theorem matching_cutAtB : ∀ re ∈ cutAtB.regexps, Matching re := by
  intro re hre
  rw [List.mem_singleton.mp hre]
  exact matching_letter 'b'

theorem split_abba : (cutAtB.split (ascii "abba")).flatten = ascii "abba" ↔ Gapless cutAtB.regexps (toRunes (ascii "abba")) :=
  split_eq_iff cutAtB matching_cutAtB (by decide)

/-- The text between two matches comes with all that stands before it. -/
theorem gap_repeats : (∀ re ∈ cutAtB.regexps, Matching re) ∧ validString (ascii "abab") = true ∧
    cutAtB.split (ascii "abab") = [ascii "a", ascii "b", ascii "aba", ascii "b"] ∧
    (cutAtB.split (ascii "abab")).flatten ≠ ascii "abab" :=
  ⟨matching_cutAtB, by decide, by decide, by decide⟩

end Xdragon.Tokenizer
