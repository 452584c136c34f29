import Mathlib.Data.List.Infix
import Xdragon.Lib.File

/-!
# Text as bytes

Where a text occurs in another one, and where a valid UTF-8 text can be cut.
-/

namespace Xdragon.Lib

/-! ## Search -/

/-- The first place in the text at which one of the patterns occurs. -/
def firstIndex (patterns : List Bytes) (text : Bytes) : Option Nat :=
  text.tails.findIdx? fun t => patterns.any (·.isPrefixOf t)

theorem firstIndex_eq_some {patterns : List Bytes} {text : Bytes} {i : Nat} :
    firstIndex patterns text = some i ↔ i ≤ text.length ∧ (∃ p ∈ patterns, p <+: text.drop i) ∧
      ∀ j < i, ∀ p ∈ patterns, ¬ p <+: text.drop j := by
  unfold firstIndex
  rw [List.findIdx?_eq_some_iff_getElem]
  simp only [List.length_tails, List.getElem_tails, List.any_eq_true, List.isPrefixOf_iff_prefix, not_exists, not_and]
  constructor
  · rintro ⟨h, hp, hj⟩
    exact ⟨by omega, hp, hj⟩
  · rintro ⟨h, hp, hj⟩
    exact ⟨by omega, hp, hj⟩

theorem firstIndex_eq_none {patterns : List Bytes} {text : Bytes} :
    firstIndex patterns text = none ↔ ∀ i ≤ text.length, ∀ p ∈ patterns, ¬ p <+: text.drop i := by
  unfold firstIndex
  rw [List.findIdx?_eq_none_iff]
  constructor
  · intro h i hi p hp hpre
    have := h (text.drop i) ((List.mem_tails _ _).mpr (List.drop_suffix i text))
    simp only [List.any_eq_false, List.isPrefixOf_iff_prefix] at this
    exact this p hp hpre
  · intro h t ht
    simp only [List.any_eq_false, List.isPrefixOf_iff_prefix]
    intro p hp hpre
    have hsuf := (List.mem_tails _ _).mp ht
    have hdrop := List.suffix_iff_eq_drop.mp hsuf
    rw [hdrop] at hpre
    exact h _ (Nat.sub_le _ _) p hp hpre

/-- A pattern that is not empty does not occur at the end of the text. -/
theorem lt_of_prefix_drop {p text : Bytes} {i : Nat} (hp : p ≠ []) (h : p <+: text.drop i) : i < text.length := by
  by_contra hge
  rw [List.drop_eq_nil_of_le (by omega)] at h
  exact hp (List.prefix_nil.mp h)

/-- When no pattern occurs before `a.length`, the search can start there. -/
theorem firstIndex_append {patterns : List Bytes} {a b : Bytes}
    (h : ∀ i < a.length, ∀ p ∈ patterns, ¬ p <+: (a ++ b).drop i) :
    firstIndex patterns (a ++ b) = (firstIndex patterns b).map (a.length + ·) := by
  have hdrop : ∀ j, (a ++ b).drop (a.length + j) = b.drop j := by
    intro j
    rw [List.drop_append, Nat.add_sub_cancel_left, List.drop_eq_nil_of_le (by omega), List.nil_append]
  cases hb : firstIndex patterns b with
  | none =>
    rw [firstIndex_eq_none] at hb
    rw [Option.map_none, firstIndex_eq_none]
    intro i hi p hp hpre
    by_cases hlt : i < a.length
    · exact h i hlt p hp hpre
    · rw [show i = a.length + (i - a.length) by omega, hdrop] at hpre
      rw [List.length_append] at hi
      exact hb _ (by omega) p hp hpre
  | some j =>
    rw [firstIndex_eq_some] at hb
    obtain ⟨hj, ⟨p, hp, hpre⟩, hmin⟩ := hb
    rw [Option.map_some, firstIndex_eq_some]
    refine ⟨by rw [List.length_append]; omega, ⟨p, hp, by rwa [hdrop]⟩, ?_⟩
    intro i hi q hq hqre
    by_cases hlt : i < a.length
    · exact h i hlt q hq hqre
    · rw [show i = a.length + (i - a.length) by omega, hdrop] at hqre
      exact hmin _ (by omega) q hq hqre

/-- A text in which nothing occurs has no beginning in which something occurs. -/
theorem firstIndex_append_none {patterns : List Bytes} {a b : Bytes} (h : firstIndex patterns (a ++ b) = none) :
    firstIndex patterns a = none := by
  rw [firstIndex_eq_none] at h ⊢
  intro i hi p hp hpre
  apply h i (by rw [List.length_append]; omega) p hp
  rw [List.drop_append_of_le_length hi]
  exact hpre.trans (List.prefix_append _ _)

/-! ## UTF-8 -/

/-- `utf8.ValidString`. -/
def validString (b : Bytes) : Bool := b.toByteArray.validateUTF8

theorem validString_iff {b : Bytes} : validString b = true ↔ ∃ m : List Char, m.flatMap String.utf8EncodeChar = b := by
  unfold validString
  rw [ByteArray.validateUTF8_eq_true_iff]
  constructor
  · rintro ⟨m, hm⟩
    refine ⟨m, ?_⟩
    have := congrArg (fun b => b.data.toList) hm
    simpa [List.utf8Encode] using this.symm
  · rintro ⟨m, rfl⟩
    exact ⟨m, rfl⟩

theorem validString_nil : validString [] = true := (validString_iff).mpr ⟨[], rfl⟩

theorem validString_append {a b : Bytes} (ha : validString a = true) (hb : validString b = true) :
    validString (a ++ b) = true := by
  obtain ⟨m, rfl⟩ := (validString_iff).mp ha
  obtain ⟨n, rfl⟩ := (validString_iff).mp hb
  exact (validString_iff).mpr ⟨m ++ n, List.flatMap_append⟩

theorem validString_flatten {ps : List Bytes} (h : ∀ p ∈ ps, validString p = true) : validString ps.flatten = true := by
  induction ps with
  | nil => exact validString_nil
  | cons p ps ih => exact validString_append (h p (by simp)) (ih fun q hq => h q (by simp [hq]))

theorem firstByte_head {b : Bytes} (h : validString b = true) (hne : b ≠ []) : (b.head hne).IsUTF8FirstByte := by
  obtain ⟨m, rfl⟩ := (validString_iff).mp h
  cases m with
  | nil => simp at hne
  | cons c m =>
    have hc : String.utf8EncodeChar c ≠ [] := String.utf8EncodeChar_ne_nil
    simp only [List.flatMap_cons, List.head_append_of_ne_nil hc, List.head_eq_getElem]
    exact UInt8.isUTF8FirstByte_getElem_utf8EncodeChar.mpr rfl

/-- A valid text can be cut before a valid text that is not empty. -/
theorem validString_left {x s y : Bytes} (hs : validString s = true) (hne : s ≠ []) (h : validString (x ++ (s ++ y)) = true) :
    validString x = true := by
  obtain ⟨m, hm⟩ := (validString_iff).mp h
  induction m generalizing x with
  | nil =>
    simp only [List.flatMap_nil, List.nil_eq, List.append_eq_nil_iff] at hm
    exact absurd hm.2.1 hne
  | cons c m ih =>
    rw [List.flatMap_cons, List.append_eq_append_iff] at hm
    obtain ⟨x', rfl, hrest⟩ | ⟨c', hc, hrest⟩ := hm
    · have hx' : validString x' = true := ih (validString_iff.mpr ⟨m, hrest⟩) hrest
      exact validString_append (validString_iff.mpr ⟨[c], by simp⟩) hx'
    · by_cases hx : x = []
      · rw [hx]
        exact validString_nil
      by_cases hc' : c' = []
      · rw [hc', List.append_nil] at hc
        exact (validString_iff).mpr ⟨[c], by simp [hc]⟩
      -- the cut would be inside of a character, but a character starts there
      have hlen : x.length < (String.utf8EncodeChar c).length := by
        rw [hc, List.length_append]
        have := List.length_pos_iff.mpr hc'
        omega
      have hbyte : (String.utf8EncodeChar c)[x.length] = s.head hne := by
        have h1 : (String.utf8EncodeChar c)[x.length]? = (s ++ y)[0]? := by
          have h0 : 0 < c'.length := List.length_pos_iff.mpr hc'
          rw [hc, hrest, List.getElem?_append_right (Nat.le_refl _), Nat.sub_self, List.getElem?_append_left h0]
        have h2 : (s ++ y)[0]? = some (s.head hne) := by
          rw [List.getElem?_append_left (List.length_pos_iff.mpr hne), ← List.head?_eq_getElem?, List.head?_eq_some_head hne]
        rw [h2, List.getElem?_eq_getElem hlen] at h1
        exact Option.some.inj h1
      have hfirst := firstByte_head hs hne
      rw [← hbyte, UInt8.isUTF8FirstByte_getElem_utf8EncodeChar] at hfirst
      exact absurd (List.length_eq_zero_iff.mp hfirst) hx

end Xdragon.Lib
