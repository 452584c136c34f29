import Xdragon.Lib.Runes
import Xdragon.Lib.Wire

/-!
# The words of WordPiece

`WordPiece.words` of `tokenizer/wordpiece.go`. The loop over a word steps over one byte of a punctuation character, whatever its
length. `unicode.IsPunct` is a parameter of the model.
-/

namespace Xdragon.Tokenizer.WordPiece

open Xdragon.Lib

/-- The CJK characters that are words of their own. -/
def isIdeograph (r : Char) : Bool :=
  let r := r.toNat
  (0x4e00 ≤ r && r ≤ 0x9fff) || (0x3400 ≤ r && r ≤ 0x4dbf) || (0x20000 ≤ r && r ≤ 0x2a6df) || (0x2a700 ≤ r && r ≤ 0x2b73f) ||
    (0x2b740 ≤ r && r ≤ 0x2b81f) || (0x2b820 ≤ r && r ≤ 0x2ceaf) || (0xf900 ≤ r && r ≤ 0xfaff) || (0x2f800 ≤ r && r ≤ 0x2fa1f)

/-- The runes that are appended for a rune. -/
def spaced (r : Char) : List Char := if isIdeograph r then [' ', r, ' '] else [r]

section
variable (isPunct : Char → Bool)

/-- The bytes in front of the first punctuation, which are all of them if there is none. -/
def unpunctuated (w : Bytes) : Bytes := ((runes w).takeWhile fun r => !r.char.any isPunct).flatMap Rune.bytes

/-- `strings.IndexFunc(w, unicode.IsPunct)`. -/
def indexPunct (w : Bytes) : Option Nat :=
  if (unpunctuated isPunct w).length < w.length then some (unpunctuated isPunct w).length else none

/-- The loop over a field, each turn of which takes a byte or more from it. -/
def splitPunct : Nat → Bytes → List Bytes
  | 0, _ => []
  | n + 1, w =>
    if w = [] then []
    else
      let last := match indexPunct isPunct w with
        | none => w.length
        | some 0 => 1
        | some i => i
      w.take last :: splitPunct n (w.drop last)

def words (s : Bytes) : List Bytes := (fields (ofRunes ((toRunes s).flatMap spaced))).flatMap fun w => splitPunct isPunct w.length w

end

/-! ## Fields -/

/-- The fields of a text of characters, where `field` is the one before. -/
def charFields (field : List Char) : List Char → List (List Char)
  | [] => if field = [] then [] else [field]
  | c :: cs =>
    if isSpace c then if field = [] then charFields [] cs else field :: charFields [] cs
    else charFields (field ++ [c]) cs

theorem ofRunes_eq_nil {r : List Char} : ofRunes r = [] ↔ r = [] := by
  constructor
  · intro h
    have := congrArg toRunes h
    rwa [toRunes_ofRunes] at this
  · rintro rfl
    rfl

theorem fieldsFrom_ofRunes (field cs : List Char) :
    fieldsFrom (ofRunes field) (cs.map Rune.ofChar) = (charFields field cs).map ofRunes := by
  induction cs generalizing field with
  | nil =>
    rw [List.map_nil, fieldsFrom, charFields]
    simp only [ofRunes_eq_nil]
    split_ifs <;> rfl
  | cons c cs ih =>
    have hnil := ih []
    have hcons := ih (field ++ [c])
    have hsingle : ofRunes (field ++ [c]) = ofRunes field ++ (Rune.ofChar c).bytes := by
      rw [ofRunes_append]
      exact congrArg _ (List.append_nil _)
    rw [ofRunes_nil] at hnil
    rw [hsingle] at hcons
    rw [List.map_cons, fieldsFrom, charFields]
    simp only [ofRunes_eq_nil, show (Rune.ofChar c).isSpace = isSpace c from rfl]
    split_ifs
    · exact hnil
    · rw [hnil, List.map_cons]
    · exact hcons

theorem fields_ofRunes (cs : List Char) : fields (ofRunes cs) = (charFields [] cs).map ofRunes := by
  rw [fields, runes_ofRunes]
  exact fieldsFrom_ofRunes [] cs

theorem flatten_charFields (field cs : List Char) : (charFields field cs).flatten = field ++ cs.filter fun c => !isSpace c := by
  induction cs generalizing field with
  | nil =>
    rw [charFields]
    split_ifs with hfield
    · rw [hfield]
      rfl
    · rw [List.flatten_singleton]
      exact (List.append_nil _).symm
  | cons c cs ih =>
    rw [charFields, List.filter_cons]
    by_cases hc : isSpace c = true
    · simp only [hc, if_true, Bool.not_true, Bool.false_eq_true, if_false]
      split_ifs with hfield
      · rw [ih, hfield]
      · rw [List.flatten_cons, ih, List.nil_append]
    · simp only [hc, Bool.not_false, if_true, if_false, Bool.false_eq_true]
      rw [ih, List.append_assoc]
      rfl

/-- A field has no white space, unless what was collected before has some. -/
theorem charFields_solid {field cs q : List Char} (hfield : ∀ c ∈ field, isSpace c = false) (hq : q ∈ charFields field cs) :
    q ≠ [] ∧ ∀ c ∈ q, isSpace c = false := by
  induction cs generalizing field with
  | nil =>
    rw [charFields] at hq
    split_ifs at hq with hnil
    · cases hq
    · rw [List.mem_singleton.mp hq]
      exact ⟨hnil, hfield⟩
  | cons c cs ih =>
    rw [charFields] at hq
    split_ifs at hq with hc hnil
    · exact ih (List.forall_mem_nil _) hq
    · obtain rfl | hq := List.mem_cons.mp hq
      · exact ⟨hnil, hfield⟩
      · exact ih (List.forall_mem_nil _) hq
    · apply ih _ hq
      intro x hx
      rcases List.mem_append.mp hx with hx | hx
      · exact hfield x hx
      · rw [List.mem_singleton.mp hx]
        exact Bool.eq_false_iff.mpr hc

theorem isIdeograph_solid {c : Char} (h : isIdeograph c = true) : isSpace c = false ∧ 128 ≤ c.toNat := by
  unfold isIdeograph at h
  unfold isSpace
  simp only [Bool.or_eq_true, Bool.and_eq_true, decide_eq_true_eq] at h
  simp only [Bool.or_eq_false_iff, Bool.and_eq_false_iff, beq_eq_false_iff_ne, decide_eq_false_iff_not]
  omega

/-- An ideograph is a field of its own. -/
theorem charFields_ideograph {field cs q : List Char} (hfield : ∀ c ∈ field, isIdeograph c = false)
    (hq : q ∈ charFields field (cs.flatMap spaced)) : (∀ c ∈ q, isIdeograph c = false) ∨ ∃ c, q = [c] := by
  induction cs generalizing field with
  | nil =>
    rw [List.flatMap_nil, charFields] at hq
    split_ifs at hq
    · cases hq
    · rw [List.mem_singleton.mp hq]
      exact .inl hfield
  | cons c cs ih =>
    rw [List.flatMap_cons, spaced] at hq
    by_cases hc : isIdeograph c = true
    · rw [if_pos hc] at hq
      have hspace := (isIdeograph_solid hc).1
      have hcut : charFields field ([' ', c, ' '] ++ cs.flatMap spaced) =
          (if field = [] then [] else [field]) ++ [c] :: charFields [] (cs.flatMap spaced) := by
        have hblank : isSpace ' ' = true := by decide
        simp only [List.cons_append, List.nil_append, charFields, hblank, hspace, if_true, Bool.false_eq_true, if_false, reduceCtorEq]
        split_ifs <;> rfl
      rw [hcut] at hq
      rcases List.mem_append.mp hq with hq | hq
      · split_ifs at hq
        · cases hq
        · rw [List.mem_singleton.mp hq]
          exact .inl hfield
      · obtain rfl | hq := List.mem_cons.mp hq
        · exact .inr ⟨c, rfl⟩
        · exact ih (List.forall_mem_nil _) hq
    · rw [if_neg hc, List.singleton_append, charFields] at hq
      split_ifs at hq
      · exact ih (List.forall_mem_nil _) hq
      · obtain rfl | hq := List.mem_cons.mp hq
        · exact .inl hfield
        · exact ih (List.forall_mem_nil _) hq
      · apply ih _ hq
        intro x hx
        rcases List.mem_append.mp hx with hx | hx
        · exact hfield x hx
        · rw [List.mem_singleton.mp hx]
          exact Bool.eq_false_iff.mpr hc

/-! ## The loop over a field -/

section
variable {isPunct : Char → Bool}

theorem unpunctuated_ofRunes (r : List Char) : unpunctuated isPunct (ofRunes r) = ofRunes (r.takeWhile fun c => !isPunct c) := by
  rw [unpunctuated, runes_ofRunes, List.takeWhile_map, List.flatMap_map]
  rfl

theorem length_ofRunes_pos {r : List Char} (hr : r ≠ []) : 0 < (ofRunes r).length :=
  List.length_pos_iff.mpr fun h => hr (ofRunes_eq_nil.mp h)

/-- A turn of the loop in front of punctuation takes a byte. -/
theorem splitPunct_punct {c : Char} (hc : isPunct c = true) (n : Nat) (r : List Char) : splitPunct isPunct (n + 1) (ofRunes (c :: r)) =
    (ofRunes (c :: r)).take 1 :: splitPunct isPunct n ((ofRunes (c :: r)).drop 1) := by
  have hne : ofRunes (c :: r) ≠ [] := fun h => List.cons_ne_nil _ _ (ofRunes_eq_nil.mp h)
  have hindex : indexPunct isPunct (ofRunes (c :: r)) = some 0 := by
    have hfront : (c :: r).takeWhile (fun c => !isPunct c) = [] := List.takeWhile_cons_of_neg (by simp [hc])
    rw [indexPunct, unpunctuated_ofRunes, hfront]
    exact if_pos (List.length_pos_iff.mpr hne)
  simp only [splitPunct, if_neg hne, hindex]

/-- Another turn takes the text up to the next punctuation. -/
theorem splitPunct_text {c : Char} (hc : isPunct c = false) (n : Nat) (r : List Char) : splitPunct isPunct (n + 1) (ofRunes (c :: r)) =
    ofRunes ((c :: r).takeWhile fun c => !isPunct c) :: splitPunct isPunct n (ofRunes ((c :: r).dropWhile fun c => !isPunct c)) := by
  have hne : ofRunes (c :: r) ≠ [] := fun h => List.cons_ne_nil _ _ (ofRunes_eq_nil.mp h)
  have hsplit : ofRunes (c :: r) =
      ofRunes ((c :: r).takeWhile fun c => !isPunct c) ++ ofRunes ((c :: r).dropWhile fun c => !isPunct c) := by
    rw [← ofRunes_append, List.takeWhile_append_dropWhile]
  have hfront : 0 < (ofRunes ((c :: r).takeWhile fun c => !isPunct c)).length := by
    apply length_ofRunes_pos
    rw [List.takeWhile_cons_of_pos (by simp [hc])]
    exact List.cons_ne_nil _ _
  have hlast : (match indexPunct isPunct (ofRunes (c :: r)) with
      | none => (ofRunes (c :: r)).length
      | some 0 => 1
      | some i => i) = (ofRunes ((c :: r).takeWhile fun c => !isPunct c)).length := by
    rw [indexPunct, unpunctuated_ofRunes]
    by_cases hlt : (ofRunes ((c :: r).takeWhile fun c => !isPunct c)).length < (ofRunes (c :: r)).length
    · rw [if_pos hlt]
      obtain ⟨k, hk⟩ := Nat.exists_eq_succ_of_ne_zero (Nat.pos_iff_ne_zero.mp hfront)
      rw [hk]
      rfl
    · rw [if_neg hlt]
      have := congrArg List.length hsplit
      rw [List.length_append] at this
      dsimp only
      omega
  simp only [splitPunct, if_neg hne]
  rw [hlast]
  congr 1
  · conv_lhs => rw [hsplit]
    exact List.take_left
  · congr 1
    conv_lhs => rw [hsplit]
    exact List.drop_left

/-- Punctuation of one byte: the words are single punctuation characters and the text between them. -/
theorem splitPunct_ascii {r : List Char} (hascii : ∀ c ∈ r, isPunct c = true → c.toNat < 128) {n : Nat}
    (hn : (ofRunes r).length ≤ n) : ∃ qs : List (List Char), splitPunct isPunct n (ofRunes r) = qs.map ofRunes ∧ qs.flatten = r ∧
      ∀ q ∈ qs, q ≠ [] ∧ ((∃ c, q = [c] ∧ isPunct c = true) ∨ ∀ c ∈ q, isPunct c = false) := by
  induction n generalizing r with
  | zero =>
    have hr : r = [] := ofRunes_eq_nil.mp (List.length_eq_zero_iff.mp (Nat.le_zero.mp hn))
    exact ⟨[], rfl, hr.symm, List.forall_mem_nil _⟩
  | succ n ih =>
    cases r with
    | nil => exact ⟨[], rfl, rfl, List.forall_mem_nil _⟩
    | cons c r =>
      by_cases hc : isPunct c = true
      · have hone : ofRunes (c :: r) = UInt8.ofNat c.toNat :: ofRunes r := by
          rw [ofRunes, List.flatMap_cons, utf8EncodeChar_ascii (hascii c (List.mem_cons_self ..) hc)]
          rfl
        have hchar : [UInt8.ofNat c.toNat] = ofRunes [c] := by
          rw [ofRunes, List.flatMap_singleton, utf8EncodeChar_ascii (hascii c (List.mem_cons_self ..) hc)]
        rw [hone, List.length_cons] at hn
        obtain ⟨qs, hqs, hflat, hall⟩ := ih (fun x hx => hascii x (List.mem_cons_of_mem _ hx)) (Nat.le_of_succ_le_succ hn)
        refine ⟨[c] :: qs, ?_, by rw [List.flatten_cons, hflat]; rfl, ?_⟩
        · rw [splitPunct_punct hc, hone, List.drop_one, List.tail_cons, hqs, List.map_cons, ← hchar]
          rfl
        · exact List.forall_mem_cons.mpr ⟨⟨List.cons_ne_nil _ _, .inl ⟨c, rfl, hc⟩⟩, hall⟩
      · have hc : isPunct c = false := Bool.eq_false_iff.mpr hc
        have hfront : (c :: r).takeWhile (fun c => !isPunct c) ≠ [] := by
          rw [List.takeWhile_cons_of_pos (by simp [hc])]
          exact List.cons_ne_nil _ _
        have hlength : (ofRunes ((c :: r).dropWhile fun c => !isPunct c)).length ≤ n := by
          have hsplit := congrArg (fun s => (ofRunes s).length)
            (@List.takeWhile_append_dropWhile _ (fun c => !isPunct c) (c :: r))
          have hpos := length_ofRunes_pos hfront
          simp only [ofRunes_append, List.length_append] at hsplit
          omega
        obtain ⟨qs, hqs, hflat, hall⟩ :=
          ih (fun x hx => hascii x ((List.dropWhile_suffix _).subset hx)) hlength
        refine ⟨(c :: r).takeWhile (fun c => !isPunct c) :: qs, ?_, ?_, ?_⟩
        · rw [splitPunct_text hc, hqs, List.map_cons]
        · rw [List.flatten_cons, hflat, List.takeWhile_append_dropWhile]
        · refine List.forall_mem_cons.mpr ⟨⟨hfront, .inr fun x hx => ?_⟩, hall⟩
          simpa using List.mem_takeWhile_imp hx

theorem validString_byte {x : UInt8} (h : validString [x] = true) : x.toNat < 128 := by
  obtain ⟨r, hr⟩ := validString_iff.mp h
  cases r with
  | nil => cases hr
  | cons c r =>
    rw [List.flatMap_cons] at hr
    by_cases hc : c.toNat < 128
    · rw [utf8EncodeChar_ascii hc] at hr
      rw [← (List.cons.inj hr).1, UInt8.toNat_ofNat']
      omega
    · have hlen := congrArg List.length hr
      have htwo := (utf8EncodeChar_high (c := c) (by omega)).1
      rw [List.length_append, List.length_singleton] at hlen
      omega

/-- Punctuation of more than one byte: its first byte is a word, which is no valid string. -/
theorem splitPunct_wide {r : List Char} {c : Char} (hc : c ∈ r) (hpunct : isPunct c = true) (hwide : 128 ≤ c.toNat) {n : Nat}
    (hn : (ofRunes r).length ≤ n) : ∃ w ∈ splitPunct isPunct n (ofRunes r), validString w = false := by
  induction n generalizing r with
  | zero =>
    have hr : r = [] := ofRunes_eq_nil.mp (List.length_eq_zero_iff.mp (Nat.le_zero.mp hn))
    rw [hr] at hc
    cases hc
  | succ n ih =>
    obtain ⟨d, r, rfl⟩ := List.exists_cons_of_ne_nil (List.ne_nil_of_mem hc)
    by_cases hd : isPunct d = true
    · rw [splitPunct_punct hd]
      by_cases hascii : d.toNat < 128
      · have hone : ofRunes (d :: r) = UInt8.ofNat d.toNat :: ofRunes r := by
          rw [ofRunes, List.flatMap_cons, utf8EncodeChar_ascii hascii]
          rfl
        have hmem : c ∈ r := by
          rcases List.mem_cons.mp hc with rfl | hc
          · omega
          · exact hc
        rw [hone, List.length_cons] at hn
        obtain ⟨w, hw, hvalid⟩ := ih hmem (Nat.le_of_succ_le_succ hn)
        refine ⟨w, List.mem_cons_of_mem _ ?_, hvalid⟩
        rwa [hone, List.drop_one, List.tail_cons]
      · refine ⟨_, List.mem_cons_self .., ?_⟩
        obtain ⟨x, xs, hx⟩ := List.exists_cons_of_ne_nil (@String.utf8EncodeChar_ne_nil d)
        have hhigh := ((utf8EncodeChar_high (c := d) (by omega)).2 x (hx ▸ List.mem_cons_self ..)).1
        have htake : (ofRunes (d :: r)).take 1 = [x] := by
          rw [ofRunes, List.flatMap_cons, hx]
          rfl
        rw [htake, Bool.eq_false_iff]
        intro hvalid
        have := validString_byte hvalid
        omega
    · have hd : isPunct d = false := Bool.eq_false_iff.mpr hd
      have hfront : (d :: r).takeWhile (fun c => !isPunct c) ≠ [] := by
        rw [List.takeWhile_cons_of_pos (by simp [hd])]
        exact List.cons_ne_nil _ _
      have hsplit := @List.takeWhile_append_dropWhile _ (fun c => !isPunct c) (d :: r)
      have hmem : c ∈ (d :: r).dropWhile fun c => !isPunct c := by
        rw [← hsplit] at hc
        rcases List.mem_append.mp hc with hc | hc
        · have := List.mem_takeWhile_imp hc
          simp [hpunct] at this
        · exact hc
      have hlength : (ofRunes ((d :: r).dropWhile fun c => !isPunct c)).length ≤ n := by
        have hsplit := congrArg (fun s => (ofRunes s).length) hsplit
        have hpos := length_ofRunes_pos hfront
        simp only [ofRunes_append, List.length_append] at hsplit
        omega
      obtain ⟨w, hw, hvalid⟩ := ih hmem hlength
      refine ⟨w, ?_, hvalid⟩
      rw [splitPunct_text hd]
      exact List.mem_cons_of_mem _ hw

/-! ## Words -/

/-- A word is valid, one punctuation character or free of punctuation and white space, and an ideograph in it is all of it. -/
structure Proper (isPunct : Char → Bool) (w : Bytes) : Prop where
  valid : validString w = true
  split : (∃ c, w = ofRunes [c] ∧ isPunct c = true) ∨ ∀ c ∈ toRunes w, isPunct c = false ∧ isSpace c = false
  ideograph : ∀ c ∈ toRunes w, isIdeograph c = true → w = ofRunes [c]

/-- The words are proper and make up the text without its white space. -/
def Respects (isPunct : Char → Bool) (s : Bytes) : Prop :=
  (∀ w ∈ words isPunct s, Proper isPunct w) ∧ (words isPunct s).flatten = ofRunes ((toRunes s).filter fun c => !isSpace c)

/-- White space is no ideograph, so the spaces around ideographs change nothing else. -/
theorem filter_spaced (cs : List Char) : (cs.flatMap spaced).filter (fun c => !isSpace c) = cs.filter fun c => !isSpace c := by
  induction cs with
  | nil => rfl
  | cons c cs ih =>
    have hblank : isSpace ' ' = true := by decide
    rw [List.flatMap_cons, List.filter_append, ih, spaced]
    split_ifs with hc
    · simp [hblank, (isIdeograph_solid hc).1]
    · rw [List.filter_cons, List.filter_cons]
      split_ifs <;> rfl

theorem mem_words {w : Bytes} {s : Bytes} : w ∈ words isPunct s ↔
    ∃ q ∈ charFields [] ((toRunes s).flatMap spaced), w ∈ splitPunct isPunct (ofRunes q).length (ofRunes q) := by
  rw [words, fields_ofRunes, List.mem_flatMap]
  simp only [List.mem_map, exists_exists_and_eq_and]

/-- Words respect the characters of a text if and only if its punctuation takes one byte each. -/
theorem words_respect_iff (isPunct : Char → Bool) (s : Bytes) :
    Respects isPunct s ↔ ∀ c ∈ toRunes s, isPunct c = true → isSpace c = false → c.toNat < 128 := by
  have hmem : ∀ c, (∃ q ∈ charFields [] ((toRunes s).flatMap spaced), c ∈ q) ↔ c ∈ toRunes s ∧ isSpace c = false := by
    intro c
    have hflat := flatten_charFields [] ((toRunes s).flatMap spaced)
    rw [List.nil_append, filter_spaced] at hflat
    rw [← List.mem_flatten, hflat, List.mem_filter]
    simp
  constructor
  · rintro ⟨hproper, -⟩ c hc hpunct hspace
    by_contra hwide
    obtain ⟨q, hq, hcq⟩ := (hmem c).mpr ⟨hc, hspace⟩
    obtain ⟨w, hw, hinvalid⟩ := splitPunct_wide hcq hpunct (by omega) (Nat.le_refl _)
    have hvalid := (hproper w (mem_words.mpr ⟨q, hq, hw⟩)).valid
    rw [hinvalid] at hvalid
    cases hvalid
  · intro hascii
    have hsplit : ∀ q ∈ charFields [] ((toRunes s).flatMap spaced), ∃ qs : List (List Char),
        splitPunct isPunct (ofRunes q).length (ofRunes q) = qs.map ofRunes ∧ qs.flatten = q ∧
        ∀ p ∈ qs, p ≠ [] ∧ ((∃ c, p = [c] ∧ isPunct c = true) ∨ ∀ c ∈ p, isPunct c = false) := by
      intro q hq
      apply splitPunct_ascii _ (Nat.le_refl _)
      intro c hc hpunct
      obtain ⟨hcs, hspace⟩ := (hmem c).mp ⟨q, hq, hc⟩
      exact hascii c hcs hpunct hspace
    constructor
    · intro w hw
      obtain ⟨q, hq, hw⟩ := mem_words.mp hw
      obtain ⟨qs, hqs, hflat, hall⟩ := hsplit q hq
      rw [hqs] at hw
      obtain ⟨p, hp, rfl⟩ := List.mem_map.mp hw
      have hin : ∀ c ∈ p, c ∈ q := fun c hc => hflat ▸ List.mem_flatten_of_mem hp hc
      refine ⟨validString_ofRunes p, ?_, ?_⟩
      · rcases (hall p hp).2 with ⟨c, rfl, hc⟩ | hnone
        · exact .inl ⟨c, rfl, hc⟩
        · rw [toRunes_ofRunes]
          exact .inr fun c hc => ⟨hnone c hc, (charFields_solid (List.forall_mem_nil _) hq).2 c (hin c hc)⟩
      · intro c hc hideograph
        rw [toRunes_ofRunes] at hc
        rcases charFields_ideograph (List.forall_mem_nil _) hq with hnone | ⟨d, rfl⟩
        · rw [hnone c (hin c hc)] at hideograph
          cases hideograph
        · -- a part of a field with one character is that character
          obtain rfl := List.mem_singleton.mp (hin c hc)
          have hinside := List.infix_of_mem_flatten hp
          rw [hflat] at hinside
          have hle := hinside.length_le
          rw [hinside.eq_of_length (Nat.le_antisymm hle (List.length_pos_of_mem hc))]
    · have hflat : ∀ q ∈ charFields [] ((toRunes s).flatMap spaced),
          (splitPunct isPunct (ofRunes q).length (ofRunes q)).flatten = ofRunes q := by
        intro q hq
        obtain ⟨qs, hqs, rfl, -⟩ := hsplit q hq
        rw [hqs, flatten_map_ofRunes]
      have hfields := flatten_charFields [] ((toRunes s).flatMap spaced)
      rw [List.nil_append, filter_spaced] at hfields
      rw [words, fields_ofRunes, List.flatMap_map, List.flatMap_def, List.flatten_flatten, List.map_map, ← hfields,
        ← flatten_map_ofRunes]
      exact congrArg List.flatten (List.map_congr_left hflat)

/-- Some of the punctuation. -/
def somePunct (c : Char) : Bool := c == '!' || c == '“' || c == '”'

/-- Quotation marks of three bytes are torn apart. -/
theorem quotationMark_torn : words somePunct (ofRunes "“hi”".toList) = [[0xe2], [0x80, 0x9c] ++ ascii "hi", [0xe2], [0x80, 0x9d]] ∧
    ¬ Respects somePunct (ofRunes "“hi”".toList) := by
  have hwords : words somePunct (ofRunes "“hi”".toList) = [[0xe2], [0x80, 0x9c] ++ ascii "hi", [0xe2], [0x80, 0x9d]] := by
    decide +kernel
  refine ⟨hwords, fun h => ?_⟩
  have hvalid := (h.1 [0xe2] (hwords ▸ List.mem_cons_self ..)).valid
  exact absurd hvalid (by decide +kernel)

end

end Xdragon.Tokenizer.WordPiece
