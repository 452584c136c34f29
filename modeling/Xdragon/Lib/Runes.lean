import Xdragon.Lib.Utf8

/-!
# Runes of parts of a text

Where a text is cut in front of the first byte of a rune its runes are those of its parts, also if they are no valid strings.
-/

namespace Xdragon.Lib

/-! ## Cuts -/

theorem runes_append {a b : Bytes} (hb : ∀ x ∈ b.head?, x.IsUTF8FirstByte) : runes (a ++ b) = runes a ++ runes b := by
  induction hn : a.length using Nat.strongRecOn generalizing a with
  | _ n ih =>
    obtain rfl | ⟨c, rest, rfl, -⟩ | ⟨x, rest, rfl, hx, hr⟩ := runes_cases a
    · rfl
    · have hpos := c.utf8Size_pos
      rw [List.length_append, String.length_utf8EncodeChar] at hn
      rw [List.append_assoc, runes_encode, runes_encode, ih rest.length (by omega) rfl, List.cons_append]
    · rw [List.length_cons] at hn
      have hnone : decodeRune (x :: (rest ++ b)) = none := by
        -- a rune that takes something of `b` would have its first byte behind its start
        rw [Option.eq_none_iff_forall_ne_some]
        intro c hc
        obtain ⟨t, ht⟩ := decodeRune_eq_some.mp hc
        rw [← List.cons_append, List.append_eq_append_iff] at ht
        obtain ⟨u, hu, hb'⟩ | ⟨u, hu, -⟩ := ht
        · cases u with
          | nil =>
            rw [List.append_nil] at hu
            rw [← hu, ← List.append_nil (String.utf8EncodeChar c), decodeRune_encode] at hx
            cases hx
          | cons y u =>
            refine not_first_of_tail (hu.trans (List.cons_append ..)) (List.mem_append_right _ (List.mem_cons_self ..)) ?_
            refine hb y ?_
            rw [hb']
            rfl
        · rw [hu, decodeRune_encode] at hx
          cases hx
      rw [List.cons_append, runes_invalid hnone, runes_invalid hx, ih rest.length (by omega) rfl, List.cons_append]

theorem first_encode (c : Char) (b : Bytes) : ∀ x ∈ (String.utf8EncodeChar c ++ b).head?, x.IsUTF8FirstByte := by
  intro x hx
  obtain ⟨y, ys, hy⟩ := List.exists_cons_of_ne_nil (@String.utf8EncodeChar_ne_nil c)
  rw [hy, List.cons_append, List.head?_cons, Option.mem_some_iff] at hx
  have hpos : 0 < (String.utf8EncodeChar c).length := by simp [hy]
  have hfirst : (String.utf8EncodeChar c)[0] = x := by simp [hy, hx]
  rw [← hfirst, UInt8.isUTF8FirstByte_getElem_utf8EncodeChar]

theorem runes_append_encode (a : Bytes) (c : Char) (b : Bytes) :
    runes (a ++ (String.utf8EncodeChar c ++ b)) = runes a ++ .ofChar c :: runes b := by
  rw [runes_append (first_encode c b), runes_encode]

theorem runes_ofRunes (r : List Char) : runes (ofRunes r) = r.map Rune.ofChar := by
  induction r with
  | nil => rfl
  | cons c r ih =>
    rw [ofRunes, List.flatMap_cons, runes_encode, List.map_cons, ← ih]
    rfl

theorem flatten_map_ofRunes (parts : List (List Char)) : (parts.map ofRunes).flatten = ofRunes parts.flatten := by
  induction parts with
  | nil => rfl
  | cons part parts ih => rw [List.map_cons, List.flatten_cons, ih, List.flatten_cons, ofRunes_append]

/-! ## Texts that are trimmed -/

theorem trimLeft_encode {c : Char} (hc : isSpace c = false) (b : Bytes) :
    trimLeft (String.utf8EncodeChar c ++ b) = String.utf8EncodeChar c ++ b := by
  have hspace : ¬ (Rune.ofChar c).isSpace = true := by simp [Rune.isSpace, Rune.ofChar, hc]
  rw [trimLeft, runes_encode, List.dropWhile_cons_of_neg hspace, ← runes_encode, flatMap_runes]

theorem trimRight_encode (a : Bytes) {c : Char} (hc : isSpace c = false) :
    trimRight (a ++ String.utf8EncodeChar c) = a ++ String.utf8EncodeChar c := by
  have hspace : ¬ (Rune.ofChar c).isSpace = true := by simp [Rune.isSpace, Rune.ofChar, hc]
  have hrunes : runes (a ++ String.utf8EncodeChar c) = runes a ++ [.ofChar c] := by
    simpa using runes_append_encode a c []
  rw [trimRight, hrunes, List.rdropWhile_concat_neg _ _ _ hspace, ← hrunes, flatMap_runes]

/-- A text that starts and ends with a rune that is no white space. -/
theorem trimSpace_encode {a b : Bytes} {c d : Char} (h : String.utf8EncodeChar c ++ b = a ++ String.utf8EncodeChar d)
    (hc : isSpace c = false) (hd : isSpace d = false) :
    trimSpace (String.utf8EncodeChar c ++ b) = String.utf8EncodeChar c ++ b := by
  rw [trimSpace, trimLeft_encode hc, h, trimRight_encode a hd]

theorem trimSpace_ofRunes {r : List Char} (h : ∀ c ∈ r, isSpace c = false) : trimSpace (ofRunes r) = ofRunes r := by
  cases r with
  | nil => rfl
  | cons c r =>
    obtain ⟨a, d, hlast⟩ : ∃ a d, c :: r = a ++ [d] :=
      ⟨_, _, (List.dropLast_append_getLast (List.cons_ne_nil c r)).symm⟩
    have hd : d ∈ c :: r := hlast ▸ List.mem_append_right _ (List.mem_singleton_self d)
    have heq : String.utf8EncodeChar c ++ ofRunes r = ofRunes a ++ String.utf8EncodeChar d := by
      have := congrArg ofRunes hlast
      rwa [ofRunes_append, ofRunes, List.flatMap_cons, ofRunes, ofRunes, List.flatMap_singleton] at this
    exact trimSpace_encode heq (h c (List.mem_cons_self ..)) (h d hd)

/-- An ASCII byte that is no white space and no control character but DEL. -/
def Solid (x : UInt8) : Prop := 0x20 < x.toNat ∧ x.toNat < 0x80

instance (x : UInt8) : Decidable (Solid x) := inferInstanceAs (Decidable (_ ∧ _))

theorem encode_solid {x : UInt8} (h : Solid x) :
    String.utf8EncodeChar (Char.ofNat x.toNat) = [x] ∧ isSpace (Char.ofNat x.toNat) = false := by
  obtain ⟨hlow, hhigh⟩ := h
  have hchar : (Char.ofNat x.toNat).toNat = x.toNat := toNat_ofNat (by omega)
  constructor
  · rw [utf8EncodeChar_ascii (by omega), hchar, UInt8.ofNat_toNat]
  · unfold isSpace
    rw [hchar]
    simp only [Bool.or_eq_false_iff, Bool.and_eq_false_iff, beq_eq_false_iff_ne, decide_eq_false_iff_not]
    omega

theorem trimSpace_solid {b : Bytes} (hhead : ∀ x ∈ b.head?, Solid x) (hlast : ∀ x ∈ b.getLast?, Solid x) :
    trimSpace b = b := by
  cases b with
  | nil => rfl
  | cons x b =>
    obtain ⟨hx, hxspace⟩ := encode_solid (hhead x rfl)
    obtain ⟨a, y, heq⟩ : ∃ a y, x :: b = a ++ [y] := ⟨_, _, (List.dropLast_append_getLast (List.cons_ne_nil x b)).symm⟩
    obtain ⟨hy, hyspace⟩ := encode_solid (hlast y (by rw [heq]; simp))
    have hcut : String.utf8EncodeChar (Char.ofNat x.toNat) ++ b = a ++ String.utf8EncodeChar (Char.ofNat y.toNat) := by
      rw [hx, hy]
      exact heq
    have := trimSpace_encode hcut hxspace hyspace
    rwa [hx] at this

/-! ## First bytes -/

/-- The bytes of a text that `for i := range s` visits. -/
def heads (b : Bytes) : Bytes := (runes b).map fun r => r.bytes.headD 0

@[simp] theorem heads_nil : heads [] = [] := rfl

theorem heads_encode (c : Char) (b : Bytes) :
    heads (String.utf8EncodeChar c ++ b) = (String.utf8EncodeChar c).headD 0 :: heads b := by
  rw [heads, runes_encode]
  rfl

theorem heads_invalid {x : UInt8} {b : Bytes} (h : decodeRune (x :: b) = none) : heads (x :: b) = x :: heads b := by
  rw [heads, runes_invalid h]
  rfl

theorem heads_ascii {x : UInt8} (hx : x.toNat < 128) (b : Bytes) : heads (x :: b) = x :: heads b := by
  have hchar : (Char.ofNat x.toNat).toNat = x.toNat := toNat_ofNat (by omega)
  have henc : String.utf8EncodeChar (Char.ofNat x.toNat) = [x] := by
    rw [utf8EncodeChar_ascii (by omega), hchar, UInt8.ofNat_toNat]
  have := heads_encode (Char.ofNat x.toNat) b
  rwa [henc] at this

theorem heads_append_ascii {a : Bytes} (ha : ∀ x ∈ a, x.toNat < 128) (b : Bytes) : heads (a ++ b) = a ++ heads b := by
  induction a with
  | nil => rfl
  | cons x a ih =>
    rw [List.cons_append, heads_ascii (ha x (List.mem_cons_self ..)), ih fun y hy => ha y (List.mem_cons_of_mem _ hy)]
    rfl

theorem heads_sublist (b : Bytes) : (heads b).Sublist b := by
  induction hn : b.length using Nat.strongRecOn generalizing b with
  | _ n ih =>
    obtain rfl | ⟨c, rest, rfl, -⟩ | ⟨x, rest, rfl, hx, -⟩ := runes_cases b
    · exact .refl _
    · have hpos := c.utf8Size_pos
      rw [List.length_append, String.length_utf8EncodeChar] at hn
      rw [heads_encode]
      obtain ⟨y, ys, hy⟩ := List.exists_cons_of_ne_nil (@String.utf8EncodeChar_ne_nil c)
      rw [hy, List.cons_append, List.headD_cons]
      exact .cons_cons _ ((ih rest.length (by omega) rest rfl).trans (List.sublist_append_right _ _))
    · rw [List.length_cons] at hn
      rw [heads_invalid hx]
      exact .cons_cons _ (ih rest.length (by omega) rest rfl)

theorem length_heads_le (b : Bytes) : (heads b).length ≤ b.length := (heads_sublist b).length_le

theorem bytes_single {rs : List Rune} (hne : ∀ r ∈ rs, r.bytes ≠ []) (hlen : (rs.flatMap Rune.bytes).length ≤ rs.length) :
    ∀ r ∈ rs, r.bytes.length = 1 := by
  have hle : ∀ rs : List Rune, (∀ r ∈ rs, r.bytes ≠ []) → rs.length ≤ (rs.flatMap Rune.bytes).length := by
    intro rs
    induction rs with
    | nil => exact fun _ => Nat.le_refl _
    | cons r rs ih =>
      intro h
      have hpos := List.length_pos_iff.mpr (h r (List.mem_cons_self ..))
      have hrest := ih fun r hr => h r (List.mem_cons_of_mem _ hr)
      rw [List.flatMap_cons, List.length_append, List.length_cons]
      omega
  induction rs with
  | nil => exact fun _ h => nomatch h
  | cons r rs ih =>
    have hpos := List.length_pos_iff.mpr (hne r (List.mem_cons_self ..))
    have hrest := hle rs fun r hr => hne r (List.mem_cons_of_mem _ hr)
    rw [List.flatMap_cons, List.length_append, List.length_cons] at hlen
    exact List.forall_mem_cons.mpr ⟨by omega, ih (fun r hr => hne r (List.mem_cons_of_mem _ hr)) (by omega)⟩

/-- Nothing is left out of a text whose runes are single bytes. -/
theorem heads_eq_iff {b : Bytes} : heads b = b ↔ ∀ r ∈ runes b, r.bytes.length = 1 := by
  constructor
  · intro h
    refine bytes_single (fun r hr => bytes_ne_nil hr) ?_
    rw [flatMap_runes]
    conv_lhs => rw [← h]
    rw [heads, List.length_map]
  · intro h
    rw [heads, List.map_eq_flatMap]
    conv_rhs => rw [← flatMap_runes b]
    refine List.flatMap_congr fun r hr => ?_
    obtain ⟨x, hx⟩ := List.length_eq_one_iff.mp (h r hr)
    rw [hx]
    rfl

/-- A text of which every rune starts with an ASCII byte is visited byte by byte. -/
theorem heads_runes {b : Bytes} (h : ∀ r ∈ runes b, (r.bytes.headD 0).toNat < 128) : heads b = b := by
  refine heads_eq_iff.mpr fun r hr => ?_
  have hhead := h r hr
  obtain ⟨c, rfl⟩ | ⟨x, rfl⟩ := mem_runes hr
  · by_cases hc : c.toNat < 128
    · exact congrArg List.length (utf8EncodeChar_ascii hc)
    · -- the first byte of a longer rune is not ASCII
      obtain ⟨hlen, hhigh⟩ := utf8EncodeChar_high (c := c) (by omega)
      obtain ⟨y, ys, hy⟩ := List.exists_cons_of_length_pos (l := String.utf8EncodeChar c) (by omega)
      have := (hhigh y (by rw [hy]; exact List.mem_cons_self ..)).1
      rw [Rune.ofChar, hy, List.headD_cons] at hhead
      omega
  · rfl

theorem heads_ofRunes_iff {r : List Char} : heads (ofRunes r) = ofRunes r ↔ ∀ c ∈ r, c.toNat < 128 := by
  rw [heads_eq_iff, runes_ofRunes, List.forall_mem_map]
  refine forall₂_congr fun c _ => ?_
  unfold Rune.ofChar
  dsimp only
  constructor
  · intro h
    by_contra hge
    have := (utf8EncodeChar_high (c := c) (by omega)).1
    omega
  · intro h
    rw [utf8EncodeChar_ascii h]
    rfl

theorem head_of_shift {x y : UInt8} {rest : Bytes} (h : y :: rest = rest ++ [x]) : y = x := by
  induction rest with
  | nil => exact (List.cons.inj h).1
  | cons z rest ih =>
    obtain ⟨rfl, h⟩ := List.cons.inj h
    exact ih h

/-- What is left out is from the middle of a rune, so it is no byte that starts one and stands at the end. -/
theorem ne_heads_append {x : UInt8} (hx : x.IsUTF8FirstByte) (b : Bytes) : b ≠ heads b ++ [x] := by
  induction hn : b.length using Nat.strongRecOn generalizing b with
  | _ n ih =>
    obtain rfl | ⟨c, rest, rfl, -⟩ | ⟨y, rest, rfl, hy, -⟩ := runes_cases b
    · exact fun h => nomatch h
    · have hpos := c.utf8Size_pos
      rw [List.length_append, String.length_utf8EncodeChar] at hn
      obtain ⟨y, ys, hy⟩ := List.exists_cons_of_ne_nil (@String.utf8EncodeChar_ne_nil c)
      rw [heads_encode, hy, List.cons_append, List.headD_cons, List.cons_append]
      intro h
      have htail := (List.cons.inj h).2
      have hlen := congrArg List.length htail
      have hle := length_heads_le rest
      rw [List.length_append, List.length_append, List.length_singleton] at hlen
      cases ys with
      | nil => exact ih rest.length (by omega) rest rfl htail
      | cons z ys =>
        rw [List.length_cons] at hlen
        obtain rfl := List.length_eq_zero_iff.mp (show ys.length = 0 by omega)
        rw [(heads_sublist rest).eq_of_length (by omega)] at htail
        have hz : z = x := head_of_shift htail
        exact not_first_of_tail hy (List.mem_singleton_self z) (hz ▸ hx)
    · rw [List.length_cons] at hn
      rw [heads_invalid hy, List.cons_append]
      exact fun h => ih rest.length (by omega) rest rfl (List.cons.inj h).2

end Xdragon.Lib
