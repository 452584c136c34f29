import Mathlib.Data.List.DropRight
import Xdragon.Lib.Text

/-!
# Runes

A string is its bytes, and a loop over a string visits its runes. A byte at which no rune is encoded
is visited as `utf8.RuneError`.
-/

namespace Xdragon.Lib

/-- `unicode.IsSpace`. -/
def isSpace (c : Char) : Bool :=
  let n := c.toNat
  (9 ≤ n && n ≤ 13) || n == 0x20 || n == 0x85 || n == 0xa0 || n == 0x1680 || (0x2000 ≤ n && n ≤ 0x200a) ||
    n == 0x2028 || n == 0x2029 || n == 0x202f || n == 0x205f || n == 0x3000

/-- `utf8.DecodeRuneInString`, and none where no rune is encoded. -/
def decodeRune (b : Bytes) : Option Char := b.toByteArray.utf8DecodeChar? 0

/-- A rune of a string with its bytes, and no character for `utf8.RuneError`. -/
structure Rune where
  char : Option Char
  bytes : Bytes

def Rune.ofChar (c : Char) : Rune := ⟨some c, String.utf8EncodeChar c⟩

def Rune.isSpace (r : Rune) : Bool := r.char.any Lib.isSpace

/-- The runes up to a number of them. -/
@[grind =]
def runesUpTo : Nat → Bytes → List Rune
  | 0, _ => []
  | _ + 1, [] => []
  | n + 1, x :: b =>
    match decodeRune (x :: b) with
    | some c => .ofChar c :: runesUpTo n ((x :: b).drop c.utf8Size)
    | none => ⟨none, [x]⟩ :: runesUpTo n b

/-- A string has no more runes than bytes. -/
def runes (b : Bytes) : List Rune := runesUpTo b.length b

/-- `strings.TrimLeftFunc(s, unicode.IsSpace)`. -/
def trimLeft (b : Bytes) : Bytes := ((runes b).dropWhile Rune.isSpace).flatMap Rune.bytes

/-- `strings.TrimRightFunc(s, unicode.IsSpace)`. -/
def trimRight (b : Bytes) : Bytes := ((runes b).rdropWhile Rune.isSpace).flatMap Rune.bytes

def trimSpace (b : Bytes) : Bytes := trimRight (trimLeft b)

/-- The stretches of runes that are not spaces, where `field` is the one before. -/
@[grind =]
def fieldsFrom (field : Bytes) : List Rune → List Bytes
  | [] => if field = [] then [] else [field]
  | r :: rs =>
    if r.isSpace then if field = [] then fieldsFrom [] rs else field :: fieldsFrom [] rs
    else fieldsFrom (field ++ r.bytes) rs

/-- `strings.Fields`. -/
def fields (b : Bytes) : List Bytes := fieldsFrom [] (runes b)

/-- `strings.IndexFunc(s, unicode.IsSpace)`, or the length. -/
def indexSpace (b : Bytes) : Nat := (((runes b).takeWhile fun r => !r.isSpace).flatMap Rune.bytes).length

/-- `[]rune(s)`. -/
def toRunes (b : Bytes) : List Char := (runes b).map fun r => r.char.getD '\uFFFD'

/-- `string(r)`. -/
def ofRunes (r : List Char) : Bytes := r.flatMap String.utf8EncodeChar

/-! ## Decoding -/

theorem decodeRune_eq_some {b : Bytes} {c : Char} : decodeRune b = some c ↔ ∃ rest, b = String.utf8EncodeChar c ++ rest := by
  unfold decodeRune
  constructor
  · intro h
    obtain ⟨l, hl⟩ := ByteArray.exists_of_utf8DecodeChar?_eq_some h
    refine ⟨l.data.toList, ?_⟩
    have := congrArg (fun b => b.data.toList) hl
    simpa using this
  · rintro ⟨rest, rfl⟩
    rw [List.toByteArray_append]
    exact ByteArray.utf8DecodeChar?_utf8EncodeChar_append

theorem decodeRune_encode (c : Char) (b : Bytes) : decodeRune (String.utf8EncodeChar c ++ b) = some c :=
  decodeRune_eq_some.mpr ⟨b, rfl⟩

/-- A byte in the middle of a rune starts none. -/
theorem decodeRune_of_not_first {x : UInt8} (hx : ¬ x.IsUTF8FirstByte) (b : Bytes) : decodeRune (x :: b) = none := by
  rw [Option.eq_none_iff_forall_ne_some]
  intro c hc
  obtain ⟨rest, hrest⟩ := decodeRune_eq_some.mp hc
  obtain ⟨y, ys, hy⟩ := List.exists_cons_of_ne_nil (String.utf8EncodeChar_ne_nil (c := c))
  rw [hy, List.cons_append, List.cons.injEq] at hrest
  have hpos : 0 < (String.utf8EncodeChar c).length := by rw [hy]; exact Nat.succ_pos _
  have hfirst : (String.utf8EncodeChar c)[0].IsUTF8FirstByte :=
    UInt8.isUTF8FirstByte_getElem_utf8EncodeChar.mpr rfl
  simp only [hy, List.getElem_cons_zero] at hfirst
  exact hx (hrest.1 ▸ hfirst)

/-- The bytes of a rune behind its first one start none. -/
theorem not_first_of_tail {c : Char} {x y : UInt8} {xs : Bytes} (h : String.utf8EncodeChar c = x :: xs) (hy : y ∈ xs) :
    ¬ y.IsUTF8FirstByte := by
  obtain ⟨i, hi, rfl⟩ := List.getElem_of_mem hy
  have hlt : i + 1 < (String.utf8EncodeChar c).length := by
    rw [h]
    exact Nat.succ_lt_succ hi
  have hget : (String.utf8EncodeChar c)[i + 1] = xs[i] := by simp only [h, List.getElem_cons_succ]
  rw [← hget, UInt8.isUTF8FirstByte_getElem_utf8EncodeChar]
  exact Nat.succ_ne_zero i

/-! ## The runes of a string -/

@[simp] theorem runes_nil : runes [] = [] := rfl

theorem runesUpTo_of_le {n : Nat} {b : Bytes} (h : b.length ≤ n) : runesUpTo n b = runes b := by
  unfold runes
  have hstep : ∀ k : Nat, ∀ b : Bytes, ∀ n, b.length ≤ k → b.length ≤ n → runesUpTo n b = runesUpTo k b := by
    intro k
    induction k with
    | zero =>
      intro b n hk _
      obtain rfl := List.length_eq_zero_iff.mp (Nat.le_zero.mp hk)
      cases n <;> rfl
    | succ k ih =>
      intro b n hk hn
      cases b with
      | nil => cases n <;> rfl
      | cons x b =>
        cases n with
        | zero => exact absurd hn (by simp)
        | succ n =>
          rw [List.length_cons] at hk hn
          unfold runesUpTo
          cases decodeRune (x :: b) with
          | none =>
            dsimp only
            rw [ih b n (by omega) (by omega)]
          | some c =>
            dsimp only
            have hpos := c.utf8Size_pos
            rw [ih _ n (by rw [List.length_drop, List.length_cons]; omega) (by rw [List.length_drop, List.length_cons]; omega)]
  exact hstep _ b n (Nat.le_refl _) h

theorem runes_encode (c : Char) (b : Bytes) : runes (String.utf8EncodeChar c ++ b) = .ofChar c :: runes b := by
  obtain ⟨x, xs, hx⟩ := List.exists_cons_of_ne_nil (String.utf8EncodeChar_ne_nil (c := c))
  have hdrop : (String.utf8EncodeChar c ++ b).drop c.utf8Size = b := by
    rw [← String.length_utf8EncodeChar, List.drop_left]
  have hdecode := decodeRune_encode c b
  rw [hx, List.cons_append] at hdecode hdrop ⊢
  rw [runes, List.length_cons, runesUpTo, hdecode]
  dsimp only
  rw [hdrop, runesUpTo_of_le (by rw [List.length_append]; omega)]

theorem runes_invalid {x : UInt8} {b : Bytes} (h : decodeRune (x :: b) = none) : runes (x :: b) = ⟨none, [x]⟩ :: runes b := by
  rw [runes, List.length_cons, runesUpTo, h]
  rfl

/-- A string starts with a rune, or with a byte that is none. -/
theorem runes_cases (b : Bytes) : b = [] ∨ (∃ c rest, b = String.utf8EncodeChar c ++ rest ∧ runes b = .ofChar c :: runes rest) ∨
    ∃ x rest, b = x :: rest ∧ decodeRune b = none ∧ runes b = ⟨none, [x]⟩ :: runes rest := by
  cases b with
  | nil => exact .inl rfl
  | cons x b =>
    cases h : decodeRune (x :: b) with
    | none => exact .inr (.inr ⟨x, b, rfl, rfl, runes_invalid h⟩)
    | some c =>
      obtain ⟨rest, hrest⟩ := decodeRune_eq_some.mp h
      exact .inr (.inl ⟨c, rest, hrest, by rw [hrest, runes_encode]⟩)

@[simp] theorem flatMap_runes (b : Bytes) : (runes b).flatMap Rune.bytes = b := by
  induction hn : b.length using Nat.strong_induction_on generalizing b with
  | _ n ih =>
    obtain rfl | ⟨c, rest, rfl, hr⟩ | ⟨x, rest, rfl, -, hr⟩ := runes_cases b
    · rfl
    · have hpos := c.utf8Size_pos
      rw [List.length_append, String.length_utf8EncodeChar] at hn
      rw [hr, List.flatMap_cons, ih rest.length (by omega) rest rfl]
      rfl
    · rw [List.length_cons] at hn
      rw [hr, List.flatMap_cons, ih rest.length (by omega) rest rfl]
      rfl

/-- A rune of a string is one that is encoded there, or a byte that starts none. -/
theorem mem_runes {b : Bytes} {r : Rune} (hr : r ∈ runes b) : (∃ c, r = .ofChar c) ∨ ∃ x, r = ⟨none, [x]⟩ := by
  induction hn : b.length using Nat.strong_induction_on generalizing b with
  | _ n ih =>
    obtain rfl | ⟨c, rest, rfl, h⟩ | ⟨x, rest, rfl, -, h⟩ := runes_cases b
    · cases hr
    · have hpos := c.utf8Size_pos
      rw [List.length_append, String.length_utf8EncodeChar] at hn
      rw [h, List.mem_cons] at hr
      exact hr.elim (fun hc => .inl ⟨c, hc⟩) fun hr => ih rest.length (by omega) hr rfl
    · rw [List.length_cons] at hn
      rw [h, List.mem_cons] at hr
      exact hr.elim (fun hx => .inr ⟨x, hx⟩) fun hr => ih rest.length (by omega) hr rfl

theorem bytes_ne_nil {b : Bytes} {r : Rune} (hr : r ∈ runes b) : r.bytes ≠ [] := by
  obtain ⟨c, rfl⟩ | ⟨x, rfl⟩ := mem_runes hr
  · exact String.utf8EncodeChar_ne_nil
  · exact List.cons_ne_nil _ _

theorem trimLeft_suffix (b : Bytes) : trimLeft b <:+ b := by
  unfold trimLeft
  refine ⟨((runes b).takeWhile Rune.isSpace).flatMap Rune.bytes, ?_⟩
  rw [← List.flatMap_append, List.takeWhile_append_dropWhile, flatMap_runes]

theorem trimRight_isPrefix (b : Bytes) : trimRight b <+: b := by
  unfold trimRight
  refine ⟨((runes b).rtakeWhile Rune.isSpace).flatMap Rune.bytes, ?_⟩
  rw [← List.flatMap_append, List.rdropWhile_append_rtakeWhile, flatMap_runes]

theorem length_trimSpace_le (b : Bytes) : (trimSpace b).length ≤ b.length :=
  (trimRight_isPrefix _).length_le.trans (trimLeft_suffix b).length_le

/-! ## Strings and slices of runes -/

@[simp] theorem ofRunes_nil : ofRunes [] = [] := rfl

@[simp] theorem ofRunes_append (r s : List Char) : ofRunes (r ++ s) = ofRunes r ++ ofRunes s := List.flatMap_append

theorem validString_ofRunes (r : List Char) : validString (ofRunes r) = true := validString_iff.mpr ⟨r, rfl⟩

theorem toRunes_encode (c : Char) (b : Bytes) : toRunes (String.utf8EncodeChar c ++ b) = c :: toRunes b := by
  rw [toRunes, runes_encode]
  rfl

theorem toRunes_invalid {x : UInt8} {b : Bytes} (h : decodeRune (x :: b) = none) :
    toRunes (x :: b) = '\uFFFD' :: toRunes b := by
  rw [toRunes, runes_invalid h]
  rfl

@[simp] theorem toRunes_ofRunes (r : List Char) : toRunes (ofRunes r) = r := by
  induction r with
  | nil => rfl
  | cons c r ih =>
    rw [ofRunes, List.flatMap_cons, toRunes_encode]
    exact congrArg _ ih

theorem ofRunes_toRunes {b : Bytes} (h : validString b = true) : ofRunes (toRunes b) = b := by
  obtain ⟨r, rfl⟩ := validString_iff.mp h
  exact congrArg ofRunes (toRunes_ofRunes r)

/-- What follows a valid text in a valid text is valid. -/
theorem validString_right {a b : Bytes} (ha : validString a = true) (h : validString (a ++ b) = true) :
    validString b = true := by
  obtain ⟨r, rfl⟩ := validString_iff.mp ha
  induction r with
  | nil => exact h
  | cons c r ih =>
    rw [List.flatMap_cons, List.append_assoc] at h
    apply ih (validString_ofRunes r)
    obtain ⟨s, hs⟩ := validString_iff.mp h
    cases s with
    | nil => exact absurd hs.symm (by simp [String.utf8EncodeChar_ne_nil])
    | cons d s =>
      have hruns : c :: toRunes (r.flatMap String.utf8EncodeChar ++ b) = d :: toRunes (s.flatMap String.utf8EncodeChar) := by
        rw [← toRunes_encode, ← toRunes_encode, ← hs, List.flatMap_cons]
      obtain rfl : c = d := (List.cons.inj hruns).1
      rw [List.flatMap_cons] at hs
      exact validString_iff.mpr ⟨s, List.append_cancel_left hs⟩

/-! ## ASCII -/

theorem toNat_ofNat {n : Nat} (h : n < 0xd800) : (Char.ofNat n).toNat = n := by
  rw [Char.ofNat, dif_pos (.inl h)]
  rfl

theorem utf8EncodeChar_ascii {c : Char} (h : c.toNat < 128) : String.utf8EncodeChar c = [UInt8.ofNat c.toNat] := by
  have hle : c.val.toNat ≤ 0x7f := Nat.lt_succ_iff.mp h
  unfold String.utf8EncodeChar
  dsimp only
  rw [if_pos hle]
  rfl

theorem utf8EncodeChar_high {c : Char} (h : 128 ≤ c.toNat) :
    2 ≤ (String.utf8EncodeChar c).length ∧ ∀ x ∈ String.utf8EncodeChar c, 128 ≤ x.toNat ∧ x.toNat < 0xf8 := by
  have hgt : ¬ c.val.toNat ≤ 0x7f := Nat.not_le.mpr h
  have hbytes : ∀ (n m k : Nat), 128 ≤ k → n % m + k < 0xf8 → 128 ≤ (UInt8.ofNat (n % m + k)).toNat ∧
      (UInt8.ofNat (n % m + k)).toNat < 0xf8 := by
    intro n m k hk hlt
    rw [UInt8.toNat_ofNat', Nat.mod_eq_of_lt (by omega)]
    omega
  unfold String.utf8EncodeChar
  dsimp only
  rw [if_neg hgt]
  split_ifs
  all_goals
    refine ⟨by simp, ?_⟩
    simp only [List.forall_mem_cons, List.not_mem_nil, false_implies, implies_true, and_true]
  · exact ⟨hbytes _ _ _ (by decide) (by omega), hbytes _ _ _ (by decide) (by omega)⟩
  · exact ⟨hbytes _ _ _ (by decide) (by omega), hbytes _ _ _ (by decide) (by omega), hbytes _ _ _ (by decide) (by omega)⟩
  · exact ⟨hbytes _ _ _ (by decide) (by omega), hbytes _ _ _ (by decide) (by omega), hbytes _ _ _ (by decide) (by omega),
      hbytes _ _ _ (by decide) (by omega)⟩

/-- A valid text has only bytes below `0xf8`. -/
theorem lt_of_valid {b : Bytes} (h : validString b = true) {x : UInt8} (hx : x ∈ b) : x.toNat < 0xf8 := by
  obtain ⟨r, rfl⟩ := validString_iff.mp h
  obtain ⟨c, -, hx⟩ := List.mem_flatMap.mp hx
  by_cases hc : c.toNat < 128
  · rw [utf8EncodeChar_ascii hc, List.mem_singleton] at hx
    rw [hx, UInt8.toNat_ofNat']
    omega
  · exact ((utf8EncodeChar_high (by omega)).2 x hx).2

theorem ascii_runes {r : List Char} : (∀ x ∈ ofRunes r, x.toNat < 128) ↔ ∀ c ∈ r, c.toNat < 128 := by
  constructor
  · intro h c hc
    by_contra hge
    obtain ⟨hlen, hhigh⟩ := utf8EncodeChar_high (c := c) (by omega)
    obtain ⟨x, hx⟩ := List.exists_mem_of_length_pos (l := String.utf8EncodeChar c) (by omega)
    have := (hhigh x hx).1
    have := h x (List.mem_flatMap.mpr ⟨c, hc, hx⟩)
    omega
  · intro h x hx
    obtain ⟨c, hc, hx⟩ := List.mem_flatMap.mp hx
    have hlt := h c hc
    rw [utf8EncodeChar_ascii hlt, List.mem_singleton] at hx
    rw [hx, UInt8.toNat_ofNat']
    omega

theorem ofRunes_ascii {r : List Char} (h : ∀ c ∈ r, c.toNat < 128) : ofRunes r = r.map fun c => UInt8.ofNat c.toNat := by
  induction r with
  | nil => rfl
  | cons c r ih =>
    have hrest := ih fun d hd => h d (List.mem_cons_of_mem _ hd)
    rw [ofRunes] at hrest ⊢
    rw [List.flatMap_cons, utf8EncodeChar_ascii (h c (List.mem_cons_self ..)), hrest]
    rfl

theorem validString_ascii {b : Bytes} (h : ∀ x ∈ b, x.toNat < 128) : validString b = true := by
  induction b with
  | nil => exact validString_nil
  | cons x b ih =>
    have hx := h x (List.mem_cons_self ..)
    have hof : (Char.ofNat x.toNat).toNat = x.toNat := by
      rw [Char.ofNat, dif_pos (.inl (by omega))]
      rfl
    have henc : String.utf8EncodeChar (Char.ofNat x.toNat) = [x] := by
      rw [utf8EncodeChar_ascii (by omega), hof]
      simp
    refine validString_append (a := [x]) ?_ (ih fun y hy => h y (List.mem_cons_of_mem _ hy))
    rw [← henc]
    exact validString_iff.mpr ⟨[Char.ofNat x.toNat], by simp⟩

/-- A text that is not valid has a byte that is read as `utf8.RuneError`. -/
theorem runeError_mem {b : Bytes} (h : validString b = false) : '\uFFFD' ∈ toRunes b := by
  induction hn : b.length using Nat.strong_induction_on generalizing b with
  | _ n ih =>
    obtain rfl | ⟨c, rest, rfl, -⟩ | ⟨x, rest, rfl, hx, -⟩ := runes_cases b
    · rw [validString_nil] at h
      cases h
    · have hpos := c.utf8Size_pos
      rw [List.length_append, String.length_utf8EncodeChar] at hn
      rw [toRunes_encode]
      refine List.mem_cons_of_mem _ (ih rest.length (by omega) ?_ rfl)
      rw [Bool.eq_false_iff] at h ⊢
      exact fun hrest => h (validString_append (validString_iff.mpr ⟨[c], by simp⟩) hrest)
    · rw [toRunes_invalid hx]
      exact List.mem_cons_self ..

/-! ## Ends of valid strings -/

/-- The end of a valid string, cut anywhere. -/
def ValidEnd (b : Bytes) : Prop := ∃ a, validString (a ++ b) = true

theorem validEnd_of_valid {b : Bytes} (h : validString b = true) : ValidEnd b := ⟨[], h⟩

theorem ValidEnd.of_append {a b : Bytes} (h : ValidEnd (a ++ b)) : ValidEnd b := by
  obtain ⟨c, hc⟩ := h
  exact ⟨c ++ a, by rwa [List.append_assoc]⟩

theorem ValidEnd.append {a b : Bytes} (ha : ValidEnd a) (hb : validString b = true) : ValidEnd (a ++ b) := by
  obtain ⟨c, hc⟩ := ha
  refine ⟨c, ?_⟩
  rw [← List.append_assoc]
  exact validString_append hc hb

/-- The end of a valid string starts with a rune, or with a byte from the middle of one. -/
theorem ValidEnd.cases {b : Bytes} (h : ValidEnd b) : b = [] ∨ (∃ c rest, b = String.utf8EncodeChar c ++ rest) ∨
    ∃ x rest, b = x :: rest ∧ ¬ x.IsUTF8FirstByte := by
  obtain ⟨a, ha⟩ := h
  obtain ⟨m, hm⟩ := validString_iff.mp ha
  clear ha
  induction m generalizing a with
  | nil =>
    simp only [List.flatMap_nil, List.nil_eq, List.append_eq_nil_iff] at hm
    exact .inl hm.2
  | cons c m ih =>
    rw [List.flatMap_cons, List.append_eq_append_iff] at hm
    obtain ⟨a', -, hrest⟩ | ⟨c', hc, hrest⟩ := hm
    · exact ih a' hrest
    · cases c' with
      | nil => exact ih [] hrest.symm
      | cons x c' =>
        by_cases ha : a = []
        · refine .inr (.inl ⟨c, m.flatMap String.utf8EncodeChar, ?_⟩)
          rw [hrest, hc, ha, List.nil_append]
        · refine .inr (.inr ⟨x, c' ++ m.flatMap String.utf8EncodeChar, hrest, fun hx => ha ?_⟩)
          have hlen : a.length < (String.utf8EncodeChar c).length := by
            rw [hc, List.length_append, List.length_cons]
            omega
          have hget : (String.utf8EncodeChar c)[a.length] = x := by simp [hc]
          rw [← hget, UInt8.isUTF8FirstByte_getElem_utf8EncodeChar] at hx
          exact List.length_eq_zero_iff.mp hx

/-- What follows the end of a valid string does not change its runes. -/
theorem ValidEnd.runes_append {a : Bytes} (h : ValidEnd a) (b : Bytes) : runes (a ++ b) = runes a ++ runes b := by
  induction hn : a.length using Nat.strong_induction_on generalizing a with
  | _ n ih =>
    obtain rfl | ⟨c, rest, rfl⟩ | ⟨x, rest, rfl, hx⟩ := h.cases
    · rfl
    · have hpos := c.utf8Size_pos
      rw [List.length_append, String.length_utf8EncodeChar] at hn
      rw [List.append_assoc, runes_encode, runes_encode, ih _ (by omega) h.of_append rfl, List.cons_append]
    · have hrest : ValidEnd rest := ValidEnd.of_append (a := [x]) h
      rw [List.length_cons] at hn
      rw [List.cons_append, runes_invalid (decodeRune_of_not_first hx _), runes_invalid (decodeRune_of_not_first hx _),
        ih _ (by omega) hrest rfl, List.cons_append]

theorem toRunes_append {a : Bytes} (h : validString a = true) (b : Bytes) : toRunes (a ++ b) = toRunes a ++ toRunes b := by
  rw [toRunes, (validEnd_of_valid h).runes_append, List.map_append]
  rfl

/-- A rune of a text is encoded in it, if it is not there for a byte that is none. -/
theorem infix_of_mem {c : Char} (hc : c ≠ '\uFFFD') {b : Bytes} (h : c ∈ toRunes b) : String.utf8EncodeChar c <:+: b := by
  induction hn : b.length using Nat.strong_induction_on generalizing b with
  | _ n ih =>
    obtain rfl | ⟨d, rest, rfl, -⟩ | ⟨x, rest, rfl, hx, -⟩ := runes_cases b
    · cases h
    · have hpos := d.utf8Size_pos
      rw [List.length_append, String.length_utf8EncodeChar] at hn
      rw [toRunes_encode] at h
      obtain rfl | h := List.mem_cons.mp h
      · exact (List.prefix_append _ _).isInfix
      · exact (ih rest.length (by omega) h rfl).trans (List.suffix_append _ _).isInfix
    · rw [toRunes_invalid hx] at h
      obtain rfl | h := List.mem_cons.mp h
      · exact absurd rfl hc
      · rw [List.length_cons] at hn
        exact (ih rest.length (by omega) h rfl).trans (List.suffix_cons _ _).isInfix

/-- A rune is in a valid text where it is encoded. -/
theorem mem_of_infix {c : Char} {b : Bytes} (hb : validString b = true) (h : String.utf8EncodeChar c <:+: b) :
    c ∈ toRunes b := by
  obtain ⟨x, y, rfl⟩ := h
  rw [List.append_assoc] at hb ⊢
  have hc : validString (String.utf8EncodeChar c) = true := validString_iff.mpr ⟨[c], by simp⟩
  rw [toRunes_append (validString_left hc String.utf8EncodeChar_ne_nil hb), toRunes_encode]
  simp

theorem ValidEnd.trimLeft_append {a : Bytes} (h : ValidEnd a) (b : Bytes) :
    trimLeft (a ++ b) = if trimLeft a = [] then trimLeft b else trimLeft a ++ b := by
  unfold trimLeft
  rw [h.runes_append, List.dropWhile_append]
  cases hd : (runes a).dropWhile Rune.isSpace with
  | nil => simp
  | cons r rs =>
    have hne : r.bytes ≠ [] := bytes_ne_nil ((List.dropWhile_suffix _).subset (hd ▸ List.mem_cons_self ..))
    simp [hne]

end Xdragon.Lib
