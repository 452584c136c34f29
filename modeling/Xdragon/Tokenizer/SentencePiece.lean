import Xdragon.Lib.Replace
import Xdragon.Tokenizer.Fragments
import Xdragon.Tokenizer.Merges

/-!
# SentencePiece

Spaces are written as `▁`, neighbours are merged to the values of the vocabulary, and what is in no value is
written as byte tokens. A value that looks like a byte token is read back as a byte, wherever it came from.
-/

namespace Xdragon.Tokenizer

open Xdragon.Lib (Bytes ascii Heap toRunes ofRunes replaceAll)

def spmWhitespaceSep : Bytes := ofRunes ['▁']

structure Candidate (S : Type) where
  a : Nat
  b : Nat
  score : S
  size : Nat

/-- The order of the queue: the higher score first, and of equal scores the left pair. -/
def lessCandidate {S : Type} [LT S] [DecidableLT S] [BEq S] (i j : Candidate S) : Bool :=
  j.score < i.score || (i.score == j.score && i.a < j.a)

/-! ## Byte tokens -/

def upperHex (n : Nat) : UInt8 := if n < 10 then UInt8.ofNat (0x30 + n) else UInt8.ofNat (0x41 + (n - 10))

/-- `fmt.Sprintf("<0x%02X>", b)`. -/
def byteToken (b : UInt8) : Bytes := ascii "<0x" ++ [upperHex (b.toNat / 16), upperHex (b.toNat % 16)] ++ ascii ">"

/-- A hexadecimal digit. -/
def hexDigit (b : UInt8) : Option Nat :=
  let n := b.toNat
  if 0x30 ≤ n ∧ n ≤ 0x39 then some (n - 0x30)
  else if 0x41 ≤ n ∧ n ≤ 0x46 then some (n - 0x41 + 10)
  else if 0x61 ≤ n ∧ n ≤ 0x66 then some (n - 0x61 + 10)
  else none

/-- `strconv.ParseUint(s, 0, 8)` for `0x` and two more bytes. An underscore may follow the prefix of the base. -/
def parseUint (x y : UInt8) : Option UInt8 :=
  let high := if x = 0x5f then some 0 else hexDigit x
  high.bind fun high => (hexDigit y).map fun low => UInt8.ofNat (16 * high + low)

/-- A text of which `strconv.ParseUint` makes no byte. -/
structure ParseError where
  text : Bytes
  deriving DecidableEq

/-- A value that looks like a byte token. -/
def LooksLikeByte (data : Bytes) : Prop := data.length = 6 ∧ ascii "<0x" <+: data ∧ ascii ">" <:+ data

instance (data : Bytes) : Decidable (LooksLikeByte data) := inferInstanceAs (Decidable (_ ∧ _))

/-- What `Decode` writes for the value of an id. -/
def readValue (value : Bytes) : Except ParseError Bytes :=
  let data := replaceAll value spmWhitespaceSep (ascii " ")
  if LooksLikeByte data then
    match parseUint (data.getD 3 0) (data.getD 4 0) with
    | some b => .ok [b]
    | none => .error ⟨(data.drop 1).take 4⟩
  else .ok data

/-! ## The tokenizer -/

structure SentencePiece (S : Type) where
  vocab : Vocabulary S
  scores_length : vocab.scores.length = vocab.values.length

namespace SentencePiece

variable {S : Type} [LT S] [DecidableLT S] [BEq S] (spm : SentencePiece S) (heap : Heap (Candidate S) lessCandidate)

/-- There is a score for every id. -/
def pairwise (merges : List Merge) (a : Int) (b : Nat) : Option (Candidate S) :=
  if a < 0 ∨ b ≥ merges.length then none
  else
    let left := ofRunes (symbolAt merges a.toNat).runes
    let right := ofRunes (symbolAt merges b).runes
    let id := spm.vocab.encode (left ++ right)
    if id ≥ 0 then
      spm.vocab.scores[id.toNat]?.map fun score => { a := a.toNat, b, score, size := left.length + right.length }
    else none

def pairing : Pairing (Candidate S) where
  a := Candidate.a
  b := Candidate.b
  pairwise := spm.pairwise
  current pair left right := (ofRunes left).length + (ofRunes right).length = pair.size

def encodeSymbol (m : Merge) : List Int :=
  let token := ofRunes m.runes
  if token = [] then []
  else
    let id := spm.vocab.encode token
    if id ≥ 0 then [id]
    else
      token.filterMap fun b =>
        let unknownID := spm.vocab.encode (byteToken b)
        if unknownID ≥ 0 then some unknownID else none

def encodeFragment (frag : Fragment) : List Int :=
  if frag.ids.length > 0 then frag.ids
  else
    let text := replaceAll frag.value (ascii " ") spmWhitespaceSep
    let id := spm.vocab.encode text
    if id ≥ 0 then [id] else (mergeAll spm.pairing heap (toRunes text)).flatMap spm.encodeSymbol

/-- `n` turns of the loop for each special token. -/
def encode (n : Nat) (s : Bytes) (addSpecial : Bool) : Option (List Int) := do
  let frags ← fragments spm.vocab n s
  let ids := frags.flatMap (spm.encodeFragment heap)
  return if addSpecial then spm.vocab.addSpecials ids else ids

/-- `none` is a crash. -/
def decode : List Int → Option (Except ParseError Bytes)
  | [] => some (.ok [])
  | id :: ids => do
    let value ← spm.vocab.decode id
    match readValue value with
    | .error e => return .error e
    | .ok data => (decode ids).map (·.map (data ++ ·))

end SentencePiece

/-! ## Values that are read back -/

/-- ASCII bytes count for a text, other bytes against it. -/
def weight (b : Bytes) : Int := (b.map fun x => if x.toNat < 128 then 1 else -2).sum

@[simp] theorem weight_nil : weight [] = 0 := rfl

@[simp] theorem weight_append (a b : Bytes) : weight (a ++ b) = weight a + weight b := by
  simp [weight]

theorem hexDigit_upperHex {n : Nat} (h : n < 16) : hexDigit (upperHex n) = some n := by
  have hall : ∀ n : Fin 16, hexDigit (upperHex n) = some n.val := by decide
  exact hall ⟨n, h⟩

theorem upperHex_ne {n : Nat} (h : n < 16) : upperHex n ≠ 0x5f := by
  have hall : ∀ n : Fin 16, upperHex n ≠ 0x5f := by decide
  exact hall ⟨n, h⟩

theorem sep_not_infix_byteToken (b : UInt8) : ¬ spmWhitespaceSep <:+: byteToken b := by
  intro h
  have hbytes : ∀ n : Fin 16, (upperHex n).toNat < 128 := by decide
  have hmem : 0xe2 ∈ byteToken b := h.subset (by decide)
  have hb := b.toNat_lt
  have hhigh := hbytes ⟨b.toNat / 16, by omega⟩
  have hlow := hbytes ⟨b.toNat % 16, by omega⟩
  simp only [byteToken, List.mem_append, List.mem_cons, List.not_mem_nil, or_false] at hmem
  obtain (hmem | hmem | hmem) | hmem := hmem
  · revert hmem
    decide
  · rw [← hmem] at hhigh
    exact absurd hhigh (by decide)
  · rw [← hmem] at hlow
    exact absurd hlow (by decide)
  · revert hmem
    decide

/-- A byte token is read back as its byte. -/
theorem readValue_byteToken (b : UInt8) : readValue (byteToken b) = .ok [b] := by
  have hb := b.toNat_lt
  have hdata : replaceAll (byteToken b) spmWhitespaceSep (ascii " ") = byteToken b :=
    Lib.replaceAll_of_not_infix (by decide) (sep_not_infix_byteToken b)
  have hlook : LooksLikeByte (byteToken b) := ⟨rfl, ⟨_, rfl⟩, ⟨_, rfl⟩⟩
  have hparse : parseUint (upperHex (b.toNat / 16)) (upperHex (b.toNat % 16)) = some b := by
    have hlow : b.toNat % 16 < 16 := by omega
    have hhigh : b.toNat / 16 < 16 := by omega
    rw [parseUint, if_neg (upperHex_ne hhigh), hexDigit_upperHex hhigh, hexDigit_upperHex hlow]
    simp only [Option.bind_some, Option.map_some, Nat.div_add_mod, UInt8.ofNat_toNat]
  unfold readValue
  dsimp only
  rw [hdata, if_pos hlook]
  have h3 : (byteToken b).getD 3 0 = upperHex (b.toNat / 16) := rfl
  have h4 : (byteToken b).getD 4 0 = upperHex (b.toNat % 16) := rfl
  rw [h3, h4, hparse]

theorem digit_lt {b : UInt8} {n : Nat} (h : hexDigit b = some n) : b.toNat < 128 := by
  unfold hexDigit at h
  dsimp only at h
  split_ifs at h <;> omega

/-- What is read back as a byte though it is longer. -/
theorem readValue_looks {value data out : Bytes} (hdata : replaceAll value spmWhitespaceSep (ascii " ") = data)
    (hlook : LooksLikeByte data) (h : readValue value = .ok out) : weight out < weight data := by
  obtain ⟨hlen, ⟨rest, hpre⟩, hsuf⟩ := hlook
  unfold readValue at h
  dsimp only at h
  rw [hdata, if_pos ⟨hlen, ⟨rest, hpre⟩, hsuf⟩] at h
  have hascii : ascii "<0x" = [0x3c, 0x30, 0x78] := rfl
  rw [hascii] at hpre
  obtain ⟨x, y, z, rfl⟩ : ∃ x y z, rest = [x, y, z] := by
    rw [← hpre] at hlen
    match rest, hlen with
    | [x, y, z], _ => exact ⟨x, y, z, rfl⟩
  subst hpre
  have hz : z = 0x3e := by
    obtain ⟨pre, hpre⟩ := hsuf
    have := congrArg List.getLast? hpre
    rw [List.getLast?_append] at this
    exact (Option.some.inj this).symm
  cases hparse : parseUint x y with
  | none =>
    rw [show ([0x3c, 0x30, 0x78] ++ [x, y, z] : Bytes).getD 3 0 = x from rfl,
      show ([0x3c, 0x30, 0x78] ++ [x, y, z] : Bytes).getD 4 0 = y from rfl, hparse] at h
    cases h
  | some b =>
    rw [show ([0x3c, 0x30, 0x78] ++ [x, y, z] : Bytes).getD 3 0 = x from rfl,
      show ([0x3c, 0x30, 0x78] ++ [x, y, z] : Bytes).getD 4 0 = y from rfl, hparse] at h
    obtain rfl := Except.ok.inj h
    have hboth : x.toNat < 128 ∧ y.toNat < 128 := by
      obtain ⟨high, hhigh, hparse⟩ := Option.bind_eq_some_iff.mp hparse
      obtain ⟨low, hlow, -⟩ := Option.map_eq_some_iff.mp hparse
      refine ⟨?_, digit_lt hlow⟩
      split_ifs at hhigh with hx
      · rw [hx]
        decide
      · exact digit_lt hhigh
    have hone : weight [b] ≤ 1 := by
      simp only [weight, List.map_cons, List.map_nil, List.sum_cons, List.sum_nil]
      split_ifs <;> omega
    have hsix : weight ([0x3c, 0x30, 0x78] ++ [x, y, z]) = 6 := by
      rw [hz]
      simp [weight, hboth.1, hboth.2]
    omega

theorem readValue_text {value data : Bytes} (hdata : replaceAll value spmWhitespaceSep (ascii " ") = data)
    (hlook : ¬ LooksLikeByte data) : readValue value = .ok data := by
  unfold readValue
  dsimp only
  rw [hdata, if_neg hlook]

/-! ## Spaces -/

def respace (c : Char) : Char := if c = ' ' then '▁' else c

def unspace (c : Char) : Char := if c = '▁' then ' ' else c

theorem unspace_respace {c : Char} (h : c ≠ '▁') : unspace (respace c) = c := by
  unfold unspace respace
  split_ifs <;> simp_all

/-- The spaces of a text become separators. -/
theorem replace_spaces (t : Bytes) : replaceAll t (ascii " ") spmWhitespaceSep =
    t.flatMap fun x => if x = 0x20 then spmWhitespaceSep else [x] := Lib.replaceAll_singleton 0x20 t

theorem sep_eq : spmWhitespaceSep = [0xe2, 0x96, 0x81] := by decide

/-- What starts a text with separators for spaces, and has none of their first bytes, starts the text. -/
theorem prefix_of_spaces {k t : Bytes} (hk : ∀ x ∈ k, x ≠ 0xe2)
    (h : k <+: t.flatMap fun x => if x = 0x20 then spmWhitespaceSep else [x]) : k <+: t := by
  induction k generalizing t with
  | nil => exact List.nil_prefix
  | cons y k ih =>
    cases t with
    | nil => exact absurd (List.prefix_nil.mp h) (List.cons_ne_nil _ _)
    | cons z t =>
      rw [List.flatMap_cons] at h
      split_ifs at h with hz
      · rw [sep_eq] at h
        exact absurd (List.cons_prefix_cons.mp h).1 (hk y (List.mem_cons_self ..))
      · obtain ⟨rfl, hrest⟩ := List.cons_prefix_cons.mp h
        exact List.cons_prefix_cons.mpr ⟨rfl, ih (fun x hx => hk x (List.mem_cons_of_mem _ hx)) hrest⟩

/-- The separators of a text without them become its spaces again. -/
theorem replace_back {t : Bytes} (h : ¬ spmWhitespaceSep <:+: t) :
    replaceAll (replaceAll t (ascii " ") spmWhitespaceSep) spmWhitespaceSep (ascii " ") = t := by
  have hne : spmWhitespaceSep ≠ [] := by decide
  rw [replace_spaces]
  induction t with
  | nil => rfl
  | cons x t ih =>
    have hrest : ¬ spmWhitespaceSep <:+: t := fun hin => h (hin.trans (List.suffix_cons x t).isInfix)
    rw [List.flatMap_cons]
    split_ifs with hx
    · rw [Lib.replaceAll_prefix hne, ih hrest, hx]
      rfl
    · rw [List.singleton_append, Lib.replaceAll_cons hne, ih hrest]
      intro hpre
      have hsep := hpre
      rw [sep_eq] at hsep
      obtain ⟨rfl, hmore⟩ := List.cons_prefix_cons.mp hsep
      have hstart := prefix_of_spaces (by simp) hmore
      apply h
      rw [sep_eq]
      exact (List.cons_prefix_cons.mpr ⟨rfl, hstart⟩).isInfix

/-- In a slice of runes the separators become spaces one by one. -/
theorem replace_runes (r : List Char) :
    replaceAll (ofRunes r) spmWhitespaceSep (ascii " ") = ofRunes (r.map unspace) := by
  have hne : spmWhitespaceSep ≠ [] := by decide
  induction r with
  | nil => rfl
  | cons c r ih =>
    have hcons : ofRunes (c :: r) = String.utf8EncodeChar c ++ ofRunes r := rfl
    have hcons' : ofRunes ((c :: r).map unspace) = String.utf8EncodeChar (unspace c) ++ ofRunes (r.map unspace) := rfl
    rw [hcons, hcons', ← ih]
    by_cases hc : c = '▁'
    · subst hc
      exact Lib.replaceAll_prefix hne _
    · have hunspace : unspace c = c := if_neg hc
      rw [hunspace]
      refine Lib.replaceAll_append hne fun i hi hpre => ?_
      -- the separator would start inside of another rune
      have hfirst : (String.utf8EncodeChar c)[i].IsUTF8FirstByte := by
        obtain ⟨rest, hrest⟩ := hpre
        rw [List.drop_append_of_le_length hi.le, List.drop_eq_getElem_cons hi, sep_eq] at hrest
        rw [← (List.cons.inj hrest).1]
        decide
      rw [UInt8.isUTF8FirstByte_getElem_utf8EncodeChar] at hfirst
      subst hfirst
      rw [List.drop_zero] at hpre
      obtain ⟨rest, hrest⟩ := hpre
      have hruns := congrArg toRunes hrest
      have hsep : spmWhitespaceSep = String.utf8EncodeChar '▁' := by decide
      rw [hsep, Lib.toRunes_encode, Lib.toRunes_encode] at hruns
      exact hc (List.cons.inj hruns).1.symm

theorem spaces_of_not_mem {b : Bytes} (h : 0x20 ∉ b) : b.flatMap (fun x => if x = 0x20 then spmWhitespaceSep else [x]) = b := by
  induction b with
  | nil => rfl
  | cons x b ih =>
    rw [List.mem_cons, not_or] at h
    rw [List.flatMap_cons, if_neg (Ne.symm h.1), ih h.2]
    rfl

theorem spaces_encode (c : Char) : (String.utf8EncodeChar c).flatMap (fun x => if x = 0x20 then spmWhitespaceSep else [x]) =
    String.utf8EncodeChar (respace c) := by
  by_cases hc : c = ' '
  · subst hc
    decide
  · have hrespace : respace c = c := if_neg hc
    rw [hrespace]
    apply spaces_of_not_mem
    intro hmem
    by_cases hascii : c.toNat < 128
    · rw [Lib.utf8EncodeChar_ascii hascii, List.mem_singleton] at hmem
      have hnat := congrArg UInt8.toNat hmem
      rw [UInt8.toNat_ofNat', Nat.mod_eq_of_lt (by omega)] at hnat
      exact hc (Char.ext (UInt32.toNat_inj.mp hnat.symm))
    · have hhigh := (Lib.utf8EncodeChar_high (by omega)).2 _ hmem
      exact absurd hhigh.1 (by decide)

/-- The runes of a text with separators for its spaces. -/
theorem toRunes_spaces (t : Bytes) :
    toRunes (t.flatMap fun x => if x = 0x20 then spmWhitespaceSep else [x]) = (toRunes t).map respace := by
  induction hn : t.length using Nat.strong_induction_on generalizing t with
  | _ n ih =>
    obtain rfl | ⟨c, rest, rfl, -⟩ | ⟨x, rest, rfl, hx, -⟩ := Lib.runes_cases t
    · rfl
    · have hpos := c.utf8Size_pos
      rw [List.length_append, String.length_utf8EncodeChar] at hn
      have hrest := ih rest.length (by omega) rest rfl
      rw [List.flatMap_append, Lib.toRunes_encode, List.map_cons, ← hrest]
      rw [spaces_encode, Lib.toRunes_encode]
    · rw [List.length_cons] at hn
      have hrest := ih rest.length (by omega) rest rfl
      have hspace : x ≠ 0x20 := by
        rintro rfl
        have hdecode := Lib.decodeRune_encode ' ' rest
        rw [show String.utf8EncodeChar ' ' = [0x20] from rfl, List.singleton_append, hx] at hdecode
        cases hdecode
      have hnone : Lib.decodeRune (x :: rest.flatMap fun x => if x = 0x20 then spmWhitespaceSep else [x]) = none := by
        rw [Option.eq_none_iff_forall_ne_some]
        intro c hc
        obtain ⟨more, hmore⟩ := Lib.decodeRune_eq_some.mp hc
        -- the bytes of the rune behind the first one are in the text itself
        obtain ⟨y, ys, hy⟩ := List.exists_cons_of_ne_nil (String.utf8EncodeChar_ne_nil (c := c))
        rw [hy, List.cons_append] at hmore
        obtain ⟨rfl, htail⟩ := List.cons.inj hmore
        have hinner : ∀ z ∈ ys, z ≠ 0xe2 := by
          rintro z hz rfl
          exact Lib.not_first_of_tail hy hz (by decide)
        have hpre : ys <+: rest := prefix_of_spaces hinner ⟨more, htail.symm⟩
        obtain ⟨tail, rfl⟩ := hpre
        rw [← List.cons_append, ← hy, Lib.decodeRune_encode] at hx
        cases hx
      rw [List.flatMap_cons, if_neg hspace, List.singleton_append, Lib.toRunes_invalid hnone, Lib.toRunes_invalid hx, hrest]
      rfl

theorem high_of_invalid {x : UInt8} {b : Bytes} (h : Lib.decodeRune (x :: b) = none) : 128 ≤ x.toNat := by
  by_contra hlt
  have hvalid : Lib.validString [x] = true := Lib.validString_ascii (by simpa using Nat.not_le.mp hlt)
  obtain ⟨r, hr⟩ := Lib.validString_iff.mp hvalid
  cases r with
  | nil => cases hr
  | cons c r =>
    have hlen := congrArg List.length hr
    have hpos := c.utf8Size_pos
    rw [List.flatMap_cons, List.length_append, String.length_utf8EncodeChar, List.length_singleton] at hlen
    have hnil : r.flatMap String.utf8EncodeChar = [] := List.length_eq_zero_iff.mp (by omega)
    rw [List.flatMap_cons, hnil, List.append_nil] at hr
    have hdecode := Lib.decodeRune_encode c b
    rw [hr, List.singleton_append, h] at hdecode
    cases hdecode

/-- Reading a text as runes adds bytes that count against it, where it is not valid. -/
theorem weight_runes (t : Bytes) : weight (ofRunes (toRunes t)) ≤ weight t ∧
    (Lib.validString t = false → weight (ofRunes (toRunes t)) < weight t) := by
  induction hn : t.length using Nat.strong_induction_on generalizing t with
  | _ n ih =>
    obtain rfl | ⟨c, rest, rfl, -⟩ | ⟨x, rest, rfl, hx, -⟩ := Lib.runes_cases t
    · exact ⟨Int.le_refl _, fun h => by rw [Lib.validString_nil] at h; cases h⟩
    · have hpos := c.utf8Size_pos
      rw [List.length_append, String.length_utf8EncodeChar] at hn
      obtain ⟨hle, hlt⟩ := ih rest.length (by omega) rest rfl
      have hcons : ofRunes (c :: toRunes rest) = String.utf8EncodeChar c ++ ofRunes (toRunes rest) := rfl
      rw [Lib.toRunes_encode, hcons, weight_append, weight_append]
      refine ⟨by omega, fun h => ?_⟩
      have hinvalid : Lib.validString rest = false := by
        rw [Bool.eq_false_iff] at h ⊢
        exact fun hrest => h (Lib.validString_append (Lib.validString_iff.mpr ⟨[c], by simp⟩) hrest)
      have := hlt hinvalid
      omega
    · rw [List.length_cons] at hn
      obtain ⟨hle, -⟩ := ih rest.length (by omega) rest rfl
      have hcons : ofRunes ('\uFFFD' :: toRunes rest) = String.utf8EncodeChar '\uFFFD' ++ ofRunes (toRunes rest) := rfl
      have hsix : weight (String.utf8EncodeChar '\uFFFD') = -6 := by decide
      have hone : weight (x :: rest) = -2 + weight rest := by
        have := high_of_invalid hx
        simp only [weight, List.map_cons, List.sum_cons]
        rw [if_neg (by omega)]
      rw [Lib.toRunes_invalid hx, hcons, weight_append, hsix, hone]
      exact ⟨by omega, fun _ => by omega⟩

/-! ## Ids that are read back -/

namespace SentencePiece

variable {S : Type} (spm : SentencePiece S)

/-- The ids are decoded to the text. -/
def Reads (ids : List Int) (out : Bytes) : Prop := spm.decode ids = some (.ok out)

theorem reads_nil {out : Bytes} : spm.Reads [] out ↔ out = [] := by
  simp [Reads, decode, eq_comm]

theorem reads_cons {id : Int} {ids : List Int} {out : Bytes} : spm.Reads (id :: ids) out ↔
    ∃ value data rest, spm.vocab.decode id = some value ∧ readValue value = .ok data ∧ spm.Reads ids rest ∧ out = data ++ rest := by
  unfold Reads
  rw [decode, Option.bind_eq_bind, Option.bind_eq_some_iff]
  constructor
  · rintro ⟨value, hvalue, h⟩
    cases hread : readValue value with
    | error e =>
      rw [hread] at h
      cases h
    | ok data =>
      rw [hread] at h
      obtain ⟨r, hr, hmap⟩ := Option.map_eq_some_iff.mp h
      cases r with
      | error e => cases hmap
      | ok rest => exact ⟨value, data, rest, hvalue, hread, hr, (Except.ok.inj hmap).symm⟩
  · rintro ⟨value, data, rest, hvalue, hread, hrest, rfl⟩
    refine ⟨value, hvalue, ?_⟩
    rw [hread]
    dsimp only
    rw [hrest]
    rfl

theorem reads_append {xs ys : List Int} {out : Bytes} : spm.Reads (xs ++ ys) out ↔
    ∃ a b, spm.Reads xs a ∧ spm.Reads ys b ∧ out = a ++ b := by
  induction xs generalizing out with
  | nil => simp [reads_nil]
  | cons x xs ih =>
    rw [List.cons_append, reads_cons]
    constructor
    · rintro ⟨value, data, rest, hvalue, hread, hrest, rfl⟩
      obtain ⟨a, b, ha, hb, rfl⟩ := ih.mp hrest
      exact ⟨data ++ a, b, (spm.reads_cons).mpr ⟨value, data, a, hvalue, hread, ha, rfl⟩, hb, by simp⟩
    · rintro ⟨a, b, ha, hb, rfl⟩
      obtain ⟨value, data, rest, hvalue, hread, hrest, rfl⟩ := (spm.reads_cons).mp ha
      exact ⟨value, data, rest ++ b, hvalue, hread, ih.mpr ⟨rest, b, hrest, hb, rfl⟩, by simp⟩

/-- The ids are read back as a text, or not at all, or as one of less weight. -/
structure Settles (ids : List Int) (text : Bytes) (good : Prop) : Prop where
  right : good → spm.Reads ids text
  wrong : ¬ good → ∀ out, spm.Reads ids out → weight out < weight text

theorem Settles.le {ids : List Int} {text out : Bytes} {good : Prop} (h : spm.Settles ids text good)
    (hout : spm.Reads ids out) : weight out ≤ weight text := by
  by_cases hgood : good
  · have hright := h.right hgood
    unfold Reads at hright hout
    rw [hright] at hout
    obtain rfl := Except.ok.inj (Option.some.inj hout)
    exact Int.le_refl _
  · exact Int.le_of_lt (h.wrong hgood out hout)

theorem Settles.flatMap {α : Type} {ids : α → List Int} {text : α → Bytes} {good : α → Prop} {xs : List α}
    (h : ∀ x ∈ xs, spm.Settles (ids x) (text x) (good x)) :
    spm.Settles (xs.flatMap ids) (xs.flatMap text) (∀ x ∈ xs, good x) := by
  induction xs with
  | nil => exact ⟨fun _ => spm.reads_nil.mpr rfl, fun hbad => absurd (by simp) hbad⟩
  | cons x xs ih =>
    have hx := h x (List.mem_cons_self ..)
    have hrest := ih fun y hy => h y (List.mem_cons_of_mem _ hy)
    simp only [List.flatMap_cons, List.forall_mem_cons]
    constructor
    · rintro ⟨hgood, hall⟩
      exact spm.reads_append.mpr ⟨_, _, hx.right hgood, hrest.right hall, rfl⟩
    · intro hbad out hout
      obtain ⟨a, b, ha, hb, rfl⟩ := spm.reads_append.mp hout
      have hle := hx.le spm ha
      have hle' := hrest.le spm hb
      rw [weight_append, weight_append]
      by_cases hgood : good x
      · have := hrest.wrong (fun hall => hbad ⟨hgood, hall⟩) b hb
        omega
      · have := hx.wrong hgood a ha
        omega

theorem settles_value {value data : Bytes} (hvalue : value ∈ spm.vocab.values)
    (hdata : replaceAll value spmWhitespaceSep (ascii " ") = data) :
    spm.Settles [spm.vocab.encode value] data (¬ LooksLikeByte data) := by
  have hid := Vocabulary.decode_encode (Vocabulary.encode_nonneg_iff.mpr hvalue)
  constructor
  · intro hlook
    exact spm.reads_cons.mpr ⟨value, data, [], hid, readValue_text hdata hlook, spm.reads_nil.mpr rfl, by simp⟩
  · intro hlook out hout
    obtain ⟨value', data', rest, hvalue', hread, hrest, rfl⟩ := spm.reads_cons.mp hout
    rw [hid] at hvalue'
    obtain rfl := Option.some.inj hvalue'
    rw [spm.reads_nil.mp hrest, List.append_nil]
    exact readValue_looks hdata (not_not.mp hlook) hread

/-- The byte tokens of a text are read back as its bytes. -/
theorem reads_bytes (hbytes : ∀ b, byteToken b ∈ spm.vocab.values) (text : Bytes) :
    spm.Reads (text.filterMap fun b =>
      let unknownID := spm.vocab.encode (byteToken b)
      if unknownID ≥ 0 then some unknownID else none) text := by
  induction text with
  | nil => exact spm.reads_nil.mpr rfl
  | cons b text ih =>
    have hid : 0 ≤ spm.vocab.encode (byteToken b) := Vocabulary.encode_nonneg_iff.mpr (hbytes b)
    have hhead : (let unknownID := spm.vocab.encode (byteToken b)
        if unknownID ≥ 0 then some unknownID else none) = some (spm.vocab.encode (byteToken b)) := if_pos hid
    rw [List.filterMap_cons, hhead]
    exact spm.reads_cons.mpr ⟨_, [b], text, Vocabulary.decode_encode hid, readValue_byteToken b, ih, rfl⟩

/-- A symbol that is left is read back, unless it is a value that looks like a byte token, or a separator that is no
value. -/
def SymbolReadBack (runes : List Char) : Prop :=
  if ofRunes runes ∈ spm.vocab.values then ¬ LooksLikeByte (ofRunes (runes.map unspace)) else runes ≠ ['▁']

theorem ofRunes_ne_nil {r : List Char} (h : r ≠ []) : ofRunes r ≠ [] := by
  obtain ⟨c, r, rfl⟩ := List.exists_cons_of_ne_nil h
  exact List.append_ne_nil_of_left_ne_nil String.utf8EncodeChar_ne_nil _

theorem settles_symbol (hbytes : ∀ b, byteToken b ∈ spm.vocab.values) {m : Merge}
    (hknown : m.runes ≠ [] → m.runes.length = 1 ∨ ofRunes m.runes ∈ spm.vocab.values) :
    spm.Settles (spm.encodeSymbol m) (ofRunes (m.runes.map unspace)) (m.runes ≠ [] → spm.SymbolReadBack m.runes) := by
  unfold encodeSymbol SymbolReadBack
  dsimp only
  by_cases hne : m.runes = []
  · rw [if_pos (by simp [hne]), hne]
    exact ⟨fun _ => spm.reads_nil.mpr rfl, fun h => absurd (fun h => absurd rfl h) h⟩
  · rw [if_neg (ofRunes_ne_nil hne)]
    by_cases hvalue : ofRunes m.runes ∈ spm.vocab.values
    · rw [if_pos (Vocabulary.encode_nonneg_iff.mpr hvalue), if_pos hvalue]
      obtain ⟨hright, hwrong⟩ := spm.settles_value hvalue (replace_runes m.runes)
      exact ⟨fun h => hright (h hne), fun h => hwrong fun h' => h fun _ => h'⟩
    · rw [if_neg (fun h => hvalue (Vocabulary.encode_nonneg_iff.mp h)), if_neg hvalue]
      obtain ⟨c, hc⟩ := List.length_eq_one_iff.mp ((hknown hne).resolve_right hvalue)
      have hreads := spm.reads_bytes hbytes (ofRunes m.runes)
      constructor
      · intro h
        have hsep : c ≠ '▁' := fun hsep => h hne (by rw [hc, hsep])
        have hmap : m.runes.map unspace = m.runes := by simp [hc, unspace, hsep]
        rwa [hmap]
      · intro h out hout
        have hsep : m.runes = ['▁'] := by
          by_contra hother
          exact h fun _ => hother
        unfold Reads at hreads hout
        rw [hreads] at hout
        obtain rfl := Except.ok.inj (Option.some.inj hout)
        rw [hsep]
        decide

theorem length_ofRunes_append {l r x y : List Char}
    (h : (ofRunes (l ++ x)).length + (ofRunes (r ++ y)).length = (ofRunes l).length + (ofRunes r).length) :
    x = [] ∧ y = [] := by
  rw [Lib.ofRunes_append, Lib.ofRunes_append, List.length_append, List.length_append] at h
  constructor
  · by_contra hx
    have := List.length_pos_iff.mpr (ofRunes_ne_nil hx)
    omega
  · by_contra hy
    have := List.length_pos_iff.mpr (ofRunes_ne_nil hy)
    omega

/-- A candidate was found for the beginnings of its symbols, and is current only while they have not grown. -/
theorem lawful_pairing : spm.pairing.Lawful
    (fun pair l r => ∃ l' r', l' <+: l ∧ r' <+: r ∧ (ofRunes l').length + (ofRunes r').length = pair.size ∧
      ofRunes (l' ++ r') ∈ spm.vocab.values)
    (fun r => r.length = 1 ∨ ofRunes r ∈ spm.vocab.values) where
  pairwise merges a b pair h := by
    have h' : spm.pairwise merges a b = some pair := h
    unfold pairwise at h'
    split_ifs at h' with hbound
    dsimp only at h'
    split_ifs at h' with hid
    obtain ⟨score, -, rfl⟩ := Option.map_eq_some_iff.mp h'
    rw [not_or] at hbound
    have hvalue := Vocabulary.encode_nonneg_iff.mp hid
    rw [← Lib.ofRunes_append] at hvalue
    exact ⟨Int.toNat_of_nonneg (by omega), rfl, by omega, _, _, List.prefix_rfl, List.prefix_rfl, rfl, hvalue⟩
  grow pair l r x y h := by
    obtain ⟨l', r', hl, hr, hsize, hvalue⟩ := h
    exact ⟨l', r', hl.trans (List.prefix_append _ _), hr.trans (List.prefix_append _ _), hsize, hvalue⟩
  known pair l r hcurrent h := by
    obtain ⟨l', r', ⟨x, rfl⟩, ⟨y, rfl⟩, hsize, hvalue⟩ := h
    have hlen : (ofRunes (l' ++ x)).length + (ofRunes (r' ++ y)).length = pair.size := of_decide_eq_true hcurrent
    obtain ⟨rfl, rfl⟩ := length_ofRunes_append (hlen.trans hsize.symm)
    rw [List.append_nil, List.append_nil]
    exact .inr hvalue

variable [LT S] [DecidableLT S] [BEq S] (heap : Heap (Candidate S) lessCandidate)

/-- A stretch of text is read back, unless it is a value that looks like a byte token, or it is no value and not valid or
one of its symbols is not read back. -/
def TextReadBack (t : Bytes) : Prop :=
  let text := replaceAll t (ascii " ") spmWhitespaceSep
  if text ∈ spm.vocab.values then ¬ LooksLikeByte t
  else Lib.validString t = true ∧
    ∀ m ∈ mergeAll spm.pairing heap (toRunes text), m.runes ≠ [] → spm.SymbolReadBack m.runes

theorem settles_text (hbytes : ∀ b, byteToken b ∈ spm.vocab.values) {t : Bytes} (hsep : ¬ spmWhitespaceSep <:+: t)
    (hrunes : '▁' ∉ toRunes t) :
    spm.Settles (spm.encodeFragment heap { value := t }) t (spm.TextReadBack heap t) := by
  unfold encodeFragment TextReadBack
  rw [if_neg (by simp)]
  dsimp only
  by_cases hvalue : replaceAll t (ascii " ") spmWhitespaceSep ∈ spm.vocab.values
  · rw [if_pos (Vocabulary.encode_nonneg_iff.mpr hvalue), if_pos hvalue]
    exact spm.settles_value hvalue (replace_back hsep)
  · rw [if_neg (fun h => hvalue (Vocabulary.encode_nonneg_iff.mp h)), if_neg hvalue]
    obtain ⟨hkeep, hknown⟩ := @mergeAll_spec _ _ _ _ _ heap spm.lawful_pairing
      (toRunes (replaceAll t (ascii " ") spmWhitespaceSep)) fun r _ => .inl rfl
    have hsymbols := Settles.flatMap spm fun m hm => spm.settles_symbol hbytes (hknown m hm)
    have htext : (mergeAll spm.pairing heap (toRunes (replaceAll t (ascii " ") spmWhitespaceSep))).flatMap
        (fun m => ofRunes (m.runes.map unspace)) = ofRunes (toRunes t) := by
      have hback : ((toRunes t).map respace).map unspace = toRunes t := by
        rw [List.map_map]
        refine (List.map_congr_left fun c hc => ?_).trans (List.map_id _)
        exact unspace_respace fun h => hrunes (h ▸ hc)
      rw [← toRunes_spaces, ← replace_spaces, ← hkeep] at hback
      rw [← hback]
      generalize mergeAll spm.pairing heap (toRunes (replaceAll t (ascii " ") spmWhitespaceSep)) = ms
      simp only [ofRunes, List.map_flatMap, List.flatMap_assoc]
    rw [htext] at hsymbols
    obtain ⟨hle, hlt⟩ := weight_runes t
    constructor
    · rintro ⟨hvalid, hall⟩
      have := hsymbols.right hall
      rwa [Lib.ofRunes_toRunes hvalid] at this
    · intro hbad out hout
      by_cases hvalid : Lib.validString t = true
      · have := hsymbols.wrong (fun hall => hbad ⟨hvalid, hall⟩) out hout
        omega
      · have := hsymbols.le spm hout
        have := hlt (Bool.eq_false_iff.mpr hvalid)
        omega

/-! ## The round trip -/

theorem encode_eq_some {n : Nat} {s : Bytes} {ids : List Int} : spm.encode heap n s false = some ids ↔
    ∃ frags, fragments spm.vocab n s = some frags ∧ ids = frags.flatMap (spm.encodeFragment heap) := by
  unfold encode
  rw [Option.bind_eq_bind, Option.bind_eq_some_iff]
  simp [eq_comm]

theorem textReadBack_nil : spm.TextReadBack heap [] := by
  unfold TextReadBack
  dsimp only
  split_ifs
  · decide
  · refine ⟨Lib.validString_nil, ?_⟩
    intro m hm hne
    obtain ⟨hkeep, -⟩ := @mergeAll_spec _ _ _ _ _ heap spm.lawful_pairing [] (by simp)
    have hnil := List.flatMap_eq_nil_iff.mp hkeep m hm
    exact absurd hnil hne

theorem settles_fragment (hbytes : ∀ b, byteToken b ∈ spm.vocab.values) {frag : Fragment} (h : frag.Sound spm.vocab)
    (hsep : ¬ spmWhitespaceSep <:+: frag.value) (hrunes : '▁' ∉ toRunes frag.value) :
    spm.Settles (spm.encodeFragment heap frag) frag.value
      (frag.Meets (spm.TextReadBack heap) fun special => ¬ LooksLikeByte special) := by
  obtain ⟨value, ids⟩ := frag
  obtain hids | ⟨hids, hvalue⟩ := h
  · obtain rfl : ids = [] := hids
    exact spm.settles_text heap hbytes hsep hrunes
  · obtain rfl : ids = [spm.vocab.encode value] := hids
    exact spm.settles_value hvalue (Lib.replaceAll_of_not_infix (by decide) hsep)

/-- The byte tokens, and a start token. -/
def byteTokens : SentencePiece Int where
  vocab := {
    values := (List.range 256).map (fun n => byteToken (UInt8.ofNat n)) ++ [ascii "<s>"]
    types := List.replicate 256 tokenTypeByte ++ [tokenTypeControl]
    scores := List.replicate 257 0
    types_length := by
      rw [List.length_append, List.length_append, List.length_replicate, List.length_map, List.length_range]
      rfl
    values_lt := by
      rw [List.length_append, List.length_map, List.length_range, List.length_singleton]
      decide
    merges_lt := no_merges }
  scores_length := by
    refine List.length_replicate.trans (Eq.symm ?_)
    rw [List.length_append, List.length_map, List.length_range, List.length_singleton]

theorem byteTokens_values (b : UInt8) : byteToken b ∈ byteTokens.vocab.values := by
  refine List.mem_append_left _ (List.mem_map.mpr ⟨b.toNat, List.mem_range.mpr b.toNat_lt, ?_⟩)
  rw [UInt8.ofNat_toNat]

end SentencePiece

end Xdragon.Tokenizer
