import Xdragon.Tokenizer.Fragments
import Xdragon.Tokenizer.Merges

/-!
# Byte pair encoding

Bytes are written as runes of three shifted ranges, merged to the values of the vocabulary, and read
back rune by rune. A special token was never written that way, but is read back the same way.
-/

namespace Xdragon.Tokenizer

open Xdragon.Lib (Bytes ascii Heap toRunes ofRunes toRunes_ofRunes ofRunes_toRunes ofRunes_append ofRunes_nil
  validString validString_ofRunes validString_ascii utf8EncodeChar_ascii utf8EncodeChar_high ascii_runes ofRunes_ascii
  runeError_mem lt_of_valid toNat_ofNat listHeap)

/-- A match of a pattern in a slice of runes. -/
structure Match where
  index : Nat
  length : Nat

/-- The matches that `FindRunesMatch` and `FindNextMatch` give one after another. -/
abbrev Regexp := List Char → List Match

structure Pair where
  a : Nat
  b : Nat
  rank : Int
  value : Bytes

def lessPair (i j : Pair) : Bool := i.rank < j.rank

/-- The rune for a byte. -/
def symbol (b : UInt8) : Char :=
  let r := b.toNat
  if r = 0x00ad then Char.ofNat 0x0143
  else if r ≤ 0x0020 then Char.ofNat (r + 0x0100)
  else if r ≥ 0x007f ∧ r ≤ 0x00a0 then Char.ofNat (r + 0x00a2)
  else Char.ofNat r

/-- The byte for a rune, and none for the rune of NUL. -/
def byteOf (r : Char) : Option UInt8 :=
  let r := r.toNat
  if r = 0x0100 then none
  else if r = 0x0143 then some 0xad
  else if r > 0x0100 ∧ r ≤ 0x0120 then some (UInt8.ofNat (r - 0x0100))
  else if r > 0x0120 ∧ r ≤ 0x0142 then some (UInt8.ofNat (r - 0x00a2))
  else some (UInt8.ofNat r)

/-- What the loop over the matches yields, `offset` being the end of the last match. -/
def yieldMatches (r : List Char) : Nat → List Match → List Bytes
  | offset, [] => if offset < r.length then [ofRunes (r.drop offset)] else []
  | offset, m :: ms =>
    (if (offset : Int) - m.index ≠ 0 then [ofRunes (r.take m.index)] else []) ++
      ofRunes ((r.drop m.index).take m.length) :: yieldMatches r (m.index + m.length) ms

structure BytePairEncoding (S : Type) where
  vocab : Vocabulary S
  regexps : List Regexp

namespace BytePairEncoding

variable {S : Type} (bpe : BytePairEncoding S) (heap : Heap Pair lessPair)

def split (s : Bytes) : List Bytes :=
  bpe.regexps.foldl (fun parts re => parts.flatMap fun part => yieldMatches (toRunes part) 0 (re (toRunes part))) [s]

def pairwise (merges : List Merge) (a : Int) (b : Nat) : Option Pair :=
  if a < 0 ∨ b ≥ merges.length then none
  else
    let left := ofRunes (symbolAt merges a.toNat).runes
    let right := ofRunes (symbolAt merges b).runes
    let rank := bpe.vocab.merge left right
    if rank < 0 then none else some { a := a.toNat, b, rank, value := left ++ right }

def pairing : Pairing Pair where
  a := Pair.a
  b := Pair.b
  pairwise := bpe.pairwise
  current pair left right := ofRunes left ++ ofRunes right = pair.value ∧ ¬ bpe.vocab.encode pair.value < 0

def encodeSplit (split : Bytes) : List Int :=
  let symbols := ofRunes (split.map symbol)
  let id := bpe.vocab.encode symbols
  if id ≥ 0 then [id]
  else
    (mergeAll bpe.pairing heap (toRunes symbols)).filterMap fun m =>
      let id := bpe.vocab.encode (ofRunes m.runes)
      if m.runes.length > 0 ∧ id ≥ 0 then some id else none

def encodeFragment (frag : Fragment) : List Int :=
  if frag.ids.length > 0 then frag.ids else (bpe.split frag.value).flatMap (bpe.encodeSplit heap)

/-- `n` turns of the loop for each special token. -/
def encode (n : Nat) (s : Bytes) (addSpecial : Bool) : Option (List Int) := do
  let frags ← fragments bpe.vocab n s
  let ids := frags.flatMap (bpe.encodeFragment heap)
  return if addSpecial then bpe.vocab.addSpecials ids else ids

/-- `none` is a crash. -/
def decode (ids : List Int) : Option Bytes := do
  let values ← ids.mapM bpe.vocab.decode
  return values.flatMap fun value => (toRunes value).filterMap byteOf

end BytePairEncoding

/-! ## Bytes and runes -/

theorem toNat_symbol (b : UInt8) : (symbol b).toNat =
    if b.toNat = 0x00ad then 0x0143 else if b.toNat ≤ 0x0020 then b.toNat + 0x0100
    else if b.toNat ≥ 0x007f ∧ b.toNat ≤ 0x00a0 then b.toNat + 0x00a2 else b.toNat := by
  have hb := b.toNat_lt
  unfold symbol
  dsimp only
  split_ifs <;> exact toNat_ofNat (by omega)

/-- The three ranges are read back, and NUL is lost. -/
theorem byteOf_symbol (b : UInt8) : byteOf (symbol b) = if b = 0 then none else some b := by
  have hb := b.toNat_lt
  have hzero : b = 0 ↔ b.toNat = 0 := by rw [← UInt8.toNat_inj]; rfl
  have hofNat : ∀ n, n = b.toNat → UInt8.ofNat n = b := by
    rintro n rfl
    simp
  unfold byteOf
  dsimp only
  rw [toNat_symbol]
  simp only [hzero]
  split_ifs
  all_goals first
    | omega
    | exact congrArg some (hofNat _ (by omega))
    | exact congrArg some (hofNat 0xad (by omega))
    | exact Eq.refl none

theorem decode_symbols (bs : Bytes) : (bs.map symbol).filterMap byteOf = bs.filter (· ≠ 0) := by
  induction bs with
  | nil => rfl
  | cons b bs ih =>
    rw [List.map_cons, List.filterMap_cons, byteOf_symbol, List.filter_cons, ih]
    by_cases hb : b = 0 <;> simp [hb]

/-! ## The splits of a text -/

/-- Each match starts where the one before ends. -/
def Contiguous (len : Nat) : Nat → List Match → Prop
  | _, [] => True
  | offset, m :: ms => m.index = offset ∧ m.index + m.length ≤ len ∧ Contiguous len (m.index + m.length) ms

/-- The matches tile the text. -/
def Tiles (re : Regexp) (r : List Char) : Prop := Contiguous r.length 0 (re r)

theorem yieldMatches_contiguous {r : List Char} {offset : Nat} {ms : List Match} (h : Contiguous r.length offset ms) :
    (∀ part ∈ yieldMatches r offset ms, validString part = true) ∧ (yieldMatches r offset ms).flatten = ofRunes (r.drop offset) := by
  induction ms generalizing offset with
  | nil =>
    rw [yieldMatches]
    split_ifs with hlt
    · simpa using validString_ofRunes (r.drop offset)
    · rw [List.drop_eq_nil_of_le (by omega)]
      simp
  | cons m ms ih =>
    obtain ⟨rfl, -, hrest⟩ := h
    obtain ⟨hvalid, hflat⟩ := ih hrest
    have hgap : (if (m.index : Int) - m.index ≠ 0 then [ofRunes (r.take m.index)] else []) = [] := by simp
    rw [yieldMatches, hgap, List.nil_append]
    constructor
    · intro part hpart
      obtain rfl | hpart := List.mem_cons.mp hpart
      · exact validString_ofRunes _
      · exact hvalid part hpart
    · rw [List.flatten_cons, hflat, ← ofRunes_append]
      congr 1
      rw [← List.drop_drop, List.take_append_drop]

namespace BytePairEncoding

variable {S : Type} (bpe : BytePairEncoding S)

/-- A valid text is split into valid texts, if every pattern tiles what it is given. -/
theorem split_flatten {s : Bytes} (htile : ∀ re ∈ bpe.regexps, ∀ t, t <:+: s → Tiles re (toRunes t))
    (hs : validString s = true) : (bpe.split s).flatten = s := by
  unfold split
  have hfold : ∀ (res : List Regexp) (parts : List Bytes), (∀ re ∈ res, re ∈ bpe.regexps) → parts.flatten = s →
      (∀ part ∈ parts, validString part = true) →
      (res.foldl (fun parts re => parts.flatMap fun part => yieldMatches (toRunes part) 0 (re (toRunes part))) parts).flatten = s := by
    intro res
    induction res with
    | nil => exact fun parts _ hparts _ => hparts
    | cons re res ih =>
      intro parts hres hparts hvalid
      rw [List.foldl_cons]
      have heach : ∀ part ∈ parts, (∀ t ∈ yieldMatches (toRunes part) 0 (re (toRunes part)), validString t = true) ∧
          (yieldMatches (toRunes part) 0 (re (toRunes part))).flatten = part := by
        intro part hpart
        have hin : part <:+: s := hparts ▸ List.infix_of_mem_flatten hpart
        have hspec := yieldMatches_contiguous (htile re (hres re (List.mem_cons_self ..)) part hin)
        rwa [List.drop_zero, ofRunes_toRunes (hvalid part hpart)] at hspec
      apply ih _ fun re' hre' => hres re' (List.mem_cons_of_mem _ hre')
      · have hflat : parts.map (List.flatten ∘ fun part => yieldMatches (toRunes part) 0 (re (toRunes part))) = parts.map id :=
          List.map_congr_left fun part hpart => (heach part hpart).2
        rw [List.flatMap_def, List.flatten_flatten, List.map_map, hflat, List.map_id, hparts]
      · intro t ht
        obtain ⟨part, hpart, ht⟩ := List.mem_flatMap.mp ht
        exact (heach part hpart).1 t ht
  exact hfold bpe.regexps [s] (fun re hre => hre) (by simp) (by simpa using hs)

/-! ## Ids that are read back -/

theorem decode_append (xs ys : List Int) : bpe.decode (xs ++ ys) = do
    let x ← bpe.decode xs
    let y ← bpe.decode ys
    return x ++ y := by
  simp only [decode, List.mapM_append]
  cases xs.mapM bpe.vocab.decode with
  | none => rfl
  | some vs =>
    cases ys.mapM bpe.vocab.decode with
    | none => rfl
    | some ws => simp

theorem decode_flatMap {α : Type} {f : α → List Int} {g : α → Bytes} {xs : List α}
    (h : ∀ x ∈ xs, bpe.decode (f x) = some (g x)) : bpe.decode (xs.flatMap f) = some (xs.flatMap g) := by
  induction xs with
  | nil => rfl
  | cons x xs ih =>
    rw [List.flatMap_cons, decode_append, h x (List.mem_cons_self ..), ih fun y hy => h y (List.mem_cons_of_mem _ hy)]
    rfl

theorem decode_id {value : Bytes} (h : value ∈ bpe.vocab.values) :
    bpe.decode [bpe.vocab.encode value] = some ((toRunes value).filterMap byteOf) := by
  have hid := Vocabulary.decode_encode (Vocabulary.encode_nonneg_iff.mpr h)
  simp [decode, hid]

variable (heap : Heap Pair lessPair)

theorem lawful_pairing : bpe.pairing.Lawful (fun _ _ _ => True) fun r => ofRunes r ∈ bpe.vocab.values where
  pairwise merges a b pair h := by
    have h' : bpe.pairwise merges a b = some pair := h
    unfold pairwise at h'
    split_ifs at h' with hbound
    dsimp only at h'
    split_ifs at h'
    obtain rfl := Option.some.inj h'
    rw [not_or] at hbound
    exact ⟨Int.toNat_of_nonneg (by omega), rfl, by omega, trivial⟩
  grow _ _ _ _ _ h := h
  known pair l r hcurrent _ := by
    have hboth : ofRunes l ++ ofRunes r = pair.value ∧ ¬ bpe.vocab.encode pair.value < 0 := of_decide_eq_true hcurrent
    rw [ofRunes_append, hboth.1, ← Vocabulary.encode_nonneg_iff]
    omega

/-- A split is read back, without its NULs. -/
theorem decode_encodeSplit (hsymbols : ∀ b, ofRunes [symbol b] ∈ bpe.vocab.values) (split : Bytes) :
    bpe.decode (bpe.encodeSplit heap split) = some (split.filter (· ≠ 0)) := by
  unfold encodeSplit
  dsimp only
  split_ifs with hid
  · rw [decode_id _ (Vocabulary.encode_nonneg_iff.mp hid), toRunes_ofRunes, decode_symbols]
  · rw [toRunes_ofRunes]
    obtain ⟨hkeep, hknown⟩ := @mergeAll_spec _ _ _ _ _ heap bpe.lawful_pairing (split.map symbol) fun r hr => by
      obtain ⟨b, -, rfl⟩ := List.mem_map.mp hr
      exact hsymbols b
    have hmerge : ∀ m ∈ mergeAll bpe.pairing heap (split.map symbol), bpe.decode (Option.toList
        (if m.runes.length > 0 ∧ bpe.vocab.encode (ofRunes m.runes) ≥ 0 then some (bpe.vocab.encode (ofRunes m.runes)) else none)) =
          some (m.runes.filterMap byteOf) := by
      intro m hm
      by_cases hne : m.runes = []
      · simp [hne, decode]
      · have hvalue := hknown m hm hne
        rw [if_pos ⟨List.length_pos_iff.mpr hne, Vocabulary.encode_nonneg_iff.mpr hvalue⟩, Option.toList_some,
          decode_id _ hvalue, toRunes_ofRunes]
    rw [List.filterMap_eq_flatMap_toList, decode_flatMap bpe hmerge, ← List.filterMap_flatMap, hkeep, decode_symbols]

theorem decode_text (hsymbols : ∀ b, ofRunes [symbol b] ∈ bpe.vocab.values) (text : Bytes) :
    bpe.decode ((bpe.split text).flatMap (bpe.encodeSplit heap)) = some ((bpe.split text).flatten.filter (· ≠ 0)) := by
  rw [decode_flatMap bpe fun split _ => bpe.decode_encodeSplit heap hsymbols split, List.filter_flatten, List.flatMap_def]

end BytePairEncoding

/-! ## Special tokens -/

theorem byteOf_ascii {c : Char} (h : c.toNat < 128) : byteOf c = some (UInt8.ofNat c.toNat) := by
  unfold byteOf
  dsimp only
  split_ifs <;> first | omega | rfl

/-- An ASCII special token is read back as it is. -/
theorem readBack_ascii {special : Bytes} (h : ∀ b ∈ special, b.toNat < 128) :
    (toRunes special).filterMap byteOf = special := by
  have hvalid := ofRunes_toRunes (validString_ascii h)
  rw [← hvalid, ascii_runes] at h
  have hbytes : (toRunes special).filterMap byteOf = (toRunes special).map fun c => UInt8.ofNat c.toNat := by
    rw [← List.filterMap_eq_map]
    exact List.filterMap_congr fun c hc => byteOf_ascii (h c hc)
  rw [hbytes, ← ofRunes_ascii h, hvalid]

/-- Each rune of a special token becomes a byte at most. -/
theorem length_readBack {special : Bytes} (hvalid : validString special = true) :
    ((toRunes special).filterMap byteOf).length ≤ special.length ∧
      ((∃ b ∈ special, 128 ≤ b.toNat) → ((toRunes special).filterMap byteOf).length < special.length) := by
  have hspecial := ofRunes_toRunes hvalid
  generalize toRunes special = r at hspecial ⊢
  subst hspecial
  clear hvalid
  induction r with
  | nil => simp
  | cons c r ih =>
    obtain ⟨hle, hlt⟩ := ih
    have hcons : ofRunes (c :: r) = String.utf8EncodeChar c ++ ofRunes r := rfl
    have hhead : (([c].filterMap byteOf)).length ≤ 1 := (List.length_filterMap_le _ _)
    have htail : ((c :: r).filterMap byteOf).length = ([c].filterMap byteOf).length + (r.filterMap byteOf).length := by
      rw [← List.length_append, ← List.filterMap_append]
      rfl
    rw [hcons, htail, List.length_append]
    by_cases hc : c.toNat < 128
    · rw [utf8EncodeChar_ascii hc]
      refine ⟨by rw [List.length_singleton]; omega, ?_⟩
      rintro ⟨b, hb, hhigh⟩
      obtain hb | hb := List.mem_append.mp hb
      · rw [List.mem_singleton.mp hb, UInt8.toNat_ofNat'] at hhigh
        omega
      · have := hlt ⟨b, hb, hhigh⟩
        rw [List.length_singleton]
        omega
    · have hlen := (utf8EncodeChar_high (c := c) (by omega)).1
      exact ⟨by omega, fun _ => by omega⟩

/-- A special token that is not valid leaves a byte that is in no valid text. -/
theorem readBack_invalid {special : Bytes} (h : validString special = false) :
    0xfd ∈ (toRunes special).filterMap byteOf := by
  rw [List.mem_filterMap]
  exact ⟨'\uFFFD', runeError_mem h, by decide⟩

/-! ## The round trip -/

theorem length_flatMap_lt {α β : Type} {f g : α → List β} {xs : List α} (hle : ∀ x ∈ xs, (f x).length ≤ (g x).length)
    (hlt : ∃ x ∈ xs, (f x).length < (g x).length) : (xs.flatMap f).length < (xs.flatMap g).length := by
  have hboth : ∀ xs : List α, (∀ x ∈ xs, (f x).length ≤ (g x).length) → (xs.flatMap f).length ≤ (xs.flatMap g).length := by
    intro xs
    induction xs with
    | nil => exact fun _ => Nat.le_refl _
    | cons x xs ih =>
      intro h
      have := h x (List.mem_cons_self ..)
      have := ih fun y hy => h y (List.mem_cons_of_mem _ hy)
      rw [List.flatMap_cons, List.flatMap_cons, List.length_append, List.length_append]
      omega
  obtain ⟨x, hx, hless⟩ := hlt
  obtain ⟨before, after, rfl⟩ := List.append_of_mem hx
  have hbefore := hboth before fun y hy => hle y (by simp [hy])
  have hafter := hboth after fun y hy => hle y (by simp [hy])
  simp only [List.flatMap_append, List.flatMap_cons, List.length_append]
  omega

namespace BytePairEncoding

variable {S : Type} (bpe : BytePairEncoding S) (heap : Heap Pair lessPair)

/-- What a fragment is read back as. -/
def readBack (frag : Fragment) : Bytes :=
  if frag.ids = [] then (bpe.split frag.value).flatten.filter (· ≠ 0) else (toRunes frag.value).filterMap byteOf

theorem decode_fragments (hsymbols : ∀ b, ofRunes [symbol b] ∈ bpe.vocab.values) {frags : List Fragment}
    (h : ∀ frag ∈ frags, frag.Sound bpe.vocab) :
    bpe.decode (frags.flatMap (bpe.encodeFragment heap)) = some (frags.flatMap bpe.readBack) := by
  refine decode_flatMap bpe fun frag hfrag => ?_
  unfold encodeFragment readBack
  obtain hids | ⟨hids, hvalue⟩ := h frag hfrag
  · rw [if_neg (by simp [hids]), if_pos hids]
    exact decode_text bpe heap hsymbols frag.value
  · rw [if_pos (by simp [hids]), if_neg (by simp [hids]), hids]
    exact decode_id bpe hvalue

/-- The stretches of text are read back as they were. -/
theorem readBack_text {s : Bytes} (htile : ∀ re ∈ bpe.regexps, ∀ t, t <:+: s → Tiles re (toRunes t)) (hnul : 0 ∉ s)
    {frags : List Fragment} (hvalues : frags.flatMap (·.value) = s) (hvalid : ∀ frag ∈ frags, validString frag.value = true) :
    ∀ frag ∈ frags, frag.ids = [] → bpe.readBack frag = frag.value := by
  intro frag hfrag hids
  have hin : frag.value <:+: s := by
    rw [← hvalues, List.flatMap_def]
    exact List.infix_of_mem_flatten (List.mem_map_of_mem hfrag)
  rw [readBack, if_pos hids, bpe.split_flatten (fun re hre t ht => htile re hre t (ht.trans hin)) (hvalid frag hfrag)]
  refine List.filter_eq_self.mpr fun b hb => decide_eq_true ?_
  rintro rfl
  exact hnul (hin.subset hb)

theorem encode_eq_some {n : Nat} {s : Bytes} {ids : List Int} : bpe.encode heap n s false = some ids ↔
    ∃ frags, fragments bpe.vocab n s = some frags ∧ ids = frags.flatMap (bpe.encodeFragment heap) := by
  unfold encode
  rw [Option.bind_eq_bind, Option.bind_eq_some_iff]
  simp [eq_comm]

/-- A text is read back as it was exactly if the loop over the special tokens ends and each one that is cut out of the
text is ASCII. -/
theorem decode_encode_iff {s : Bytes} (hsymbols : ∀ b, ofRunes [symbol b] ∈ bpe.vocab.values)
    (htile : ∀ re ∈ bpe.regexps, ∀ t, t <:+: s → Tiles re (toRunes t)) (hs : validString s = true) (hnul : 0 ∉ s) :
    (∃ n ids, bpe.encode heap n s false = some ids ∧ bpe.decode ids = some s) ↔
      Stretches (fun _ => True) (fun special => ∀ b ∈ special, b.toNat < 128) bpe.vocab.specialVocabulary s := by
  have hsound := @sound_cutAll _ bpe.vocab _ (fun _ => Vocabulary.mem_values_of_special) { value := s } (.inl rfl)
  rw [stretches_iff (v := bpe.vocab) trivial (by simp)]
  constructor
  · rintro ⟨n, ids, hencode, hdecode⟩
    obtain ⟨frags, hfrags, rfl⟩ := (bpe.encode_eq_some heap).mp hencode
    obtain ⟨hends, rfl⟩ := (fragments_iff bpe.vocab).mp ⟨n, hfrags⟩
    refine ⟨hends, ?_⟩
    rw [decode_fragments bpe heap hsymbols hsound] at hdecode
    have hout := Option.some.inj hdecode
    have hspecial : ∀ frag ∈ cutAll bpe.vocab bpe.vocab.specialVocabulary { value := s }, frag.ids ≠ [] →
        validString frag.value = true := by
      intro frag hfrag hids
      by_contra hinvalid
      have hmem : 0xfd ∈ bpe.readBack frag := by
        rw [readBack, if_neg hids]
        exact readBack_invalid (Bool.eq_false_iff.mpr hinvalid)
      have hlt := lt_of_valid hs (hout ▸ List.mem_flatMap.mpr ⟨frag, hfrag, hmem⟩)
      exact absurd hlt (by decide)
    have hvalid := valid_cutAll hends hs hspecial
    have htext := bpe.readBack_text htile hnul (values_cutAll hends) hvalid
    intro frag hfrag
    unfold Fragment.Meets
    split_ifs with hids
    · trivial
    · by_contra hascii
      push Not at hascii
      have hle : ∀ f ∈ cutAll bpe.vocab bpe.vocab.specialVocabulary { value := s },
          (bpe.readBack f).length ≤ f.value.length := by
        intro f hf
        by_cases hf' : f.ids = []
        · rw [htext f hf hf']
        · rw [readBack, if_neg hf']
          exact (length_readBack (hvalid f hf)).1
      have hlt : (bpe.readBack frag).length < frag.value.length := by
        rw [readBack, if_neg hids]
        exact (length_readBack (hvalid frag hfrag)).2 hascii
      have hless := length_flatMap_lt hle ⟨frag, hfrag, hlt⟩
      rw [hout, values_cutAll hends] at hless
      exact Nat.lt_irrefl _ hless
  · rintro ⟨hends, hascii⟩
    obtain ⟨n, hn⟩ := (fragments_iff bpe.vocab).mpr ⟨hends, rfl⟩
    refine ⟨n, _, (bpe.encode_eq_some heap).mpr ⟨_, hn, rfl⟩, ?_⟩
    rw [decode_fragments bpe heap hsymbols hsound]
    have hspecial : ∀ frag ∈ cutAll bpe.vocab bpe.vocab.specialVocabulary { value := s }, frag.ids ≠ [] →
        ∀ b ∈ frag.value, b.toNat < 128 := by
      intro frag hfrag hids
      have hmeets := hascii frag hfrag
      rwa [Fragment.Meets, if_neg hids] at hmeets
    have hvalid := valid_cutAll hends hs fun frag hfrag hids => validString_ascii (hspecial frag hfrag hids)
    have heach : (cutAll bpe.vocab bpe.vocab.specialVocabulary { value := s }).map bpe.readBack =
        (cutAll bpe.vocab bpe.vocab.specialVocabulary { value := s }).map (·.value) := by
      refine List.map_congr_left fun frag hfrag => ?_
      by_cases hids : frag.ids = []
      · exact bpe.readBack_text htile hnul (values_cutAll hends) hvalid frag hfrag hids
      · rw [readBack, if_neg hids]
        exact readBack_ascii (hspecial frag hfrag hids)
    rw [List.flatMap_def, heach, ← List.flatMap_def, values_cutAll hends]

/-- The pattern `[\s\S]+`. -/
def everything : Regexp := fun r => if r = [] then [] else [⟨0, r.length⟩]

theorem tiles_everything (r : List Char) : Tiles everything r := by
  unfold Tiles everything
  split
  · trivial
  · exact ⟨rfl, by simp, trivial⟩

/-- The bytes, and one special token. -/
def byteLevel (special : Bytes) : BytePairEncoding Unit where
  vocab := {
    values := (List.range 256).map (fun n => ofRunes [symbol (UInt8.ofNat n)]) ++ [special]
    types := List.replicate 256 tokenTypeNormal ++ [tokenTypeControl]
    types_length := by
      rw [List.length_append, List.length_append, List.length_replicate, List.length_map, List.length_range]
      rfl
    values_lt := by
      rw [List.length_append, List.length_map, List.length_range, List.length_singleton]
      decide }
  regexps := [everything]

theorem byteLevel_symbols (special : Bytes) (b : UInt8) : ofRunes [symbol b] ∈ (byteLevel special).vocab.values := by
  refine List.mem_append_left _ (List.mem_map.mpr ⟨b.toNat, List.mem_range.mpr b.toNat_lt, ?_⟩)
  rw [UInt8.ofNat_toNat]

theorem byteLevel_tiles (special s : Bytes) : ∀ re ∈ (byteLevel special).regexps, ∀ t, t <:+: s → Tiles re (toRunes t) := by
  intro re hre t _
  rw [List.mem_singleton.mp hre]
  exact tiles_everything _

/-- A text with a special token in ASCII. -/
theorem startToken_readBack : (∃ n ids, (byteLevel (ascii "<s>")).encode (listHeap _) n (ascii "<s>Hi") false = some ids ∧
      (byteLevel (ascii "<s>")).decode ids = some (ascii "<s>Hi")) ↔
    Stretches (fun _ => True) (fun special => ∀ b ∈ special, b.toNat < 128) (byteLevel (ascii "<s>")).vocab.specialVocabulary
      (ascii "<s>Hi") :=
  decode_encode_iff _ _ (byteLevel_symbols _) (byteLevel_tiles _ _) (by decide) (by decide)

/-- A special token with a bar of full width, which takes three bytes: one byte of it is read back. -/
theorem wideToken_changes : (∀ b, ofRunes [symbol b] ∈ (byteLevel (ofRunes ['<', '｜', '>'])).vocab.values) ∧
    (∀ re ∈ (byteLevel (ofRunes ['<', '｜', '>'])).regexps, ∀ t, t <:+: ofRunes ['<', '｜', '>'] → Tiles re (toRunes t)) ∧
    validString (ofRunes ['<', '｜', '>']) = true ∧ 0 ∉ ofRunes ['<', '｜', '>'] ∧
    (byteLevel (ofRunes ['<', '｜', '>'])).encode (listHeap _) 1 (ofRunes ['<', '｜', '>']) false = some [256] ∧
    (byteLevel (ofRunes ['<', '｜', '>'])).decode [256] = some (ascii "<\\>") ∧
    ascii "<\\>" ≠ ofRunes ['<', '｜', '>'] :=
  ⟨byteLevel_symbols _, byteLevel_tiles _ _, validString_ofRunes _, by decide, by decide +kernel, by decide +kernel, by decide⟩

end BytePairEncoding

end Xdragon.Tokenizer
