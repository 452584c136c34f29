import Xdragon.Lib.FullRune

/-!
# The text of the tokens

`x/mlxrunner/utf8_buffer.go`. The text of a token can end in the middle of a rune. The bytes of that rune wait in the buffer.
-/

namespace Xdragon.Mlx

open Xdragon.Lib

/-- `utf8.DecodeRune`. -/
def decodeRuneSize (p : Bytes) : Char × Nat :=
  match decodeRune p with
  | some c => (c, c.utf8Size)
  | none => ('\uFFFD', if p = [] then 0 else 1)

theorem decodeRuneSize_pos {data : Bytes} {i : Nat} (hi : i < data.length) : 0 < (decodeRuneSize (data.drop i)).2 := by
  have hp : data.drop i ≠ [] := by simp; omega
  unfold decodeRuneSize
  cases decodeRune (data.drop i) with
  | some c => exact c.utf8Size_pos
  | none => simp [hp]

/-- The loop of `validUTF8PrefixLen`, with `pre` for its variable `prefix`. -/
def prefixLenFrom (data : Bytes) (i pre : Nat) : Nat :=
  if _h : i < data.length then
    let rune := decodeRuneSize (data.drop i)
    if rune.1 = '\uFFFD' ∧ rune.2 = 1 then
      -- a byte that starts no rune is let through
      if fullRune (data.drop i) then prefixLenFrom data (i + 1) (i + 1) else pre
    else
      prefixLenFrom data (i + rune.2) (i + rune.2)
  else pre
termination_by data.length - i
decreasing_by
  · omega
  · have := decodeRuneSize_pos _h
    omega

def validUTF8PrefixLen (data : Bytes) : Nat := prefixLenFrom data 0 0

/-- The text, and what stays in the buffer. -/
def flushValidUTF8Prefix (b : Bytes) : Bytes × Bytes :=
  if b.length = 0 then ([], b)
  else
    let n := validUTF8PrefixLen b
    if n = 0 then ([], b) else (b.take n, b.drop n)

/-- `Decode`, of the text of a token and the buffer. Nothing makes the write fail. -/
def decode (token b : Bytes) : Bytes × Bytes := flushValidUTF8Prefix (b ++ token)

/-- The texts of the tokens, and what stays in the buffer. -/
def decodeAll : Bytes → List Bytes → List Bytes × Bytes
  | b, [] => ([], b)
  | b, token :: tokens =>
    let (text, b) := decode token b
    let (texts, b) := decodeAll b tokens
    (text :: texts, b)

/-! ## What is let through -/

theorem prefixLenFrom_add (data : Bytes) (i j pre : Nat) : prefixLenFrom data (i + j) (i + pre) = i + prefixLenFrom (data.drop i) j pre := by
  induction hn : data.length - (i + j) using Nat.strongRecOn generalizing j pre with
  | _ n ih =>
    conv_lhs => rw [prefixLenFrom]
    conv_rhs => rw [prefixLenFrom]
    rw [List.drop_drop]
    by_cases hlt : i + j < data.length
    · have hlt' : j < (data.drop i).length := by rw [List.length_drop]; omega
      rw [dif_pos hlt, dif_pos hlt']
      dsimp only
      split_ifs with hbad hfull
      · rw [Nat.add_assoc i j 1]
        exact ih _ (by omega) (j + 1) (j + 1) rfl
      · rfl
      · have hpos := decodeRuneSize_pos hlt
        rw [Nat.add_assoc i j]
        exact ih _ (by omega) _ _ rfl
    · have hlt' : ¬ j < (data.drop i).length := by rw [List.length_drop]; omega
      rw [dif_neg hlt, dif_neg hlt']

@[simp] theorem validUTF8PrefixLen_nil : validUTF8PrefixLen [] = 0 := by
  rw [validUTF8PrefixLen, prefixLenFrom, dif_neg (by simp)]

theorem prefixLenFrom_same (data : Bytes) (i : Nat) : prefixLenFrom data i i = i + validUTF8PrefixLen (data.drop i) :=
  prefixLenFrom_add data i 0 0

/-- A rune is let through whole. -/
theorem validUTF8PrefixLen_encode (c : Char) (b : Bytes) :
    validUTF8PrefixLen (String.utf8EncodeChar c ++ b) = c.utf8Size + validUTF8PrefixLen b := by
  have hpos := c.utf8Size_pos
  have hsize : decodeRuneSize (String.utf8EncodeChar c ++ b) = (c, c.utf8Size) := by rw [decodeRuneSize, decodeRune_encode]
  have hgood : ¬ (c = '\uFFFD' ∧ c.utf8Size = 1) := by
    rintro ⟨rfl, h⟩
    exact absurd h (by decide)
  have hdrop : (String.utf8EncodeChar c ++ b).drop c.utf8Size = b := by
    rw [← String.length_utf8EncodeChar, List.drop_left]
  rw [validUTF8PrefixLen, prefixLenFrom, dif_pos (by rw [List.length_append, String.length_utf8EncodeChar]; omega), List.drop_zero, hsize]
  dsimp only
  rw [if_neg hgood, Nat.zero_add, prefixLenFrom_same, hdrop]

theorem validUTF8PrefixLen_invalid {x : UInt8} {b : Bytes} (h : decodeRune (x :: b) = none) :
    validUTF8PrefixLen (x :: b) = if fullRune (x :: b) then 1 + validUTF8PrefixLen b else 0 := by
  have hsize : decodeRuneSize (x :: b) = ('\uFFFD', 1) := by
    rw [decodeRuneSize, h]
    rfl
  rw [validUTF8PrefixLen, prefixLenFrom, dif_pos (by simp), List.drop_zero, hsize]
  dsimp only
  rw [if_pos ⟨rfl, rfl⟩, Nat.zero_add, prefixLenFrom_same]
  rfl

/-- A text is let through rune by rune, until an incomplete rune is left. -/
theorem prefix_induction {motive : Bytes → Prop} (encode : ∀ c b, motive b → motive (String.utf8EncodeChar c ++ b))
    (invalid : ∀ x b, decodeRune (x :: b) = none → fullRune (x :: b) = true → motive b → motive (x :: b))
    (incomplete : ∀ b, Incomplete b → validUTF8PrefixLen b = 0 → motive b) (b : Bytes) : motive b := by
  induction hn : b.length using Nat.strongRecOn generalizing b with
  | _ n ih =>
    obtain rfl | ⟨c, rest, rfl, -⟩ | ⟨x, rest, rfl, hnone, -⟩ := runes_cases b
    · exact incomplete [] (fullRune_iff.mp rfl) validUTF8PrefixLen_nil
    · have hpos := c.utf8Size_pos
      rw [List.length_append, String.length_utf8EncodeChar] at hn
      exact encode c rest (ih rest.length (by omega) rest rfl)
    · rw [List.length_cons] at hn
      cases hfull : fullRune (x :: rest) with
      | true => exact invalid x rest hnone hfull (ih rest.length (by omega) rest rfl)
      | false => exact incomplete _ (fullRune_iff.mp hfull) (by rw [validUTF8PrefixLen_invalid hnone, hfull]; rfl)

/-- More bytes do not make a rune of what is let through as none. -/
theorem invalid_append {a : Bytes} (hnone : decodeRune a = none) (hfull : fullRune a = true) (b : Bytes) :
    decodeRune (a ++ b) = none ∧ fullRune (a ++ b) = true := by
  have hcomplete : ∀ {c}, a <+: String.utf8EncodeChar c → (String.utf8EncodeChar c).length ≤ a.length := by
    intro c hpre
    by_contra hlt
    have := fullRune_iff.mpr ⟨c, hpre, Nat.lt_of_not_le hlt⟩
    rw [hfull] at this
    cases this
  constructor
  · rw [Option.eq_none_iff_forall_ne_some]
    intro c hc
    obtain ⟨rest, hrest⟩ := decodeRune_eq_some.mp hc
    have hpre : String.utf8EncodeChar c <+: a := by
      rcases List.prefix_or_prefix_of_prefix ⟨b, rfl⟩ ⟨rest, hrest.symm⟩ with hpre | hpre
      · rw [hpre.eq_of_length_le (hcomplete hpre)]
      · exact hpre
    obtain ⟨rest', hrest'⟩ := hpre
    rw [decodeRune_eq_some.mpr ⟨rest', hrest'.symm⟩] at hnone
    cases hnone
  · rw [← Bool.not_eq_false, fullRune_iff]
    rintro ⟨c, hpre, hlt⟩
    have := hcomplete ((List.prefix_append a b).trans hpre)
    rw [List.length_append] at hlt
    omega

/-- How much of a text is let through does not depend on where it is cut. -/
theorem validUTF8PrefixLen_append (a b : Bytes) :
    validUTF8PrefixLen (a ++ b) = validUTF8PrefixLen a + validUTF8PrefixLen (a.drop (validUTF8PrefixLen a) ++ b) := by
  induction a using prefix_induction with
  | encode c a ih =>
    rw [List.append_assoc, validUTF8PrefixLen_encode, validUTF8PrefixLen_encode, ih, ← String.length_utf8EncodeChar,
      List.drop_length_add_append, Nat.add_assoc]
  | invalid x a hnone hfull ih =>
    obtain ⟨hnone', hfull'⟩ := invalid_append hnone hfull b
    rw [List.cons_append] at hnone' hfull' ⊢
    rw [validUTF8PrefixLen_invalid hnone, validUTF8PrefixLen_invalid hnone', if_pos hfull, if_pos hfull', ih, Nat.add_comm 1 (validUTF8PrefixLen a),
      List.drop_succ_cons]
    omega
  | incomplete a hincomplete hzero => rw [hzero, Nat.zero_add, List.drop_zero]

theorem validUTF8PrefixLen_le (b : Bytes) : validUTF8PrefixLen b ≤ b.length := by
  induction b using prefix_induction with
  | encode c b ih =>
    rw [validUTF8PrefixLen_encode, List.length_append, String.length_utf8EncodeChar]
    omega
  | invalid x b hnone hfull ih =>
    rw [validUTF8PrefixLen_invalid hnone, if_pos hfull, List.length_cons]
    omega
  | incomplete b hincomplete hzero =>
    rw [hzero]
    exact Nat.zero_le _

/-- What is not let through is an incomplete rune. -/
theorem incomplete_rest (b : Bytes) : Incomplete (b.drop (validUTF8PrefixLen b)) := by
  induction b using prefix_induction with
  | encode c b ih =>
    rw [validUTF8PrefixLen_encode, ← String.length_utf8EncodeChar, List.drop_length_add_append]
    exact ih
  | invalid x b hnone hfull ih =>
    rw [validUTF8PrefixLen_invalid hnone, if_pos hfull, Nat.add_comm, List.drop_succ_cons]
    exact ih
  | incomplete b hincomplete hzero =>
    rw [hzero, List.drop_zero]
    exact hincomplete

/-- Of the start of a valid text whole runes are let through. -/
theorem validString_prefix {b s : Bytes} (h : validString (b ++ s) = true) :
    validString (b.take (validUTF8PrefixLen b)) = true ∧ validString (b.drop (validUTF8PrefixLen b) ++ s) = true := by
  induction b using prefix_induction with
  | encode c b ih =>
    have hc : validString (String.utf8EncodeChar c) = true := validString_iff.mpr ⟨[c], List.flatMap_singleton ..⟩
    rw [List.append_assoc] at h
    obtain ⟨htake, hdrop⟩ := ih (validString_right hc h)
    rw [validUTF8PrefixLen_encode, ← String.length_utf8EncodeChar, List.drop_length_add_append, List.take_length_add_append]
    exact ⟨validString_append hc htake, hdrop⟩
  | invalid x b hnone hfull ih =>
    obtain ⟨hnone', -⟩ := invalid_append hnone hfull s
    obtain ⟨r, hr⟩ := validString_iff.mp h
    cases r with
    | nil => cases hr
    | cons c r =>
      rw [List.flatMap_cons] at hr
      rw [decodeRune_eq_some.mpr ⟨_, hr.symm⟩] at hnone'
      cases hnone'
  | incomplete b hincomplete hzero =>
    rw [hzero]
    exact ⟨validString_nil, h⟩

/-! ## A stream of tokens -/

theorem flushValidUTF8Prefix_eq (b : Bytes) :
    flushValidUTF8Prefix b = (b.take (validUTF8PrefixLen b), b.drop (validUTF8PrefixLen b)) := by
  unfold flushValidUTF8Prefix
  dsimp only
  split_ifs with hnil hzero
  · rw [List.length_eq_zero_iff.mp hnil, List.take_nil, List.drop_nil]
  · rw [hzero]
    rfl
  · rfl

/-- The texts of the tokens are what is let through of the whole stream. -/
theorem decodeAll_eq (tokens : List Bytes) {b : Bytes} (hb : validUTF8PrefixLen b = 0) :
    (decodeAll b tokens).1.flatten = (b ++ tokens.flatten).take (validUTF8PrefixLen (b ++ tokens.flatten)) ∧
      (decodeAll b tokens).2 = (b ++ tokens.flatten).drop (validUTF8PrefixLen (b ++ tokens.flatten)) := by
  induction tokens generalizing b with
  | nil => simp [decodeAll, hb]
  | cons token tokens ih =>
    have hcut := validUTF8PrefixLen_append (b ++ token) tokens.flatten
    have hle := validUTF8PrefixLen_le (b ++ token)
    have hrest : validUTF8PrefixLen ((b ++ token).drop (validUTF8PrefixLen (b ++ token))) = 0 := by
      have := validUTF8PrefixLen_append (b ++ token) []
      rw [List.append_nil, List.append_nil] at this
      omega
    obtain ⟨htexts, hleft⟩ := ih hrest
    rw [decodeAll, decode, flushValidUTF8Prefix_eq]
    dsimp only
    rw [List.flatten_cons, List.flatten_cons, ← List.append_assoc, htexts, hleft, hcut]
    generalize b ++ token = a at hle
    generalize validUTF8PrefixLen a = n at hle
    have hsplit : a ++ tokens.flatten = a.take n ++ (a.drop n ++ tokens.flatten) := by
      rw [← List.append_assoc, List.take_append_drop]
    have hlen : (a.take n).length = n := List.length_take_of_le hle
    have htake := @List.take_length_add_append _ (a.take n) (a.drop n ++ tokens.flatten)
    have hdrop := @List.drop_length_add_append _ (a.take n) (a.drop n ++ tokens.flatten)
    rw [← hsplit, hlen] at htake hdrop
    exact ⟨(htake _).symm, (hdrop _).symm⟩

theorem decodeAll_valid {tokens : List Bytes} {b : Bytes} (h : validString (b ++ tokens.flatten) = true) :
    ∀ text ∈ (decodeAll b tokens).1, validString text = true := by
  induction tokens generalizing b with
  | nil => exact List.forall_mem_nil _
  | cons token tokens ih =>
    rw [List.flatten_cons, ← List.append_assoc] at h
    obtain ⟨htext, hrest⟩ := validString_prefix h
    rw [decodeAll, decode, flushValidUTF8Prefix_eq]
    exact List.forall_mem_cons.mpr ⟨htext, ih hrest⟩

/-- The texts are the stream, up to an incomplete rune. They depend on nothing but the stream, and are valid where it is. -/
theorem decodeAll_stream (tokens : List Bytes) :
    (decodeAll [] tokens).1.flatten ++ (decodeAll [] tokens).2 = tokens.flatten ∧
      (decodeAll [] tokens).2.length ≤ 3 ∧ Incomplete (decodeAll [] tokens).2 ∧
      (∀ tokens', tokens'.flatten = tokens.flatten → (decodeAll [] tokens').1.flatten = (decodeAll [] tokens).1.flatten) ∧
      (validString tokens.flatten = true → ∀ text ∈ (decodeAll [] tokens).1, validString text = true) := by
  obtain ⟨htexts, hleft⟩ := decodeAll_eq tokens validUTF8PrefixLen_nil
  rw [List.nil_append] at htexts hleft
  have hincomplete : Incomplete (decodeAll [] tokens).2 := by
    rw [hleft]
    exact incomplete_rest _
  refine ⟨?_, hincomplete.length_le, hincomplete, ?_, ?_⟩
  · rw [htexts, hleft, List.take_append_drop]
  · intro tokens' hsame
    rw [htexts, (decodeAll_eq tokens' validUTF8PrefixLen_nil).1, hsame, List.nil_append]
  · exact fun h => decodeAll_valid (by rwa [List.nil_append])

end Xdragon.Mlx
