import Xdragon.Lib.Runes
import Xdragon.Parsers.Ministral

/-!
# The end of a JSON text

What `findJSONEnd` of `model/parsers/ministral.go` finds in the texts of the JSON grammar.
-/

namespace Xdragon.Lib.Json

/-! ## The grammar -/

/-- White space between two tokens. -/
def Blank (s : List Char) : Prop := ∀ c ∈ s, c = ' ' ∨ c = '\t' ∨ c = '\n' ∨ c = '\r'

def Digits (s : List Char) : Prop := s ≠ [] ∧ ∀ c ∈ s, '0' ≤ c ∧ c ≤ '9'

inductive IsNumber : List Char → Prop
  | mk {minus int frac exp : List Char} (hminus : minus = [] ∨ minus = ['-'])
      (hint : int = ['0'] ∨ Digits int ∧ int.head? ≠ some '0')
      (hfrac : frac = [] ∨ ∃ ds, Digits ds ∧ frac = '.' :: ds)
      (hexp : exp = [] ∨ ∃ e sign ds, (e = 'e' ∨ e = 'E') ∧ (sign = [] ∨ sign = ['+'] ∨ sign = ['-']) ∧ Digits ds ∧
        exp = e :: (sign ++ ds)) : IsNumber (minus ++ (int ++ (frac ++ exp)))

def IsHex (c : Char) : Prop := '0' ≤ c ∧ c ≤ '9' ∨ 'a' ≤ c ∧ c ≤ 'f' ∨ 'A' ≤ c ∧ c ≤ 'F'

/-- What stands between the quotes of a string. -/
inductive IsStringBody : List Char → Prop
  | nil : IsStringBody []
  | char {c : Char} {s : List Char} (hc : 0x20 ≤ c.toNat) (hquote : c ≠ '"') (hback : c ≠ '\\') (h : IsStringBody s) :
      IsStringBody (c :: s)
  | escape {c : Char} {s : List Char} (hc : c ∈ ['"', '\\', '/', 'b', 'f', 'n', 'r', 't']) (h : IsStringBody s) :
      IsStringBody ('\\' :: c :: s)
  | unicode {hex s : List Char} (hlen : hex.length = 4) (hhex : ∀ c ∈ hex, IsHex c) (h : IsStringBody s) :
      IsStringBody ('\\' :: 'u' :: (hex ++ s))

inductive Symbol
  | value
  | container
  | element
  | elements
  | member
  | members

/-- The texts that a symbol of the grammar stands for. -/
inductive Derives : Symbol → List Char → Prop
  | literal {s} (h : s ∈ ["null".toList, "true".toList, "false".toList]) : Derives .value s
  | number {s} (h : IsNumber s) : Derives .value s
  | string {s} (h : IsStringBody s) : Derives .value ('"' :: (s ++ ['"']))
  | nested {s} (h : Derives .container s) : Derives .value s
  | emptyArray {s} (h : Blank s) : Derives .container ('[' :: (s ++ [']']))
  | array {s} (h : Derives .elements s) : Derives .container ('[' :: (s ++ [']']))
  | emptyObject {s} (h : Blank s) : Derives .container ('\x7b' :: (s ++ ['\x7d']))
  | object {s} (h : Derives .members s) : Derives .container ('\x7b' :: (s ++ ['\x7d']))
  | element {before s after} (hbefore : Blank before) (h : Derives .value s) (hafter : Blank after) :
      Derives .element (before ++ (s ++ after))
  | one {s} (h : Derives .element s) : Derives .elements s
  | more {s t} (h : Derives .element s) (h' : Derives .elements t) : Derives .elements (s ++ ',' :: t)
  | member {before key after s} (hbefore : Blank before) (hkey : IsStringBody key) (hafter : Blank after)
      (h : Derives .element s) : Derives .member (before ++ ('"' :: (key ++ ['"']) ++ (after ++ ':' :: s)))
  | oneMember {s} (h : Derives .member s) : Derives .members s
  | moreMembers {s t} (h : Derives .member s) (h' : Derives .members t) : Derives .members (s ++ ',' :: t)

/-- The characters that a bracket or a string starts or ends with. -/
def special : List Char := ['"', '[', ']', '\x7b', '\x7d']

def Plain (s : List Char) : Prop := ∀ c ∈ s, c ∉ special

theorem Plain.append {s t : List Char} (hs : Plain s) (ht : Plain t) : Plain (s ++ t) := by
  intro c hc
  exact (List.mem_append.mp hc).elim (hs c) (ht c)

theorem plain_blank {s : List Char} (h : Blank s) : Plain s := by
  intro c hc
  rcases h c hc with rfl | rfl | rfl | rfl <;> decide

theorem plain_digits {s : List Char} (h : Digits s) : Plain s := by
  intro c hc hspecial
  obtain ⟨hlow, hhigh⟩ := h.2 c hc
  simp only [special, List.mem_cons, List.not_mem_nil, or_false] at hspecial
  rcases hspecial with rfl | rfl | rfl | rfl | rfl
  · exact absurd hlow (by decide)
  all_goals exact absurd hhigh (by decide)

theorem plain_number {s : List Char} (h : IsNumber s) : Plain s := by
  obtain ⟨hminus, hint, hfrac, hexp⟩ := h
  refine Plain.append ?_ (Plain.append ?_ (Plain.append ?_ ?_))
  · rcases hminus with rfl | rfl <;> unfold Plain <;> decide
  · rcases hint with rfl | ⟨hint, -⟩
    · unfold Plain
      decide
    · exact plain_digits hint
  · rcases hfrac with rfl | ⟨ds, hds, rfl⟩
    · unfold Plain
      decide
    · exact List.forall_mem_cons.mpr ⟨by decide, plain_digits hds⟩
  · rcases hexp with rfl | ⟨e, sign, ds, he, hsign, hds, rfl⟩
    · unfold Plain
      decide
    · refine List.forall_mem_cons.mpr ⟨?_, Plain.append ?_ (plain_digits hds)⟩
      · rcases he with rfl | rfl <;> decide
      · rcases hsign with rfl | rfl | rfl <;> unfold Plain <;> decide

end Xdragon.Lib.Json

namespace Xdragon.Parsers.Ministral

open Xdragon.Lib Xdragon.Lib.Json

/-! ## Balanced texts -/

/-- Inside of a bracket, the loop is behind the text as it was before it. -/
def Balanced (s : Str) : Prop := ∀ (depth : Int) (t : Str), 0 < depth →
  findJSONEndFrom depth false false (s ++ t) = (findJSONEndFrom depth false false t).map (· + s.length)

theorem Balanced.append {s s' : Str} (h : Balanced s) (h' : Balanced s') : Balanced (s ++ s') := by
  intro depth t hdepth
  rw [List.append_assoc, h depth _ hdepth, h' depth t hdepth, Option.map_map, List.length_append]
  congr 1
  funext n
  simp only [Function.comp_apply]
  omega

theorem balanced_plain {s : Str} (h : Plain s) : Balanced s := by
  intro depth t hdepth
  induction s with
  | nil => simp
  | cons c s ih =>
    obtain ⟨hc, hs⟩ := List.forall_mem_cons.mp h
    simp only [special, List.mem_cons, List.not_mem_nil, or_false, not_or] at hc
    rw [List.cons_append, findJSONEndFrom, if_neg Bool.false_ne_true, if_neg hc.1, if_neg (by simp [hc]),
      if_neg (by simp [hc]), ih hs, Option.map_map]
    rfl

/-- In a string, the loop is behind the body of the string as it was before it. -/
theorem findJSONEndFrom_body {s : Str} (h : IsStringBody s) (depth : Int) (t : Str) :
    findJSONEndFrom depth true false (s ++ t) = (findJSONEndFrom depth true false t).map (· + s.length) := by
  have hchar : ∀ {c : Char} {s : Str}, c ≠ '"' → c ≠ '\\' →
      findJSONEndFrom depth true false (s ++ t) = (findJSONEndFrom depth true false t).map (· + s.length) →
      findJSONEndFrom depth true false (c :: s ++ t) = (findJSONEndFrom depth true false t).map (· + (c :: s).length) := by
    intro c s hquote hback ih
    rw [List.cons_append, findJSONEndFrom, if_pos rfl, if_neg Bool.false_ne_true, if_neg hback, if_neg hquote, ih,
      Option.map_map]
    rfl
  have hescaped : ∀ (c : Char) {s : Str},
      findJSONEndFrom depth true false (s ++ t) = (findJSONEndFrom depth true false t).map (· + s.length) →
      findJSONEndFrom depth true false ('\\' :: c :: s ++ t) =
        (findJSONEndFrom depth true false t).map (· + ('\\' :: c :: s).length) := by
    intro c s ih
    rw [List.cons_append, findJSONEndFrom, if_pos rfl, if_neg Bool.false_ne_true, if_pos rfl, List.cons_append,
      findJSONEndFrom, if_pos rfl, if_pos rfl, ih, Option.map_map, Option.map_map]
    rfl
  induction h with
  | nil => simp
  | char _ hquote hback _ ih => exact hchar hquote hback ih
  | escape _ _ ih => exact hescaped _ ih
  | @unicode hex s _ hhex _ ih =>
    refine hescaped 'u' ?_
    clear * - hchar hhex ih
    induction hex with
    | nil => exact ih
    | cons c hex ihex =>
      obtain ⟨hc, hhex⟩ := List.forall_mem_cons.mp hhex
      refine hchar ?_ ?_ (ihex hhex)
      · rintro rfl
        exact absurd hc (by unfold IsHex; decide)
      · rintro rfl
        exact absurd hc (by unfold IsHex; decide)

theorem balanced_string {s : Str} (h : IsStringBody s) : Balanced ('"' :: (s ++ ['"'])) := by
  intro depth t _
  rw [List.cons_append, findJSONEndFrom, if_neg Bool.false_ne_true, if_pos rfl, List.append_assoc,
    findJSONEndFrom_body h, List.singleton_append, findJSONEndFrom, if_pos rfl, if_neg Bool.false_ne_true,
    if_neg (by decide), if_pos rfl, Option.map_map, Option.map_map]
  congr 1
  funext n
  simp only [Function.comp_apply, List.length_cons, List.length_append, List.length_nil]
  omega

/-- A bracket of either kind. -/
def opening (c : Char) : Prop := c = '\x7b' ∨ c = '['
def closing (c : Char) : Prop := c = '\x7d' ∨ c = ']'

theorem findJSONEndFrom_opening {c : Char} (h : opening c) (depth : Int) (t : Str) :
    findJSONEndFrom depth false false (c :: t) = (findJSONEndFrom (depth + 1) false false t).map (· + 1) := by
  have hquote : c ≠ '"' := by rcases h with rfl | rfl <;> decide
  rw [findJSONEndFrom, if_neg Bool.false_ne_true, if_neg hquote]
  exact if_pos h

theorem findJSONEndFrom_closing {c : Char} (h : closing c) (depth : Int) (t : Str) :
    findJSONEndFrom depth false false (c :: t) =
      if depth - 1 = 0 then some 0 else (findJSONEndFrom (depth - 1) false false t).map (· + 1) := by
  have hquote : c ≠ '"' := by rcases h with rfl | rfl <;> decide
  have hopening : ¬ (c = '\x7b' ∨ c = '[') := by rcases h with rfl | rfl <;> decide
  rw [findJSONEndFrom, if_neg Bool.false_ne_true, if_neg hquote, if_neg hopening]
  exact if_pos h

theorem Balanced.bracket {s : Str} {o c : Char} (h : Balanced s) (ho : opening o) (hc : closing c) :
    Balanced (o :: (s ++ [c])) := by
  intro depth t hdepth
  rw [List.cons_append, findJSONEndFrom_opening ho, List.append_assoc, h (depth + 1) _ (by omega), List.singleton_append,
    findJSONEndFrom_closing hc, if_neg (by omega), Int.add_sub_cancel, Option.map_map, Option.map_map]
  congr 1
  funext n
  simp only [Function.comp_apply, List.length_cons, List.length_append, List.length_nil]
  omega

theorem balanced_of_derives {symbol : Symbol} {s : Str} (h : Derives symbol s) : Balanced s := by
  induction h with
  | literal h =>
    simp only [List.mem_cons, List.not_mem_nil, or_false] at h
    rcases h with rfl | rfl | rfl <;> exact balanced_plain (by unfold Plain; decide)
  | number h => exact balanced_plain (plain_number h)
  | string h => exact balanced_string h
  | nested _ ih => exact ih
  | emptyArray h => exact (balanced_plain (plain_blank h)).bracket (.inr rfl) (.inr rfl)
  | array _ ih => exact ih.bracket (.inr rfl) (.inr rfl)
  | emptyObject h => exact (balanced_plain (plain_blank h)).bracket (.inl rfl) (.inl rfl)
  | object _ ih => exact ih.bracket (.inl rfl) (.inl rfl)
  | element hbefore _ hafter ih =>
    exact (balanced_plain (plain_blank hbefore)).append (ih.append (balanced_plain (plain_blank hafter)))
  | one _ ih => exact ih
  | more _ _ ih ih' => exact ih.append ((balanced_plain (s := [',']) (by unfold Plain; decide)).append ih')
  | member hbefore hkey hafter _ ih =>
    refine (balanced_plain (plain_blank hbefore)).append ((balanced_string hkey).append ?_)
    exact (balanced_plain (plain_blank hafter)).append ((balanced_plain (s := [':']) (by unfold Plain; decide)).append ih)
  | oneMember _ ih => exact ih
  | moreMembers _ _ ih ih' => exact ih.append ((balanced_plain (s := [',']) (by unfold Plain; decide)).append ih')

/-- An array or an object is a balanced text between two brackets. -/
theorem container_cases {j : Str} (h : Derives .container j) :
    ∃ o s c, j = o :: (s ++ [c]) ∧ opening o ∧ Balanced s ∧ closing c := by
  cases h with
  | emptyArray h => exact ⟨_, _, _, rfl, .inr rfl, balanced_plain (plain_blank h), .inr rfl⟩
  | array h => exact ⟨_, _, _, rfl, .inr rfl, balanced_of_derives h, .inr rfl⟩
  | emptyObject h => exact ⟨_, _, _, rfl, .inl rfl, balanced_plain (plain_blank h), .inl rfl⟩
  | object h => exact ⟨_, _, _, rfl, .inl rfl, balanced_of_derives h, .inl rfl⟩

theorem findJSONEnd_container {j : Str} (h : Derives .container j) (t : Str) : findJSONEnd (j ++ t) = some (j.length - 1) := by
  obtain ⟨o, s, c, rfl, ho, hs, hc⟩ := container_cases h
  rw [findJSONEnd, List.cons_append, findJSONEndFrom_opening ho, List.append_assoc, hs (0 + 1) _ (by decide),
    List.singleton_append, findJSONEndFrom_closing hc, if_pos (by decide)]
  simp

/-- A text of the grammar ends nowhere in what is before its last bracket. -/
theorem findJSONEnd_take {j : Str} (h : Derives .container j) {i : Nat} (hi : i < j.length) : findJSONEnd (j.take i) = none := by
  rw [Option.eq_none_iff_forall_ne_some]
  intro n hn
  obtain ⟨a, x, b, hab, rfl, -⟩ := findJSONEndFrom_some hn
  have hall := findJSONEnd_append hn (j.drop i)
  have hlen : (j.take i).length = a.length + (b.length + 1) := by rw [hab, List.length_append, List.length_cons]
  rw [List.take_append_drop, ← j.append_nil, findJSONEnd_container h, Option.some.injEq] at hall
  rw [List.length_take] at hlen
  omega

/-! ## Bytes -/

/-- `findJSONEnd` on a string of Go, whose runes are numbered by their first bytes. -/
def jsonEnd (s : Bytes) : Option Nat :=
  (findJSONEnd (toRunes s)).map fun i => (((runes s).take i).flatMap Rune.bytes).length

theorem toRunes_tail {b : Bytes} (h : ∀ x ∈ b, ¬ x.IsUTF8FirstByte) : toRunes b = List.replicate b.length '\uFFFD' := by
  induction b with
  | nil => rfl
  | cons x b ih =>
    obtain ⟨hx, hb⟩ := List.forall_mem_cons.mp h
    rw [toRunes_invalid (decodeRune_of_not_first hx b), ih hb]
    rfl

/-- A rune that is not complete is read as bytes that are no runes. -/
theorem toRunes_part {c : Char} {p : Bytes} (h : p <+: String.utf8EncodeChar c)
    (hlen : p.length < (String.utf8EncodeChar c).length) : toRunes p = List.replicate p.length '\uFFFD' := by
  obtain ⟨q, hq⟩ := h
  cases p with
  | nil => rfl
  | cons x p =>
    have hnone : decodeRune (x :: p) = none := by
      rw [Option.eq_none_iff_forall_ne_some]
      intro d hd
      obtain ⟨rest, hrest⟩ := decodeRune_eq_some.mp hd
      have hc : decodeRune (String.utf8EncodeChar c ++ []) = some c := decodeRune_encode c []
      rw [List.append_nil, ← hq, hrest, List.append_assoc, decodeRune_encode, Option.some.injEq] at hc
      rw [hrest, hc, List.length_append] at hlen
      omega
    have htail : ∀ y ∈ p, ¬ y.IsUTF8FirstByte := by
      intro y hy
      exact not_first_of_tail hq.symm (List.mem_append_left q hy)
    rw [toRunes_invalid hnone, toRunes_tail htail]
    rfl

/-- The beginning of a valid text, cut anywhere, is read as a beginning of its runes and bytes that are no runes. -/
theorem toRunes_cut {j : List Char} {p : Bytes} (h : p <+: ofRunes j) (hne : p ≠ ofRunes j) :
    ∃ k m, k < j.length ∧ toRunes p = j.take k ++ List.replicate m '\uFFFD' := by
  induction j generalizing p with
  | nil => exact absurd (List.prefix_nil.mp h) hne
  | cons c j ih =>
    have hcons : ofRunes (c :: j) = String.utf8EncodeChar c ++ ofRunes j := rfl
    rw [hcons] at h hne
    by_cases hlen : p.length < (String.utf8EncodeChar c).length
    · refine ⟨0, p.length, Nat.succ_pos _, ?_⟩
      exact toRunes_part (List.prefix_of_prefix_length_le h (List.prefix_append ..) hlen.le) hlen
    · obtain ⟨p', rfl⟩ := List.prefix_of_prefix_length_le (List.prefix_append ..) h (Nat.le_of_not_lt hlen)
      rw [List.prefix_append_right_inj] at h
      obtain ⟨k, m, hk, hp⟩ := ih h (by rintro rfl; exact hne rfl)
      refine ⟨k + 1, m, Nat.succ_lt_succ hk, ?_⟩
      rw [toRunes_encode, hp, List.take_succ_cons, List.cons_append]

theorem findJSONEnd_replicate {s : Str} (h : findJSONEnd s = none) (m : Nat) :
    findJSONEnd (s ++ List.replicate m '\uFFFD') = none := by
  rw [Option.eq_none_iff_forall_ne_some]
  intro n hn
  obtain ⟨a, x, b, hab, rfl, hx⟩ := findJSONEndFrom_some hn
  have htake := findJSONEndFrom_take hn
  have hlt : a.length < s.length := by
    by_contra hge
    have hget : (s ++ List.replicate m '\uFFFD')[a.length]? = some x := by simp [hab]
    rw [List.getElem?_append_right (by omega), List.getElem?_replicate] at hget
    split_ifs at hget
    cases hget
    rcases hx with hx | hx <;> exact absurd hx (by decide)
  rw [List.take_append_of_le_length hlt] at htake
  have hall := findJSONEndFrom_append htake (s.drop (a.length + 1))
  rw [List.take_append_drop] at hall
  cases h.symm.trans hall

/-- The end that is found in a text that starts with an array or an object is the last byte of it, and none is found before
all of it has come. -/
theorem jsonEnd_container {j : List Char} (h : Derives .container j) (rest : Bytes) :
    jsonEnd (ofRunes j ++ rest) = some ((ofRunes j).length - 1) ∧
      ∀ p, p <+: ofRunes j → p ≠ ofRunes j → jsonEnd p = none := by
  constructor
  · obtain ⟨o, s, c, rfl, -, -, hc⟩ := container_cases h
    have hone : String.utf8EncodeChar c = [UInt8.ofNat c.toNat] := by rcases hc with rfl | rfl <;> decide
    have hj : o :: (s ++ [c]) = (o :: s) ++ [c] := rfl
    rw [jsonEnd, toRunes_append (validString_ofRunes _), toRunes_ofRunes, findJSONEnd_container h, Option.map_some,
      (validEnd_of_valid (validString_ofRunes _)).runes_append, runes_ofRunes, hj, ofRunes_append, List.map_append,
      List.append_assoc, List.take_left' (by simp)]
    have hbytes : ((o :: s).map Rune.ofChar).flatMap Rune.bytes = ofRunes (o :: s) := List.flatMap_map ..
    rw [hbytes, List.length_append]
    simp [ofRunes, hone]
  · intro p hp hne
    obtain ⟨k, m, hk, hrunes⟩ := toRunes_cut hp hne
    rw [jsonEnd, hrunes, findJSONEnd_replicate (findJSONEnd_take h hk), Option.map_none]

theorem jsonEnd_bracket : jsonEnd (ofRunes "[\"]\u00e9\"]".toList ++ [0x5d]) = some 6 := by
  have blank : Blank [] := List.forall_mem_nil _
  have body : IsStringBody [']', '\u00e9'] :=
    .char (by decide) (by decide) (by decide) (.char (by decide) (by decide) (by decide) .nil)
  have j : Derives .container "[\"]\u00e9\"]".toList := Derives.array (.one (.element blank (.string body) blank))
  exact (jsonEnd_container j [0x5d]).1

end Xdragon.Parsers.Ministral
