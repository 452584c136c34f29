import Xdragon.Lib.Tags
import Xdragon.Lib.Utf8
import Xdragon.Lib.Wire

/-!
# The vocabulary of a tokenizer

The ids of the values, and the loop at the start of an encoder that cuts the special tokens out of a
text.
-/

namespace Xdragon.Tokenizer

open Xdragon.Lib (Bytes ascii cut cut_eq_some cut_eq_none_iff_absent length_of_cut)

def tokenTypeNormal : Int := 1
def tokenTypeUnknown : Int := 2
def tokenTypeControl : Int := 3
def tokenTypeUserDefined : Int := 4
def tokenTypeUnused : Int := 5
def tokenTypeByte : Int := 6

/-- The ids and the ranks are `int32`. Scores are compared only, so `S` is their type. -/
structure Vocabulary (S : Type) where
  values : List Bytes
  types : List Int
  scores : List S := []
  merges : List Bytes := []
  bos : List Int := []
  eos : List Int := []
  addBOS : Bool := false
  addEOS : Bool := false
  types_length : types.length = values.length := by decide
  values_lt : values.length < 2 ^ 31 := by decide
  merges_lt : merges.length < 2 ^ 31 := by decide

theorem no_merges : ([] : List Bytes).length < 2 ^ 31 := by decide

/-- A map from the strings to their indices keeps the last one. -/
def lastIndex (s : Bytes) : List Bytes → Option Nat
  | [] => none
  | x :: xs =>
    match lastIndex s xs with
    | some i => some (i + 1)
    | none => if x = s then some 0 else none

namespace Vocabulary

variable {S : Type} (v : Vocabulary S)

def addSpecials (ids : List Int) : List Int :=
  let ids := match v.bos with
    | bos :: _ => if v.addBOS then bos :: ids else ids
    | [] => ids
  match v.eos with
  | eos :: _ => if v.addEOS then ids ++ [eos] else ids
  | [] => ids

def encode (s : Bytes) : Int :=
  match lastIndex s v.values with
  | some i => i
  | none => -1

/-- `none` is a crash. -/
def decode (id : Int) : Option Bytes := if 0 ≤ id then v.values[id.toNat]? else none

def specialVocabulary : List Bytes :=
  ((v.values.zip v.types).filter fun t => t.2 = tokenTypeControl ∨ t.2 = tokenTypeUserDefined).map (·.1)

def merge (left right : Bytes) : Int :=
  match lastIndex (left ++ ascii " " ++ right) v.merges with
  | some i => i
  | none => -1

end Vocabulary

/-- A string fragment and its token ids. -/
structure Fragment where
  value : Bytes
  ids : List Int := []

/-- The loop that cuts a special token out of the fragments, for `n` turns. -/
def cutSpecial (special : Bytes) (id : Int) : Nat → List Fragment → Option (List Fragment)
  | _, [] => some []
  | 0, _ :: _ => none
  | n + 1, frag :: frags =>
    if frag.ids.length > 0 then (cutSpecial special id n frags).map (frag :: ·)
    else
      match cut special frag.value with
      | none => (cutSpecial special id n frags).map (frag :: ·)
      | some (before, rest) =>
        let found : Fragment := { value := special, ids := [id] }
        let frags := if rest ≠ [] then { value := rest } :: frags else frags
        if before ≠ [] then (cutSpecial special id n (found :: frags)).map ({ value := before } :: ·)
        else (cutSpecial special id n frags).map (found :: ·)

/-- The fragments of a text, with `n` turns for each special token. -/
def fragments {S : Type} (v : Vocabulary S) (n : Nat) (s : Bytes) : Option (List Fragment) :=
  v.specialVocabulary.foldlM (fun frags special => cutSpecial special (v.encode special) n frags) [{ value := s }]

/-! ## Ids -/

theorem lastIndex_getElem {s : Bytes} {xs : List Bytes} {i : Nat} (h : lastIndex s xs = some i) : xs[i]? = some s := by
  induction xs generalizing i with
  | nil => cases h
  | cons x xs ih =>
    rw [lastIndex] at h
    cases hxs : lastIndex s xs with
    | some j =>
      rw [hxs] at h
      obtain rfl := Option.some.inj h
      exact ih hxs
    | none =>
      rw [hxs] at h
      dsimp only at h
      split at h
      · rename_i hx
        obtain rfl := Option.some.inj h
        rw [hx]
        rfl
      · cases h

theorem exists_lastIndex {s : Bytes} {xs : List Bytes} (h : s ∈ xs) : ∃ i, lastIndex s xs = some i := by
  induction xs with
  | nil => cases h
  | cons x xs ih =>
    rw [lastIndex]
    cases hxs : lastIndex s xs with
    | some j => exact ⟨j + 1, rfl⟩
    | none =>
      obtain rfl | h := List.mem_cons.mp h
      · exact ⟨0, if_pos rfl⟩
      · obtain ⟨i, hi⟩ := ih h
        rw [hxs] at hi
        cases hi

namespace Vocabulary

variable {S : Type} {v : Vocabulary S}

/-- A string that has an id is the value of its id. -/
theorem decode_encode {s : Bytes} (h : 0 ≤ v.encode s) : v.decode (v.encode s) = some s := by
  unfold encode at h ⊢
  cases hs : lastIndex s v.values with
  | none =>
    rw [hs] at h
    exact absurd h (by decide)
  | some i => simp [decode, lastIndex_getElem hs]

theorem encode_nonneg_iff {s : Bytes} : 0 ≤ v.encode s ↔ s ∈ v.values := by
  constructor
  · intro h
    have hdecode := decode_encode h
    rw [decode, if_pos h] at hdecode
    exact List.mem_of_getElem? hdecode
  · intro h
    obtain ⟨i, hi⟩ := exists_lastIndex h
    rw [encode, hi]
    exact Int.natCast_nonneg i

theorem mem_values_of_special {s : Bytes} (h : s ∈ v.specialVocabulary) : s ∈ v.values := by
  obtain ⟨t, ht, rfl⟩ := List.mem_map.mp h
  exact (List.of_mem_zip (List.mem_of_mem_filter ht)).1

end Vocabulary

end Xdragon.Tokenizer
