import Mathlib.Data.List.AList
import Xdragon.Lib.Utf8
import Xdragon.Lib.Wire

/-!
# Harmony function names

The names that a model is given for the functions of a user, and the way back.
-/

namespace Xdragon.Harmony

open Xdragon.Lib (Bytes ascii toRunes ofRunes toRunes_ofRunes ofRunes_append ofRunes_ascii)

/-- `unicode.IsLetter` and `unicode.IsDigit`. -/
structure Categories where
  isLetter : Char → Bool
  isDigit : Char → Bool
  isLetter_ascii : ∀ c : Char, c.toNat < 0x80 → isLetter c = c.isAlpha
  isDigit_latin : ∀ c : Char, c.toNat < 0x100 → isDigit c = c.isDigit

structure FunctionNameMap where
  userToHarmony : AList fun _ : Bytes => Bytes := ∅
  harmonyToUser : AList fun _ : Bytes => Bytes := ∅

/-- The functions that are not renamed. -/
def builtIns : List Bytes := [ascii "browser.open", ascii "browser.search", ascii "browser.find", ascii "python"]

/-- `fmt.Sprintf("%s_%d", originalCandidate, count)`. -/
def numbered (originalCandidate : Bytes) (count : Nat) : Bytes := originalCandidate ++ ascii "_" ++ ascii (toString count)

/-! ## Numbers at the end of a name -/

theorem ascii_eq_ofRunes {s : String} (h : ∀ c ∈ s.toList, c.toNat < 128) : ascii s = ofRunes s.toList := by
  rw [ofRunes_ascii h]
  rfl

theorem not_digit {c : Char} (h : 128 ≤ c.toNat) : c.isDigit = false := by
  rw [Bool.eq_false_iff]
  intro hdigit
  simp only [Char.isDigit, Bool.and_eq_true, decide_eq_true_eq, UInt32.le_iff_toNat_le] at hdigit
  have hle : c.toNat ≤ 57 := hdigit.2
  omega

theorem digits_ascii {n : Nat} {c : Char} (h : c ∈ Nat.toDigits 10 n) : c.toNat < 128 := by
  by_contra hge
  exact Bool.false_ne_true ((not_digit (by omega)).symm.trans (Nat.isDigit_of_mem_toDigits (by decide) (by decide) h))

theorem ascii_toString (n : Nat) : ascii (toString n) = ofRunes (Nat.toDigits 10 n) := by
  have hlist : (toString n).toList = Nat.toDigits 10 n := by
    rw [show toString n = Nat.repr n from rfl, Nat.repr_eq_ofList_toDigits, String.toList_ofList]
  rw [ascii_eq_ofRunes (by rw [hlist]; exact fun c => digits_ascii), hlist]

theorem numbered_ofRunes (r : List Char) (count : Nat) :
    numbered (ofRunes r) count = ofRunes (r ++ '_' :: Nat.toDigits 10 count) := by
  have hunder : ascii "_" = ofRunes ['_'] := by decide
  rw [numbered, ascii_toString, hunder, ← ofRunes_append, ← ofRunes_append, List.append_assoc]
  rfl

theorem numbered_injective (original : Bytes) {i j : Nat} (h : numbered original i = numbered original j) : i = j := by
  unfold numbered at h
  rw [ascii_toString, ascii_toString] at h
  have hrunes := congrArg toRunes (List.append_cancel_left h)
  rw [toRunes_ofRunes, toRunes_ofRunes] at hrunes
  rw [← @Nat.ofDigitChars_ten_toDigits i, hrunes, Nat.ofDigitChars_ten_toDigits]

/-- The keys that are no numbered name up to `count`. -/
def untried (originalCandidate : Bytes) (count : Nat) (keys : List Bytes) : List Bytes :=
  keys.filter fun key => ∀ k < count, key ≠ numbered originalCandidate k

theorem untried_lt {original : Bytes} {count : Nat} {keys : List Bytes} (h : numbered original count ∈ keys) :
    (untried original (count + 1) keys).length < (untried original count keys).length := by
  have hsub : untried original (count + 1) keys = (untried original count keys).filter (· ≠ numbered original count) := by
    unfold untried
    rw [List.filter_filter]
    apply List.filter_congr
    intro key _
    rw [← Bool.decide_and, decide_eq_decide, Nat.forall_lt_succ_right, and_comm]
  rw [hsub, List.length_filter_lt_length_iff_exists]
  refine ⟨numbered original count, ?_, by simp⟩
  rw [untried, List.mem_filter]
  refine ⟨h, decide_eq_true ?_⟩
  intro k hk heq
  have := numbered_injective original heq
  omega

/-! ## Names -/

namespace FunctionNameMap

variable (c : Categories) (m : FunctionNameMap)

/-- The loop of `deriveName`, which ends because there are not more names than keys. -/
def nextFree (originalCandidate : Bytes) (count : Nat) : Bytes :=
  if _h : numbered originalCandidate count ∈ m.harmonyToUser.keys then nextFree originalCandidate (count + 1)
  else numbered originalCandidate count
  termination_by (untried originalCandidate count m.harmonyToUser.keys).length
  decreasing_by exact untried_lt _h

/-- The mapper of `convertToValidChars`, where none is a rune that is removed. -/
def mapper (r : Char) : Option Char :=
  if r = ' ' ∨ r = '-' ∨ r = '.' then some '_'
  else if c.isLetter r ∨ c.isDigit r ∨ r = '_' ∨ r = '$' then some r
  else none

def convertToValidChars (userFunctionName : Bytes) : Bytes :=
  match ofRunes ((toRunes userFunctionName).filterMap (mapper c)) with
  | [] => ascii "unnamed"
  | b :: candidate => if c.isDigit (Char.ofNat b.toNat) then ascii "_" ++ b :: candidate else b :: candidate

def deriveName (userFunctionName : Bytes) : Bytes :=
  let originalCandidate := convertToValidChars c userFunctionName
  if originalCandidate ∈ m.harmonyToUser.keys then m.nextFree originalCandidate 2 else originalCandidate

def convertAndAdd (userFunctionName : Bytes) : Bytes × FunctionNameMap :=
  let harmonyFunctionName := if userFunctionName ∈ builtIns then userFunctionName else m.deriveName c userFunctionName
  (harmonyFunctionName, {
    userToHarmony := m.userToHarmony.insert userFunctionName harmonyFunctionName
    harmonyToUser := m.harmonyToUser.insert harmonyFunctionName userFunctionName })

def originalFromConverted (harmonyFunctionName : Bytes) : Bytes :=
  (m.harmonyToUser.lookup harmonyFunctionName).getD harmonyFunctionName

/-- A call of `convertAndAdd` for each name, and what each name was converted to. -/
def convertAll (names : List Bytes) : FunctionNameMap × List (Bytes × Bytes) :=
  names.foldl (fun s name => ((s.1.convertAndAdd c name).2, s.2 ++ [(name, (s.1.convertAndAdd c name).1)])) ({}, [])

/-! ## What a name is converted to -/

/-- The runes of `convertToValidChars`. -/
def validRunes (userFunctionName : Bytes) : List Char :=
  match (toRunes userFunctionName).filterMap (mapper c) with
  | [] => "unnamed".toList
  | x :: r => if x.isDigit then '_' :: x :: r else x :: r

/-- What the names are made of. -/
def ValidChar (x : Char) : Prop := c.isLetter x = true ∨ c.isDigit x = true ∨ x = '_' ∨ x = '$'

/-- An identifier that does not start with a digit. -/
def Identifier (name : Bytes) : Prop :=
  ∃ x r, name = ofRunes (x :: r) ∧ c.isDigit x = false ∧ ∀ y ∈ x :: r, ValidChar c y

variable {c} in
theorem mapper_valid {r x : Char} (h : mapper c r = some x) : ValidChar c x ∧ x ≠ '.' := by
  unfold mapper at h
  split_ifs at h with hunder hvalid
  · obtain rfl := Option.some.inj h
    exact ⟨.inr (.inr (.inl rfl)), by decide⟩
  · obtain rfl := Option.some.inj h
    exact ⟨hvalid, fun hdot => hunder (.inr (.inr hdot))⟩

theorem convertToValidChars_eq (u : Bytes) : convertToValidChars c u = ofRunes (validRunes c u) := by
  unfold convertToValidChars validRunes
  generalize (toRunes u).filterMap (mapper c) = kept
  rcases kept with - | ⟨x, r⟩
  · rw [Lib.ofRunes_nil]
    exact ascii_eq_ofRunes (by decide)
  have hunder : ofRunes ('_' :: x :: r) = ascii "_" ++ ofRunes (x :: r) := rfl
  have hsplit : ofRunes (x :: r) = String.utf8EncodeChar x ++ ofRunes r := by simp [ofRunes]
  dsimp only
  rw [apply_ite ofRunes, hunder, hsplit]
  by_cases hx : x.toNat < 128
  · rw [Lib.utf8EncodeChar_ascii hx]
    have hchar : Char.ofNat (UInt8.ofNat x.toNat).toNat = x := by
      rw [UInt8.toNat_ofNat', Nat.mod_eq_of_lt (by omega), Char.ofNat_toNat]
    dsimp only [List.singleton_append]
    rw [hchar, c.isDigit_latin x (by omega)]
  · -- the first byte is no digit, whatever the rune is
    obtain ⟨b, bs, hb⟩ := List.exists_cons_of_ne_nil (String.utf8EncodeChar_ne_nil (c := x))
    have hhigh := ((Lib.utf8EncodeChar_high (c := x) (by omega)).2 b (by simp [hb])).1
    have hlatin : (Char.ofNat b.toNat).toNat = b.toNat := Lib.toNat_ofNat (by have := b.toNat_lt; omega)
    have hbyte : c.isDigit (Char.ofNat b.toNat) = false := by
      rw [c.isDigit_latin _ (by rw [hlatin]; exact b.toNat_lt), not_digit (by rw [hlatin]; exact hhigh)]
    rw [hb, not_digit (by omega)]
    simp [hbyte]

theorem valid_unnamed {x : Char} (hx : x ∈ "unnamed".toList) : ValidChar c x ∧ x ≠ '.' := by
  have hletters : ∀ x ∈ "unnamed".toList, x.toNat < 0x80 ∧ x.isAlpha = true ∧ x ≠ '.' := by decide
  obtain ⟨hascii, halpha, hdot⟩ := hletters x hx
  exact ⟨.inl ((c.isLetter_ascii x hascii).trans halpha), hdot⟩

theorem validRunes_valid {u : Bytes} {x : Char} (hx : x ∈ validRunes c u) : ValidChar c x ∧ x ≠ '.' := by
  have hkept : ∀ y ∈ (toRunes u).filterMap (mapper c), ValidChar c y ∧ y ≠ '.' := by
    intro y hy
    obtain ⟨r, -, hr⟩ := List.mem_filterMap.mp hy
    exact mapper_valid hr
  unfold validRunes at hx
  generalize (toRunes u).filterMap (mapper c) = kept at hx hkept
  rcases kept with - | ⟨y, r⟩
  · exact valid_unnamed c hx
  · dsimp only at hx
    split_ifs at hx
    · rcases List.mem_cons.mp hx with rfl | hx
      · exact ⟨.inr (.inr (.inl rfl)), by decide⟩
      · exact hkept x hx
    · exact hkept x hx

theorem validRunes_ne_nil (u : Bytes) : validRunes c u ≠ [] := by
  unfold validRunes
  generalize (toRunes u).filterMap (mapper c) = kept
  rcases kept with - | ⟨y, r⟩
  · decide
  · dsimp only
    split_ifs <;> simp

/-- The check for a number at the start sees the digits of ASCII only. -/
theorem digit_head_iff (u : Bytes) : (∃ x ∈ (validRunes c u).head?, c.isDigit x = true) ↔
    ∃ x ∈ ((toRunes u).filterMap (mapper c)).head?, c.isDigit x = true ∧ 0x80 ≤ x.toNat := by
  have hunder : c.isDigit '_' = false := c.isDigit_latin '_' (by decide)
  unfold validRunes
  generalize (toRunes u).filterMap (mapper c) = kept
  rcases kept with - | ⟨x, r⟩
  · have hu : c.isDigit 'u' = false := c.isDigit_latin 'u' (by decide)
    simp [hu]
  · dsimp only
    split_ifs with hx
    · have hlt : x.toNat < 0x80 := by
        by_contra hge
        exact Bool.false_ne_true ((not_digit (by omega)).symm.trans hx)
      simp [hunder, hlt]
    · have hhigh : c.isDigit x = true → 0x80 ≤ x.toNat := by
        intro hdigit
        by_contra hlt
        exact hx ((c.isDigit_latin x (by omega)).symm.trans hdigit)
      simpa using hhigh

theorem validRunes_eq_python (u : Bytes) :
    validRunes c u = "python".toList ↔ (toRunes u).filterMap (mapper c) = "python".toList := by
  unfold validRunes
  generalize (toRunes u).filterMap (mapper c) = kept
  rcases kept with - | ⟨x, r⟩
  · decide
  · dsimp only
    split_ifs with hx
    · have hpython : "python".toList = 'p' :: "ython".toList := rfl
      rw [hpython, List.cons.injEq, List.cons.injEq]
      constructor
      · rintro ⟨hunder, -⟩
        exact absurd hunder (by decide)
      · rintro ⟨rfl, -⟩
        exact absurd hx (by decide)
    · rfl

/-! ## What a call returns -/

/-- What stands behind a name that was taken. -/
def Numbering (s : List Char) : Prop := s = [] ∨ ∃ count, s = '_' :: Nat.toDigits 10 count

variable {c} in
theorem Numbering.valid {s : List Char} (h : Numbering s) {x : Char} (hx : x ∈ s) : ValidChar c x ∧ x ≠ '.' := by
  rcases h with rfl | ⟨count, rfl⟩
  · cases hx
  · rcases List.mem_cons.mp hx with rfl | hx
    · exact ⟨.inr (.inr (.inl rfl)), by decide⟩
    · have hdigit := Nat.isDigit_of_mem_toDigits (by decide) (by decide) hx
      have hascii := digits_ascii hx
      refine ⟨.inr (.inl ((c.isDigit_latin x (by omega)).trans hdigit)), ?_⟩
      rintro rfl
      exact absurd hdigit (by decide)

theorem nextFree_spec (original : Bytes) (count : Nat) :
    m.nextFree original count ∉ m.harmonyToUser.keys ∧ ∃ k, m.nextFree original count = numbered original k := by
  induction count using nextFree.induct m original with
  | case1 count htaken ih =>
    rw [nextFree, dif_pos htaken]
    exact ih
  | case2 count hfree =>
    rw [nextFree, dif_neg hfree]
    exact ⟨hfree, count, rfl⟩

theorem deriveName_spec (u : Bytes) : m.deriveName c u ∉ m.harmonyToUser.keys ∧
    ∃ s, Numbering s ∧ m.deriveName c u = ofRunes (validRunes c u ++ s) := by
  unfold deriveName
  rw [convertToValidChars_eq]
  dsimp only
  split_ifs with htaken
  · obtain ⟨hfree, k, hk⟩ := m.nextFree_spec (ofRunes (validRunes c u)) 2
    exact ⟨hfree, _, .inr ⟨k, rfl⟩, by rw [hk, numbered_ofRunes]⟩
  · exact ⟨htaken, [], .inl rfl, by rw [List.append_nil]⟩

/-- What a name may be converted to. -/
def Converts (u h : Bytes) : Prop :=
  (u ∈ builtIns ∧ h = u) ∨ (u ∉ builtIns ∧ ∃ s, Numbering s ∧ h = ofRunes (validRunes c u ++ s))

theorem convertAndAdd_converts (u : Bytes) : Converts c u (m.convertAndAdd c u).1 := by
  unfold convertAndAdd
  dsimp only
  split_ifs with hbuiltin
  · exact .inl ⟨hbuiltin, rfl⟩
  · exact .inr ⟨hbuiltin, (m.deriveName_spec c u).2⟩

variable {c}

/-- A derived name is a built-in one only if its valid runes are. -/
theorem converts_builtIn {u h : Bytes} (hconv : Converts c u h) (hu : u ∉ builtIns) (hh : h ∈ builtIns) :
    h = ascii "python" ∧ validRunes c u = "python".toList := by
  obtain ⟨hbuiltin, -⟩ | ⟨-, s, hs, hname⟩ := hconv
  · exact absurd hbuiltin hu
  have hdot : ∀ x ∈ validRunes c u ++ s, x ≠ '.' := by
    intro x hx
    rcases List.mem_append.mp hx with hx | hx
    · exact (validRunes_valid c hx).2
    · exact (hs.valid (c := c) hx).2
  have hrunes : toRunes h = validRunes c u ++ s := by rw [hname, toRunes_ofRunes]
  have hdots : ∀ b ∈ [ascii "browser.open", ascii "browser.search", ascii "browser.find"], '.' ∈ toRunes b := by decide
  have hmem : h ∈ [ascii "browser.open", ascii "browser.search", ascii "browser.find"] ∨ h = ascii "python" := by
    simpa [builtIns, or_assoc] using hh
  rcases hmem with hmem | rfl
  · exact absurd rfl (hdot '.' (hrunes ▸ hdots h hmem))
  · refine ⟨rfl, ?_⟩
    rw [show toRunes (ascii "python") = "python".toList by decide] at hrunes
    rcases hs with rfl | ⟨count, rfl⟩
    · rw [hrunes, List.append_nil]
    · have hunder : '_' ∈ "python".toList := by
        rw [hrunes]
        simp
      exact absurd hunder (by decide)

theorem converts_identifier {u h : Bytes} (hconv : Converts c u h) (hu : u ∉ builtIns) :
    Identifier c h ↔ ∀ x ∈ ((toRunes u).filterMap (mapper c)).head?, c.isDigit x = true → x.toNat < 0x80 := by
  obtain ⟨hbuiltin, -⟩ | ⟨-, s, hs, rfl⟩ := hconv
  · exact absurd hbuiltin hu
  obtain ⟨y, r, hyr⟩ := List.exists_cons_of_ne_nil (validRunes_ne_nil c u)
  have hvalid : ∀ z ∈ y :: (r ++ s), ValidChar c z := by
    intro z hz
    rw [← List.cons_append, ← hyr] at hz
    rcases List.mem_append.mp hz with hz | hz
    · exact (validRunes_valid c hz).1
    · exact (hs.valid hz).1
  have hhead := digit_head_iff c u
  rw [hyr] at hhead ⊢
  simp only [List.head?_cons, Option.mem_some_iff, exists_eq_left'] at hhead
  have hidentifier : Identifier c (ofRunes (y :: r ++ s)) ↔ c.isDigit y = false := by
    constructor
    · rintro ⟨x, r', heq, hx, -⟩
      have hrunes := congrArg toRunes heq
      rw [toRunes_ofRunes, toRunes_ofRunes, List.cons_append, List.cons.injEq] at hrunes
      rwa [hrunes.1]
    · intro hy
      exact ⟨y, r ++ s, rfl, hy, hvalid⟩
  rw [hidentifier, ← Bool.not_eq_true, hhead]
  push Not
  rfl

/-! ## Runs -/

theorem convertAll_snoc (names : List Bytes) (u : Bytes) : convertAll c (names ++ [u]) =
    (((convertAll c names).1.convertAndAdd c u).2,
      (convertAll c names).2 ++ [(u, ((convertAll c names).1.convertAndAdd c u).1)]) := by
  simp [convertAll]

theorem map_fst_convertAll (names : List Bytes) : (convertAll c names).2.map Prod.fst = names := by
  induction names using List.reverseRecOn with
  | nil => rfl
  | append_singleton names u ih => simp [convertAll_snoc, ih]

theorem converts_convertAll (names : List Bytes) : ∀ p ∈ (convertAll c names).2, Converts c p.1 p.2 := by
  induction names using List.reverseRecOn with
  | nil => simp [convertAll]
  | append_singleton names u ih =>
    rw [convertAll_snoc]
    intro p hp
    rcases List.mem_append.mp hp with hp | hp
    · exact ih p hp
    · obtain rfl := List.mem_singleton.mp hp
      exact convertAndAdd_converts c _ u

/-- The names that are taken are those that were returned. -/
theorem mem_keys_convertAll (names : List Bytes) (h : Bytes) :
    h ∈ (convertAll c names).1.harmonyToUser.keys ↔ h ∈ (convertAll c names).2.map Prod.snd := by
  induction names using List.reverseRecOn with
  | nil => simp [convertAll]
  | append_singleton names u ih =>
    rw [convertAll_snoc]
    simp only [convertAndAdd, List.map_append, List.map_cons, List.map_nil, List.mem_append, List.mem_singleton]
    rw [← AList.mem_keys, AList.mem_insert, ← ih, AList.mem_keys, or_comm]

/-- The first name that a user's name stands for is taken, if not by itself then by another one. -/
theorem mem_convertAll {names : List Bytes} {u : Bytes} (hu : u ∈ names) (hb : u ∉ builtIns) :
    ofRunes (validRunes c u) ∈ (convertAll c names).2.map Prod.snd := by
  induction names using List.reverseRecOn with
  | nil => cases hu
  | append_singleton names v ih =>
    rw [convertAll_snoc, List.map_append, List.mem_append]
    rcases List.mem_append.mp hu with hu | hu
    · exact .inl (ih hu)
    · obtain rfl := List.mem_singleton.mp hu
      by_cases htaken : ofRunes (validRunes c u) ∈ (convertAll c names).1.harmonyToUser.keys
      · exact .inl ((mem_keys_convertAll names _).mp htaken)
      · refine .inr ?_
        simp [convertAndAdd, hb, deriveName, convertToValidChars_eq, htaken]

variable (c) in
/-- The returned names tell the user's names apart, and are identifiers. -/
structure Unambiguous (names : List Bytes) : Prop where
  distinct : ((convertAll c names).2.map Prod.snd).Nodup
  identifier : ∀ p ∈ (convertAll c names).2, p.1 ∉ builtIns → Identifier c p.2
  back : ∀ p ∈ (convertAll c names).2, (convertAll c names).1.originalFromConverted p.2 = p.1

variable (c) in
/-- No other name is spelled like the built-in one before that is added. -/
def PythonFirst (names : List Bytes) : Prop :=
  names.Pairwise fun u v => v = ascii "python" → (toRunes u).filterMap (mapper c) ≠ "python".toList

/-- The runes of another built-in name do not spell `python`. -/
theorem builtIn_spelling {u : Bytes} (hu : u ∈ builtIns) (h : (toRunes u).filterMap (mapper c) = "python".toList) :
    u = ascii "python" := by
  have hdots : ∀ b ∈ [ascii "browser.open", ascii "browser.search", ascii "browser.find"], '.' ∈ toRunes b := by decide
  have hmem : u ∈ [ascii "browser.open", ascii "browser.search", ascii "browser.find"] ∨ u = ascii "python" := by
    simpa [builtIns, or_assoc] using hu
  rcases hmem with hmem | rfl
  · have hunder : '_' ∈ (toRunes u).filterMap (mapper c) := List.mem_filterMap.mpr ⟨'.', hdots u hmem, rfl⟩
    rw [h] at hunder
    exact absurd hunder (by decide)
  · rfl

/-- A new name is returned for a new user's name. -/
theorem convertAndAdd_fresh {names : List Bytes} {u : Bytes} (hnew : u ∉ names)
    (hpython : ∀ v ∈ names, u = ascii "python" → (toRunes v).filterMap (mapper c) ≠ "python".toList) :
    ((convertAll c names).1.convertAndAdd c u).1 ∉ (convertAll c names).2.map Prod.snd := by
  intro hmem
  unfold convertAndAdd at hmem
  dsimp only at hmem
  split_ifs at hmem with hb
  · obtain ⟨p, hp, hpu⟩ := List.mem_map.mp hmem
    have hname : p.1 ∈ names := by
      rw [← map_fst_convertAll (c := c) names]
      exact List.mem_map_of_mem hp
    have hconv := converts_convertAll names p hp
    by_cases hpb : p.1 ∈ builtIns
    · obtain ⟨-, heq⟩ | ⟨hno, -⟩ := hconv
      · exact hnew (hpu ▸ heq ▸ hname)
      · exact hno hpb
    · obtain ⟨hpy, hspell⟩ := converts_builtIn hconv hpb (hpu ▸ hb)
      exact hpython p.1 hname (hpu ▸ hpy) ((validRunes_eq_python c p.1).mp hspell)
  · exact ((convertAll c names).1.deriveName_spec c u).1 ((mem_keys_convertAll names _).mpr hmem)

theorem lookup_convertAll {names : List Bytes} (hnodup : names.Nodup) (hpython : PythonFirst c names) :
    ((convertAll c names).2.map Prod.snd).Nodup ∧
      ∀ p ∈ (convertAll c names).2, (convertAll c names).1.harmonyToUser.lookup p.2 = some p.1 := by
  induction names using List.reverseRecOn with
  | nil => simp [convertAll]
  | append_singleton names u ih =>
    obtain ⟨hold, -, hnew⟩ := List.nodup_append.mp hnodup
    obtain ⟨hpold, -, hpnew⟩ := List.pairwise_append.mp hpython
    obtain ⟨hdistinct, hlookup⟩ := ih hold hpold
    have hfresh := @convertAndAdd_fresh c names u
      (fun hu => hnew u hu u (List.mem_singleton_self u) rfl) fun v hv => hpnew v hv u (List.mem_singleton_self u)
    rw [convertAll_snoc]
    constructor
    · rw [List.map_append, List.nodup_append]
      refine ⟨hdistinct, by simp, ?_⟩
      rintro h hh _ hin rfl
      obtain rfl : h = _ := List.mem_singleton.mp hin
      exact hfresh hh
    · intro p hp
      rcases List.mem_append.mp hp with hp | hp
      · have hne : p.2 ≠ ((convertAll c names).1.convertAndAdd c u).1 := by
          intro heq
          exact hfresh (heq ▸ List.mem_map_of_mem hp)
        exact (AList.lookup_insert_ne hne).trans (hlookup p hp)
      · obtain rfl := List.mem_singleton.mp hp
        exact AList.lookup_insert _

theorem pythonFirst_of_distinct {names : List Bytes} (hnodup : names.Nodup)
    (hdistinct : ((convertAll c names).2.map Prod.snd).Nodup) : PythonFirst c names := by
  induction names using List.reverseRecOn with
  | nil => exact .nil
  | append_singleton names u ih =>
    obtain ⟨hold, -, hnew⟩ := List.nodup_append.mp hnodup
    rw [convertAll_snoc, List.map_append, List.nodup_append] at hdistinct
    obtain ⟨hdold, -, hdnew⟩ := hdistinct
    refine List.pairwise_append.mpr ⟨ih hold hdold, List.pairwise_singleton _ _, ?_⟩
    intro v hv w hw hwpython hspell
    obtain rfl : w = u := List.mem_singleton.mp hw
    subst hwpython
    have hb : v ∉ builtIns := fun hb => hnew v hv _ (List.mem_singleton_self _) (builtIn_spelling hb hspell)
    have htaken := mem_convertAll (c := c) hv hb
    rw [(validRunes_eq_python c v).mpr hspell] at htaken
    refine hdnew _ htaken (ofRunes "python".toList) (List.mem_singleton.mpr ?_) rfl
    simp only [convertAndAdd]
    rw [if_pos (by decide)]
    decide

/-- The names are unambiguous exactly if `python` comes before the names that are spelled like it, and no name of the
user has a number that is not ASCII as its first valid rune. -/
theorem unambiguous_iff {names : List Bytes} (hnodup : names.Nodup) : Unambiguous c names ↔ PythonFirst c names ∧
    ∀ u ∈ names, u ∉ builtIns → ∀ x ∈ ((toRunes u).filterMap (mapper c)).head?, c.isDigit x = true → x.toNat < 0x80 := by
  constructor
  · rintro ⟨hdistinct, hidentifier, -⟩
    refine ⟨pythonFirst_of_distinct hnodup hdistinct, ?_⟩
    intro u hu hb
    rw [← map_fst_convertAll (c := c) names] at hu
    obtain ⟨p, hp, rfl⟩ := List.mem_map.mp hu
    exact (converts_identifier (converts_convertAll names p hp) hb).mp (hidentifier p hp hb)
  · rintro ⟨hpython, hdigits⟩
    obtain ⟨hdistinct, hlookup⟩ := lookup_convertAll hnodup hpython
    refine ⟨hdistinct, ?_, ?_⟩
    · intro p hp hb
      refine (converts_identifier (converts_convertAll names p hp) hb).mpr (hdigits p.1 ?_ hb)
      rw [← map_fst_convertAll (c := c) names]
      exact List.mem_map_of_mem hp
    · intro p hp
      rw [originalFromConverted, hlookup p hp]
      rfl

/-- The letters of ASCII, and the digits of two scripts. -/
def twoScripts : Categories where
  isLetter x := x.isAlpha
  isDigit x := x.isDigit || (0x660 ≤ x.toNat && x.toNat ≤ 0x669)
  isLetter_ascii _ _ := rfl
  isDigit_latin x h := by
    have hhigh : decide (0x660 ≤ x.toNat) = false := decide_eq_false (by omega)
    rw [hhigh, Bool.false_and, Bool.or_false]

/-- A name that is spelled like a built-in one, behind it. -/
theorem spelledAlike_unambiguous_iff :
    Unambiguous twoScripts [ascii "python", ascii "python!"] ↔ PythonFirst twoScripts [ascii "python", ascii "python!"] ∧
      ∀ u ∈ [ascii "python", ascii "python!"], u ∉ builtIns →
        ∀ x ∈ ((toRunes u).filterMap (mapper twoScripts)).head?, twoScripts.isDigit x = true → x.toNat < 0x80 :=
  unambiguous_iff (by decide)

/-- A name that is spelled like `python` before it, and a name that starts with a digit of Arabic. -/
theorem names_ambiguous : [ascii "python!", ascii "python"].Nodup ∧
    ¬ Unambiguous twoScripts [ascii "python!", ascii "python"] ∧ ¬ Unambiguous twoScripts [ofRunes ['٣', 'd']] := by
  refine ⟨by decide, ?_, ?_⟩
  · rintro ⟨hdistinct, -, -⟩
    have hnames : (convertAll twoScripts [ascii "python!", ascii "python"]).2.map Prod.snd =
        [ascii "python", ascii "python"] := by decide
    rw [hnames] at hdistinct
    exact absurd hdistinct (by decide)
  · rintro ⟨-, hidentifier, -⟩
    have hname : (convertAll twoScripts [ofRunes ['٣', 'd']]).2 = [(ofRunes ['٣', 'd'], ofRunes ['٣', 'd'])] := by decide
    rw [hname] at hidentifier
    obtain ⟨x, r, heq, hx, -⟩ := hidentifier _ (List.mem_singleton_self _) (by decide)
    have hrunes := congrArg toRunes heq
    rw [toRunes_ofRunes, toRunes_ofRunes, List.cons.injEq] at hrunes
    rw [← hrunes.1] at hx
    exact absurd hx (by decide)

end FunctionNameMap

end Xdragon.Harmony
