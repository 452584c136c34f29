import Xdragon.Lib.Runes
import Xdragon.Parsers.LFM2Calls

/-!
# Rendered LFM2 calls

Calls with string arguments, written as `[f(k='v', ...), g(...)]` and parsed again. The scanners for the closing parenthesis and
for the closing quotation mark agree on where a string ends.
-/

namespace Xdragon.Parsers.LFM2

open Xdragon.Lib

def space : UInt8 := 0x20

/-- A name of characters that are no white space, and of ASCII characters only letters, digits and `_`. -/
def IsIdentifier (s : Bytes) : Prop :=
  ∃ r : List Char, r ≠ [] ∧ s = ofRunes r ∧ ∀ c ∈ r, isSpace c = false ∧ (c.toNat < 128 → isIdentPart (UInt8.ofNat c.toNat) = true)

/-- A call whose arguments are strings. -/
structure StringCall where
  name : Bytes
  args : List (Bytes × Bytes)
  name_identifier : IsIdentifier name
  key_identifier : ∀ a ∈ args, IsIdentifier a.1
  distinct : (args.map Prod.fst).Nodup
  plain : ∀ a ∈ args, backslash ∉ a.2 ∧ singleQuote ∉ a.2

def StringCall.call (F : Type) (c : StringCall) : ToolCall F where
  name := c.name
  arguments := c.args.map fun a => (a.1, .string a.2)

/-- `k='v'`. -/
def renderArg (a : Bytes × Bytes) : Bytes := a.1 ++ (equalsSign :: singleQuote :: (a.2 ++ [singleQuote]))

def renderArgs (args : List (Bytes × Bytes)) : Bytes := join (args.map renderArg) [comma, space]

def StringCall.render (c : StringCall) : Bytes := c.name ++ (openParen :: (renderArgs c.args ++ [closeParen]))

def renderList (calls : List StringCall) : Bytes := join (calls.map StringCall.render) [comma, space]

/-- `[f(k='v', ...), g(...)]`. -/
def renderCalls (calls : List StringCall) : Bytes := openBracket :: (renderList calls ++ [closeBracket])

/-! ## Identifiers -/

/-- The bytes of an identifier: of letters, digits and `_`, or of other runes. -/
theorem identifier_bytes {s : Bytes} (h : IsIdentifier s) {b : UInt8} (hb : b ∈ s) :
    isIdentPart b = true ∨ 0x80 ≤ b.toNat := by
  obtain ⟨r, -, rfl, hr⟩ := h
  obtain ⟨c, hc, hb⟩ := List.mem_flatMap.mp hb
  by_cases hascii : c.toNat < 128
  · rw [utf8EncodeChar_ascii hascii, List.mem_singleton] at hb
    exact .inl (hb ▸ (hr c hc).2 hascii)
  · exact .inr ((utf8EncodeChar_high (c := c) (by omega)).2 b hb).1

theorem identifier_no_delimiter {s : Bytes} (h : IsIdentifier s) :
    ∀ b ∈ s, b ∉ [openParen, closeParen, singleQuote, doubleQuote, equalsSign, comma] := by
  intro b hb hmem
  have hnone : ∀ b ∈ [openParen, closeParen, singleQuote, doubleQuote, equalsSign, comma],
      isIdentPart b = false ∧ ¬ 0x80 ≤ b.toNat := by decide
  obtain ⟨hpart, hhigh⟩ := hnone b hmem
  exact (identifier_bytes h hb).elim (fun h => Bool.false_ne_true (hpart.symm.trans h)) hhigh

theorem trimSpace_identifier {s : Bytes} (h : IsIdentifier s) : trimSpace s = s := by
  obtain ⟨r, -, rfl, hr⟩ := h
  exact trimSpace_ofRunes fun c hc => (hr c hc).1

theorem identifier_ne_nil {s : Bytes} (h : IsIdentifier s) : s ≠ [] := by
  obtain ⟨r, hne, rfl, -⟩ := h
  obtain ⟨c, r, rfl⟩ := List.exists_cons_of_ne_nil hne
  rw [ofRunes, List.flatMap_cons]
  exact List.append_ne_nil_of_left_ne_nil String.utf8EncodeChar_ne_nil _

/-- The first byte of a rune is not read as white space. -/
theorem identifier_head {s : Bytes} (h : IsIdentifier s) : ∀ b ∈ s.head?, isSpaceByte b = false := by
  intro b hb
  have hfirst : b.IsUTF8FirstByte := by
    obtain ⟨r, hne, rfl, -⟩ := h
    obtain ⟨c, r, rfl⟩ := List.exists_cons_of_ne_nil hne
    rw [ofRunes, List.flatMap_cons] at hb
    exact first_encode c _ b hb
  have hlt : b.toNat < 256 := b.toNat_lt
  have hchar : (Char.ofNat b.toNat).toNat = b.toNat := toNat_ofNat (by omega)
  by_contra hspace
  rw [Bool.not_eq_false, isSpaceByte, isSpace, hchar] at hspace
  simp only [Bool.or_eq_true, Bool.and_eq_true, decide_eq_true_eq, beq_iff_eq] at hspace
  have hcases : b.toNat = 0x85 ∨ b.toNat = 0xa0 ∨ b.toNat ≤ 0x20 := by omega
  obtain heq | heq | hle := hcases
  · obtain rfl : b = 0x85 := UInt8.toNat_inj.mp heq
    exact absurd hfirst (by decide)
  · obtain rfl : b = 0xa0 := UInt8.toNat_inj.mp heq
    exact absurd hfirst (by decide)
  · obtain hpart | hhigh := identifier_bytes h (List.mem_of_head? hb)
    · simp only [isIdentPart, isIdentStart, Bool.or_eq_true, Bool.and_eq_true, decide_eq_true_eq, UInt8.le_iff_toNat_le,
        ← UInt8.toNat_inj, UInt8.toNat_ofNat, Nat.reducePow, Nat.reduceMod] at hpart
      omega
    · omega

/-! ## Places -/

section
variable {s before part rest : Bytes}

theorem getElem?_at {b : UInt8} (hs : s = before ++ b :: rest) : s[before.length]? = some b := by
  rw [hs, List.getElem?_append_right (Nat.le_refl _), Nat.sub_self]
  rfl

theorem slice_at (hs : s = before ++ (part ++ rest)) : slice s before.length (before ++ part).length = some part := by
  rw [hs, List.length_append]
  exact slice_middle before part rest

theorem skipWhile_at {p : UInt8 → Bool} (hs : s = before ++ (part ++ rest)) (hpart : ∀ b ∈ part, p b = true)
    (hrest : ∀ b ∈ rest.head?, p b = false) : skipWhile s p before.length = (before ++ part).length := by
  have htake : rest.takeWhile p = [] := by
    cases rest with
    | nil => rfl
    | cons b rest => exact List.takeWhile_cons_of_neg (by simp [hrest b rfl])
  rw [skipWhile, hs, List.drop_left, List.takeWhile_append_of_pos hpart, htake, List.append_nil, List.length_append]

/-- A string ends at the first quotation mark if nothing in it is escaped. -/
theorem closingQuote_at {quote : UInt8} (hquote : quote ≠ backslash) (hs : s = before ++ (part ++ quote :: rest))
    (hpart : backslash ∉ part ∧ quote ∉ part) : closingQuote s quote before.length = some (before ++ part).length := by
  induction part generalizing before with
  | nil =>
    have hget := getElem?_at hs
    obtain ⟨hlt, hget⟩ := List.getElem?_eq_some_iff.mp hget
    rw [closingQuote, dif_pos hlt, hget, if_neg (fun h => hquote h.1), if_pos rfl, List.append_nil]
  | cons b part ih =>
    have hget := getElem?_at hs
    obtain ⟨hlt, hget⟩ := List.getElem?_eq_some_iff.mp hget
    simp only [List.mem_cons, not_or] at hpart
    have hnext := ih (show s = (before ++ [b]) ++ (part ++ quote :: rest) by simp [hs]) ⟨hpart.1.2, hpart.2.2⟩
    rw [List.length_append, List.length_singleton] at hnext
    rw [closingQuote, dif_pos hlt, hget, if_neg (fun h => hpart.1.1 h.1.symm), if_neg (Ne.symm hpart.2.1), hnext]
    simp

theorem skipString_at {quote : UInt8} (hs : s = before ++ (part ++ quote :: rest)) (hpart : backslash ∉ part ∧ quote ∉ part) :
    skipString s quote before.length = (before ++ part).length := by
  induction part generalizing before with
  | nil =>
    have hget := getElem?_at hs
    obtain ⟨hlt, hget⟩ := List.getElem?_eq_some_iff.mp hget
    rw [skipString, dif_pos hlt, hget, if_pos rfl, List.append_nil]
  | cons b part ih =>
    have hget := getElem?_at hs
    obtain ⟨hlt, hget⟩ := List.getElem?_eq_some_iff.mp hget
    simp only [List.mem_cons, not_or] at hpart
    have hnext := ih (show s = (before ++ [b]) ++ (part ++ quote :: rest) by simp [hs]) ⟨hpart.1.2, hpart.2.2⟩
    rw [List.length_append, List.length_singleton] at hnext
    rw [skipString, dif_pos hlt, hget, if_neg (Ne.symm hpart.2.1), if_neg (fun h => hpart.1.1 h.1.symm), hnext]
    simp

end

/-! ## The closing parenthesis -/

/-- A text that the search for the closing parenthesis passes. -/
def Passes (w : Bytes) : Prop := ∀ (s before rest : Bytes) (depth : Nat), s = before ++ (w ++ rest) →
  matchParen s depth before.length = matchParen s depth (before ++ w).length

theorem Passes.append {a b : Bytes} (ha : Passes a) (hb : Passes b) : Passes (a ++ b) := by
  intro s before rest depth hs
  rw [ha s before (b ++ rest) depth (by simp [hs]), hb s (before ++ a) rest depth (by simp [hs]), List.append_assoc]

theorem passes_plain {w : Bytes} (hw : ∀ b ∈ w, b ∉ [openParen, closeParen, singleQuote, doubleQuote]) : Passes w := by
  induction w with
  | nil =>
    intro s before rest depth _
    rw [List.append_nil]
  | cons b w ih =>
    intro s before rest depth hs
    obtain ⟨hlt, hget⟩ := List.getElem?_eq_some_iff.mp (getElem?_at hs)
    have hb := hw b (List.mem_cons_self ..)
    simp only [List.mem_cons, List.not_mem_nil, or_false, not_or] at hb
    have hnext := ih (fun c hc => hw c (List.mem_cons_of_mem _ hc)) s (before ++ [b]) rest depth (by simp [hs])
    rw [List.length_append, List.length_singleton] at hnext
    rw [matchParen, dif_pos hlt, hget, if_neg hb.1, if_neg hb.2.1, if_neg (by simp [isQuote, hb]), hnext]
    simp

theorem passes_string {v : Bytes} (hv : backslash ∉ v ∧ singleQuote ∉ v) :
    Passes (singleQuote :: (v ++ [singleQuote])) := by
  intro s before rest depth hs
  obtain ⟨hlt, hget⟩ := List.getElem?_eq_some_iff.mp (getElem?_at hs)
  have hskip := skipString_at (show s = (before ++ [singleQuote]) ++ (v ++ singleQuote :: rest) by simp [hs]) hv
  rw [List.length_append, List.length_singleton] at hskip
  rw [matchParen, dif_pos hlt, hget, if_neg (by decide), if_neg (by decide), if_pos (by decide), hskip]
  simp [Nat.add_assoc]

theorem passes_renderArg {a : Bytes × Bytes} (hkey : IsIdentifier a.1) (hv : backslash ∉ a.2 ∧ singleQuote ∉ a.2) :
    Passes (renderArg a) := by
  have hplain : Passes (a.1 ++ [equalsSign]) := by
    refine passes_plain fun b hb hmem => ?_
    obtain hb | hb := List.mem_append.mp hb
    · refine identifier_no_delimiter hkey b hb ?_
      simp only [List.mem_cons, List.not_mem_nil, or_false] at hmem ⊢
      tauto
    · obtain rfl := List.mem_singleton.mp hb
      exact absurd hmem (by decide)
  have := hplain.append (passes_string hv)
  rwa [List.append_assoc, List.singleton_append] at this

theorem passes_renderArgs {args : List (Bytes × Bytes)} (hkey : ∀ a ∈ args, IsIdentifier a.1)
    (hv : ∀ a ∈ args, backslash ∉ a.2 ∧ singleQuote ∉ a.2) : Passes (renderArgs args) := by
  induction args with
  | nil => exact passes_plain fun b hb => nomatch hb
  | cons a args ih =>
    have ha := passes_renderArg (hkey a (List.mem_cons_self ..)) (hv a (List.mem_cons_self ..))
    cases args with
    | nil =>
      rwa [renderArgs, List.map_singleton, join, List.intercalate_singleton]
    | cons a' args =>
      have hrest := ih (fun b hb => hkey b (List.mem_cons_of_mem _ hb)) fun b hb => hv b (List.mem_cons_of_mem _ hb)
      have hsep : Passes [comma, space] := passes_plain (by decide)
      rw [renderArgs, List.map_cons, List.map_cons, join, List.intercalate_cons_cons]
      exact (ha.append hsep).append hrest

theorem findMatchingParen_render (c : StringCall) (rest : Bytes) :
    findMatchingParen (c.render ++ rest) c.name.length = some (c.name ++ openParen :: renderArgs c.args).length := by
  have hs : c.render ++ rest = (c.name ++ [openParen]) ++ (renderArgs c.args ++ closeParen :: rest) := by
    simp [StringCall.render]
  have hpass := passes_renderArgs c.key_identifier c.plain _ _ _ 1 hs
  obtain ⟨hlt, hget⟩ := List.getElem?_eq_some_iff.mp
    (getElem?_at (show c.render ++ rest = (c.name ++ [openParen] ++ renderArgs c.args) ++ closeParen :: rest by simp [hs]))
  rw [List.length_append, List.length_singleton] at hpass
  rw [findMatchingParen, hpass, matchParen, dif_pos hlt, hget, if_neg (by decide), if_pos rfl, if_pos rfl]
  simp


/-! ## Arguments -/

section
variable {F : Type} {parseFloat : Bytes → Option F} {unmarshal : Bytes → Option (Value F)}

theorem renderArgs_cons (a : Bytes × Bytes) (args : List (Bytes × Bytes)) :
    renderArgs (a :: args) = renderArg a ++ (if args = [] then [] else comma :: (space :: renderArgs args)) := by
  rw [renderArgs, List.map_cons, join_cons]
  simp only [List.map_eq_nil_iff]
  rfl

theorem length_le_renderArgs (args : List (Bytes × Bytes)) : args.length ≤ (renderArgs args).length := by
  induction args with
  | nil => exact Nat.zero_le _
  | cons a args ih =>
    rw [renderArgs_cons, renderArg]
    split_ifs with hargs
    · simp only [hargs, List.length_append, List.length_cons, List.length_nil]
      omega
    · simp only [List.length_append, List.length_cons]
      omega

/-- A string in single quotation marks. -/
theorem parsePythonArgValue_string {s before v rest : Bytes} (hs : s = before ++ (singleQuote :: (v ++ singleQuote :: rest)))
    (hv : backslash ∉ v ∧ singleQuote ∉ v) : parsePythonArgValue parseFloat unmarshal s before.length =
      some (.ok (.string v, (before ++ (singleQuote :: (v ++ [singleQuote]))).length)) := by
  have hopen : s = (before ++ [singleQuote]) ++ (v ++ singleQuote :: rest) := by simp [hs]
  have hclosing := closingQuote_at (by decide) hopen hv
  have hslice := slice_at hopen
  rw [List.length_append, List.length_singleton] at hclosing hslice
  rw [parsePythonArgValue, getElem?_at hs]
  dsimp only
  rw [if_pos (by decide), hclosing]
  dsimp only
  rw [hslice]
  simp [Nat.add_assoc]

/-- A round of the loop reads an argument and the comma behind it. -/
theorem argsLoop_arg {A before lead rest : Bytes} {a : Bytes × Bytes} {n : Nat} {acc : Entries F}
    (hA : A = before ++ (lead ++ (renderArg a ++ rest))) (hlead : ∀ b ∈ lead, (b = comma || isSpaceByte b) = true)
    (hkey : IsIdentifier a.1) (hv : backslash ∉ a.2 ∧ singleQuote ∉ a.2) :
    argsLoop parseFloat unmarshal A (n + 1) before.length acc = argsLoop parseFloat unmarshal A n
      (if A[(before ++ (lead ++ renderArg a)).length]? = some comma then (before ++ (lead ++ renderArg a)).length + 1
        else (before ++ (lead ++ renderArg a)).length) (setEntry a.1 (.string a.2) acc) := by
  have hstart : skipWhile A (fun b => b = comma || isSpaceByte b) before.length = (before ++ lead).length := by
    refine skipWhile_at hA hlead fun b hb => ?_
    obtain ⟨k, key, hcons⟩ := List.exists_cons_of_ne_nil (identifier_ne_nil hkey)
    rw [renderArg, hcons] at hb
    obtain rfl : k = b := Option.some.inj hb
    have hmem : k ∈ a.1 := hcons ▸ List.mem_cons_self ..
    have hspace := identifier_head hkey k (by rw [hcons]; rfl)
    have hcomma : k ≠ comma := fun h => identifier_no_delimiter hkey k hmem (by simp [h])
    simp [hspace, hcomma]
  have hA1 : A = (before ++ lead) ++ (a.1 ++ equalsSign :: (singleQuote :: (a.2 ++ singleQuote :: rest))) := by
    simp [hA, renderArg]
  have hstop : skipWhile A (fun b => b ≠ equalsSign && b ≠ comma) (before ++ lead).length = (before ++ lead ++ a.1).length := by
    refine skipWhile_at hA1 (fun b hb => ?_) fun b hb => ?_
    · have := identifier_no_delimiter hkey b hb
      simp only [List.mem_cons, List.not_mem_nil, or_false, not_or] at this
      simp [this]
    · obtain rfl : equalsSign = b := Option.some.inj hb
      rfl
  have hA2 : A = (before ++ lead ++ a.1) ++ equalsSign :: (singleQuote :: (a.2 ++ singleQuote :: rest)) := by simp [hA1]
  have hA3 : A = (before ++ lead ++ a.1 ++ [equalsSign]) ++ ([] ++ singleQuote :: (a.2 ++ singleQuote :: rest)) := by simp [hA1]
  have hvalue : skipWhile A isSpaceByte ((before ++ lead ++ a.1).length + 1) = (before ++ lead ++ a.1 ++ [equalsSign]).length := by
    have := skipWhile_at (p := isSpaceByte) hA3 (by simp) fun b hb => by
      obtain rfl : singleQuote = b := Option.some.inj hb
      decide
    rw [List.append_nil] at this
    rw [show (before ++ lead ++ a.1).length + 1 = (before ++ lead ++ a.1 ++ [equalsSign]).length by simp [Nat.add_assoc], this]
  have hlt : ¬ (before ++ lead).length ≥ A.length := by
    rw [hA1]
    simp
  have hltv : ¬ (before ++ lead ++ a.1 ++ [equalsSign]).length ≥ A.length := by
    rw [hA3]
    simp
  rw [argsLoop, hstart]
  dsimp only
  rw [if_neg hlt, hstop, if_neg (not_not.mpr (getElem?_at hA2)), slice_at hA1, Option.bind_some,
    trimSpace_identifier hkey, if_neg (identifier_ne_nil hkey), hvalue, if_neg hltv,
    parsePythonArgValue_string (by simpa using hA3) hv,
    Option.bind_some]
  simp [renderArg]

theorem argsLoop_render {args : List (Bytes × Bytes)} {A before lead : Bytes} {n : Nat} {acc : Entries F}
    (hA : A = before ++ (lead ++ renderArgs args)) (hlead : ∀ b ∈ lead, (b = comma || isSpaceByte b) = true)
    (hkey : ∀ a ∈ args, IsIdentifier a.1) (hv : ∀ a ∈ args, backslash ∉ a.2 ∧ singleQuote ∉ a.2)
    (hnew : (acc.map Prod.fst ++ args.map Prod.fst).Nodup) (hn : args.length < n) :
    argsLoop parseFloat unmarshal A n before.length acc = some (.ok (acc ++ args.map fun a => (a.1, .string a.2))) := by
  induction args generalizing before lead n acc with
  | nil =>
    obtain ⟨n, rfl⟩ := Nat.exists_eq_succ_of_ne_zero (Nat.ne_of_gt hn)
    have hend := @skipWhile_at A before lead [] (fun b => b = comma || isSpaceByte b) hA hlead (by simp)
    rw [argsLoop, hend]
    dsimp only
    rw [if_pos (by rw [hA]; simp [renderArgs, join])]
    simp
  | cons a args ih =>
    obtain ⟨n, rfl⟩ := Nat.exists_eq_succ_of_ne_zero (Nat.ne_of_gt (Nat.zero_lt_of_lt hn))
    have hfresh : a.1 ∉ acc.map Prod.fst := fun h =>
      (List.nodup_append.mp hnew).2.2 _ h _ (List.mem_cons_self ..) rfl
    have hnew' : ((acc ++ [(a.1, Value.string a.2)]).map Prod.fst ++ args.map Prod.fst).Nodup := by
      simpa using hnew
    have hn' : args.length < n := Nat.lt_of_succ_lt_succ hn
    rw [renderArgs_cons] at hA
    rw [argsLoop_arg hA hlead (hkey a (List.mem_cons_self ..)) (hv a (List.mem_cons_self ..)), setEntry_new hfresh]
    have hrec := fun {before lead : Bytes} (hA : A = before ++ (lead ++ renderArgs args)) hlead =>
      @ih before lead n (acc ++ [(a.1, .string a.2)]) hA hlead (fun b hb => hkey b (List.mem_cons_of_mem _ hb))
        (fun b hb => hv b (List.mem_cons_of_mem _ hb)) hnew' hn'
    split_ifs at hA with hargs
    · subst hargs
      have hnone : A[(before ++ (lead ++ renderArg a)).length]? = none := by
        rw [hA, List.append_nil, List.getElem?_eq_none_iff]
      rw [hnone, if_neg (by simp), @hrec (before ++ (lead ++ renderArg a)) [] (by simp [hA, renderArgs, join]) (by simp)]
      simp
    · have hcomma := getElem?_at (show A = (before ++ (lead ++ renderArg a)) ++ comma :: (space :: renderArgs args) by simp [hA])
      have := @hrec (before ++ (lead ++ renderArg a) ++ [comma]) [space] (by simp [hA]) (by decide)
      rw [List.length_append, List.length_singleton] at this
      rw [hcomma, if_pos rfl, this]
      simp

theorem parsePythonArgs_render (c : StringCall) :
    parsePythonArgs parseFloat unmarshal (renderArgs c.args) = some (.ok (c.call F).arguments) :=
  argsLoop_render (show renderArgs c.args = [] ++ ([] ++ renderArgs c.args) from rfl) (by simp) c.key_identifier c.plain c.distinct
    (Nat.lt_succ_of_le (length_le_renderArgs _))

end

/-! ## Calls -/

section
variable {F : Type} {parseFloat : Bytes → Option F} {unmarshal : Bytes → Option (Value F)}

/-- A call is read whatever follows it. -/
theorem parseCall_render (c : StringCall) (rest : Bytes) :
    parseCall parseFloat unmarshal (c.render ++ rest) = some (.ok (c.call F, rest)) := by
  have hs : c.render ++ rest = c.name ++ ([openParen] ++ (renderArgs c.args ++ closeParen :: rest)) := by
    simp [StringCall.render]
  have hcut : cut [openParen] (c.render ++ rest) = some (c.name, renderArgs c.args ++ closeParen :: rest) := by
    rw [hs]
    refine cut_of_eq fun i hi hpre => ?_
    obtain ⟨t, ht⟩ := hpre
    have hget : (c.name ++ ([openParen] ++ (renderArgs c.args ++ closeParen :: rest)))[i]? = some openParen := by
      rw [← List.head?_drop, ← ht]
      rfl
    rw [List.getElem?_append_left hi] at hget
    exact identifier_no_delimiter c.name_identifier _ (List.mem_of_getElem? hget) (List.mem_cons_self ..)
  have hargs : c.render ++ rest = (c.name ++ [openParen]) ++ (renderArgs c.args ++ closeParen :: rest) := by simp [hs]
  have hbehind : c.render ++ rest = (c.name ++ openParen :: renderArgs c.args ++ [closeParen]) ++ rest := by simp [hs]
  have hslice : slice (c.render ++ rest) (c.name.length + 1) (c.name ++ openParen :: renderArgs c.args).length =
      some (renderArgs c.args) := by
    have := slice_at hargs
    rwa [List.length_append, List.length_singleton, List.append_assoc, List.singleton_append] at this
  have hrest : slice (c.render ++ rest) ((c.name ++ openParen :: renderArgs c.args).length + 1) (c.render ++ rest).length =
      some rest := by
    have := slice_right (c.name ++ openParen :: renderArgs c.args ++ [closeParen]) rest
    rwa [@List.length_append _ _ [closeParen], List.length_singleton, ← hbehind] at this
  have hparse : (if renderArgs c.args ≠ [] then parsePythonArgs parseFloat unmarshal (renderArgs c.args) else some (.ok [])) =
      some (.ok (c.call F).arguments) := by
    split_ifs with hempty
    · exact parsePythonArgs_render c
    · have hlen := length_le_renderArgs c.args
      rw [not_not.mp hempty, List.length_nil, Nat.le_zero, List.length_eq_zero_iff] at hlen
      simp [StringCall.call, hlen]
  have hname : slice (c.render ++ rest) 0 c.name.length = some c.name := by
    rw [hs]
    exact slice_left _ _
  rw [parseCall, index, hcut]
  dsimp only [Option.map_some]
  rw [hname, Option.bind_some, trimSpace_identifier c.name_identifier, if_neg (identifier_ne_nil c.name_identifier),
    findMatchingParen_render]
  dsimp only
  rw [hslice, Option.bind_some, hparse]
  dsimp only [Option.bind_some]
  rw [hrest]
  rfl

theorem renderList_cons (c : StringCall) (calls : List StringCall) :
    renderList (c :: calls) = c.render ++ (if calls = [] then [] else comma :: (space :: renderList calls)) := by
  rw [renderList, List.map_cons, join_cons]
  simp only [List.map_eq_nil_iff]
  rfl

theorem render_ends (c : StringCall) : ∃ d r body, isSpace d = false ∧ d ≠ ',' ∧ c.render = String.utf8EncodeChar d ++ r ∧
    c.render = body ++ [closeParen] := by
  obtain ⟨r, hne, hname, hr⟩ := c.name_identifier
  obtain ⟨d, r, rfl⟩ := List.exists_cons_of_ne_nil hne
  refine ⟨d, ofRunes r ++ (openParen :: (renderArgs c.args ++ [closeParen])), c.name ++ (openParen :: renderArgs c.args),
    (hr d (List.mem_cons_self ..)).1, ?_, ?_, ?_⟩
  · rintro rfl
    exact absurd ((hr ',' (List.mem_cons_self ..)).2 (by decide)) (by decide)
  · rw [StringCall.render, hname, ofRunes, List.flatMap_cons, List.append_assoc]
    rfl
  · simp [StringCall.render]

/-- The list of calls starts and ends with no white space, and starts with no comma. -/
theorem renderList_ends {calls : List StringCall} (hne : calls ≠ []) : trimSpace (renderList calls) = renderList calls ∧
    ¬ [comma] <+: renderList calls ∧ ∃ body, renderList calls = body ++ [closeParen] := by
  obtain ⟨body, hbody⟩ : ∃ body, renderList calls = body ++ [closeParen] := by
    induction calls with
    | nil => exact absurd rfl hne
    | cons c calls ih =>
      obtain ⟨-, -, body, -, -, -, hbody⟩ := render_ends c
      rw [renderList_cons]
      split_ifs with hcalls
      · exact ⟨body, by rw [List.append_nil, hbody]⟩
      · obtain ⟨rest, hrest⟩ := ih hcalls
        exact ⟨c.render ++ comma :: (space :: rest), by simp [hrest]⟩
  obtain ⟨c, calls, rfl⟩ := List.exists_cons_of_ne_nil hne
  obtain ⟨d, r, -, hspace, hcomma, hr, -⟩ := render_ends c
  have hhead : ∃ rest, renderList (c :: calls) = String.utf8EncodeChar d ++ rest := by
    rw [renderList_cons, hr, List.append_assoc]
    exact ⟨_, rfl⟩
  obtain ⟨rest, hhead⟩ := hhead
  refine ⟨?_, ?_, body, hbody⟩
  · rw [hhead]
    have hlast : [closeParen] = String.utf8EncodeChar ')' := by decide
    exact trimSpace_encode (by rw [← hhead, hbody, hlast]) hspace (by decide)
  · rintro ⟨t, ht⟩
    have hd : decodeRune (String.utf8EncodeChar d ++ rest) = some ',' := by
      rw [← hhead, ← ht]
      exact decodeRune_encode ',' t
    rw [decodeRune_encode] at hd
    exact hcomma (Option.some.inj hd)

theorem nextContent_first {calls : List StringCall} (hne : calls ≠ []) :
    nextContent (renderList calls) = some (renderList calls) := by
  obtain ⟨htrim, hcomma, -⟩ := renderList_ends hne
  rw [nextContent, htrim, if_neg hcomma]

theorem nextContent_rest {calls : List StringCall} (hne : calls ≠ []) :
    nextContent (comma :: (space :: renderList calls)) = some (renderList calls) := by
  obtain ⟨htrim, -, body, hbody⟩ := renderList_ends hne
  have hsolid : trimSpace (comma :: (space :: renderList calls)) = comma :: (space :: renderList calls) := by
    refine trimSpace_solid (fun x hx => ?_) fun x hx => ?_
    · obtain rfl : comma = x := Option.some.inj hx
      decide
    · rw [hbody, show comma :: (space :: (body ++ [closeParen])) = (comma :: space :: body) ++ [closeParen] from rfl,
        List.getLast?_concat] at hx
      obtain rfl : closeParen = x := Option.some.inj hx
      decide
  have hspace : trimSpace (space :: renderList calls) = renderList calls := by
    have hrunes : runes (space :: renderList calls) = .ofChar ' ' :: runes (renderList calls) := runes_encode ' ' _
    rw [trimSpace, Lib.trimLeft, hrunes, List.dropWhile_cons_of_pos (by decide)]
    exact htrim
  have hslice := slice_right [comma] (space :: renderList calls)
  rw [nextContent, hsolid, if_pos ⟨_, rfl⟩, show slice (comma :: (space :: renderList calls)) 1
    (comma :: (space :: renderList calls)).length = some (space :: renderList calls) from hslice, Option.map_some, hspace]

theorem callsLoop_render {calls : List StringCall} {content : Bytes} {n : Nat} {toolCalls : List (ToolCall F)} (hne : calls ≠ [])
    (hcontent : nextContent content = some (renderList calls)) (hn : calls.length < n) :
    callsLoop parseFloat unmarshal n content toolCalls = some (.ok (toolCalls ++ calls.map (StringCall.call F))) := by
  induction calls generalizing content n toolCalls with
  | nil => exact absurd rfl hne
  | cons c calls ih =>
    obtain ⟨n, rfl⟩ := Nat.exists_eq_succ_of_ne_zero (Nat.ne_of_gt (Nat.zero_lt_of_lt hn))
    obtain ⟨-, -, body, hbody⟩ := renderList_ends hne
    have hnonempty : renderList (c :: calls) ≠ [] := by simp [hbody]
    rw [callsLoop, hcontent, Option.bind_some, if_neg hnonempty, renderList_cons, parseCall_render, Option.bind_some]
    dsimp only
    have hn' : calls.length < n := Nat.lt_of_succ_lt_succ hn
    split_ifs with hcalls
    · obtain ⟨n, rfl⟩ := Nat.exists_eq_succ_of_ne_zero (Nat.ne_of_gt (Nat.zero_lt_of_lt hn'))
      have hend : nextContent [] = some [] := by decide
      rw [callsLoop, hend, Option.bind_some, if_pos rfl, if_neg (by simp), hcalls]
      rfl
    · rw [ih hcalls (nextContent_rest hcalls) hn']
      simp

theorem length_le_renderList (calls : List StringCall) : calls.length ≤ (renderList calls).length := by
  induction calls with
  | nil => exact Nat.zero_le _
  | cons c calls ih =>
    rw [renderList_cons, StringCall.render]
    split_ifs with hcalls
    · simp only [hcalls, List.length_append, List.length_cons, List.length_nil]
      omega
    · simp only [List.length_append, List.length_cons]
      omega

end

/-- A list of calls with string arguments is parsed to the calls it was rendered from. -/
theorem parseToolCallsContent_renderCalls {F : Type} (parseFloat : Bytes → Option F) (unmarshal : Bytes → Option (Value F))
    (calls : List StringCall) (hne : calls ≠ []) :
    parseToolCallsContent parseFloat unmarshal (renderCalls calls) = some (.ok (calls.map (StringCall.call F))) := by
  have htrim : trimSpace (renderCalls calls) = renderCalls calls := by
    refine trimSpace_solid (fun x hx => ?_) fun x hx => ?_
    · obtain rfl : openBracket = x := Option.some.inj hx
      decide
    · rw [renderCalls, ← List.cons_append, List.getLast?_concat] at hx
      obtain rfl : closeBracket = x := Option.some.inj hx
      decide
  have hstart : ¬ lfm2ToolCallStartTag <+: renderCalls calls := fun h => absurd (List.cons_prefix_cons.mp h).1 (by decide)
  have hstop : ¬ lfm2ToolCallEndTag <:+ renderCalls calls := by
    rintro ⟨t, ht⟩
    have hlast := congrArg List.getLast? ht
    rw [renderCalls, ← List.cons_append, List.getLast?_concat, List.getLast?_append_of_ne_nil _ (by decide)] at hlast
    exact absurd hlast (by decide)
  have hwrapped : wrapped [openBracket] [closeBracket] (renderCalls calls) := (wrapped_bytes (by decide)).mpr ⟨renderList calls, rfl⟩
  rw [parseToolCallsContent, htrim, trimTagPrefix, if_neg hstart, htrim, trimTagSuffix, if_neg hstop, htrim,
    parsePythonStyleToolCalls, htrim, if_pos hwrapped, renderCalls, slice_bytes, Option.bind_some]
  exact callsLoop_render hne (nextContent_first hne) (Nat.lt_succ_of_le (length_le_renderList calls))

/-- `[say(text='), "[a=b', to='x'), stop()]`. -/
theorem parseToolCallsContent_renderCalls_two : ∃ calls : List StringCall,
    renderCalls calls = ascii "[say(text='), \"[a=b', to='x'), stop()]" ∧
    parseToolCallsContent (F := Unit) (fun _ => none) (fun _ => none) (renderCalls calls) =
      some (.ok (calls.map (StringCall.call Unit))) := by
  have hname : ∀ r ∈ ["say".toList, "stop".toList, "text".toList, "to".toList], IsIdentifier (ofRunes r) := by
    intro r hr
    have hrunes : ∀ r ∈ ["say".toList, "stop".toList, "text".toList, "to".toList], r ≠ [] ∧
        ∀ c ∈ r, isSpace c = false ∧ (c.toNat < 128 → isIdentPart (UInt8.ofNat c.toNat) = true) := by decide
    exact ⟨r, (hrunes r hr).1, rfl, (hrunes r hr).2⟩
  have hkey : ∀ a ∈ [(ofRunes "text".toList, ascii "), \"[a=b"), (ofRunes "to".toList, ascii "x")], IsIdentifier a.1 := by
    intro a ha
    simp only [List.mem_cons, List.not_mem_nil, or_false] at ha
    obtain rfl | rfl := ha
    · exact hname _ (by simp)
    · exact hname _ (by simp)
  exact ⟨[{ name := ofRunes "say".toList
            args := [(ofRunes "text".toList, ascii "), \"[a=b"), (ofRunes "to".toList, ascii "x")]
            name_identifier := hname _ (by simp)
            key_identifier := hkey
            distinct := by decide
            plain := by decide },
          { name := ofRunes "stop".toList
            args := []
            name_identifier := hname _ (by simp)
            key_identifier := nofun
            distinct := by decide
            plain := nofun }], rfl, parseToolCallsContent_renderCalls _ _ _ (by simp)⟩

end Xdragon.Parsers.LFM2
