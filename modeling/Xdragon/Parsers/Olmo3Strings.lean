import Xdragon.Parsers.Olmo3Calls

/-!
# String arguments of Olmo 3

A string that is quoted in a call and read again, and the parts of a text joined again. Both are right for texts of which no
rune has more than one byte.
-/

namespace Xdragon.Parsers.Olmo3

open Xdragon.Lib

/-! ## The splitter gives back what it visits -/

theorem join_write (parts : List Bytes) (current : Bytes) (c : UInt8) :
    join (parts ++ [current ++ [c]]) [comma] = join (parts ++ [current]) [comma] ++ [c] := by
  induction parts with
  | nil => simp [join]
  | cons p parts ih =>
    obtain ⟨q, qs, hq⟩ := List.exists_cons_of_ne_nil (show parts ++ [current] ≠ [] by simp)
    obtain ⟨q', qs', hq'⟩ := List.exists_cons_of_ne_nil (show parts ++ [current ++ [c]] ≠ [] by simp)
    rw [List.cons_append, List.cons_append, hq, hq', join, join, List.intercalate_cons_cons, List.intercalate_cons_cons,
      ← hq, ← hq']
    rw [join, join] at ih
    rw [ih, ← List.append_assoc]

theorem join_snoc {parts : List Bytes} (hne : parts ≠ []) (current : Bytes) :
    join (parts ++ [current]) [comma] = join parts [comma] ++ ([comma] ++ current) := by
  induction parts with
  | nil => exact absurd rfl hne
  | cons p parts ih =>
    cases parts with
    | nil => simp [join]
    | cons q qs =>
      have := ih (List.cons_ne_nil _ _)
      rw [join, join] at this
      rw [List.cons_append, join, join, List.cons_append, List.intercalate_cons_cons, List.intercalate_cons_cons,
        ← List.cons_append, this]
      simp only [List.append_assoc]

theorem join_foldl (s : Splitter) (cs : Bytes) :
    join ((cs.foldl Splitter.step s).parts ++ [(cs.foldl Splitter.step s).current]) [comma] =
      join (s.parts ++ [s.current]) [comma] ++ cs := by
  induction cs generalizing s with
  | nil => rw [List.append_nil]; rfl
  | cons c cs ih =>
    rw [List.foldl_cons, ih]
    obtain ⟨hcurrent, hparts⟩ | ⟨rfl, hcurrent, hparts⟩ := step_cases s c
    · rw [hcurrent, hparts, join_write, List.append_assoc, List.singleton_append]
    · rw [hcurrent, hparts, join_snoc (by simp), List.append_nil, List.append_assoc, List.singleton_append]

/-- The parts give back the bytes that were visited, up to a trailing comma. -/
theorem join_splitArguments (s : Bytes) :
    heads s = join (splitArguments s) [comma] ∨ heads s = join (splitArguments s) [comma] ++ [comma] := by
  have hjoin := join_foldl {} (heads s)
  have hstart : join (({} : Splitter).parts ++ [({} : Splitter).current]) [comma] = [] := rfl
  rw [hstart, List.nil_append] at hjoin
  unfold splitArguments Splitter.finish
  split_ifs with hlen
  · exact .inl hjoin.symm
  · rw [List.length_eq_zero_iff.mp (Nat.eq_zero_of_not_pos hlen)] at hjoin
    generalize ((heads s).foldl Splitter.step {}).parts = parts at hjoin ⊢
    cases parts with
    | nil => exact .inl hjoin.symm
    | cons p parts =>
      refine .inr ?_
      rw [← hjoin]
      exact join_snoc (List.cons_ne_nil _ _) []

/-- The parts of a text are the text again, but for one trailing comma. -/
def GivesBack (s : Bytes) : Prop :=
  s = join (splitArguments s) [comma] ∨ s = join (splitArguments s) [comma] ++ [comma]

theorem givesBack_iff (s : Bytes) : GivesBack s ↔ ∀ r ∈ runes s, r.bytes.length = 1 := by
  rw [← heads_eq_iff]
  have hle := length_heads_le s
  constructor
  · intro h
    obtain hs | hs := h
    · obtain hheads | hheads := join_splitArguments s
      · rw [hheads, ← hs]
      · have hlen := congrArg List.length hheads
        rw [← hs, List.length_append, List.length_singleton] at hlen
        omega
    · obtain hheads | hheads := join_splitArguments s
      · rw [← hheads] at hs
        exact absurd hs (ne_heads_append (by decide) s)
      · rw [hheads, ← hs]
  · intro h
    have := join_splitArguments s
    rwa [h] at this

/-! ## Escaped strings -/

def escapeByte (b : UInt8) : Bytes := if b = backslash ∨ b = doubleQuote then [backslash, b] else [b]

/-- Every backslash and every double quotation mark behind a backslash. -/
def escapeString (w : Bytes) : Bytes := w.flatMap escapeByte

theorem escapeString_cons (b : UInt8) (w : Bytes) : escapeString (b :: w) = escapeByte b ++ escapeString w := rfl

/-- The backslashes are replaced by a byte that is not in the text. -/
theorem replace_backslashes (w : Bytes) : replaceAll (escapeString w) [backslash, backslash] [0] =
    w.flatMap fun b => if b = backslash then [0] else escapeByte b := by
  have hpair : ([backslash, backslash] : Bytes) ≠ [] := by decide
  induction w with
  | nil => rfl
  | cons b w ih =>
    rw [escapeString_cons, List.flatMap_cons, ← ih]
    by_cases hb : b = backslash
    · rw [if_pos hb, hb]
      exact replaceAll_prefix hpair _
    · rw [if_neg hb]
      have hstart : ∀ s, ¬ [backslash, backslash] <+: b :: s := fun s hpre =>
        hb (List.cons_prefix_cons.mp hpre).1.symm
      unfold escapeByte
      split_ifs with hspecial
      · obtain rfl := hspecial.resolve_left hb
        have hescaped : ∀ s, ¬ [backslash, backslash] <+: backslash :: doubleQuote :: s := fun s hpre =>
          absurd (List.cons_prefix_cons.mp (List.cons_prefix_cons.mp hpre).2).1 (by decide)
        rw [List.cons_append, List.cons_append, replaceAll_cons hpair (hescaped _), List.nil_append,
          replaceAll_cons hpair (hstart _)]
        rfl
      · exact replaceAll_cons hpair (hstart _)

theorem replace_quotes (w : Bytes) : replaceAll (w.flatMap fun b => if b = backslash then [0] else escapeByte b)
    [backslash, doubleQuote] [doubleQuote] = w.map fun b => if b = backslash then 0 else b := by
  have hpair : ([backslash, doubleQuote] : Bytes) ≠ [] := by decide
  have hstart : ∀ b s, b ≠ backslash → ¬ [backslash, doubleQuote] <+: b :: s := fun b s hb hpre =>
    hb (List.cons_prefix_cons.mp hpre).1.symm
  induction w with
  | nil => rfl
  | cons b w ih =>
    rw [List.flatMap_cons, List.map_cons, ← ih]
    by_cases hb : b = backslash
    · rw [if_pos hb, if_pos hb]
      exact replaceAll_cons hpair (hstart 0 _ (by decide))
    · rw [if_neg hb, if_neg hb]
      unfold escapeByte
      split_ifs with hspecial
      · obtain rfl := hspecial.resolve_left hb
        exact replaceAll_prefix hpair _
      · exact replaceAll_cons hpair (hstart b _ hb)

theorem unescape_escape {w : Bytes} (hw : 0 ∉ w) : unescapeString (escapeString w) = w := by
  have hno : backslash ∉ w.map fun b => if b = backslash then 0 else b := by
    rw [List.mem_map]
    rintro ⟨b, -, hb⟩
    split_ifs at hb with h
    · exact absurd hb (by decide)
    · exact h hb
  have hkeep : ∀ (b : UInt8) (new : Bytes), replaceAll (w.map fun b => if b = backslash then 0 else b) [backslash, b] new =
      w.map fun b => if b = backslash then 0 else b := fun b new =>
    replaceAll_of_not_infix (List.cons_ne_nil _ _) fun hin => hno (hin.subset (List.mem_cons_self ..))
  unfold unescapeString
  dsimp only
  rw [replace_backslashes, replace_quotes, hkeep, show ascii "\\n" = [backslash, 0x6e] by decide, hkeep,
    show ascii "\\t" = [backslash, 0x74] by decide, hkeep, show ascii "\\r" = [backslash, 0x72] by decide, hkeep,
    replaceAll_singleton, List.flatMap_map]
  conv_rhs => rw [← List.flatMap_singleton' w]
  refine List.flatMap_congr fun b hb => ?_
  by_cases hback : b = backslash
  · rw [if_pos hback, if_pos rfl, hback]
  · rw [if_neg hback, if_neg]
    rintro rfl
    exact hw hb

/-! ## The splitter in a quoted argument -/

/-- `k="e"`, where e is escaped. -/
def argumentText (k w : Bytes) : Bytes := k ++ ([equalsSign, doubleQuote] ++ (escapeString w ++ [doubleQuote]))

/-- The word characters of a text. -/
def IsWord (s : Bytes) : Prop := ∀ b ∈ s, isWord b = true

instance (s : Bytes) : Decidable (IsWord s) := inferInstanceAs (Decidable (∀ b ∈ s, _))

theorem solid_of_isWord {b : UInt8} (h : isWord b = true) : Solid b := by
  simp only [isWord, Bool.or_eq_true, Bool.and_eq_true, decide_eq_true_eq, UInt8.le_iff_toNat_le, ← UInt8.toNat_inj] at h
  simp only [UInt8.toNat_ofNat, Nat.reducePow, Nat.reduceMod] at h
  unfold Solid
  omega

/-- A byte that the splitter only writes. -/
theorem step_plain {t : Splitter} (hescaped : t.escaped = false) (hin : t.inString = false) {c : UInt8}
    (hc : c ∉ [doubleQuote, singleQuote, openParen, openBracket, openBrace, closeParen, closeBracket, closeBrace, comma]) :
    t.step c = t.write c := by
  simp only [List.mem_cons, List.not_mem_nil, or_false, not_or] at hc
  simp only [Splitter.step, hescaped, hin, Bool.false_eq_true, if_false, and_false, hc, or_self, false_and, Bool.not_false,
    if_true]

theorem foldl_plain {t : Splitter} (hescaped : t.escaped = false) (hin : t.inString = false) {cs : Bytes}
    (hcs : ∀ c ∈ cs, c ∉ [doubleQuote, singleQuote, openParen, openBracket, openBrace, closeParen, closeBracket, closeBrace, comma]) :
    cs.foldl Splitter.step t = { t with current := t.current ++ cs } := by
  induction cs generalizing t with
  | nil => rw [List.append_nil]; rfl
  | cons c cs ih =>
    rw [List.foldl_cons, step_plain hescaped hin (hcs c (List.mem_cons_self ..)),
      ih (t := t.write c) hescaped hin fun d hd => hcs d (List.mem_cons_of_mem _ hd)]
    simp only [Splitter.write, List.append_assoc, List.singleton_append]

/-- In a string an escaped text is written, and the string goes on. -/
theorem foldl_escaped {t : Splitter} (hescaped : t.escaped = false) (hin : t.inString = true)
    (hquote : t.stringChar = doubleQuote) (w : Bytes) :
    (escapeString w).foldl Splitter.step t = { t with current := t.current ++ escapeString w } := by
  induction w generalizing t with
  | nil =>
    rw [escapeString, List.flatMap_nil, List.append_nil]
    rfl
  | cons b w ih =>
    have hbyte : (escapeByte b).foldl Splitter.step t = { t with current := t.current ++ escapeByte b } := by
      unfold escapeByte
      split_ifs with hspecial
      · simp only [List.foldl_cons, List.foldl_nil, Splitter.step, Splitter.write, hescaped, hin]
        simp
      · rw [not_or] at hspecial
        simp [Splitter.step, Splitter.write, hescaped, hin, hquote, hspecial]
    have hrest := ih (t := { t with current := t.current ++ escapeByte b }) hescaped hin hquote
    rw [escapeString_cons, List.foldl_append, hbyte, hrest, List.append_assoc]

theorem isWord_plain {c : UInt8} (h : isWord c = true) :
    c ∉ [doubleQuote, singleQuote, openParen, openBracket, openBrace, closeParen, closeBracket, closeBrace, comma] := by
  have hnone : ∀ c ∈ [doubleQuote, singleQuote, openParen, openBracket, openBrace, closeParen, closeBracket, closeBrace, comma],
      isWord c = false := by decide
  exact fun hmem => Bool.false_ne_true ((hnone c hmem).symm.trans h)

/-- A quoted argument is one part, whatever the string is. -/
theorem foldl_argumentText {k : Bytes} (hk : IsWord k) (w : Bytes) :
    ((argumentText k w).foldl Splitter.step {}).finish = [argumentText k w] := by
  have hkey := @foldl_plain {} rfl rfl k fun c hc => isWord_plain (hk c hc)
  have hopen : [equalsSign, doubleQuote].foldl Splitter.step { current := k } =
      { current := k ++ [equalsSign, doubleQuote], inString := true, stringChar := doubleQuote } := by
    simp [Splitter.step, Splitter.write, equalsSign, doubleQuote, backslash, singleQuote, openParen, openBracket, openBrace,
      closeParen, closeBracket, closeBrace, comma]
  have hinner := @foldl_escaped
    { current := k ++ [equalsSign, doubleQuote], inString := true, stringChar := doubleQuote } rfl rfl rfl w
  have hclose : ∀ cur : Bytes, Splitter.step { current := cur, inString := true, stringChar := doubleQuote } doubleQuote =
      { current := cur ++ [doubleQuote] } := by
    intro cur
    simp [Splitter.step, Splitter.write, doubleQuote, backslash]
  rw [List.nil_append] at hkey
  rw [argumentText, List.foldl_append, hkey, List.foldl_append, hopen, List.foldl_append, hinner, List.foldl_cons, hclose,
    List.foldl_nil]
  simp [Splitter.finish]

/-! ## First bytes of an escaped string -/

theorem escapeString_high {b : Bytes} (h : ∀ x ∈ b, 128 ≤ x.toNat) : escapeString b = b := by
  conv_rhs => rw [← List.flatMap_singleton' b]
  refine List.flatMap_congr fun x hx => if_neg ?_
  have := h x hx
  rintro (rfl | rfl)
  · exact absurd this (by decide)
  · exact absurd this (by decide)

theorem escapeByte_ascii {b : UInt8} (h : b.toNat < 128) : ∀ x ∈ escapeByte b, x.toNat < 128 := by
  unfold escapeByte
  split_ifs
  · simp only [List.forall_mem_cons, List.not_mem_nil, false_implies, implies_true, and_true]
    exact ⟨by decide, h⟩
  · simpa using h

/-- Escaping adds bytes in front of bytes that are runes. -/
theorem heads_escapeString (r : List Char) (rest : Bytes) :
    heads (escapeString (ofRunes r) ++ rest) = escapeString (heads (ofRunes r)) ++ heads rest := by
  induction r with
  | nil => rfl
  | cons c r ih =>
    have hcons : ofRunes (c :: r) = String.utf8EncodeChar c ++ ofRunes r := List.flatMap_cons ..
    have hescape : escapeString (String.utf8EncodeChar c ++ ofRunes r) =
        escapeString (String.utf8EncodeChar c) ++ escapeString (ofRunes r) := List.flatMap_append
    rw [hcons, hescape, heads_encode, escapeString_cons, List.append_assoc, List.append_assoc, ← ih]
    by_cases hc : c.toNat < 128
    · rw [utf8EncodeChar_ascii hc, List.headD_cons, escapeString, List.flatMap_singleton]
      refine heads_append_ascii (escapeByte_ascii ?_) _
      rw [UInt8.toNat_ofNat']
      omega
    · obtain ⟨-, hhigh⟩ := utf8EncodeChar_high (c := c) (by omega)
      obtain ⟨y, ys, hy⟩ := List.exists_cons_of_ne_nil (@String.utf8EncodeChar_ne_nil c)
      have hhead : escapeByte y = [y] := by
        have := escapeString_high (b := [y]) (by simpa using (hhigh y (by rw [hy]; exact List.mem_cons_self ..)).1)
        rwa [escapeString, List.flatMap_singleton] at this
      rw [escapeString_high fun x hx => (hhigh x hx).1, heads_encode, hy, List.headD_cons, hhead, List.singleton_append]

theorem heads_argumentText {k : Bytes} (hk : IsWord k) (r : List Char) :
    heads (argumentText k (ofRunes r)) = argumentText k (heads (ofRunes r)) := by
  have hascii : ∀ x ∈ k ++ [equalsSign, doubleQuote], x.toNat < 128 := by
    intro x hx
    obtain hx | hx := List.mem_append.mp hx
    · exact (solid_of_isWord (hk x hx)).2
    · simp only [List.mem_cons, List.not_mem_nil, or_false] at hx
      rcases hx with rfl | rfl <;> decide
  have hlast : heads [doubleQuote] = [doubleQuote] := by
    rw [heads_ascii (by decide)]
    rfl
  rw [argumentText, ← List.append_assoc, heads_append_ascii hascii, heads_escapeString, hlast, List.append_assoc]
  rfl

/-! ## A call with a quoted argument -/

/-- `f(k="e")`. -/
def callLine (f k w : Bytes) : Bytes := f ++ (openParen :: (argumentText k w ++ [closeParen]))

/-- `unicode.IsControl`. -/
def isControl (c : Char) : Bool := c.toNat < 0x20 || (0x7f ≤ c.toNat && c.toNat < 0xa0)

theorem ge_of_not_control {r : List Char} (hr : ∀ c ∈ r, isControl c = false) {x : UInt8} (hx : x ∈ ofRunes r) :
    0x20 ≤ x.toNat := by
  obtain ⟨c, hc, hx⟩ := List.mem_flatMap.mp hx
  by_cases hascii : c.toNat < 128
  · rw [utf8EncodeChar_ascii hascii, List.mem_singleton] at hx
    have := hr c hc
    simp only [isControl, Bool.or_eq_false_iff, decide_eq_false_iff_not] at this
    rw [hx, UInt8.toNat_ofNat']
    omega
  · have := ((utf8EncodeChar_high (c := c) (by omega)).2 x hx).1
    omega

theorem mem_escapeString {w : Bytes} {x : UInt8} (h : x ∈ escapeString w) : x = backslash ∨ x ∈ w := by
  obtain ⟨b, hb, hx⟩ := List.mem_flatMap.mp h
  unfold escapeByte at hx
  split_ifs at hx
  · simp only [List.mem_cons, List.not_mem_nil, or_false] at hx
    refine hx.imp_right fun heq => ?_
    rwa [heq]
  · obtain rfl := List.mem_singleton.mp hx
    exact .inr hb

theorem trimSpace_word {k : Bytes} (hk : IsWord k) : trimSpace k = k :=
  trimSpace_solid (fun x hx => solid_of_isWord (hk x (List.mem_of_head? hx)))
    fun x hx => solid_of_isWord (hk x (List.mem_of_getLast? hx))

theorem trimSpace_quoted (e : Bytes) : trimSpace ([doubleQuote] ++ (e ++ [doubleQuote])) = [doubleQuote] ++ (e ++ [doubleQuote]) := by
  refine trimSpace_solid (fun x hx => ?_) fun x hx => ?_
  · obtain rfl : doubleQuote = x := Option.some.inj hx
    decide
  · rw [← List.append_assoc, List.getLast?_concat] at hx
    obtain rfl : doubleQuote = x := Option.some.inj hx
    decide

theorem trimSpace_argumentText {k : Bytes} (hk : IsWord k) (w : Bytes) : trimSpace (argumentText k w) = argumentText k w := by
  refine trimSpace_solid (fun x hx => ?_) fun x hx => ?_
  · cases k with
    | nil =>
      obtain rfl : equalsSign = x := Option.some.inj hx
      decide
    | cons y k =>
      obtain rfl : y = x := Option.some.inj hx
      exact solid_of_isWord (hk y (List.mem_cons_self ..))
  · rw [argumentText, ← List.append_assoc, ← List.append_assoc, List.getLast?_concat] at hx
    obtain rfl : doubleQuote = x := Option.some.inj hx
    decide

theorem cut_argumentText {k : Bytes} (hk : IsWord k) (w : Bytes) :
    cut [equalsSign] (argumentText k w) = some (k, [doubleQuote] ++ (escapeString w ++ [doubleQuote])) := by
  refine cut_of_eq fun i hi hpre => ?_
  rw [List.drop_append_of_le_length (by omega), List.drop_eq_getElem_cons hi] at hpre
  have heq : equalsSign = k[i] := (List.cons_prefix_cons.mp hpre).1
  have hword := hk k[i] (List.getElem_mem hi)
  rw [← heq] at hword
  exact absurd hword (by decide)

variable {F : Type} (parseFloat : Bytes → Option F)

theorem parseOlmo3Value_escaped {w : Bytes} (hw : 0 ∉ w) :
    parseOlmo3Value parseFloat ([doubleQuote] ++ (escapeString w ++ [doubleQuote])) = some (.ok (.string w)) := by
  have htrim := trimSpace_quoted (escapeString w)
  have hquoted : quoted (trimSpace ([doubleQuote] ++ (escapeString w ++ [doubleQuote]))) := by
    rw [htrim]
    exact .inl (wrapped_middle _)
  rw [parseOlmo3Value_quoted hquoted, htrim, List.singleton_append, slice_bytes, Option.map_some, unescape_escape hw]

theorem parseOlmo3Arguments_quoted {k : Bytes} (hk : IsWord k) {r : List Char} (hr : ∀ c ∈ r, isControl c = false) :
    parseOlmo3Arguments parseFloat (argumentText k (ofRunes r)) = some (.ok [(k, .string (heads (ofRunes r)))]) := by
  have hzero : 0 ∉ heads (ofRunes r) := fun hmem =>
    absurd (ge_of_not_control hr ((heads_sublist _).subset hmem)) (by decide)
  have hne : ∀ w, argumentText k w ≠ [] := by simp [argumentText]
  have htrim := trimSpace_argumentText hk (heads (ofRunes r))
  have hcut : cut [argumentFormat.separator] (trimSpace (argumentText k (heads (ofRunes r)))) = _ := htrim ▸ cut_argumentText hk _
  have hsplit : splitArguments (argumentText k (ofRunes r)) = [argumentText k (heads (ofRunes r))] := by
    rw [splitArguments, heads_argumentText hk, foldl_argumentText hk]
  rw [parseOlmo3Arguments, trimSpace_argumentText hk, if_neg (hne _), hsplit, parseEntries_entry _ _ (by rw [htrim]; exact hne _) hcut,
    trimSpace_word hk, trimSpace_quoted]
  dsimp only [argumentFormat, Option.bind_some]
  rw [parseOlmo3Value_escaped parseFloat hzero]
  rfl

theorem split_single {s : Bytes} (h : newline ∉ s) : split s [newline] = [s] := by
  have hcut : cut [newline] s = none :=
    cut_eq_none_iff_absent.mpr fun hin => h (hin.subset (List.mem_singleton_self _))
  unfold split
  cases s with
  | nil => rfl
  | cons x s => rw [List.length_cons, splitUpTo, hcut]

section
variable {f k : Bytes}

theorem newline_callLine (hf : IsWord f) (hk : IsWord k) {w : Bytes} (hw : ∀ x ∈ w, 0x20 ≤ x.toNat) : newline ∉ callLine f k w := by
  have hlow : ∀ x ∈ callLine f k w, 0x20 ≤ x.toNat := by
    intro x hx
    simp only [callLine, argumentText, List.mem_append, List.mem_cons, List.not_mem_nil, or_false] at hx
    rcases hx with hx | rfl | (hx | (rfl | rfl) | hx | rfl) | rfl
    · exact (solid_of_isWord (hf x hx)).1.le
    · decide
    · exact (solid_of_isWord (hk x hx)).1.le
    · decide
    · decide
    · obtain rfl | hx := mem_escapeString hx
      · decide
      · exact hw x hx
    · decide
    · decide
  exact fun hmem => absurd (hlow _ hmem) (by decide)

theorem trimSpace_callLine (hne : f ≠ []) (hf : IsWord f) (w : Bytes) : trimSpace (callLine f k w) = callLine f k w := by
  refine trimSpace_solid (fun x hx => ?_) fun x hx => ?_
  · obtain ⟨y, f, rfl⟩ := List.exists_cons_of_ne_nil hne
    obtain rfl : y = x := Option.some.inj hx
    exact solid_of_isWord (hf y (List.mem_cons_self ..))
  · rw [callLine, ← List.cons_append, ← List.append_assoc, List.getLast?_concat] at hx
    obtain rfl : closeParen = x := Option.some.inj hx
    decide

theorem funcCallRegex_callLine (hne : f ≠ []) (hf : IsWord f) (hk : IsWord k) {w : Bytes} (hw : ∀ x ∈ w, 0x20 ≤ x.toNat) :
    funcCallRegex (callLine f k w) = some (f, argumentText k w) := by
  have hline := newline_callLine hf hk hw
  have hparen : isWord openParen = false := by decide
  have htake : (callLine f k w).takeWhile isWord = f := by
    rw [callLine, List.takeWhile_append_of_pos hf, List.takeWhile_cons_of_neg (by simp [hparen]), List.append_nil]
  have hdrop : (callLine f k w).dropWhile isWord = openParen :: (argumentText k w ++ [closeParen]) := by
    rw [callLine, List.dropWhile_append_of_pos hf, List.dropWhile_cons_of_neg (by simp [hparen])]
  have hrest : newline ∉ argumentText k w ++ [closeParen] := fun hmem =>
    hline (List.mem_append_right _ (List.mem_cons_of_mem _ hmem))
  rw [funcCallRegex, htake, hdrop]
  dsimp only
  rw [if_pos ⟨hne, rfl, List.getLast?_concat .., hrest⟩, List.dropLast_concat]

end

/-- The argument is what the splitter visits of the string. -/
theorem parseOlmo3FunctionCalls_callLine {f k : Bytes} (hne : f ≠ []) (hf : IsWord f) (hk : IsWord k) {r : List Char}
    (hr : ∀ c ∈ r, isControl c = false) : parseOlmo3FunctionCalls parseFloat (callLine f k (ofRunes r)) =
      some (.ok [{ name := f, arguments := [(k, .string (heads (ofRunes r)))] }]) := by
  have hw : ∀ x ∈ ofRunes r, 0x20 ≤ x.toNat := fun x hx => ge_of_not_control hr hx
  have htrim := trimSpace_callLine (k := k) hne hf (ofRunes r)
  have hnil : callLine f k (ofRunes r) ≠ [] := by simp [callLine]
  rw [parseOlmo3FunctionCalls, htrim, if_neg hnil, split_single (newline_callLine hf hk hw), parseLines, htrim, if_neg hnil,
    parseOlmo3SingleFunctionCall, funcCallRegex_callLine hne hf hk hw]
  dsimp only
  rw [parseOlmo3Arguments_quoted parseFloat hk hr]
  rfl

/-- A quoted string comes back, and a text is split into parts of it, if and only if no rune has more than one byte. -/
theorem stringArguments_iff :
    (∀ f k : Bytes, f ≠ [] → IsWord f → IsWord k → ∀ r : List Char, (∀ c ∈ r, isControl c = false) →
      (parseOlmo3FunctionCalls parseFloat (callLine f k (ofRunes r)) =
          some (.ok [{ name := f, arguments := [(k, .string (ofRunes r))] }]) ↔ ∀ c ∈ r, c.toNat < 128)) ∧
      ∀ s : Bytes, GivesBack s ↔ ∀ r ∈ runes s, r.bytes.length = 1 := by
  refine ⟨fun f k hne hf hk r hr => ?_, givesBack_iff⟩
  rw [parseOlmo3FunctionCalls_callLine parseFloat hne hf hk hr, ← heads_ofRunes_iff]
  simp

theorem stringArguments_word :
    (parseOlmo3FunctionCalls (fun _ => (none : Option Unit)) (callLine (ascii "f") (ascii "k") (ofRunes "a\"b".toList)) =
        some (.ok [{ name := ascii "f", arguments := [(ascii "k", .string (ofRunes "a\"b".toList))] }]) ↔
      ∀ c ∈ "a\"b".toList, c.toNat < 128) ∧ (GivesBack (ascii "k=1,") ↔ ∀ r ∈ runes (ascii "k=1,"), r.bytes.length = 1) :=
  ⟨(stringArguments_iff fun _ => none).1 (ascii "f") (ascii "k") (by decide) (by decide) (by decide) "a\"b".toList (by decide),
    (stringArguments_iff fun _ => (none : Option Unit)).2 (ascii "k=1,")⟩

/-- An accented letter loses its second byte. -/
theorem accentedLetter_lost : isControl 'é' = false ∧
    parseOlmo3FunctionCalls (fun _ => (none : Option Unit)) (callLine (ascii "f") (ascii "k") (ofRunes ['é'])) ≠
      some (.ok [{ name := ascii "f", arguments := [(ascii "k", .string (ofRunes ['é']))] }]) := by
  refine ⟨by decide, ?_⟩
  rw [parseOlmo3FunctionCalls_callLine _ (by decide) (by decide) (by decide) (by decide)]
  intro h
  have hlost : heads (ofRunes ['é']) = ofRunes ['é'] := by simpa using h
  exact absurd hlost (by decide)

end Xdragon.Parsers.Olmo3
