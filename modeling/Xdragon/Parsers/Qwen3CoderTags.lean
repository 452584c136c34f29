import Xdragon.Parsers.Qwen3CoderXML

/-!
# The tags that Qwen3-Coder rewrites

Where the two expressions of `transformToXML` match, in a text that stands in front of the closing tags of a call.
-/

namespace Xdragon.Parsers.Qwen3Coder

open Xdragon.Lib

/-! ## The expressions -/

theorem takeWhile_of_forall {p : Char → Bool} {a : Str} (ha : ∀ c ∈ a, p c = true) {x : Char} (hx : p x = false) (s : Str) :
    (a ++ x :: s).takeWhile p = a ∧ (a ++ x :: s).dropWhile p = x :: s := by
  have hnot : ¬ p x = true := by simp [hx]
  rw [List.takeWhile_append_of_pos ha, List.dropWhile_append_of_pos ha, List.takeWhile_cons_of_neg hnot,
    List.dropWhile_cons_of_neg hnot, List.append_nil]
  exact ⟨rfl, rfl⟩

/-- What `[^>]+` and `[^"]*` read ends at the character. -/
theorem until_char {x : Char} {a : Str} (ha : x ∉ a) (s : Str) :
    (a ++ x :: s).takeWhile (· ≠ x) = a ∧ (a ++ x :: s).dropWhile (· ≠ x) = x :: s := by
  apply takeWhile_of_forall
  · intro c hc
    exact decide_eq_true fun h => ha (h ▸ hc)
  · exact decide_eq_false fun h => h rfl

theorem exists_until {x : Char} {s : Str} (h : s.dropWhile (· ≠ x) ≠ []) :
    ∃ rest, s = s.takeWhile (· ≠ x) ++ x :: rest ∧ s.dropWhile (· ≠ x) = x :: rest := by
  obtain ⟨y, rest, hrest⟩ := List.exists_cons_of_ne_nil h
  have hy : y = x := by
    have := List.head?_dropWhile_not (fun c => decide (c ≠ x)) s
    rw [hrest] at this
    simpa using this
  refine ⟨rest, ?_, hy ▸ hrest⟩
  rw [← hy, ← hrest, hy]
  exact List.takeWhile_append_dropWhile.symm

/-- A name of word characters. -/
def IsWord (tag : Str) : Prop := tag ≠ [] ∧ ∀ c ∈ tag, isWord c = true

theorem qwenTagRegex_tag {tag value : Str} (htag : IsWord tag) (hvalue : value ≠ []) (hno : '>' ∉ value) (rest : Str) :
    qwenTagRegex ('<' :: (tag ++ '=' :: (value ++ '>' :: rest))) = some (tag.length + value.length + 3, tag, value) := by
  obtain ⟨htake, hdrop⟩ := takeWhile_of_forall htag.2 (show isWord '=' = false by decide) (value ++ '>' :: rest)
  obtain ⟨htake', hdrop'⟩ := until_char hno rest
  simp only [qwenTagRegex, htake, hdrop, htake', hdrop']
  exact if_pos ⟨htag.1, hvalue, List.cons_ne_nil _ _⟩

theorem qwenTagRegex_eq_some {s tag value : Str} {n : Nat} (h : qwenTagRegex s = some (n, tag, value)) :
    IsWord tag ∧ value ≠ [] ∧ '>' ∉ value ∧ ∃ rest, s = '<' :: (tag ++ '=' :: (value ++ '>' :: rest)) := by
  unfold qwenTagRegex at h
  split at h
  · rename_i s
    split at h
    · rename_i s' hs'
      simp only at h
      split_ifs at h with hcond
      obtain ⟨htag, hvalue, hrest⟩ := hcond
      obtain ⟨rest, hs, -⟩ := exists_until hrest
      cases h
      refine ⟨⟨htag, fun c hc => List.mem_takeWhile_imp hc⟩, hvalue, ?_, rest, ?_⟩
      · intro hmem
        have := List.mem_takeWhile_imp hmem
        simp at this
      · rw [← hs, ← hs', List.takeWhile_append_dropWhile]
    · cases h
  · cases h

theorem qwenTagRegex_ne {c : Char} (hc : c ≠ '<') (s : Str) : qwenTagRegex (c :: s) = none := by
  unfold qwenTagRegex
  split
  · rename_i heq
    exact absurd (List.cons.inj heq).1 hc
  · rfl

/-- The two tags that are kept. -/
inductive Tag where
  | function
  | parameter
  deriving DecidableEq

def Tag.text : Tag → Str
  | .function => "function".toList
  | .parameter => "parameter".toList

theorem Tag.word (tag : Tag) : IsWord tag.text := by
  cases tag <;> exact ⟨List.cons_ne_nil _ _, by decide⟩

theorem behind_eq_some {pre s rest : Str} : behind pre s = some rest ↔ s = pre ++ rest := by
  unfold behind
  constructor
  · intro h
    split_ifs at h with hpre
    cases h
    exact (List.prefix_iff_eq_append.mp hpre).symm
  · rintro rfl
    rw [if_pos (List.prefix_append ..), List.drop_left]

theorem behindTag_eq_some {s rest : Str} (h : behindTag s = some rest) :
    ∃ (tag : Tag) (s' : Str), s = tag.text ++ s' ∧ behindName s' = some rest := by
  obtain ⟨s', hs', hrest⟩ := Option.bind_eq_some_iff.mp h
  obtain hs' | hs' := Option.or_eq_some_iff.mp hs'
  · exact ⟨.function, s', behind_eq_some.mp hs', hrest⟩
  · exact ⟨.parameter, s', behind_eq_some.mp hs'.2, hrest⟩

theorem behindTag_text (tag : Tag) (s : Str) : behindTag (tag.text ++ s) = behindName s := by
  cases tag with
  | function => rw [behindTag, show "function".toList = Tag.function.text from rfl, behind_eq_some.mpr rfl]; rfl
  | parameter =>
    have hnot : behind "function".toList (Tag.parameter.text ++ s) = none := rfl
    rw [behindTag, hnot, show "parameter".toList = Tag.parameter.text from rfl, behind_eq_some.mpr rfl]
    rfl

/-- What stands between `<` and the name of a tag. -/
def IsSlash (slash : Str) : Prop := slash = [] ∨ slash = ['/']

/-- A match shows a tag with something behind its name that the expression can read. -/
theorem qwenXMLTagRegex_none {s : Str}
    (h : ∀ slash (tag : Tag) s', IsSlash slash → s = slash ++ (tag.text ++ s') → behindName s' = none) :
    qwenXMLTagRegex ('<' :: s) = none := by
  have hnone : ∀ slash s', IsSlash slash → s = slash ++ s' → behindTag s' = none := by
    intro slash s' hslash hs
    rw [Option.eq_none_iff_forall_ne_some]
    intro rest hrest
    obtain ⟨tag, s'', hs'', hname⟩ := behindTag_eq_some hrest
    rw [h slash tag s'' hslash (hs'' ▸ hs)] at hname
    cases hname
  have hslash : behindSlash s = none := by
    unfold behindSlash
    split
    · exact hnone ['/'] _ (.inr rfl) rfl
    · exact hnone [] _ (.inl rfl) rfl
  simp only [qwenXMLTagRegex, hslash, Option.map_none]

theorem qwenXMLTagRegex_ne {c : Char} (hc : c ≠ '<') (s : Str) : qwenXMLTagRegex (c :: s) = none := by
  unfold qwenXMLTagRegex
  split
  · rename_i heq
    exact absurd (List.cons.inj heq).1 hc
  · rfl

/-- A name in quotation marks. -/
theorem behindName_quoted {name : Str} (hno : '"' ∉ name) (s : Str) :
    behindName (' ' :: ("name=\"".toList ++ (name ++ '"' :: '>' :: s))) = some s := by
  have hname : behind "name=\"".toList ("name=\"".toList ++ (name ++ '"' :: '>' :: s)) = some (name ++ '"' :: '>' :: s) :=
    behind_eq_some.mpr rfl
  have hblank : (' ' :: ("name=\"".toList ++ (name ++ '"' :: '>' :: s))).dropWhile isBlank =
      "name=\"".toList ++ (name ++ '"' :: '>' :: s) := rfl
  have hunfold : behindName (' ' :: ("name=\"".toList ++ (name ++ '"' :: '>' :: s))) =
      (behind "name=\"".toList ((' ' :: ("name=\"".toList ++ (name ++ '"' :: '>' :: s))).dropWhile isBlank)).bind
        fun s => behind "\">".toList (s.dropWhile (· ≠ '"')) := rfl
  rw [hunfold, hblank, hname, Option.bind_some, (until_char hno ('>' :: s)).2]
  exact behind_eq_some.mpr rfl

/-! ## The rewritten text -/

theorem rewriteTags_none {c : Char} {s : Str} (h : qwenTagRegex (c :: s) = none) : rewriteTags (c :: s) = c :: rewriteTags s :=
  rewrite_none h

theorem rewriteTags_ne {c : Char} (hc : c ≠ '<') (s : Str) : rewriteTags (c :: s) = c :: rewriteTags s :=
  rewriteTags_none (qwenTagRegex_ne hc s)

theorem rewriteTags_tag {tag value : Str} (htag : IsWord tag) (hvalue : value ≠ []) (hno : '>' ∉ value) (rest : Str) :
    rewriteTags ('<' :: (tag ++ '=' :: (value ++ '>' :: rest))) = writeTag tag value ++ rewriteTags rest := by
  have hdrop : ('<' :: (tag ++ '=' :: (value ++ '>' :: rest))).drop (tag.length + value.length + 3) = rest := by
    have heq : '<' :: (tag ++ '=' :: (value ++ '>' :: rest)) = ('<' :: (tag ++ '=' :: (value ++ ['>']))) ++ rest := by simp
    rw [heq]
    apply List.drop_left'
    simp only [List.length_cons, List.length_append, List.length_nil]
    omega
  unfold rewriteTags
  rw [rewrite_some (qwenTagRegex_tag htag hvalue hno rest) (List.cons_ne_nil _ _) (by omega), hdrop]

/-- The two ways in which a text is rewritten: a tag at its start, or the character that stands there. -/
theorem rewriteTags_cases (c : Char) (s : Str) :
    (∃ tag value rest, IsWord tag ∧ value ≠ [] ∧ '>' ∉ value ∧ c = '<' ∧ s = tag ++ '=' :: (value ++ '>' :: rest) ∧
      rewriteTags (c :: s) = writeTag tag value ++ rewriteTags rest) ∨
    (qwenTagRegex (c :: s) = none ∧ rewriteTags (c :: s) = c :: rewriteTags s) := by
  cases hmatch : qwenTagRegex (c :: s) with
  | none => exact .inr ⟨rfl, rewriteTags_none hmatch⟩
  | some m =>
    obtain ⟨n, tag, value⟩ := m
    obtain ⟨htag, hvalue, hno, rest, hs⟩ := qwenTagRegex_eq_some hmatch
    obtain ⟨rfl, rfl⟩ := List.cons.inj hs
    exact .inl ⟨tag, value, rest, htag, hvalue, hno, rfl, rfl, rewriteTags_tag htag hvalue hno rest⟩

theorem head_rewriteTags (s : Str) : (rewriteTags s).head? = s.head? := by
  cases s with
  | nil => rfl
  | cons c s =>
    obtain ⟨tag, value, rest, -, -, -, rfl, -, h⟩ | ⟨-, h⟩ := rewriteTags_cases c s
    · rw [h]
      rfl
    · rw [h]
      rfl

/-- What a rewritten text begins with stood there before, if no tag can start in it. -/
theorem rewriteTags_begins {q s : Str} (hq : '<' ∉ q) {t : Str} (h : rewriteTags s = q ++ t) :
    ∃ s', s = q ++ s' ∧ t = rewriteTags s' := by
  induction q generalizing s with
  | nil => exact ⟨s, rfl, h.symm⟩
  | cons c q ih =>
    rw [List.mem_cons, not_or] at hq
    have hhead := head_rewriteTags s
    rw [h] at hhead
    cases s with
    | nil => cases hhead
    | cons d s =>
      obtain rfl : c = d := Option.some.inj hhead
      rw [rewriteTags_ne (Ne.symm hq.1)] at h
      obtain ⟨s', rfl, ht⟩ := ih hq.2 (List.cons.inj h).2
      exact ⟨s', rfl, ht⟩

/-! ## A value in front of the closing tags -/

/-- What stands behind a value. -/
def closing : Str := "\n</parameter>\n</function>".toList

theorem closing_eq : closing = '\n' :: '<' :: "/parameter>\n</function>".toList := rfl

/-- A text that holds no tag of a function or of a parameter, neither an opening nor a closing one. -/
def TagFree (v : Str) : Prop := ∀ a slash (tag : Tag) b, v = a ++ '<' :: (slash ++ (tag.text ++ b)) → IsSlash slash →
  (∃ c, b.head? = some c ∧ (c = '>' ∨ c = '=' ∨ isBlank c = true)) → '>' ∉ b

theorem TagFree.suffix {a v : Str} (h : TagFree (a ++ v)) : TagFree v := by
  intro b slash tag rest hv
  apply h (a ++ b) slash tag rest
  rw [hv, List.append_assoc]

theorem escapeChar_head (c : Char) : (escapeChar c).head? ≠ some '>' ∧ escapeChar c ≠ [] := by
  unfold escapeChar
  split <;> try exact ⟨by decide, by decide⟩
  rename_i hgt _ _ _
  split_ifs
  · exact ⟨fun h => hgt (Option.some.inj h), List.cons_ne_nil _ _⟩
  · exact ⟨by decide, by decide⟩

/-- The first quotation mark of a rewritten text is not the last character of a tag. -/
theorem first_quote {v : Str} (hv : '>' ∉ v) : ¬ "\">".toList <+: (rewriteTags (v ++ closing)).dropWhile (· ≠ '"') := by
  induction v with
  | nil => decide
  | cons c v ih =>
    rw [List.mem_cons, not_or] at hv
    rw [List.cons_append]
    obtain ⟨tag, value, rest, htag, hvalue, -, rfl, -, h⟩ | ⟨-, h⟩ := rewriteTags_cases c (v ++ closing)
    · rw [h]
      obtain ⟨x, value, rfl⟩ := List.exists_cons_of_ne_nil hvalue
      -- the quotation mark in front of the value of the written tag
      have hnot : '"' ∉ '<' :: (tag ++ " name=".toList) := by
        intro hmem
        rcases List.mem_cons.mp hmem with heq | hmem
        · exact absurd heq (by decide)
        rcases List.mem_append.mp hmem with hmem | hmem
        · exact absurd (htag.2 _ hmem) (by decide)
        · exact absurd hmem (by decide)
      have hdrop := (until_char hnot (escapeText (x :: value) ++ "\">".toList ++ rewriteTags rest)).2
      have hwrite : writeTag tag (x :: value) ++ rewriteTags rest =
          ('<' :: (tag ++ " name=".toList)) ++ '"' :: (escapeText (x :: value) ++ "\">".toList ++ rewriteTags rest) := by
        simp [writeTag]
      rw [hwrite, hdrop]
      obtain ⟨hhead, hne⟩ := escapeChar_head x
      obtain ⟨y, ys, hy⟩ := List.exists_cons_of_ne_nil hne
      rw [hy] at hhead
      rintro ⟨t, ht⟩
      rw [escapeText, List.flatMap_cons, hy] at ht
      exact hhead (congrArg some (List.cons.inj (List.cons.inj ht).2).1.symm)
    · rw [h]
      by_cases hc : c = '"'
      · subst hc
        rw [List.dropWhile_cons_of_neg (by decide)]
        rintro ⟨t, ht⟩
        have hhead := head_rewriteTags (v ++ closing)
        rw [← (List.cons.inj ht).2] at hhead
        cases v with
        | nil =>
          have hhead : some '>' = some '\n' := hhead
          exact absurd hhead (by decide)
        | cons d v =>
          obtain rfl : '>' = d := Option.some.inj hhead
          exact hv.2 (List.mem_cons_self ..)
      · rw [List.dropWhile_cons_of_pos (by simpa using hc)]
        exact ih hv.2

theorem behindName_cases {s rest : Str} (h : behindName s = some rest) :
    s = '>' :: rest ∨ ∃ c blanks s', isBlank c = true ∧ (∀ x ∈ blanks, isBlank x = true) ∧
      s = c :: blanks ++ ("name=\"".toList ++ s') ∧ "\">".toList <+: s'.dropWhile (· ≠ '"') := by
  unfold behindName at h
  split at h
  · cases h
    exact .inl rfl
  · rename_i c s _
    split_ifs at h with hblank
    obtain ⟨s', hname, hquote⟩ := Option.bind_eq_some_iff.mp h
    refine .inr ⟨c, s.takeWhile isBlank, s', hblank, fun x hx => List.mem_takeWhile_imp hx, ?_, ?_⟩
    · rw [List.dropWhile_cons_of_pos hblank] at hname
      rw [← behind_eq_some.mp hname, List.cons_append, List.takeWhile_append_dropWhile]
    · exact ⟨rest, (behind_eq_some.mp hquote).symm⟩
  · cases h

/-- A text without the characters that the closing tags start with lies in front of them. -/
theorem within_value {v q s : Str} (hq : '\n' ∉ q) (h : v ++ closing = q ++ s) : ∃ v', v = q ++ v' ∧ s = v' ++ closing := by
  obtain ⟨u, hv, hs⟩ | ⟨u, hq', hs⟩ := List.append_eq_append_iff.mp h.symm
  · exact ⟨u, hv, hs⟩
  · cases u with
    | nil => exact ⟨[], by rw [hq']; simp, by simpa using hs.symm⟩
    | cons c u =>
      obtain rfl : '\n' = c := (List.cons.inj hs).1
      exact absurd (hq' ▸ List.mem_append_right _ (List.mem_cons_self ..)) hq

/-- A value that holds no tag is not read as one when it is rewritten. -/
theorem no_tag {v : Str} (hfree : TagFree ('<' :: v)) : qwenXMLTagRegex ('<' :: rewriteTags (v ++ closing)) = none := by
  apply qwenXMLTagRegex_none
  intro slash tag s hslash hs
  have hopen : '<' ∉ slash ++ tag.text ∧ '\n' ∉ slash ++ tag.text := by
    rcases hslash with rfl | rfl <;> cases tag <;> decide
  rw [← List.append_assoc] at hs
  obtain ⟨s', hs', rfl⟩ := rewriteTags_begins hopen.1 hs
  obtain ⟨v', rfl, rfl⟩ := within_value hopen.2 hs'
  have hfree' : (∃ c, v'.head? = some c ∧ (c = '>' ∨ c = '=' ∨ isBlank c = true)) → '>' ∉ v' :=
    hfree [] slash tag v' (by rw [List.nil_append, List.append_assoc]) hslash
  rw [Option.eq_none_iff_forall_ne_some]
  intro rest hrest
  have hhead := head_rewriteTags (v' ++ closing)
  obtain hgt | ⟨c, blanks, t, hc, hblanks, ht, hquote⟩ := behindName_cases hrest
  · rw [hgt] at hhead
    cases v' with
    | nil =>
      have hhead : some '>' = some '\n' := hhead
      exact absurd hhead (by decide)
    | cons d v' =>
      obtain rfl : '>' = d := Option.some.inj hhead
      exact hfree' ⟨'>', rfl, .inl rfl⟩ (List.mem_cons_self ..)
  · have hname : '<' ∉ (c :: blanks) ++ "name=\"".toList := by
      intro hmem
      rcases List.mem_append.mp hmem with hmem | hmem
      · rcases List.mem_cons.mp hmem with heq | hmem
        · exact absurd (heq ▸ hc) (by decide)
        · exact absurd (hblanks _ hmem) (by decide)
      · exact absurd hmem (by decide)
    rw [← List.append_assoc] at ht
    obtain ⟨s'', hs'', rfl⟩ := rewriteTags_begins hname ht
    -- the blanks and what follows them lie in the value, for `<` follows the line break behind it
    obtain ⟨u, hu, hs''⟩ | ⟨u, hu, hs''⟩ := List.append_eq_append_iff.mp hs''.symm
    · subst hs''
      apply first_quote (fun hmem => ?_) hquote
      apply hfree' ⟨c, by rw [hu]; rfl, .inr (.inr hc)⟩
      rw [hu]
      exact List.mem_append_right _ hmem
    · rw [closing_eq] at hs''
      cases u with
      | nil =>
        rw [List.append_nil] at hu
        apply first_quote (v := []) (by decide)
        rwa [List.nil_append, closing_eq, hs'', List.nil_append]
      | cons x u =>
        obtain ⟨rfl, hu'⟩ := List.cons.inj hs''
        cases u with
        | nil =>
          have hlast := congrArg List.getLast? hu
          rw [List.getLast?_append_of_ne_nil _ (by decide), List.getLast?_concat] at hlast
          exact absurd hlast (by decide)
        | cons y u =>
          obtain rfl : '<' = y := (List.cons.inj hu').1
          exact absurd (hu ▸ List.mem_append_right _ (List.mem_cons_of_mem _ (List.mem_cons_self ..))) hname

end Xdragon.Parsers.Qwen3Coder
