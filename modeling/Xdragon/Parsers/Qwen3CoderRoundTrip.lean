import Xdragon.Parsers.Qwen3CoderDocument

/-!
# String arguments of Qwen3-Coder

A call with one string argument, written as the model writes it and parsed again. The argument comes back unless it holds a text
`<word=` that no `>` follows, for the expression that rewrites the tags of the call takes it for one of them.
-/

namespace Xdragon.Parsers.Qwen3Coder

open Xdragon.Lib

/-! ## The tokens of a value -/

/-- Every `<word=` in the value is followed by `>`. -/
def Kept (v : Str) : Prop := ∀ a tag b, v = a ++ '<' :: (tag ++ '=' :: b) → IsWord tag → b.head? = some '>'

/-- A tag that starts at a character of the value, or nothing changes there. -/
theorem kept_cons {c : Char} {v : Str} (h : qwenTagRegex (c :: (v ++ closing)) = none) : Kept (c :: v) ↔ Kept v := by
  constructor
  · intro hkept a tag b hv
    exact hkept (c :: a) tag b (congrArg _ hv)
  · intro hkept a tag b hv htag
    cases a with
    | cons x a => exact hkept a tag b (List.cons.inj hv).2 htag
    | nil =>
      obtain ⟨rfl, rfl⟩ := List.cons.inj hv
      by_contra hb
      have hgt : (b ++ closing).dropWhile (· ≠ '>') ≠ [] := by
        intro hnil
        have := List.dropWhile_eq_nil_iff.mp hnil '>' (List.mem_append_right _ (by decide))
        simp at this
      obtain ⟨rest, hrest, -⟩ := exists_until hgt
      have hvalue : (b ++ closing).takeWhile (· ≠ '>') ≠ [] := by
        intro hnil
        rw [hnil, List.nil_append] at hrest
        cases b with
        | nil => exact absurd (List.cons.inj hrest).1 (by decide)
        | cons x b => exact hb (congrArg some (List.cons.inj hrest).1)
      have hno : '>' ∉ (b ++ closing).takeWhile (· ≠ '>') := by
        intro hmem
        have := List.mem_takeWhile_imp hmem
        simp at this
      have hmatch := qwenTagRegex_tag htag hvalue hno rest
      have htext : tag ++ '=' :: (b ++ closing) = tag ++ '=' :: b ++ closing := by simp
      rw [← hrest, htext, h] at hmatch
      cases hmatch

/-- A tag that is rewritten starts in the value. It ends there too, or takes the first of the closing tags with it. -/
theorem tag_ends {tag value rest v : Str} (htag : IsWord tag) (hvalue : value ≠ []) (hno : '>' ∉ value)
    (h : v ++ closing = tag ++ '=' :: (value ++ '>' :: rest)) :
    ¬ Kept ('<' :: v) ∧ ((∃ v', v = tag ++ '=' :: (value ++ '>' :: v') ∧ rest = v' ++ closing) ∨
      (rest = "\n</function>".toList ∧ ∀ x ∈ value, x ∈ v ∨ x ∈ closing)) := by
  have hq : '\n' ∉ tag ++ ['='] := by
    intro hmem
    rcases List.mem_append.mp hmem with hmem | hmem
    · exact absurd (htag.2 _ hmem) (by decide)
    · exact absurd hmem (by decide)
  have h' : v ++ closing = (tag ++ ['=']) ++ (value ++ '>' :: rest) := by rw [h]; simp
  obtain ⟨b, hb, hrest⟩ := within_value hq h'
  rw [List.append_assoc, List.singleton_append] at hb
  subst hb
  constructor
  · intro hkept
    have hhead := hkept [] tag b rfl htag
    obtain ⟨b, rfl⟩ : ∃ b', b = '>' :: b' := by
      cases b with
      | nil => cases hhead
      | cons x b => exact ⟨b, by rw [Option.some.inj hhead]⟩
    obtain ⟨x, value, rfl⟩ := List.exists_cons_of_ne_nil hvalue
    obtain rfl := (List.cons.inj hrest).1
    exact hno (List.mem_cons_self ..)
  · obtain ⟨u, hu, hrest⟩ | ⟨u, hu, hrest⟩ := List.append_eq_append_iff.mp hrest
    · cases u with
      | nil => exact absurd (List.cons.inj hrest).1 (by decide)
      | cons x u =>
        obtain ⟨rfl, hrest'⟩ := List.cons.inj hrest
        exact .inl ⟨u, by rw [hu], hrest'⟩
    · -- `u` is what the value takes from the closing tags
      have hno' : '>' ∉ u := fun hmem => hno (hu ▸ List.mem_append_right _ hmem)
      obtain ⟨htake, hdrop⟩ := until_char hno' rest
      rw [← hrest] at hdrop htake
      have hdrop' : closing.dropWhile (· ≠ '>') = '>' :: "\n</function>".toList := by decide
      refine .inr ⟨(List.cons.inj (hdrop.symm.trans hdrop')).2, ?_⟩
      intro x hx
      rw [hu] at hx
      rcases List.mem_append.mp hx with hx | hx
      · exact .inl (List.mem_append_right _ (List.mem_cons_of_mem _ hx))
      · exact .inr ((List.takeWhile_prefix _).subset (htake.symm ▸ hx))

/-- The tokens behind a value. -/
def closingTokens : List Token := [.char '\n', .stop .parameter, .char '\n', .stop .function]

theorem escapeNodes_closing : escapeNodes (rewriteTags closing) = closingTokens.flatMap Token.render := by decide

theorem legal_writeTag {tag value : Str} (htag : IsWord tag) (hvalue : ∀ c ∈ value, isInCharacterRange c = true) :
    ∀ c ∈ writeTag tag value, Legal c := by
  intro c hc
  rcases List.mem_cons.mp hc with rfl | hc
  · decide
  rcases List.mem_append.mp hc with hc | hc
  · exact isWord_legal (htag.2 c hc)
  have hliteral : ∀ s : String, (∀ c ∈ s.toList, Legal c) → c ∈ s.toList → Legal c := fun s hs => hs c
  rcases List.mem_append.mp hc with hc | hc
  · exact hliteral _ (by decide) hc
  rcases List.mem_append.mp hc with hc | hc
  · exact (escapeText_mem hc).2.2 hvalue
  · exact hliteral _ (by decide) hc

/-- The value stays the text of its parameter and only one without a rewritten tag is unchanged, or it leaves the parameter open. -/
theorem value_tokens {v : Str} (hfree : TagFree v) (hlegal : ∀ c ∈ v, Legal c) :
    ∃ ts, (∀ t ∈ ts, t.Legal) ∧ escapeNodes (rewriteTags (v ++ closing)) = ts.flatMap Token.render ∧
      ((∃ w, ts = chars w ++ closingTokens ∧ (w = v ↔ Kept v)) ∨ (¬ Kept v ∧ Unclosed ts)) := by
  induction hn : v.length using Nat.strongRecOn generalizing v with
  | _ n ih =>
  cases v with
  | nil =>
    refine ⟨closingTokens, by decide, escapeNodes_closing, .inl ⟨[], rfl, iff_of_true rfl ?_⟩⟩
    intro a tag b hv
    exact absurd hv.symm (List.append_ne_nil_of_right_ne_nil _ (List.cons_ne_nil _ _))
  | cons c v =>
  rw [List.length_cons] at hn
  rw [List.cons_append]
  obtain ⟨tag, value, rest, htag, hvalue, hno, rfl, hv, h⟩ | ⟨hnone, h⟩ := rewriteTags_cases c (v ++ closing)
  · obtain ⟨hkept, ⟨v', rfl, rfl⟩ | ⟨rfl, hmem⟩⟩ := tag_ends htag hvalue hno hv
    · -- the whole tag is part of the value
      have hother : ∀ t : Tag, tag ≠ t.text := by
        rintro t rfl
        apply hfree [] [] t ('=' :: (value ++ '>' :: v')) rfl (.inl rfl) ⟨'=', rfl, .inr (.inl rfl)⟩
        exact List.mem_cons_of_mem _ (List.mem_append_right _ (List.mem_cons_self ..))
      have hlegal' : ∀ c ∈ value, isInCharacterRange c = true := fun c hc =>
        (hlegal c (List.mem_cons_of_mem _ (List.mem_append_right _ (List.mem_cons_of_mem _ (List.mem_append_left _ hc))))).1
      have hsuffix : '<' :: (tag ++ '=' :: (value ++ '>' :: v')) = ('<' :: (tag ++ '=' :: (value ++ ['>']))) ++ v' := by simp
      rw [hsuffix] at hfree hlegal
      obtain ⟨ts, hts, heq, hw⟩ := ih v'.length (by simp at hn; omega) hfree.suffix
        (fun c hc => hlegal c (List.mem_append_right _ hc)) rfl
      refine ⟨chars (writeTag tag value) ++ ts, ?_, ?_, ?_⟩
      · exact List.forall_mem_append.mpr ⟨legal_chars (legal_writeTag htag hlegal'), hts⟩
      · rw [h, escapeNodes_word htag hother, List.flatMap_append, render_chars, heq]
      · obtain ⟨w, rfl, -⟩ | ⟨-, hopen⟩ := hw
        · refine .inl ⟨writeTag tag value ++ w, by simp [chars], iff_of_false ?_ hkept⟩
          intro heq
          have heq : tag ++ ' ' :: ("name=\"".toList ++ (escapeText value ++ "\">".toList) ++ w) =
              tag ++ '=' :: (value ++ '>' :: v') := by
            rw [← (List.cons.inj heq).2]
            simp
          exact absurd (List.cons.inj (List.append_cancel_left heq)).1 (by decide)
        · exact .inr ⟨hkept, hopen.chars_append _⟩
    · -- the tag ends with the first of the closing tags
      have hlegal' : ∀ c ∈ value, isInCharacterRange c = true := by
        intro c hc
        rcases hmem c hc with hc | hc
        · exact (hlegal c (List.mem_cons_of_mem _ hc)).1
        · have hclosing : ∀ c ∈ closing, isInCharacterRange c = true := by decide
          exact hclosing c hc
      have hlast : escapeNodes (rewriteTags "\n</function>".toList) = ([.char '\n', .stop .function] : List Token).flatMap Token.render := by
        decide
      by_cases hother : ∀ t : Tag, tag ≠ t.text
      · refine ⟨chars (writeTag tag value) ++ [.char '\n', .stop .function], ?_, ?_, .inr ⟨hkept, ?_⟩⟩
        · exact List.forall_mem_append.mpr ⟨legal_chars (legal_writeTag htag hlegal'), by decide⟩
        · rw [h, escapeNodes_word htag hother, List.flatMap_append, render_chars, hlast]
        · exact Unclosed.chars_append (fun params => rfl) _
      · obtain ⟨t, rfl⟩ : ∃ t : Tag, tag = t.text := by
          by_contra hnot
          exact hother fun t ht => hnot ⟨t, ht⟩
        refine ⟨[.start t value, .char '\n', .stop .function], ?_, ?_, .inr ⟨hkept, ?_⟩⟩
        · exact List.forall_mem_cons.mpr ⟨hlegal', by decide⟩
        · rw [h, escapeNodes_start, hlast]
          rfl
        · intro params
          cases t <;> rfl
  · obtain ⟨ts, hts, heq, hw⟩ := ih v.length (by omega) (TagFree.suffix (a := [c]) hfree)
      (fun x hx => hlegal x (List.mem_cons_of_mem _ hx)) rfl
    have hchar : escapeNodes (c :: rewriteTags (v ++ closing)) = escapeNodeChar c ++ escapeNodes (rewriteTags (v ++ closing)) := by
      apply escapeNodes_none
      by_cases hc : c = '<'
      · subst hc
        exact no_tag hfree
      · exact qwenXMLTagRegex_ne hc _
    refine ⟨.char c :: ts, ?_, ?_, ?_⟩
    · exact List.forall_mem_cons.mpr ⟨hlegal c (List.mem_cons_self ..), hts⟩
    · rw [h, hchar, heq]
      rfl
    · obtain ⟨w, rfl, hw⟩ | ⟨hkept, hopen⟩ := hw
      · refine .inl ⟨c :: w, rfl, ?_⟩
        rw [kept_cons hnone, ← hw, List.cons_inj_right]
      · exact .inr ⟨fun hk => hkept ((kept_cons hnone).mp hk), fun params => hopen _⟩

/-! ## Calls with one string argument -/

/-- A name that a tag can give. -/
def IsName (s : Str) : Prop := s ≠ [] ∧ '>' ∉ s ∧ ∀ c ∈ s, isInCharacterRange c = true

instance (s : Str) : Decidable (IsName s) := inferInstanceAs (Decidable (_ ∧ _))

/-- `<function=f>`, `<parameter=p>`, the value, `</parameter>` and `</function>`, each on its own line. -/
def renderCall (f p v : Str) : Str :=
  "<function=".toList ++ (f ++ (">\n<parameter=".toList ++ (p ++ (">\n".toList ++ (v ++ closing)))))

/-- The tokens in front of a value. -/
def openingTokens (f p : Str) : List Token := [.start .function f, .char '\n', .start .parameter p, .char '\n']

theorem transformToXML_renderCall {f p : Str} (hf : IsName f) (hp : IsName p) (v : Str) :
    transformToXML (renderCall f p v) = (openingTokens f p).flatMap Token.render ++ escapeNodes (rewriteTags (v ++ closing)) := by
  have hrewrite : rewriteTags (renderCall f p v) =
      writeTag Tag.function.text f ++ '\n' :: (writeTag Tag.parameter.text p ++ '\n' :: rewriteTags (v ++ closing)) := by
    have hraw : renderCall f p v = '<' :: (Tag.function.text ++ '=' :: (f ++ '>' :: '\n' ::
        '<' :: (Tag.parameter.text ++ '=' :: (p ++ '>' :: '\n' :: (v ++ closing))))) := rfl
    rw [hraw, rewriteTags_tag Tag.function.word hf.1 hf.2.1, rewriteTags_ne (by decide),
      rewriteTags_tag Tag.parameter.word hp.1 hp.2.1, rewriteTags_ne (by decide)]
  have hline : ∀ s, escapeNodes ('\n' :: s) = '\n' :: escapeNodes s := fun s => escapeNodes_none (qwenXMLTagRegex_ne (by decide) s)
  rw [transformToXML, hrewrite, escapeNodes_start, hline, escapeNodes_start, hline]
  simp [openingTokens, Token.render, escapeNodeChar]

theorem decode_call (f p w : Str) : decode (openingTokens f p ++ (chars w ++ closingTokens)) =
    some { name := f, parameters := [⟨p, '\n' :: (w ++ ['\n'])⟩] } := by
  have hopen : decode (openingTokens f p ++ (chars w ++ closingTokens)) =
      (decodeFrom [.parameter] ([] ++ [⟨p, ['\n']⟩]) (chars w ++ closingTokens)).map fun parameters => { name := f, parameters } := rfl
  rw [hopen, decodeFrom_chars]
  rfl

theorem parseValue_string {F : Type} (d : Decoders F) (w : Str) : parseValue d ('\n' :: (w ++ ['\n'])) [typeString] =
    if toLower w = "null".toList then .null else .string (ofRunes w) := by
  have htrim : trimOneSuffix (trimOnePrefix ('\n' :: (w ++ ['\n']))) = w := by
    rw [trimOnePrefix, List.head?_cons, if_pos rfl, List.tail_cons, trimOneSuffix, List.getLast?_concat, if_pos rfl,
      List.dropLast_concat]
  have hskip : ∀ type (value fallback : Option (Value F)), type ≠ typeString → attempt [typeString] type value fallback = none :=
    fun type value fallback h => if_neg fun hmem => h (List.mem_singleton.mp hmem)
  have hne : [typeString] ≠ [] := List.cons_ne_nil _ _
  simp only [parseValue, htrim, if_neg hne]
  rw [hskip typeBoolean _ _ (by decide), hskip typeInteger _ _ (by decide), hskip typeNumber _ _ (by decide),
    hskip typeArray _ _ (by decide), hskip typeObject _ _ (by decide)]
  rfl

/-- A text in which neither a name nor a slash follows a `<`. -/
theorem tagFree_of_tails {v : Str} (h : ∀ t ∈ v.tails, t.head? = some '<' → t.tail.head? ∉ [some '/', some 'f', some 'p']) :
    TagFree v := by
  intro a slash tag b hv hslash
  have hhead : (slash ++ (tag.text ++ b)).head? ∈ [some '/', some 'f', some 'p'] := by
    have hname : (slash ++ (tag.text ++ b)).head? = (slash ++ tag.text).head? := by
      rcases hslash with rfl | rfl <;> cases tag <;> rfl
    rw [hname]
    rcases hslash with rfl | rfl <;> cases tag <;> decide
  exact absurd hhead (h _ ((List.mem_tails _ _).mpr ⟨a, hv.symm⟩) rfl)

/-- A string argument is returned if and only if every `<word=` in it is followed by `>`. -/
theorem parseToolCall_rendered_iff {F ε : Type} {unmarshal : Str → Except ε XMLFunctionCall} (hxml : Decodes unmarshal)
    (d : Decoders F) {tools : List Tool} {f p v : Str} (hf : IsName f) (hp : IsName p)
    (htype : paramType tools f p = [typeString]) (hlegal : ∀ c ∈ v, Legal c) (hfree : TagFree v)
    (hnull : toLower v ≠ "null".toList) :
    parseToolCall unmarshal d (renderCall f p v) tools =
      .ok { name := ofRunes f, arguments := [(ofRunes p, .string (ofRunes v))] } ↔ Kept v := by
  obtain ⟨ts, hts, heq, hw⟩ := value_tokens hfree hlegal
  have hopening : ∀ t ∈ openingTokens f p, t.Legal := by
    intro t ht
    simp only [openingTokens, List.mem_cons, List.not_mem_nil, or_false] at ht
    rcases ht with rfl | rfl | rfl | rfl
    · exact hf.2.2
    · exact (by decide : Legal '\n')
    · exact hp.2.2
    · exact (by decide : Legal '\n')
  have hall : ∀ t ∈ openingTokens f p ++ ts, t.Legal := List.forall_mem_append.mpr ⟨hopening, hts⟩
  have hdecode := hxml _ hall
  rw [List.flatMap_append, ← heq, ← transformToXML_renderCall hf hp] at hdecode
  unfold parseToolCall
  obtain ⟨w, rfl, hw⟩ | ⟨hkept, hopen⟩ := hw
  · rw [decode_call] at hdecode
    have hok : unmarshal (transformToXML (renderCall f p v)) =
        .ok { name := f, parameters := [⟨p, '\n' :: (w ++ ['\n'])⟩] } := by
      cases hu : unmarshal (transformToXML (renderCall f p v)) with
      | error e =>
        rw [hu] at hdecode
        cases hdecode
      | ok call =>
        rw [hu] at hdecode
        rw [Option.some.inj hdecode]
    rw [hok, ← hw]
    simp only [Except.map, List.foldl_cons, List.foldl_nil, htype, parseValue_string, setEntry]
    constructor
    · intro h
      have harguments := congrArg ToolCall.arguments (Except.ok.inj h)
      have hvalue := congrArg Prod.snd (List.cons.inj harguments).1
      simp only at hvalue
      split_ifs at hvalue
      have := congrArg toRunes (Value.string.inj hvalue)
      rwa [toRunes_ofRunes, toRunes_ofRunes] at this
    · rintro rfl
      rw [if_neg hnull]
  · refine iff_of_false ?_ hkept
    have hnone : decode (openingTokens f p ++ ts) = none := by
      have hunfold : decode (openingTokens f p ++ ts) =
          (decodeFrom [.parameter] [⟨p, ['\n']⟩] ts).map fun parameters => { name := f, parameters } := rfl
      rw [hunfold, hopen]
      rfl
    rw [hnone] at hdecode
    cases hu : unmarshal (transformToXML (renderCall f p v)) with
    | error e =>
      intro h
      cases h
    | ok call =>
      rw [hu] at hdecode
      cases hdecode

/-- Decoders that read no value. -/
def noDecoders : Decoders Unit where
  parseFloat _      := none
  whole _           := none
  unmarshalArray _  := none
  unmarshalObject _ := none

def writeTool : Tool where
  name       := "write".toList
  properties := some [("text".toList, { type := [typeString] })]

theorem parseToolCall_comparison :
    parseToolCall unmarshalTokens noDecoders (renderCall "write".toList "text".toList "a <= b && c".toList) [writeTool] =
      .ok { name := ofRunes "write".toList, arguments := [(ofRunes "text".toList, .string (ofRunes "a <= b && c".toList))] } ↔
    Kept "a <= b && c".toList :=
  parseToolCall_rendered_iff unmarshalTokens_decodes noDecoders (by decide) (by decide) rfl (by decide)
    (tagFree_of_tails (by decide)) (by decide)

/-- `<a=b>` comes back as `<a name="b">`. -/
theorem tagInValue_changed :
    Decodes unmarshalTokens ∧ IsName "write".toList ∧ IsName "text".toList ∧
    paramType [writeTool] "write".toList "text".toList = [typeString] ∧ (∀ c ∈ "<a=b>".toList, Legal c) ∧
    TagFree "<a=b>".toList ∧ toLower "<a=b>".toList ≠ "null".toList ∧
    parseToolCall unmarshalTokens noDecoders (renderCall "write".toList "text".toList "<a=b>".toList) [writeTool] ≠
      .ok { name := ofRunes "write".toList, arguments := [(ofRunes "text".toList, .string (ofRunes "<a=b>".toList))] } := by
  refine ⟨unmarshalTokens_decodes, by decide, by decide, rfl, by decide, tagFree_of_tails (by decide), by decide, ?_⟩
  have hvalue : parseToolCall unmarshalTokens noDecoders (renderCall "write".toList "text".toList "<a=b>".toList) [writeTool] =
      .ok {
        name      := ofRunes "write".toList
        arguments := [(ofRunes "text".toList, .string (ofRunes "<a name=\"b\">".toList))]
      } := rfl
  rw [hvalue]
  intro h
  have harguments := congrArg ToolCall.arguments (Except.ok.inj h)
  have hstring := Value.string.inj (congrArg Prod.snd (List.cons.inj harguments).1)
  exact absurd hstring (by decide)

end Xdragon.Parsers.Qwen3Coder
