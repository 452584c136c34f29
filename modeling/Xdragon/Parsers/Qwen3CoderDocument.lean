import Mathlib.Data.List.ModifyLast
import Xdragon.Parsers.Qwen3CoderTags

/-!
# The XML documents of Qwen3-Coder

What `encoding/xml` is assumed to read from the document of a call, and a decoder that reads it.
-/

namespace Xdragon.Parsers.Qwen3Coder

open Xdragon.Lib

/-! ## Tokens -/

/-- What `encoding/xml` finds in a text: a character, or a tag. -/
inductive Token where
  | char (c : Char)
  | start (tag : Tag) (name : Str)
  | stop (tag : Tag)

def Token.render : Token → Str
  | .char c => escapeNodeChar c
  | .start tag name => writeTag tag.text name
  | .stop tag => '<' :: '/' :: (tag.text ++ ['>'])

/-- A character that stands in XML text as it is. -/
def Legal (c : Char) : Prop := isInCharacterRange c = true ∧ c ≠ '\r'

instance (c : Char) : Decidable (Legal c) := inferInstanceAs (Decidable (_ ∧ _))

def Token.Legal : Token → Prop
  | .char c => Qwen3Coder.Legal c
  | .start _ name => ∀ c ∈ name, isInCharacterRange c = true
  | .stop _ => True

instance : (t : Token) → Decidable t.Legal
  | .char c => inferInstanceAs (Decidable (Qwen3Coder.Legal c))
  | .start _ name => inferInstanceAs (Decidable (∀ c ∈ name, isInCharacterRange c = true))
  | .stop _ => .isTrue trivial

/-- The last parameter takes one more character. -/
def addChar (c : Char) (params : List XMLParameter) : List XMLParameter :=
  params.modifyLast fun p => { p with value := p.value ++ [c] }

/-- The parameters of a function with the elements that are open in it, the innermost one first. The value of a parameter is the
text that stands directly in it, and other elements are skipped. -/
def decodeFrom (opened : List Tag) (params : List XMLParameter) : List Token → Option (List XMLParameter)
  | [] => none
  | .char c :: ts => decodeFrom opened (if opened = [.parameter] then addChar c params else params) ts
  | .start tag name :: ts =>
    decodeFrom (tag :: opened) (if opened = [] ∧ tag = .parameter then params ++ [⟨name, []⟩] else params) ts
  | .stop tag :: ts =>
    match opened with
    | [] => if tag = .function then some params else none
    | top :: opened => if tag = top then decodeFrom opened params ts else none

/-- What `xml.Unmarshal` reads into a `XMLFunctionCall`. -/
def decode : List Token → Option XMLFunctionCall
  | .char _ :: ts => decode ts
  | .start .function name :: ts => (decodeFrom [] [] ts).map fun parameters => { name, parameters }
  | _ => none

/-- The decoder reads the tags, and returns the escaped text between them. -/
def Decodes {ε : Type} (unmarshal : Str → Except ε XMLFunctionCall) : Prop :=
  ∀ ts : List Token, (∀ t ∈ ts, t.Legal) → (unmarshal (ts.flatMap Token.render)).toOption = decode ts

def chars (s : Str) : List Token := s.map .char

theorem render_chars (s : Str) : (chars s).flatMap Token.render = s.flatMap escapeNodeChar := List.flatMap_map ..

theorem legal_chars {s : Str} (h : ∀ c ∈ s, Legal c) : ∀ t ∈ chars s, t.Legal := by
  intro t ht
  obtain ⟨c, hc, rfl⟩ := List.mem_map.mp ht
  exact h c hc

theorem decodeFrom_chars (name value s : Str) (params : List XMLParameter) (ts : List Token) :
    decodeFrom [.parameter] (params ++ [⟨name, value⟩]) (chars s ++ ts) =
      decodeFrom [.parameter] (params ++ [⟨name, value ++ s⟩]) ts := by
  induction s generalizing value with
  | nil => rw [List.append_nil]; rfl
  | cons c s ih =>
    have hadd : addChar c (params ++ [⟨name, value⟩]) = params ++ [⟨name, value ++ [c]⟩] := by
      rw [addChar, List.modifyLast_concat]
    rw [chars, List.map_cons, List.cons_append, decodeFrom, if_pos rfl, hadd, ← chars, ih, List.append_assoc]
    rfl

/-- What ends without closing the parameter it stands in. -/
def Unclosed (ts : List Token) : Prop := ∀ params, decodeFrom [.parameter] params ts = none

theorem Unclosed.chars_append {ts : List Token} (h : Unclosed ts) (s : Str) : Unclosed (chars s ++ ts) := by
  induction s with
  | nil => exact h
  | cons c s ih => exact fun params => ih _

/-! ## Escaped text -/

theorem escapeNodes_none {c : Char} {s : Str} (h : qwenXMLTagRegex (c :: s) = none) :
    escapeNodes (c :: s) = escapeNodeChar c ++ escapeNodes s := rewrite_none h

theorem escapeChar_mem {c x : Char} (hx : x ∈ escapeChar c) : x ≠ '<' ∧ x ≠ '"' ∧ (isInCharacterRange c = true → Legal x) := by
  unfold escapeChar at hx
  have hentity : ∀ s : String, (∀ x ∈ s.toList, x ≠ '<' ∧ x ≠ '"' ∧ Legal x) → x ∈ s.toList →
      x ≠ '<' ∧ x ≠ '"' ∧ (isInCharacterRange c = true → Legal x) :=
    fun s hs hx => ⟨(hs x hx).1, (hs x hx).2.1, fun _ => (hs x hx).2.2⟩
  split at hx <;> try exact hentity _ (by decide) hx
  rename_i hquote _ _ hlt _ _ _ hcr
  split_ifs at hx with hrange
  · obtain rfl := List.mem_singleton.mp hx
    exact ⟨hlt, hquote, fun h => ⟨h, hcr⟩⟩
  · obtain rfl := List.mem_singleton.mp hx
    exact ⟨by decide, by decide, fun h => absurd h hrange⟩

theorem escapeText_mem {s : Str} {x : Char} (hx : x ∈ escapeText s) :
    x ≠ '<' ∧ x ≠ '"' ∧ ((∀ c ∈ s, isInCharacterRange c = true) → Legal x) := by
  obtain ⟨c, hc, hx⟩ := List.mem_flatMap.mp hx
  obtain ⟨hlt, hquote, hlegal⟩ := escapeChar_mem hx
  exact ⟨hlt, hquote, fun h => hlegal (h c hc)⟩

theorem isWord_legal {c : Char} (h : isWord c = true) : Legal c := by
  have h : (decide (c.val ≥ 'A'.val ∧ c.val ≤ 'Z'.val) || (decide (c.val ≥ 'a'.val) && decide (c.val ≤ 'z'.val)) ||
      (decide (c.val ≥ '0'.val) && decide (c.val ≤ '9'.val)) || c == '_') = true := h
  simp only [Bool.or_eq_true, Bool.and_eq_true, decide_eq_true_eq, beq_iff_eq, UInt32.le_iff_toNat_le, ge_iff_le] at h
  have hlow : 0x20 ≤ c.toNat ∧ c.toNat ≤ 0xfffd := by
    rcases h with ((h | h) | h) | rfl
    · exact ⟨Nat.le_trans (by decide) h.1, Nat.le_trans h.2 (by decide)⟩
    · exact ⟨Nat.le_trans (by decide) h.1, Nat.le_trans h.2 (by decide)⟩
    · exact ⟨Nat.le_trans (by decide) h.1, Nat.le_trans h.2 (by decide)⟩
    · exact ⟨by decide, by decide⟩
  constructor
  · simp only [isInCharacterRange, Bool.or_eq_true, Bool.and_eq_true, decide_eq_true_eq]
    exact .inl (.inr hlow)
  · rintro rfl
    exact absurd hlow.1 (by decide)

/-- A tag that is kept as it is written. -/
theorem escapeNodes_start (tag : Tag) (name s : Str) :
    escapeNodes (writeTag tag.text name ++ s) = writeTag tag.text name ++ escapeNodes s := by
  have hbehind : behindSlash (tag.text ++ (" name=\"".toList ++ (escapeText name ++ "\">".toList)) ++ s) = some s := by
    have hslash : ∀ t, behindSlash (tag.text ++ t) = behindTag (tag.text ++ t) := by
      intro t
      cases tag <;> rfl
    have htext : tag.text ++ (" name=\"".toList ++ (escapeText name ++ "\">".toList)) ++ s =
        tag.text ++ ' ' :: ("name=\"".toList ++ (escapeText name ++ '"' :: '>' :: s)) := by
      simp
    rw [htext, hslash, behindTag_text, behindName_quoted fun h => (escapeText_mem h).2.1 rfl]
  have hmatch : qwenXMLTagRegex (writeTag tag.text name ++ s) =
      some ((writeTag tag.text name).length, writeTag tag.text name) := by
    have hlength : (tag.text ++ (" name=\"".toList ++ (escapeText name ++ "\">".toList)) ++ s).length + 1 - s.length =
        (writeTag tag.text name).length := by
      rw [List.length_append, writeTag, List.length_cons]
      omega
    rw [writeTag, List.cons_append, qwenXMLTagRegex, hbehind, Option.map_some, hlength, ← List.cons_append, ← writeTag,
      List.take_left]
  unfold escapeNodes
  rw [rewrite_some hmatch (by simp [writeTag]) (by simp [writeTag]), id, List.drop_left]

/-- A tag with another name is text. -/
theorem escapeNodes_word {tag : Str} (htag : IsWord tag) (hother : ∀ t : Tag, tag ≠ t.text) (value s : Str) :
    escapeNodes (writeTag tag value ++ s) = (writeTag tag value).flatMap escapeNodeChar ++ escapeNodes s := by
  unfold escapeNodes
  apply rewrite_append
  intro u x w hw
  by_cases hx : x = '<'
  · subst hx
    cases u with
    | cons y u =>
      -- no second `<` stands in a written tag
      have hmem : '<' ∈ tag ++ (" name=\"".toList ++ (escapeText value ++ "\">".toList)) := by
        rw [(List.cons.inj hw).2]
        exact List.mem_append_right _ (List.mem_cons_self ..)
      exfalso
      rcases List.mem_append.mp hmem with hmem | hmem
      · exact absurd (htag.2 _ hmem) (by decide)
      rcases List.mem_append.mp hmem with hmem | hmem
      · exact absurd hmem (by decide)
      rcases List.mem_append.mp hmem with hmem | hmem
      · exact (escapeText_mem hmem).1 rfl
      · exact absurd hmem (by decide)
    | nil =>
      obtain rfl := (List.cons.inj hw).2
      apply qwenXMLTagRegex_none
      intro slash t s' hslash hs'
      obtain ⟨c, tag', rfl⟩ := List.exists_cons_of_ne_nil htag.1
      rcases hslash with rfl | rfl
      · rw [List.nil_append, List.append_assoc] at hs'
        obtain ⟨u, hu, hs'⟩ | ⟨u, hu, hs'⟩ := List.append_eq_append_iff.mp hs'
        · -- the name of the tag is a proper part of the one that is kept
          cases u with
          | nil => exact absurd (hu.trans (List.append_nil _)).symm (hother t)
          | cons y u =>
            obtain rfl : ' ' = y := (List.cons.inj hs').1
            have hspace := t.word.2 ' ' (hu ▸ List.mem_append_right _ (List.mem_cons_self ..))
            exact absurd hspace (by decide)
        · cases u with
          | nil => exact absurd (hu.trans (List.append_nil _)) (hother t)
          | cons y u =>
            have hy := htag.2 y (hu ▸ List.mem_append_right _ (List.mem_cons_self ..))
            rw [hs', List.cons_append]
            unfold behindName
            split
            · rename_i heq
              rw [(List.cons.inj heq).1] at hy
              exact absurd hy (by decide)
            · rename_i heq
              rw [← (List.cons.inj heq).1, if_neg]
              intro hblank
              rw [isBlank] at hblank
              simp only [Bool.or_eq_true, beq_iff_eq] at hblank
              rcases hblank with (((rfl | rfl) | rfl) | rfl) | rfl <;> exact absurd hy (by decide)
            · rfl
      · obtain rfl := (List.cons.inj hs').1
        exact absurd (htag.2 '/' (List.mem_cons_self ..)) (by decide)
  · exact qwenXMLTagRegex_ne hx _

/-! ## A decoder -/

def entities : List (Str × Char) := [("&#34;".toList, '"'), ("&#39;".toList, '\''), ("&amp;".toList, '&'), ("&lt;".toList, '<'),
  ("&gt;".toList, '>'), ("&#x9;".toList, '\t'), ("&#xA;".toList, '\n'), ("&#xD;".toList, '\r')]

/-- A character of a text, written out or as an entity, and what is behind it. -/
def charAt : Str → Option (Char × Str)
  | [] => none
  | c :: s => if c = '&' then entities.findSome? fun e => (behind e.1 (c :: s)).map (e.2, ·) else some (c, s)

/-- The text up to a quotation mark, and what is behind it. -/
def quotedFrom : Nat → Str → Option (Str × Str)
  | 0, _ => none
  | n + 1, s =>
    if s.head? = some '"' then some ([], s.tail)
    else (charAt s).bind fun c => (quotedFrom n c.2).map fun q => (c.1 :: q.1, q.2)

def startAt (tag : Tag) (s : Str) : Option (Token × Str) :=
  (behind ('<' :: (tag.text ++ " name=\"".toList)) s).bind fun s => (quotedFrom s.length s).bind fun q =>
    (behind ">".toList q.2).map (.start tag q.1, ·)

def stopAt (tag : Tag) (s : Str) : Option (Token × Str) := (behind (Token.stop tag).render s).map (.stop tag, ·)

/-- The token at the start of a text, and what is behind it. -/
def tokenAt (s : Str) : Option (Token × Str) :=
  if s.head? = some '<' then
    (stopAt .function s).or ((stopAt .parameter s).or ((startAt .function s).or (startAt .parameter s)))
  else (charAt s).map fun c => (.char c.1, c.2)

def tokensFrom : Nat → Str → Option (List Token)
  | _, [] => some []
  | 0, _ => none
  | n + 1, s => (tokenAt s).bind fun t => (tokensFrom n t.2).map (t.1 :: ·)

/-- A decoder of documents that consist of tokens. -/
def unmarshalTokens (s : Str) : Except Unit XMLFunctionCall := (((tokensFrom s.length s).bind decode).map .ok).getD (.error ())

theorem charAt_escapeNodeChar (c : Char) (s : Str) : charAt (escapeNodeChar c ++ s) = some (c, s) := by
  unfold escapeNodeChar
  split
  · rfl
  · rfl
  · rfl
  · rename_i hamp _ _
    exact if_neg hamp

theorem charAt_escapeChar {c : Char} (hc : isInCharacterRange c = true) (s : Str) : charAt (escapeChar c ++ s) = some (c, s) := by
  unfold escapeChar
  split <;> try rfl
  rename_i hamp _ _ _ _ _
  rw [if_pos hc]
  exact if_neg hamp

theorem quotedFrom_escapeText {name : Str} (hname : ∀ c ∈ name, isInCharacterRange c = true) (s : Str) {n : Nat}
    (hn : name.length < n) : quotedFrom n (escapeText name ++ '"' :: s) = some (name, s) := by
  induction name generalizing n with
  | nil =>
    obtain ⟨n, rfl⟩ := Nat.exists_eq_add_of_lt hn
    rfl
  | cons c name ih =>
    obtain ⟨n, rfl⟩ : ∃ m, n = m + 1 := ⟨n - 1, by omega⟩
    have htext : escapeText (c :: name) ++ '"' :: s = escapeChar c ++ (escapeText name ++ '"' :: s) := by simp [escapeText]
    have hhead : (escapeChar c ++ (escapeText name ++ '"' :: s)).head? ≠ some '"' := by
      obtain ⟨y, ys, hy⟩ := List.exists_cons_of_ne_nil (escapeChar_head c).2
      rw [hy]
      intro h
      exact (escapeChar_mem (hy ▸ List.mem_cons_self ..)).2.1 (Option.some.inj h)
    rw [htext, quotedFrom, if_neg hhead, charAt_escapeChar (hname c (List.mem_cons_self ..)), Option.bind_some,
      ih (fun x hx => hname x (List.mem_cons_of_mem _ hx)) (by simp at hn; omega)]
    rfl

theorem length_escapeText (s : Str) : s.length ≤ (escapeText s).length := by
  induction s with
  | nil => exact Nat.le_refl _
  | cons c s ih =>
    have := List.length_pos_iff.mpr (escapeChar_head c).2
    rw [escapeText, List.flatMap_cons, List.length_append, List.length_cons, ← escapeText]
    omega

theorem startAt_render (tag : Tag) {name : Str} (hname : ∀ c ∈ name, isInCharacterRange c = true) (s : Str) :
    startAt tag ((Token.start tag name).render ++ s) = some (.start tag name, s) := by
  have htext : (Token.start tag name).render ++ s =
      ('<' :: (tag.text ++ " name=\"".toList)) ++ (escapeText name ++ '"' :: '>' :: s) := by
    simp [Token.render, writeTag]
  have hlength := length_escapeText name
  rw [htext, startAt, behind_eq_some.mpr rfl, Option.bind_some, quotedFrom_escapeText hname _ (by simp; omega), Option.bind_some]
  have hgt : behind ">".toList ('>' :: s) = some s := behind_eq_some.mpr rfl
  simp only [hgt, Option.map_some]

theorem stopAt_render (tag : Tag) (s : Str) : stopAt tag ((Token.stop tag).render ++ s) = some (.stop tag, s) := by
  rw [stopAt, behind_eq_some.mpr rfl]
  rfl

theorem tokenAt_tag {s : Str} (h : s.head? = some '<') : tokenAt s =
    (stopAt .function s).or ((stopAt .parameter s).or ((startAt .function s).or (startAt .parameter s))) := if_pos h

theorem tokenAt_render {t : Token} (ht : t.Legal) (s : Str) : tokenAt (t.render ++ s) = some (t, s) := by
  cases t with
  | char c =>
    have hhead : (escapeNodeChar c ++ s).head? ≠ some '<' := by
      unfold escapeNodeChar
      split <;> try exact fun h => absurd (Option.some.inj h) (by decide)
      rename_i hlt _
      exact fun h => hlt (Option.some.inj h)
    rw [Token.render, tokenAt, if_neg hhead, charAt_escapeNodeChar]
    rfl
  | start tag name =>
    have hstop : ∀ t, stopAt t ((Token.start tag name).render ++ s) = none := by
      intro t
      cases t <;> cases tag <;> rfl
    have hstart : ∀ t, t ≠ tag → startAt t ((Token.start tag name).render ++ s) = none := by
      intro t ht
      cases t <;> cases tag <;> first | exact absurd rfl ht | rfl
    rw [tokenAt_tag rfl, hstop, hstop]
    cases tag with
    | function =>
      rw [startAt_render .function ht]
      rfl
    | parameter =>
      rw [startAt_render .parameter ht, hstart .function (by decide)]
      rfl
  | stop tag =>
    cases tag with
    | function =>
      rw [tokenAt_tag rfl, stopAt_render]
      rfl
    | parameter =>
      have hstop : stopAt .function ((Token.stop .parameter).render ++ s) = none := rfl
      rw [tokenAt_tag rfl, hstop, stopAt_render]
      rfl

theorem length_render (t : Token) : 0 < t.render.length := by
  cases t with
  | char c =>
    rw [Token.render]
    unfold escapeNodeChar
    split <;> exact Nat.succ_pos _
  | start tag name => exact Nat.succ_pos _
  | stop tag => exact Nat.succ_pos _

theorem tokensFrom_render {ts : List Token} (h : ∀ t ∈ ts, t.Legal) {n : Nat} (hn : (ts.flatMap Token.render).length ≤ n) :
    tokensFrom n (ts.flatMap Token.render) = some ts := by
  induction ts generalizing n with
  | nil =>
    rw [List.flatMap_nil]
    cases n <;> rfl
  | cons t ts ih =>
    have hlength := length_render t
    rw [List.flatMap_cons, List.length_append] at hn
    obtain ⟨n, rfl⟩ : ∃ m, n = m + 1 := ⟨n - 1, by omega⟩
    obtain ⟨x, xs, hx⟩ := List.exists_cons_of_length_pos hlength
    have hunfold : tokensFrom (n + 1) (t.render ++ ts.flatMap Token.render) =
        (tokenAt (t.render ++ ts.flatMap Token.render)).bind fun t => (tokensFrom n t.2).map (t.1 :: ·) := by
      rw [hx]
      rfl
    rw [List.flatMap_cons, hunfold, tokenAt_render (h t (List.mem_cons_self ..)), Option.bind_some,
      ih (fun t ht => h t (List.mem_cons_of_mem _ ht)) (by omega)]
    rfl

theorem unmarshalTokens_decodes : Decodes unmarshalTokens := by
  intro ts hts
  rw [unmarshalTokens, tokensFrom_render hts (Nat.le_refl _), Option.bind_some]
  cases decode ts <;> rfl

end Xdragon.Parsers.Qwen3Coder
