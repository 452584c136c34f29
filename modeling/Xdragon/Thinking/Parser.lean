import Xdragon.Lib.Rounds
import Xdragon.Lib.Tags
import Xdragon.Lib.Utf8
import Xdragon.Lib.Wire

/-!
# The thinking parser

Separates the thinking between two tags from the content after them, while the text comes in pieces.
What the parser gives does not depend on the pieces.
-/

namespace Xdragon.Thinking

open Xdragon.Lib

inductive ThinkingState where
  | lookingForOpening
  | thinkingStartedEatingWhitespace
  | thinking
  | thinkingDoneEatingWhitespace
  | thinkingDone

structure Parser where
  state : ThinkingState := .lookingForOpening
  openingTag : Bytes
  closingTag : Bytes
  acc : Bytes := []

/-- One round of `AddContent`: the thinking and the content to send, and whether to continue. -/
def Parser.eat (s : Parser) : (Bytes × Bytes) × Parser × Bool :=
  match s.state with
  | .lookingForOpening =>
    let trimmed := trimLeft s.acc
    if s.openingTag.isPrefixOf trimmed then
      let after := trimLeft (join (split trimmed s.openingTag).tail s.openingTag)
      (([], []), { s with
        acc := after
        state := if after = [] then .thinkingStartedEatingWhitespace else .thinking }, true)
    else if trimmed.isPrefixOf s.openingTag then (([], []), s, false)
    else if trimmed = [] then (([], []), s, false)
    else (([], s.acc), { s with acc := [], state := .thinkingDone }, false)
  | .thinkingStartedEatingWhitespace =>
    let trimmed := trimLeft s.acc
    if trimmed = [] then (([], []), { s with acc := [] }, false)
    else (([], []), { s with acc := trimmed, state := .thinking }, true)
  | .thinking =>
    if containsTag s.acc s.closingTag then
      let pieces := split s.acc s.closingTag
      let remaining := trimLeft (join pieces.tail s.closingTag)
      ((pieces.headD [], remaining), { s with
        acc := []
        state := if remaining = [] then .thinkingDoneEatingWhitespace else .thinkingDone }, false)
    else
      let overlapLen := overlap s.acc s.closingTag
      if overlapLen > 0 then
        let n := s.acc.length - overlapLen
        ((s.acc.take n, []), { s with acc := s.acc.drop n }, false)
      else ((s.acc, []), { s with acc := [] }, false)
  | .thinkingDoneEatingWhitespace =>
    let trimmed := trimLeft s.acc
    (([], trimmed), { s with acc := [], state := if trimmed = [] then s.state else .thinkingDone }, false)
  | .thinkingDone => (([], s.acc), { s with acc := [] }, false)

/-- The thinking and the content of all rounds. A call has at most three of them. -/
def Parser.addContent (s : Parser) (content : Bytes) : Option ((Bytes × Bytes) × Parser) :=
  (rounds Parser.eat 3 { s with acc := s.acc ++ content }).map fun r =>
    ((r.1.flatMap Prod.fst, r.1.flatMap Prod.snd), r.2)

/-- The outputs of two calls, one after another. -/
def both (a b : Bytes × Bytes) : Bytes × Bytes := (a.1 ++ b.1, a.2 ++ b.2)

/-- `AddContent` for chunk after chunk. -/
def Parser.addChunks : Parser → List Bytes → Option ((Bytes × Bytes) × Parser) := feed both ([], []) Parser.addContent

/-! ## What a text is parsed to -/

/-- Text after the opening tag and the white space there. -/
def Parser.thought (s : Parser) (text : Bytes) : (Bytes × Bytes) × Parser :=
  match cut s.closingTag text with
  | some (before, after) =>
    ((before, trimLeft after), { s with
      acc := []
      state := if trimLeft after = [] then .thinkingDoneEatingWhitespace else .thinkingDone })
  | none => ((released s.closingTag text, []), { s with acc := withheld s.closingTag text, state := .thinking })

/-- Text after the opening tag. -/
def Parser.opened (s : Parser) (text : Bytes) : (Bytes × Bytes) × Parser :=
  if trimLeft text = [] then (([], []), { s with acc := [], state := .thinkingStartedEatingWhitespace })
  else s.thought (trimLeft text)

/-- The text that a parser in some state has, with what it had before. -/
def Parser.parsed (s : Parser) (text : Bytes) : (Bytes × Bytes) × Parser :=
  match s.state with
  | .lookingForOpening =>
    if s.openingTag <+: trimLeft text then s.opened ((trimLeft text).drop s.openingTag.length)
    else if trimLeft text <+: s.openingTag then (([], []), { s with acc := text, state := .lookingForOpening })
    else (([], text), { s with acc := [], state := .thinkingDone })
  | .thinkingStartedEatingWhitespace => s.opened text
  | .thinking => s.thought text
  | .thinkingDoneEatingWhitespace =>
    (([], trimLeft text), { s with
      acc := []
      state := if trimLeft text = [] then .thinkingDoneEatingWhitespace else .thinkingDone })
  | .thinkingDone => (([], text), { s with acc := [], state := .thinkingDone })

theorem eat_thinking {s : Parser} (hclosing : s.closingTag ≠ []) (hs : s.state = .thinking) :
    s.eat = ((s.thought s.acc).1, (s.thought s.acc).2, false) := by
  unfold Parser.eat Parser.thought containsTag
  rw [hs]
  dsimp only
  cases hcut : cut s.closingTag s.acc with
  | some p =>
    obtain ⟨rest, hsplit, hjoin⟩ := split_of_cut hclosing hcut
    rw [if_pos Option.isSome_some, hsplit, List.tail_cons, hjoin, List.headD_cons]
  | none =>
    rw [if_neg (by simp)]
    split_ifs with h
    · rfl
    · obtain h0 : overlap s.acc s.closingTag = 0 := by omega
      rw [released, withheld, h0, Nat.sub_zero, List.take_length, List.drop_length]

theorem rounds_thinking {s : Parser} (hclosing : s.closingTag ≠ []) (hs : s.state = .thinking) (n : Nat) :
    rounds Parser.eat (n + 1) s = some ([(s.thought s.acc).1], (s.thought s.acc).2) :=
  rounds_stop (eat_thinking hclosing hs)

theorem rounds_started {s : Parser} (hclosing : s.closingTag ≠ []) (hs : s.state = .thinkingStartedEatingWhitespace)
    (n : Nat) : ∃ outs, rounds Parser.eat (n + 2) s = some (outs, (s.opened s.acc).2) ∧
      (outs.flatMap Prod.fst, outs.flatMap Prod.snd) = (s.opened s.acc).1 := by
  unfold Parser.opened
  split_ifs with h
  · have heat : s.eat = (([], []), { s with acc := [], state := .thinkingStartedEatingWhitespace }, false) := by
      rw [Parser.eat, hs]
      dsimp only
      rw [if_pos h]
    exact ⟨[([], [])], rounds_stop heat, rfl⟩
  · have heat : s.eat = (([], []), { s with acc := trimLeft s.acc, state := .thinking }, true) := by
      rw [Parser.eat, hs]
      dsimp only
      rw [if_neg h]
    have hthinking := rounds_thinking (s := { s with acc := trimLeft s.acc, state := .thinking }) hclosing rfl n
    refine ⟨[([], []), (s.thought (trimLeft s.acc)).1], ?_, by simp⟩
    rw [rounds_more heat, hthinking]
    rfl

/-- A call gives what the text is parsed to, in at most three rounds. -/
theorem rounds_parsed {s : Parser} (hopening : s.openingTag ≠ []) (hclosing : s.closingTag ≠ []) :
    ∃ outs, rounds Parser.eat 3 s = some (outs, (s.parsed s.acc).2) ∧
      (outs.flatMap Prod.fst, outs.flatMap Prod.snd) = (s.parsed s.acc).1 := by
  unfold Parser.parsed
  cases hs : s.state with
  | lookingForOpening =>
    dsimp only
    split_ifs with hopen hpartial
    · have hcut := cut_at_start hopen
      obtain ⟨rest, hsplit, hjoin⟩ := split_of_cut hopening hcut
      have heat : s.eat = (([], []), { s with
          acc := trimLeft ((trimLeft s.acc).drop s.openingTag.length)
          state := if trimLeft ((trimLeft s.acc).drop s.openingTag.length) = [] then .thinkingStartedEatingWhitespace
            else .thinking }, true) := by
        rw [Parser.eat, hs]
        dsimp only
        rw [if_pos (List.isPrefixOf_iff_prefix.mpr hopen), hsplit, List.tail_cons, hjoin]
      rw [rounds_more heat]
      unfold Parser.opened
      split_ifs with hempty
      · have hstop := @rounds_stop _ _ Parser.eat 1 { s with acc := [], state := .thinkingStartedEatingWhitespace } _ _ rfl
        rw [hempty, hstop]
        exact ⟨[([], []), ([], [])], rfl, rfl⟩
      · have hthinking := rounds_thinking (s := { s with
          acc := trimLeft ((trimLeft s.acc).drop s.openingTag.length), state := .thinking }) hclosing rfl 1
        rw [hthinking]
        exact ⟨_, rfl, by simp [Parser.thought]⟩
    · have heat : s.eat = (([], []), { s with acc := s.acc, state := .lookingForOpening }, false) := by
        rw [Parser.eat, hs]
        dsimp only
        rw [if_neg (by rwa [List.isPrefixOf_iff_prefix]), if_pos (List.isPrefixOf_iff_prefix.mpr hpartial), ← hs]
      exact ⟨_, rounds_stop heat, rfl⟩
    · have hne : trimLeft s.acc ≠ [] := fun h => hpartial (h ▸ List.nil_prefix)
      have heat : s.eat = (([], s.acc), { s with acc := [], state := .thinkingDone }, false) := by
        rw [Parser.eat, hs]
        dsimp only
        rw [if_neg (by rwa [List.isPrefixOf_iff_prefix]), if_neg (by rwa [List.isPrefixOf_iff_prefix]), if_neg hne]
      exact ⟨_, rounds_stop heat, by simp⟩
  | thinkingStartedEatingWhitespace => exact rounds_started hclosing hs 1
  | thinking => exact ⟨_, rounds_thinking hclosing hs 2, by simp⟩
  | thinkingDoneEatingWhitespace =>
    have heat : s.eat = (([], trimLeft s.acc), { s with
        acc := []
        state := if trimLeft s.acc = [] then .thinkingDoneEatingWhitespace else .thinkingDone }, false) := by
      rw [Parser.eat, hs]
    exact ⟨_, rounds_stop heat, by simp⟩
  | thinkingDone =>
    have heat : s.eat = (([], s.acc), { s with acc := [], state := .thinkingDone }, false) := by
      rw [Parser.eat, hs]
    exact ⟨_, rounds_stop heat, by simp⟩

theorem addContent_eq {s : Parser} (hopening : s.openingTag ≠ []) (hclosing : s.closingTag ≠ []) (content : Bytes) :
    s.addContent content = some (s.parsed (s.acc ++ content)) := by
  obtain ⟨outs, hrounds, houts⟩ := rounds_parsed (s := { s with acc := s.acc ++ content }) hopening hclosing
  rw [Parser.addContent, hrounds, Option.map_some, houts]
  rfl

/-! ## Text that comes later -/

theorem thought_append (s : Parser) {text : Bytes} (htext : ValidEnd text) (c : Bytes) :
    s.thought (text ++ c) = (both (s.thought text).1 ((s.thought text).2.parsed ((s.thought text).2.acc ++ c)).1,
      ((s.thought text).2.parsed ((s.thought text).2.acc ++ c)).2) := by
  unfold Parser.thought
  cases hcut : cut s.closingTag text with
  | some p =>
    obtain ⟨before, after⟩ := p
    rw [cut_append_some hcut]
    have hafter : ValidEnd after := by
      rw [(cut_eq_some hcut).1] at htext
      exact htext.of_append.of_append
    dsimp only
    rw [hafter.trimLeft_append]
    split_ifs with h h' h'
    · simp [Parser.parsed, both, h, h']
    · simp [Parser.parsed, both, h, h']
    · simp [h] at h'
    · simp [Parser.parsed, both]
  | none =>
    rw [cut_append_withheld hcut]
    unfold Parser.parsed Parser.thought
    dsimp only
    cases hc : cut s.closingTag (withheld s.closingTag text ++ c) with
    | some p => simp [both]
    | none => simp [both, released_append_withheld_append s.closingTag text, withheld_append_withheld s.closingTag text]

theorem opened_append (s : Parser) {text : Bytes} (htext : ValidEnd text) (c : Bytes) :
    s.opened (text ++ c) = (both (s.opened text).1 ((s.opened text).2.parsed ((s.opened text).2.acc ++ c)).1,
      ((s.opened text).2.parsed ((s.opened text).2.acc ++ c)).2) := by
  have htrim : ValidEnd (trimLeft text) := by
    obtain ⟨a, ha⟩ := trimLeft_suffix text
    rw [← ha] at htext
    exact htext.of_append
  unfold Parser.opened
  rw [htext.trimLeft_append]
  by_cases h : trimLeft text = []
  · simp [h, Parser.parsed, Parser.opened, both]
    rfl
  · rw [if_neg h, if_neg h, if_neg (by simp [h])]
    exact thought_append s htrim c

/-- A text that is parsed in two parts. -/
theorem parsed_append {s : Parser} (hopening : s.openingTag ≠ []) {text : Bytes} (htext : ValidEnd text) (c : Bytes) :
    s.parsed (text ++ c) = (both (s.parsed text).1 ((s.parsed text).2.parsed ((s.parsed text).2.acc ++ c)).1,
      ((s.parsed text).2.parsed ((s.parsed text).2.acc ++ c)).2) := by
  unfold Parser.parsed
  cases hs : s.state with
  | lookingForOpening =>
    dsimp only
    by_cases hopen : s.openingTag <+: trimLeft text
    · have hne : trimLeft text ≠ [] := fun h => hopening (List.prefix_nil.mp (h ▸ hopen))
      have hdrop : ValidEnd ((trimLeft text).drop s.openingTag.length) := by
        obtain ⟨a, ha⟩ := (List.drop_suffix s.openingTag.length _).trans (trimLeft_suffix text)
        rw [← ha] at htext
        exact htext.of_append
      rw [htext.trimLeft_append, if_neg hne, if_pos (hopen.trans (List.prefix_append _ _)), if_pos hopen,
        List.drop_append_of_le_length hopen.length_le]
      exact opened_append s hdrop c
    · rw [if_neg hopen]
      by_cases hpartial : trimLeft text <+: s.openingTag
      · rw [if_pos hpartial]
        simp [both, Parser.opened, Parser.thought]
      · have hne : trimLeft text ≠ [] := fun h => hpartial (h ▸ List.nil_prefix)
        rw [if_neg hpartial, htext.trimLeft_append, if_neg hne, if_neg, if_neg]
        · simp [both]
        · exact fun h => hpartial ((List.prefix_append _ _).trans h)
        · intro h
          obtain hle | hle := Nat.le_total s.openingTag.length (trimLeft text).length
          · exact hopen (List.prefix_of_prefix_length_le h (List.prefix_append _ _) hle)
          · exact hpartial (List.prefix_of_prefix_length_le (List.prefix_append _ _) h hle)
  | thinkingStartedEatingWhitespace => exact opened_append s htext c
  | thinking => exact thought_append s htext c
  | thinkingDoneEatingWhitespace =>
    dsimp only
    rw [htext.trimLeft_append]
    by_cases h : trimLeft text = []
    · simp [h, both]
    · simp [h, both]
  | thinkingDone => simp [both]

/-- What a parser has kept is the end of the valid text it was given. -/
theorem validEnd_acc {s : Parser} {text : Bytes} (htext : ValidEnd text) : ValidEnd (s.parsed text).2.acc := by
  have hnil : ValidEnd [] := validEnd_of_valid validString_nil
  have hthought : ∀ {t : Bytes}, ValidEnd t → ValidEnd (s.thought t).2.acc := by
    intro t ht
    unfold Parser.thought
    cases hcut : cut s.closingTag t with
    | some p => exact hnil
    | none =>
      rw [← released_append_withheld s.closingTag t] at ht
      exact ht.of_append
  have hopened : ∀ {t : Bytes}, ValidEnd t → ValidEnd (s.opened t).2.acc := by
    intro t ht
    unfold Parser.opened
    split_ifs with h
    · exact hnil
    · obtain ⟨a, ha⟩ := trimLeft_suffix t
      rw [← ha] at ht
      exact hthought ht.of_append
  unfold Parser.parsed
  cases s.state with
  | lookingForOpening =>
    dsimp only
    split_ifs
    · obtain ⟨a, ha⟩ := (List.drop_suffix s.openingTag.length _).trans (trimLeft_suffix text)
      rw [← ha] at htext
      exact hopened htext.of_append
    · exact htext
    · exact hnil
  | thinkingStartedEatingWhitespace => exact hopened htext
  | thinking => exact hthought htext
  | thinkingDoneEatingWhitespace => exact hnil
  | thinkingDone => exact hnil

theorem tags_parsed (s : Parser) (text : Bytes) :
    (s.parsed text).2.openingTag = s.openingTag ∧ (s.parsed text).2.closingTag = s.closingTag := by
  have hthought : ∀ t, (s.thought t).2.openingTag = s.openingTag ∧ (s.thought t).2.closingTag = s.closingTag := by
    intro t
    unfold Parser.thought
    cases cut s.closingTag t <;> exact ⟨rfl, rfl⟩
  have hopened : ∀ t, (s.opened t).2.openingTag = s.openingTag ∧ (s.opened t).2.closingTag = s.closingTag := by
    intro t
    unfold Parser.opened
    split_ifs
    · exact ⟨rfl, rfl⟩
    · exact hthought _
  unfold Parser.parsed
  cases s.state with
  | lookingForOpening =>
    dsimp only
    split_ifs
    · exact hopened _
    · exact ⟨rfl, rfl⟩
    · exact ⟨rfl, rfl⟩
  | thinkingStartedEatingWhitespace => exact hopened _
  | thinking => exact hthought _
  | thinkingDoneEatingWhitespace => exact ⟨rfl, rfl⟩
  | thinkingDone => exact ⟨rfl, rfl⟩

/-- A parser between two calls: its tags are not empty, and it can do nothing with what it has kept. -/
structure Parser.Settled (s : Parser) : Prop where
  opening : s.openingTag ≠ []
  closing : s.closingTag ≠ []
  valid : ValidEnd s.acc
  kept : s.parsed s.acc = (([], []), s)

theorem settled_new {opening closing : Bytes} (hopening : opening ≠ []) (hclosing : closing ≠ []) :
    Parser.Settled { openingTag := opening, closingTag := closing } := by
  refine ⟨hopening, hclosing, validEnd_of_valid validString_nil, ?_⟩
  have hnil : trimLeft [] = [] := rfl
  simp [Parser.parsed, hnil, hopening]

theorem Parser.Settled.parsed {s : Parser} (hs : s.Settled) {text : Bytes} (htext : ValidEnd text) : (s.parsed text).2.Settled := by
  obtain ⟨hopen, hclose⟩ := tags_parsed s text
  refine ⟨hopen ▸ hs.opening, hclose ▸ hs.closing, validEnd_acc htext, ?_⟩
  have happ := parsed_append hs.opening htext []
  rw [List.append_nil, List.append_nil] at happ
  have h1 := congrArg (fun r => r.1.1) happ
  have h2 := congrArg (fun r => r.1.2) happ
  have hnext := congrArg Prod.snd happ
  simp only [both, List.self_eq_append_right] at h1 h2
  exact Prod.ext (Prod.ext h1 h2) hnext.symm

theorem addContent_append (s : Parser) (a : Bytes) (hs : s.Settled) (ha : validString a = true) :
    ∃ r, s.addContent a = some r ∧ r.2.Settled ∧ ∀ b, validString b = true → ∃ t u, r.2.addContent b = some t ∧
      s.addContent (a ++ b) = some u ∧ t.2 = u.2 ∧ id (both r.1 t.1) = id u.1 := by
  have htext := hs.valid.append ha
  have hs' := hs.parsed htext
  refine ⟨_, addContent_eq hs.opening hs.closing a, hs', fun b _ => ⟨_, _, addContent_eq hs'.opening hs'.closing b,
    addContent_eq hs.opening hs.closing (a ++ b), ?_⟩⟩
  rw [← List.append_assoc, parsed_append hs.opening htext b]
  exact ⟨rfl, rfl⟩

/-- White space followed by a text that does not start with white space. -/
def LeadingSpace (space text : Bytes) : Prop := trimLeft (space ++ text) = text

/-- The chunks give what the text gives in one call. A text with both tags is split at them, without the white space
after the tags, and a text that does not start with the opening tag is all content. -/
theorem addChunks_eq {opening closing : Bytes} (hopening : opening ≠ []) (hclosing : closing ≠ []) :
    let new : Parser := { openingTag := opening, closingTag := closing }
    (∀ chunks : List Bytes, (∀ c ∈ chunks, validString c = true) →
      ∃ r, new.addChunks chunks = some r ∧ new.addContent chunks.flatten = some r) ∧
    (∀ space₁ space₂ space₃ thinking rest : Bytes,
      LeadingSpace space₁ (opening ++ space₂ ++ thinking ++ closing ++ space₃ ++ rest) →
      LeadingSpace space₂ (thinking ++ closing ++ space₃ ++ rest) → LeadingSpace space₃ rest →
      cut closing (thinking ++ closing ++ space₃ ++ rest) = some (thinking, space₃ ++ rest) →
      ∃ s, new.addContent (space₁ ++ opening ++ space₂ ++ thinking ++ closing ++ space₃ ++ rest) =
        some ((thinking, rest), s)) ∧
    ∀ text : Bytes, ¬ opening <+: trimLeft text → ¬ trimLeft text <+: opening →
      ∃ s, new.addContent text = some (([], text), s) := by
  intro new
  have hnew := settled_new hopening hclosing
  refine ⟨fun chunks hchunks => ?_, fun space₁ space₂ space₃ thinking rest h₁ h₂ h₃ hcut => ?_, fun text hne hpartial => ?_⟩
  · cases chunks with
    | nil =>
      refine ⟨(([], []), new), rfl, ?_⟩
      rw [addContent_eq hopening hclosing, List.flatten_nil, List.append_nil, hnew.kept]
    | cons c cs =>
      obtain ⟨r, u, hr, hu, hstate, hout⟩ := feed_cons (v := id) (e := ([], [])) (fun a => by simp)
        (fun a x y h => congrArg (both a) h) addContent_append validString_nil (fun a b => validString_append) hnew hchunks
      exact ⟨r, hr, hu.trans (congrArg some (Prod.ext hout.symm hstate.symm))⟩
  · have htrim : trimLeft (space₁ ++ opening ++ space₂ ++ thinking ++ closing ++ space₃ ++ rest) =
        opening ++ (space₂ ++ (thinking ++ closing ++ space₃ ++ rest)) := by
      rw [LeadingSpace] at h₁
      simpa using h₁
    have hne : thinking ++ closing ++ space₃ ++ rest ≠ [] := by simp [hclosing]
    refine ⟨_, (addContent_eq hopening hclosing _).trans (congrArg some (Prod.ext ?_ rfl))⟩
    simp only [new, Parser.parsed, List.nil_append]
    rw [htrim, if_pos (List.prefix_append _ _), List.drop_left, Parser.opened, h₂, if_neg hne, Parser.thought, hcut]
    rw [LeadingSpace] at h₃
    exact congrArg (thinking, ·) h₃
  · refine ⟨_, (addContent_eq hopening hclosing _).trans (congrArg some (Prod.ext ?_ rfl))⟩
    simp only [new, Parser.parsed, List.nil_append]
    rw [if_neg hne, if_neg hpartial]

theorem thinkTags_chunks :
    ∃ r, Parser.addChunks { openingTag := ascii "<think>", closingTag := ascii "</think>" }
        [ascii " <th", ascii "ink> a </", ascii "think>", ascii " b"] = some r ∧
      Parser.addContent { openingTag := ascii "<think>", closingTag := ascii "</think>" } (ascii " <think> a </think> b") =
        some r :=
  (addChunks_eq (by decide) (by decide)).1 [ascii " <th", ascii "ink> a </", ascii "think>", ascii " b"]
    (by decide +kernel)

example : (Parser.addContent { openingTag := ascii "<think>", closingTag := ascii "</think>" }
    (ascii " <think> a </think> b")).map Prod.fst = some (ascii "a ", ascii "b") := by decide +kernel

end Xdragon.Thinking
