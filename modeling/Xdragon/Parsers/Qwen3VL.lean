import Xdragon.Parsers.Text

/-!
# The Qwen3VL parser

Splits the output of a model into thinking, content and tool calls, while the text comes in pieces.
What it gives is what the whole text is split into.
-/

namespace Xdragon.Parsers.Qwen3VL

open Xdragon.Lib

inductive QwenParserState where
  | collectingThinkingContent
  | collectingContent
  | collectingToolContent
  | thinkingDoneEatingWhitespace
  | toolCallDoneEatingWhitespace
  deriving DecidableEq

def thinkingCloseTag : Str := "</think>".toList
def toolOpenTag : Str := "<tool_call>".toList
def toolCloseTag : Str := "</tool_call>".toList

inductive QwenEvent where
  | rawToolCall (raw : Str)
  | thinkingContent (content : Str)
  | content (content : Str)

/-- The fields of the last message that the parser looks at. -/
structure Message where
  role : Str
  content : Str

structure Qwen3VLParser where
  state : QwenParserState := .collectingThinkingContent
  buffer : Str := []
  hasThinkingSupport : Bool := false

def Qwen3VLParser.setInitialState (p : Qwen3VLParser) (lastMessage : Option Message) : Qwen3VLParser :=
  let prefilled := lastMessage.any fun m => m.role = "assistant".toList
  if !p.hasThinkingSupport then { p with state := .collectingContent }
  else if prefilled ∧ lastMessage.any fun m => m.content ≠ [] then { p with state := .collectingContent }
  else { p with state := .collectingThinkingContent }

/-- The event for a text, if there is any. -/
def emit (event : Str → QwenEvent) (text : Str) : List QwenEvent := if text.length > 0 then [event text] else []

def Qwen3VLParser.eatLeadingWhitespaceAndTransitionTo (p : Qwen3VLParser) (nextState : QwenParserState) :
    List QwenEvent × Qwen3VLParser × Bool :=
  let trimmed := trimLeft p.buffer
  if trimmed = [] then ([], { p with buffer := [] }, false)
  else ([], { p with state := nextState, buffer := trimmed }, true)

def Qwen3VLParser.eat (p : Qwen3VLParser) : List QwenEvent × Qwen3VLParser × Bool :=
  match p.state with
  | .collectingContent =>
    if containsTag p.buffer toolOpenTag then
      let (before, _, buffer) := splitAtTag p.buffer toolOpenTag false
      (emit .content before, { p with state := .collectingToolContent, buffer := buffer }, true)
    else
      let (unambiguous, ambiguous) := splitAmbiguous p.buffer toolOpenTag
      (emit .content unambiguous, { p with buffer := ambiguous }, false)
  | .collectingToolContent =>
    match cut toolCloseTag p.buffer with
    | some (before, after) =>
      ([.rawToolCall before], { p with state := .toolCallDoneEatingWhitespace, buffer := after }, true)
    | none => ([], p, false)
  | .collectingThinkingContent =>
    if containsTag p.buffer thinkingCloseTag then
      let (thinking, remaining, buffer) := splitAtTag p.buffer thinkingCloseTag true
      let state := if remaining = [] then .thinkingDoneEatingWhitespace else .collectingContent
      (emit .thinkingContent thinking, { p with state := state, buffer := buffer }, true)
    else
      let (unambiguous, ambiguous) := splitAmbiguous p.buffer thinkingCloseTag
      (emit .thinkingContent unambiguous, { p with buffer := ambiguous }, false)
  | .thinkingDoneEatingWhitespace => p.eatLeadingWhitespaceAndTransitionTo .collectingContent
  | .toolCallDoneEatingWhitespace => p.eatLeadingWhitespaceAndTransitionTo .collectingContent

/-- The part of `Add` that finds the events: the text is written to the buffer, and `parseEvents` runs.
Two rounds take at least a tag from the buffer. -/
def Qwen3VLParser.parseEvents (p : Qwen3VLParser) (s : Str) : Option (List QwenEvent × Qwen3VLParser) :=
  (rounds Qwen3VLParser.eat (2 * (p.buffer.length + s.length) + 2) { p with buffer := p.buffer ++ s }).map fun r =>
    (r.1.flatten, r.2)

/-! ## The specification -/

/-- What a text is split into, with the state at its end and the text that is withheld. -/
structure Parts where
  content : Str := []
  thinking : Str := []
  toolCalls : List Str := []
  state : QwenParserState
  buffer : Str := []
  deriving DecidableEq

/-- The content of a text, and its tool calls. White space is dropped before an opening tag and after a closing one,
and a partial tag at the end is withheld with the white space before it. -/
def contentParts (text : Str) : Parts :=
  match _h : cut toolOpenTag text with
  | none =>
    { content := settled isSpace toolOpenTag text, state := .collectingContent, buffer := pending isSpace toolOpenTag text }
  | some (before, after) =>
    match _h' : cut toolCloseTag after with
    | none => { content := trimRight before, state := .collectingToolContent, buffer := after }
    | some (raw, rest) =>
      if trimLeft rest = [] then
        { content := trimRight before, toolCalls := [raw], state := .toolCallDoneEatingWhitespace }
      else
        let parts := contentParts (trimLeft rest)
        { parts with content := trimRight before ++ parts.content, toolCalls := raw :: parts.toolCalls }
termination_by text.length
decreasing_by
  have h1 := length_of_cut _h
  have h2 := length_of_cut _h'
  have h3 := (List.dropWhile_suffix isSpace (l := rest)).length_le
  have h4 : toolOpenTag.length = 11 := rfl
  unfold trimLeft
  omega

/-- The thinking up to the first closing tag, and what the text after it is split into. -/
def thinkingParts (text : Str) : Parts :=
  match cut thinkingCloseTag text with
  | none =>
    { thinking := settled isSpace thinkingCloseTag text, state := .collectingThinkingContent,
      buffer := pending isSpace thinkingCloseTag text }
  | some (before, after) =>
    if trimLeft after = [] then { thinking := trimRight before, state := .thinkingDoneEatingWhitespace }
    else { contentParts (trimLeft after) with thinking := trimRight before }

/-- Text after a closing tag. -/
def eatenParts (state : QwenParserState) (text : Str) : Parts :=
  if trimLeft text = [] then { state } else contentParts (trimLeft text)

/-- Text after an opening tag. -/
def toolParts (text : Str) : Parts :=
  match cut toolCloseTag text with
  | none => { state := .collectingToolContent, buffer := text }
  | some (raw, rest) =>
    let parts := eatenParts .toolCallDoneEatingWhitespace rest
    { parts with toolCalls := raw :: parts.toolCalls }

def parts : QwenParserState → Str → Parts
  | .collectingThinkingContent => thinkingParts
  | .collectingContent => contentParts
  | .collectingToolContent => toolParts
  | .thinkingDoneEatingWhitespace => eatenParts .thinkingDoneEatingWhitespace
  | .toolCallDoneEatingWhitespace => eatenParts .toolCallDoneEatingWhitespace

theorem contentParts_none {text : Str} (h : cut toolOpenTag text = none) : contentParts text =
    { content := settled isSpace toolOpenTag text, state := .collectingContent, buffer := pending isSpace toolOpenTag text } := by
  rw [contentParts]
  split
  · rfl
  · rename_i heq
    rw [h] at heq
    cases heq

/-- The content before an opening tag. -/
theorem contentParts_some {text before after : Str} (h : cut toolOpenTag text = some (before, after)) : contentParts text =
    { toolParts after with content := trimRight before ++ (toolParts after).content } := by
  rw [contentParts]
  split
  · rename_i heq
    rw [h] at heq
    cases heq
  · rename_i b a heq
    rw [h] at heq
    cases heq
    unfold toolParts eatenParts
    split
    · rename_i heq'
      rw [heq']
      simp
    · rename_i raw rest heq'
      rw [heq']
      dsimp only
      split_ifs
      · simp
      · rfl

theorem thinkingParts_some {text before after : Str} (h : cut thinkingCloseTag text = some (before, after)) :
    thinkingParts text = { eatenParts .thinkingDoneEatingWhitespace after with thinking := trimRight before } := by
  rw [thinkingParts, h]
  unfold eatenParts
  dsimp only
  split_ifs <;> rfl

/-! ## Text that comes later -/

/-- The parts of a text whose second half is read later. -/
def Parts.append (a b : Parts) : Parts :=
  { content := a.content ++ b.content, thinking := a.thinking ++ b.thinking, toolCalls := a.toolCalls ++ b.toolCalls,
    state := b.state, buffer := b.buffer }

/-- A state from which the parts go on when more text comes. -/
def Resumes (f : Str → Parts) (text : Str) : Prop :=
  ∀ c, f (text ++ c) = (f text).append (parts (f text).state ((f text).buffer ++ c))

theorem resumes_eaten {state : QwenParserState} (hstate : parts state = eatenParts state) {text : Str}
    (hcontent : Resumes contentParts (trimLeft text)) : Resumes (eatenParts state) text := by
  intro c
  unfold eatenParts
  rw [trimLeft_append]
  by_cases h : trimLeft text = []
  · simp [h, hstate, Parts.append, eatenParts]
  · simp only [h, if_false, List.append_eq_nil_iff, false_and]
    exact hcontent c

theorem resumes_tool {text : Str} (heaten : ∀ raw rest, cut toolCloseTag text = some (raw, rest) →
    Resumes (eatenParts .toolCallDoneEatingWhitespace) rest) : Resumes toolParts text := by
  intro c
  cases hcut : cut toolCloseTag text with
  | none =>
    have htext : toolParts text = { state := .collectingToolContent, buffer := text } := by rw [toolParts, hcut]
    rw [htext]
    simp [Parts.append, parts]
  | some q =>
    have htext := heaten q.1 q.2 hcut c
    have hcut' := cut_append_some hcut c
    simp only [toolParts, hcut, hcut', htext]
    simp [Parts.append]

theorem resumes_content (text : Str) : Resumes contentParts text := by
  induction hn : text.length using Nat.strong_induction_on generalizing text with
  | _ n ih =>
    intro c
    cases hcut : cut toolOpenTag text with
    | none =>
      rw [contentParts_none hcut]
      have happend := cut_append_pending isSpace c hcut
      cases hc : cut toolOpenTag (pending isSpace toolOpenTag text ++ c) with
      | none =>
        rw [hc] at happend
        rw [contentParts_none happend]
        simp only [parts, contentParts_none hc, Parts.append]
        rw [settled_append, pending_append]
        simp
      | some q =>
        rw [hc] at happend
        rw [contentParts_some happend]
        simp only [parts, contentParts_some hc, Parts.append]
        rw [trimRight, rdropWhile_settled]
        simp [trimRight]
    | some q =>
      have htool : Resumes toolParts q.2 := resumes_tool fun raw rest hrest => resumes_eaten rfl (ih _ ?_ _ rfl)
      · rw [contentParts_some (cut_append_some hcut c), contentParts_some hcut, htool c]
        simp [Parts.append]
      · have h1 := length_of_cut hcut
        have h2 := length_of_cut hrest
        have h3 := (List.dropWhile_suffix isSpace (l := rest)).length_le
        have h4 : toolOpenTag.length = 11 := rfl
        unfold trimLeft
        omega

theorem thinkingParts_none {text : Str} (h : cut thinkingCloseTag text = none) : thinkingParts text =
    { thinking := settled isSpace thinkingCloseTag text, state := .collectingThinkingContent
      buffer := pending isSpace thinkingCloseTag text } := by
  rw [thinkingParts, h]

/-- No thinking comes after the closing tag. -/
theorem thinking_contentParts (text : Str) : (contentParts text).thinking = [] := by
  induction hn : text.length using Nat.strong_induction_on generalizing text with
  | _ n ih =>
    cases hcut : cut toolOpenTag text with
    | none => rw [contentParts_none hcut]
    | some q =>
      rw [contentParts_some hcut]
      unfold toolParts
      split
      · rfl
      · rename_i raw rest hrest
        unfold eatenParts
        split_ifs
        · rfl
        · refine ih _ ?_ _ rfl
          have h1 := length_of_cut hcut
          have h2 := length_of_cut hrest
          have h3 := (List.dropWhile_suffix isSpace (l := rest)).length_le
          have h4 : toolOpenTag.length = 11 := rfl
          unfold trimLeft
          omega

theorem thinking_eatenParts (state : QwenParserState) (text : Str) : (eatenParts state text).thinking = [] := by
  unfold eatenParts
  split_ifs
  · rfl
  · exact thinking_contentParts _

theorem resumes_thinking (text : Str) : Resumes thinkingParts text := by
  intro c
  cases hcut : cut thinkingCloseTag text with
  | none =>
    rw [thinkingParts_none hcut]
    have happend := cut_append_pending isSpace c hcut
    cases hc : cut thinkingCloseTag (pending isSpace thinkingCloseTag text ++ c) with
    | none =>
      rw [hc] at happend
      rw [thinkingParts_none happend]
      simp only [parts, thinkingParts_none hc, Parts.append]
      rw [settled_append, pending_append]
      simp
    | some q =>
      rw [hc] at happend
      rw [thinkingParts_some happend]
      simp only [parts, thinkingParts_some hc, Parts.append]
      rw [trimRight, rdropWhile_settled]
      simp [trimRight]
  | some q =>
    have heaten : Resumes (eatenParts .thinkingDoneEatingWhitespace) q.2 := resumes_eaten rfl (resumes_content _)
    have hnone := congrArg Parts.thinking (heaten c)
    rw [thinking_eatenParts, Parts.append, thinking_eatenParts, List.nil_append] at hnone
    dsimp only at hnone
    rw [thinkingParts_some (cut_append_some hcut c), thinkingParts_some hcut, heaten c]
    simp [Parts.append, hnone.symm]

theorem resumes_parts (state : QwenParserState) (text : Str) : Resumes (parts state) text := by
  cases state with
  | collectingThinkingContent => exact resumes_thinking text
  | collectingContent => exact resumes_content text
  | collectingToolContent => exact resumes_tool fun _ _ _ => resumes_eaten rfl (resumes_content _)
  | thinkingDoneEatingWhitespace => exact resumes_eaten rfl (resumes_content _)
  | toolCallDoneEatingWhitespace => exact resumes_eaten rfl (resumes_content _)

/-! ## The parser -/

/-- The content, the thinking and the tool calls of events, one after another. -/
def texts (es : List QwenEvent) : Str × Str × List Str :=
  (es.flatMap fun | .content c => c | _ => [], es.flatMap fun | .thinkingContent c => c | _ => [],
    es.filterMap fun | .rawToolCall raw => some raw | _ => none)

theorem texts_append (es es' : List QwenEvent) :
    texts (es ++ es') = ((texts es).1 ++ (texts es').1, (texts es).2.1 ++ (texts es').2.1, (texts es).2.2 ++ (texts es').2.2) := by
  simp [texts]

theorem texts_emit_content (t : Str) : texts (emit .content t) = (t, [], []) := by
  unfold emit
  cases t <;> simp [texts]

theorem texts_emit_thinking (t : Str) : texts (emit .thinkingContent t) = ([], t, []) := by
  unfold emit
  cases t <;> simp [texts]

def Parts.texts (a : Parts) : Str × Str × List Str := (a.content, a.thinking, a.toolCalls)

/-- The rounds that are needed at most. -/
def Qwen3VLParser.work (p : Qwen3VLParser) : Nat :=
  2 * p.buffer.length + match p.state with
    | .thinkingDoneEatingWhitespace => 1
    | .toolCallDoneEatingWhitespace => 1
    | _ => 0

/-- The rounds give the parts of the buffer. -/
def Gives (p : Qwen3VLParser) (n : Nat) (a : Parts) : Prop :=
  ∃ outs, rounds Qwen3VLParser.eat n p = some (outs, { p with state := a.state, buffer := a.buffer }) ∧
    Qwen3VL.texts outs.flatten = a.texts

theorem gives_stop {p : Qwen3VLParser} {n : Nat} {a : Parts} {es : List QwenEvent}
    (heat : p.eat = (es, { p with state := a.state, buffer := a.buffer }, false)) (hes : Qwen3VL.texts es = a.texts) :
    Gives p (n + 1) a :=
  ⟨[es], rounds_stop heat, by rwa [List.flatten_singleton]⟩

theorem gives_more {p p' : Qwen3VLParser} {n : Nat} {a b : Parts} {es : List QwenEvent} (heat : p.eat = (es, p', true))
    (hp : p'.hasThinkingSupport = p.hasThinkingSupport) (h : Gives p' n b) (hstate : a.state = b.state)
    (hbuffer : a.buffer = b.buffer) (htexts : a.texts = ((Qwen3VL.texts es).1 ++ b.content,
      (Qwen3VL.texts es).2.1 ++ b.thinking, (Qwen3VL.texts es).2.2 ++ b.toolCalls)) : Gives p (n + 1) a := by
  obtain ⟨outs, hrounds, houts⟩ := h
  refine ⟨es :: outs, ?_, ?_⟩
  · rw [rounds_more heat, hrounds, Option.map_some, hstate, hbuffer, hp]
  · rw [List.flatten_cons, texts_append, houts, htexts]
    rfl

theorem gives_eaten {p : Qwen3VLParser} {n : Nat} (heat : p.eat = p.eatLeadingWhitespaceAndTransitionTo .collectingContent)
    (h : Gives { p with state := .collectingContent, buffer := trimLeft p.buffer } n (contentParts (trimLeft p.buffer))) :
    Gives p (n + 1) (eatenParts p.state p.buffer) := by
  rw [Qwen3VLParser.eatLeadingWhitespaceAndTransitionTo] at heat
  unfold eatenParts
  split_ifs with hempty
  · rw [if_pos hempty] at heat
    exact gives_stop heat rfl
  · rw [if_neg hempty] at heat
    exact gives_more heat rfl h rfl rfl rfl

theorem gives_parts (p : Qwen3VLParser) {n : Nat} (hn : p.work < n) : Gives p n (parts p.state p.buffer) := by
  induction n generalizing p with
  | zero => omega
  | succ n ih =>
    unfold Qwen3VLParser.work at hn
    have htrim := (List.dropWhile_suffix isSpace (l := p.buffer)).length_le
    have hwork : Qwen3VLParser.work { p with state := .collectingContent, buffer := trimLeft p.buffer } ≤ 2 * p.buffer.length := by
      unfold Qwen3VLParser.work trimLeft
      dsimp only
      omega
    cases hs : p.state with
    | collectingContent =>
      cases hcut : cut toolOpenTag p.buffer with
      | none =>
        have heat : p.eat = (emit .content (settled isSpace toolOpenTag p.buffer), { p with
            state := .collectingContent, buffer := pending isSpace toolOpenTag p.buffer }, false) := by
          rw [Qwen3VLParser.eat, hs]
          dsimp only
          rw [containsTag, hcut, if_neg (by simp), splitAmbiguous_eq]
        rw [parts, contentParts_none hcut]
        exact gives_stop heat (texts_emit_content _)
      | some q =>
        have heat : p.eat = (emit .content (trimRight q.1), { p with state := .collectingToolContent, buffer := q.2 }, true) := by
          rw [Qwen3VLParser.eat, hs]
          dsimp only
          rw [containsTag, hcut, if_pos Option.isSome_some, splitAtTag, hcut]
          rfl
        have hlen := length_of_cut hcut
        have h4 : toolOpenTag.length = 11 := rfl
        have hrest := ih { p with state := .collectingToolContent, buffer := q.2 } (by
          unfold Qwen3VLParser.work
          dsimp only
          omega)
        rw [parts, contentParts_some hcut]
        refine gives_more heat rfl hrest rfl rfl ?_
        rw [texts_emit_content]
        rfl
    | collectingToolContent =>
      cases hcut : cut toolCloseTag p.buffer with
      | none =>
        have heat : p.eat = ([], { p with state := .collectingToolContent, buffer := p.buffer }, false) := by
          rw [Qwen3VLParser.eat, hs]
          dsimp only
          rw [hcut, ← hs]
        have hparts : toolParts p.buffer = { state := .collectingToolContent, buffer := p.buffer } := by
          rw [toolParts, hcut]
        rw [parts, hparts]
        exact gives_stop heat rfl
      | some q =>
        have heat : p.eat = ([.rawToolCall q.1], { p with state := .toolCallDoneEatingWhitespace, buffer := q.2 }, true) := by
          rw [Qwen3VLParser.eat, hs]
          dsimp only
          rw [hcut]
        have hlen := length_of_cut hcut
        have h4 : toolCloseTag.length = 12 := rfl
        have hrest := ih { p with state := .toolCallDoneEatingWhitespace, buffer := q.2 } (by
          unfold Qwen3VLParser.work
          dsimp only
          omega)
        have hparts : toolParts p.buffer = { eatenParts .toolCallDoneEatingWhitespace q.2 with
            toolCalls := q.1 :: (eatenParts .toolCallDoneEatingWhitespace q.2).toolCalls } := by
          rw [toolParts, hcut]
        rw [parts, hparts]
        exact gives_more heat rfl hrest rfl rfl rfl
    | collectingThinkingContent =>
      cases hcut : cut thinkingCloseTag p.buffer with
      | none =>
        have heat : p.eat = (emit .thinkingContent (settled isSpace thinkingCloseTag p.buffer), { p with
            state := .collectingThinkingContent, buffer := pending isSpace thinkingCloseTag p.buffer }, false) := by
          rw [Qwen3VLParser.eat, hs]
          dsimp only
          rw [containsTag, hcut, if_neg (by simp), splitAmbiguous_eq]
        rw [parts, thinkingParts_none hcut]
        exact gives_stop heat (texts_emit_thinking _)
      | some q =>
        have heat : p.eat = (emit .thinkingContent (trimRight q.1), { p with
            state := if trimLeft q.2 = [] then .thinkingDoneEatingWhitespace else .collectingContent
            buffer := trimLeft q.2 }, true) := by
          rw [Qwen3VLParser.eat, hs]
          dsimp only
          rw [containsTag, hcut, if_pos Option.isSome_some, splitAtTag, hcut]
          rfl
        have hlen := length_of_cut hcut
        have h4 : thinkingCloseTag.length = 8 := rfl
        have hsuffix := (List.dropWhile_suffix isSpace (l := q.2)).length_le
        rw [parts, thinkingParts_some hcut]
        unfold eatenParts
        split_ifs with hempty
        · rw [if_pos hempty, hempty] at heat
          have hrest := ih { p with state := .thinkingDoneEatingWhitespace, buffer := [] } (by
            unfold Qwen3VLParser.work
            dsimp only [List.length_nil]
            omega)
          refine gives_more heat rfl hrest rfl rfl ?_
          rw [texts_emit_thinking]
          simp [Parts.texts, parts, eatenParts, trimLeft]
        · rw [if_neg hempty] at heat
          have hrest := ih { p with state := .collectingContent, buffer := trimLeft q.2 } (by
            unfold Qwen3VLParser.work trimLeft
            dsimp only
            omega)
          refine gives_more heat rfl hrest rfl rfl ?_
          rw [texts_emit_thinking]
          simp [Parts.texts, parts, thinking_contentParts]
    | thinkingDoneEatingWhitespace =>
      rw [hs] at hn
      dsimp only at hn
      have heat : p.eat = p.eatLeadingWhitespaceAndTransitionTo .collectingContent := by
        rw [Qwen3VLParser.eat, hs]
      have hrest := gives_eaten heat (ih _ (by omega))
      rwa [hs] at hrest
    | toolCallDoneEatingWhitespace =>
      rw [hs] at hn
      dsimp only at hn
      have heat : p.eat = p.eatLeadingWhitespaceAndTransitionTo .collectingContent := by
        rw [Qwen3VLParser.eat, hs]
      have hrest := gives_eaten heat (ih _ (by omega))
      rwa [hs] at hrest

/-- A call gives the parts of what the parser has. -/
theorem parseEvents_eq (p : Qwen3VLParser) (s : Str) : ∃ events,
    p.parseEvents s = some (events, { p with
      state := (parts p.state (p.buffer ++ s)).state
      buffer := (parts p.state (p.buffer ++ s)).buffer }) ∧ texts events = (parts p.state (p.buffer ++ s)).texts := by
  have hwork : Qwen3VLParser.work { p with buffer := p.buffer ++ s } < 2 * (p.buffer.length + s.length) + 2 := by
    unfold Qwen3VLParser.work
    rw [List.length_append]
    dsimp only
    split <;> omega
  obtain ⟨outs, hrounds, houts⟩ := gives_parts { p with buffer := p.buffer ++ s } hwork
  exact ⟨outs.flatten, by rw [Qwen3VLParser.parseEvents, hrounds, Option.map_some], houts⟩

theorem parseEvents_append (p : Qwen3VLParser) (a : Str) : ∃ r, p.parseEvents a = some r ∧ ∀ b, ∃ t u,
    r.2.parseEvents b = some t ∧ p.parseEvents (a ++ b) = some u ∧ t.2 = u.2 ∧ texts (r.1 ++ t.1) = texts u.1 := by
  obtain ⟨events, hevents, htexts⟩ := parseEvents_eq p a
  refine ⟨_, hevents, fun b => ?_⟩
  obtain ⟨events', hevents', htexts'⟩ := parseEvents_eq { p with
    state := (parts p.state (p.buffer ++ a)).state
    buffer := (parts p.state (p.buffer ++ a)).buffer } b
  obtain ⟨events'', hevents'', htexts''⟩ := parseEvents_eq p (a ++ b)
  have happend := resumes_parts p.state (p.buffer ++ a) b
  rw [List.append_assoc] at happend
  rw [happend] at hevents'' htexts''
  refine ⟨_, _, hevents', hevents'', rfl, ?_⟩
  rw [texts_append, htexts, htexts', htexts'']
  rfl

/-- The parts of a text for a parser that starts with thinking or with content. -/
def initialParts (thinking : Bool) (text : Str) : Parts := if thinking then thinkingParts text else contentParts text

/-- The chunks give what the text gives in one call, which is what the text is split into. -/
theorem parseEvents_chunks (hasThinkingSupport : Bool) (lastMessage : Option Message) (chunks : List Str) :
    let p := Qwen3VLParser.setInitialState { hasThinkingSupport } lastMessage
    let spec := initialParts (p.state = .collectingThinkingContent) chunks.flatten
    ∃ events uncut p', feed (· ++ ·) [] Qwen3VLParser.parseEvents p chunks = some (events, p') ∧
      p.parseEvents chunks.flatten = some (uncut, p') ∧ texts events = texts uncut ∧
      texts events = (spec.content, spec.thinking, spec.toolCalls) ∧ p'.state = spec.state ∧ p'.buffer = spec.buffer := by
  intro p spec
  have hstart : p.buffer = [] ∧ (p.state = .collectingThinkingContent ∨ p.state = .collectingContent) := by
    unfold p Qwen3VLParser.setInitialState
    dsimp only
    split_ifs
    · exact ⟨rfl, .inr rfl⟩
    · exact ⟨rfl, .inr rfl⟩
    · exact ⟨rfl, .inl rfl⟩
  have hspec : spec = parts p.state (p.buffer ++ chunks.flatten) := by
    unfold spec initialParts
    rw [hstart.1, List.nil_append]
    obtain h | h := hstart.2 <;> rw [h] <;> rfl
  obtain ⟨uncut, huncut, htexts⟩ := parseEvents_eq p chunks.flatten
  rw [← hspec] at huncut htexts
  cases chunks with
  | nil =>
    -- nothing is given for the empty text
    have hempty : spec = { state := p.state } := by
      rw [hspec, hstart.1]
      obtain h | h := hstart.2
      · rw [h, parts, thinkingParts_none (by decide)]
        decide
      · rw [h, parts, contentParts_none (by decide)]
        decide
    refine ⟨[], uncut, p, rfl, ?_, ?_, ?_, ?_, ?_⟩
    · rw [huncut, hempty, ← hstart.1]
    · rw [htexts, hempty]
      rfl
    · rw [hempty]
      rfl
    · rw [hempty]
    · rw [hempty, hstart.1]
  | cons c cs =>
    obtain ⟨r, u, hr, hu, hstate, htexts'⟩ := feed_cons (v := texts) (e := []) (I := fun _ => True) (K := fun _ => True)
      (g := (· ++ ·)) (f := Qwen3VLParser.parseEvents) (fun a => by simp)
      (fun a x y h => by rw [texts_append, texts_append, h])
      (fun p a _ _ => by
        obtain ⟨r, hr, hb⟩ := parseEvents_append p a
        exact ⟨r, hr, trivial, fun b _ => hb b⟩)
      trivial (fun _ _ _ _ => trivial) (s := p) trivial fun _ _ => trivial
    rw [huncut] at hu
    cases hu
    exact ⟨r.1, uncut, _, hr.trans (congrArg (fun p' => some (r.1, p')) hstate), huncut, htexts', htexts'.trans htexts,
      rfl, rfl⟩

end Xdragon.Parsers.Qwen3VL
