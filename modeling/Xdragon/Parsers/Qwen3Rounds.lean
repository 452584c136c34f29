import Xdragon.Parsers.Qwen3

/-!
# One call of the Qwen3 parser

A call gives the parts of what the parser has, and what comes later goes on from there, but for the
white space behind a tool call and behind an opening tag.
-/

namespace Xdragon.Parsers.Qwen3

open Xdragon.Lib

/-! ## The parts of a text -/

theorem contentParts_none {text : Str} (h : cut toolOpenTag text = none) : contentParts text =
    { content := settled isSpace toolOpenTag text, state := .collectingContent
      buffer := pending isSpace toolOpenTag text } := by
  rw [contentParts]
  split
  · rfl
  · rename_i heq
    rw [h] at heq
    cases heq

theorem contentParts_nil : contentParts [] = { state := .collectingContent } := by
  rw [contentParts_none (by decide)]
  decide

/-- The content before an opening tag. -/
theorem contentParts_some {text before after : Str} (h : cut toolOpenTag text = some (before, after)) :
    contentParts text = { eatenParts .toolStartedEatingWhitespace toolParts after with
      content := trimRight before ++ (eatenParts .toolStartedEatingWhitespace toolParts after).content } := by
  rw [contentParts]
  split
  · rename_i heq
    rw [h] at heq
    cases heq
  · rename_i b a heq
    rw [h] at heq
    cases heq
    unfold eatenParts toolParts
    split
    · rename_i heq'
      rw [heq']
      dsimp only
      split_ifs <;> simp
    · rename_i raw rest heq'
      have hne : trimLeft after ≠ [] := by
        intro hnil
        rw [hnil] at heq'
        cases heq'
      rw [heq', if_neg hne]

theorem thinkingParts_none {text : Str} (h : cut thinkingCloseTag text = none) : thinkingParts text =
    { thinking := settled isSpace thinkingCloseTag text, state := .collectingThinking
      buffer := pending isSpace thinkingCloseTag text } := by
  rw [thinkingParts, h]

theorem thinkingParts_some {text before after : Str} (h : cut thinkingCloseTag text = some (before, after)) :
    thinkingParts text = { eatenParts .thinkingDoneEatingWhitespace contentParts after with thinking := trimRight before } := by
  rw [thinkingParts, h]

theorem toolParts_none {text : Str} (h : cut toolCloseTag text = none) :
    toolParts text = { state := .collectingToolContent, buffer := text } := by
  rw [toolParts, h]

theorem toolParts_some {text raw rest : Str} (h : cut toolCloseTag text = some (raw, rest)) : toolParts text =
    { contentParts (trimLeft rest) with
      toolCalls := trimRight raw :: (contentParts (trimLeft rest)).toolCalls
      behindCall := trimLeft rest = [] || (contentParts (trimLeft rest)).behindCall } := by
  rw [toolParts, h]

theorem eatenParts_empty {text : Str} (h : trimLeft text = []) (state : Qwen3ParserState) (parts : Str → Parts) :
    eatenParts state parts text = { state } := if_pos h

theorem eatenParts_ne {text : Str} (h : trimLeft text ≠ []) (state : Qwen3ParserState) (parts : Str → Parts) :
    eatenParts state parts text = parts (trimLeft text) := if_neg h

/-- What holds of text without a complete tool call holds of every text if tool calls before it keep it. -/
theorem contentParts_rec {P : Parts → Prop} (hnone : ∀ text, cut toolOpenTag text = none → P (contentParts text))
    (hopen : ∀ content, P { content, state := .toolStartedEatingWhitespace })
    (htool : ∀ content buffer, P { content, state := .collectingToolContent, buffer })
    (hcall : ∀ content toolCalls text, P (contentParts text) → P { contentParts text with
      content, toolCalls, behindCall := text = [] || (contentParts text).behindCall }) (text : Str) :
    P (contentParts text) := by
  induction hn : text.length using Nat.strong_induction_on generalizing text with
  | _ n ih =>
    cases hcut : cut toolOpenTag text with
    | none => exact hnone text hcut
    | some q =>
      rw [contentParts_some hcut]
      by_cases hempty : trimLeft q.2 = []
      · rw [eatenParts_empty hempty]
        exact hopen _
      · rw [eatenParts_ne hempty]
        cases hclose : cut toolCloseTag (trimLeft q.2) with
        | none =>
          rw [toolParts_none hclose]
          exact htool _ _
        | some r =>
          rw [toolParts_some hclose]
          have h1 := length_of_cut hcut
          have h2 := length_of_cut hclose
          have h3 := length_trimLeft r.2
          have h4 := length_trimLeft q.2
          have h5 : toolOpenTag.length = 11 := rfl
          exact hcall _ _ _ (ih _ (by omega) _ rfl)

/-- Text after the thinking: no thinking comes, no opening tag is expected, and behind a tool call the parser has nothing. -/
structure Parts.Plain (a : Parts) : Prop where
  thinking : a.thinking = []
  flag : a.maybeThinkingOpenAtBOL = false
  state : a.state = .collectingContent ∨ a.state = .toolStartedEatingWhitespace ∨ a.state = .collectingToolContent
  behind : a.behindCall = true → a.state = .collectingContent ∧ a.buffer = []

theorem contentParts_plain (text : Str) : (contentParts text).Plain := by
  refine contentParts_rec (P := Parts.Plain) ?_ ?_ ?_ ?_ text
  · intro text hcut
    rw [contentParts_none hcut]
    exact ⟨rfl, rfl, .inl rfl, nofun⟩
  · exact fun _ => ⟨rfl, rfl, .inr (.inl rfl), nofun⟩
  · exact fun _ _ => ⟨rfl, rfl, .inr (.inr rfl), nofun⟩
  · intro content toolCalls text h
    refine ⟨h.thinking, h.flag, h.state, fun hbehind => ?_⟩
    by_cases hempty : text = []
    · rw [hempty, contentParts_nil]
      exact ⟨rfl, rfl⟩
    · simp only [hempty, decide_false, Bool.false_or] at hbehind
      exact h.behind hbehind

theorem toolParts_plain (text : Str) : (toolParts text).Plain := by
  cases hcut : cut toolCloseTag text with
  | none =>
    rw [toolParts_none hcut]
    exact ⟨rfl, rfl, .inr (.inr rfl), nofun⟩
  | some q =>
    have h := contentParts_plain (trimLeft q.2)
    rw [toolParts_some hcut]
    refine ⟨h.thinking, h.flag, h.state, fun hbehind => ?_⟩
    by_cases hempty : trimLeft q.2 = []
    · rw [hempty, contentParts_nil]
      exact ⟨rfl, rfl⟩
    · simp only [hempty, decide_false, Bool.false_or] at hbehind
      exact h.behind hbehind

/-! ## The rounds of a call -/

/-- The content, the thinking and the tool calls of events, one after another. -/
def texts (es : List Qwen3Event) : Str × Str × List Str :=
  (es.flatMap fun | .content c => c | _ => [], es.flatMap fun | .thinkingContent c => c | _ => [],
    es.filterMap fun | .rawToolCall raw => some raw | _ => none)

/-- Texts one after another. -/
def both (a b : Str × Str × List Str) : Str × Str × List Str := (a.1 ++ b.1, a.2.1 ++ b.2.1, a.2.2 ++ b.2.2)

theorem texts_append (es es' : List Qwen3Event) : texts (es ++ es') = both (texts es) (texts es') := by
  simp [texts, both]

theorem texts_emit_content (t : Str) : texts (emit .content t) = (t, [], []) := by
  unfold emit
  cases t <;> simp [texts]

theorem texts_emit_thinking (t : Str) : texts (emit .thinkingContent t) = ([], t, []) := by
  unfold emit
  cases t <;> simp [texts]

def Parts.texts (a : Parts) : Str × Str × List Str := (a.content, a.thinking, a.toolCalls)

/-- The parser after its text was split. -/
def Qwen3Parser.after (p : Qwen3Parser) (a : Parts) : Qwen3Parser :=
  { p with state := a.state, buffer := a.buffer, maybeThinkingOpenAtBOL := a.maybeThinkingOpenAtBOL }

/-- A parser as it comes from `Init`, at any time. -/
structure Qwen3Parser.Started (p : Qwen3Parser) : Prop where
  looking : p.state ≠ .lookingForThinkingOpen
  opened : p.state ≠ .thinkingStartedEatingWhitespace
  flag : p.maybeThinkingOpenAtBOL = true → p.state = .collectingThinking

theorem parts_thinking {p : Qwen3Parser} (hstate : p.state = .collectingThinking) (hflag : p.maybeThinkingOpenAtBOL = false)
    (text : Str) : p.parts text = thinkingParts text := by
  rw [Qwen3Parser.parts, hstate]
  dsimp only
  rw [if_neg (by simp [hflag])]

theorem parts_opened {p : Qwen3Parser} (hp : p.Started) (hflag : p.maybeThinkingOpenAtBOL = true) (text : Str) :
    p.parts text = openedParts text := by
  rw [Qwen3Parser.parts, hp.flag hflag]
  dsimp only
  rw [if_pos hflag]

/-- The rounds that are needed at most. -/
def Qwen3Parser.work (p : Qwen3Parser) : Nat :=
  2 * p.buffer.length + match p.state with
    | .thinkingDoneEatingWhitespace => 1
    | .toolStartedEatingWhitespace => 1
    | _ => 0

/-- The rounds give the parts of the buffer. -/
def Gives (p : Qwen3Parser) (n : Nat) (a : Parts) : Prop :=
  ∃ outs, rounds Qwen3Parser.eat n p = some (outs, p.after a) ∧ Qwen3.texts outs.flatten = a.texts

theorem gives_stop {p : Qwen3Parser} {n : Nat} {a : Parts} {es : List Qwen3Event} (heat : p.eat = (es, p.after a, false))
    (hes : Qwen3.texts es = a.texts) : Gives p (n + 1) a :=
  ⟨[es], rounds_stop heat, by rwa [List.flatten_singleton]⟩

theorem gives_more {p p' : Qwen3Parser} {n : Nat} {a b : Parts} {es : List Qwen3Event} (heat : p.eat = (es, p', true))
    (h : Gives p' n b) (hafter : p'.after b = p.after a) (htexts : a.texts = both (Qwen3.texts es) b.texts) :
    Gives p (n + 1) a := by
  obtain ⟨outs, hrounds, houts⟩ := h
  refine ⟨es :: outs, ?_, ?_⟩
  · rw [rounds_more heat, hrounds, Option.map_some, hafter]
  · rw [List.flatten_cons, texts_append, houts, htexts]

theorem gives_eaten {p : Qwen3Parser} {n : Nat} {next : Qwen3ParserState} (parts : Str → Parts)
    (heat : p.eat = p.eatLeadingWhitespaceAndTransitionTo next) (hflag : p.maybeThinkingOpenAtBOL = false)
    (h : Gives { p with state := next, buffer := trimLeft p.buffer } n (parts (trimLeft p.buffer))) :
    Gives p (n + 1) (eatenParts p.state parts p.buffer) := by
  rw [Qwen3Parser.eatLeadingWhitespaceAndTransitionTo] at heat
  by_cases hempty : trimLeft p.buffer = []
  · rw [if_pos hempty] at heat
    have heat' : p.eat = ([], p.after { state := p.state }, false) := by rw [heat, Qwen3Parser.after, ← hflag]
    rw [eatenParts_empty hempty]
    exact gives_stop heat' rfl
  · rw [if_neg hempty] at heat
    rw [eatenParts_ne hempty]
    exact gives_more heat h rfl rfl

/-- A tag, and what comes after it. -/
theorem splitAtTag_some {p : Qwen3Parser} {tag before after : Str} (h : cut tag p.buffer = some (before, after)) :
    p.splitAtTag tag = (trimRight before, trimLeft after, { p with buffer := trimLeft after }) := by
  rw [Qwen3Parser.splitAtTag, Parsers.splitAtTag, h]
  rfl

/-- An opening tag, and the state that drops white space after it. -/
theorem gives_tag {p : Qwen3Parser} {n : Nat} {a : Parts} {es : List Qwen3Event} (after : Str)
    (eating next : Qwen3ParserState) (parts : Str → Parts) (heat : p.eat = (es, { p with
      state := if trimLeft after = [] then eating else next, buffer := trimLeft after }, true))
    (heating : trimLeft after = [] → Gives { p with state := eating, buffer := [] } n { state := eating })
    (hnext : trimLeft after ≠ [] → Gives { p with state := next, buffer := trimLeft after } n (parts (trimLeft after)))
    (hafter : p.after (eatenParts eating parts after) = p.after a)
    (htexts : a.texts = both (Qwen3.texts es) (eatenParts eating parts after).texts) : Gives p (n + 1) a := by
  by_cases hempty : trimLeft after = []
  · rw [if_pos hempty, hempty] at heat
    rw [eatenParts_empty hempty] at hafter htexts
    exact gives_more heat (heating hempty) hafter htexts
  · rw [if_neg hempty] at heat
    rw [eatenParts_ne hempty] at hafter htexts
    exact gives_more heat (hnext hempty) hafter htexts

section
variable {p : Qwen3Parser} {n : Nat}
  (ih : ∀ q : Qwen3Parser, q.Started → q.work < n → Gives q n (q.parts q.buffer)) (hn : p.work < n + 1)
include ih hn

theorem gives_thinking (hflag : p.maybeThinkingOpenAtBOL = false) (hstate : p.state = .collectingThinking)
    (heat : p.eat = p.eatThinking) : Gives p (n + 1) (thinkingParts p.buffer) := by
  rw [Qwen3Parser.work, hstate] at hn
  dsimp only at hn
  cases hcut : cut thinkingCloseTag p.buffer with
  | none =>
    rw [Qwen3Parser.eatThinking, containsTag, hcut, if_neg (by simp), splitAmbiguous_eq] at heat
    rw [thinkingParts_none hcut]
    refine gives_stop (heat.trans ?_) (texts_emit_thinking _)
    rw [Qwen3Parser.after, ← hflag, ← hstate]
  | some q =>
    rw [Qwen3Parser.eatThinking, containsTag, hcut, if_pos Option.isSome_some, splitAtTag_some hcut] at heat
    rw [thinkingParts_some hcut]
    have hlen := length_of_cut hcut
    have h4 : thinkingCloseTag.length = 8 := rfl
    have h5 := length_trimLeft q.2
    refine gives_tag q.2 .thinkingDoneEatingWhitespace .collectingContent contentParts heat
      (fun _ => ih { p with buffer := [], state := .thinkingDoneEatingWhitespace } ⟨by simp, by simp, by simp [hflag]⟩ ?_)
      (fun _ => ih { p with buffer := trimLeft q.2, state := .collectingContent } ⟨by simp, by simp, by simp [hflag]⟩ ?_)
      rfl ?_
    · rw [Qwen3Parser.work]
      dsimp only [List.length_nil]
      omega
    · rw [Qwen3Parser.work]
      dsimp only
      omega
    · have hplain : (eatenParts .thinkingDoneEatingWhitespace contentParts q.2).thinking = [] := by
        unfold eatenParts
        split_ifs
        · rfl
        · exact (contentParts_plain _).thinking
      rw [texts_emit_thinking, both, Parts.texts, Parts.texts, hplain]
      simp

theorem gives_opened (hp : p.Started) (hflag : p.maybeThinkingOpenAtBOL = true) : Gives p (n + 1) (openedParts p.buffer) := by
  have hstate := hp.flag hflag
  have hwork := hn
  rw [Qwen3Parser.work, hstate] at hwork
  dsimp only at hwork
  have hlen := length_trimLeft p.buffer
  have h7 : thinkingOpenTag.length = 7 := rfl
  unfold openedParts
  dsimp only
  split_ifs with hopen hempty hpartial
  · have heat : p.eat = ([], p.after { state := .collectingThinking, maybeThinkingOpenAtBOL := true }, false) := by
      rw [Qwen3Parser.eat, hstate]
      dsimp only
      rw [if_pos hflag, if_pos (List.isPrefixOf_iff_prefix.mpr hopen), if_pos hempty, hempty, Qwen3Parser.after, hflag]
    exact gives_stop heat rfl
  · have heat : p.eat = ([], { p with
        buffer := trimLeft ((trimLeft p.buffer).drop thinkingOpenTag.length), maybeThinkingOpenAtBOL := false }, true) := by
      rw [Qwen3Parser.eat, hstate]
      dsimp only
      rw [if_pos hflag, if_pos (List.isPrefixOf_iff_prefix.mpr hopen), if_neg hempty]
    have hle := hopen.length_le
    have hdrop := length_trimLeft ((trimLeft p.buffer).drop thinkingOpenTag.length)
    rw [List.length_drop] at hdrop
    have hrest := ih { p with
      buffer := trimLeft ((trimLeft p.buffer).drop thinkingOpenTag.length), maybeThinkingOpenAtBOL := false }
      ⟨hp.looking, hp.opened, by simp⟩ (by
        rw [Qwen3Parser.work, hstate]
        dsimp only
        omega)
    rw [parts_thinking (p := { p with
      buffer := trimLeft ((trimLeft p.buffer).drop thinkingOpenTag.length), maybeThinkingOpenAtBOL := false }) hstate rfl]
      at hrest
    exact gives_more heat hrest rfl rfl
  · have heat : p.eat = ([], p.after { state := .collectingThinking, maybeThinkingOpenAtBOL := true, buffer := p.buffer },
        false) := by
      rw [Qwen3Parser.eat, hstate]
      dsimp only
      rw [if_pos hflag, if_neg (by rwa [List.isPrefixOf_iff_prefix]), if_pos (List.isPrefixOf_iff_prefix.mpr hpartial),
        Qwen3Parser.after, ← hflag, ← hstate]
    exact gives_stop heat rfl
  · -- without an opening tag the round is that of the parser without the flag
    have heat : p.eat = Qwen3Parser.eatThinking { p with maybeThinkingOpenAtBOL := false } := by
      rw [Qwen3Parser.eat, hstate]
      dsimp only
      rw [if_pos hflag, if_neg (by rwa [List.isPrefixOf_iff_prefix]), if_neg (by rwa [List.isPrefixOf_iff_prefix])]
    have heat' : Qwen3Parser.eat { p with maybeThinkingOpenAtBOL := false } =
        Qwen3Parser.eatThinking { p with maybeThinkingOpenAtBOL := false } := by
      rw [Qwen3Parser.eat, hstate]
      rfl
    have hsame := gives_thinking (p := { p with maybeThinkingOpenAtBOL := false }) ih hn rfl hstate heat'
    obtain ⟨outs, hrounds, houts⟩ := hsame
    refine ⟨outs, ?_, houts⟩
    rw [rounds, heat'] at hrounds
    rw [rounds, heat, hrounds]
    rfl

end

theorem gives_parts (p : Qwen3Parser) (hp : p.Started) {n : Nat} (hn : p.work < n) : Gives p n (p.parts p.buffer) := by
  induction n generalizing p with
  | zero => omega
  | succ n ih =>
    have hwork := hn
    have hflag : p.state ≠ .collectingThinking → p.maybeThinkingOpenAtBOL = false := fun h => by
      simpa using fun hflag => h (hp.flag hflag)
    have hlen := length_trimLeft p.buffer
    rw [Qwen3Parser.work] at hwork
    cases hs : p.state with
    | lookingForThinkingOpen => exact absurd hs hp.looking
    | thinkingStartedEatingWhitespace => exact absurd hs hp.opened
    | collectingThinking =>
      rw [Qwen3Parser.parts, hs]
      dsimp only
      split_ifs with h
      · exact gives_opened ih hn hp h
      · refine gives_thinking ih hn (by simpa using h) hs ?_
        rw [Qwen3Parser.eat, hs]
        dsimp only
        rw [if_neg h]
    | thinkingDoneEatingWhitespace =>
      rw [hs] at hwork
      dsimp only at hwork
      have heat : p.eat = p.eatLeadingWhitespaceAndTransitionTo .collectingContent := by
        rw [Qwen3Parser.eat, hs]
      have hplain := hflag (by simp [hs])
      have hrest := gives_eaten contentParts heat hplain (ih { p with state := .collectingContent, buffer := trimLeft p.buffer }
        ⟨by simp, by simp, by simp [hplain]⟩ (by
          rw [Qwen3Parser.work]
          dsimp only
          omega))
      rw [Qwen3Parser.parts, hs]
      rwa [hs] at hrest
    | toolStartedEatingWhitespace =>
      rw [hs] at hwork
      dsimp only at hwork
      have heat : p.eat = p.eatLeadingWhitespaceAndTransitionTo .collectingToolContent := by
        rw [Qwen3Parser.eat, hs]
      have hplain := hflag (by simp [hs])
      have hrest := gives_eaten toolParts heat hplain (ih { p with
        state := .collectingToolContent, buffer := trimLeft p.buffer } ⟨by simp, by simp, by simp [hplain]⟩ (by
          rw [Qwen3Parser.work]
          dsimp only
          omega))
      rw [Qwen3Parser.parts, hs]
      rwa [hs] at hrest
    | collectingContent =>
      have hplain := hflag (by simp [hs])
      rw [hs] at hwork
      dsimp only at hwork
      rw [Qwen3Parser.parts, hs]
      cases hcut : cut toolOpenTag p.buffer with
      | none =>
        have heat : p.eat = (emit .content (settled isSpace toolOpenTag p.buffer), p.after (contentParts p.buffer), false) := by
          rw [Qwen3Parser.eat, hs]
          dsimp only
          rw [containsTag, hcut, if_neg (by simp), splitAmbiguous_eq, contentParts_none hcut, Qwen3Parser.after, ← hplain]
        rw [contentParts_none hcut] at heat ⊢
        exact gives_stop heat (texts_emit_content _)
      | some q =>
        have heat : p.eat = (emit .content (trimRight q.1), { p with
            state := if trimLeft q.2 = [] then .toolStartedEatingWhitespace else .collectingToolContent
            buffer := trimLeft q.2 }, true) := by
          rw [Qwen3Parser.eat, hs]
          dsimp only
          rw [containsTag, hcut, if_pos Option.isSome_some, splitAtTag_some hcut]
        have h1 := length_of_cut hcut
        have h2 : toolOpenTag.length = 11 := rfl
        have h3 := length_trimLeft q.2
        rw [contentParts_some hcut]
        refine gives_tag q.2 .toolStartedEatingWhitespace .collectingToolContent toolParts heat
          (fun _ => ih { p with buffer := [], state := .toolStartedEatingWhitespace } ⟨by simp, by simp, by simp [hplain]⟩ ?_)
          (fun _ => ih { p with buffer := trimLeft q.2, state := .collectingToolContent } ⟨by simp, by simp, by simp [hplain]⟩ ?_)
          rfl ?_
        · rw [Qwen3Parser.work]
          dsimp only [List.length_nil]
          omega
        · rw [Qwen3Parser.work]
          dsimp only
          omega
        · rw [texts_emit_content]
          rfl
    | collectingToolContent =>
      have hplain := hflag (by simp [hs])
      rw [hs] at hwork
      dsimp only at hwork
      rw [Qwen3Parser.parts, hs]
      cases hcut : cut toolCloseTag p.buffer with
      | none =>
        have heat : p.eat = ([], p.after (toolParts p.buffer), false) := by
          rw [Qwen3Parser.eat, hs]
          dsimp only
          rw [containsTag, hcut, if_neg (by simp), toolParts_none hcut, Qwen3Parser.after, ← hs, ← hplain]
        rw [toolParts_none hcut] at heat ⊢
        exact gives_stop heat rfl
      | some q =>
        have heat : p.eat = ([.rawToolCall (trimRight q.1)], { p with
            state := .collectingContent, buffer := trimLeft q.2 }, true) := by
          rw [Qwen3Parser.eat, hs]
          dsimp only
          rw [containsTag, hcut, if_pos Option.isSome_some, splitAtTag_some hcut]
        have h1 := length_of_cut hcut
        have h2 : toolCloseTag.length = 12 := rfl
        have h3 := length_trimLeft q.2
        have hrest := ih { p with buffer := trimLeft q.2, state := .collectingContent } ⟨by simp, by simp, by simp [hplain]⟩ (by
          rw [Qwen3Parser.work]
          dsimp only
          omega)
        rw [toolParts_some hcut]
        exact gives_more heat hrest rfl rfl

end Xdragon.Parsers.Qwen3
