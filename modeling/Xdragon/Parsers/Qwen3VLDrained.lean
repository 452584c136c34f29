import Xdragon.Parsers.Qwen3VL
import Xdragon.Parsers.Returned

/-!
# The end of a Qwen3VL stream

What is left in the buffer of `Qwen3VLParser` behind the last chunk is not returned: `Add` does not drain it.
-/

namespace Xdragon.Parsers.Qwen3VL

open Xdragon.Lib

def QwenEvent.said : QwenEvent → Said Str
  | .rawToolCall raw => .call raw
  | .thinkingContent text => .thinking text
  | .content text => .content text

section
variable {C ε : Type} (parseJSONToolCall : Str → Except ε C)

def Qwen3VLParser.add (p : Qwen3VLParser) (s : Str) : Option (Answer C ε × Qwen3VLParser) :=
  (p.parseEvents s).map fun r => (answer parseJSONToolCall (r.1.map QwenEvent.said), r.2)

def stream : TextReader Qwen3VLParser QwenEvent Char where
  buffer p := p.buffer
  write p s := { p with buffer := p.buffer ++ s }
  eat := Qwen3VLParser.eat
  bound p s := 2 * (p.buffer.length + s.length) + 2
  text e := e.said.text
  answered es := answered parseJSONToolCall (es.map QwenEvent.said)

end

/-! ## Every round -/

theorem toolOpenTag_space : ∀ x ∈ toolOpenTag, isSpace x = false := by decide

def tags : List Str := [thinkingCloseTag, toolOpenTag, toolCloseTag]

def Span (a w b : Str) : Prop := Tagged tags toolOpenTag toolCloseTag a w b

/-- The text that was taken, and the parser. -/
def Inv (t : Str) (p : Qwen3VLParser) : Prop :=
  match p.state with
  | .collectingThinkingContent => KeepsTail thinkingCloseTag t p.buffer
  | .collectingContent => KeepsTail toolOpenTag t p.buffer
  | .collectingToolContent => toolOpenTag <:+ t
  | .thinkingDoneEatingWhitespace => Clean isSpace toolOpenTag t
  | .toolCallDoneEatingWhitespace => Clean isSpace toolOpenTag t

/-- The tags that the parser waits for outside a tool call. -/
def Qwen3VLParser.awaited (p : Qwen3VLParser) : List Str :=
  match p.state with
  | .collectingThinkingContent => [thinkingCloseTag]
  | .collectingContent => [toolOpenTag]
  | _ => []

/-- A parser between two calls. -/
def Done (p : Qwen3VLParser) : Prop := p.state ≠ .collectingToolContent → Waits isSpace p.awaited p.buffer

theorem said_content (t : Str) : (emit .content t).flatMap (fun e => e.said.text) = t := by
  unfold emit
  cases t <;> simp [QwenEvent.said, Said.text]

theorem said_thinking (t : Str) : (emit .thinkingContent t).flatMap (fun e => e.said.text) = t := by
  unfold emit
  cases t <;> simp [QwenEvent.said, Said.text]

section
variable {p : Qwen3VLParser}

theorem eat_content_none (hstate : p.state = .collectingContent) (h : cut toolOpenTag p.buffer = none) :
    p.eat = (emit .content (settled isSpace toolOpenTag p.buffer), { p with buffer := pending isSpace toolOpenTag p.buffer },
      false) := by
  rw [Qwen3VLParser.eat, hstate]
  dsimp only
  rw [containsTag, h, if_neg (by simp), splitAmbiguous_eq, ← hstate]

theorem eat_content_some (hstate : p.state = .collectingContent) {before after : Str}
    (h : cut toolOpenTag p.buffer = some (before, after)) :
    p.eat = (emit .content (trimRight before), { p with state := .collectingToolContent, buffer := after }, true) := by
  rw [Qwen3VLParser.eat, hstate]
  dsimp only
  rw [containsTag, h, if_pos Option.isSome_some, splitAtTag, h]
  rfl

theorem eat_tool_none (hstate : p.state = .collectingToolContent) (h : cut toolCloseTag p.buffer = none) :
    p.eat = ([], p, false) := by
  rw [Qwen3VLParser.eat, hstate]
  dsimp only
  rw [h]

theorem eat_tool_some (hstate : p.state = .collectingToolContent) {before after : Str}
    (h : cut toolCloseTag p.buffer = some (before, after)) :
    p.eat = ([.rawToolCall before], { p with state := .toolCallDoneEatingWhitespace, buffer := after }, true) := by
  rw [Qwen3VLParser.eat, hstate]
  dsimp only
  rw [h]

theorem eat_thinking_none (hstate : p.state = .collectingThinkingContent) (h : cut thinkingCloseTag p.buffer = none) :
    p.eat = (emit .thinkingContent (settled isSpace thinkingCloseTag p.buffer),
      { p with buffer := pending isSpace thinkingCloseTag p.buffer }, false) := by
  rw [Qwen3VLParser.eat, hstate]
  dsimp only
  rw [containsTag, h, if_neg (by simp), splitAmbiguous_eq, ← hstate]

theorem eat_thinking_some (hstate : p.state = .collectingThinkingContent) {before after : Str}
    (h : cut thinkingCloseTag p.buffer = some (before, after)) : p.eat = (emit .thinkingContent (trimRight before), { p with
      state := if trimLeft after = [] then .thinkingDoneEatingWhitespace else .collectingContent
      buffer := trimLeft after }, true) := by
  rw [Qwen3VLParser.eat, hstate]
  dsimp only
  rw [containsTag, h, if_pos Option.isSome_some, splitAtTag, h]
  rfl

end

section
variable {C ε : Type} (parseJSONToolCall : Str → Except ε C)

/-- A state that drops white space. -/
theorem step_eaten {t : Str} {p : Qwen3VLParser} (heat : p.eat = p.eatLeadingWhitespaceAndTransitionTo .collectingContent)
    (hbehind : Clean isSpace toolOpenTag t) (hInv : ∀ t, Clean isSpace toolOpenTag t → Inv t { p with buffer := [] }) :
    (stream parseJSONToolCall).Step Span isSpace Inv Done t p := by
  have hspace := space_append_trimLeft p.buffer
  have hw : ∀ x ∈ p.buffer.takeWhile isSpace, isSpace x = true := fun _ hx => List.mem_takeWhile_imp hx
  unfold Qwen3VLParser.eatLeadingWhitespaceAndTransitionTo at heat
  dsimp only at heat
  split_ifs at heat with hempty
  · rw [hempty, List.append_nil] at hspace
    rw [hspace] at hw
    refine TextReader.step_of [] p.buffer heat rfl ?_ (skipped_space hw) ?_ fun _ _ => ⟨[], [], rfl, nofun, .inl rfl⟩
    · exact (List.append_nil p.buffer).symm
    · rw [List.append_nil]
      exact hInv _ (hbehind.space hw)
  · refine TextReader.step_of [] (p.buffer.takeWhile isSpace) heat rfl hspace.symm (skipped_space hw) ?_ nofun
    rw [List.append_nil]
    exact hbehind _ _ hw

theorem stream_keeps : (stream parseJSONToolCall).Keeps Span isSpace Inv Done where
  more := Tagged.more
  write {t p} s h := by
    refine ⟨rfl, ?_⟩
    obtain ⟨state, buffer, hasThinkingSupport⟩ := p
    cases state with
    | collectingThinkingContent => exact h.append s
    | collectingContent => exact h.append s
    | collectingToolContent => exact h
    | thinkingDoneEatingWhitespace => exact h
    | toolCallDoneEatingWhitespace => exact h
  enough {t p} s _ := by
    obtain ⟨events, hevents, -⟩ := parseEvents_eq p s
    obtain ⟨r, hr, -⟩ := Option.map_eq_some_iff.mp hevents
    exact fun h => nomatch h.symm.trans hr
  step {t p} h := by
    cases hstate : p.state with
    | collectingThinkingContent =>
      rw [Inv, hstate] at h
      cases hcut : cut thinkingCloseTag p.buffer with
      | none =>
        refine TextReader.step_of _ [] (eat_thinking_none hstate hcut) (said_thinking _) ?_ (skipped_space nofun) ?_ fun _ _ => ?_
        · exact (settled_append_pending isSpace thinkingCloseTag p.buffer).symm
        · rw [List.append_nil, Inv, hstate]
          exact KeepsTail.pending h
        · rw [Qwen3VLParser.awaited, hstate]
          exact waits_pending (List.mem_singleton_self _) hcut
      | some q =>
        refine TextReader.step_of _ (q.1.rtakeWhile isSpace ++ (thinkingCloseTag ++ q.2.takeWhile isSpace))
          (eat_thinking_some hstate hcut) (said_thinking _) (cut_trimmed_both hcut)
          (skipped_tag_spaced (by simp [tags]) _ _ _) ?_ nofun
        have hclean : Clean isSpace toolOpenTag
            (t ++ trimRight q.1 ++ (q.1.rtakeWhile isSpace ++ (thinkingCloseTag ++ q.2.takeWhile isSpace))) := by
          rw [← List.append_assoc, ← List.append_assoc]
          exact (clean_behind (by decide) (by decide) toolOpenTag_space).space fun _ hx => List.mem_takeWhile_imp hx
        unfold Inv
        dsimp only
        split_ifs
        · exact hclean
        · exact hclean.keepsTail
    | collectingContent =>
      rw [Inv, hstate] at h
      cases hcut : cut toolOpenTag p.buffer with
      | none =>
        refine TextReader.step_of _ [] (eat_content_none hstate hcut) (said_content _) ?_ (skipped_space nofun) ?_ fun _ _ => ?_
        · exact (settled_append_pending isSpace toolOpenTag p.buffer).symm
        · rw [List.append_nil, Inv, hstate]
          exact KeepsTail.pending h
        · rw [Qwen3VLParser.awaited, hstate]
          exact waits_pending (List.mem_singleton_self _) hcut
      | some q =>
        refine TextReader.step_of _ (q.1.rtakeWhile isSpace ++ toolOpenTag) (eat_content_some hstate hcut) (said_content _)
          (cut_trimmed hcut) ?_ ?_ nofun
        · exact (skipped_trailing _ _).append Tagged.more (skipped_tag (by simp [tags]))
        · exact ⟨_, List.append_assoc ..⟩
    | collectingToolContent =>
      rw [Inv, hstate] at h
      cases hcut : cut toolCloseTag p.buffer with
      | none =>
        refine TextReader.step_of [] [] (eat_tool_none hstate hcut) rfl rfl (skipped_space nofun) ?_ fun _ hout => absurd hstate hout
        rw [List.append_nil, List.append_nil, Inv, hstate]
        exact h
      | some q =>
        refine TextReader.step_of [] (q.1 ++ toolCloseTag) (eat_tool_some hstate hcut) rfl ?_ ?_ ?_ nofun
        · rw [List.nil_append, List.append_assoc]
          exact (cut_eq_some hcut).1
        · have hcut' : cut toolCloseTag ([] ++ q.1 ++ (toolCloseTag ++ [])) = some ([] ++ q.1, []) := by
            have := cut_of_append (a := []) (b := q.2) hcut
            simpa using this
          exact skipped_call (by simp [tags]) h hcut'
        · rw [List.append_nil, ← List.append_assoc]
          exact clean_behind (by decide) (by decide) toolOpenTag_space
    | thinkingDoneEatingWhitespace =>
      rw [Inv, hstate] at h
      refine step_eaten parseJSONToolCall (by rw [Qwen3VLParser.eat, hstate]) h fun t ht => ?_
      rw [Inv, hstate]
      exact ht
    | toolCallDoneEatingWhitespace =>
      rw [Inv, hstate] at h
      refine step_eaten parseJSONToolCall (by rw [Qwen3VLParser.eat, hstate]) h fun t ht => ?_
      rw [Inv, hstate]
      exact ht

/-- Everything outside the tool calls is returned unless the text ends with the beginning of a closing tag in the thinking, or of an
opening tag behind it. -/
theorem stream_returns (hasThinkingSupport : Bool) (lastMessage : Option Message) :
    ReturnsUnless (stream parseJSONToolCall) Span (·.state = .collectingToolContent) Qwen3VLParser.awaited
      (Qwen3VLParser.setInitialState { hasThinkingSupport } lastMessage) := by
  have hinit : Qwen3VLParser.setInitialState { hasThinkingSupport } lastMessage = { hasThinkingSupport } ∨
      Qwen3VLParser.setInitialState { hasThinkingSupport } lastMessage = { hasThinkingSupport, state := .collectingContent } := by
    unfold Qwen3VLParser.setInitialState
    dsimp only
    split_ifs
    · exact .inr rfl
    · exact .inr rfl
    · exact .inl rfl
  have hI : Inv [] (Qwen3VLParser.setInitialState { hasThinkingSupport } lastMessage) := by
    obtain h | h := hinit
    · rw [h]
      exact keepsTail_nil
    · rw [h]
      exact keepsTail_nil
  have hbuffer : (Qwen3VLParser.setInitialState { hasThinkingSupport } lastMessage).buffer = [] := by
    obtain h | h := hinit
    · rw [h]
    · rw [h]
  refine returnsUnless (stream_keeps parseJSONToolCall) hI (fun _ => ⟨[], [], hbuffer, nofun, .inl rfl⟩) hbuffer ?_
  intro t p hI hD hout
  refine ⟨hD hout, fun tag htag => ?_⟩
  unfold Inv at hI
  unfold Qwen3VLParser.awaited at htag
  cases hstate : p.state with
  | collectingThinkingContent =>
    rw [hstate] at hI htag
    obtain rfl := List.mem_singleton.mp htag
    exact ⟨hI, by decide, uncovered_tagged (by decide) (by decide)⟩
  | collectingContent =>
    rw [hstate] at hI htag
    obtain rfl := List.mem_singleton.mp htag
    exact ⟨hI, toolOpenTag_space, uncovered_tagged (by decide) (by decide)⟩
  | collectingToolContent => exact absurd hstate hout
  | thinkingDoneEatingWhitespace =>
    rw [hstate] at htag
    cases htag
  | toolCallDoneEatingWhitespace =>
    rw [hstate] at htag
    cases htag

end

end Xdragon.Parsers.Qwen3VL
