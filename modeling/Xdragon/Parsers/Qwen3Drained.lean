import Xdragon.Parsers.Qwen3Chunks
import Xdragon.Parsers.Returned

/-!
# The end of a Qwen3 stream

What is left in the buffer of `Qwen3Parser` behind the last chunk is not returned: `Add` does not drain it.
-/

namespace Xdragon.Parsers.Qwen3

open Xdragon.Lib

def Qwen3Event.said : Qwen3Event → Said Str
  | .content text => .content text
  | .rawToolCall raw => .call raw
  | .thinkingContent text => .thinking text

section
variable {C ε : Type} (parseQwen3ToolCall : Str → Except ε C)

def Qwen3Parser.add (p : Qwen3Parser) (s : Str) : Option (Answer C ε × Qwen3Parser) :=
  (p.parseEvents s).map fun r => (answer parseQwen3ToolCall (r.1.map Qwen3Event.said), r.2)

def stream : TextReader Qwen3Parser Qwen3Event Char where
  buffer p := p.buffer
  write p s := { p with buffer := p.buffer ++ s }
  eat := Qwen3Parser.eat
  bound p s := 2 * (p.buffer.length + s.length) + 2
  text e := e.said.text
  answered es := answered parseQwen3ToolCall (es.map Qwen3Event.said)

end

/-! ## Every round -/

def tags : List Str := [thinkingOpenTag, thinkingCloseTag, toolOpenTag, toolCloseTag]

def Span (a w b : Str) : Prop := Tagged tags toolOpenTag toolCloseTag a w b

/-- Text behind an opening tag of a tool call, and white space. -/
def BehindOpen (t : Str) : Prop := ∃ a u, t = a ++ u ∧ toolOpenTag <:+ a ∧ ∀ x ∈ u, isSpace x = true

/-- The text that was taken, and the parser. -/
structure Inv (t : Str) (p : Qwen3Parser) : Prop where
  started : p.Started
  opening : p.maybeThinkingOpenAtBOL = true → Clean isSpace thinkingOpenTag t ∧ Clean isSpace thinkingCloseTag t
  thinking : p.maybeThinkingOpenAtBOL = false → p.state = .collectingThinking → KeepsTail thinkingCloseTag t p.buffer
  eaten : p.state = .thinkingDoneEatingWhitespace → Clean isSpace toolOpenTag t
  content : p.state = .collectingContent → KeepsTail toolOpenTag t p.buffer
  call : p.state = .toolStartedEatingWhitespace ∨ p.state = .collectingToolContent → BehindOpen t

def Qwen3Parser.InToolCall (p : Qwen3Parser) : Prop :=
  p.state = .toolStartedEatingWhitespace ∨ p.state = .collectingToolContent

/-- The tags that the parser waits for outside a tool call. -/
def Qwen3Parser.awaited (p : Qwen3Parser) : List Str :=
  match p.state with
  | .collectingThinking => if p.maybeThinkingOpenAtBOL then [thinkingOpenTag] else [thinkingCloseTag]
  | .collectingContent => [toolOpenTag]
  | _ => []

/-- A parser between two calls. -/
def Done (p : Qwen3Parser) : Prop := ¬ p.InToolCall → Waits isSpace p.awaited p.buffer

theorem said_content (t : Str) : (emit .content t).flatMap (fun e => e.said.text) = t := by
  unfold emit
  cases t <;> simp [Qwen3Event.said, Said.text]

theorem said_thinking (t : Str) : (emit .thinkingContent t).flatMap (fun e => e.said.text) = t := by
  unfold emit
  cases t <;> simp [Qwen3Event.said, Said.text]

section
variable {p : Qwen3Parser}

theorem eatThinking_none (h : cut thinkingCloseTag p.buffer = none) :
    p.eatThinking = (emit .thinkingContent (settled isSpace thinkingCloseTag p.buffer),
      { p with buffer := pending isSpace thinkingCloseTag p.buffer }, false) := by
  rw [Qwen3Parser.eatThinking, containsTag, h, if_neg (by simp), splitAmbiguous_eq]

theorem eatThinking_some {before after : Str} (h : cut thinkingCloseTag p.buffer = some (before, after)) :
    p.eatThinking = (emit .thinkingContent (trimRight before), { p with
      state := if trimLeft after = [] then .thinkingDoneEatingWhitespace else .collectingContent
      buffer := trimLeft after }, true) := by
  rw [Qwen3Parser.eatThinking, containsTag, h, if_pos Option.isSome_some, splitAtTag_some h]

theorem eat_content_none (hstate : p.state = .collectingContent) (h : cut toolOpenTag p.buffer = none) :
    p.eat = (emit .content (settled isSpace toolOpenTag p.buffer), { p with buffer := pending isSpace toolOpenTag p.buffer },
      false) := by
  rw [Qwen3Parser.eat, hstate]
  dsimp only
  rw [containsTag, h, if_neg (by simp), splitAmbiguous_eq]

theorem eat_content_some (hstate : p.state = .collectingContent) {before after : Str}
    (h : cut toolOpenTag p.buffer = some (before, after)) : p.eat = (emit .content (trimRight before), { p with
      state := if trimLeft after = [] then .toolStartedEatingWhitespace else .collectingToolContent
      buffer := trimLeft after }, true) := by
  rw [Qwen3Parser.eat, hstate]
  dsimp only
  rw [containsTag, h, if_pos Option.isSome_some, splitAtTag_some h]

theorem eat_tool_none (hstate : p.state = .collectingToolContent) (h : cut toolCloseTag p.buffer = none) :
    p.eat = ([], p, false) := by
  rw [Qwen3Parser.eat, hstate]
  dsimp only
  rw [containsTag, h, if_neg (by simp)]

theorem eat_tool_some (hstate : p.state = .collectingToolContent) {before after : Str}
    (h : cut toolCloseTag p.buffer = some (before, after)) :
    p.eat = ([.rawToolCall (trimRight before)], { p with state := .collectingContent, buffer := trimLeft after }, true) := by
  rw [Qwen3Parser.eat, hstate]
  dsimp only
  rw [containsTag, h, if_pos Option.isSome_some, splitAtTag_some h]

end

section
variable {C ε : Type} (parseQwen3ToolCall : Str → Except ε C)

/-- A round in the thinking, of a parser that expects no opening tag any more. -/
theorem step_thinking {t : Str} {p q : Qwen3Parser} (heat : p.eat = q.eatThinking) (hq : q.Started)
    (hstate : q.state = .collectingThinking) (hflag : q.maybeThinkingOpenAtBOL = false) (hbuffer : q.buffer = p.buffer)
    (h : KeepsTail thinkingCloseTag t q.buffer) : (stream parseQwen3ToolCall).Step Span isSpace Inv Done t p := by
  cases hcut : cut thinkingCloseTag q.buffer with
  | none =>
    refine TextReader.step_of _ [] (heat.trans (eatThinking_none hcut)) (said_thinking _) ?_ (skipped_space nofun) ?_ fun _ _ => ?_
    · exact hbuffer.symm.trans (settled_append_pending isSpace thinkingCloseTag q.buffer).symm
    · rw [List.append_nil]
      exact ⟨⟨hq.looking, hq.opened, hq.flag⟩, by simp [hflag], fun _ _ => KeepsTail.pending h, by simp [hstate], by simp [hstate],
        by simp [hstate]⟩
    · rw [Qwen3Parser.awaited, hstate]
      dsimp only
      rw [hflag]
      exact waits_pending (List.mem_singleton_self _) hcut
  | some r =>
    refine TextReader.step_of _ (r.1.rtakeWhile isSpace ++ (thinkingCloseTag ++ r.2.takeWhile isSpace))
      (heat.trans (eatThinking_some hcut)) (said_thinking _) (hbuffer.symm.trans (cut_trimmed_both hcut))
      (skipped_tag_spaced (by simp [tags]) _ _ _) ?_ nofun
    have hclean : Clean isSpace toolOpenTag
        (t ++ trimRight r.1 ++ (r.1.rtakeWhile isSpace ++ (thinkingCloseTag ++ r.2.takeWhile isSpace))) := by
      rw [← List.append_assoc, ← List.append_assoc]
      exact (clean_behind (by decide) (by decide) toolOpenTag_space).space fun _ hx => List.mem_takeWhile_imp hx
    by_cases hempty : trimLeft r.2 = []
    · rw [if_pos hempty]
      exact ⟨⟨by simp, by simp, by simp [hflag]⟩, by simp [hflag], by simp, fun _ => hclean, by simp, by simp⟩
    · rw [if_neg hempty]
      exact ⟨⟨by simp, by simp, by simp [hflag]⟩, by simp [hflag], by simp, by simp, fun _ => hclean.keepsTail, by simp⟩

/-- A round at the start of the thinking. -/
theorem step_opening {t : Str} {p : Qwen3Parser} (h : Inv t p) (hflag : p.maybeThinkingOpenAtBOL = true) :
    (stream parseQwen3ToolCall).Step Span isSpace Inv Done t p := by
  have hstate := h.started.flag hflag
  obtain ⟨hopen, hclose⟩ := h.opening hflag
  by_cases hprefix : thinkingOpenTag <+: trimLeft p.buffer
  · obtain ⟨rest, hrest⟩ := hprefix
    have hdrop : (trimLeft p.buffer).drop thinkingOpenTag.length = rest := by rw [← hrest, List.drop_left]
    have hbuffer : p.buffer = [] ++ (p.buffer.takeWhile isSpace ++ (thinkingOpenTag ++ rest.takeWhile isSpace) ++ trimLeft rest) := by
      rw [List.nil_append, List.append_assoc, List.append_assoc, space_append_trimLeft, hrest, space_append_trimLeft]
    have hskipped : Skipped Span isSpace (t ++ []) (p.buffer.takeWhile isSpace ++ (thinkingOpenTag ++ rest.takeWhile isSpace)) :=
      (skipped_leading _ _).append Tagged.more ((skipped_tag (by simp [tags])).append Tagged.more (skipped_leading _ _))
    have hbehind : ∀ tag, (∀ x ∈ thinkingOpenTag.getLast?, x ∉ tag.dropLast) → (∀ x ∈ tag, isSpace x = false) →
        Clean isSpace tag (t ++ [] ++ (p.buffer.takeWhile isSpace ++ (thinkingOpenTag ++ rest.takeWhile isSpace))) := by
      intro tag hlast htag
      rw [← List.append_assoc, ← List.append_assoc]
      exact (clean_behind (by decide) hlast htag).space fun _ hx => List.mem_takeWhile_imp hx
    by_cases hempty : trimLeft rest = []
    · have heat : p.eat = ([], { p with buffer := [] }, false) := by
        rw [Qwen3Parser.eat, hstate]
        dsimp only
        rw [if_pos hflag, if_pos (List.isPrefixOf_iff_prefix.mpr ⟨rest, hrest⟩), hdrop, if_pos hempty, hempty]
      rw [hempty] at hbuffer
      refine TextReader.step_of [] _ heat rfl hbuffer hskipped ?_ fun _ _ => ⟨[], [], rfl, (by simp), .inl rfl⟩
      exact ⟨⟨h.started.looking, h.started.opened, h.started.flag⟩,
        fun _ => ⟨hbehind _ (by decide) (by decide), hbehind _ (by decide) (by decide)⟩, by simp [hflag], by simp [hstate],
        by simp [hstate], by simp [hstate]⟩
    · have heat : p.eat = ([], { p with buffer := trimLeft rest, maybeThinkingOpenAtBOL := false }, true) := by
        rw [Qwen3Parser.eat, hstate]
        dsimp only
        rw [if_pos hflag, if_pos (List.isPrefixOf_iff_prefix.mpr ⟨rest, hrest⟩), hdrop, if_neg hempty]
      refine TextReader.step_of [] _ heat rfl hbuffer hskipped ?_ (by simp)
      exact ⟨⟨h.started.looking, h.started.opened, (by simp)⟩, (by simp), fun _ _ => (hbehind _ (by decide) (by decide)).keepsTail,
        by simp [hstate], by simp [hstate], by simp [hstate]⟩
  · by_cases hpart : trimLeft p.buffer <+: thinkingOpenTag
    · have heat : p.eat = ([], p, false) := by
        rw [Qwen3Parser.eat, hstate]
        dsimp only
        rw [if_pos hflag, if_neg (by rwa [List.isPrefixOf_iff_prefix]), if_pos (List.isPrefixOf_iff_prefix.mpr hpart)]
      refine TextReader.step_of [] [] heat rfl rfl (skipped_space (by simp)) ?_ fun _ _ => ?_
      · rwa [List.append_nil, List.append_nil]
      · rw [Qwen3Parser.awaited, hstate]
        dsimp only
        rw [if_pos hflag]
        refine ⟨p.buffer.takeWhile isSpace, trimLeft p.buffer, (space_append_trimLeft _).symm,
          fun _ hx => List.mem_takeWhile_imp hx, .inr ⟨_, List.mem_singleton_self _, (trimLeft p.buffer).length, ?_,
          List.prefix_iff_eq_take.mp hpart⟩⟩
        refine Nat.lt_of_le_of_ne hpart.length_le fun hlen => hprefix ?_
        rw [hpart.eq_of_length hlen]
    · have heat : p.eat = Qwen3Parser.eatThinking { p with maybeThinkingOpenAtBOL := false } := by
        rw [Qwen3Parser.eat, hstate]
        dsimp only
        rw [if_pos hflag, if_neg (by rwa [List.isPrefixOf_iff_prefix]), if_neg (by rwa [List.isPrefixOf_iff_prefix])]
      exact step_thinking parseQwen3ToolCall heat ⟨h.started.looking, h.started.opened, (by simp)⟩ hstate rfl rfl hclose.keepsTail

/-- A round in a state that drops white space. -/
theorem step_eaten {t : Str} {p : Qwen3Parser} {next : Qwen3ParserState} (heat : p.eat = p.eatLeadingWhitespaceAndTransitionTo next)
    (hstop : ∀ w, (∀ x ∈ w, isSpace x = true) → Inv (t ++ w) { p with buffer := [] })
    (hnext : ∀ w b, (∀ x ∈ w, isSpace x = true) → Inv (t ++ w) { p with state := next, buffer := b }) :
    (stream parseQwen3ToolCall).Step Span isSpace Inv Done t p := by
  have hspace := space_append_trimLeft p.buffer
  have hw : ∀ x ∈ p.buffer.takeWhile isSpace, isSpace x = true := fun _ hx => List.mem_takeWhile_imp hx
  unfold Qwen3Parser.eatLeadingWhitespaceAndTransitionTo at heat
  dsimp only at heat
  split_ifs at heat with hempty
  · rw [hempty, List.append_nil] at hspace
    rw [hspace] at hw
    refine TextReader.step_of [] p.buffer heat rfl ?_ (skipped_space hw) ?_ fun _ _ => ⟨[], [], rfl, nofun, .inl rfl⟩
    · exact (List.append_nil p.buffer).symm
    · rw [List.append_nil]
      exact hstop _ hw
  · refine TextReader.step_of [] (p.buffer.takeWhile isSpace) heat rfl hspace.symm (skipped_space hw) ?_ nofun
    rw [List.append_nil]
    exact hnext _ _ hw

theorem stream_keeps : (stream parseQwen3ToolCall).Keeps Span isSpace Inv Done where
  more := Tagged.more
  write {t p} s h := by
    refine ⟨rfl, ⟨h.started.looking, h.started.opened, h.started.flag⟩, h.opening, fun hflag hstate => ?_, h.eaten, fun hstate => ?_,
      h.call⟩
    · exact (h.thinking hflag hstate).append s
    · exact (h.content hstate).append s
  enough {t p} s h := by
    obtain ⟨events, hevents, -⟩ := parseEvents_eq h.started s
    obtain ⟨r, hr, -⟩ := Option.map_eq_some_iff.mp hevents
    intro h
    cases h.symm.trans hr
  step {t p} h := by
    by_cases hflag : p.maybeThinkingOpenAtBOL = true
    · exact step_opening parseQwen3ToolCall h hflag
    · rw [Bool.not_eq_true] at hflag
      cases hstate : p.state with
      | lookingForThinkingOpen => exact absurd hstate h.started.looking
      | thinkingStartedEatingWhitespace => exact absurd hstate h.started.opened
      | collectingThinking =>
        have heat : p.eat = p.eatThinking := by
          rw [Qwen3Parser.eat, hstate]
          dsimp only
          rw [if_neg (by simp [hflag])]
        exact step_thinking parseQwen3ToolCall heat h.started hstate hflag rfl (h.thinking hflag hstate)
      | thinkingDoneEatingWhitespace =>
        refine step_eaten parseQwen3ToolCall (by rw [Qwen3Parser.eat, hstate]) (fun w hw => ?_) fun w b hw => ?_
        · exact ⟨⟨h.started.looking, h.started.opened, h.started.flag⟩, by simp [hflag], by simp [hstate],
            fun _ => (h.eaten hstate).space hw, by simp [hstate], by simp [hstate]⟩
        · exact ⟨⟨by simp, by simp, by simp [hflag]⟩, by simp [hflag], by simp, by simp, fun _ => h.eaten hstate _ _ hw, by simp⟩
      | collectingContent =>
        cases hcut : cut toolOpenTag p.buffer with
        | none =>
          refine TextReader.step_of _ [] (eat_content_none hstate hcut) (said_content _) ?_ (skipped_space (by simp)) ?_ fun _ _ => ?_
          · exact (settled_append_pending isSpace toolOpenTag p.buffer).symm
          · rw [List.append_nil]
            exact ⟨⟨h.started.looking, h.started.opened, h.started.flag⟩, by simp [hflag], by simp [hstate], by simp [hstate],
              fun _ => KeepsTail.pending (h.content hstate), by simp [hstate]⟩
          · rw [Qwen3Parser.awaited, hstate]
            exact waits_pending (List.mem_singleton_self _) hcut
        | some q =>
          refine TextReader.step_of _ (q.1.rtakeWhile isSpace ++ (toolOpenTag ++ q.2.takeWhile isSpace))
            (eat_content_some hstate hcut) (said_content _) (cut_trimmed_both hcut)
            (skipped_tag_spaced (by simp [tags]) _ _ _) ?_ (by simp)
          have hcall : BehindOpen (t ++ trimRight q.1 ++ (q.1.rtakeWhile isSpace ++ (toolOpenTag ++ q.2.takeWhile isSpace))) :=
            ⟨_, _, by rw [← List.append_assoc, ← List.append_assoc], ⟨_, rfl⟩, fun _ hx => List.mem_takeWhile_imp hx⟩
          by_cases hempty : trimLeft q.2 = []
          · rw [if_pos hempty]
            exact ⟨⟨by simp, by simp, by simp [hflag]⟩, by simp [hflag], by simp, by simp, by simp, fun _ => hcall⟩
          · rw [if_neg hempty]
            exact ⟨⟨by simp, by simp, by simp [hflag]⟩, by simp [hflag], by simp, by simp, by simp, fun _ => hcall⟩
      | toolStartedEatingWhitespace =>
        obtain ⟨a, u, rfl, hopen, hu⟩ := h.call (.inl hstate)
        have hcall : ∀ w, (∀ x ∈ w, isSpace x = true) → BehindOpen (a ++ u ++ w) := fun w hw =>
          ⟨a, u ++ w, by rw [List.append_assoc], hopen, fun x hx => (List.mem_append.mp hx).elim (hu x) (hw x)⟩
        refine step_eaten parseQwen3ToolCall (by rw [Qwen3Parser.eat, hstate]) (fun w hw => ?_) fun w b hw => ?_
        · exact ⟨⟨h.started.looking, h.started.opened, h.started.flag⟩, by simp [hflag], by simp [hstate], by simp [hstate],
            by simp [hstate], fun _ => hcall w hw⟩
        · exact ⟨⟨by simp, by simp, by simp [hflag]⟩, by simp [hflag], by simp, by simp, by simp, fun _ => hcall w hw⟩
      | collectingToolContent =>
        cases hcut : cut toolCloseTag p.buffer with
        | none =>
          refine TextReader.step_of [] [] (eat_tool_none hstate hcut) rfl rfl (skipped_space (by simp)) ?_
            fun _ hout => absurd (.inr hstate) hout
          rwa [List.append_nil, List.append_nil]
        | some q =>
          obtain ⟨a, u, rfl, hopen, hu⟩ := h.call (.inr hstate)
          refine TextReader.step_of [] (q.1 ++ (toolCloseTag ++ q.2.takeWhile isSpace)) (eat_tool_some hstate hcut) rfl
            (cut_trimmed_after hcut) ?_ ?_ (by simp)
          · have hclear : Clear toolCloseTag u := clear_of_space (by decide) (by decide) hu
            have hcut' : cut toolCloseTag (u ++ q.1 ++ (toolCloseTag ++ q.2)) = some (u ++ q.1, q.2) := by
              rw [List.append_assoc, ← (cut_eq_some hcut).1, cut_clear hclear, hcut]
              rfl
            rw [List.append_nil]
            exact skipped_call (by simp [tags]) hopen hcut'
          · have hclean : Clean isSpace toolOpenTag (a ++ u ++ [] ++ (q.1 ++ (toolCloseTag ++ q.2.takeWhile isSpace))) := by
              rw [← List.append_assoc, ← List.append_assoc]
              exact (clean_behind (by decide) (by decide) toolOpenTag_space).space fun _ hx => List.mem_takeWhile_imp hx
            exact ⟨⟨by simp, by simp, by simp [hflag]⟩, by simp [hflag], by simp, by simp, fun _ => hclean.keepsTail, by simp⟩

/-- Everything outside the tool calls is returned unless the text ends with the beginning of an opening tag at the start of the
thinking, of a closing tag in it, or of the opening tag of a tool call behind it. -/
theorem stream_returns (parser : Qwen3Parser) (thinkValue : Option Bool) : ReturnsUnless (stream parseQwen3ToolCall) Span
    Qwen3Parser.InToolCall Qwen3Parser.awaited (parser.init thinkValue) := by
  have hinit : (parser.init thinkValue).buffer = [] ∧ Inv [] (parser.init thinkValue) := by
    unfold Qwen3Parser.init
    dsimp only
    split_ifs
    · exact ⟨rfl, ⟨by simp, by simp, by simp⟩, fun _ => ⟨clean_nil (by decide), clean_nil (by decide)⟩, nofun, nofun, nofun, by simp⟩
    · exact ⟨rfl, ⟨by simp, by simp, by simp⟩, nofun, by simp, nofun, fun _ => keepsTail_nil, by simp⟩
  obtain ⟨hbuffer, hI⟩ := hinit
  refine returnsUnless (stream_keeps parseQwen3ToolCall) hI (fun _ => ⟨[], [], hbuffer, nofun, .inl rfl⟩) hbuffer ?_
  intro t p hI hD hout
  refine ⟨hD hout, fun tag htag => ?_⟩
  unfold Qwen3Parser.awaited at htag
  cases hstate : p.state with
  | collectingThinking =>
    rw [hstate] at htag
    dsimp only at htag
    cases hflag : p.maybeThinkingOpenAtBOL with
    | true =>
      rw [hflag, if_pos rfl, List.mem_singleton] at htag
      subst htag
      exact ⟨(hI.opening hflag).1.keepsTail, by decide, uncovered_tagged (by decide) (by decide)⟩
    | false =>
      rw [hflag, if_neg (by simp), List.mem_singleton] at htag
      subst htag
      exact ⟨hI.thinking hflag hstate, by decide, uncovered_tagged (by decide) (by decide)⟩
  | collectingContent =>
    rw [hstate] at htag
    obtain rfl := List.mem_singleton.mp htag
    exact ⟨hI.content hstate, toolOpenTag_space, uncovered_tagged (by decide) (by decide)⟩
  | lookingForThinkingOpen => exact absurd hstate hI.started.looking
  | thinkingStartedEatingWhitespace => exact absurd hstate hI.started.opened
  | thinkingDoneEatingWhitespace =>
    rw [hstate] at htag
    cases htag
  | toolStartedEatingWhitespace => exact absurd (.inl hstate) hout
  | collectingToolContent => exact absurd (.inr hstate) hout

end

end Xdragon.Parsers.Qwen3
