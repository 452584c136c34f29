import Xdragon.Parsers.MinistralCuts
import Xdragon.Parsers.Returned

/-!
# The end of a Ministral stream

What is left in the buffer of `MinistralParser` behind the last chunk is not returned: `Add` does not drain it.
-/

namespace Xdragon.Parsers.Ministral

open Xdragon.Lib

def MinistralEvent.said : MinistralEvent → Said (Str × Str)
  | .content text => .content text
  | .thinking text => .thinking text
  | .toolCall name args => .call (name, args)

section
variable {C ε : Type} (parseToolCall : Str × Str → Except ε C)

/-- The tool that is called is looked for, and its arguments are unmarshalled. -/
def MinistralParser.add (p : MinistralParser) (s : Str) : Option (Answer C ε × MinistralParser) :=
  (p.parseEvents s).map fun r => (collectUntil parseToolCall (r.1.map MinistralEvent.said), r.2)

def stream : TextReader MinistralParser MinistralEvent Char where
  buffer p := p.buffer
  write p s := { p with buffer := p.buffer ++ s }
  eat := MinistralParser.eat
  bound p s := p.buffer.length + s.length + 1
  text e := e.said.text
  answered es := answeredUntil parseToolCall (es.map MinistralEvent.said)

end

/-! ## Every round -/

def tags : List Str := [ministralToolCallsTag, ministralThinkTag, ministralThinkEndTag, ministralArgsTag]

/-- Text behind the tag of a tool call, its name, and the tag of its arguments. -/
def BehindName (t : Str) : Prop :=
  ∃ a name, t = a ++ (name ++ ministralArgsTag) ∧ ministralToolCallsTag <:+ a ∧
    cut ministralArgsTag (name ++ ministralArgsTag) = some (name, [])

/-- The arguments of a tool call, up to the bracket that completes them. -/
def CallArgs (a w b : Str) : Prop := BehindName a ∧ ∃ jsonEnd, findJSONEnd (w ++ b) = some jsonEnd ∧ w.length = jsonEnd + 1

/-- A tag, the name of a tool call, or its arguments. -/
def Span (a w b : Str) : Prop := Tagged tags ministralToolCallsTag ministralArgsTag a w b ∨ CallArgs a w b

theorem span_more {a w b : Str} (c : Str) (h : Span a w b) : Span a w (b ++ c) := by
  refine h.imp (Tagged.more c) fun ⟨hname, jsonEnd, hend, hlen⟩ => ⟨hname, jsonEnd, ?_, hlen⟩
  rw [← List.append_assoc]
  exact findJSONEnd_append hend c

/-- Arguments end with a bracket. -/
theorem getLast_args {a w b : Str} (h : CallArgs a w b) : ∀ x ∈ w.getLast?, x = '\x7d' ∨ x = ']' := by
  obtain ⟨-, jsonEnd, hend, hlen⟩ := h
  obtain ⟨c, y, d, heq, rfl, hy⟩ := findJSONEndFrom_some hend
  have hw : w = c ++ [y] := by
    have := congrArg (List.take w.length) heq
    rw [List.take_left, hlen, show c ++ y :: d = (c ++ [y]) ++ d by simp, show c.length + 1 = (c ++ [y]).length by simp,
      List.take_left] at this
    exact this
  intro x hx
  rw [hw, List.getLast?_concat] at hx
  obtain rfl := Option.some.inj hx
  exact hy

theorem uncovered_span {tag : Str} (hclose : ∃ x ∈ ministralArgsTag.head?, x ∉ tag.tail)
    (h : ∀ t ∈ tags, ¬ t <+: tag.dropLast ∧ ∀ x ∈ tag.head?, x ∉ t.tail)
    (hlast : '\x7d' ∉ tag.dropLast ∧ ']' ∉ tag.dropLast) : Uncovered Span tag := by
  refine (uncovered_tagged hclose h).or (uncovered_last fun hargs x hx => ?_)
  obtain rfl | rfl := getLast_args hargs x hx
  · exact hlast.1
  · exact hlast.2

theorem skipped_of_tagged {t s : Str} (h : Skipped (Tagged tags ministralToolCallsTag ministralArgsTag) isSpace t s) :
    Skipped Span isSpace t s := by
  intro i x hx
  obtain hspace | ⟨a, w, b, htext, hspan, hlo, hhi⟩ := h i x hx
  · exact .inl hspace
  · exact .inr ⟨a, w, b, htext, .inl hspan, hlo, hhi⟩

/-- The text that was taken, and the parser. -/
def Inv (t : Str) (p : MinistralParser) : Prop :=
  match p.state with
  | .collectingContent => KeepsTail ministralToolCallsTag t p.buffer ∧ KeepsTail ministralThinkTag t p.buffer
  | .collectingThinkingContent => KeepsTail ministralThinkEndTag t p.buffer
  | .collectingToolName => ministralToolCallsTag <:+ t
  | .collectingToolArgs => BehindName t

def MinistralParser.InToolCall (p : MinistralParser) : Prop := p.state = .collectingToolName ∨ p.state = .collectingToolArgs

/-- The tags that the parser waits for outside a tool call. -/
def MinistralParser.awaited (p : MinistralParser) : List Str :=
  match p.state with
  | .collectingContent => [ministralToolCallsTag, ministralThinkTag]
  | .collectingThinkingContent => [ministralThinkEndTag]
  | _ => []

/-- A parser between two calls. -/
def Done (p : MinistralParser) : Prop := ¬ p.InToolCall → Waits isSpace p.awaited p.buffer

theorem said_content (t : Str) : (emit .content t).flatMap (fun e => e.said.text) = t := by
  unfold emit
  cases t <;> simp [MinistralEvent.said, Said.text]

theorem said_thinking (t : Str) : (emit .thinking t).flatMap (fun e => e.said.text) = t := by
  unfold emit
  cases t <;> simp [MinistralEvent.said, Said.text]

/-- Without a tag in the content, white space and the beginning of a tag are left. -/
theorem waits_content {s before r : Str} (hsplit : contentSplit s = (before, none)) (hr : trimRight before ++ r = s)
    (hcall : cut ministralToolCallsTag s = none) (hthink : cut ministralThinkTag s = none) :
    Waits isSpace [ministralToolCallsTag, ministralThinkTag] r := by
  rw [contentSplit_end hcall hthink] at hsplit
  obtain rfl := (Prod.mk.inj hsplit).1
  have hr' : r = (s.take (s.length - maxOverlap s)).rtakeWhile isSpace ++ s.drop (s.length - maxOverlap s) := by
    have hsame : trimRight (s.take (s.length - maxOverlap s)) ++ r = trimRight (s.take (s.length - maxOverlap s)) ++
        ((s.take (s.length - maxOverlap s)).rtakeWhile isSpace ++ s.drop (s.length - maxOverlap s)) := by
      rw [hr, ← List.append_assoc, trimRight, List.rdropWhile_append_rtakeWhile, List.take_append_drop]
    exact List.append_cancel_left hsame
  rw [hr']
  have hw : ∀ x ∈ (s.take (s.length - maxOverlap s)).rtakeWhile isSpace, isSpace x = true := fun _ hx => List.mem_rtakeWhile_imp hx
  obtain hmax | hmax : maxOverlap s = overlap s ministralToolCallsTag ∨ maxOverlap s = overlap s ministralThinkTag := by
    unfold maxOverlap
    omega
  · rw [hmax] at hw ⊢
    exact waits_withheld (by simp) hcall hw
  · rw [hmax] at hw ⊢
    exact waits_withheld (by simp) hthink hw

section
variable {C ε : Type} (parseToolCall : Str × Str → Except ε C) {t : Str} {p : MinistralParser}

theorem step_content (h : Inv t p) (hstate : p.state = .collectingContent) :
    (stream parseToolCall).Step Span isSpace Inv Done t p := by
  rw [Inv, hstate] at h
  cases hsplit : contentSplit p.buffer with
  | mk before next =>
    cases next with
    | none =>
      obtain ⟨r, heat, hr, hover, hcall, hthink⟩ := eat_content_end hstate hsplit
      obtain ⟨hovercall, hoverthink⟩ := Nat.max_le.mp hover
      rw [← hr] at hovercall hoverthink h
      refine TextReader.step_of _ [] heat (said_content _) hr.symm (skipped_space nofun) ?_ fun _ _ => ?_
      · rw [List.append_nil, Inv, hstate]
        exact ⟨h.1.release hovercall, h.2.release hoverthink⟩
      · rw [MinistralParser.awaited, hstate]
        exact waits_content hsplit hr hcall hthink
    | some q =>
      obtain ⟨next, after⟩ := q
      have heat := eat_content_tag hstate hsplit
      have hskipped : ∀ tag ∈ tags, ∀ t, Skipped Span isSpace t (before.rtakeWhile isSpace ++ tag) := fun tag htag t =>
        skipped_of_tagged ((skipped_trailing _ _).append Tagged.more (skipped_tag htag))
      cases hcall : cut ministralToolCallsTag p.buffer with
      | some r =>
        rw [contentSplit_call hcall] at hsplit
        cases hsplit
        refine TextReader.step_of _ (r.1.rtakeWhile isSpace ++ ministralToolCallsTag) heat (said_content _) (cut_trimmed hcall)
          (hskipped _ (by simp [tags]) _) ?_ nofun
        exact ⟨_, List.append_assoc ..⟩
      | none =>
        cases hthink : cut ministralThinkTag p.buffer with
        | some r =>
          rw [contentSplit_think hcall hthink] at hsplit
          cases hsplit
          refine TextReader.step_of _ (r.1.rtakeWhile isSpace ++ ministralThinkTag) heat (said_content _) (cut_trimmed hthink)
            (hskipped _ (by simp [tags]) _) ?_ nofun
          have hclean : Clean isSpace ministralThinkEndTag (t ++ trimRight r.1 ++ (r.1.rtakeWhile isSpace ++ ministralThinkTag)) := by
            rw [← List.append_assoc]
            exact clean_behind (by decide) (by decide) (by decide)
          exact hclean.keepsTail
        | none =>
          rw [contentSplit_end hcall hthink] at hsplit
          cases hsplit

theorem step_thinking (h : Inv t p) (hstate : p.state = .collectingThinkingContent) :
    (stream parseToolCall).Step Span isSpace Inv Done t p := by
  rw [Inv, hstate] at h
  cases hcut : cut ministralThinkEndTag p.buffer with
  | none =>
    refine TextReader.step_of _ [] (eat_thinking_end hstate hcut) (said_thinking _) ?_ (skipped_space nofun) ?_ fun _ _ => ?_
    · exact (released_append_withheld ministralThinkEndTag p.buffer).symm
    · rw [List.append_nil, Inv, hstate]
      refine KeepsTail.release ?_ (overlap_le_withheld _ _)
      rwa [released_append_withheld]
    · rw [MinistralParser.awaited, hstate]
      exact waits_withheld (w := []) (List.mem_singleton_self _) hcut nofun
  | some q =>
    refine TextReader.step_of _ (ministralThinkEndTag ++ q.2.takeWhile isSpace) (eat_thinking_tag hstate hcut) (said_thinking _)
      ?_ ?_ ?_ nofun
    · rw [← List.append_assoc]
      exact cut_trimmed_after hcut
    · exact skipped_of_tagged ((skipped_tag (by simp [tags])).append Tagged.more (skipped_leading _ _))
    · have hclean : ∀ tag, (∀ x ∈ ministralThinkEndTag.getLast?, x ∉ tag.dropLast) → (∀ x ∈ tag, isSpace x = false) →
          Clean isSpace tag (t ++ q.1 ++ (ministralThinkEndTag ++ q.2.takeWhile isSpace)) := by
        intro tag hlast htag
        rw [← List.append_assoc]
        exact (clean_behind (by decide) hlast htag).space fun _ hx => List.mem_takeWhile_imp hx
      exact ⟨(hclean _ (by decide) (by decide)).keepsTail, (hclean _ (by decide) (by decide)).keepsTail⟩

theorem step_name (h : Inv t p) (hstate : p.state = .collectingToolName) :
    (stream parseToolCall).Step Span isSpace Inv Done t p := by
  cases hcut : cut ministralArgsTag p.buffer with
  | none =>
    refine TextReader.step_of [] [] (eat_name_end hstate hcut) rfl rfl (skipped_space nofun) ?_ fun _ hout => absurd (.inl hstate) hout
    rwa [List.append_nil, List.append_nil]
  | some q =>
    rw [Inv, hstate] at h
    have hname : cut ministralArgsTag (q.1 ++ ministralArgsTag) = some (q.1, []) := by
      simpa using cut_of_append (a := []) (b := q.2) hcut
    refine TextReader.step_of [] (q.1 ++ ministralArgsTag) (eat_name_tag hstate hcut) rfl ?_ ?_ ?_ nofun
    · rw [List.nil_append, List.append_assoc]
      exact (cut_eq_some hcut).1
    · have hcut' : cut ministralArgsTag ([] ++ q.1 ++ (ministralArgsTag ++ [])) = some ([] ++ q.1, []) := by simpa using hname
      exact skipped_of_tagged (skipped_call (by simp [tags]) h hcut')
    · rw [List.append_nil]
      exact ⟨t, q.1, rfl, h, hname⟩

theorem step_args (h : Inv t p) (hstate : p.state = .collectingToolArgs) :
    (stream parseToolCall).Step Span isSpace Inv Done t p := by
  cases hend : findJSONEnd p.buffer with
  | none =>
    refine TextReader.step_of [] [] (eat_args_end hstate hend) rfl rfl (skipped_space nofun) ?_ fun _ hout => absurd (.inr hstate) hout
    rwa [List.append_nil, List.append_nil]
  | some jsonEnd =>
    rw [Inv, hstate] at h
    have hlt := findJSONEnd_lt hend
    have hargs : CallArgs t (p.buffer.take (jsonEnd + 1)) [] := by
      refine ⟨h, jsonEnd, ?_, ?_⟩
      · rw [List.append_nil]
        exact findJSONEndFrom_take hend
      · rw [List.length_take]
        omega
    refine TextReader.step_of [] (p.buffer.take (jsonEnd + 1)) (eat_args_some hstate hend) rfl
      (List.take_append_drop (jsonEnd + 1) p.buffer).symm (skipped_span (.inr (by rwa [List.append_nil]))) ?_ nofun
    have hkeeps : ∀ tag, ('}' ∉ List.dropLast tag ∧ ']' ∉ List.dropLast tag) → ∀ b,
        KeepsTail tag (t ++ [] ++ p.buffer.take (jsonEnd + 1)) b := by
      intro tag htag b
      have hne : p.buffer.take (jsonEnd + 1) ≠ [] := by
        intro hnil
        have := congrArg List.length hnil
        rw [List.length_take, List.length_nil] at this
        omega
      refine keepsTail_of_last fun x hx => ?_
      rw [List.getLast?_append_of_ne_nil _ hne] at hx
      obtain rfl | rfl := getLast_args hargs x hx
      · exact htag.1
      · exact htag.2
    exact ⟨hkeeps _ (by decide) _, hkeeps _ (by decide) _⟩

theorem stream_keeps : (stream parseToolCall).Keeps Span isSpace Inv Done where
  more := span_more
  write {t p} s h := by
    refine ⟨rfl, ?_⟩
    obtain ⟨state, buffer, hasThinkingSupport, pendingToolName⟩ := p
    cases state with
    | collectingContent => exact ⟨h.1.append s, h.2.append s⟩
    | collectingThinkingContent => exact h.append s
    | collectingToolName => exact h
    | collectingToolArgs => exact h
  enough {t p} s _ := by
    obtain ⟨events, p', hevents, -, -⟩ := parseEvents_whole p s
    obtain ⟨r, hr, -⟩ := Option.map_eq_some_iff.mp hevents
    exact fun h => nomatch h.symm.trans hr
  step {t p} h := by
    cases hstate : p.state with
    | collectingContent => exact step_content parseToolCall h hstate
    | collectingThinkingContent => exact step_thinking parseToolCall h hstate
    | collectingToolName => exact step_name parseToolCall h hstate
    | collectingToolArgs => exact step_args parseToolCall h hstate

/-- Everything outside the tool calls is returned unless the text ends with the beginning of the tag of a tool call or of thinking in
the content, or of the closing tag in the thinking. -/
theorem stream_returns (hasThinkingSupport : Bool) (lastMessage : Option Message) : ReturnsUnless (stream parseToolCall) Span
    MinistralParser.InToolCall MinistralParser.awaited (MinistralParser.setInitialState { hasThinkingSupport } lastMessage) := by
  obtain ⟨state, hstate, hinit⟩ := setInitialState_eq hasThinkingSupport lastMessage
  have hI : Inv [] (MinistralParser.setInitialState { hasThinkingSupport } lastMessage) := by
    rw [hinit]
    obtain rfl | rfl := hstate
    · exact ⟨keepsTail_nil, keepsTail_nil⟩
    · exact keepsTail_nil
  have hbuffer : (MinistralParser.setInitialState { hasThinkingSupport } lastMessage).buffer = [] := by rw [hinit]
  refine returnsUnless (stream_keeps parseToolCall) hI (fun _ => ⟨[], [], hbuffer, nofun, .inl rfl⟩) hbuffer ?_
  intro t p hI hD hout
  refine ⟨hD hout, fun tag htag => ?_⟩
  unfold Inv at hI
  unfold MinistralParser.awaited at htag
  cases hstate : p.state with
  | collectingContent =>
    rw [hstate] at hI htag
    simp only [List.mem_cons, List.not_mem_nil, or_false] at htag
    obtain rfl | rfl := htag
    · exact ⟨hI.1, by decide, uncovered_span (by decide) (by decide) (by decide)⟩
    · exact ⟨hI.2, by decide, uncovered_span (by decide) (by decide) (by decide)⟩
  | collectingThinkingContent =>
    rw [hstate] at hI htag
    obtain rfl := List.mem_singleton.mp htag
    exact ⟨hI, by decide, uncovered_span (by decide) (by decide) (by decide)⟩
  | collectingToolName => exact absurd (.inl hstate) hout
  | collectingToolArgs => exact absurd (.inr hstate) hout

end

end Xdragon.Parsers.Ministral
