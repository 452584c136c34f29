import Xdragon.Parsers.Ministral

/-!
# Where a cut of Ministral output shows

A chunk that ends behind the opening tag of thinking starts thinking, even if a call comes later in the same content, and one
that ends behind thinking does not drop the white space that comes later.
-/

namespace Xdragon.Parsers.Ministral

open Xdragon.Lib

/-! ## Calls -/

/-- The text of a call. -/
def callText (toolName args : Str) : Str := ministralToolCallsTag ++ (toolName ++ (ministralArgsTag ++ args))

/-- The first call of content, with the text in front of it and behind it. -/
structure FirstCall (text before toolName args rest : Str) : Prop where
  complete : ∃ after behind jsonEnd, cut ministralToolCallsTag text = some (before, after) ∧
    cut ministralArgsTag after = some (toolName, behind) ∧ findJSONEnd behind = some jsonEnd ∧
    args = behind.take (jsonEnd + 1) ∧ rest = behind.drop (jsonEnd + 1)

section
variable {text before toolName args rest : Str} (h : FirstCall text before toolName args rest) (name : Str)
include h

theorem FirstCall.parts_eq : parts .collectingContent name text =
    both { content := trimRight before, toolCalls := [(toolName, args)] } (parts .collectingContent [] rest) := by
  obtain ⟨after, behind, jsonEnd, hcall, hargs, hend, rfl, rfl⟩ := h.complete
  rw [parts_content_tag (contentSplit_call hcall), parts_name_tag hargs, parts_args_some hend, ← both_assoc]
  simp [both]

theorem FirstCall.text_eq : text = before ++ (callText toolName args ++ rest) := by
  obtain ⟨after, behind, jsonEnd, hcall, hargs, -, rfl, rfl⟩ := h.complete
  rw [(cut_eq_some hcall).1, (cut_eq_some hargs).1, callText]
  simp

/-- The call is the first one. -/
theorem FirstCall.first {i : Nat} (hi : i < before.length) : ¬ ministralToolCallsTag <+: text.drop i := by
  obtain ⟨after, behind, jsonEnd, hcall, -⟩ := h.complete
  exact (cut_eq_some hcall).2 i hi

/-- No later call of the same text is further in front. -/
theorem FirstCall.callText_length_le {toolName' args' rest' : Str} (hlater : callText toolName' args' ++ rest' <:+ text) :
    (callText toolName' args' ++ rest').length ≤ (callText toolName args ++ rest).length := by
  by_contra hlong
  obtain ⟨t, ht⟩ := hlater
  have hlen := congrArg List.length h.text_eq
  have hlen' := congrArg List.length ht
  rw [List.length_append] at hlen hlen'
  refine h.first (i := t.length) (by omega) ?_
  rw [← ht, List.drop_left, callText, List.append_assoc]
  exact List.prefix_append _ _

/-- A call ends with a bracket. -/
theorem FirstCall.last : ∃ x, (callText toolName args).getLast? = some x ∧ (x = '\x7d' ∨ x = ']') := by
  obtain ⟨after, behind, jsonEnd, -, -, hend, rfl, -⟩ := h.complete
  obtain ⟨a, x, b, rfl, rfl, hx⟩ := findJSONEndFrom_some hend
  refine ⟨x, ?_, hx⟩
  have htake : (a ++ x :: b).take (a.length + 1) = a ++ [x] := by
    rw [List.take_length_add_append]
    rfl
  rw [callText, htake]
  simp [List.getLast?_append]

end

/-- There are no calls without an opening tag. -/
theorem toolCalls_nil (text : Str) (h : ¬ ministralToolCallsTag <:+: text) (name : Str) :
    (parts .collectingContent name text).toolCalls = [] ∧ (parts .collectingThinkingContent name text).toolCalls = [] := by
  induction hn : text.length using Nat.strongRecOn generalizing text with
  | ind n ih =>
    subst hn
    constructor
    · have hcall := cut_eq_none_iff_absent.mpr h
      cases hthink : cut ministralThinkTag text with
      | none => rw [parts_content_end (contentSplit_end hcall hthink)]
      | some q =>
        have hsplit := contentSplit_think hcall hthink
        obtain ⟨htext, -⟩ := cut_eq_some hthink
        have hafter : ¬ ministralToolCallsTag <:+: q.2 := by
          refine fun hplace => h (hplace.trans ⟨q.1 ++ ministralThinkTag, [], ?_⟩)
          rw [htext]
          simp
        rw [parts_content_tag hsplit]
        exact (ih _ (contentSplit_length hsplit) q.2 hafter rfl).2
    · cases hend : cut ministralThinkEndTag text with
      | none => rw [parts_thinking_end hend]
      | some q =>
        obtain ⟨htext, -⟩ := cut_eq_some hend
        have hlen := length_of_cut hend
        have hle := length_trimLeft q.2
        have h8 : ministralThinkEndTag.length = 8 := rfl
        have hafter : ¬ ministralToolCallsTag <:+: trimLeft q.2 := by
          refine fun hplace => h ((hplace.trans (List.dropWhile_suffix isSpace).isInfix).trans
            ⟨q.1 ++ ministralThinkEndTag, [], ?_⟩)
          rw [htext]
          simp
        rw [parts_thinking_tag hend]
        exact (ih _ (by omega) (trimLeft q.2) hafter rfl).1

/-- Content has no call, or ends with a call that is not complete, or has a first call. -/
theorem content_cases (text name : Str) :
    (¬ ministralToolCallsTag <:+: text ∧ (parts .collectingContent name text).toolCalls = []) ∨
    (∃ before, parts .collectingContent name text = { content := before }) ∨
    ∃ before toolName args rest, FirstCall text before toolName args rest := by
  cases hcall : cut ministralToolCallsTag text with
  | none =>
    have habsent := cut_eq_none_iff_absent.mp hcall
    exact .inl ⟨habsent, (toolCalls_nil text habsent name).1⟩
  | some q =>
    have hsplit := contentSplit_call hcall
    cases hargs : cut ministralArgsTag q.2 with
    | none =>
      refine .inr (.inl ⟨trimRight q.1, ?_⟩)
      rw [parts_content_tag hsplit, parts_name_end hargs]
      simp [both]
    | some r =>
      cases hend : findJSONEnd r.2 with
      | none =>
        refine .inr (.inl ⟨trimRight q.1, ?_⟩)
        rw [parts_content_tag hsplit, parts_name_tag hargs, parts_args_end hend]
        simp [both]
      | some jsonEnd => exact .inr (.inr ⟨_, _, _, _, ⟨q.2, r.2, jsonEnd, hcall, hargs, hend, rfl, rfl⟩⟩)

theorem firstCall_of_toolCalls {text name : Str} (h : (parts .collectingContent name text).toolCalls ≠ []) :
    ∃ before toolName args rest, FirstCall text before toolName args rest := by
  obtain ⟨-, hnil⟩ | ⟨before, hparts⟩ | hfirst := content_cases text name
  · exact absurd hnil h
  · rw [hparts] at h
    exact absurd rfl h
  · exact hfirst

/-- A later start of content that gives the same calls gives no less thinking: either both meet at a call, or the last call of
the one would come again behind its end. -/
theorem thinking_of_suffix {z y name : Str} (hsuffix : y <:+ z)
    (hcalls : (parts .collectingContent name y).toolCalls = (parts .collectingContent name z).toolCalls)
    (hne : (parts .collectingContent name z).toolCalls ≠ []) :
    (parts .collectingContent name z).thinking.length ≤ (parts .collectingContent name y).thinking.length := by
  induction hn : z.length using Nat.strongRecOn generalizing z y name with
  | ind n ih =>
    subst hn
    obtain ⟨before, toolName, args, rest, hz⟩ := firstCall_of_toolCalls hne
    obtain ⟨before', toolName', args', rest', hy⟩ := firstCall_of_toolCalls (hcalls ▸ hne)
    rw [hz.parts_eq, hy.parts_eq] at hcalls ⊢
    simp only [both, List.singleton_append, List.cons.injEq, Prod.mk.injEq, List.nil_append] at hcalls ⊢
    obtain ⟨⟨rfl, rfl⟩, hrest⟩ := hcalls
    have hlater : callText toolName' args' ++ rest' <:+ z := List.IsSuffix.trans ⟨before', hy.text_eq.symm⟩ hsuffix
    have hfirst : callText toolName' args' ++ rest <:+ z := ⟨before, hz.text_eq.symm⟩
    have hle := hz.callText_length_le hlater
    obtain ⟨v, hv⟩ := List.suffix_of_suffix_length_le hlater hfirst hle
    have hlen : rest.length < z.length := by
      have := congrArg List.length hz.text_eq
      simp only [callText, List.length_append] at this
      have h12 : ministralToolCallsTag.length = 12 := rfl
      omega
    by_cases hnil : v = []
    · rw [hnil, List.nil_append, List.append_cancel_left_eq] at hv
      rw [hv]
    · have hsuffix' : rest' <:+ rest := by
        have hshort := congrArg List.length hv
        simp only [List.length_append] at hshort
        exact List.suffix_of_suffix_length_le ((List.suffix_append _ _).trans hlater)
          ((List.suffix_append _ _).trans hfirst) (by omega)
      obtain ⟨habsent, -⟩ | ⟨before, hparts⟩ | ⟨_, _, _, _, hnext⟩ := content_cases rest []
      · obtain ⟨x, hlast, hx⟩ := hz.last
        have hmem : x ∉ ministralToolCallsTag.dropLast := by
          obtain rfl | rfl := hx <;> decide
        exact (not_again (List.prefix_append _ _) hnil hv.symm fun q => place_within hlast hmem habsent).elim
      · rw [hparts]
        exact Nat.zero_le _
      · refine ih _ hlen hsuffix' hrest ?_ rfl
        rw [hnext.parts_eq]
        exact List.cons_ne_nil _ _

/-! ## Thinking in front of a call -/

theorem trimRight_tag {x s tag : Str} (htag : trimRight (x ++ tag) = x ++ tag) :
    trimRight (x ++ (tag ++ s)) = x ++ (tag ++ trimRight s) := by
  rw [← List.append_assoc, ← List.append_assoc]
  exact rdropWhile_append_of_last isSpace htag s

theorem trimRight_thinkTag (x : Str) : trimRight (x ++ ministralThinkTag) = x ++ ministralThinkTag := by
  rw [trimRight, rdropWhile_append, if_neg (by decide)]
  rfl

theorem trimRight_thinkEndTag (x : Str) : trimRight (x ++ ministralThinkEndTag) = x ++ ministralThinkEndTag := by
  rw [trimRight, rdropWhile_append, if_neg (by decide)]
  rfl

theorem length_trimRight_trimLeft (s : Str) : (trimRight (trimLeft s)).length ≤ (trimRight s).length := by
  have hsplit := space_append_trimLeft s
  generalize s.takeWhile isSpace = w at hsplit
  generalize trimLeft s = t at hsplit ⊢
  have happend := rdropWhile_append isSpace w t
  rw [hsplit] at happend
  unfold trimRight
  split_ifs at happend with hnil
  · rw [hnil]
    exact Nat.zero_le _
  · rw [happend, List.length_append]
    omega

section
variable {b c after : Str} (name : Str)

/-- If the thinking is over in front of the call, it is not content any more. -/
theorem thought_shorter
    (hcall : cut ministralToolCallsTag (b ++ (ministralThinkTag ++ c) ++ (ministralToolCallsTag ++ after)) =
      some (b ++ (ministralThinkTag ++ c), after)) {d r : Str} (hend : cut ministralThinkEndTag c = some (d, r)) :
    both { content := trimRight b } (parts .collectingThinkingContent name (c ++ (ministralToolCallsTag ++ after))) ≠
      both { content := trimRight (b ++ (ministralThinkTag ++ c)) } (parts .collectingToolName name after) := by
  have hmore := cut_append_some hend (ministralToolCallsTag ++ after)
  obtain ⟨hc, -⟩ := cut_eq_some hend
  have htrim : trimLeft (r ++ (ministralToolCallsTag ++ after)) = trimLeft r ++ (ministralToolCallsTag ++ after) := by
    rw [trimLeft_append]
    split_ifs with hnil
    · rw [hnil]
      rfl
    · rfl
  have hrest : cut ministralToolCallsTag (trimLeft r ++ (ministralToolCallsTag ++ after)) = some (trimLeft r, after) := by
    obtain ⟨w, hw⟩ : trimLeft r <:+ b ++ (ministralThinkTag ++ c) := by
      refine (List.dropWhile_suffix isSpace).trans ⟨b ++ (ministralThinkTag ++ (d ++ ministralThinkEndTag)), ?_⟩
      rw [hc]
      simp
    rw [← hw] at hcall
    exact cut_of_suffix hcall
  rw [parts_thinking_tag hmore, htrim, parts_content_tag (contentSplit_call hrest)]
  intro heq
  have hlen := congrArg (fun a => a.content.length) heq
  have hfront : b ++ (ministralThinkTag ++ c) = b ++ (ministralThinkTag ++ d) ++ (ministralThinkEndTag ++ r) := by
    rw [hc]
    simp
  have hle := length_trimRight_trimLeft r
  have hb := (trimRight_start b).length_le
  have h8 : ministralThinkEndTag.length = 8 := rfl
  rw [hfront, trimRight_tag (trimRight_thinkEndTag _)] at hlen
  simp only [both, List.nil_append, List.length_append] at hlen
  omega

/-- If the thinking goes on behind the call, the call is thinking. -/
theorem thought_longer (hend : cut ministralThinkEndTag c = none) :
    both { content := trimRight b } (parts .collectingThinkingContent name (c ++ (ministralToolCallsTag ++ after))) ≠
      both { content := trimRight (b ++ (ministralThinkTag ++ c)) } (parts .collectingToolName name after) := by
  have hclear : Clear ministralThinkEndTag ministralToolCallsTag := by decide
  have hcut := cut_append_clear hclear after hend ⟨'[', rfl, by decide⟩
  intro heq
  cases hafter : cut ministralThinkEndTag after with
  | none =>
    rw [hafter, Option.map_none] at hcut
    have hlen := congrArg (fun a => a.content.length) heq
    have hb := (trimRight_start b).length_le
    have h7 : ministralThinkTag.length = 7 := rfl
    rw [parts_thinking_end hcut, trimRight_tag (trimRight_thinkTag b)] at hlen
    simp only [both, List.append_nil, List.length_append] at hlen
    omega
  | some q =>
    rw [hafter, Option.map_some] at hcut
    have hz : parts .collectingContent name (ministralToolCallsTag ++ after) = parts .collectingToolName name after := by
      have hstart : cut ministralToolCallsTag (ministralToolCallsTag ++ after) = some ([], after) := by
        have hcut := cut_at_start (List.prefix_append ministralToolCallsTag after)
        rwa [List.drop_left] at hcut
      rw [parts_content_tag (contentSplit_call hstart)]
      exact nothing_both _
    have hsuffix : trimLeft q.2 <:+ ministralToolCallsTag ++ after := by
      refine (List.dropWhile_suffix isSpace).trans ⟨ministralToolCallsTag ++ (q.1 ++ ministralThinkEndTag), ?_⟩
      rw [(cut_eq_some hafter).1]
      simp
    rw [parts_thinking_tag hcut, ← hz] at heq
    have hcalls := congrArg Parts.toolCalls heq
    have hthinking := congrArg (fun a => a.thinking.length) heq
    have h12 : ministralToolCallsTag.length = 12 := rfl
    simp only [both, List.nil_append, List.length_append] at hcalls hthinking
    obtain ⟨habsent, -⟩ | ⟨before, hparts⟩ | ⟨_, _, _, _, hfirst⟩ := content_cases (ministralToolCallsTag ++ after) name
    · exact habsent (List.prefix_append _ _).isInfix
    · rw [hparts] at hthinking
      dsimp only [List.length_nil] at hthinking
      omega
    · have hle := thinking_of_suffix hsuffix hcalls (by rw [hfirst.parts_eq]; exact List.cons_ne_nil _ _)
      omega

end

/-! ## White space behind thinking -/

theorem trimRight_eq_of_parts {text text' name : Str} (hnext : (contentSplit text).2 = (contentSplit text').2)
    (h : parts .collectingContent name text = parts .collectingContent name text') :
    trimRight (contentSplit text).1 = trimRight (contentSplit text').1 := by
  have hcontent := congrArg Parts.content h
  cases hr : (contentSplit text').2 with
  | none =>
    rw [parts_content_end (Prod.ext rfl (hnext.trans hr)), parts_content_end (Prod.ext rfl hr)] at hcontent
    exact hcontent
  | some q =>
    rw [parts_content_tag (Prod.ext rfl (hnext.trans hr)), parts_content_tag (Prod.ext rfl hr)] at hcontent
    exact List.append_cancel_right hcontent

/-- White space in front of content that is not at a tag is content. -/
theorem space_shows {after name : Str} (hspace : trimLeft after ≠ after) (htag : ¬ AtTag (trimLeft after)) :
    parts .collectingContent name after ≠ parts .collectingContent name (trimLeft after) := by
  have happend := space_append_trimLeft after
  have hsplit := contentSplit_space (w := after.takeWhile isSpace) (fun _ hx => List.mem_takeWhile_imp hx) (trimLeft after)
  have hfirst : (contentSplit (trimLeft after)).1 ≠ [] := fun hnil => htag (atTag_of_contentSplit hnil)
  have htrim : trimRight (contentSplit (trimLeft after)).1 ≠ [] :=
    trimRight_ne_nil (trimLeft_of_start (trimLeft_trimLeft after) (contentSplit_start _)) hfirst
  have hwhole : trimRight (after.takeWhile isSpace ++ (contentSplit (trimLeft after)).1) =
      after.takeWhile isSpace ++ trimRight (contentSplit (trimLeft after)).1 :=
    (rdropWhile_append ..).trans (if_neg htrim)
  rw [happend] at hsplit
  intro heq
  have hsame := trimRight_eq_of_parts (by rw [hsplit]) heq
  rw [hsplit, hwhole] at hsame
  have hnil := List.append_left_eq_self.mp hsame
  rw [hnil, List.nil_append] at happend
  exact hspace happend

/-! ## Texts whose cuts in two come to the same -/

/-- Two pieces of what the parser has in its buffer always give what it gives at once. -/
def SameInTwo (p : MinistralParser) : Prop := ∀ a b, a ++ b = p.buffer → ∀ n outs p',
  rounds MinistralParser.eat n { p with buffer := a } = some (outs, p') →
    both (texts outs.flatten) (p'.expected b) = p.expected []

/-- What follows a tag comes to the same if the whole text does. -/
theorem sameInTwo_behind {p p' : MinistralParser} {e : List MinistralEvent} {x : Str} (h : SameInTwo p)
    (hbuffer : x ++ p'.buffer = p.buffer)
    (heat : ∀ a, a <+: p'.buffer → MinistralParser.eat { p with buffer := x ++ a } = (e, { p' with buffer := a }, true))
    (hexpected : p.expected [] = both (texts e) (p'.expected [])) : SameInTwo p' := by
  intro a b hab n outs p'' hrounds
  have hmore := rounds_more (n := n) (heat a ⟨b, hab⟩)
  rw [hrounds, Option.map_some] at hmore
  have hsame := h (x ++ a) b (by rw [List.append_assoc, hab, hbuffer]) _ _ _ hmore
  rw [hexpected, List.flatten_cons, texts_append, both_assoc] at hsame
  exact both_cancel hsame

theorem eat_nothing {p : MinistralParser} (hbuffer : p.buffer = [])
    (hstate : p.state = .collectingContent ∨ p.state = .collectingThinkingContent) : p.eat = ([], p, false) := by
  obtain ⟨state, buffer, support, name⟩ := p
  cases hbuffer
  obtain rfl | rfl := hstate <;> rfl

theorem expected_nil (p : MinistralParser) : p.expected [] = parts p.state p.pendingToolName p.buffer := by
  rw [MinistralParser.expected, List.append_nil]

/-- The parser that has nothing left behind a tag works on the text that follows. -/
theorem expected_of_same {p p' : MinistralParser} {es : List MinistralEvent} {a b : Str} (h : SameInTwo p)
    (hab : a ++ b = p.buffer) (heat : MinistralParser.eat { p with buffer := a } = (es, p', true)) (hbuffer : p'.buffer = [])
    (hstate : p'.state = .collectingContent ∨ p'.state = .collectingThinkingContent) :
    both (texts es) (parts p'.state p'.pendingToolName b) = parts p.state p.pendingToolName p.buffer := by
  have hrounds := rounds_more (n := 1) heat
  rw [rounds_stop (eat_nothing hbuffer hstate), Option.map_some] at hrounds
  have hsame := h a b hab _ _ _ hrounds
  rw [MinistralParser.expected, hbuffer, expected_nil] at hsame
  simpa using hsame

/-- A chunk that ends behind the opening tag of thinking does not start thinking in front of a call. -/
theorem no_think_of_same {p : MinistralParser} (hstate : p.state = .collectingContent) (h : SameInTwo p) {before after : Str}
    (hcall : cut ministralToolCallsTag p.buffer = some (before, after)) : ¬ ministralThinkTag <:+: before := by
  intro hplace
  obtain ⟨⟨b, c⟩, hthink⟩ : ∃ q, cut ministralThinkTag before = some q := by
    refine Option.ne_none_iff_exists'.mp fun hnone => ?_
    exact cut_eq_none_iff_absent.mp hnone hplace
  obtain ⟨hbefore, -⟩ := cut_eq_some hthink
  obtain ⟨hbuffer, -⟩ := cut_eq_some hcall
  have hfront : cut ministralToolCallsTag (b ++ (ministralThinkTag ++ [])) = none := by
    have hnone := cut_before (by decide) hcall
    refine cut_none_of_append (c := c) ?_
    rw [List.append_nil, List.append_assoc, ← hbefore]
    exact hnone
  have hsplit := contentSplit_think hfront (cut_of_append (a := []) hthink)
  have hsame := expected_of_same (b := c ++ (ministralToolCallsTag ++ after)) h (by rw [hbuffer, hbefore]; simp)
    (eat_content_tag (p := { p with buffer := b ++ (ministralThinkTag ++ []) }) hstate hsplit) rfl (.inr rfl)
  rw [hstate, parts_content_tag (contentSplit_call hcall), texts_emit_content, hbefore] at hsame
  rw [hbuffer, hbefore] at hcall
  cases hend : cut ministralThinkEndTag c with
  | some q => exact thought_shorter _ hcall hend hsame
  | none => exact thought_longer _ hend hsame

/-- A chunk that ends behind thinking does not keep white space. -/
theorem no_space_of_same {p : MinistralParser} (hstate : p.state = .collectingThinkingContent) (h : SameInTwo p)
    {thinking after : Str} (hend : cut ministralThinkEndTag p.buffer = some (thinking, after)) :
    trimLeft after = after ∨ AtTag (trimLeft after) := by
  by_contra hno
  rw [not_or] at hno
  obtain ⟨hbuffer, -⟩ := cut_eq_some hend
  have hsame := expected_of_same (b := after) h (by rw [hbuffer]; simp)
    (eat_thinking_tag (p := { p with buffer := thinking ++ (ministralThinkEndTag ++ []) }) hstate
      (cut_of_append (a := []) hend)) rfl (.inl rfl)
  rw [hstate, parts_thinking_tag hend, texts_emit_thinking] at hsame
  exact space_shows hno.1 hno.2 (both_cancel hsame)

theorem same_behind_call {p : MinistralParser} (hstate : p.state = .collectingContent) (h : SameInTwo p) {before after : Str}
    (hcall : cut ministralToolCallsTag p.buffer = some (before, after)) :
    SameInTwo { p with state := .collectingToolName, buffer := after } := by
  refine sameInTwo_behind (e := emit .content (trimRight before)) (x := before ++ ministralToolCallsTag) h ?_ ?_ ?_
  · rw [List.append_assoc]
    exact (cut_eq_some hcall).1.symm
  · rintro a ⟨b, rfl⟩
    rw [List.append_assoc]
    exact eat_content_tag (p := { p with buffer := before ++ (ministralToolCallsTag ++ a) }) hstate
      (contentSplit_call (cut_of_append hcall))
  · rw [expected_nil, expected_nil, hstate, parts_content_tag (contentSplit_call hcall), texts_emit_content]

theorem same_behind_think {p : MinistralParser} (hstate : p.state = .collectingContent) (h : SameInTwo p) {before after : Str}
    (hcall : cut ministralToolCallsTag p.buffer = none) (hthink : cut ministralThinkTag p.buffer = some (before, after)) :
    SameInTwo { p with state := .collectingThinkingContent, buffer := after } := by
  have hbuffer := (cut_eq_some hthink).1
  refine sameInTwo_behind (e := emit .content (trimRight before)) (x := before ++ ministralThinkTag) h ?_ ?_ ?_
  · rw [List.append_assoc]
    exact hbuffer.symm
  · rintro a ⟨b, rfl⟩
    have hfront : cut ministralToolCallsTag (before ++ (ministralThinkTag ++ a)) = none := by
      refine cut_none_of_append (c := b) ?_
      rw [hbuffer] at hcall
      rw [← hcall]
      simp
    rw [List.append_assoc]
    exact eat_content_tag (p := { p with buffer := before ++ (ministralThinkTag ++ a) }) hstate
      (contentSplit_think hfront (cut_of_append hthink))
  · rw [expected_nil, expected_nil, hstate, parts_content_tag (contentSplit_think hcall hthink), texts_emit_content]

theorem same_behind_thinking {p : MinistralParser} (hstate : p.state = .collectingThinkingContent) (h : SameInTwo p)
    {thinking after : Str} (hend : cut ministralThinkEndTag p.buffer = some (thinking, after)) :
    SameInTwo { p with state := .collectingContent, buffer := trimLeft after } := by
  have hspace := space_append_trimLeft after
  refine sameInTwo_behind (e := emit .thinking thinking) (x := thinking ++ (ministralThinkEndTag ++ after.takeWhile isSpace))
    h ?_ ?_ ?_
  · rw [(cut_eq_some hend).1]
    simp [hspace]
  · rintro a ⟨b, hb⟩
    dsimp only at hb
    have htrim : trimLeft (after.takeWhile isSpace ++ a) = a := by
      have hw : trimLeft (after.takeWhile isSpace) = [] :=
        List.dropWhile_eq_nil_iff.mpr fun _ hx => List.mem_takeWhile_imp hx
      rw [trimLeft_append, if_pos hw]
      exact trimLeft_of_start (trimLeft_trimLeft after) ⟨b, hb⟩
    have hcut : cut ministralThinkEndTag (thinking ++ (ministralThinkEndTag ++ (after.takeWhile isSpace ++ a))) =
        some (thinking, after.takeWhile isSpace ++ a) := by
      refine cut_of_append (s := p.buffer) (b := b) ?_
      rw [hend, List.append_assoc, hb, hspace]
    have heat := eat_thinking_tag
      (p := { p with buffer := thinking ++ (ministralThinkEndTag ++ (after.takeWhile isSpace ++ a)) }) hstate hcut
    rw [htrim] at heat
    rw [List.append_assoc, List.append_assoc]
    exact heat
  · rw [expected_nil, expected_nil, hstate, parts_thinking_tag hend, texts_emit_thinking]

theorem same_behind_name {p : MinistralParser} (hstate : p.state = .collectingToolName) (h : SameInTwo p)
    {toolName after : Str} (hargs : cut ministralArgsTag p.buffer = some (toolName, after)) :
    SameInTwo { p with state := .collectingToolArgs, buffer := after, pendingToolName := toolName } := by
  refine sameInTwo_behind (e := []) (x := toolName ++ ministralArgsTag) h ?_ ?_ ?_
  · rw [List.append_assoc]
    exact (cut_eq_some hargs).1.symm
  · rintro a ⟨b, rfl⟩
    rw [List.append_assoc]
    exact eat_name_tag (p := { p with buffer := toolName ++ (ministralArgsTag ++ a) }) hstate (cut_of_append hargs)
  · rw [expected_nil, expected_nil, hstate, parts_name_tag hargs]
    exact (nothing_both _).symm

theorem same_behind_args {p : MinistralParser} (hstate : p.state = .collectingToolArgs) (h : SameInTwo p) {jsonEnd : Nat}
    (hend : findJSONEnd p.buffer = some jsonEnd) :
    SameInTwo { p with state := .collectingContent, buffer := p.buffer.drop (jsonEnd + 1), pendingToolName := [] } := by
  have hlt := findJSONEnd_lt hend
  have hlen : (p.buffer.take (jsonEnd + 1)).length = jsonEnd + 1 := by
    rw [List.length_take]
    omega
  refine sameInTwo_behind (e := [.toolCall p.pendingToolName (p.buffer.take (jsonEnd + 1))])
    (x := p.buffer.take (jsonEnd + 1)) h (List.take_append_drop _ _) ?_ ?_
  · intro a _
    have heat := eat_args_some (p := { p with buffer := p.buffer.take (jsonEnd + 1) ++ a }) hstate
      (findJSONEnd_append (findJSONEndFrom_take hend) a)
    rw [List.take_left' hlen, List.drop_left' hlen] at heat
    exact heat
  · rw [expected_nil, expected_nil, hstate, parts_args_some hend]
    rfl

/-- A text that always comes to the same in two pieces is steady. -/
theorem steady_of_same {p : MinistralParser} (h : SameInTwo p) : Steady p.state p.buffer := by
  induction hn : p.buffer.length using Nat.strongRecOn generalizing p with
  | ind n ih =>
    subst hn
    cases hstate : p.state with
    | collectingContent =>
      cases hcall : cut ministralToolCallsTag p.buffer with
      | some q =>
        have hsplit := contentSplit_call hcall
        exact .contentTag hsplit (no_think_of_same hstate h hcall)
          (ih _ (contentSplit_length hsplit) (same_behind_call hstate h hcall) rfl)
      | none =>
        cases hthink : cut ministralThinkTag p.buffer with
        | some q =>
          have hsplit := contentSplit_think hcall hthink
          exact .contentTag hsplit (cut_eq_none_iff_absent.mp (cut_before (by decide) hthink))
            (ih _ (contentSplit_length hsplit) (same_behind_think hstate h hcall hthink) rfl)
        | none => exact .content (contentSplit_end hcall hthink)
    | collectingThinkingContent =>
      cases hend : cut ministralThinkEndTag p.buffer with
      | some q =>
        have hlen := length_of_cut hend
        have hle := length_trimLeft q.2
        have h8 : ministralThinkEndTag.length = 8 := rfl
        exact .thinkingTag hend (no_space_of_same hstate h hend)
          (ih (trimLeft q.2).length (by omega) (same_behind_thinking hstate h hend) rfl)
      | none => exact .thinking hend
    | collectingToolName =>
      cases hargs : cut ministralArgsTag p.buffer with
      | some q =>
        have hlen := length_of_cut hargs
        have h6 : ministralArgsTag.length = 6 := rfl
        exact .toolNameTag hargs (ih q.2.length (by omega) (same_behind_name hstate h hargs) rfl)
      | none => exact .toolName hargs
    | collectingToolArgs =>
      cases hend : findJSONEnd p.buffer with
      | some jsonEnd =>
        have hlt := findJSONEnd_lt hend
        refine .toolArgsEnd hend (ih (p.buffer.drop (jsonEnd + 1)).length ?_ (same_behind_args hstate h hend) rfl)
        rw [List.length_drop]
        omega
      | none => exact .toolArgs hend

/-! ## All chunks -/

theorem setInitialState_eq (hasThinkingSupport : Bool) (lastMessage : Option Message) :
    ∃ state, (state = .collectingContent ∨ state = .collectingThinkingContent) ∧
      MinistralParser.setInitialState { hasThinkingSupport } lastMessage = { state, hasThinkingSupport } := by
  unfold MinistralParser.setInitialState
  dsimp only
  split_ifs
  · exact ⟨_, .inl rfl, rfl⟩
  · exact ⟨_, .inl rfl, rfl⟩
  · exact ⟨_, .inr rfl, rfl⟩

/-- A parser whose chunks always come to the same has texts that come to the same in two pieces. -/
theorem sameInTwo_of_chunks {p : MinistralParser} (hbuffer : p.buffer = []) {text : Str}
    (h : ∀ a b, a ++ b = text → ∃ es p', p.feedEvents [a, b] = some (es, p') ∧ texts es = p.expected text) :
    SameInTwo { p with buffer := text } := by
  intro a b hab n outs p' hrounds
  obtain ⟨es, p'', hfeed, htexts⟩ := h a b hab
  obtain ⟨first, p₁, hparse, -, -⟩ := parseEvents_whole p a
  obtain ⟨second, p₂, hparse', hexpected, -⟩ := parseEvents_whole p₁ b
  have hsame : first = outs.flatten ∧ p₁ = p' := by
    rw [MinistralParser.parseEvents, hbuffer, List.nil_append] at hparse
    obtain ⟨r, hr, heq⟩ := Option.map_eq_some_iff.mp hparse
    cases rounds_unique hrounds hr
    cases heq
    exact ⟨rfl, rfl⟩
  obtain ⟨rfl, rfl⟩ := hsame
  rw [MinistralParser.feedEvents, feed, hparse, Option.bind_some, feed, hparse'] at hfeed
  cases hfeed
  dsimp only at htexts
  rw [texts_append, List.append_nil, hexpected] at htexts
  rw [htexts, MinistralParser.expected, MinistralParser.expected, hbuffer, List.append_nil, List.nil_append]

/-- All ways to cut a text give the same as one call if and only if the text is steady. -/
theorem parseEvents_same_iff (hasThinkingSupport : Bool) (lastMessage : Option Message) (text : Str) :
    let p := MinistralParser.setInitialState { hasThinkingSupport } lastMessage
    ∃ one p', p.parseEvents text = some (one, p') ∧
      ((∀ chunks : List Str, chunks.flatten = text →
        ∃ es p', p.feedEvents chunks = some (es, p') ∧ texts es = texts one) ↔ Steady p.state text) := by
  intro p
  obtain ⟨state, hstate, hp⟩ := setInitialState_eq hasThinkingSupport lastMessage
  have hp : p = { state, hasThinkingSupport } := hp
  obtain ⟨one, p', hone, hexpected, -⟩ := parseEvents_whole p text
  refine ⟨one, p', hone, fun hall => ?_, fun hsteady chunks htext => ?_⟩
  · have hsame : SameInTwo { p with buffer := text } := by
      refine sameInTwo_of_chunks (by rw [hp]) fun a b hab => ?_
      obtain ⟨es, p'', hfeed, htexts⟩ := hall [a, b] (by simpa using hab)
      exact ⟨es, p'', hfeed, htexts.trans hexpected⟩
    exact steady_of_same hsame
  · rw [← htext] at hsteady hexpected
    have hready : p.Ready chunks.flatten := by
      rw [MinistralParser.Ready, hp]
      rw [hp] at hsteady
      exact hsteady
    have hsettled : p.expected [] = {} := by
      rw [hp]
      obtain rfl | rfl := hstate
      · exact @parts_content_end [] [] [] rfl
      · exact @parts_thinking_end [] [] rfl
    obtain ⟨es, p'', hfeed, htexts⟩ := feedEvents_ready hready hsettled
    exact ⟨es, p'', hfeed, htexts.trans hexpected.symm⟩

/-- Thinking in front of a call, in one piece and in two. -/
theorem thinkThenCall_differs :
    ((MinistralParser.setInitialState {} none).parseEvents "[THINK]a[/THINK][TOOL_CALLS]f[ARGS]\x7b\x7d".toList).map
          (fun r => texts r.1) =
        some { content := "[THINK]a[/THINK]".toList, toolCalls := [("f".toList, "\x7b\x7d".toList)] } ∧
      ((MinistralParser.setInitialState {} none).feedEvents
          ["[THINK]a[/THINK]".toList, "[TOOL_CALLS]f[ARGS]\x7b\x7d".toList]).map (fun r => texts r.1) =
        some { thinking := "a".toList, toolCalls := [("f".toList, "\x7b\x7d".toList)] } := by
  decide

end Xdragon.Parsers.Ministral
