import Xdragon.Parsers.Text

/-!
# The Ministral parser

`MinistralParser` of `model/parsers/ministral.go`. In content the opening tag of a tool call is looked for before that of
thinking, wherever the two are in the buffer.
-/

namespace Xdragon.Parsers.Ministral

open Xdragon.Lib

inductive MinistralParserState where
  | collectingContent
  | collectingThinkingContent
  | collectingToolName
  | collectingToolArgs

inductive MinistralEvent where
  | content (content : Str)
  | thinking (thinking : Str)
  | toolCall (name args : Str)

/-- The fields of the last message that the parser looks at. -/
structure Message where
  role : Str
  content : Str

structure MinistralParser where
  state : MinistralParserState := .collectingContent
  buffer : Str := []
  hasThinkingSupport : Bool := false
  pendingToolName : Str := []

def ministralToolCallsTag : Str := "[TOOL_CALLS]".toList
def ministralThinkTag : Str := "[THINK]".toList
def ministralThinkEndTag : Str := "[/THINK]".toList
def ministralArgsTag : Str := "[ARGS]".toList

def MinistralParser.setInitialState (p : MinistralParser) (lastMessage : Option Message) : MinistralParser :=
  let prefilled := lastMessage.any fun m => m.role = "assistant".toList
  if !p.hasThinkingSupport then { p with state := .collectingContent }
  else if prefilled ∧ lastMessage.any fun m => m.content ≠ [] then { p with state := .collectingContent }
  else { p with state := .collectingThinkingContent }

/-- The loop of `findJSONEnd`. A bracket closes without a look at what it closes. -/
@[grind =]
def findJSONEndFrom (depth : Int) (inString escaped : Bool) : Str → Option Nat
  | [] => none
  | r :: s =>
    if inString then
      (if escaped then findJSONEndFrom depth true false s
      else if r = '\\' then findJSONEndFrom depth true true s
      else if r = '"' then findJSONEndFrom depth false false s
      else findJSONEndFrom depth true false s).map (· + 1)
    else if r = '"' then (findJSONEndFrom depth true escaped s).map (· + 1)
    else if r = '\x7b' ∨ r = '[' then (findJSONEndFrom (depth + 1) false escaped s).map (· + 1)
    else if r = '\x7d' ∨ r = ']' then
      if depth - 1 = 0 then some 0 else (findJSONEndFrom (depth - 1) false escaped s).map (· + 1)
    else (findJSONEndFrom depth false escaped s).map (· + 1)

/-- The index of the bracket that completes a JSON object, if it has come. -/
def findJSONEnd (s : Str) : Option Nat := findJSONEndFrom 0 false false s

/-- The event for a text, if there is any. -/
def emit (event : Str → MinistralEvent) (text : Str) : List MinistralEvent := if text.length > 0 then [event text] else []

/-- The larger overlap of the end of the text with a tag that ends content. -/
def maxOverlap (bufStr : Str) : Nat := max (overlap bufStr ministralToolCallsTag) (overlap bufStr ministralThinkTag)

def MinistralParser.eat (p : MinistralParser) : List MinistralEvent × MinistralParser × Bool :=
  let bufStr := p.buffer
  match p.state with
  | .collectingContent =>
    match cut ministralToolCallsTag bufStr with
    | some (before, after) =>
      (emit .content (trimRight before), { p with state := .collectingToolName, buffer := after }, true)
    | none =>
      match cut ministralThinkTag bufStr with
      | some (before, after) =>
        (emit .content (trimRight before), { p with state := .collectingThinkingContent, buffer := after }, true)
      | none =>
        if maxOverlap bufStr > 0 then
          let beforePartialTag := bufStr.take (bufStr.length - maxOverlap bufStr)
          let ambiguousStart := beforePartialTag.length - trailingWhitespaceLen beforePartialTag
          (emit .content (bufStr.take ambiguousStart), { p with buffer := bufStr.drop ambiguousStart }, false)
        else
          let ambiguousStart := bufStr.length - trailingWhitespaceLen bufStr
          (emit .content (bufStr.take ambiguousStart), { p with buffer := bufStr.drop ambiguousStart }, false)
  | .collectingThinkingContent =>
    match cut ministralThinkEndTag bufStr with
    | some (thinkingContent, after) =>
      (emit .thinking thinkingContent, { p with state := .collectingContent, buffer := trimLeft after }, true)
    | none =>
      let overlapLen := overlap bufStr ministralThinkEndTag
      if overlapLen > 0 then
        (emit .thinking (bufStr.take (bufStr.length - overlapLen)),
          { p with buffer := bufStr.drop (bufStr.length - overlapLen) }, false)
      else (emit .thinking bufStr, { p with buffer := [] }, false)
  | .collectingToolName =>
    match cut ministralArgsTag bufStr with
    | some (toolName, after) =>
      ([], { p with state := .collectingToolArgs, buffer := after, pendingToolName := toolName }, true)
    | none => ([], p, false)
  | .collectingToolArgs =>
    match findJSONEnd bufStr with
    | some jsonEnd =>
      ([.toolCall p.pendingToolName (bufStr.take (jsonEnd + 1))],
        { p with state := .collectingContent, buffer := bufStr.drop (jsonEnd + 1), pendingToolName := [] }, true)
    | none => ([], p, false)

/-- The part of `Add` that finds the events: the text is written to the buffer, and `parseEvents` runs. -/
def MinistralParser.parseEvents (p : MinistralParser) (s : Str) : Option (List MinistralEvent × MinistralParser) :=
  (rounds MinistralParser.eat (p.buffer.length + s.length + 1) { p with buffer := p.buffer ++ s }).map fun r =>
    (r.1.flatten, r.2)

/-! ## The end of the arguments -/

/-- The arguments end with a bracket. -/
theorem findJSONEndFrom_some {depth : Int} {inString escaped : Bool} {s : Str} {i : Nat}
    (h : findJSONEndFrom depth inString escaped s = some i) :
    ∃ a x b, s = a ++ x :: b ∧ i = a.length ∧ (x = '\x7d' ∨ x = ']') := by
  induction s generalizing depth inString escaped i with
  | nil => cases h
  | cons r s ih =>
    have hlater : ∀ {depth inString escaped}, (findJSONEndFrom depth inString escaped s).map (· + 1) = some i →
        ∃ a x b, r :: s = a ++ x :: b ∧ i = a.length ∧ (x = '\x7d' ∨ x = ']') := by
      intro depth inString escaped h
      obtain ⟨j, hj, rfl⟩ := Option.map_eq_some_iff.mp h
      obtain ⟨a, x, b, rfl, rfl, hx⟩ := ih hj
      exact ⟨r :: a, x, b, rfl, rfl, hx⟩
    rw [findJSONEndFrom] at h
    split_ifs at h with _ _ _ _ _ _ hclose
    all_goals try exact hlater h
    cases h
    exact ⟨[], r, s, rfl, rfl, hclose⟩

theorem findJSONEndFrom_append {depth : Int} {inString escaped : Bool} {s : Str} {i : Nat}
    (h : findJSONEndFrom depth inString escaped s = some i) (c : Str) :
    findJSONEndFrom depth inString escaped (s ++ c) = some i := by
  induction s generalizing depth inString escaped i with
  | nil => cases h
  | cons r s ih =>
    have hlater : ∀ {depth inString escaped}, (findJSONEndFrom depth inString escaped s).map (· + 1) = some i →
        (findJSONEndFrom depth inString escaped (s ++ c)).map (· + 1) = some i := by
      intro depth inString escaped h
      obtain ⟨j, hj, rfl⟩ := Option.map_eq_some_iff.mp h
      rw [ih hj, Option.map_some]
    rw [List.cons_append, findJSONEndFrom]
    rw [findJSONEndFrom] at h
    split_ifs at h ⊢
    all_goals first | exact hlater h | exact h

theorem findJSONEnd_append {s : Str} {i : Nat} (h : findJSONEnd s = some i) (c : Str) : findJSONEnd (s ++ c) = some i :=
  findJSONEndFrom_append h c

/-- The arguments end where they end when what follows is taken away. -/
theorem findJSONEndFrom_take {depth : Int} {inString escaped : Bool} {s : Str} {i : Nat}
    (h : findJSONEndFrom depth inString escaped s = some i) :
    findJSONEndFrom depth inString escaped (s.take (i + 1)) = some i := by
  induction s generalizing depth inString escaped i with
  | nil => cases h
  | cons r s ih =>
    have hlater : ∀ {depth inString escaped}, (findJSONEndFrom depth inString escaped s).map (· + 1) = some i →
        (findJSONEndFrom depth inString escaped (s.take i)).map (· + 1) = some i := by
      intro depth inString escaped h
      obtain ⟨j, hj, rfl⟩ := Option.map_eq_some_iff.mp h
      rw [ih hj, Option.map_some]
    rw [List.take_succ_cons, findJSONEndFrom]
    rw [findJSONEndFrom] at h
    split_ifs at h ⊢
    all_goals first | exact hlater h | exact h

theorem findJSONEnd_lt {s : Str} {i : Nat} (h : findJSONEnd s = some i) : i < s.length := by
  obtain ⟨a, x, b, rfl, rfl, -⟩ := findJSONEndFrom_some h
  simp

/-! ## What one call makes of a text -/

/-- Content, thinking, and the names and arguments of calls. -/
@[ext]
structure Parts where
  content : Str := []
  thinking : Str := []
  toolCalls : List (Str × Str) := []
  deriving DecidableEq

/-- Parts one after another. -/
def both (a b : Parts) : Parts :=
  { content := a.content ++ b.content, thinking := a.thinking ++ b.thinking, toolCalls := a.toolCalls ++ b.toolCalls }

/-- The texts of events. -/
def texts (es : List MinistralEvent) : Parts where
  content := es.flatMap fun | .content c => c | _ => []
  thinking := es.flatMap fun | .thinking t => t | _ => []
  toolCalls := es.filterMap fun | .toolCall name args => some (name, args) | _ => none

/-- The text up to the tag that ends it, or to the beginning of one at the end, and what follows the tag. -/
def contentSplit (text : Str) : Str × Option (MinistralParserState × Str) :=
  match cut ministralToolCallsTag text with
  | some (before, after) => (before, some (.collectingToolName, after))
  | none =>
    match cut ministralThinkTag text with
    | some (before, after) => (before, some (.collectingThinkingContent, after))
    | none => (text.take (text.length - maxOverlap text), none)

theorem contentSplit_length {text before after : Str} {state : MinistralParserState}
    (h : contentSplit text = (before, some (state, after))) : after.length < text.length := by
  unfold contentSplit at h
  split at h
  · rename_i hcut
    cases h
    have hlen := length_of_cut hcut
    have h12 : ministralToolCallsTag.length = 12 := rfl
    omega
  · split at h
    · rename_i hcut
      cases h
      have hlen := length_of_cut hcut
      have h7 : ministralThinkTag.length = 7 := rfl
      omega
    · cases h

/-- What a parser that has the text in its buffer gives. -/
def parts (state : MinistralParserState) (pendingToolName text : Str) : Parts :=
  match state with
  | .collectingContent =>
    match _h : contentSplit text with
    | (before, none) => { content := trimRight before }
    | (before, some (next, after)) => both { content := trimRight before } (parts next pendingToolName after)
  | .collectingThinkingContent =>
    match _h : cut ministralThinkEndTag text with
    | none => { thinking := released ministralThinkEndTag text }
    | some (thinking, after) => both { thinking } (parts .collectingContent pendingToolName (trimLeft after))
  | .collectingToolName =>
    match _h : cut ministralArgsTag text with
    | none => {}
    | some (toolName, after) => parts .collectingToolArgs toolName after
  | .collectingToolArgs =>
    match _h : findJSONEnd text with
    | none => {}
    | some jsonEnd =>
      both { toolCalls := [(pendingToolName, text.take (jsonEnd + 1))] }
        (parts .collectingContent [] (text.drop (jsonEnd + 1)))
termination_by text.length
decreasing_by
  · exact contentSplit_length _h
  · have h1 := length_of_cut _h
    have h2 := length_trimLeft after
    have h8 : ministralThinkEndTag.length = 8 := rfl
    omega
  · have h1 := length_of_cut _h
    have h6 : ministralArgsTag.length = 6 := rfl
    omega
  · have hlt := findJSONEnd_lt _h
    rw [List.length_drop]
    omega

section
variable {name text : Str}

theorem parts_content_end {before : Str} (h : contentSplit text = (before, none)) :
    parts .collectingContent name text = { content := trimRight before } := by
  conv_lhs => rw [parts]
  split
  · rename_i heq
    rw [h] at heq
    cases heq
    rfl
  · rename_i heq
    rw [h] at heq
    cases heq

theorem parts_content_tag {before after : Str} {next : MinistralParserState}
    (h : contentSplit text = (before, some (next, after))) :
    parts .collectingContent name text = both { content := trimRight before } (parts next name after) := by
  conv_lhs => rw [parts]
  split
  · rename_i heq
    rw [h] at heq
    cases heq
  · rename_i heq
    rw [h] at heq
    cases heq
    rfl

theorem parts_thinking_end (h : cut ministralThinkEndTag text = none) :
    parts .collectingThinkingContent name text = { thinking := released ministralThinkEndTag text } := by
  conv_lhs => rw [parts]
  split
  · rfl
  · rename_i heq
    rw [h] at heq
    cases heq

theorem parts_thinking_tag {thinking after : Str} (h : cut ministralThinkEndTag text = some (thinking, after)) :
    parts .collectingThinkingContent name text = both { thinking } (parts .collectingContent name (trimLeft after)) := by
  conv_lhs => rw [parts]
  split
  · rename_i heq
    rw [h] at heq
    cases heq
  · rename_i heq
    rw [h] at heq
    cases heq
    rfl

theorem parts_name_end (h : cut ministralArgsTag text = none) : parts .collectingToolName name text = {} := by
  conv_lhs => rw [parts]
  split
  · rfl
  · rename_i heq
    rw [h] at heq
    cases heq

theorem parts_name_tag {toolName after : Str} (h : cut ministralArgsTag text = some (toolName, after)) :
    parts .collectingToolName name text = parts .collectingToolArgs toolName after := by
  conv_lhs => rw [parts]
  split
  · rename_i heq
    rw [h] at heq
    cases heq
  · rename_i heq
    rw [h] at heq
    cases heq
    rfl

theorem parts_args_end (h : findJSONEnd text = none) : parts .collectingToolArgs name text = {} := by
  conv_lhs => rw [parts]
  split
  · rfl
  · rename_i heq
    rw [h] at heq
    cases heq

theorem parts_args_some {jsonEnd : Nat} (h : findJSONEnd text = some jsonEnd) : parts .collectingToolArgs name text =
    both { toolCalls := [(name, text.take (jsonEnd + 1))] } (parts .collectingContent [] (text.drop (jsonEnd + 1))) := by
  conv_lhs => rw [parts]
  split
  · rename_i heq
    rw [h] at heq
    cases heq
  · rename_i heq
    rw [h] at heq
    cases heq
    rfl

end

/-! ## Content in pieces -/

theorem contentSplit_call {text before after : Str} (h : cut ministralToolCallsTag text = some (before, after)) :
    contentSplit text = (before, some (.collectingToolName, after)) := by
  rw [contentSplit, h]

theorem contentSplit_think {text before after : Str} (hcall : cut ministralToolCallsTag text = none)
    (h : cut ministralThinkTag text = some (before, after)) :
    contentSplit text = (before, some (.collectingThinkingContent, after)) := by
  rw [contentSplit, hcall]
  dsimp only
  rw [h]

theorem contentSplit_end {text : Str} (hcall : cut ministralToolCallsTag text = none)
    (h : cut ministralThinkTag text = none) : contentSplit text = (text.take (text.length - maxOverlap text), none) := by
  rw [contentSplit, hcall]
  dsimp only
  rw [h]

theorem maxOverlap_le (text : Str) : maxOverlap text ≤ text.length :=
  Nat.max_le.mpr ⟨overlap_le_length _ _, overlap_le_length _ _⟩

/-- Text behind what is given away is split as it is on its own. -/
theorem contentSplit_behind {e r : Str} (hcall : cut ministralToolCallsTag (e ++ r) = none)
    (hthink : cut ministralThinkTag (e ++ r) = none) (hover : maxOverlap (e ++ r) ≤ r.length) (c : Str) :
    contentSplit (e ++ r ++ c) = (e ++ (contentSplit (r ++ c)).1, (contentSplit (r ++ c)).2) := by
  obtain ⟨hovercall, hoverthink⟩ := Nat.max_le.mp hover
  have hcutcall := cut_append_none hovercall c hcall
  have hcutthink := cut_append_none hoverthink c hthink
  cases hc : cut ministralToolCallsTag (r ++ c) with
  | some q =>
    rw [hc, Option.map_some] at hcutcall
    rw [contentSplit_call hc, contentSplit_call hcutcall]
  | none =>
    rw [hc, Option.map_none] at hcutcall
    cases ht : cut ministralThinkTag (r ++ c) with
    | some q =>
      rw [ht, Option.map_some] at hcutthink
      rw [contentSplit_think hc ht, contentSplit_think hcutcall hcutthink]
    | none =>
      rw [ht, Option.map_none] at hcutthink
      have hmax : maxOverlap (e ++ r ++ c) = maxOverlap (r ++ c) := by
        unfold maxOverlap
        rw [overlap_append hovercall, overlap_append hoverthink]
      have hle := maxOverlap_le (r ++ c)
      have hlen : (e ++ (r ++ c)).length - maxOverlap (r ++ c) = e.length + ((r ++ c).length - maxOverlap (r ++ c)) := by
        rw [List.length_append]
        omega
      rw [contentSplit_end hc ht, contentSplit_end hcutcall hcutthink, hmax, List.append_assoc, hlen,
        List.take_length_add_append]

theorem toolCallsTag_space : ∀ x ∈ ministralToolCallsTag, isSpace x = false := by
  have h : ministralToolCallsTag.all (fun x => !isSpace x) = true := by decide
  simpa using h

theorem thinkTag_space : ∀ x ∈ ministralThinkTag, isSpace x = false := by
  have h : ministralThinkTag.all (fun x => !isSpace x) = true := by decide
  simpa using h

/-- White space in front of text belongs to the content. -/
theorem contentSplit_space {w : Str} (hw : ∀ x ∈ w, isSpace x = true) (text : Str) :
    contentSplit (w ++ text) = (w ++ (contentSplit text).1, (contentSplit text).2) := by
  have hclearcall : Clear ministralToolCallsTag w := clear_of_space toolCallsTag_space (by decide) hw
  have hclearthink : Clear ministralThinkTag w := clear_of_space thinkTag_space (by decide) hw
  have hcutcall := cut_clear hclearcall text
  have hcutthink := cut_clear hclearthink text
  cases hc : cut ministralToolCallsTag text with
  | some q =>
    rw [hc, Option.map_some] at hcutcall
    rw [contentSplit_call hc, contentSplit_call hcutcall]
  | none =>
    rw [hc, Option.map_none] at hcutcall
    cases ht : cut ministralThinkTag text with
    | some q =>
      rw [ht, Option.map_some] at hcutthink
      rw [contentSplit_think hc ht, contentSplit_think hcutcall hcutthink]
    | none =>
      rw [ht, Option.map_none] at hcutthink
      have hmax : maxOverlap (w ++ text) = maxOverlap text := by
        unfold maxOverlap
        rw [overlap_clear hclearcall, overlap_clear hclearthink]
      have hle := maxOverlap_le text
      have hlen : (w ++ text).length - maxOverlap text = w.length + (text.length - maxOverlap text) := by
        rw [List.length_append]
        omega
      rw [contentSplit_end hc ht, contentSplit_end hcutcall hcutthink, hmax, hlen, List.take_length_add_append]

/-- An opening tag of thinking that has come before that of a call is in front of it. -/
theorem think_ahead {text before after : Str} (hcall : cut ministralToolCallsTag text = none)
    (hthink : cut ministralThinkTag text ≠ none) {c : Str}
    (h : cut ministralToolCallsTag (text ++ c) = some (before, after)) : ministralThinkTag <:+: before := by
  obtain ⟨q, hq⟩ := Option.ne_none_iff_exists'.mp hthink
  obtain ⟨htext, -⟩ := cut_eq_some hq
  have hfront : cut ministralToolCallsTag q.1 = none := by
    rw [htext] at hcall
    exact cut_none_of_append hcall
  have hclear : Clear ministralToolCallsTag ministralThinkTag := by decide
  have hcut := cut_append_clear hclear (q.2 ++ c) hfront ⟨'[', rfl, by decide⟩
  have hsplit : text ++ c = q.1 ++ (ministralThinkTag ++ (q.2 ++ c)) := by
    rw [htext]
    simp
  rw [hsplit, hcut] at h
  obtain ⟨t, -, heq⟩ := Option.map_eq_some_iff.mp h
  cases heq
  exact ⟨q.1, t.1, by simp⟩

/-! ## Texts that come to the same in all pieces -/

/-- The text starts with a tag that ends content, or is the beginning of one. -/
def AtTag (text : Str) : Prop := (text <+: ministralToolCallsTag ∨ ministralToolCallsTag <+: text) ∨
  text <+: ministralThinkTag ∨ ministralThinkTag <+: text

instance : DecidablePred AtTag := fun _ => inferInstanceAs (Decidable ((_ ∨ _) ∨ _ ∨ _))

/-- A text whose content always ends at the first tag, and in which a tag follows white space behind thinking. -/
inductive Steady : MinistralParserState → Str → Prop
  | content {text before : Str} : contentSplit text = (before, none) → Steady .collectingContent text
  | contentTag {text before after : Str} {next : MinistralParserState} : contentSplit text = (before, some (next, after)) →
      ¬ ministralThinkTag <:+: before → Steady next after → Steady .collectingContent text
  | thinking {text : Str} : cut ministralThinkEndTag text = none → Steady .collectingThinkingContent text
  | thinkingTag {text thinking after : Str} : cut ministralThinkEndTag text = some (thinking, after) →
      (trimLeft after = after ∨ AtTag (trimLeft after)) → Steady .collectingContent (trimLeft after) →
      Steady .collectingThinkingContent text
  | toolName {text : Str} : cut ministralArgsTag text = none → Steady .collectingToolName text
  | toolNameTag {text toolName after : Str} : cut ministralArgsTag text = some (toolName, after) →
      Steady .collectingToolArgs after → Steady .collectingToolName text
  | toolArgs {text : Str} : findJSONEnd text = none → Steady .collectingToolArgs text
  | toolArgsEnd {text : Str} {jsonEnd : Nat} : findJSONEnd text = some jsonEnd →
      Steady .collectingContent (text.drop (jsonEnd + 1)) → Steady .collectingToolArgs text

section
variable {text : Str}

theorem steady_content {before after : Str} {next : MinistralParserState} (h : Steady .collectingContent text)
    (hsplit : contentSplit text = (before, some (next, after))) : ¬ ministralThinkTag <:+: before ∧ Steady next after := by
  cases h with
  | content hend =>
    rw [hsplit] at hend
    cases hend
  | contentTag htag hbefore hafter =>
    rw [hsplit] at htag
    cases htag
    exact ⟨hbefore, hafter⟩

theorem steady_thinking {thinking after : Str} (h : Steady .collectingThinkingContent text)
    (hcut : cut ministralThinkEndTag text = some (thinking, after)) :
    (trimLeft after = after ∨ AtTag (trimLeft after)) ∧ Steady .collectingContent (trimLeft after) := by
  cases h with
  | thinking hend =>
    rw [hcut] at hend
    cases hend
  | thinkingTag htag hspace hafter =>
    rw [hcut] at htag
    cases htag
    exact ⟨hspace, hafter⟩

theorem steady_toolName {toolName after : Str} (h : Steady .collectingToolName text)
    (hcut : cut ministralArgsTag text = some (toolName, after)) : Steady .collectingToolArgs after := by
  cases h with
  | toolName hend =>
    rw [hcut] at hend
    cases hend
  | toolNameTag htag hafter =>
    rw [hcut] at htag
    cases htag
    exact hafter

theorem steady_toolArgs {jsonEnd : Nat} (h : Steady .collectingToolArgs text) (hend : findJSONEnd text = some jsonEnd) :
    Steady .collectingContent (text.drop (jsonEnd + 1)) := by
  cases h with
  | toolArgs hnone =>
    rw [hend] at hnone
    cases hnone
  | toolArgsEnd hsome hafter =>
    rw [hend] at hsome
    cases hsome
    exact hafter

end

/-- Steady content has no beginning of thinking in front of a call. -/
theorem think_first {text : Str} (h : Steady .collectingContent text) {buffer c : Str} (htext : text = buffer ++ c)
    (hcall : cut ministralToolCallsTag buffer = none) (hthink : cut ministralThinkTag buffer ≠ none) :
    cut ministralToolCallsTag text = none := by
  refine Option.eq_none_iff_forall_ne_some.mpr fun q hq => ?_
  have hbefore := think_ahead hcall hthink (htext ▸ hq)
  exact (steady_content h (contentSplit_call hq)).1 hbefore

/-! ## White space in front of content -/

/-- A text that is no longer than a tag and has the tag starts with it. -/
theorem prefix_of_cut {tag text : Str} {q : Str × Str} (hcut : cut tag text = some q) (hle : text.length ≤ tag.length) :
    tag <+: text := by
  have hlen := length_of_cut hcut
  obtain ⟨htext, -⟩ := cut_eq_some hcut
  have hnil : q.1 = [] := List.eq_nil_of_length_eq_zero (by omega)
  rw [hnil, List.nil_append] at htext
  exact ⟨q.2, htext.symm⟩

theorem contentSplit_call_prefix {text : Str} (h : ministralToolCallsTag <+: text) : (contentSplit text).1 = [] := by
  rw [contentSplit_call (cut_at_start h)]

/-- Thinking starts in steady content only if there is no call behind. -/
theorem contentSplit_think_prefix {text : Str} (h : ministralThinkTag <+: text) (hsteady : Steady .collectingContent text) :
    (contentSplit text).1 = [] := by
  obtain ⟨c, hc⟩ := h
  have hcall := think_first hsteady hc.symm (by decide) (by decide)
  rw [contentSplit_think hcall (cut_at_start ⟨c, hc⟩)]

/-- The beginning of a tag is withheld. -/
theorem contentSplit_held {text : Str} (hcall : cut ministralToolCallsTag text = none)
    (hthink : cut ministralThinkTag text = none) (h : text <+: ministralToolCallsTag ∨ text <+: ministralThinkTag) :
    (contentSplit text).1 = [] := by
  have hmax : text.length ≤ maxOverlap text := by
    obtain h | h := h
    · exact (le_overlap_of_drop (i := 0) h).trans (Nat.le_max_left _ _)
    · exact (le_overlap_of_drop (i := 0) h).trans (Nat.le_max_right _ _)
  rw [contentSplit_end hcall hthink, Nat.sub_eq_zero_of_le hmax, List.take_zero]

/-- A text at a tag has no content in front of the tag. -/
theorem contentSplit_atTag {text : Str} (h : AtTag text) (hsteady : Steady .collectingContent text) :
    (contentSplit text).1 = [] := by
  by_cases hcall : ministralToolCallsTag <+: text
  · exact contentSplit_call_prefix hcall
  by_cases hthink : ministralThinkTag <+: text
  · exact contentSplit_think_prefix hthink hsteady
  have hstart : text <+: ministralToolCallsTag ∨ text <+: ministralThinkTag := by
    simpa [AtTag, hcall, hthink] using h
  have hcallnone : cut ministralToolCallsTag text = none := by
    refine Option.eq_none_iff_forall_ne_some.mpr fun q hq => hcall (prefix_of_cut hq ?_)
    obtain hpre | hpre := hstart
    · exact hpre.length_le
    · exact hpre.length_le.trans (by decide)
  have hthinknone : cut ministralThinkTag text = none := by
    refine Option.eq_none_iff_forall_ne_some.mpr fun q hq => ?_
    obtain hpre | hpre := hstart
    · have hplace : ministralThinkTag <:+: ministralToolCallsTag := by
        obtain ⟨htext, -⟩ := cut_eq_some hq
        exact List.IsInfix.trans ⟨q.1, q.2, by rw [htext, List.append_assoc]⟩ hpre.isInfix
      exact absurd hplace (by decide)
    · exact hthink (prefix_of_cut hq hpre.length_le)
  exact contentSplit_held hcallnone hthinknone hstart

theorem prefix_of_overlap {tag text : Str} (h : text.length ≤ overlap text tag) : text <+: tag := by
  have hsuffix := overlap_suffix text tag
  have hle := overlap_le_delim text tag
  have heq := hsuffix.eq_of_length_le (by rw [List.length_take]; omega)
  rw [← heq]
  exact List.take_prefix _ _

theorem atTag_of_contentSplit {text : Str} (h : (contentSplit text).1 = []) : AtTag text := by
  cases hcall : cut ministralToolCallsTag text with
  | some q =>
    rw [contentSplit_call hcall] at h
    obtain ⟨htext, -⟩ := cut_eq_some hcall
    rw [h, List.nil_append] at htext
    exact .inl (.inr ⟨q.2, htext.symm⟩)
  | none =>
    cases hthink : cut ministralThinkTag text with
    | some q =>
      rw [contentSplit_think hcall hthink] at h
      obtain ⟨htext, -⟩ := cut_eq_some hthink
      rw [h, List.nil_append] at htext
      exact .inr (.inr ⟨q.2, htext.symm⟩)
    | none =>
      rw [contentSplit_end hcall hthink] at h
      have hlen := congrArg List.length h
      rw [List.length_take, List.length_nil] at hlen
      obtain hle | hle : text.length ≤ overlap text ministralToolCallsTag ∨ text.length ≤ overlap text ministralThinkTag := by
        unfold maxOverlap at hlen
        omega
      · exact .inl (.inl (prefix_of_overlap hle))
      · exact .inr (.inl (prefix_of_overlap hle))

theorem contentSplit_start (text : Str) : (contentSplit text).1 <+: text := by
  cases hcall : cut ministralToolCallsTag text with
  | some q =>
    rw [contentSplit_call hcall]
    exact ⟨_, (cut_eq_some hcall).1.symm⟩
  | none =>
    cases hthink : cut ministralThinkTag text with
    | some q =>
      rw [contentSplit_think hcall hthink]
      exact ⟨_, (cut_eq_some hthink).1.symm⟩
    | none =>
      rw [contentSplit_end hcall hthink]
      exact List.take_prefix _ _

theorem isSpace_head {x : Char} {s : Str} (h : trimLeft (x :: s) = x :: s) : isSpace x = false := by
  rw [Bool.eq_false_iff]
  intro hx
  have hlen := congrArg List.length h
  have hle := length_trimLeft s
  unfold trimLeft at hlen hle
  rw [List.dropWhile_cons, if_pos hx, List.length_cons] at hlen
  omega

/-- The beginning of a text that does not start with white space does not start with it either. -/
theorem trimLeft_of_start {a text : Str} (htext : trimLeft text = text) (ha : a <+: text) : trimLeft a = a := by
  cases a with
  | nil => rfl
  | cons x a =>
    obtain ⟨c, rfl⟩ := ha
    have hx := isSpace_head htext
    rw [trimLeft, List.dropWhile_cons, if_neg (by rw [hx]; exact Bool.false_ne_true)]

theorem trimRight_ne_nil {a : Str} (ha : trimLeft a = a) (hne : a ≠ []) : trimRight a ≠ [] := by
  obtain ⟨x, a, rfl⟩ := List.exists_cons_of_ne_nil hne
  intro hall
  have hx := List.rdropWhile_eq_nil_iff.mp hall x (List.mem_cons_self ..)
  rw [isSpace_head ha] at hx
  cases hx

theorem both_assoc (a b c : Parts) : both (both a b) c = both a (both b c) := by
  simp [both]

theorem nothing_both (a : Parts) : both {} a = a := by
  simp [both]

theorem both_cancel {a b c : Parts} (h : both a b = both a c) : b = c := by
  simp only [both, Parts.mk.injEq, List.append_cancel_left_eq] at h
  exact Parts.ext h.1 h.2.1 h.2.2

/-- Content behind text that does not end with white space. -/
theorem parts_content_behind {text e r : Str} (he : trimRight e = e)
    (hsplit : contentSplit text = (e ++ (contentSplit r).1, (contentSplit r).2)) (name : Str) :
    parts .collectingContent name text = both { content := e } (parts .collectingContent name r) := by
  have htrim : trimRight (e ++ (contentSplit r).1) = e ++ trimRight (contentSplit r).1 :=
    rdropWhile_append_of_last isSpace he _
  cases hr : (contentSplit r).2 with
  | none =>
    rw [hr] at hsplit
    rw [parts_content_end hsplit, parts_content_end (Prod.ext rfl hr), htrim]
    simp [both]
  | some q =>
    rw [hr] at hsplit
    rw [parts_content_tag hsplit, parts_content_tag (Prod.ext rfl hr), htrim, ← both_assoc]
    simp [both]

theorem steady_content_behind {text e r : Str} (hsplit : contentSplit text = (e ++ (contentSplit r).1, (contentSplit r).2))
    (h : Steady .collectingContent text) : Steady .collectingContent r := by
  cases hr : (contentSplit r).2 with
  | none => exact .content (Prod.ext rfl hr)
  | some q =>
    rw [hr] at hsplit
    obtain ⟨hbefore, hafter⟩ := steady_content h hsplit
    exact .contentTag (Prod.ext rfl hr) (fun hplace => hbefore (hplace.trans (List.suffix_append _ _).isInfix)) hafter

/-- White space in front of text at a tag is dropped. -/
theorem parts_space {w text : Str} (hw : ∀ x ∈ w, isSpace x = true) (h : (contentSplit text).1 = []) (name : Str) :
    parts .collectingContent name (w ++ text) = parts .collectingContent name text := by
  have hsplit := contentSplit_space hw text
  have htrim : trimRight w = [] := List.rdropWhile_eq_nil_iff.mpr hw
  rw [h, List.append_nil] at hsplit
  cases ht : (contentSplit text).2 with
  | none =>
    rw [ht] at hsplit
    rw [parts_content_end hsplit, parts_content_end (Prod.ext h ht), htrim]
    rfl
  | some q =>
    rw [ht] at hsplit
    rw [parts_content_tag hsplit, parts_content_tag (Prod.ext h ht), htrim]
    rfl

theorem steady_space {w text : Str} (hw : ∀ x ∈ w, isSpace x = true) (h : (contentSplit text).1 = [])
    (hsteady : Steady .collectingContent text) : Steady .collectingContent (w ++ text) := by
  have hsplit := contentSplit_space hw text
  rw [h, List.append_nil] at hsplit
  cases ht : (contentSplit text).2 with
  | none =>
    rw [ht] at hsplit
    exact .content hsplit
  | some q =>
    rw [ht] at hsplit
    obtain ⟨-, hafter⟩ := steady_content hsteady (Prod.ext h ht)
    refine .contentTag hsplit (fun hplace => ?_) hafter
    have hbracket := hw '[' (hplace.subset (by decide))
    exact absurd hbracket (by decide)

/-- Behind thinking the parser drops the white space that has come, and steady text has no other. -/
theorem behind_thinking {after c : Str} (hspace : trimLeft (after ++ c) = after ++ c ∨ AtTag (trimLeft (after ++ c)))
    (h : Steady .collectingContent (trimLeft (after ++ c))) (name : Str) :
    parts .collectingContent name (trimLeft (after ++ c)) = parts .collectingContent name (trimLeft after ++ c) ∧
      Steady .collectingContent (trimLeft after ++ c) := by
  have happend := trimLeft_append after c
  split_ifs at happend with hempty
  · rw [happend] at hspace h
    rw [happend, hempty, List.nil_append]
    have hsplit := space_append_trimLeft c
    have hw : ∀ x ∈ c.takeWhile isSpace, isSpace x = true := fun _ hx => List.mem_takeWhile_imp hx
    obtain hspace | htag := hspace
    · have hlen := congrArg List.length hspace
      have hle := length_trimLeft c
      rw [List.length_append] at hlen
      have hsame : (trimLeft c).length = c.length := by omega
      have hnone : trimLeft c = c := (List.dropWhile_suffix isSpace).eq_of_length hsame
      rw [hnone] at h ⊢
      exact ⟨rfl, h⟩
    · have hfirst := contentSplit_atTag htag h
      have hparts := parts_space hw hfirst name
      have hsteady := steady_space hw hfirst h
      rw [hsplit] at hparts hsteady
      exact ⟨hparts.symm, hsteady⟩
  · rw [happend] at h
    exact ⟨by rw [happend], h⟩

/-! ## Thinking in pieces -/

theorem parts_thinking_behind {buffer : Str} (h : cut ministralThinkEndTag buffer = none) (name c : Str) :
    parts .collectingThinkingContent name (buffer ++ c) = both { thinking := released ministralThinkEndTag buffer }
      (parts .collectingThinkingContent name (withheld ministralThinkEndTag buffer ++ c)) := by
  have hcut := cut_append_withheld h c
  cases hrest : cut ministralThinkEndTag (withheld ministralThinkEndTag buffer ++ c) with
  | none =>
    rw [hrest, Option.map_none] at hcut
    rw [parts_thinking_end hcut, parts_thinking_end hrest, released_append_withheld_append]
    simp [both]
  | some q =>
    rw [hrest, Option.map_some] at hcut
    rw [parts_thinking_tag hcut, parts_thinking_tag hrest, ← both_assoc]
    simp [both]

theorem steady_thinking_behind {buffer c : Str} (h : cut ministralThinkEndTag buffer = none)
    (hsteady : Steady .collectingThinkingContent (buffer ++ c)) :
    Steady .collectingThinkingContent (withheld ministralThinkEndTag buffer ++ c) := by
  have hcut := cut_append_withheld h c
  cases hrest : cut ministralThinkEndTag (withheld ministralThinkEndTag buffer ++ c) with
  | none => exact .thinking hrest
  | some q =>
    rw [hrest, Option.map_some] at hcut
    obtain ⟨hspace, hafter⟩ := steady_thinking hsteady hcut
    exact .thinkingTag hrest hspace hafter

/-! ## Rounds -/

theorem texts_emit_content (t : Str) : texts (emit .content t) = { content := t } := by
  unfold emit
  cases t <;> simp [texts]

theorem texts_emit_thinking (t : Str) : texts (emit .thinking t) = { thinking := t } := by
  unfold emit
  cases t <;> simp [texts]

theorem texts_append (es es' : List MinistralEvent) : texts (es ++ es') = both (texts es) (texts es') := by
  simp [texts, both]

section
variable {p : MinistralParser}

theorem eat_content_tag (hstate : p.state = .collectingContent) {before after : Str} {next : MinistralParserState}
    (h : contentSplit p.buffer = (before, some (next, after))) :
    p.eat = (emit .content (trimRight before), { p with state := next, buffer := after }, true) := by
  unfold contentSplit at h
  unfold MinistralParser.eat
  rw [hstate]
  dsimp only
  cases hcall : cut ministralToolCallsTag p.buffer with
  | some q =>
    rw [hcall] at h
    cases h
    rfl
  | none =>
    rw [hcall] at h
    dsimp only at h ⊢
    cases hthink : cut ministralThinkTag p.buffer with
    | some q =>
      rw [hthink] at h
      cases h
      rfl
    | none =>
      rw [hthink] at h
      cases h

theorem trimRight_start (s : Str) : trimRight s <+: s := List.rdropWhile_prefix isSpace s

/-- Without a tag, the beginning of a tag stays in the buffer with the white space in front of it. -/
theorem eat_content_end (hstate : p.state = .collectingContent) {before : Str} (h : contentSplit p.buffer = (before, none)) :
    ∃ r, p.eat = (emit .content (trimRight before), { p with buffer := r }, false) ∧ trimRight before ++ r = p.buffer ∧
      maxOverlap p.buffer ≤ r.length ∧ cut ministralToolCallsTag p.buffer = none ∧ cut ministralThinkTag p.buffer = none := by
  have hcall : cut ministralToolCallsTag p.buffer = none := by
    refine Option.eq_none_iff_forall_ne_some.mpr fun q hq => ?_
    rw [contentSplit_call hq] at h
    cases h
  have hthink : cut ministralThinkTag p.buffer = none := by
    refine Option.eq_none_iff_forall_ne_some.mpr fun q hq => ?_
    rw [contentSplit_think hcall hq] at h
    cases h
  rw [contentSplit_end hcall hthink] at h
  cases h
  have hle := maxOverlap_le p.buffer
  generalize hbefore : p.buffer.take (p.buffer.length - maxOverlap p.buffer) = before
  have hlen : before.length = p.buffer.length - maxOverlap p.buffer := by
    rw [← hbefore, List.length_take]
    omega
  have htrim := (trimRight_start before).length_le
  have htake : p.buffer.take (trimRight before).length = trimRight before :=
    (List.prefix_iff_eq_take.mp ((trimRight_start before).trans (hbefore ▸ List.take_prefix _ _))).symm
  refine ⟨p.buffer.drop (trimRight before).length, ?_, ?_, ?_, hcall, hthink⟩
  · unfold MinistralParser.eat
    rw [hstate]
    dsimp only
    rw [hcall]
    dsimp only
    rw [hthink]
    dsimp only
    split_ifs with hover
    · rw [hbefore, length_sub_trailing, htake]
    · rw [Nat.eq_zero_of_not_pos hover, Nat.sub_zero, List.take_length] at hbefore
      rw [hbefore] at htake ⊢
      rw [length_sub_trailing, htake]
  · nth_rewrite 1 [← htake]
    exact List.take_append_drop _ _
  · rw [List.length_drop]
    omega

theorem eat_thinking_tag (hstate : p.state = .collectingThinkingContent) {thinking after : Str}
    (h : cut ministralThinkEndTag p.buffer = some (thinking, after)) :
    p.eat = (emit .thinking thinking, { p with state := .collectingContent, buffer := trimLeft after }, true) := by
  unfold MinistralParser.eat
  rw [hstate]
  dsimp only
  rw [h]

theorem eat_thinking_end (hstate : p.state = .collectingThinkingContent) (h : cut ministralThinkEndTag p.buffer = none) :
    p.eat = (emit .thinking (released ministralThinkEndTag p.buffer),
      { p with buffer := withheld ministralThinkEndTag p.buffer }, false) := by
  unfold MinistralParser.eat
  rw [hstate]
  dsimp only
  rw [h]
  unfold released withheld
  dsimp only
  split_ifs with hover
  · rfl
  · rw [Nat.eq_zero_of_not_pos hover, Nat.sub_zero, List.take_length, List.drop_length]

theorem eat_name_tag (hstate : p.state = .collectingToolName) {toolName after : Str}
    (h : cut ministralArgsTag p.buffer = some (toolName, after)) :
    p.eat = ([], { p with state := .collectingToolArgs, buffer := after, pendingToolName := toolName }, true) := by
  unfold MinistralParser.eat
  rw [hstate]
  dsimp only
  rw [h]

theorem eat_name_end (hstate : p.state = .collectingToolName) (h : cut ministralArgsTag p.buffer = none) :
    p.eat = ([], p, false) := by
  unfold MinistralParser.eat
  rw [hstate]
  dsimp only
  rw [h]

theorem eat_args_some (hstate : p.state = .collectingToolArgs) {jsonEnd : Nat} (h : findJSONEnd p.buffer = some jsonEnd) :
    p.eat = ([.toolCall p.pendingToolName (p.buffer.take (jsonEnd + 1))],
      { p with state := .collectingContent, buffer := p.buffer.drop (jsonEnd + 1), pendingToolName := [] }, true) := by
  unfold MinistralParser.eat
  rw [hstate]
  dsimp only
  rw [h]

theorem eat_args_end (hstate : p.state = .collectingToolArgs) (h : findJSONEnd p.buffer = none) : p.eat = ([], p, false) := by
  unfold MinistralParser.eat
  rw [hstate]
  dsimp only
  rw [h]

end

/-- What the parser gives for the text that comes, if it comes in one piece. -/
def MinistralParser.expected (p : MinistralParser) (text : Str) : Parts := parts p.state p.pendingToolName (p.buffer ++ text)

/-- The text that comes gives the same in all pieces. -/
def MinistralParser.Ready (p : MinistralParser) (text : Str) : Prop := Steady p.state (p.buffer ++ text)

/-- What a round does for the text that comes. -/
structure Advances (p : MinistralParser) (es : List MinistralEvent) (p' : MinistralParser) (more : Bool) (text : Str) :
    Prop where
  eats : p.eat = (es, p', more)
  expects : p.expected text = both (texts es) (p'.expected text)
  readies : p.Ready text → p'.Ready text
  shortens : more = true → p'.buffer.length < p.buffer.length
  settles : more = false → p'.expected [] = {}

section
variable {p : MinistralParser} {text : Str} (h : text = [] ∨ p.Ready text)
include h

/-- The tag that ends the content of the buffer ends that of the whole text. -/
theorem advances_content_tag (hstate : p.state = .collectingContent) {before after : Str} {next : MinistralParserState}
    (hsplit : contentSplit p.buffer = (before, some (next, after))) : ∃ es p' more, Advances p es p' more text := by
  have hmore : contentSplit (p.buffer ++ text) = (before, some (next, after ++ text)) := by
    cases hcall : cut ministralToolCallsTag p.buffer with
    | some q =>
      rw [contentSplit_call hcall] at hsplit
      cases hsplit
      exact contentSplit_call (cut_append_some hcall text)
    | none =>
      cases hthink : cut ministralThinkTag p.buffer with
      | some q =>
        rw [contentSplit_think hcall hthink] at hsplit
        cases hsplit
        refine contentSplit_think ?_ (cut_append_some hthink text)
        obtain rfl | hready := h
        · rwa [List.append_nil]
        · rw [MinistralParser.Ready, hstate] at hready
          exact think_first hready rfl hcall (by rw [hthink]; exact Option.some_ne_none _)
      | none =>
        rw [contentSplit_end hcall hthink] at hsplit
        cases hsplit
  refine ⟨_, _, _, eat_content_tag hstate hsplit, ?_, fun hready => ?_, fun _ => contentSplit_length hsplit, nofun⟩
  · rw [MinistralParser.expected, hstate, parts_content_tag hmore, texts_emit_content]
    rfl
  · rw [MinistralParser.Ready, hstate] at hready
    exact (steady_content hready hmore).2

omit h in
theorem advances_content_end (hstate : p.state = .collectingContent) {before : Str}
    (hsplit : contentSplit p.buffer = (before, none)) : ∃ es p' more, Advances p es p' more text := by
  obtain ⟨r, heat, hbuffer, hover, hcall, hthink⟩ := eat_content_end hstate hsplit
  have hbehind : ∀ c, contentSplit (p.buffer ++ c) =
      (trimRight before ++ (contentSplit (r ++ c)).1, (contentSplit (r ++ c)).2) := by
    intro c
    rw [← hbuffer] at hover hcall hthink ⊢
    exact contentSplit_behind hcall hthink hover c
  have hexpected : ∀ c, p.expected c =
      both { content := trimRight before } (parts .collectingContent p.pendingToolName (r ++ c)) := by
    intro c
    rw [MinistralParser.expected, hstate]
    exact parts_content_behind (trimRight_trimRight before) (hbehind c) _
  refine ⟨_, _, _, heat, ?_, fun hready => ?_, nofun, fun _ => ?_⟩
  · rw [hexpected, texts_emit_content, MinistralParser.expected]
    dsimp only
    rw [hstate]
  · rw [MinistralParser.Ready, hstate] at hready ⊢
    exact steady_content_behind (hbehind text) hready
  · have hwhole := hexpected []
    rw [MinistralParser.expected, hstate, List.append_nil, parts_content_end hsplit] at hwhole
    rw [MinistralParser.expected, hstate]
    exact (both_cancel (hwhole.symm.trans (by simp [both]))).trans rfl

theorem advances_thinking (hstate : p.state = .collectingThinkingContent) : ∃ es p' more, Advances p es p' more text := by
  cases hcut : cut ministralThinkEndTag p.buffer with
  | some q =>
    have hmore := cut_append_some hcut text
    have hlen := length_of_cut hcut
    have htrim := length_trimLeft q.2
    have h8 : ministralThinkEndTag.length = 8 := rfl
    refine ⟨_, _, _, eat_thinking_tag hstate hcut, ?_, fun hready => ?_, fun _ => by dsimp only; omega, nofun⟩
    · rw [MinistralParser.expected, hstate, parts_thinking_tag hmore, texts_emit_thinking, MinistralParser.expected]
      dsimp only
      obtain rfl | hready := h
      · rw [List.append_nil, List.append_nil]
      · rw [MinistralParser.Ready, hstate] at hready
        obtain ⟨hspace, hafter⟩ := steady_thinking hready hmore
        rw [(behind_thinking hspace hafter _).1]
    · rw [MinistralParser.Ready, hstate] at hready
      obtain ⟨hspace, hafter⟩ := steady_thinking hready hmore
      exact (behind_thinking hspace hafter []).2
  | none =>
    have hexpected : ∀ c, p.expected c = both { thinking := released ministralThinkEndTag p.buffer }
        (parts .collectingThinkingContent p.pendingToolName (withheld ministralThinkEndTag p.buffer ++ c)) := by
      intro c
      rw [MinistralParser.expected, hstate, parts_thinking_behind hcut]
    refine ⟨_, _, _, eat_thinking_end hstate hcut, ?_, fun hready => ?_, nofun, fun _ => ?_⟩
    · rw [hexpected, texts_emit_thinking, MinistralParser.expected]
      dsimp only
      rw [hstate]
    · rw [MinistralParser.Ready, hstate] at hready ⊢
      exact steady_thinking_behind hcut hready
    · have hwhole := hexpected []
      rw [MinistralParser.expected, hstate, List.append_nil, parts_thinking_end hcut] at hwhole
      rw [MinistralParser.expected, hstate]
      exact (both_cancel (hwhole.symm.trans (by simp [both]))).trans rfl

omit h in
theorem advances_name (hstate : p.state = .collectingToolName) : ∃ es p' more, Advances p es p' more text := by
  cases hcut : cut ministralArgsTag p.buffer with
  | some q =>
    have hmore := cut_append_some hcut text
    have hlen := length_of_cut hcut
    have h6 : ministralArgsTag.length = 6 := rfl
    refine ⟨_, _, _, eat_name_tag hstate hcut, ?_, fun hready => ?_, fun _ => by dsimp only; omega, nofun⟩
    · rw [MinistralParser.expected, hstate, parts_name_tag hmore]
      exact (nothing_both _).symm
    · rw [MinistralParser.Ready, hstate] at hready
      exact steady_toolName hready hmore
  | none =>
    refine ⟨_, _, _, eat_name_end hstate hcut, (nothing_both _).symm, id, nofun, fun _ => ?_⟩
    rw [MinistralParser.expected, hstate, List.append_nil, parts_name_end hcut]

omit h in
theorem advances_args (hstate : p.state = .collectingToolArgs) : ∃ es p' more, Advances p es p' more text := by
  cases hend : findJSONEnd p.buffer with
  | some jsonEnd =>
    have hlt := findJSONEnd_lt hend
    have hmore := findJSONEnd_append hend text
    have hdrop : (p.buffer ++ text).drop (jsonEnd + 1) = p.buffer.drop (jsonEnd + 1) ++ text :=
      List.drop_append_of_le_length hlt
    refine ⟨_, _, _, eat_args_some hstate hend, ?_, fun hready => ?_, fun _ => ?_, nofun⟩
    · rw [MinistralParser.expected, hstate, parts_args_some hmore, hdrop, List.take_append_of_le_length hlt]
      rfl
    · rw [MinistralParser.Ready, hstate] at hready
      have hafter := steady_toolArgs hready hmore
      rwa [hdrop] at hafter
    · dsimp only
      rw [List.length_drop]
      omega
  | none =>
    refine ⟨_, _, _, eat_args_end hstate hend, (nothing_both _).symm, id, nofun, fun _ => ?_⟩
    rw [MinistralParser.expected, hstate, List.append_nil, parts_args_end hend]

theorem eat_advances : ∃ es p' more, Advances p es p' more text := by
  cases hstate : p.state with
  | collectingContent =>
    cases hnext : (contentSplit p.buffer).2 with
    | none => exact advances_content_end hstate (Prod.ext rfl hnext)
    | some q => exact advances_content_tag h hstate (Prod.ext rfl hnext)
  | collectingThinkingContent => exact advances_thinking h hstate
  | collectingToolName => exact advances_name hstate
  | collectingToolArgs => exact advances_args hstate

/-- The rounds give what is expected of the parser, and leave nothing in the buffer that could be given. -/
theorem rounds_expected {n : Nat} (hn : p.buffer.length < n) : ∃ outs p', rounds MinistralParser.eat n p = some (outs, p') ∧
    p.expected text = both (texts outs.flatten) (p'.expected text) ∧ (p.Ready text → p'.Ready text) ∧
      p'.expected [] = {} := by
  induction n generalizing p with
  | zero => omega
  | succ n ih =>
    obtain ⟨es, p₁, more, heat, hexpected, hready, hshorter, hsettled⟩ := eat_advances h
    cases more with
    | true =>
      have hlt := hshorter rfl
      obtain ⟨outs, p', hrounds, hexpected', hready', hsettled'⟩ := ih (h.imp_right hready) (by omega)
      refine ⟨_, p', by rw [rounds_more heat, hrounds]; rfl, ?_, fun hp => hready' (hready hp), hsettled'⟩
      rw [hexpected, hexpected', List.flatten_cons, texts_append, both_assoc]
    | false =>
      refine ⟨_, _, rounds_stop heat, ?_, hready, hsettled rfl⟩
      rw [List.flatten_singleton, hexpected]

end

/-! ## All chunks -/

/-- What the calls give for the chunks. -/
def MinistralParser.feedEvents (p : MinistralParser) (chunks : List Str) : Option (List MinistralEvent × MinistralParser) :=
  feed (· ++ ·) [] MinistralParser.parseEvents p chunks

theorem parseEvents_expected {p : MinistralParser} {c text : Str} (h : text = [] ∨ p.Ready (c ++ text)) :
    ∃ es p', p.parseEvents c = some (es, p') ∧ p.expected (c ++ text) = both (texts es) (p'.expected text) ∧
      (p.Ready (c ++ text) → p'.Ready text) ∧ p'.expected [] = {} := by
  have hready : p.Ready (c ++ text) ↔ ({ p with buffer := p.buffer ++ c } : MinistralParser).Ready text := by
    unfold MinistralParser.Ready
    rw [← List.append_assoc]
  have hexpected : p.expected (c ++ text) = ({ p with buffer := p.buffer ++ c } : MinistralParser).expected text := by
    unfold MinistralParser.expected
    rw [← List.append_assoc]
  obtain ⟨outs, p', hrounds, hparts, hready', hsettled⟩ :=
    rounds_expected (h.imp_right hready.mp) (n := p.buffer.length + c.length + 1) (by simp)
  exact ⟨_, p', by rw [MinistralParser.parseEvents, hrounds]; rfl, hexpected.trans hparts,
    fun hp => hready' (hready.mp hp), hsettled⟩

/-- A text in one call. -/
theorem parseEvents_whole (p : MinistralParser) (text : Str) : ∃ es p', p.parseEvents text = some (es, p') ∧
    texts es = p.expected text ∧ p'.expected [] = {} := by
  obtain ⟨es, p', hparse, hexpected, -, hsettled⟩ := @parseEvents_expected p text [] (.inl rfl)
  rw [List.append_nil, hsettled] at hexpected
  refine ⟨es, p', hparse, ?_, hsettled⟩
  rw [hexpected]
  simp [both]

/-- The pieces of a steady text give what the text gives. -/
theorem feedEvents_ready {p : MinistralParser} {chunks : List Str} (h : p.Ready chunks.flatten)
    (hsettled : p.expected [] = {}) :
    ∃ es p', p.feedEvents chunks = some (es, p') ∧ texts es = p.expected chunks.flatten := by
  induction chunks generalizing p with
  | nil => exact ⟨[], p, rfl, hsettled.symm⟩
  | cons c cs ih =>
    obtain ⟨es, p', hparse, hexpected, hready, hsettled'⟩ := parseEvents_expected (.inr h)
    obtain ⟨es', p'', hfeed, htexts⟩ := ih (hready h) hsettled'
    unfold MinistralParser.feedEvents at hfeed ⊢
    refine ⟨es ++ es', p'', by rw [feed, hparse, Option.bind_some, hfeed]; rfl, ?_⟩
    rw [texts_append, htexts, List.flatten_cons, hexpected]

end Xdragon.Parsers.Ministral
