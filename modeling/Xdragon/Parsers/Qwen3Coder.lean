import Xdragon.Parsers.Qwen3Cuts

/-!
# The Qwen3-Coder parser

`Qwen3CoderParser` of `model/parsers/qwen3coder.go`. The white space behind a closed tool call is dropped within the
buffer only, as its Qwen3 sibling does, and what follows an opening tag is the tool call as it stands.
-/

namespace Xdragon.Parsers.Qwen3Coder

open Xdragon.Lib
open Qwen3 (Harmless)

inductive QwenParserState where
  | lookingForToolStart
  | collectingToolContent
  deriving DecidableEq

def toolOpenTag : Str := "<tool_call>".toList
def toolCloseTag : Str := "</tool_call>".toList

inductive QwenEvent where
  | rawToolCall (raw : Str)
  | content (content : Str)

structure Qwen3CoderParser where
  state : QwenParserState := .lookingForToolStart
  acc : Str := []
  deriving DecidableEq

/-- The event for a text, if there is any. -/
def emit (text : Str) : List QwenEvent := if text.length > 0 then [.content text] else []

def Qwen3CoderParser.eat (p : Qwen3CoderParser) : List QwenEvent × Qwen3CoderParser × Bool :=
  match p.state with
  | .lookingForToolStart =>
    match cut toolOpenTag p.acc with
    | some (before, after) => (emit (trimRight before), { state := .collectingToolContent, acc := after }, true)
    | none =>
      let (unambiguous, ambiguous) := splitAmbiguous p.acc toolOpenTag
      (emit unambiguous, { p with acc := ambiguous }, false)
  | .collectingToolContent =>
    match cut toolCloseTag p.acc with
    | some (before, after) => ([.rawToolCall before], { state := .lookingForToolStart, acc := trimLeft after }, true)
    | none => ([], p, false)

/-- The part of `Add` that finds the events: the text is written to the buffer, and `parseEvents` runs.
Every round but the last takes a tag from the buffer. -/
def Qwen3CoderParser.parseEvents (p : Qwen3CoderParser) (s : Str) : Option (List QwenEvent × Qwen3CoderParser) :=
  (rounds Qwen3CoderParser.eat (p.acc.length + s.length + 1) { p with acc := p.acc ++ s }).map fun r =>
    (r.1.flatten, r.2)

/-- What `Add` returns. -/
structure Added (C ε : Type) where
  content : Str := []
  thinking : Str := []
  calls : List C := []
  err : Option ε := none

/-- The loop over the events, which ends at the first tool call that cannot be parsed. -/
def collect {C ε : Type} (parseToolCall : Str → Except ε C) : List QwenEvent → Except ε (Str × List C)
  | [] => .ok ([], [])
  | .rawToolCall raw :: events => do
    let call ← parseToolCall raw
    let (content, calls) ← collect parseToolCall events
    return (content, call :: calls)
  | .content text :: events => do
    let (content, calls) ← collect parseToolCall events
    return (text ++ content, calls)

def Qwen3CoderParser.add {C ε : Type} (parseToolCall : Str → Except ε C) (p : Qwen3CoderParser) (s : Str) :
    Option (Added C ε × Qwen3CoderParser) :=
  (p.parseEvents s).map fun r =>
    match collect parseToolCall r.1 with
    | .ok (content, calls) => ({ content, calls }, r.2)
    | .error err => ({ err }, r.2)

/-! ## What a text is split into -/

/-- What a text is split into, with the parser at its end, and whether a tool call ends there but for white space. -/
structure Parts where
  content : Str := []
  toolCalls : List Str := []
  parser : Qwen3CoderParser
  behindCall : Bool := false
  deriving DecidableEq

/-- The parts of a text with parts before it. -/
def Parts.prepend (content : Str) (toolCalls : List Str) (a : Parts) : Parts :=
  { a with content := content ++ a.content, toolCalls := toolCalls ++ a.toolCalls }

/-- Text behind the closing tag of a tool call. -/
def Parts.behind (a : Parts) (text : Str) : Parts := { a with behindCall := text = [] || a.behindCall }

def contentParts (text : Str) : Parts :=
  match _h : cut toolOpenTag text with
  | none =>
    { content := settled isSpace toolOpenTag text, parser := { acc := pending isSpace toolOpenTag text } }
  | some (before, after) =>
    match _h' : cut toolCloseTag after with
    | none => { content := trimRight before, parser := { state := .collectingToolContent, acc := after } }
    | some (raw, rest) => ((contentParts (trimLeft rest)).behind (trimLeft rest)).prepend (trimRight before) [raw]
termination_by text.length
decreasing_by
  have h1 := length_of_cut _h
  have h2 := length_of_cut _h'
  have h3 := length_trimLeft rest
  have h5 : toolOpenTag.length = 11 := rfl
  omega

/-- Text after the opening tag of a tool call. -/
def toolParts (text : Str) : Parts :=
  match cut toolCloseTag text with
  | none => { parser := { state := .collectingToolContent, acc := text } }
  | some (raw, rest) => ((contentParts (trimLeft rest)).behind (trimLeft rest)).prepend [] [raw]

/-- The parts of a text in a state. -/
def parts : QwenParserState → Str → Parts
  | .lookingForToolStart => contentParts
  | .collectingToolContent => toolParts

theorem contentParts_none {text : Str} (h : cut toolOpenTag text = none) : contentParts text =
    { content := settled isSpace toolOpenTag text, parser := { acc := pending isSpace toolOpenTag text } } := by
  rw [contentParts]
  split
  · rfl
  · rename_i heq
    rw [h] at heq
    cases heq

/-- The content before an opening tag. -/
theorem contentParts_some {text before after : Str} (h : cut toolOpenTag text = some (before, after)) :
    contentParts text = (toolParts after).prepend (trimRight before) [] := by
  rw [contentParts]
  split
  · rename_i heq
    rw [h] at heq
    cases heq
  · rename_i b a heq
    rw [h] at heq
    cases heq
    unfold toolParts
    split
    · rename_i heq'
      rw [heq']
      simp [Parts.prepend]
    · rename_i heq'
      rw [heq']
      simp [Parts.prepend]

theorem contentParts_nil : contentParts [] = { parser := {} } := by
  rw [contentParts_none (by decide)]
  decide

theorem toolParts_none {text : Str} (h : cut toolCloseTag text = none) :
    toolParts text = { parser := { state := .collectingToolContent, acc := text } } := by
  rw [toolParts, h]

theorem toolParts_some {text raw rest : Str} (h : cut toolCloseTag text = some (raw, rest)) :
    toolParts text = ((contentParts (trimLeft rest)).behind (trimLeft rest)).prepend [] [raw] := by
  rw [toolParts, h]

/-! ## Text that comes later -/

/-- What the parser makes of later text, where the white space behind a tool call is dropped. -/
def Parts.resume (a : Parts) (c : Str) : Parts :=
  if a.behindCall then (contentParts (trimLeft c)).behind (trimLeft c) else parts a.parser.state (a.parser.acc ++ c)

/-- Later text is read as if it had come at once, but for white space behind a tool call. -/
def Resumes (f : Str → Parts) (text : Str) : Prop :=
  ∀ c, f (text ++ c) = ((f text).resume c).prepend (f text).content (f text).toolCalls

theorem prepend_prepend (content content' : Str) (toolCalls toolCalls' : List Str) (a : Parts) :
    (a.prepend content' toolCalls').prepend content toolCalls = a.prepend (content ++ content') (toolCalls ++ toolCalls') := by
  simp [Parts.prepend]

theorem resume_prepend (content : Str) (toolCalls : List Str) (a : Parts) (c : Str) :
    (a.prepend content toolCalls).resume c = a.resume c := rfl

theorem behind_of_ne {text : Str} (h : text ≠ []) (a : Parts) : a.behind text = a := by
  unfold Parts.behind
  rw [decide_eq_false h, Bool.false_or]

theorem resumes_tool {text : Str} (h : ∀ raw rest, cut toolCloseTag text = some (raw, rest) →
    Resumes contentParts (trimLeft rest)) : Resumes toolParts text := by
  intro c
  cases hcut : cut toolCloseTag text with
  | none =>
    rw [toolParts_none hcut]
    rfl
  | some q =>
    rw [toolParts_some (cut_append_some hcut c), toolParts_some hcut, trimLeft_append, resume_prepend]
    by_cases hempty : trimLeft q.2 = []
    · rw [if_pos hempty, hempty, contentParts_nil]
      rfl
    · have hrest := h q.1 q.2 hcut c
      have hne : trimLeft q.2 ++ c ≠ [] := List.append_ne_nil_of_left_ne_nil hempty c
      rw [if_neg hempty, behind_of_ne hempty, behind_of_ne hne, hrest, prepend_prepend]
      rfl

theorem resumes_content (text : Str) : Resumes contentParts text := by
  induction hn : text.length using Nat.strong_induction_on generalizing text with
  | _ n ih =>
    intro c
    cases hcut : cut toolOpenTag text with
    | none =>
      have happend := cut_append_pending isSpace c hcut
      have hresume : (contentParts text).resume c = contentParts (pending isSpace toolOpenTag text ++ c) := by
        rw [contentParts_none hcut]
        rfl
      rw [hresume, contentParts_none hcut]
      cases hc : cut toolOpenTag (pending isSpace toolOpenTag text ++ c) with
      | none =>
        rw [hc, Option.map_none] at happend
        rw [contentParts_none happend, contentParts_none hc, settled_append, pending_append]
        simp only [Parts.prepend, List.append_nil]
      | some q =>
        rw [hc, Option.map_some] at happend
        rw [contentParts_some happend, contentParts_some hc, trimRight, rdropWhile_settled, prepend_prepend]
        simp only [trimRight, List.append_nil]
    | some q =>
      have htool : Resumes toolParts q.2 := by
        refine resumes_tool fun raw rest hrest => ih _ ?_ _ rfl
        have h1 := length_of_cut hcut
        have h2 := length_of_cut hrest
        have h3 := length_trimLeft rest
        have h4 : toolOpenTag.length = 11 := rfl
        omega
      rw [contentParts_some (cut_append_some hcut c), contentParts_some hcut, htool c, prepend_prepend, resume_prepend]
      rfl

theorem resumes_parts (state : QwenParserState) (text : Str) : Resumes (parts state) text := by
  cases state with
  | lookingForToolStart => exact resumes_content text
  | collectingToolContent => exact resumes_tool fun _ _ _ => resumes_content _

/-- A parser between two calls has given what it can give. -/
def Qwen3CoderParser.Settled (p : Qwen3CoderParser) : Prop := parts p.state p.acc = { parser := p }

/-- Behind a tool call the parser has nothing. -/
theorem parser_behind {state : QwenParserState} {text : Str} (h : (parts state text).behindCall = true) :
    (parts state text).parser = {} := by
  have hresume := resumes_parts state text []
  have hnil : trimLeft [] = [] := rfl
  rw [List.append_nil, Parts.resume, if_pos h, hnil, contentParts_nil] at hresume
  exact congrArg Parts.parser hresume

theorem settled_nil : Qwen3CoderParser.Settled {} := contentParts_nil

theorem settled_parts (state : QwenParserState) (text : Str) : (parts state text).parser.Settled := by
  by_cases h : (parts state text).behindCall = true
  · rw [parser_behind h]
    exact contentParts_nil
  · have hresume := resumes_parts state text []
    rw [List.append_nil, Parts.resume, if_neg h, List.append_nil] at hresume
    unfold Qwen3CoderParser.Settled
    rw [Bool.not_eq_true] at h
    generalize (parts state text) = a at *
    have hcontent := congrArg Parts.content hresume
    have hcalls := congrArg Parts.toolCalls hresume
    have hparser := congrArg Parts.parser hresume
    have hbehind := congrArg Parts.behindCall hresume
    generalize parts a.parser.state a.parser.acc = b at *
    obtain ⟨content, toolCalls, parser, behindCall⟩ := b
    obtain rfl : content = [] := List.self_eq_append_right.mp hcontent
    obtain rfl : toolCalls = [] := List.self_eq_append_right.mp hcalls
    obtain rfl : a.parser = parser := hparser
    obtain rfl : behindCall = false := hbehind.symm.trans h
    rfl

/-! ## White space in front of content -/

theorem toolOpenTag_space : ∀ x ∈ toolOpenTag, isSpace x = false := Qwen3.toolOpenTag_space

/-- White space in front of content is all that dropping it changes, and it changes nothing where it is harmless. -/
theorem contentParts_trimLeft (y : Str) :
    (contentParts y).toolCalls = (contentParts (trimLeft y)).toolCalls ∧
    (contentParts y).behindCall = (contentParts (trimLeft y)).behindCall ∧
    (Harmless toolOpenTag y → (contentParts (trimLeft y)).content = (contentParts y).content) ∧
    (¬ Harmless toolOpenTag y → (contentParts (trimLeft y)).content.length < (contentParts y).content.length) := by
  have hcut := cut_clear (clear_space toolOpenTag_space (by decide) y) (trimLeft y)
  rw [space_append_trimLeft] at hcut
  have hpieces : ∃ later, (contentParts y).content = firstPiece isSpace toolOpenTag y ++ later ∧
      (contentParts (trimLeft y)).content = firstPiece isSpace toolOpenTag (trimLeft y) ++ later ∧
      (contentParts y).toolCalls = (contentParts (trimLeft y)).toolCalls ∧
      (contentParts y).behindCall = (contentParts (trimLeft y)).behindCall := by
    unfold firstPiece
    cases hc : cut toolOpenTag (trimLeft y) with
    | none =>
      rw [hc, Option.map_none] at hcut
      rw [hcut, contentParts_none hcut, contentParts_none hc]
      exact ⟨[], by simp, by simp, rfl, rfl⟩
    | some q =>
      rw [hc, Option.map_some] at hcut
      rw [hcut, contentParts_some hcut, contentParts_some hc]
      exact ⟨_, rfl, rfl, rfl, rfl⟩
  obtain ⟨later, hwhole, htrimmed, hcalls, hbehind⟩ := hpieces
  refine ⟨hcalls, hbehind, fun h => ?_, fun h => ?_⟩
  · rw [hwhole, htrimmed, Qwen3.firstPiece_harmless toolOpenTag_space (by decide) h]
  · have hlt := Qwen3.firstPiece_harmful toolOpenTag_space (by decide) h
    rw [hwhole, htrimmed, List.length_append, List.length_append]
    omega

/-! ## The rounds of a call -/

/-- The content and the tool calls of events, one after another. -/
def texts (es : List QwenEvent) : Str × List Str :=
  (es.flatMap fun | .content c => c | _ => [], es.filterMap fun | .rawToolCall raw => some raw | _ => none)

/-- Texts one after another. -/
def both (a b : Str × List Str) : Str × List Str := (a.1 ++ b.1, a.2 ++ b.2)

theorem texts_append (es es' : List QwenEvent) : texts (es ++ es') = both (texts es) (texts es') := by
  simp [texts, both]

theorem texts_emit (t : Str) : texts (emit t) = (t, []) := by
  unfold emit
  cases t <;> simp [texts]

def Parts.texts (a : Parts) : Str × List Str := (a.content, a.toolCalls)

/-- The rounds give the parts of the buffer. -/
theorem rounds_parts (p : Qwen3CoderParser) {n : Nat} (hn : p.acc.length < n) :
    ∃ outs, rounds Qwen3CoderParser.eat n p = some (outs, (parts p.state p.acc).parser) ∧
      texts outs.flatten = (parts p.state p.acc).texts := by
  induction n generalizing p with
  | zero => omega
  | succ n ih =>
    obtain ⟨state, acc⟩ := p
    dsimp only at hn ⊢
    have hmore : ∀ {es : List QwenEvent} {p' : Qwen3CoderParser} {a : Parts},
        Qwen3CoderParser.eat ⟨state, acc⟩ = (es, p', true) → p'.acc.length < n → a.parser = (parts p'.state p'.acc).parser →
        a.texts = both (texts es) (parts p'.state p'.acc).texts →
        ∃ outs, rounds Qwen3CoderParser.eat (n + 1) ⟨state, acc⟩ = some (outs, a.parser) ∧ texts outs.flatten = a.texts := by
      intro es p' a heat hlt hparser htexts
      obtain ⟨outs, hrounds, houts⟩ := ih p' hlt
      refine ⟨es :: outs, ?_, ?_⟩
      · rw [rounds_more heat, hrounds, Option.map_some, hparser]
      · rw [List.flatten_cons, texts_append, houts, htexts]
    cases state with
    | lookingForToolStart =>
      cases hcut : cut toolOpenTag acc with
      | none =>
        have heat : Qwen3CoderParser.eat ⟨.lookingForToolStart, acc⟩ = (emit (settled isSpace toolOpenTag acc),
            { acc := pending isSpace toolOpenTag acc }, false) := by
          rw [Qwen3CoderParser.eat]
          dsimp only
          rw [hcut, splitAmbiguous_eq]
        rw [parts, contentParts_none hcut]
        exact ⟨_, rounds_stop heat, by rw [List.flatten_singleton, texts_emit]; rfl⟩
      | some q =>
        have heat : Qwen3CoderParser.eat ⟨.lookingForToolStart, acc⟩ = (emit (trimRight q.1),
            { state := .collectingToolContent, acc := q.2 }, true) := by
          rw [Qwen3CoderParser.eat]
          dsimp only
          rw [hcut]
        have hlen := length_of_cut hcut
        have h11 : toolOpenTag.length = 11 := rfl
        rw [parts, contentParts_some hcut]
        exact hmore heat (by dsimp only; omega) rfl (by rw [texts_emit]; rfl)
    | collectingToolContent =>
      cases hcut : cut toolCloseTag acc with
      | none =>
        have heat : Qwen3CoderParser.eat ⟨.collectingToolContent, acc⟩ = ([], ⟨.collectingToolContent, acc⟩, false) := by
          rw [Qwen3CoderParser.eat]
          dsimp only
          rw [hcut]
        rw [parts, toolParts_none hcut]
        exact ⟨_, rounds_stop heat, rfl⟩
      | some q =>
        have heat : Qwen3CoderParser.eat ⟨.collectingToolContent, acc⟩ = ([.rawToolCall q.1],
            { state := .lookingForToolStart, acc := trimLeft q.2 }, true) := by
          rw [Qwen3CoderParser.eat]
          dsimp only
          rw [hcut]
        have hlen := length_of_cut hcut
        have hle := length_trimLeft q.2
        have h12 : toolCloseTag.length = 12 := rfl
        rw [parts, toolParts_some hcut]
        exact hmore heat (by dsimp only; omega) rfl rfl

/-- A call gives the parts of what the parser has then. -/
theorem parseEvents_eq (p : Qwen3CoderParser) (s : Str) :
    ∃ events, p.parseEvents s = some (events, (parts p.state (p.acc ++ s)).parser) ∧
      texts events = (parts p.state (p.acc ++ s)).texts := by
  obtain ⟨outs, hrounds, houts⟩ := rounds_parts { p with acc := p.acc ++ s } (n := p.acc.length + s.length + 1)
    (by rw [List.length_append]; omega)
  exact ⟨outs.flatten, by rw [Qwen3CoderParser.parseEvents, hrounds, Option.map_some], houts⟩

/-! ## All chunks -/

/-- The parser as a reader that drops the white space behind its tool calls. -/
def reader : Dropping Qwen3CoderParser Char (Str × List Str) where
  out p x := (parts p.state (p.acc ++ x)).texts
  next p x := (parts p.state (p.acc ++ x)).parser
  behind p x := (parts p.state (p.acc ++ x)).behindCall = true
  trim := trimLeft
  one := ([], [])
  app := both
  size o := o.1.length

theorem reader_lawful : reader.Lawful Qwen3CoderParser.Settled (Harmless toolOpenTag) := by
  refine ⟨fun _ _ => settled_parts _ _, ?_, ?_, ?_, ?_, ?_, ?_, ?_, ?_, .inl rfl, fun h hx => h.later hx, ?_⟩
  · intro p hp
    dsimp only [reader]
    rw [List.append_nil, hp]
    rfl
  · intro p hp h
    dsimp only [reader] at h
    rw [List.append_nil, hp] at h
    cases h
  · intro p x y hp h
    dsimp only [reader] at h ⊢
    rw [← List.append_assoc, resumes_parts, Parts.resume, if_neg h]
    rfl
  · intro p x y hp h
    dsimp only [reader] at h ⊢
    rw [← List.append_assoc, resumes_parts, Parts.resume, if_neg h]
    rfl
  · intro p x y hp h
    dsimp only [reader] at h ⊢
    rw [← List.append_assoc, resumes_parts, Parts.resume, if_pos h, parser_behind h]
    rfl
  · intro p x y hp h
    dsimp only [reader] at h ⊢
    rw [← List.append_assoc, resumes_parts, Parts.resume, if_pos h, parser_behind h]
    change (decide (trimLeft y = []) || (contentParts (trimLeft y)).behindCall) = true ↔
      trimLeft y = [] ∨ (contentParts y).behindCall = true
    rw [(contentParts_trimLeft y).2.1, Bool.or_eq_true, decide_eq_true_eq]
  · intro p x y hp h hy
    dsimp only [reader] at h ⊢
    rw [parser_behind h]
    obtain ⟨hcalls, -, hcontent, -⟩ := contentParts_trimLeft y
    exact Prod.ext (hcontent hy) hcalls.symm
  · intro p x y hp h hy
    dsimp only [reader] at h ⊢
    rw [parser_behind h]
    exact (contentParts_trimLeft y).2.2.2 hy
  · exact fun o o' => List.length_append

theorem feed_eq (p : Qwen3CoderParser) (cs : List Str) :
    ∃ events p', feed (· ++ ·) [] Qwen3CoderParser.parseEvents p cs = some (events, p') ∧ texts events = reader.pieces p cs := by
  induction cs generalizing p with
  | nil => exact ⟨[], p, rfl, rfl⟩
  | cons c cs ih =>
    obtain ⟨events, hevents, htexts⟩ := parseEvents_eq p c
    obtain ⟨events', p', hfeed, htexts'⟩ := ih (parts p.state (p.acc ++ c)).parser
    refine ⟨events ++ events', p', ?_, ?_⟩
    · rw [feed, hevents, Option.bind_some, hfeed, Option.map_some]
    · rw [texts_append, htexts, htexts']
      rfl

/-- The chunks give what the text gives in one call if and only if no chunk ends behind a tool call of the content, but for
white space, in front of white space that shows. -/
theorem parseEvents_pieces_iff (chunks : List Str) : ∃ events uncut p p',
    feed (· ++ ·) [] Qwen3CoderParser.parseEvents {} chunks = some (events, p) ∧
      Qwen3CoderParser.parseEvents {} chunks.flatten = some (uncut, p') ∧
      (texts events = texts uncut ↔ ∀ c₁ c₂, chunks = c₁ ++ c₂ → (contentParts c₁.flatten).behindCall = true →
        Harmless toolOpenTag c₂.flatten) := by
  obtain ⟨events, p, hfeed, htexts⟩ := feed_eq {} chunks
  obtain ⟨uncut, huncut, htexts'⟩ := parseEvents_eq {} chunks.flatten
  refine ⟨events, uncut, p, _, hfeed, huncut, ?_⟩
  rw [htexts, htexts']
  exact Dropping.pieces_eq_iff reader_lawful settled_nil chunks

/-- The white space behind a tool call is content if a chunk ends before it, and is dropped otherwise. -/
theorem spacedAnswer_differs :
    (feed (· ++ ·) [] Qwen3CoderParser.parseEvents {} ["<tool_call>{}</tool_call>".toList, "\nHello".toList]).map (texts ·.1) ≠
      (Qwen3CoderParser.parseEvents {} "<tool_call>{}</tool_call>\nHello".toList).map (texts ·.1) := by
  decide

end Xdragon.Parsers.Qwen3Coder
