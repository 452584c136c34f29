import Xdragon.Lib.Rounds
import Xdragon.Lib.Tags
import Xdragon.Lib.Wire

/-!
# The FunctionGemma parser

`FunctionGemmaParser` of `model/parsers/functiongemma.go`. Behind a call it goes on with content only if the buffer has no
further call, so what stands between two calls is a part of the second one or is content.
-/

namespace Xdragon.Parsers.FunctionGemma

open Xdragon.Lib

inductive FunctionGemmaParserState where
  | collectingContent
  | collectingToolCalls

def functionCallOpen : Bytes := ascii "<start_function_call>"
def functionCallClose : Bytes := ascii "<end_function_call>"

structure FunctionGemmaParser where
  state : FunctionGemmaParserState := .collectingContent
  buffer : Bytes := []

/-- A call, which is empty if the text of the call has no name. -/
structure ToolCall (A : Type) where
  name : Bytes := []
  arguments : Option A := none
  deriving DecidableEq

inductive FunctionGemmaEvent (A : Type) where
  | content (content : Bytes)
  | toolCall (toolCall : ToolCall A)

def openBrace : UInt8 := 0x7b
def closeBrace : UInt8 := 0x7d
def newline : UInt8 := 0x0a

/-- The groups of `call:([^\x7b]+)\\x7b(.*)\\x7d` at the start of the text. -/
def matchCall (s : Bytes) : Option (Bytes × Bytes) :=
  if (ascii "call:").isPrefixOf s then
    let rest := s.drop (ascii "call:").length
    let name := rest.takeWhile (· ≠ openBrace)
    match rest.dropWhile (· ≠ openBrace) with
    | [] => none
    | _ :: args =>
      if name = [] then none
      else (cutLast [closeBrace] (args.takeWhile (· ≠ newline))).map fun q => (name, q.1)
  else none

/-- The groups of the first match. -/
def findCall : Bytes → Option (Bytes × Bytes)
  | [] => none
  | b :: s => (matchCall (b :: s)).or (findCall s)

variable {A : Type} (parseArguments : Bytes → A)

def parseToolCall (content : Bytes) : ToolCall A :=
  match findCall content with
  | none => {}
  | some (name, args) => { name, arguments := some (parseArguments args) }

/-- The event for a text, if there is any. -/
def emit (text : Bytes) : List (FunctionGemmaEvent A) := if text = [] then [] else [.content text]

/-- The part of the text in front of a beginning of the tag, and the rest. -/
def emitWithPartialCheck (bufStr tag : Bytes) : Bytes × Bytes :=
  let overlapLen := overlap bufStr tag
  if overlapLen > 0 then (bufStr.take (bufStr.length - overlapLen), bufStr.drop (bufStr.length - overlapLen))
  else (bufStr, [])

def FunctionGemmaParser.eat (p : FunctionGemmaParser) : List (FunctionGemmaEvent A) × FunctionGemmaParser × Bool :=
  if p.buffer = [] then ([], p, false)
  else
    match p.state with
    | .collectingContent =>
      match cut functionCallOpen p.buffer with
      | some (content, rest) => (emit content, { state := .collectingToolCalls, buffer := rest }, true)
      | none =>
        let (unambig, ambig) := emitWithPartialCheck p.buffer functionCallOpen
        (emit unambig, { p with buffer := ambig }, false)
    | .collectingToolCalls =>
      match cut functionCallClose p.buffer with
      | some (content, remaining) =>
        ([.toolCall (parseToolCall parseArguments content)],
          { state := if containsTag remaining functionCallOpen then p.state else .collectingContent
            buffer := remaining }, true)
      | none => ([], p, false)

/-- The content and the calls of events, one after another. -/
def texts (es : List (FunctionGemmaEvent A)) : Bytes × List (ToolCall A) :=
  (es.flatMap fun | .content c => c | _ => [], es.filterMap fun | .toolCall call => some call | _ => none)

/-- Texts one after another. -/
def both (a b : Bytes × List (ToolCall A)) : Bytes × List (ToolCall A) := (a.1 ++ b.1, a.2 ++ b.2)

/-- Every round but the last takes a tag from the buffer. -/
def FunctionGemmaParser.add (p : FunctionGemmaParser) (s : Bytes) :
    Option ((Bytes × List (ToolCall A)) × FunctionGemmaParser) :=
  (rounds (FunctionGemmaParser.eat parseArguments) (p.buffer.length + s.length + 1) { p with buffer := p.buffer ++ s }).map
    fun r => (texts r.1.flatten, r.2)

/-- What the calls return for the chunks. -/
def FunctionGemmaParser.addAll (p : FunctionGemmaParser) (chunks : List Bytes) :
    Option ((Bytes × List (ToolCall A)) × FunctionGemmaParser) :=
  feed both ([], []) (FunctionGemmaParser.add parseArguments) p chunks

/-! ## What a text is made of -/

/-- The text outside of the calls, and the calls. A call without its closing tag is text. -/
def spec (text : Bytes) : Bytes × List (ToolCall A) :=
  match _h : cut functionCallOpen text with
  | none => (text, [])
  | some (before, after) =>
    match _h' : cut functionCallClose after with
    | none => (before ++ (functionCallOpen ++ after), [])
    | some (content, rest) => both (before, [parseToolCall parseArguments content]) (spec rest)
termination_by text.length
decreasing_by
  have h1 := length_of_cut _h
  have h2 := length_of_cut _h'
  have h3 : functionCallOpen.length = 21 := rfl
  omega

/-- Text behind an opening tag. -/
def specCall (text : Bytes) : Bytes × List (ToolCall A) :=
  match cut functionCallClose text with
  | none => (functionCallOpen ++ text, [])
  | some (content, rest) => both ([], [parseToolCall parseArguments content]) (spec parseArguments rest)

/-- A text whose calls are closed and follow one another, and that does not end with a beginning of an opening tag. -/
inductive Orderly : Bytes → Prop
  | content {text : Bytes} : cut functionCallOpen text = none → overlap text functionCallOpen = 0 → Orderly text
  | call {text before after content rest : Bytes} : cut functionCallOpen text = some (before, after) →
      cut functionCallClose after = some (content, rest) →
      (functionCallOpen <:+: rest → functionCallOpen <+: rest) → Orderly rest → Orderly text

/-- The same behind an opening tag. -/
def OrderlyCall (text : Bytes) : Prop := ∃ content rest, cut functionCallClose text = some (content, rest) ∧
  (functionCallOpen <:+: rest → functionCallOpen <+: rest) ∧ Orderly rest

theorem spec_none {text : Bytes} (h : cut functionCallOpen text = none) : spec parseArguments text = (text, []) := by
  rw [spec]
  split
  · rfl
  · rename_i heq
    rw [h] at heq
    cases heq

theorem spec_some {text before after : Bytes} (h : cut functionCallOpen text = some (before, after)) :
    spec parseArguments text = both (before, []) (specCall parseArguments after) := by
  rw [spec]
  split
  · rename_i heq
    rw [h] at heq
    cases heq
  · rename_i heq
    rw [h] at heq
    cases heq
    unfold specCall
    split
    · rename_i heq'
      rw [heq']
      simp [both]
    · rename_i heq'
      rw [heq']
      simp [both]

theorem specCall_none {text : Bytes} (h : cut functionCallClose text = none) :
    specCall parseArguments text = (functionCallOpen ++ text, []) := by
  rw [specCall, h]

theorem specCall_some {text content rest : Bytes} (h : cut functionCallClose text = some (content, rest)) :
    specCall parseArguments text = both ([], [parseToolCall parseArguments content]) (spec parseArguments rest) := by
  rw [specCall, h]

/-! ## Events -/

theorem texts_emit (t : Bytes) : texts (emit t : List (FunctionGemmaEvent A)) = (t, []) := by
  unfold emit
  split_ifs with h
  · rw [h]
    rfl
  · simp [texts]

theorem texts_append (es es' : List (FunctionGemmaEvent A)) : texts (es ++ es') = both (texts es) (texts es') := by
  simp [texts, both]

theorem both_assoc (a b c : Bytes × List (ToolCall A)) : both (both a b) c = both a (both b c) := by
  simp [both]

theorem nothing_both (a : Bytes × List (ToolCall A)) : both ([], []) a = a := by
  simp [both]

/-! ## A call behind another opening tag -/

theorem findCall_clear {e : Bytes} (h : Clear (ascii "call:") e) (s : Bytes) : findCall (e ++ s) = findCall s := by
  induction e with
  | nil => rfl
  | cons b e ih =>
    have hstart : ¬ ascii "call:" <+: b :: (e ++ s) := by
      intro hpre
      obtain ⟨hshort, hlong⟩ := h 0 (Nat.succ_pos _)
      rw [List.drop_zero] at hshort hlong
      have happend : b :: e <+: b :: (e ++ s) := ⟨s, rfl⟩
      obtain hle | hle := Nat.le_total (ascii "call:").length (b :: e).length
      · exact hlong (List.prefix_of_prefix_length_le hpre happend hle)
      · exact hshort (List.prefix_of_prefix_length_le happend hpre hle)
    have hrest : Clear (ascii "call:") e := fun i hi => h (i + 1) (Nat.succ_lt_succ hi)
    rw [List.cons_append, findCall, matchCall, if_neg (by rwa [List.isPrefixOf_iff_prefix]), Option.none_or, ih hrest]

theorem clear_call_open : Clear (ascii "call:") functionCallOpen := by decide

theorem clear_close_open : Clear functionCallClose functionCallOpen := by decide

/-- An opening tag at the start of a call is not seen. -/
theorem parseToolCall_open (s : Bytes) :
    parseToolCall parseArguments (functionCallOpen ++ s) = parseToolCall parseArguments s := by
  rw [parseToolCall, findCall_clear clear_call_open, parseToolCall]

theorem specCall_open {text content rest : Bytes} (h : cut functionCallClose text = some (content, rest)) :
    specCall parseArguments (functionCallOpen ++ text) = specCall parseArguments text := by
  have hopen : cut functionCallClose (functionCallOpen ++ text) = some (functionCallOpen ++ content, rest) := by
    rw [cut_clear clear_close_open, h, Option.map_some]
  rw [specCall_some parseArguments h, specCall_some parseArguments hopen, parseToolCall_open]

/-! ## Orderly texts -/

theorem orderly_none {text : Bytes} (h : Orderly text) (hcut : cut functionCallOpen text = none) :
    overlap text functionCallOpen = 0 := by
  cases h with
  | content _ hover => exact hover
  | call hopen =>
    rw [hcut] at hopen
    cases hopen

theorem orderly_some {text before after : Bytes} (h : Orderly text)
    (hcut : cut functionCallOpen text = some (before, after)) : OrderlyCall after := by
  cases h with
  | content hnone =>
    rw [hcut] at hnone
    cases hnone
  | call hopen hclose hrest horderly =>
    rw [hcut] at hopen
    cases hopen
    exact ⟨_, _, hclose, hrest, horderly⟩

theorem orderly_of_call {text before after : Bytes} (hcut : cut functionCallOpen text = some (before, after))
    (h : OrderlyCall after) : Orderly text := by
  obtain ⟨content, rest, hclose, hrest, horderly⟩ := h
  exact .call hcut hclose hrest horderly

theorem orderlyCall_some {text content rest : Bytes} (h : OrderlyCall text)
    (hcut : cut functionCallClose text = some (content, rest)) :
    (functionCallOpen <:+: rest → functionCallOpen <+: rest) ∧ Orderly rest := by
  obtain ⟨content', rest', hcut', hrest⟩ := h
  rw [hcut] at hcut'
  cases hcut'
  exact hrest

theorem orderlyCall_open {text : Bytes} : OrderlyCall (functionCallOpen ++ text) ↔ OrderlyCall text := by
  unfold OrderlyCall
  constructor
  · rintro ⟨content, rest, hcut, hrest⟩
    rw [cut_clear clear_close_open] at hcut
    obtain ⟨⟨content', rest'⟩, htext, heq⟩ := Option.map_eq_some_iff.mp hcut
    cases heq
    exact ⟨content', rest', htext, hrest⟩
  · rintro ⟨content, rest, hcut, hrest⟩
    exact ⟨functionCallOpen ++ content, rest, by rw [cut_clear clear_close_open, hcut, Option.map_some], hrest⟩

/-! ## What the parser is about to return -/

/-- What the parser has to return for the text that comes. -/
def FunctionGemmaParser.expected (p : FunctionGemmaParser) (text : Bytes) : Bytes × List (ToolCall A) :=
  match p.state with
  | .collectingContent => spec parseArguments (p.buffer ++ text)
  | .collectingToolCalls => specCall parseArguments (p.buffer ++ text)

/-- The text that comes can be returned as it is expected. -/
def FunctionGemmaParser.Ready (p : FunctionGemmaParser) (text : Bytes) : Prop :=
  match p.state with
  | .collectingContent => Orderly (p.buffer ++ text)
  | .collectingToolCalls => OrderlyCall (p.buffer ++ text)

theorem eat_content {buffer before after : Bytes} (h : cut functionCallOpen buffer = some (before, after)) :
    FunctionGemmaParser.eat parseArguments { state := .collectingContent, buffer } =
      (emit before, { state := .collectingToolCalls, buffer := after }, true) := by
  have hne : buffer ≠ [] := by
    rintro rfl
    cases h
  rw [FunctionGemmaParser.eat, if_neg hne]
  dsimp only
  rw [h]

theorem eat_content_none {buffer : Bytes} (h : cut functionCallOpen buffer = none) :
    FunctionGemmaParser.eat parseArguments { state := .collectingContent, buffer } =
      (emit (released functionCallOpen buffer),
        { state := .collectingContent, buffer := withheld functionCallOpen buffer }, false) := by
  rw [FunctionGemmaParser.eat]
  split_ifs with hnil
  · dsimp only at hnil
    rw [hnil]
    rfl
  · dsimp only
    rw [h, emitWithPartialCheck]
    unfold released withheld
    split_ifs with hover
    · rfl
    · rw [Nat.eq_zero_of_not_pos hover, Nat.sub_zero, List.take_length, List.drop_length]

theorem eat_call {buffer content rest : Bytes} (h : cut functionCallClose buffer = some (content, rest)) :
    FunctionGemmaParser.eat parseArguments { state := .collectingToolCalls, buffer } =
      ([.toolCall (parseToolCall parseArguments content)],
        { state := if containsTag rest functionCallOpen then .collectingToolCalls else .collectingContent
          buffer := rest }, true) := by
  have hne : buffer ≠ [] := by
    rintro rfl
    cases h
  rw [FunctionGemmaParser.eat, if_neg hne]
  dsimp only
  rw [h]

theorem eat_call_none {buffer : Bytes} (h : cut functionCallClose buffer = none) :
    FunctionGemmaParser.eat parseArguments { state := .collectingToolCalls, buffer } =
      ([], { state := .collectingToolCalls, buffer }, false) := by
  rw [FunctionGemmaParser.eat]
  split_ifs
  · rfl
  · dsimp only
    rw [h]

/-! ## Orderly texts in pieces -/

/-- The text in front of a beginning of the tag can be returned. -/
theorem spec_released {buffer : Bytes} (h : cut functionCallOpen buffer = none) (text : Bytes) :
    spec parseArguments (buffer ++ text) =
      both (released functionCallOpen buffer, []) (spec parseArguments (withheld functionCallOpen buffer ++ text)) := by
  have hcut := cut_append_withheld h text
  cases hrest : cut functionCallOpen (withheld functionCallOpen buffer ++ text) with
  | none =>
    rw [hrest, Option.map_none] at hcut
    rw [spec_none parseArguments hcut, spec_none parseArguments hrest]
    simp only [both, List.append_nil]
    rw [← List.append_assoc, released_append_withheld]
  | some q =>
    rw [hrest, Option.map_some] at hcut
    rw [spec_some parseArguments hcut, spec_some parseArguments hrest, ← both_assoc]
    rfl

theorem orderly_released {buffer text : Bytes} (h : cut functionCallOpen buffer = none)
    (horderly : Orderly (buffer ++ text)) : Orderly (withheld functionCallOpen buffer ++ text) := by
  have hcut := cut_append_withheld h text
  cases hrest : cut functionCallOpen (withheld functionCallOpen buffer ++ text) with
  | none =>
    rw [hrest, Option.map_none] at hcut
    refine .content hrest ?_
    have hover := overlap_append (overlap_le_withheld functionCallOpen buffer) text
    rw [released_append_withheld] at hover
    rw [← hover]
    exact orderly_none horderly hcut
  | some q =>
    rw [hrest, Option.map_some] at hcut
    exact orderly_of_call hrest (orderly_some horderly hcut)

/-- Nothing is kept of an orderly text. -/
theorem withheld_of_orderly {buffer : Bytes} (h : cut functionCallOpen buffer = none)
    (horderly : Orderly (withheld functionCallOpen buffer)) : withheld functionCallOpen buffer = [] := by
  have hnone : cut functionCallOpen (withheld functionCallOpen buffer) = none := by
    rw [cut_eq_none_iff_absent] at h ⊢
    exact fun hplace => h (hplace.trans (List.drop_suffix _ _).isInfix)
  have hover := overlap_append (overlap_le_withheld functionCallOpen buffer) []
  rw [List.append_nil, List.append_nil, released_append_withheld, orderly_none horderly hnone,
    ← length_withheld] at hover
  exact List.eq_nil_of_length_eq_zero hover

/-- Behind a call, the parser goes on with a call if there is one. -/
theorem ready_behind_call {rest text : Bytes} (hrest : functionCallOpen <:+: rest ++ text → functionCallOpen <+: rest ++ text)
    (horderly : Orderly (rest ++ text)) :
    let p : FunctionGemmaParser :=
      { state := if containsTag rest functionCallOpen then .collectingToolCalls else .collectingContent
        buffer := rest }
    p.Ready text ∧ p.expected parseArguments text = spec parseArguments (rest ++ text) := by
  intro p
  cases hcut : cut functionCallOpen rest with
  | none =>
    have hp : p = { state := .collectingContent, buffer := rest } := by
      simp [p, containsTag, hcut]
    rw [hp]
    exact ⟨horderly, rfl⟩
  | some q =>
    have hp : p = { state := .collectingToolCalls, buffer := rest } := by
      simp [p, containsTag, hcut]
    have hplace : functionCallOpen <:+: rest := by
      by_contra habsent
      rw [cut_eq_none_iff_absent.mpr habsent] at hcut
      cases hcut
    obtain ⟨after, hafter⟩ := hrest (hplace.trans (List.prefix_append _ _).isInfix)
    have hopen : cut functionCallOpen (rest ++ text) = some ([], after) := by
      rw [← hafter, cut_at_start (List.prefix_append _ _), List.drop_left]
    have hcall := orderly_some horderly hopen
    obtain ⟨content, behind, hclose, -⟩ := id hcall
    rw [hp]
    refine ⟨?_, ?_⟩
    · show OrderlyCall (rest ++ text)
      rw [← hafter]
      exact orderlyCall_open.mpr hcall
    · show specCall parseArguments (rest ++ text) = _
      rw [spec_some parseArguments hopen, nothing_both, ← hafter, specCall_open parseArguments hclose]

/-- A round returns what is expected, and keeps nothing at the end of the text. -/
theorem eat_ready {p : FunctionGemmaParser} {text : Bytes} (h : p.Ready text) :
    (p.eat parseArguments).2.1.Ready text ∧
      p.expected parseArguments text =
        both (texts (p.eat parseArguments).1) ((p.eat parseArguments).2.1.expected parseArguments text) ∧
      ((p.eat parseArguments).2.2 = false → (p.eat parseArguments).2.1.Ready [] →
        (p.eat parseArguments).2.1.expected parseArguments [] = ([], [])) := by
  obtain ⟨state, buffer⟩ := p
  cases state with
  | collectingContent =>
    have horderly : Orderly (buffer ++ text) := h
    cases hcut : cut functionCallOpen buffer with
    | none =>
      rw [eat_content_none parseArguments hcut]
      refine ⟨orderly_released hcut horderly, ?_, fun _ hready => ?_⟩
      · rw [texts_emit]
        exact spec_released parseArguments hcut text
      · have hready : Orderly (withheld functionCallOpen buffer ++ []) := hready
        show spec parseArguments (withheld functionCallOpen buffer ++ []) = ([], [])
        rw [List.append_nil] at hready ⊢
        rw [withheld_of_orderly hcut hready]
        exact spec_none parseArguments rfl
    | some q =>
      have hmore := cut_append_some hcut text
      rw [eat_content parseArguments hcut]
      refine ⟨orderly_some horderly hmore, ?_, nofun⟩
      rw [texts_emit]
      exact spec_some parseArguments hmore
  | collectingToolCalls =>
    have hcall : OrderlyCall (buffer ++ text) := h
    cases hcut : cut functionCallClose buffer with
    | none =>
      rw [eat_call_none parseArguments hcut]
      refine ⟨h, (nothing_both _).symm, fun _ hready => ?_⟩
      -- a call that is not closed is not orderly
      obtain ⟨content, rest, hclose, -⟩ := id hready
      dsimp only at hclose
      rw [List.append_nil, hcut] at hclose
      cases hclose
    | some q =>
      have hmore := cut_append_some hcut text
      obtain ⟨hrest, horderly⟩ := orderlyCall_some hcall hmore
      obtain ⟨hready, hexpected⟩ := ready_behind_call parseArguments hrest horderly
      rw [eat_call parseArguments hcut]
      refine ⟨hready, ?_, nofun⟩
      rw [hexpected]
      exact specCall_some parseArguments hmore

/-- A round that is not the last one takes a tag. -/
theorem eat_shorter {p : FunctionGemmaParser} (h : (p.eat parseArguments).2.2 = true) :
    (p.eat parseArguments).2.1.buffer.length < p.buffer.length := by
  obtain ⟨state, buffer⟩ := p
  cases state with
  | collectingContent =>
    cases hcut : cut functionCallOpen buffer with
    | none =>
      rw [eat_content_none parseArguments hcut] at h
      cases h
    | some q =>
      have hlen := length_of_cut hcut
      have h21 : functionCallOpen.length = 21 := rfl
      rw [eat_content parseArguments hcut]
      dsimp only
      omega
  | collectingToolCalls =>
    cases hcut : cut functionCallClose buffer with
    | none =>
      rw [eat_call_none parseArguments hcut] at h
      cases h
    | some q =>
      have hlen := length_of_cut hcut
      have h19 : functionCallClose.length = 19 := rfl
      rw [eat_call parseArguments hcut]
      dsimp only
      omega

theorem rounds_ready {p : FunctionGemmaParser} {text : Bytes} (h : p.Ready text) {n : Nat} (hn : p.buffer.length < n) :
    ∃ outs p', rounds (FunctionGemmaParser.eat parseArguments) n p = some (outs, p') ∧ p'.Ready text ∧
      p.expected parseArguments text = both (texts outs.flatten) (p'.expected parseArguments text) ∧
      (p'.Ready [] → p'.expected parseArguments [] = ([], [])) := by
  induction n generalizing p with
  | zero => omega
  | succ n ih =>
    obtain ⟨hready, hexpected, hend⟩ := eat_ready parseArguments h
    rw [rounds]
    split_ifs with hmore
    · have hlen := eat_shorter parseArguments hmore
      obtain ⟨outs, p', hrounds, hready', hexpected', hend'⟩ := ih hready (by omega)
      refine ⟨_, p', by rw [hrounds]; rfl, hready', ?_, hend'⟩
      rw [hexpected, hexpected', List.flatten_cons, texts_append, both_assoc]
    · refine ⟨_, _, rfl, hready, ?_, hend (by simpa using hmore)⟩
      rw [List.flatten_singleton]
      exact hexpected

theorem addAll_ready {p : FunctionGemmaParser} {chunks : List Bytes} (h : p.Ready chunks.flatten)
    (hend : p.Ready [] → p.expected parseArguments [] = ([], [])) :
    ∃ p', p.addAll parseArguments chunks = some (p.expected parseArguments chunks.flatten, p') := by
  induction chunks generalizing p with
  | nil => exact ⟨p, by rw [List.flatten_nil] at h ⊢; rw [hend h]; rfl⟩
  | cons c cs ih =>
    have hready : ({ p with buffer := p.buffer ++ c } : FunctionGemmaParser).Ready cs.flatten := by
      simpa [FunctionGemmaParser.Ready] using h
    have hexpected : p.expected parseArguments (c :: cs).flatten =
        ({ p with buffer := p.buffer ++ c } : FunctionGemmaParser).expected parseArguments cs.flatten := by
      simp [FunctionGemmaParser.expected]
    obtain ⟨outs, p', hrounds, hready', hrest, hend'⟩ :=
      rounds_ready parseArguments hready (n := p.buffer.length + c.length + 1) (by simp)
    obtain ⟨p'', hall⟩ := ih hready' hend'
    have hadd : p.add parseArguments c = some (texts outs.flatten, p') := by
      rw [FunctionGemmaParser.add, hrounds]
      rfl
    refine ⟨p'', ?_⟩
    rw [FunctionGemmaParser.addAll, feed, hadd, Option.bind_some]
    rw [FunctionGemmaParser.addAll] at hall
    rw [hall, Option.map_some, hexpected, hrest]

/-! ## Texts that are not orderly -/

/-- A parser that goes on with text as if it were behind an opening tag returns no more, and less if there is text in
front of the next call. -/
theorem specCall_length_le {text before after : Bytes} (h : cut functionCallOpen text = some (before, after))
    {content rest : Bytes} (hclose : cut functionCallClose text = some (content, rest)) :
    (specCall parseArguments text).1.length ≤ (spec parseArguments text).1.length ∧
      ((specCall parseArguments text).1.length = (spec parseArguments text).1.length → before = []) := by
  obtain ⟨rfl, -⟩ := cut_eq_some h
  cases hbefore : cut functionCallClose before with
  | none =>
    have hopen := cut_append_clear clear_close_open after hbefore ⟨0x3c, rfl, by decide⟩
    rw [hopen] at hclose
    obtain ⟨⟨content', rest'⟩, hafter, heq⟩ := Option.map_eq_some_iff.mp hclose
    have hclose' : cut functionCallClose (before ++ (functionCallOpen ++ after)) =
        some (before ++ (functionCallOpen ++ content'), rest') := by
      rw [hopen, hafter, Option.map_some]
    rw [spec_some parseArguments h, specCall_some parseArguments hafter, specCall_some parseArguments hclose']
    simp only [both, List.nil_append, List.length_append]
    exact ⟨by omega, fun hlen => List.eq_nil_of_length_eq_zero (by omega)⟩
  | some q =>
    obtain ⟨hq, -⟩ := cut_eq_some hbefore
    have hlen := length_of_cut hbefore
    have h19 : functionCallClose.length = 19 := rfl
    have hclose' := cut_append_some hbefore (functionCallOpen ++ after)
    -- the opening tag is still the first one in the text behind the call
    have hopen : cut functionCallOpen (q.2 ++ (functionCallOpen ++ after)) = some (q.2, after) := by
      rw [hq, ← List.append_assoc q.1] at h
      exact cut_of_suffix h
    rw [spec_some parseArguments h, specCall_some parseArguments hclose', spec_some parseArguments hopen]
    simp only [both, List.nil_append, List.length_append]
    exact ⟨by omega, fun hsame => by omega⟩

theorem spec_unclosed {text before after : Bytes} (h : cut functionCallOpen text = some (before, after))
    (hclose : cut functionCallClose text = none) : spec parseArguments text = (text, []) := by
  obtain ⟨rfl, -⟩ := cut_eq_some h
  have hafter : cut functionCallClose after = none := by
    rw [cut_eq_none_iff_absent] at hclose ⊢
    refine fun hplace => hclose (hplace.trans ⟨before ++ functionCallOpen, [], ?_⟩)
    simp
  rw [spec_some parseArguments h, specCall_none parseArguments hafter]
  simp [both]

/-- A call returns no more content than there is outside of the calls, and as much only if the text is orderly. -/
theorem rounds_length {n : Nat} :
    (∀ buffer : Bytes, buffer.length < n →
      ∃ outs p', rounds (FunctionGemmaParser.eat parseArguments) n { state := .collectingContent, buffer } = some (outs, p') ∧
        (texts outs.flatten).1.length ≤ (spec parseArguments buffer).1.length ∧
        ((texts outs.flatten).1.length = (spec parseArguments buffer).1.length → Orderly buffer)) ∧
    ∀ buffer : Bytes, buffer.length < n →
      ∃ outs p', rounds (FunctionGemmaParser.eat parseArguments) n { state := .collectingToolCalls, buffer } = some (outs, p') ∧
        (cut functionCallClose buffer = none → (texts outs.flatten).1 = []) ∧
        ∀ q, cut functionCallClose buffer = some q →
          (texts outs.flatten).1.length ≤ (specCall parseArguments buffer).1.length ∧
          ((texts outs.flatten).1.length = (specCall parseArguments buffer).1.length → OrderlyCall buffer) := by
  induction n with
  | zero => exact ⟨fun _ h => by omega, fun _ h => by omega⟩
  | succ n ih =>
    obtain ⟨ihContent, ihCall⟩ := ih
    constructor
    · intro buffer hn
      cases hcut : cut functionCallOpen buffer with
      | none =>
        have hover := overlap_le_length buffer functionCallOpen
        refine ⟨_, _, rounds_stop (eat_content_none parseArguments hcut), ?_⟩
        rw [spec_none parseArguments hcut, List.flatten_singleton, texts_emit, released]
        simp only [List.length_take]
        exact ⟨by omega, fun hlen => .content hcut (by omega)⟩
      | some q =>
        have hlen := length_of_cut hcut
        have h21 : functionCallOpen.length = 21 := rfl
        obtain ⟨outs, p', hrounds, hstuck, hle⟩ := ihCall q.2 (by omega)
        refine ⟨_, p', by rw [rounds_more (eat_content parseArguments hcut), hrounds]; rfl, ?_⟩
        rw [spec_some parseArguments hcut, List.flatten_cons, texts_append, texts_emit]
        simp only [both, List.length_append]
        cases hclose : cut functionCallClose q.2 with
        | none =>
          rw [hstuck hclose, specCall_none parseArguments hclose]
          simp only [List.length_append, List.length_nil]
          exact ⟨by omega, fun hsame => by omega⟩
        | some q' =>
          obtain ⟨hle, heq⟩ := hle q' hclose
          exact ⟨by omega, fun hsame => orderly_of_call hcut (heq (by omega))⟩
    · intro buffer hn
      cases hcut : cut functionCallClose buffer with
      | none => exact ⟨_, _, rounds_stop (eat_call_none parseArguments hcut), fun _ => rfl, fun _ h => by cases h⟩
      | some q =>
        have hlen := length_of_cut hcut
        have h19 : functionCallClose.length = 19 := rfl
        have heat := eat_call parseArguments hcut
        have hspec : (specCall parseArguments buffer).1 = (spec parseArguments q.2).1 := by
          rw [specCall_some parseArguments hcut]
          rfl
        rw [hspec]
        cases hopen : cut functionCallOpen q.2 with
        | none =>
          obtain ⟨outs, p', hrounds, hle, heq⟩ := ihContent q.2 (by omega)
          rw [containsTag, hopen] at heat
          refine ⟨_, p', by rw [rounds_more heat]; exact congrArg _ hrounds,
            fun h => absurd h (Option.some_ne_none _), fun _ _ => ?_⟩
          rw [List.flatten_cons, texts_append]
          simp only [both, texts, List.flatMap_cons, List.flatMap_nil, List.nil_append] at hle heq ⊢
          refine ⟨hle, fun hsame => ⟨q.1, q.2, hcut, fun hplace => ?_, heq hsame⟩⟩
          exact absurd hplace (cut_eq_none_iff_absent.mp hopen)
        | some o =>
          obtain ⟨outs, p', hrounds, hstuck, hle⟩ := ihCall q.2 (by omega)
          rw [containsTag, hopen] at heat
          refine ⟨_, p', by rw [rounds_more heat]; exact congrArg _ hrounds,
            fun h => absurd h (Option.some_ne_none _), fun _ _ => ?_⟩
          have htexts : (texts ([.toolCall (parseToolCall parseArguments q.1)] :: outs).flatten).1 =
              (texts outs.flatten).1 := by
            simp [texts]
          rw [htexts]
          cases hclose : cut functionCallClose q.2 with
          | none =>
            -- the rest of the text is not returned any more
            have h21 : functionCallOpen.length = 21 := rfl
            have hbehind := length_of_cut hopen
            have hlong : 0 < (spec parseArguments q.2).1.length := by
              rw [spec_unclosed parseArguments hopen hclose]
              dsimp only
              omega
            rw [hstuck hclose, List.length_nil]
            exact ⟨by omega, fun hsame => by omega⟩
          | some q' =>
            obtain ⟨hle, heq⟩ := hle q' hclose
            obtain ⟨hmost, hstart⟩ := specCall_length_le parseArguments hopen hclose
            refine ⟨by omega, fun hsame => ?_⟩
            have hcall := heq (by omega)
            have hbefore := hstart (by omega)
            have hfirst : q.2 = functionCallOpen ++ o.2 := by
              rw [(cut_eq_some hopen).1, hbefore]
              rfl
            refine ⟨q.1, q.2, hcut, fun _ => hfirst ▸ List.prefix_append _ _, orderly_of_call hopen ?_⟩
            rw [hfirst, orderlyCall_open] at hcall
            exact hcall

theorem add_some (p : FunctionGemmaParser) (s : Bytes) : ∃ r, p.add parseArguments s = some r := by
  have hlen : (p.buffer ++ s).length < p.buffer.length + s.length + 1 := by
    rw [List.length_append]
    omega
  obtain ⟨state, buffer⟩ := p
  obtain ⟨hcontent, hcall⟩ := rounds_length parseArguments (n := buffer.length + s.length + 1)
  cases state with
  | collectingContent =>
    obtain ⟨outs, p', hrounds, -⟩ := hcontent _ hlen
    exact ⟨_, by rw [FunctionGemmaParser.add, hrounds]; rfl⟩
  | collectingToolCalls =>
    obtain ⟨outs, p', hrounds, -⟩ := hcall _ hlen
    exact ⟨_, by rw [FunctionGemmaParser.add, hrounds]; rfl⟩

theorem addAll_some (p : FunctionGemmaParser) (chunks : List Bytes) : ∃ r, p.addAll parseArguments chunks = some r := by
  induction chunks generalizing p with
  | nil => exact ⟨_, rfl⟩
  | cons c cs ih =>
    obtain ⟨r, hr⟩ := add_some parseArguments p c
    obtain ⟨t, ht⟩ := ih r.2
    rw [FunctionGemmaParser.addAll] at ht ⊢
    exact ⟨_, by rw [feed, hr, Option.bind_some, ht]; rfl⟩

/-- What the calls return for the chunks is what one call returns, with all text outside of the calls as content, if and
only if the text is orderly. -/
theorem addAll_outside_iff (chunks : List Bytes) :
    ∃ out p one p', FunctionGemmaParser.addAll parseArguments {} chunks = some (out, p) ∧
      FunctionGemmaParser.add parseArguments {} chunks.flatten = some (one, p') ∧
      (out = one ∧ out.1 = (spec parseArguments chunks.flatten).1 ↔ Orderly chunks.flatten) := by
  obtain ⟨⟨out, p⟩, hout⟩ := addAll_some parseArguments {} chunks
  obtain ⟨hcontent, -⟩ := rounds_length parseArguments (n := 0 + chunks.flatten.length + 1)
  obtain ⟨outs, p', hrounds, -, hsame⟩ := hcontent chunks.flatten (by omega)
  have hone : FunctionGemmaParser.add parseArguments {} chunks.flatten = some (texts outs.flatten, p') := by
    rw [FunctionGemmaParser.add]
    exact congrArg _ hrounds
  refine ⟨out, p, texts outs.flatten, p', hout, hone, ?_, ?_⟩
  · rintro ⟨rfl, houtside⟩
    exact hsame (congrArg List.length houtside)
  · intro horderly
    have hend : FunctionGemmaParser.expected parseArguments {} [] = ([], []) := spec_none parseArguments rfl
    obtain ⟨p₁, hall⟩ := addAll_ready parseArguments (p := {}) horderly fun _ => hend
    obtain ⟨p₂, huncut⟩ := @addAll_ready A parseArguments {} [chunks.flatten]
      (by rw [List.flatten_singleton]; exact horderly) fun _ => hend
    rw [hall] at hout
    cases hout
    rw [FunctionGemmaParser.addAll, feed, hone, Option.bind_some, List.flatten_singleton] at huncut
    obtain ⟨huncut, -⟩ := Prod.mk.inj (Option.some.inj huncut)
    refine ⟨?_, rfl⟩
    rw [← huncut]
    simp [both]

/-- Text between two calls that come in one chunk, and in two. -/
theorem textBetween_lost :
    let f := ascii "<start_function_call>call:f\x7b\x7d<end_function_call>"
    let g := ascii "<start_function_call>call:g\x7b\x7d<end_function_call>"
    (FunctionGemmaParser.addAll id {} [f ++ ascii " and " ++ g]).map (·.1) =
        some ([], [⟨ascii "f", some []⟩, ⟨ascii "g", some []⟩]) ∧
      (FunctionGemmaParser.addAll id {} [f ++ ascii " and ", g]).map (·.1) =
        some (ascii " and ", [⟨ascii "f", some []⟩, ⟨ascii "g", some []⟩]) := by
  decide

end Xdragon.Parsers.FunctionGemma
