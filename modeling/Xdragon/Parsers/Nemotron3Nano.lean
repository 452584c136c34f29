import Xdragon.Parsers.Qwen3Coder

/-!
# The Nemotron 3 Nano parser

`Nemotron3NanoParser` of `model/parsers/nemotron3nano.go`. Thinking ends at its closing tag or at a tool call, and the
content is left to a Qwen3-Coder parser.
-/

namespace Xdragon.Parsers.Nemotron3Nano

open Xdragon.Lib
open Qwen3Coder (Qwen3CoderParser Added)

inductive Nemotron3NanoParserState where
  | collectingThinking
  | skipWhitespaceAfterThinking
  | collectingContent

def nemotronThinkClose : Str := "</think>".toList
def nemotronToolCallOpen : Str := "<tool_call>".toList

structure Nemotron3NanoParser where
  state : Nemotron3NanoParserState := .collectingThinking
  buffer : Str := []
  toolParser : Qwen3CoderParser := {}

/-- The larger overlap of the end of the text with a marker. -/
def maxOverlap (bufStr : Str) : Nat := max (overlap bufStr nemotronThinkClose) (overlap bufStr nemotronToolCallOpen)

/-- The unambiguous thinking, and what stays in the buffer. -/
def emitThinking (bufStr : Str) : Str × Str :=
  if maxOverlap bufStr > 0 then
    (trimRight (bufStr.take (bufStr.length - maxOverlap bufStr)), bufStr.drop (bufStr.length - maxOverlap bufStr))
  else
    let wsLen := trailingWhitespaceLen bufStr
    if wsLen > 0 then (bufStr.take (bufStr.length - wsLen), bufStr.drop (bufStr.length - wsLen))
    else (bufStr, [])

variable {C ε : Type} (parseToolCall : Str → Except ε C)

def Nemotron3NanoParser.addContent (p : Nemotron3NanoParser) (s : Str) : Option (Added C ε × Nemotron3NanoParser) :=
  (p.toolParser.add parseToolCall s).map fun r => (r.1, { p with state := .collectingContent, toolParser := r.2 })

/-- The thinking ends at a marker, and `remainder` follows. -/
def Nemotron3NanoParser.endThinking (p : Nemotron3NanoParser) (before remainder : Str) :
    Option (Added C ε × Nemotron3NanoParser) :=
  if remainder = [] then
    some ({ thinking := trimRight before }, { p with state := .skipWhitespaceAfterThinking, buffer := [] })
  else
    (Nemotron3NanoParser.addContent parseToolCall { p with buffer := [] } remainder).map fun r =>
      ({ r.1 with thinking := trimRight before }, r.2)

def Nemotron3NanoParser.add (p : Nemotron3NanoParser) (s : Str) : Option (Added C ε × Nemotron3NanoParser) :=
  match p.state with
  | .collectingContent => p.addContent parseToolCall s
  | .skipWhitespaceAfterThinking =>
    if trimLeft s = [] then some ({}, p) else p.addContent parseToolCall (trimLeft s)
  | .collectingThinking =>
    let bufStr := p.buffer ++ s
    let p := { p with buffer := bufStr }
    match cut nemotronThinkClose bufStr, cut nemotronToolCallOpen bufStr with
    | none, none =>
      let (thinking, buffer) := emitThinking bufStr
      some ({ thinking }, { p with buffer })
    | some (before, after), none => p.endThinking parseToolCall before (trimLeft after)
    | none, some (before, after) => p.endThinking parseToolCall before (nemotronToolCallOpen ++ after)
    | some (before, after), some (before', after') =>
      if before.length < before'.length then p.endThinking parseToolCall before (trimLeft after)
      else p.endThinking parseToolCall before' (nemotronToolCallOpen ++ after')

/-- What the calls return for the chunks. -/
def Nemotron3NanoParser.addAll (p : Nemotron3NanoParser) (chunks : List Str) :
    Option (List (Added C ε) × Nemotron3NanoParser) :=
  feed (· ++ ·) [] (fun p s => (p.add parseToolCall s).map fun r => ([r.1], r.2)) p chunks

/-! ## What a call emits -/

/-- No white space stands in front of a beginning of a marker at the end of the text. -/
def Unspaced (text : Str) : Prop :=
  maxOverlap text > 0 →
    trimRight (text.take (text.length - maxOverlap text)) = text.take (text.length - maxOverlap text)

instance : DecidablePred Unspaced := fun text => inferInstanceAs (Decidable (maxOverlap text > 0 → _))

theorem maxOverlap_le (text : Str) : maxOverlap text ≤ text.length :=
  Nat.max_le.mpr ⟨overlap_le_length _ _, overlap_le_length _ _⟩

theorem emitThinking_held {text : Str} (h : maxOverlap text > 0) : emitThinking text =
    (trimRight (text.take (text.length - maxOverlap text)), text.drop (text.length - maxOverlap text)) := if_pos h

theorem emitThinking_plain {text : Str} (h : ¬ maxOverlap text > 0) :
    emitThinking text = (trimRight text, text.rtakeWhile isSpace) := by
  have hsplit : trimRight text ++ text.rtakeWhile isSpace = text := List.rdropWhile_append_rtakeWhile
  have hlen := length_sub_trailing text
  unfold emitThinking
  rw [if_neg h]
  dsimp only
  split_ifs with hspace
  · rw [hlen]
    generalize trimRight text = e at hsplit ⊢
    generalize text.rtakeWhile isSpace = r at hsplit ⊢
    rw [← hsplit, List.take_left, List.drop_left]
  · have hnil : text.rtakeWhile isSpace = [] := List.eq_nil_of_length_eq_zero (by unfold trailingWhitespaceLen at hspace; omega)
    rw [hnil, List.append_nil] at hsplit
    rw [hsplit, hnil]

/-- What is emitted ends without white space. -/
theorem trimRight_emitThinking (text : Str) : trimRight (emitThinking text).1 = (emitThinking text).1 := by
  by_cases h : maxOverlap text > 0
  · rw [emitThinking_held h, trimRight_trimRight]
  · rw [emitThinking_plain h, trimRight_trimRight]

theorem emitThinking_suffix (text : Str) : (emitThinking text).2 <:+ text := by
  by_cases h : maxOverlap text > 0
  · rw [emitThinking_held h]
    exact List.drop_suffix _ _
  · rw [emitThinking_plain h]
    exact List.rtakeWhile_suffix _ _

theorem maxOverlap_le_buffer (text : Str) : maxOverlap text ≤ (emitThinking text).2.length := by
  have hle := maxOverlap_le text
  by_cases h : maxOverlap text > 0
  · rw [emitThinking_held h, List.length_drop]
    omega
  · omega

theorem emitThinking_append {text : Str} (h : Unspaced text) : (emitThinking text).1 ++ (emitThinking text).2 = text := by
  by_cases hover : maxOverlap text > 0
  · rw [emitThinking_held hover, h hover, List.take_append_drop]
  · rw [emitThinking_plain hover]
    exact List.rdropWhile_append_rtakeWhile

/-- The white space in front of a beginning of a marker is lost. -/
theorem emitThinking_lt {text : Str} (h : ¬ Unspaced text) :
    (emitThinking text).1.length + (emitThinking text).2.length < text.length := by
  obtain ⟨hover, hspace⟩ := Classical.not_imp.mp h
  have hlt : (trimRight (text.take (text.length - maxOverlap text))).length <
      (text.take (text.length - maxOverlap text)).length := by
    have hpre := List.rdropWhile_prefix isSpace (text.take (text.length - maxOverlap text))
    exact Nat.lt_of_le_of_ne hpre.length_le fun heq => hspace (hpre.eq_of_length heq)
  have hle := maxOverlap_le text
  rw [List.length_take] at hlt
  rw [emitThinking_held hover, List.length_drop]
  dsimp only
  omega

theorem emitThinking_le (text : Str) : (emitThinking text).1.length + (emitThinking text).2.length ≤ text.length := by
  by_cases h : Unspaced text
  · rw [← List.length_append, emitThinking_append h]
  · exact (emitThinking_lt h).le

/-! ## The text so far -/

/-- The buffer holds all of the text that can belong to a marker. -/
theorem maxOverlap_append {e r : Str} (h : maxOverlap (e ++ r) ≤ r.length) (c : Str) :
    maxOverlap (e ++ (r ++ c)) = maxOverlap (r ++ c) := by
  obtain ⟨hclose, hopen⟩ := Nat.max_le.mp h
  unfold maxOverlap
  rw [← List.append_assoc, overlap_append hclose, overlap_append hopen]

/-- The buffer and the whole text agree on the white space in front of a marker. -/
theorem unspaced_append {e r : Str} (h : maxOverlap (e ++ r) ≤ r.length) (he : trimRight e = e) (c : Str) :
    Unspaced (e ++ (r ++ c)) ↔ Unspaced (r ++ c) := by
  have hle := maxOverlap_le (r ++ c)
  have htake : (e ++ (r ++ c)).take ((e ++ (r ++ c)).length - maxOverlap (r ++ c)) =
      e ++ (r ++ c).take ((r ++ c).length - maxOverlap (r ++ c)) := by
    have hlen : (e ++ (r ++ c)).length = e.length + (r ++ c).length := List.length_append
    rw [hlen, Nat.add_sub_assoc hle, List.take_length_add_append]
  unfold Unspaced
  rw [maxOverlap_append h, htake, trimRight, rdropWhile_append_of_last isSpace he, List.append_cancel_left_eq]
  rfl

/-- After each chunk the text so far is unspaced. -/
def Kept (text : Str) : List Str → Prop
  | [] => True
  | c :: cs => Unspaced (text ++ c) ∧ Kept (text ++ c) cs

theorem kept_iff {text : Str} (h : Unspaced text) {cs : List Str} :
    Kept text cs ↔ ∀ c₁ c₂, cs = c₁ ++ c₂ → Unspaced (text ++ c₁.flatten) := by
  induction cs generalizing text with
  | nil =>
    refine iff_of_true trivial fun c₁ c₂ hcs => ?_
    rw [(List.append_eq_nil_iff.mp hcs.symm).1, List.flatten_nil, List.append_nil]
    exact h
  | cons c cs ih =>
    constructor
    · rintro ⟨hc, hrest⟩ c₁ c₂ hcs
      cases c₁ with
      | nil => rwa [List.flatten_nil, List.append_nil]
      | cons d c₁ =>
        obtain ⟨rfl, htail⟩ := List.cons.inj hcs
        rw [List.flatten_cons, ← List.append_assoc]
        exact (ih hc).mp hrest c₁ c₂ htail
    · intro hall
      have hc : Unspaced (text ++ c) := by simpa using hall [c] cs rfl
      refine ⟨hc, (ih hc).mpr fun c₁ c₂ hcs => ?_⟩
      have := hall (c :: c₁) c₂ (by rw [hcs, List.cons_append])
      rwa [List.flatten_cons, ← List.append_assoc] at this

/-! ## The thinking of all chunks -/

theorem add_thinking {p : Nemotron3NanoParser} (hstate : p.state = .collectingThinking) {s : Str}
    (hclose : ¬ nemotronThinkClose <:+: p.buffer ++ s) (hopen : ¬ nemotronToolCallOpen <:+: p.buffer ++ s) :
    p.add parseToolCall s = some ({ thinking := (emitThinking (p.buffer ++ s)).1 },
      { p with buffer := (emitThinking (p.buffer ++ s)).2 }) := by
  rw [Nemotron3NanoParser.add, hstate]
  dsimp only
  rw [cut_eq_none_iff_absent.mpr hclose, cut_eq_none_iff_absent.mpr hopen]

/-- The chunks of a text without markers never give more than the text, and give all of it if nothing is lost. -/
theorem addAll_thinking {p : Nemotron3NanoParser} (hstate : p.state = .collectingThinking) {cs : List Str}
    (hclose : ¬ nemotronThinkClose <:+: p.buffer ++ cs.flatten) (hopen : ¬ nemotronToolCallOpen <:+: p.buffer ++ cs.flatten) :
    ∃ results p', p.addAll parseToolCall cs = some (results, p') ∧
      (results.flatMap (·.thinking)).length + p'.buffer.length ≤ (p.buffer ++ cs.flatten).length ∧
      ∀ e, trimRight e = e → maxOverlap (e ++ p.buffer) ≤ p.buffer.length →
        (results.flatMap (·.thinking) ++ p'.buffer = p.buffer ++ cs.flatten ↔ Kept (e ++ p.buffer) cs) := by
  induction cs generalizing p with
  | nil => exact ⟨[], p, rfl, by simp, fun e _ _ => iff_of_true (by simp) trivial⟩
  | cons c cs ih =>
    rw [List.flatten_cons, ← List.append_assoc] at hclose hopen
    have hadd := add_thinking parseToolCall hstate (fun h => hclose (h.trans (List.prefix_append _ _).isInfix))
      (fun h => hopen (h.trans (List.prefix_append _ _).isInfix))
    have hsuffix : (emitThinking (p.buffer ++ c)).2 ++ cs.flatten <:+ p.buffer ++ c ++ cs.flatten := by
      obtain ⟨t, ht⟩ := emitThinking_suffix (p.buffer ++ c)
      exact ⟨t, by rw [← List.append_assoc, ht]⟩
    obtain ⟨results, p', hall, hle, hiff⟩ := ih (p := { p with buffer := (emitThinking (p.buffer ++ c)).2 }) hstate
      (fun h => hclose (h.trans hsuffix.isInfix)) fun h => hopen (h.trans hsuffix.isInfix)
    refine ⟨{ thinking := (emitThinking (p.buffer ++ c)).1 } :: results, p', ?_, ?_, fun e he hover => ?_⟩
    · unfold Nemotron3NanoParser.addAll at hall ⊢
      rw [feed, hadd, Option.map_some, Option.bind_some, hall]
      rfl
    · have := emitThinking_le (p.buffer ++ c)
      rw [List.flatMap_cons, List.flatten_cons, ← List.append_assoc]
      simp only [List.length_append] at this hle ⊢
      omega
    · rw [List.flatMap_cons, List.flatten_cons, ← List.append_assoc p.buffer, Kept, List.append_assoc e,
        unspaced_append hover he]
      dsimp only at hle hiff ⊢
      by_cases hkept : Unspaced (p.buffer ++ c)
      · have hsplit := emitThinking_append hkept
        have he' : trimRight (e ++ (emitThinking (p.buffer ++ c)).1) = e ++ (emitThinking (p.buffer ++ c)).1 := by
          have := rdropWhile_append_of_last isSpace he (emitThinking (p.buffer ++ c)).1
          rw [trimRight, this]
          exact congrArg (e ++ ·) (trimRight_emitThinking _)
        have hnext := hiff (e ++ (emitThinking (p.buffer ++ c)).1) he' (by
          rw [List.append_assoc, hsplit, maxOverlap_append hover]
          exact maxOverlap_le_buffer _)
        rw [List.append_assoc e, hsplit] at hnext
        have htext : p.buffer ++ c ++ cs.flatten = (emitThinking (p.buffer ++ c)).1 ++
            ((emitThinking (p.buffer ++ c)).2 ++ cs.flatten) := by rw [← List.append_assoc, hsplit]
        rw [and_iff_right hkept, ← hnext, htext, List.append_assoc, List.append_cancel_left_eq]
      · refine iff_of_false (fun heq => ?_) fun h => hkept h.1
        have hlt := emitThinking_lt hkept
        have hlen := congrArg List.length heq
        simp only [List.length_append] at hlen hle hlt
        omega

/-- The thinking and the buffer make up the text if and only if no chunk ends with a beginning of a marker that white space
stands in front of. -/
theorem thinking_unaltered_iff {chunks : List Str} (hclose : ¬ nemotronThinkClose <:+: chunks.flatten)
    (hopen : ¬ nemotronToolCallOpen <:+: chunks.flatten) :
    ∃ results p, Nemotron3NanoParser.addAll parseToolCall {} chunks = some (results, p) ∧
      (results.flatMap (·.thinking) ++ p.buffer = chunks.flatten ↔
        ∀ c₁ c₂, chunks = c₁ ++ c₂ → Unspaced c₁.flatten) := by
  obtain ⟨results, p, hall, -, hiff⟩ := @addAll_thinking C ε parseToolCall {} rfl chunks hclose hopen
  refine ⟨results, p, hall, (hiff [] rfl (by decide)).trans ?_⟩
  exact kept_iff (by decide)

/-- A comparison without white space. -/
theorem tightComparison_kept : ∃ results p,
    Nemotron3NanoParser.addAll (fun raw => (.ok raw : Except Unit Str)) {} ["so x<".toList, "y holds".toList] = some (results, p) ∧
      (results.flatMap (·.thinking) ++ p.buffer = ["so x<".toList, "y holds".toList].flatten ↔
        ∀ c₁ c₂, ["so x<".toList, "y holds".toList] = c₁ ++ c₂ → Unspaced c₁.flatten) :=
  thinking_unaltered_iff _ (by decide) (by decide)

/-- The space in front of the sign is lost. -/
theorem spacedComparison_altered :
    (Nemotron3NanoParser.addAll (fun raw => (.ok raw : Except Unit Str)) {} ["so x <".toList, " y holds".toList]).map
        (fun r => r.1.flatMap (·.thinking) ++ r.2.buffer) = some "so x< y holds".toList ∧
      "so x< y holds".toList ≠ ["so x <".toList, " y holds".toList].flatten := by
  decide

end Xdragon.Parsers.Nemotron3Nano
