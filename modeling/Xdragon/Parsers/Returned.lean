import Xdragon.Lib.Tails
import Xdragon.Parsers.Text

/-!
# What a parser returns of a text

The loop over the events in `Add`, and what the claim on a whole stream is about: the characters of the text that are neither
white space nor in a tag or the body of a tool call. `Add` does not look at its flag for the last chunk.
-/

namespace Xdragon.Parsers

open Xdragon.Lib

/-- What an event carries. -/
inductive Said (R : Type) where
  | content (content : Str)
  | thinking (thinking : Str)
  | call (raw : R)

def Said.text {R : Type} : Said R → Str
  | .content s => s
  | .thinking s => s
  | .call _ => []

/-- What `Add` returns. -/
structure Answer (C ε : Type) where
  content : Str := []
  thinking : Str := []
  calls : List C := []
  err : Option ε := none

section
variable {R C ε : Type} (parseToolCall : R → Except ε C)

/-- The loop over the events, which returns nothing but the error of the first tool call that cannot be parsed. -/
def collect : List (Said R) → Except ε (Answer C ε)
  | [] => .ok {}
  | .call raw :: events => do
    let call ← parseToolCall raw
    let answer ← collect events
    return { answer with calls := call :: answer.calls }
  | .thinking thinking :: events => do
    let answer ← collect events
    return { answer with thinking := thinking ++ answer.thinking }
  | .content content :: events => do
    let answer ← collect events
    return { answer with content := content ++ answer.content }

def answer (events : List (Said R)) : Answer C ε :=
  match collect parseToolCall events with
  | .ok answer => answer
  | .error err => { err := some err }

/-- The number of the events that are returned, all or none. -/
def answered (events : List (Said R)) : Nat :=
  match collect parseToolCall events with
  | .ok _ => events.length
  | .error _ => 0

/-- The loop over the events that returns what came before the first tool call that cannot be parsed, with its error. -/
def collectUntil : List (Said R) → Answer C ε
  | [] => {}
  | .call raw :: events =>
    match parseToolCall raw with
    | .error err => { err := some err }
    | .ok call =>
      let answer := collectUntil events
      { answer with calls := call :: answer.calls }
  | .thinking thinking :: events =>
    let answer := collectUntil events
    { answer with thinking := thinking ++ answer.thinking }
  | .content content :: events =>
    let answer := collectUntil events
    { answer with content := content ++ answer.content }

/-- The number of the events before the first tool call that cannot be parsed. -/
def answeredUntil (events : List (Said R)) : Nat :=
  (events.takeWhile fun | .call raw => (parseToolCall raw).isOk | _ => true).length

end

/-! ## Pieces of a buffer -/

section
variable {tag s before after : Str} (h : cut tag s = some (before, after))
include h

theorem cut_trimmed : s = trimRight before ++ (before.rtakeWhile isSpace ++ tag ++ after) := by
  rw [List.append_assoc, ← List.append_assoc, trimRight, List.rdropWhile_append_rtakeWhile]
  exact (cut_eq_some h).1

theorem cut_trimmed_both :
    s = trimRight before ++ (before.rtakeWhile isSpace ++ (tag ++ after.takeWhile isSpace) ++ trimLeft after) := by
  rw [List.append_assoc, List.append_assoc, space_append_trimLeft, ← List.append_assoc, trimRight,
    List.rdropWhile_append_rtakeWhile]
  exact (cut_eq_some h).1

theorem cut_trimmed_after : s = before ++ (tag ++ after.takeWhile isSpace) ++ trimLeft after := by
  rw [List.append_assoc, List.append_assoc, space_append_trimLeft]
  exact (cut_eq_some h).1

end

/-! ## Spans -/

/-- The body of a tool call: the text between an opening tag and the first closing tag behind it. -/
def CallBody (openTag closeTag a w b : Str) : Prop := openTag <:+ a ∧ ∃ rest, cut closeTag (w ++ b) = some (w, rest)

theorem CallBody.more {openTag closeTag a w b : Str} (h : CallBody openTag closeTag a w b) (c : Str) :
    CallBody openTag closeTag a w (b ++ c) := by
  obtain ⟨hopen, rest, hcut⟩ := h
  refine ⟨hopen, rest ++ c, ?_⟩
  rw [← List.append_assoc]
  exact cut_append_some hcut c

theorem CallBody.behind {openTag closeTag a w b : Str} (h : CallBody openTag closeTag a w b) : ∃ rest, b = closeTag ++ rest := by
  obtain ⟨-, rest, hcut⟩ := h
  exact ⟨rest, List.append_cancel_left (cut_eq_some hcut).1⟩

/-- A tag, or the body of a tool call. -/
def Tagged (tags : List Str) (openTag closeTag a w b : Str) : Prop := w ∈ tags ∨ CallBody openTag closeTag a w b

theorem Tagged.more {tags : List Str} {openTag closeTag a w b : Str} (c : Str) (h : Tagged tags openTag closeTag a w b) :
    Tagged tags openTag closeTag a w (b ++ c) :=
  h.imp_right fun h => h.more c

theorem uncovered_tagged {tags : List Str} {openTag closeTag tag : Str} (hclose : ∃ x ∈ closeTag.head?, x ∉ tag.tail)
    (h : ∀ t ∈ tags, ¬ t <+: tag.dropLast ∧ ∀ x ∈ tag.head?, x ∉ t.tail) :
    Uncovered (Tagged tags openTag closeTag) tag := by
  refine (uncovered_tags id h).or (uncovered_behind fun hbody => ?_)
  obtain ⟨rest, rfl⟩ := hbody.behind
  obtain ⟨x, hx, hnot⟩ := hclose
  exact ⟨x, List.mem_head?_append_of_mem_head? hx, hnot⟩

theorem skipped_tag {tags : List Str} {openTag closeTag tag t : Str} (h : tag ∈ tags) :
    Skipped (Tagged tags openTag closeTag) isSpace t tag := skipped_span (.inl h)

theorem skipped_trailing {P : Str → Str → Str → Prop} (t s : Str) : Skipped P isSpace t (s.rtakeWhile isSpace) :=
  skipped_space fun _ hx => List.mem_rtakeWhile_imp hx

theorem skipped_leading {P : Str → Str → Str → Prop} (t s : Str) : Skipped P isSpace t (s.takeWhile isSpace) :=
  skipped_space fun _ hx => List.mem_takeWhile_imp hx

/-- A tag, with the white space around it. -/
theorem skipped_tag_spaced {tags : List Str} {openTag closeTag tag : Str} (h : tag ∈ tags) (t before after : Str) :
    Skipped (Tagged tags openTag closeTag) isSpace t (before.rtakeWhile isSpace ++ (tag ++ after.takeWhile isSpace)) :=
  (skipped_trailing t before).append Tagged.more ((skipped_tag h).append Tagged.more (skipped_leading _ after))

/-- The rest of the body of a tool call, its closing tag, and white space. -/
theorem skipped_call {tags : List Str} {openTag closeTag a u raw after : Str} (htag : closeTag ∈ tags) (hopen : openTag <:+ a)
    (hcut : cut closeTag (u ++ raw ++ (closeTag ++ after)) = some (u ++ raw, after)) :
    Skipped (Tagged tags openTag closeTag) isSpace (a ++ u) (raw ++ (closeTag ++ after.takeWhile isSpace)) := by
  have hshort : cut closeTag (u ++ raw ++ closeTag) = some (u ++ raw, []) := by
    simpa using cut_of_append (a := []) (b := after) hcut
  have hbody := (skipped_rest (a := a) (.inr ⟨hopen, [], hshort⟩) (skipped_tag htag)).append Tagged.more
    (skipped_leading _ after)
  rwa [List.append_assoc] at hbody

/-- The end of the stream: when a text ends outside a tool call, everything is returned if and only if no tool call that cannot be
parsed takes text with it and the text does not end with the beginning of a tag that the parser waits for. -/
def ReturnsUnless {σ ε : Type} (R : TextReader σ ε Char) (P : Str → Str → Str → Prop) (inToolCall : σ → Prop)
    (awaited : σ → List Str) (p : σ) : Prop :=
  ∀ chunks, ∃ marks p', R.run p chunks = some (marks, p') ∧ marks.map Prod.fst = chunks.flatten ∧
    (¬ inToolCall p' → (Drained P isSpace marks ↔
      (∀ i x, marks[i]? = some (x, .lost) → isSpace x = true ∨ Covered P chunks.flatten i) ∧
      ∀ tag ∈ awaited p', ¬ EndsInside tag chunks.flatten))

/-- What is to be shown of a parser. -/
theorem returnsUnless {σ ε : Type} {R : TextReader σ ε Char} {P : Str → Str → Str → Prop} {I : Str → σ → Prop} {D : σ → Prop}
    {inToolCall : σ → Prop} {awaited : σ → List Str} (K : R.Keeps P isSpace I D) {p : σ} (hI : I [] p) (hD : D p)
    (hbuffer : R.buffer p = [])
    (hend : ∀ t p', I t p' → D p' → ¬ inToolCall p' → Waits isSpace (awaited p') (R.buffer p') ∧
      ∀ tag ∈ awaited p', KeepsTail tag t (R.buffer p') ∧ (∀ x ∈ tag, isSpace x = false) ∧ Uncovered P tag) :
    ReturnsUnless R P inToolCall awaited p := by
  intro chunks
  obtain ⟨m, p', hrun, htext, hI', hD', -⟩ := TextReader.run_spec K hI hD chunks
  rw [hbuffer, List.nil_append] at htext
  rw [List.nil_append] at hI'
  refine ⟨_, p', hrun, ?_, fun hout => ?_⟩
  · rw [htext]
    simp [Function.comp_def]
  · rw [TextReader.run_drained_iff K hI hD hbuffer hrun]
    obtain ⟨hwaits, hawaited⟩ := hend _ p' hI' hD' hout
    have hskipped := skipped_buffer_iff (P := P) hwaits (fun tag h => (hawaited tag h).1) (fun tag h => (hawaited tag h).2.1)
      fun tag h => (hawaited tag h).2.2
    rw [← htext] at hskipped
    rw [← hskipped]
    refine and_congr_right fun _ => ⟨fun h => h _ htext, fun h before hbefore => ?_⟩
    obtain rfl : before = m.map Prod.fst := List.append_cancel_right (hbefore.symm.trans htext)
    exact h

end Xdragon.Parsers
