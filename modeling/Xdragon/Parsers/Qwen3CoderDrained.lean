import Xdragon.Parsers.Qwen3Coder
import Xdragon.Parsers.Returned

/-!
# The end of a Qwen3-Coder stream

What is left in the buffer of `Qwen3CoderParser` behind the last chunk is not returned: `Add` does not drain it.
-/

namespace Xdragon.Parsers.Qwen3Coder

open Xdragon.Lib

def QwenEvent.said : QwenEvent → Said Str
  | .rawToolCall raw => .call raw
  | .content text => .content text

section
variable {C ε : Type} (parseToolCall : Str → Except ε C)

def stream : TextReader Qwen3CoderParser QwenEvent Char where
  buffer p := p.acc
  write p s := { p with acc := p.acc ++ s }
  eat := Qwen3CoderParser.eat
  bound p s := p.acc.length + s.length + 1
  text e := e.said.text
  answered es := answered parseToolCall (es.map QwenEvent.said)

end

/-! ## Every round -/

def tags : List Str := [toolOpenTag, toolCloseTag]

def Span (a w b : Str) : Prop := Tagged tags toolOpenTag toolCloseTag a w b

/-- The text that was taken, and the parser. -/
def Inv (t : Str) (p : Qwen3CoderParser) : Prop :=
  match p.state with
  | .lookingForToolStart => KeepsTail toolOpenTag t p.acc
  | .collectingToolContent => toolOpenTag <:+ t

/-- The tags that the parser waits for outside a tool call. -/
def Qwen3CoderParser.awaited (_ : Qwen3CoderParser) : List Str := [toolOpenTag]

/-- A parser between two calls. -/
def Done (p : Qwen3CoderParser) : Prop := p.state = .lookingForToolStart → Waits isSpace p.awaited p.acc

theorem eat_looking_none {acc : Str} (h : cut toolOpenTag acc = none) : Qwen3CoderParser.eat ⟨.lookingForToolStart, acc⟩ =
    (emit (settled isSpace toolOpenTag acc), ⟨.lookingForToolStart, pending isSpace toolOpenTag acc⟩, false) := by
  rw [Qwen3CoderParser.eat]
  dsimp only
  rw [h, splitAmbiguous_eq]

theorem eat_looking_some {acc before after : Str} (h : cut toolOpenTag acc = some (before, after)) :
    Qwen3CoderParser.eat ⟨.lookingForToolStart, acc⟩ = (emit (trimRight before), ⟨.collectingToolContent, after⟩, true) := by
  rw [Qwen3CoderParser.eat]
  dsimp only
  rw [h]

theorem eat_tool_none {acc : Str} (h : cut toolCloseTag acc = none) :
    Qwen3CoderParser.eat ⟨.collectingToolContent, acc⟩ = ([], ⟨.collectingToolContent, acc⟩, false) := by
  rw [Qwen3CoderParser.eat]
  dsimp only
  rw [h]

theorem eat_tool_some {acc before after : Str} (h : cut toolCloseTag acc = some (before, after)) :
    Qwen3CoderParser.eat ⟨.collectingToolContent, acc⟩ =
      ([.rawToolCall before], ⟨.lookingForToolStart, trimLeft after⟩, true) := by
  rw [Qwen3CoderParser.eat]
  dsimp only
  rw [h]

theorem said_emit (t : Str) : (emit t).flatMap (fun e => e.said.text) = t := by
  unfold emit
  cases t <;> simp [QwenEvent.said, Said.text]

section
variable {C ε : Type} (parseToolCall : Str → Except ε C)

theorem stream_keeps : (stream parseToolCall).Keeps Span isSpace Inv Done where
  more := Tagged.more
  write {t p} s h := by
    refine ⟨rfl, ?_⟩
    obtain ⟨state, acc⟩ := p
    cases state with
    | lookingForToolStart => exact h.append s
    | collectingToolContent => exact h
  enough {t p} s _ := by
    obtain ⟨outs, houts, -⟩ := rounds_parts { p with acc := p.acc ++ s } (n := p.acc.length + s.length + 1)
      (by rw [List.length_append]; omega)
    exact fun h => nomatch h.symm.trans houts
  step {t p} h := by
    obtain ⟨state, acc⟩ := p
    cases state with
    | lookingForToolStart =>
      cases hcut : cut toolOpenTag acc with
      | none =>
        refine TextReader.step_of _ [] (eat_looking_none hcut) (said_emit _) ?_ (skipped_space nofun) ?_ fun _ _ => ?_
        · exact (settled_append_pending isSpace toolOpenTag acc).symm
        · rw [List.append_nil]
          exact KeepsTail.pending h
        · exact waits_pending (List.mem_singleton_self _) hcut
      | some q =>
        refine TextReader.step_of _ (q.1.rtakeWhile isSpace ++ toolOpenTag) (eat_looking_some hcut) (said_emit _) ?_ ?_ ?_ nofun
        · exact cut_trimmed hcut
        · exact (skipped_trailing _ _).append Tagged.more (skipped_tag (by simp [tags]))
        · exact ⟨_, List.append_assoc ..⟩
    | collectingToolContent =>
      cases hcut : cut toolCloseTag acc with
      | none =>
        refine TextReader.step_of [] [] (eat_tool_none hcut) rfl rfl (skipped_space nofun) ?_ nofun
        rwa [List.append_nil, List.append_nil]
      | some q =>
        refine TextReader.step_of [] (q.1 ++ (toolCloseTag ++ q.2.takeWhile isSpace)) (eat_tool_some hcut) rfl ?_ ?_ ?_ nofun
        · exact cut_trimmed_after hcut
        · have hcut' : cut toolCloseTag ([] ++ q.1 ++ (toolCloseTag ++ q.2)) = some ([] ++ q.1, q.2) := by
            rw [List.nil_append, ← (cut_eq_some hcut).1]
            exact hcut
          exact skipped_call (by simp [tags]) h hcut'
        · rw [List.append_nil, ← List.append_assoc, ← List.append_assoc]
          exact clean_behind (by decide) (by decide) toolOpenTag_space _ _ fun _ hx => List.mem_takeWhile_imp hx

/-- Everything outside the tool calls is returned unless the text ends with the beginning of an opening tag. -/
theorem stream_returns : ReturnsUnless (stream parseToolCall) Span (·.state = .collectingToolContent) Qwen3CoderParser.awaited {} := by
  refine returnsUnless (stream_keeps parseToolCall) keepsTail_nil (fun _ => ⟨[], [], rfl, nofun, .inl rfl⟩) rfl ?_
  intro t p hI hD hout
  obtain ⟨state, acc⟩ := p
  cases state with
  | lookingForToolStart =>
    refine ⟨hD rfl, fun tag htag => ?_⟩
    obtain rfl := List.mem_singleton.mp htag
    exact ⟨hI, toolOpenTag_space, uncovered_tagged (by decide) (by decide)⟩
  | collectingToolContent => exact absurd rfl hout

end

end Xdragon.Parsers.Qwen3Coder
