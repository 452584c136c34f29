import Xdragon.Lib.Rounds
import Xdragon.Lib.Tags
import Xdragon.Lib.Wire

/-!
# The Olmo 3 parser

`Olmo3Parser` of `model/parsers/olmo3.go`. The last chunk is not parsed: what the parser has then is content, or nothing.
-/

namespace Xdragon.Parsers.Olmo3

open Xdragon.Lib

inductive Olmo3ParserState where
  | content
  | toolCalls
  | toolCallsDone
  deriving DecidableEq

def olmo3FuncCallsOpenTag : Bytes := ascii "<function_calls>"
def olmo3FuncCallsCloseTag : Bytes := ascii "</function_calls>"

structure Olmo3Parser where
  state : Olmo3ParserState := .content
  buffer : Bytes := []

inductive Olmo3ParserEvent (C : Type) where
  | content (content : Bytes)
  | toolCalls (calls : List C)

variable {C : Type}

/-- The event for a text, if there is any. -/
def emit (text : Bytes) : List (Olmo3ParserEvent C) := if text.length > 0 then [.content text] else []

variable (parseOlmo3FunctionCalls : Bytes → Option (List C))

/-- The event for a block of calls. What cannot be parsed is dropped. -/
def emitCalls (toolCallsStr : Bytes) : List (Olmo3ParserEvent C) :=
  match parseOlmo3FunctionCalls toolCallsStr with
  | none => []
  | some calls => if calls.length > 0 then [.toolCalls calls] else []

def Olmo3Parser.eat (p : Olmo3Parser) : List (Olmo3ParserEvent C) × Olmo3Parser × Bool :=
  if p.buffer = [] then ([], p, false)
  else
    match p.state with
    | .content =>
      match cut olmo3FuncCallsOpenTag p.buffer with
      | some (content, remaining) => (emit content, { state := .toolCalls, buffer := remaining }, true)
      | none =>
        let overlapLen := overlap p.buffer olmo3FuncCallsOpenTag
        if overlapLen > 0 then
          (emit (p.buffer.take (p.buffer.length - overlapLen)),
            { p with buffer := p.buffer.drop (p.buffer.length - overlapLen) }, false)
        else (emit p.buffer, { p with buffer := [] }, false)
    | .toolCalls =>
      match cut olmo3FuncCallsCloseTag p.buffer with
      | some (toolCallsStr, remaining) =>
        (emitCalls parseOlmo3FunctionCalls toolCallsStr, { state := .toolCallsDone, buffer := remaining }, true)
      | none => ([], p, false)
    | .toolCallsDone => (emit p.buffer, { state := .content, buffer := [] }, false)

/-- The content and the calls of events, one after another. -/
def texts (es : List (Olmo3ParserEvent C)) : Bytes × List C :=
  (es.flatMap fun | .content c => c | _ => [], es.flatMap fun | .toolCalls calls => calls | _ => [])

/-- Every round but the last takes a tag from the buffer. -/
def Olmo3Parser.add (p : Olmo3Parser) (s : Bytes) (done : Bool) : Option ((Bytes × List C) × Olmo3Parser) :=
  let bufStr := p.buffer ++ s
  if done then
    some (if p.state = .content ∧ bufStr.length > 0 then (bufStr, []) else ([], []), { p with buffer := [] })
  else
    (rounds (Olmo3Parser.eat parseOlmo3FunctionCalls) (bufStr.length + 1) { p with buffer := bufStr }).map fun r =>
      (texts r.1.flatten, r.2)

/-- What the calls return for the chunks, where `done` is set on the last one. -/
def Olmo3Parser.addAll (p : Olmo3Parser) : List Bytes → Option (Bytes × List C)
  | [] => none
  | [c] => (p.add parseOlmo3FunctionCalls c true).map (·.1)
  | c :: c' :: cs => (p.add parseOlmo3FunctionCalls c false).bind fun r =>
    (addAll r.2 (c' :: cs)).map fun t => (r.1.1 ++ t.1, r.1.2 ++ t.2)

/-! ## Text without calls -/

theorem texts_emit (t : Bytes) : texts (emit t : List (Olmo3ParserEvent C)) = (t, []) := by
  unfold emit
  cases t <;> simp [texts]

theorem texts_append (es es' : List (Olmo3ParserEvent C)) :
    texts (es ++ es') = ((texts es).1 ++ (texts es').1, (texts es).2 ++ (texts es').2) := by
  simp [texts]

/-- A chunk without the opening tag is content, but for the beginning of a tag at its end. -/
theorem add_bare {p : Olmo3Parser} (hstate : p.state = .content) {c : Bytes}
    (h : ¬ olmo3FuncCallsOpenTag <:+: p.buffer ++ c) : p.add parseOlmo3FunctionCalls c false =
      some ((released olmo3FuncCallsOpenTag (p.buffer ++ c), []),
        { state := .content, buffer := withheld olmo3FuncCallsOpenTag (p.buffer ++ c) }) := by
  have heat : Olmo3Parser.eat parseOlmo3FunctionCalls { p with buffer := p.buffer ++ c } =
      (emit (released olmo3FuncCallsOpenTag (p.buffer ++ c)),
        { state := .content, buffer := withheld olmo3FuncCallsOpenTag (p.buffer ++ c) }, false) := by
    rw [Olmo3Parser.eat]
    dsimp only
    by_cases hnil : p.buffer ++ c = []
    · rw [if_pos hnil, hnil, hstate]
      rfl
    · rw [if_neg hnil, hstate, cut_eq_none_iff_absent.mpr h]
      dsimp only
      unfold released withheld
      split_ifs with hover
      · rfl
      · rw [Nat.eq_zero_of_not_pos hover, Nat.sub_zero, List.take_length, List.drop_length]
  rw [Olmo3Parser.add, if_neg Bool.false_ne_true, rounds_stop heat, Option.map_some, List.flatten_singleton, texts_emit]

theorem addAll_bare {p : Olmo3Parser} (hstate : p.state = .content) {cs : List Bytes} (hcs : cs ≠ [])
    (h : ¬ olmo3FuncCallsOpenTag <:+: p.buffer ++ cs.flatten) :
    p.addAll parseOlmo3FunctionCalls cs = some (p.buffer ++ cs.flatten, []) := by
  induction cs generalizing p with
  | nil => exact absurd rfl hcs
  | cons c cs ih =>
    cases cs with
    | nil =>
      rw [Olmo3Parser.addAll, Olmo3Parser.add, if_pos rfl, Option.map_some, List.flatten_singleton]
      cases hbuf : p.buffer ++ c <;> simp [hstate]
    | cons d cs =>
      rw [List.flatten_cons, ← List.append_assoc] at h ⊢
      have hsplit := released_append_withheld olmo3FuncCallsOpenTag (p.buffer ++ c)
      have hrest : ¬ olmo3FuncCallsOpenTag <:+:
          withheld olmo3FuncCallsOpenTag (p.buffer ++ c) ++ (d :: cs).flatten := by
        intro hplace
        refine h (hplace.trans ⟨released olmo3FuncCallsOpenTag (p.buffer ++ c), [], ?_⟩)
        rw [← List.append_assoc, hsplit, List.append_nil]
      rw [Olmo3Parser.addAll, add_bare _ hstate fun hplace => h (hplace.trans (List.prefix_append _ _).isInfix),
        Option.bind_some, ih rfl (List.cons_ne_nil _ _) hrest, Option.map_some]
      dsimp only
      rw [← List.append_assoc, hsplit]
      rfl

/-! ## Text with calls -/

/-- A round gives no more content than it takes from the buffer, and goes on only if it took a tag. -/
theorem eat_length (p : Olmo3Parser) :
    (texts (p.eat parseOlmo3FunctionCalls).1).1.length + (p.eat parseOlmo3FunctionCalls).2.1.buffer.length ≤
        p.buffer.length ∧
      ((p.eat parseOlmo3FunctionCalls).2.2 = true →
        (texts (p.eat parseOlmo3FunctionCalls).1).1.length + (p.eat parseOlmo3FunctionCalls).2.1.buffer.length <
          p.buffer.length) := by
  have hcalls : ∀ s, (texts (emitCalls parseOlmo3FunctionCalls s)).1 = [] := by
    intro s
    unfold emitCalls
    cases parseOlmo3FunctionCalls s with
    | none => rfl
    | some calls =>
      dsimp only
      split_ifs <;> rfl
  unfold Olmo3Parser.eat
  split_ifs
  · exact ⟨by simp [texts], fun h => h.elim⟩
  · split
    · split
      · rename_i content remaining hcut
        have hlen := length_of_cut hcut
        have h16 : olmo3FuncCallsOpenTag.length = 16 := rfl
        rw [texts_emit]
        dsimp only
        exact ⟨by omega, fun _ => by omega⟩
      · dsimp only
        split_ifs
        · rw [texts_emit]
          simp only [List.length_take, List.length_drop]
          exact ⟨by omega, fun h => h.elim⟩
        · rw [texts_emit]
          exact ⟨Nat.le_refl _, fun h => h.elim⟩
    · split
      · rename_i content remaining hcut
        have hlen := length_of_cut hcut
        have h17 : olmo3FuncCallsCloseTag.length = 17 := rfl
        rw [hcalls]
        dsimp only [List.length_nil]
        exact ⟨by omega, fun _ => by omega⟩
      · exact ⟨by simp [texts], fun h => absurd h Bool.false_ne_true⟩
    · rw [texts_emit]
      exact ⟨Nat.le_refl _, fun h => absurd h Bool.false_ne_true⟩

theorem rounds_length (p : Olmo3Parser) {n : Nat} (hn : p.buffer.length < n) :
    ∃ outs p', rounds (Olmo3Parser.eat parseOlmo3FunctionCalls) n p = some (outs, p') ∧
      (texts outs.flatten).1.length + p'.buffer.length ≤ p.buffer.length := by
  induction n generalizing p with
  | zero => omega
  | succ n ih =>
    obtain ⟨hle, hlt⟩ := eat_length parseOlmo3FunctionCalls p
    rw [rounds]
    split_ifs with hmore
    · have := hlt hmore
      obtain ⟨outs, p', hrounds, hlen⟩ := ih (p.eat parseOlmo3FunctionCalls).2.1 (by omega)
      refine ⟨(p.eat parseOlmo3FunctionCalls).1 :: outs, p', by rw [hrounds]; rfl, ?_⟩
      rw [List.flatten_cons, texts_append, List.length_append]
      omega
    · exact ⟨_, _, rfl, by rwa [List.flatten_singleton]⟩

/-- If the text is parsed and an empty chunk follows, the opening tag is not content. -/
theorem addAll_parsed {text : Bytes} (h : olmo3FuncCallsOpenTag <:+: text) :
    ∃ r, Olmo3Parser.addAll parseOlmo3FunctionCalls {} [text, []] = some r ∧ r.1.length < text.length := by
  obtain ⟨q, hcut⟩ : ∃ q, cut olmo3FuncCallsOpenTag text = some q := by
    refine Option.ne_none_iff_exists'.mp fun hnone => ?_
    exact cut_eq_none_iff_absent.mp hnone h
  have hlen := length_of_cut hcut
  have h16 : olmo3FuncCallsOpenTag.length = 16 := rfl
  have hne : text ≠ [] := by
    rintro rfl
    rw [List.length_nil] at hlen
    omega
  have heat : Olmo3Parser.eat parseOlmo3FunctionCalls { buffer := text } =
      (emit q.1, { state := .toolCalls, buffer := q.2 }, true) := by
    rw [Olmo3Parser.eat, if_neg hne]
    dsimp only
    rw [hcut]
  obtain ⟨outs, p', hrounds, hle⟩ := rounds_length parseOlmo3FunctionCalls { state := .toolCalls, buffer := q.2 }
    (n := text.length) (by dsimp only; omega)
  dsimp only at hle
  have hadd : Olmo3Parser.add parseOlmo3FunctionCalls {} text false = some (texts (emit q.1 :: outs).flatten, p') := by
    rw [Olmo3Parser.add, if_neg Bool.false_ne_true, List.nil_append, rounds_more heat, hrounds]
    rfl
  refine ⟨_, by rw [Olmo3Parser.addAll, hadd]; rfl, ?_⟩
  rw [List.flatten_cons, texts_append, texts_emit, List.append_nil]
  split_ifs <;> simp only [List.length_append, List.length_nil] <;> omega

/-- All ways to cut a text give the same content and the same calls if and only if the text has no opening tag. -/
theorem addAll_same_iff (text : Bytes) :
    (∀ chunks chunks' : List Bytes, chunks ≠ [] → chunks' ≠ [] → chunks.flatten = text → chunks'.flatten = text →
      Olmo3Parser.addAll parseOlmo3FunctionCalls {} chunks = Olmo3Parser.addAll parseOlmo3FunctionCalls {} chunks') ↔
        ¬ olmo3FuncCallsOpenTag <:+: text := by
  constructor
  · intro hall h
    obtain ⟨r, hr, hlt⟩ := addAll_parsed parseOlmo3FunctionCalls h
    have hwhole : Olmo3Parser.addAll parseOlmo3FunctionCalls {} [text] = some (text, []) := by
      have hne : text.length > 0 := by omega
      rw [Olmo3Parser.addAll, Olmo3Parser.add, if_pos rfl, Option.map_some, List.nil_append, if_pos ⟨rfl, hne⟩]
    have hsame := hall [text, []] [text] (List.cons_ne_nil _ _) (List.cons_ne_nil _ _) (by simp) (by simp)
    rw [hr, hwhole] at hsame
    cases hsame
    exact Nat.lt_irrefl _ hlt
  · intro h chunks chunks' hne hne' htext htext'
    rw [addAll_bare _ rfl hne (by rwa [List.nil_append, htext]), addAll_bare _ rfl hne' (by rwa [List.nil_append, htext']),
      htext, htext']

/-- One block of calls, with the last chunk empty or not. -/
theorem doneBlock_differs :
    Olmo3Parser.addAll (fun s => some [s]) {} [ascii "<function_calls>f()</function_calls>", []] = some ([], [ascii "f()"]) ∧
      Olmo3Parser.addAll (fun s => some [s]) {} [ascii "<function_calls>f()</function_calls>"] =
        some (ascii "<function_calls>f()</function_calls>", []) := by
  decide

end Xdragon.Parsers.Olmo3
