import Mathlib.Data.List.Induction
import Xdragon.Anthropic.Stream

/-!
# The blocks of a stream

Blocks come one after another exactly if the thinking never starts while text is open, and no tool call
comes while the thinking is open.
-/

namespace Xdragon.Anthropic

open Xdragon.Lib

variable {α : Type}

/-! ## Well-formed streams -/

structure Block (α : Type) where
  contentBlock : ContentBlock α
  deltas : List Delta

def Block.events (index : Nat) (b : Block α) : List (StreamEvent α) :=
  .contentBlockStart index b.contentBlock :: b.deltas.map (.contentBlockDelta index) ++ [.contentBlockStop index]

/-- Blocks one after another, from an index on. -/
def blockEvents : Nat → List (Block α) → List (StreamEvent α)
  | _, [] => []
  | index, b :: bs => b.events index ++ blockEvents (index + 1) bs

def WellFormed (es : List (StreamEvent α)) : Prop :=
  ∃ message blocks stopReason usage,
    es = .messageStart message :: blockEvents 0 blocks ++ [.messageDelta stopReason usage, .messageStop]

/-- How far a well-formed stream has come. -/
inductive Place where
  | start
  | between (index : Nat)
  | inside (index : Nat)
  | ended
  | stopped
  deriving DecidableEq

def Place.read : Place → StreamEvent α → Option Place
  | .start, .messageStart _ => some (.between 0)
  | .between index, .contentBlockStart i _ => if i = index then some (.inside index) else none
  | .inside index, .contentBlockDelta i _ => if i = index then some (.inside index) else none
  | .inside index, .contentBlockStop i => if i = index then some (.between (index + 1)) else none
  | .between _, .messageDelta _ _ => some .ended
  | .ended, .messageStop => some .stopped
  | _, _ => none

theorem read_stopped {es : List (StreamEvent α)} : es.foldlM Place.read .stopped = some .stopped ↔ es = [] := by
  cases es with
  | nil => simp
  | cons e es => cases e <;> simp [Place.read]

theorem read_ended {es : List (StreamEvent α)} : es.foldlM Place.read .ended = some .stopped ↔ es = [.messageStop] := by
  cases es with
  | nil => simp
  | cons e es => cases e <;> simp [Place.read, read_stopped]

/-- The rest of a well-formed stream between two blocks. -/
def Rest (index : Nat) (es : List (StreamEvent α)) : Prop :=
  ∃ blocks stopReason usage, es = blockEvents index blocks ++ [.messageDelta stopReason usage, .messageStop]

/-- The rest of a well-formed stream in a block. -/
def RestInside (index : Nat) (es : List (StreamEvent α)) : Prop :=
  ∃ (deltas : List Delta) (rest : List (StreamEvent α)),
    es = deltas.map (.contentBlockDelta index) ++ .contentBlockStop index :: rest ∧ Rest (index + 1) rest

theorem rest_start {index i : Nat} {b : ContentBlock α} {es : List (StreamEvent α)} :
    Rest index (.contentBlockStart i b :: es) ↔ i = index ∧ RestInside index es := by
  constructor
  · rintro ⟨blocks, stopReason, usage, h⟩
    cases blocks with
    | nil => simp [blockEvents] at h
    | cons block blocks =>
      simp only [blockEvents, Block.events, List.cons_append, List.cons.injEq, StreamEvent.contentBlockStart.injEq,
        List.append_assoc, List.nil_append] at h
      exact ⟨h.1.1, block.deltas, _, h.2, blocks, stopReason, usage, rfl⟩
  · rintro ⟨rfl, deltas, rest, rfl, blocks, stopReason, usage, rfl⟩
    refine ⟨⟨b, deltas⟩ :: blocks, stopReason, usage, ?_⟩
    simp [blockEvents, Block.events]

theorem rest_other {index : Nat} {e : StreamEvent α} {es : List (StreamEvent α)} (he : ∀ i b, e ≠ .contentBlockStart i b) :
    Rest index (e :: es) ↔ ∃ stopReason usage, e = .messageDelta stopReason usage ∧ es = [.messageStop] := by
  constructor
  · rintro ⟨blocks, stopReason, usage, h⟩
    cases blocks with
    | nil =>
      simp only [blockEvents, List.nil_append, List.cons.injEq] at h
      exact ⟨stopReason, usage, h⟩
    | cons block blocks =>
      simp only [blockEvents, Block.events, List.cons_append, List.cons.injEq] at h
      exact absurd h.1 (he _ _)
  · rintro ⟨stopReason, usage, rfl, rfl⟩
    exact ⟨[], stopReason, usage, rfl⟩

theorem restInside_delta {index i : Nat} {d : Delta} {es : List (StreamEvent α)} :
    RestInside index (.contentBlockDelta i d :: es) ↔ i = index ∧ RestInside index es := by
  constructor
  · rintro ⟨deltas, rest, h, hrest⟩
    cases deltas with
    | nil => simp at h
    | cons d' deltas =>
      simp only [List.map_cons, List.cons_append, List.cons.injEq, StreamEvent.contentBlockDelta.injEq] at h
      exact ⟨h.1.1, deltas, rest, h.2, hrest⟩
  · rintro ⟨rfl, deltas, rest, rfl, hrest⟩
    exact ⟨d :: deltas, rest, rfl, hrest⟩

theorem restInside_other {index : Nat} {e : StreamEvent α} {es : List (StreamEvent α)} (he : ∀ i d, e ≠ .contentBlockDelta i d) :
    RestInside index (e :: es) ↔ e = .contentBlockStop index ∧ Rest (index + 1) es := by
  constructor
  · rintro ⟨deltas, rest, h, hrest⟩
    cases deltas with
    | nil =>
      simp only [List.map_nil, List.nil_append, List.cons.injEq] at h
      obtain ⟨rfl, rfl⟩ := h
      exact ⟨rfl, hrest⟩
    | cons d deltas =>
      simp only [List.map_cons, List.cons_append, List.cons.injEq] at h
      exact absurd h.1 (he _ _)
  · rintro ⟨rfl, hrest⟩
    exact ⟨[], es, rfl, hrest⟩

theorem foldlM_cons_read (p : Place) (e : StreamEvent α) (es : List (StreamEvent α)) :
    (e :: es).foldlM Place.read p = (p.read e).bind fun q => es.foldlM Place.read q := List.foldlM_cons ..

/-- The checker accepts the rest of a well-formed stream, and nothing else. -/
theorem read_blocks (es : List (StreamEvent α)) (index : Nat) :
    (es.foldlM Place.read (.between index) = some .stopped ↔ Rest index es) ∧
    (es.foldlM Place.read (.inside index) = some .stopped ↔ RestInside index es) := by
  induction es generalizing index with
  | nil => simp [Rest, RestInside]
  | cons e es ih =>
    rw [foldlM_cons_read, foldlM_cons_read]
    cases e with
    | messageStart message => simp [Place.read, rest_other, restInside_other]
    | contentBlockStart i b =>
      rw [rest_start, restInside_other (by simp), Place.read, Place.read]
      · by_cases hi : i = index
        · rw [if_pos hi, Option.bind_some, (ih index).2]
          simp [hi]
        · simp [hi]
      all_goals simp
    | contentBlockDelta i d =>
      rw [rest_other (by simp), restInside_delta, Place.read, Place.read]
      · by_cases hi : i = index
        · rw [if_pos hi, Option.bind_some, (ih index).2]
          simp [hi]
        · simp [hi]
      all_goals simp
    | contentBlockStop i =>
      rw [rest_other (by simp), restInside_other (by simp), Place.read, Place.read]
      · by_cases hi : i = index
        · rw [if_pos hi, Option.bind_some, (ih (index + 1)).1]
          simp [hi]
        · simp [hi]
      all_goals simp
    | messageDelta stopReason usage =>
      rw [rest_other (by simp), restInside_other (by simp)]
      simp [Place.read, read_ended]
    | messageStop => simp [Place.read, rest_other, restInside_other]

/-- The checker accepts well-formed streams, and nothing else. -/
theorem wellFormed_iff {es : List (StreamEvent α)} : WellFormed es ↔ es.foldlM Place.read .start = some .stopped := by
  cases es with
  | nil => simp [WellFormed]
  | cons e es =>
    rw [foldlM_cons_read]
    cases e with
    | messageStart message =>
      rw [Place.read, Option.bind_some, (read_blocks es 0).1]
      constructor
      · rintro ⟨message', blocks, stopReason, usage, h⟩
        exact ⟨blocks, stopReason, usage, (List.cons.inj h).2⟩
      · rintro ⟨blocks, stopReason, usage, rfl⟩
        exact ⟨message, blocks, stopReason, usage, rfl⟩
    | _ => simp [WellFormed, Place.read]

instance (es : List (StreamEvent α)) : Decidable (WellFormed es) := decidable_of_iff _ wellFormed_iff.symm

/-! ## What is open after some items -/

theorem split_snoc {ι : Type} {is x y : List ι} {i a : ι} :
    is ++ [i] = x ++ a :: y ↔ (x = is ∧ a = i ∧ y = []) ∨ ∃ y', y = y' ++ [i] ∧ is = x ++ a :: y' := by
  obtain rfl | ⟨y', j, rfl⟩ := List.eq_nil_or_concat y
  · rw [List.append_singleton_inj]
    simp only [List.nil_eq, List.append_eq_nil_iff, List.cons_ne_nil, and_false, false_and, exists_false, or_false, and_true]
    exact ⟨fun h => ⟨h.1.symm, h.2.symm⟩, fun h => ⟨h.1.symm, h.2.symm⟩⟩
  · rw [List.concat_eq_append, ← List.cons_append, ← List.append_assoc, List.append_singleton_inj]
    constructor
    · rintro ⟨h, rfl⟩
      exact .inr ⟨y', rfl, h⟩
    · rintro (⟨-, -, h⟩ | ⟨z, h, his⟩)
      · simp at h
      · obtain ⟨rfl, rfl⟩ := List.append_singleton_inj.mp h
        exact ⟨his, rfl⟩

/-- The thinking has started, and no content has come since. -/
def ThinkingOpen (is : List (Item α)) : Prop :=
  ∃ x t y, is = x ++ .thinking t :: y ∧ (∀ t', .thinking t' ∉ x) ∧ ∀ c, .content c ∉ y

section
variable (marshal : α → Option Bytes)

/-- A call with the id was sent. -/
def Sent (is : List (Item α)) (id : Bytes) : Prop := ∃ tc, .call tc ∈ is ∧ (marshal tc.arguments).isSome = true ∧ tc.id = id

/-- Content has come, and no new call since. -/
def TextOpen (is : List (Item α)) : Prop :=
  ∃ x c y, is = x ++ .content c :: y ∧ ∀ y₁ tc y₂, y = y₁ ++ .call tc :: y₂ → Sent marshal (x ++ .content c :: y₁) tc.id

/-- The thinking starts while text is open, or a new call is sent while the thinking is open. -/
def Clash (before : List (Item α)) : Item α → Prop
  | .thinking _ => (∀ t, .thinking t ∉ before) ∧ TextOpen marshal before
  | .content _ => False
  | .call tc => ¬ Sent marshal before tc.id ∧ (marshal tc.arguments).isSome = true ∧ ThinkingOpen before

end

theorem thinkingOpen_thinking {is : List (Item α)} {t : Bytes} :
    ThinkingOpen (is ++ [.thinking t]) ↔ ThinkingOpen is ∨ ∀ t', .thinking t' ∉ is := by
  constructor
  · rintro ⟨x, t', y, h, hx, hy⟩
    obtain ⟨rfl, -, -⟩ | ⟨y', rfl, rfl⟩ := split_snoc.mp h
    · exact .inr hx
    · exact .inl ⟨x, t', y', rfl, hx, fun c hc => hy c (List.mem_append_left _ hc)⟩
  · rintro (⟨x, t', y, rfl, hx, hy⟩ | h)
    · exact ⟨x, t', y ++ [.thinking t], by simp, hx, by simpa using hy⟩
    · exact ⟨is, t, [], rfl, h, nofun⟩

theorem thinkingOpen_content {is : List (Item α)} {c : Bytes} : ¬ ThinkingOpen (is ++ [.content c]) := by
  rintro ⟨x, t, y, h, -, hy⟩
  obtain ⟨-, h, -⟩ | ⟨y', rfl, -⟩ := split_snoc.mp h
  · cases h
  · exact hy c (by simp)

theorem thinkingOpen_call {is : List (Item α)} {tc : ToolCall α} : ThinkingOpen (is ++ [.call tc]) ↔ ThinkingOpen is := by
  constructor
  · rintro ⟨x, t, y, h, hx, hy⟩
    obtain ⟨-, h, -⟩ | ⟨y', rfl, rfl⟩ := split_snoc.mp h
    · cases h
    · exact ⟨x, t, y', rfl, hx, fun c hc => hy c (List.mem_append_left _ hc)⟩
  · rintro ⟨x, t, y, rfl, hx, hy⟩
    exact ⟨x, t, y ++ [.call tc], by simp, hx, by simpa using hy⟩

section
variable {marshal : α → Option Bytes}

theorem textOpen_content {is : List (Item α)} {c : Bytes} : TextOpen marshal (is ++ [.content c]) :=
  ⟨is, c, [], rfl, by simp⟩

theorem textOpen_thinking {is : List (Item α)} {t : Bytes} :
    TextOpen marshal (is ++ [.thinking t]) ↔ TextOpen marshal is := by
  constructor
  · rintro ⟨x, c, y, h, hcalls⟩
    obtain ⟨-, h, -⟩ | ⟨y', rfl, rfl⟩ := split_snoc.mp h
    · cases h
    · exact ⟨x, c, y', rfl, fun y₁ tc y₂ hy => hcalls y₁ tc (y₂ ++ [.thinking t]) (by simp [hy])⟩
  · rintro ⟨x, c, y, rfl, hcalls⟩
    refine ⟨x, c, y ++ [.thinking t], by simp, fun y₁ tc y₂ hy => ?_⟩
    obtain ⟨-, h, -⟩ | ⟨y', rfl, rfl⟩ := split_snoc.mp hy
    · cases h
    · exact hcalls y₁ tc y' rfl

theorem textOpen_call {is : List (Item α)} {tc : ToolCall α} :
    TextOpen marshal (is ++ [.call tc]) ↔ TextOpen marshal is ∧ Sent marshal is tc.id := by
  constructor
  · rintro ⟨x, c, y, h, hcalls⟩
    obtain ⟨-, h, -⟩ | ⟨y', rfl, rfl⟩ := split_snoc.mp h
    · cases h
    · exact ⟨⟨x, c, y', rfl, fun y₁ tc' y₂ hy => hcalls y₁ tc' (y₂ ++ [.call tc]) (by simp [hy])⟩, hcalls y' tc [] rfl⟩
  · rintro ⟨⟨x, c, y, rfl, hcalls⟩, hsent⟩
    refine ⟨x, c, y ++ [.call tc], by simp, fun y₁ tc' y₂ hy => ?_⟩
    obtain ⟨rfl, h, -⟩ | ⟨y', rfl, rfl⟩ := split_snoc.mp hy
    · cases h
      exact hsent
    · exact hcalls y₁ tc' y' rfl

theorem sent_append {is js : List (Item α)} {id : Bytes} :
    Sent marshal (is ++ js) id ↔ Sent marshal is id ∨ Sent marshal js id := by
  simp only [Sent, List.mem_append, or_and_right, exists_or]

theorem sent_call {tc : ToolCall α} {id : Bytes} :
    Sent marshal [.call tc] id ↔ (marshal tc.arguments).isSome = true ∧ tc.id = id := by
  simp [Sent]

/-- The fields of a converter say what is open after some items. -/
structure Flags (marshal : α → Option Bytes) (is : List (Item α)) (c : StreamConverter) : Prop where
  started : c.thinkingStarted = true ↔ ∃ t, .thinking t ∈ is
  done : c.thinkingDone = true → c.thinkingStarted = true
  thinking : (c.thinkingStarted = true ∧ c.thinkingDone = false) ↔ ThinkingOpen is
  text : c.textStarted = true ↔ TextOpen marshal is
  sent : ∀ id, id ∈ c.toolCallsSent ↔ Sent marshal is id

/-- Texts are not empty. -/
def Item.Proper : Item α → Prop
  | .thinking t => t ≠ []
  | .content t => t ≠ []
  | .call _ => True

theorem Flags.step_thinking {is : List (Item α)} {c : StreamConverter} (h : Flags marshal is c) {t : Bytes} (ht : t ≠ []) :
    Flags marshal (is ++ [.thinking t]) (c.thinking (α := α) t).2 := by
  have hsent : ∀ id, Sent marshal (is ++ [.thinking t]) id ↔ Sent marshal is id := by simp [Sent]
  have hthinking := h.thinking
  unfold StreamConverter.thinking
  by_cases hdone : c.thinkingDone = true
  · rw [if_neg (by simp [hdone])]
    have hstarted := h.done hdone
    simp only [hdone, Bool.true_eq_false, and_false, false_iff] at hthinking
    refine ⟨iff_of_true hstarted ⟨t, by simp⟩, h.done, ?_, h.text.trans textOpen_thinking.symm,
      fun id => (h.sent id).trans (hsent id).symm⟩
    rw [thinkingOpen_thinking]
    refine iff_of_false (by simp [hdone]) ?_
    rintro (hopen | hnone)
    · exact hthinking hopen
    · obtain ⟨t', ht'⟩ := h.started.mp hstarted
      exact hnone t' ht'
  · rw [if_pos ⟨ht, hdone⟩]
    rw [Bool.not_eq_true] at hdone
    refine ⟨iff_of_true rfl ⟨t, by simp⟩, fun _ => rfl, ?_, h.text.trans textOpen_thinking.symm,
      fun id => (h.sent id).trans (hsent id).symm⟩
    rw [thinkingOpen_thinking]
    refine iff_of_true ⟨rfl, hdone⟩ ?_
    by_cases hstarted : c.thinkingStarted = true
    · exact .inl (hthinking.mp ⟨hstarted, hdone⟩)
    · exact .inr fun t' ht' => hstarted (h.started.mpr ⟨t', ht'⟩)

theorem Flags.step_content {is : List (Item α)} {c : StreamConverter} (h : Flags marshal is c) {t : Bytes} (ht : t ≠ []) :
    Flags marshal (is ++ [.content t]) (c.content (α := α) t).2 := by
  have hsent : ∀ id, Sent marshal (is ++ [.content t]) id ↔ Sent marshal is id := by simp [Sent]
  have hstarted : (∃ t', Item.thinking t' ∈ is ++ [.content t]) ↔ ∃ t', Item.thinking t' ∈ is := by simp
  unfold StreamConverter.content StreamConverter.closeThinking
  rw [if_pos ht]
  by_cases hopen : c.thinkingStarted = true ∧ ¬ c.thinkingDone = true
  · rw [if_pos hopen]
    exact ⟨h.started.trans hstarted.symm, fun _ => hopen.1, iff_of_false (by simp) thinkingOpen_content,
      iff_of_true rfl textOpen_content, fun id => (h.sent id).trans (hsent id).symm⟩
  · rw [if_neg hopen]
    rw [Bool.not_eq_true] at hopen
    exact ⟨h.started.trans hstarted.symm, h.done, iff_of_false hopen thinkingOpen_content,
      iff_of_true rfl textOpen_content, fun id => (h.sent id).trans (hsent id).symm⟩

theorem closeText_keeps (c : StreamConverter) : (c.closeText (α := α)).2.textStarted = false ∧
    (c.closeText (α := α)).2.thinkingStarted = c.thinkingStarted ∧ (c.closeText (α := α)).2.thinkingDone = c.thinkingDone ∧
    (c.closeText (α := α)).2.toolCallsSent = c.toolCallsSent := by
  unfold StreamConverter.closeText
  split_ifs with h
  · exact ⟨rfl, rfl, rfl, rfl⟩
  · exact ⟨by simpa using h, rfl, rfl, rfl⟩

theorem Flags.step_call {is : List (Item α)} {c : StreamConverter} (h : Flags marshal is c) (tc : ToolCall α) :
    Flags marshal (is ++ [.call tc]) (c.toolCall marshal tc).2 := by
  have hstarted : (∃ t', Item.thinking t' ∈ is ++ [.call tc]) ↔ ∃ t', Item.thinking t' ∈ is := by simp
  have hsent : ∀ id, Sent marshal (is ++ [.call tc]) id ↔
      Sent marshal is id ∨ ((marshal tc.arguments).isSome = true ∧ tc.id = id) := by
    intro id
    rw [sent_append, sent_call]
  unfold StreamConverter.toolCall
  by_cases hknown : c.toolCallsSent.contains tc.id = true
  · rw [if_pos hknown]
    rw [List.contains_iff_mem, h.sent] at hknown
    refine ⟨h.started.trans hstarted.symm, h.done, h.thinking.trans thinkingOpen_call.symm, ?_, fun id => ?_⟩
    · rw [h.text, textOpen_call, and_iff_left hknown]
    · rw [h.sent, hsent]
      refine (or_iff_left_of_imp ?_).symm
      rintro ⟨-, rfl⟩
      exact hknown
  · rw [if_neg hknown]
    rw [List.contains_iff_mem, h.sent] at hknown
    obtain ⟨htext, hstart, hdone, hids⟩ := closeText_keeps (α := α) c
    have hclosed : ¬ TextOpen marshal (is ++ [.call tc]) := fun hopen => hknown (textOpen_call.mp hopen).2
    cases hargs : marshal tc.arguments with
    | none =>
      simp only [hargs, Option.isSome_none, Bool.false_eq_true, false_and, or_false] at hsent
      dsimp only
      refine ⟨?_, ?_, ?_, iff_of_false (by simp [htext]) hclosed, fun id => ?_⟩
      · rw [hstart, hstarted, h.started]
      · rw [hstart, hdone]
        exact h.done
      · rw [hstart, hdone, h.thinking, thinkingOpen_call]
      · rw [hids, h.sent, hsent]
    | some argsJSON =>
      simp only [hargs, Option.isSome_some, true_and] at hsent
      dsimp only
      refine ⟨?_, ?_, ?_, iff_of_false (by simp [htext]) hclosed, fun id => ?_⟩
      · rw [hstart, hstarted, h.started]
      · rw [hstart, hdone]
        exact h.done
      · rw [hstart, hdone, h.thinking, thinkingOpen_call]
      · rw [List.mem_cons, hids, h.sent, hsent, or_comm, eq_comm]

theorem Flags.step {is : List (Item α)} {c : StreamConverter} (h : Flags marshal is c) {i : Item α} (hi : i.Proper) :
    Flags marshal (is ++ [i]) (i.run marshal c).2 := by
  cases i with
  | thinking t => exact h.step_thinking hi
  | content t => exact h.step_content hi
  | call tc => exact h.step_call tc

theorem flags_run {id model : Bytes} {estimated tokens : Int} {is : List (Item α)} (his : ∀ i ∈ is, i.Proper) :
    Flags marshal is (emitAll (Item.run marshal) is (begun id model estimated tokens)).2 := by
  induction is using List.reverseRecOn with
  | nil =>
    refine ⟨by simp [begun], nofun, iff_of_false (by simp [begun]) ?_, iff_of_false (by simp [begun]) ?_, ?_⟩
    · rintro ⟨x, t, y, h, -⟩
      simp at h
    · rintro ⟨x, c, y, h, -⟩
      simp at h
    · simp [begun, Sent]
  | append_singleton is i ih =>
    rw [emitAll_append, emitAll_cons, emitAll_nil]
    exact (ih fun j hj => his j (List.mem_append_left _ hj)).step (his i (by simp))

theorem items_proper {r : ChatResponse α} {i : Item α} (hi : i ∈ items r) : i.Proper := by
  simp only [items, List.mem_append, List.mem_map] at hi
  obtain (hi | hi) | ⟨tc, -, rfl⟩ := hi
  · split_ifs at hi with h
    · rw [List.mem_singleton] at hi
      rw [hi]
      exact h
    · cases hi
  · split_ifs at hi with h
    · rw [List.mem_singleton] at hi
      rw [hi]
      exact h
    · cases hi
  · trivial

/-! ## The checker goes along -/

def StreamConverter.place (c : StreamConverter) : Place :=
  if c.textStarted = true ∨ (c.thinkingStarted = true ∧ c.thinkingDone = false) then .inside c.contentIndex
  else .between c.contentIndex

/-- At most one block is open. -/
structure StreamConverter.Single (c : StreamConverter) : Prop where
  one : c.textStarted = true → c.thinkingStarted = true → c.thinkingDone = true
  done : c.thinkingDone = true → c.thinkingStarted = true

/-- A step that opens a block while one is open. -/
def Item.Wrong (marshal : α → Option Bytes) : Item α → StreamConverter → Prop
  | .thinking _, c => c.thinkingStarted = false ∧ c.textStarted = true
  | .content _, _ => False
  | .call tc, c => tc.id ∉ c.toolCallsSent ∧ (marshal tc.arguments).isSome = true ∧
      c.thinkingStarted = true ∧ c.thinkingDone = false

theorem read_wrong {i : Item α} {c : StreamConverter} (hs : c.Single) (hi : i.Proper) (h : i.Wrong marshal c) :
    (i.run marshal c).1.foldlM Place.read c.place = none := by
  cases i with
  | thinking t =>
    obtain ⟨hstarted, htext⟩ := h
    have hdone : ¬ c.thinkingDone = true := fun hdone => by
      rw [hs.done hdone] at hstarted
      cases hstarted
    rw [Item.run, StreamConverter.thinking, if_pos ⟨hi, hdone⟩, StreamConverter.place, if_pos (.inl htext), hstarted]
    rfl
  | content t => exact h.elim
  | call tc =>
    obtain ⟨hnew, hargs, hopen⟩ := h
    obtain ⟨argsJSON, hargs⟩ := Option.isSome_iff_exists.mp hargs
    have htext : ¬ c.textStarted = true := fun htext => by
      have hdone := hs.one htext hopen.1
      rw [hopen.2] at hdone
      cases hdone
    rw [Item.run, StreamConverter.toolCall, if_neg (by simpa using hnew), StreamConverter.closeText, if_neg htext, hargs,
      StreamConverter.place, if_pos (.inr hopen)]
    rfl

/-- The checker reads the events of a step, and at most one block is open then. -/
def Goes (c : StreamConverter) (r : List (StreamEvent α) × StreamConverter) : Prop :=
  r.1.foldlM Place.read c.place = some r.2.place ∧ r.2.Single

theorem Goes.trans {c : StreamConverter} {r : List (StreamEvent α) × StreamConverter} {es : List (StreamEvent α)}
    {c' : StreamConverter} (h : Goes c r) (h' : Goes r.2 (es, c')) : Goes c (r.1 ++ es, c') := by
  refine ⟨?_, h'.2⟩
  rw [List.foldlM_append, h.1, Option.bind_eq_bind, Option.bind_some]
  exact h'.1

theorem goes_thinking {c : StreamConverter} (hs : c.Single) {t : Bytes} (ht : t ≠ [])
    (h : ¬ (c.thinkingStarted = false ∧ c.textStarted = true)) : Goes c (c.thinking (α := α) t) := by
  rw [StreamConverter.thinking]
  by_cases hdone : c.thinkingDone = true
  · rw [if_neg (by simp [hdone])]
    exact ⟨rfl, hs⟩
  · rw [if_pos ⟨ht, hdone⟩]
    rw [Bool.not_eq_true] at hdone
    by_cases hstarted : c.thinkingStarted = true
    · refine ⟨?_, fun htext _ => hs.one htext hstarted, fun _ => rfl⟩
      simp [StreamConverter.place, hstarted, hdone, Place.read]
    · have htext : ¬ c.textStarted = true := fun htext => h ⟨by simpa using hstarted, htext⟩
      refine ⟨?_, fun htext' => absurd htext' htext, fun _ => rfl⟩
      simp [StreamConverter.place, hstarted, hdone, htext, Place.read]

theorem goes_closeThinking {c : StreamConverter} (hs : c.Single) : Goes c (c.closeThinking (α := α)) ∧
    ((c.closeThinking (α := α)).2.thinkingStarted = true → (c.closeThinking (α := α)).2.thinkingDone = true) := by
  rw [StreamConverter.closeThinking]
  by_cases hopen : c.thinkingStarted = true ∧ ¬ c.thinkingDone = true
  · rw [if_pos hopen]
    have htext : ¬ c.textStarted = true := fun htext => hopen.2 (hs.one htext hopen.1)
    refine ⟨⟨?_, fun htext' => absurd htext' htext, fun _ => hopen.1⟩, fun _ => rfl⟩
    simp [StreamConverter.place, hopen, htext, Place.read]
  · rw [if_neg hopen]
    rw [not_and, not_not] at hopen
    exact ⟨⟨rfl, hs⟩, hopen⟩

theorem goes_text {c : StreamConverter} (hs : c.Single) (hclosed : c.thinkingStarted = true → c.thinkingDone = true) (t : Bytes) :
    Goes c ((if c.textStarted then [] else [.contentBlockStart c.contentIndex (.text [])]) ++
      [.contentBlockDelta (α := α) c.contentIndex (.text t)], { c with textStarted := true }) := by
  refine ⟨?_, fun _ => hclosed, hs.done⟩
  have hopen : ¬ (c.thinkingStarted = true ∧ c.thinkingDone = false) := fun h => by
    have := hclosed h.1
    rw [h.2] at this
    cases this
  by_cases htext : c.textStarted = true
  · simp [StreamConverter.place, htext, Place.read]
  · simp [StreamConverter.place, htext, hopen, Place.read]

theorem goes_closeText {c : StreamConverter} (hs : c.Single) : Goes c (c.closeText (α := α)) := by
  rw [StreamConverter.closeText]
  by_cases htext : c.textStarted = true
  · rw [if_pos htext]
    have hopen : ¬ (c.thinkingStarted = true ∧ c.thinkingDone = false) := fun h => by
      have := hs.one htext h.1
      rw [h.2] at this
      cases this
    refine ⟨?_, nofun, hs.done⟩
    simp [StreamConverter.place, htext, hopen, Place.read]
  · rw [if_neg htext]
    exact ⟨rfl, hs⟩

theorem goes_tool {c : StreamConverter} (hs : c.Single) (htext : c.textStarted = false)
    (hopen : ¬ (c.thinkingStarted = true ∧ c.thinkingDone = false)) (tc : ToolCall α) (argsJSON : Bytes) :
    Goes c ([.contentBlockStart c.contentIndex (.toolUse tc.id tc.name none),
        .contentBlockDelta (α := α) c.contentIndex (.inputJSON argsJSON), .contentBlockStop c.contentIndex],
      { c with toolCallsSent := tc.id :: c.toolCallsSent, contentIndex := c.contentIndex + 1 }) := by
  refine ⟨?_, hs.one, hs.done⟩
  simp [StreamConverter.place, htext, hopen, Place.read]

theorem read_right {i : Item α} {c : StreamConverter} (hs : c.Single) (hi : i.Proper) (h : ¬ i.Wrong marshal c) :
    Goes c (i.run marshal c) := by
  cases i with
  | thinking t => exact goes_thinking hs hi h
  | content t =>
    have ht : t ≠ [] := hi
    rw [Item.run, StreamConverter.content, if_pos ht]
    obtain ⟨hclose, hdone⟩ := goes_closeThinking (α := α) hs
    have := hclose.trans (goes_text hclose.2 hdone t)
    rwa [← List.append_assoc] at this
  | call tc =>
    rw [Item.run, StreamConverter.toolCall]
    by_cases hknown : c.toolCallsSent.contains tc.id = true
    · rw [if_pos hknown]
      exact ⟨rfl, hs⟩
    · rw [if_neg hknown]
      have hclose := goes_closeText (α := α) hs
      obtain ⟨htext, hstart, hdone, -⟩ := closeText_keeps (α := α) c
      cases hargs : marshal tc.arguments with
      | none => exact hclose
      | some argsJSON =>
        have hopen : ¬ (c.thinkingStarted = true ∧ c.thinkingDone = false) := fun hopen =>
          h ⟨by simpa using hknown, by simp [hargs], hopen⟩
        exact hclose.trans (goes_tool hclose.2 htext (by rwa [hstart, hdone]) tc argsJSON)

/-- What is open is closed at the end. -/
theorem read_finish (c : StreamConverter) {last : ChatResponse α} (hdone : last.done = true) :
    (c.finish last).1.foldlM Place.read c.place = some .stopped := by
  rw [StreamConverter.finish, if_pos hdone]
  by_cases htext : c.textStarted = true
  · simp [StreamConverter.place, htext, Place.read]
  · by_cases hopen : c.thinkingStarted = true ∧ c.thinkingDone = false
    · simp [StreamConverter.place, htext, hopen, Place.read]
    · simp [StreamConverter.place, htext, hopen, Place.read]

/-! ## Whole streams -/

/-- A step opens a block while one is open exactly if the items before say so. -/
theorem Flags.wrong_iff {is : List (Item α)} {c : StreamConverter} (h : Flags marshal is c) (i : Item α) :
    i.Wrong marshal c ↔ Clash marshal is i := by
  cases i with
  | thinking t =>
    rw [Item.Wrong, Clash, h.text, ← Bool.not_eq_true, h.started, not_exists]
  | content t => exact Iff.rfl
  | call tc => rw [Item.Wrong, Clash, h.sent, h.thinking]

/-- The events of a stream are well formed if and only if no item clashes with those before it. -/
theorem stream_wellFormed_iff (marshal : α → Option Bytes) (id model : Bytes) (estimated : Int) {rs : List (ChatResponse α)}
    (hrs : Complete rs) : WellFormed (stream marshal (newStreamConverter id model estimated) rs) ↔
      ∀ before i after, rs.flatMap items = before ++ i :: after → ¬ Clash marshal before i := by
  obtain ⟨message, tokens, last, -, hdone, hstream⟩ := stream_eq marshal id model estimated hrs
  have hproper : ∀ i ∈ rs.flatMap items, i.Proper := by
    intro i hi
    obtain ⟨r, -, hi⟩ := List.mem_flatMap.mp hi
    exact items_proper hi
  have hsingle : (begun id model estimated tokens).Single := ⟨nofun, nofun⟩
  have hwrong : Wrong (Item.run marshal) (Item.Wrong marshal) (rs.flatMap items) (begun id model estimated tokens) ↔
      ∃ before i after, rs.flatMap items = before ++ i :: after ∧ Clash marshal before i := by
    rw [wrong_iff]
    have hclash : ∀ before i after, rs.flatMap items = before ++ i :: after →
        (i.Wrong marshal (emitAll (Item.run marshal) before (begun id model estimated tokens)).2 ↔ Clash marshal before i) :=
      fun before i after heq => (flags_run fun j hj => hproper j (heq ▸ List.mem_append_left _ hj)).wrong_iff i
    constructor
    · rintro ⟨before, i, after, heq, h⟩
      exact ⟨before, i, after, heq, (hclash before i after heq).mp h⟩
    · rintro ⟨before, i, after, heq, h⟩
      exact ⟨before, i, after, heq, (hclash before i after heq).mpr h⟩
  rw [hstream, List.cons_append, wellFormed_iff, foldlM_cons_read, Place.read, Option.bind_some, List.foldlM_append]
  obtain ⟨hw, hread⟩ | ⟨hw, hread, -⟩ := foldlM_emitAll (Item.run marshal) (Item.Wrong marshal) StreamConverter.place
    (I := StreamConverter.Single) (fun i hi c hc h => read_wrong hc (hproper i hi) h)
    (fun i hi c hc h => read_right hc (hproper i hi) h) hsingle
  · rw [show Place.between 0 = (begun id model estimated tokens).place from rfl, hread]
    refine iff_of_false nofun fun h => ?_
    obtain ⟨before, i, after, heq, hclash⟩ := hwrong.mp hw
    exact h before i after heq hclash
  · rw [show Place.between 0 = (begun id model estimated tokens).place from rfl, hread, Option.bind_eq_bind, Option.bind_some]
    exact iff_of_true (read_finish _ hdone) fun before i after heq h => hw (hwrong.mpr ⟨before, i, after, heq, h⟩)

end

/-- An answer that is text only. -/
theorem greeting_wellFormed :
    WellFormed (stream (fun _ : Unit => some (ascii "\x7b\x7d")) (newStreamConverter (ascii "msg") (ascii "qwen3") 0)
      [{ message := { content := ascii "Hi" } }, { message := { content := ascii "!" }, done := true }]) := by
  refine (stream_wellFormed_iff (fun _ : Unit => some (ascii "\x7b\x7d")) (ascii "msg") (ascii "qwen3") 0
    ⟨[{ message := { content := ascii "Hi" } }], _, rfl, by simp, rfl⟩).mpr fun before i after heq => ?_
  have hi : i ∈ [Item.content (ascii "Hi"), Item.content (ascii "!")] := by
    have hmem : i ∈ before ++ i :: after := by simp
    rwa [← heq] at hmem
  simp only [List.mem_cons, List.not_mem_nil, or_false] at hi
  obtain rfl | rfl := hi <;> exact id

/-- A tool call behind thinking starts a block inside of the block of the thinking. -/
theorem thoughtCall_illFormed :
    Complete [{ message := { thinking := ascii "Look it up" } },
      ({ message := { toolCalls := [⟨ascii "call", ascii "search", ()⟩] }, done := true } : ChatResponse Unit)] ∧
    ¬ WellFormed (stream (fun _ : Unit => some (ascii "\x7b\x7d")) (newStreamConverter (ascii "msg") (ascii "qwen3") 0)
      [{ message := { thinking := ascii "Look it up" } },
        { message := { toolCalls := [⟨ascii "call", ascii "search", ()⟩] }, done := true }]) := by
  exact ⟨⟨[_], _, rfl, by simp, rfl⟩, by decide⟩

end Xdragon.Anthropic
