import Xdragon.Anthropic.Blocks

/-!
# One answer, streamed or not

A stream leaves out thinking that comes after content behind the first thinking, calls whose id was sent
already, and calls whose arguments cannot be marshalled. Nothing else differs from the single message.
-/

namespace Xdragon.Anthropic

open Xdragon.Lib

variable {α : Type}

/-- What an answer says; a tool use has its id, its name and its marshalled input. -/
structure Answer where
  thinking : Bytes := []
  text : Bytes := []
  toolUses : List (Bytes × Bytes × Option Bytes) := []
  stopReason : Bytes := []
  deriving DecidableEq

/-- More input for the last tool use. -/
def moreInput (partialJSON : Bytes) : List (Bytes × Bytes × Option Bytes) → List (Bytes × Bytes × Option Bytes)
  | [] => []
  | [(id, name, input)] => [(id, name, some (input.getD [] ++ partialJSON))]
  | use :: uses => use :: moreInput partialJSON uses

/-- The answer so far, with one more event. -/
def Answer.read (a : Answer) : StreamEvent α → Answer
  | .contentBlockStart _ (.toolUse id name _) => { a with toolUses := a.toolUses ++ [(id, name, none)] }
  | .contentBlockDelta _ (.thinking t) => { a with thinking := a.thinking ++ t }
  | .contentBlockDelta _ (.text t) => { a with text := a.text ++ t }
  | .contentBlockDelta _ (.inputJSON partialJSON) => { a with toolUses := moreInput partialJSON a.toolUses }
  | .messageDelta stopReason _ => { a with stopReason }
  | _ => a

/-- The blocks of a stream put together. -/
def reassemble (es : List (StreamEvent α)) : Answer := es.foldl Answer.read {}

/-- What a single message says. -/
def answerOf (marshal : α → Option Bytes) (m : MessagesResponse α) : Answer :=
  { thinking := m.content.flatMap fun | .thinking t => t | _ => []
    text := m.content.flatMap fun | .text t => t | _ => []
    toolUses := m.content.filterMap fun | .toolUse id name input => some (id, name, input.bind marshal) | _ => none
    stopReason := m.stopReason }

/-- All responses as a single one. -/
def merged (rs : List (ChatResponse α)) : ChatResponse α :=
  { rs.getLastD {} with
    message :=
      { thinking := rs.flatMap (·.message.thinking)
        content := rs.flatMap (·.message.content)
        toolCalls := rs.flatMap (·.message.toolCalls) } }

theorem moreInput_append (partialJSON : Bytes) (uses : List (Bytes × Bytes × Option Bytes)) (id name : Bytes) :
    moreInput partialJSON (uses ++ [(id, name, none)]) = uses ++ [(id, name, some partialJSON)] := by
  induction uses with
  | nil => rfl
  | cons use uses ih =>
    cases uses with
    | nil => rfl
    | cons use' uses =>
      rw [List.cons_append, List.cons_append, moreInput, ← List.cons_append, ih]
      · rfl
      · simp

/-! ## What an item gives -/

section
variable (marshal : α → Option Bytes)

def Item.thought : Item α → StreamConverter → Bytes
  | .thinking t, c => if c.thinkingDone then [] else t
  | .content _, _ => []
  | .call _, _ => []

def Item.said : Item α → Bytes
  | .thinking _ => []
  | .content t => t
  | .call _ => []

def Item.used : Item α → StreamConverter → List (Bytes × Bytes × Option Bytes)
  | .thinking _, _ => []
  | .content _, _ => []
  | .call tc, c =>
    if c.toolCallsSent.contains tc.id then []
    else (marshal tc.arguments).toList.map fun argsJSON => (tc.id, tc.name, some argsJSON)

/-- A run that emits what the items give of one kind. -/
def gained {β : Type} (gain : Item α → StreamConverter → List β) (i : Item α) (c : StreamConverter) : List β × StreamConverter :=
  (gain i c, (i.run marshal c).2)

theorem wrong_gained {β : Type} (gain : Item α → StreamConverter → List β) (wrong : Item α → StreamConverter → Prop)
    (is : List (Item α)) (c : StreamConverter) :
    Wrong (gained marshal gain) wrong is c ↔ Wrong (Item.run marshal) wrong is c := by
  have hstate : ∀ i c, (gained marshal gain i c).2 = (i.run marshal c).2 := fun _ _ => rfl
  exact wrong_congr hstate wrong is c

theorem closeThinking_read (c : StreamConverter) (a : Answer) :
    (c.closeThinking (α := α)).1.foldl Answer.read a = a := by
  unfold StreamConverter.closeThinking
  split_ifs <;> rfl

theorem closeText_read (c : StreamConverter) (a : Answer) : (c.closeText (α := α)).1.foldl Answer.read a = a := by
  unfold StreamConverter.closeText
  split_ifs <;> rfl

theorem run_read {i : Item α} (hi : i.Proper) (c : StreamConverter) (a : Answer) :
    (i.run marshal c).1.foldl Answer.read a = { a with
      thinking := a.thinking ++ i.thought c
      text := a.text ++ i.said
      toolUses := a.toolUses ++ i.used marshal c } := by
  cases i with
  | thinking t =>
    have ht : t ≠ [] := hi
    rw [Item.run, StreamConverter.thinking, Item.thought, Item.said, Item.used]
    by_cases hdone : c.thinkingDone = true
    · rw [if_neg (by simp [hdone]), if_pos hdone]
      simp
    · rw [if_pos ⟨ht, hdone⟩, if_neg hdone, List.foldl_append]
      by_cases hstarted : c.thinkingStarted = true
      · rw [if_pos hstarted]
        simp [Answer.read]
      · rw [if_neg hstarted]
        simp [Answer.read]
  | content t =>
    have ht : t ≠ [] := hi
    rw [Item.run, StreamConverter.content, if_pos ht, Item.thought, Item.said, Item.used]
    dsimp only
    rw [List.append_assoc, List.foldl_append, closeThinking_read, List.foldl_append]
    by_cases htext : (c.closeThinking (α := α)).2.textStarted = true
    · rw [if_pos htext]
      simp [Answer.read]
    · rw [if_neg htext]
      simp [Answer.read]
  | call tc =>
    rw [Item.run, StreamConverter.toolCall, Item.thought, Item.said, Item.used]
    by_cases hknown : c.toolCallsSent.contains tc.id = true
    · rw [if_pos hknown, if_pos hknown]
      simp
    · rw [if_neg hknown, if_neg hknown]
      cases hargs : marshal tc.arguments with
      | none =>
        dsimp only
        rw [closeText_read]
        simp
      | some argsJSON =>
        dsimp only
        rw [List.foldl_append, closeText_read]
        simp [Answer.read, moreInput_append]

theorem emitAll_read {is : List (Item α)} (his : ∀ i ∈ is, i.Proper) (c : StreamConverter) (a : Answer) :
    (emitAll (Item.run marshal) is c).1.foldl Answer.read a = { a with
      thinking := a.thinking ++ (emitAll (gained marshal Item.thought) is c).1
      text := a.text ++ is.flatMap Item.said
      toolUses := a.toolUses ++ (emitAll (gained marshal (Item.used marshal)) is c).1 } := by
  induction is generalizing c a with
  | nil => simp
  | cons i is ih =>
    rw [emitAll_cons, List.foldl_append, run_read marshal (his i (List.mem_cons_self ..)),
      ih fun j hj => his j (List.mem_cons_of_mem _ hj)]
    simp [emitAll_cons, gained]

/-! ## What is left out -/

/-- Thinking after content behind the first thinking. -/
def Item.Late : Item α → StreamConverter → Prop
  | .thinking _, c => c.thinkingDone = true
  | .content _, _ => False
  | .call _, _ => False

/-- A call whose id was sent, or whose arguments cannot be marshalled. -/
def Item.Skipped : Item α → StreamConverter → Prop
  | .thinking _, _ => False
  | .content _, _ => False
  | .call tc, c => tc.id ∈ c.toolCallsSent ∨ marshal tc.arguments = none

def Item.allThinking : Item α → Bytes
  | .thinking t => t
  | .content _ => []
  | .call _ => []

def Item.allUses : Item α → List (Bytes × Bytes × Option Bytes)
  | .thinking _ => []
  | .content _ => []
  | .call tc => [(tc.id, tc.name, marshal tc.arguments)]

theorem thinking_eq_iff {is : List (Item α)} (his : ∀ i ∈ is, i.Proper) (c : StreamConverter) :
    (emitAll (gained marshal Item.thought) is c).1 = is.flatMap Item.allThinking ↔
      ¬ Wrong (Item.run marshal) Item.Late is c := by
  refine (emitAll_eq_iff ?_ ?_ c).trans (not_congr (wrong_gained marshal _ _ is c))
  · intro i _ c hlate
    cases i with
    | thinking t => exact if_neg hlate
    | content t => rfl
    | call tc => rfl
  · intro i hi c hlate
    cases i with
    | thinking t =>
      have hdone : c.thinkingDone = true := hlate
      rw [gained, Item.thought, if_pos hdone]
      exact List.length_pos_iff_ne_nil.mpr (his _ hi)
    | content t => exact hlate.elim
    | call tc => exact hlate.elim

theorem uses_eq_iff {is : List (Item α)} (c : StreamConverter) :
    (emitAll (gained marshal (Item.used marshal)) is c).1 = is.flatMap (Item.allUses marshal) ↔
      ¬ Wrong (Item.run marshal) (Item.Skipped marshal) is c := by
  refine (emitAll_eq_iff ?_ ?_ c).trans (not_congr (wrong_gained marshal _ _ is c))
  · intro i _ c hskipped
    cases i with
    | thinking t => rfl
    | content t => rfl
    | call tc =>
      rw [Item.Skipped, not_or] at hskipped
      obtain ⟨argsJSON, hargs⟩ := Option.ne_none_iff_exists'.mp hskipped.2
      rw [gained, Item.used, if_neg (by simpa using hskipped.1), Item.allUses, hargs]
      rfl
  · intro i _ c hskipped
    cases i with
    | thinking t => exact hskipped.elim
    | content t => exact hskipped.elim
    | call tc =>
      have hnone : Item.used marshal (.call tc) c = [] := by
        rw [Item.used]
        obtain h | h := hskipped
        · rw [if_pos (by simpa using h)]
        · rw [h]
          simp
      rw [gained, hnone, Item.allUses]
      exact Nat.zero_lt_one

end

/-! ## Whole answers -/

/-- Content has come behind thinking. -/
def ThinkingClosed (is : List (Item α)) : Prop :=
  ∃ x c y, is = x ++ .content c :: y ∧ ∃ t, .thinking t ∈ x

section
variable {marshal : α → Option Bytes}

theorem thinkingClosed_content {is : List (Item α)} {c : Bytes} :
    ThinkingClosed (is ++ [.content c]) ↔ ∃ t, .thinking t ∈ is := by
  constructor
  · rintro ⟨x, c', y, h, t, ht⟩
    obtain ⟨rfl, -, -⟩ | ⟨y', rfl, rfl⟩ := split_snoc.mp h
    · exact ⟨t, ht⟩
    · exact ⟨t, List.mem_append_left _ ht⟩
  · rintro ⟨t, ht⟩
    exact ⟨is, c, [], rfl, t, ht⟩

theorem thinkingClosed_other {is : List (Item α)} {i : Item α} (hi : ∀ c, i ≠ .content c) :
    ThinkingClosed (is ++ [i]) ↔ ThinkingClosed is := by
  constructor
  · rintro ⟨x, c, y, h, ht⟩
    obtain ⟨-, h, -⟩ | ⟨y', rfl, rfl⟩ := split_snoc.mp h
    · exact absurd h.symm (hi c)
    · exact ⟨x, c, y', rfl, ht⟩
  · rintro ⟨x, c, y, rfl, ht⟩
    exact ⟨x, c, y ++ [i], by simp, ht⟩

theorem done_iff {id model : Bytes} {estimated tokens : Int} {is : List (Item α)} (his : ∀ i ∈ is, i.Proper) :
    (emitAll (Item.run marshal) is (begun id model estimated tokens)).2.thinkingDone = true ↔ ThinkingClosed is := by
  induction is using List.reverseRecOn with
  | nil =>
    refine iff_of_false (by simp [begun]) ?_
    rintro ⟨x, c, y, h, -⟩
    simp at h
  | append_singleton is i ih =>
    have hbefore := ih fun j hj => his j (List.mem_append_left _ hj)
    have hflags : Flags marshal is (emitAll (Item.run marshal) is (begun id model estimated tokens)).2 :=
      flags_run fun j hj => his j (List.mem_append_left _ hj)
    have hi := his i (by simp)
    rw [emitAll_append, emitAll_cons, emitAll_nil]
    dsimp only
    generalize (emitAll (Item.run marshal) is (begun id model estimated tokens)).2 = c at hbefore hflags ⊢
    cases i with
    | thinking t =>
      rw [thinkingClosed_other (by simp), ← hbefore, Item.run, StreamConverter.thinking]
      split_ifs <;> rfl
    | content t =>
      have ht : t ≠ [] := hi
      rw [thinkingClosed_content, ← hflags.started, Item.run, StreamConverter.content, if_pos ht,
        StreamConverter.closeThinking]
      by_cases hopen : c.thinkingStarted = true ∧ ¬ c.thinkingDone = true
      · rw [if_pos hopen]
        exact iff_of_true rfl hopen.1
      · rw [if_neg hopen]
        rw [not_and, not_not] at hopen
        exact ⟨hflags.done, hopen⟩
    | call tc =>
      obtain ⟨-, -, hdone, -⟩ := closeText_keeps (α := α) c
      rw [thinkingClosed_other (by simp), ← hbefore, ← hdone, Item.run, StreamConverter.toolCall]
      split_ifs
      · rw [hdone]
      · cases marshal tc.arguments <;> rfl

theorem foldl_finish {c : StreamConverter} {last : ChatResponse α} (hdone : last.done = true) (a : Answer) :
    (c.finish last).1.foldl Answer.read a =
      { a with stopReason := mapStopReason last.doneReason (c.toolCallsSent.length > 0) } := by
  rw [StreamConverter.finish, if_pos hdone]
  split_ifs <;> rfl

variable (marshal) in
theorem items_totals (r : ChatResponse α) :
    (items r).flatMap Item.allThinking = r.message.thinking ∧ (items r).flatMap Item.said = r.message.content ∧
    (items r).flatMap (Item.allUses marshal) = r.message.toolCalls.map fun tc => (tc.id, tc.name, marshal tc.arguments) := by
  have hthinking : ∀ tcs : List (ToolCall α), (tcs.map Item.call).flatMap Item.allThinking = [] := by
    simp [List.flatMap_map, Item.allThinking]
  have hsaid : ∀ tcs : List (ToolCall α), (tcs.map Item.call).flatMap Item.said = [] := by
    simp [List.flatMap_map, Item.said]
  have huses : ∀ tcs : List (ToolCall α), (tcs.map Item.call).flatMap (Item.allUses marshal) =
      tcs.map fun tc => (tc.id, tc.name, marshal tc.arguments) := by
    intro tcs
    rw [List.flatMap_map, List.map_eq_flatMap]
    rfl
  unfold items
  rw [List.flatMap_append, List.flatMap_append, List.flatMap_append, List.flatMap_append, List.flatMap_append,
    List.flatMap_append, hthinking, hsaid, huses]
  refine ⟨?_, ?_, ?_⟩ <;> split_ifs with h1 h2 h2 <;> simp_all [Item.allThinking, Item.said, Item.allUses]

theorem answerOf_single (id : Bytes) (r : ChatResponse α) : answerOf marshal (toMessagesResponse id r) =
    { thinking := r.message.thinking
      text := r.message.content
      toolUses := r.message.toolCalls.map fun tc => (tc.id, tc.name, marshal tc.arguments)
      stopReason := mapStopReason r.doneReason (r.message.toolCalls.length > 0) } := by
  unfold answerOf toMessagesResponse
  dsimp only
  rw [List.flatMap_append, List.flatMap_append, List.flatMap_append, List.flatMap_append, List.filterMap_append,
    List.filterMap_append, List.flatMap_map, List.flatMap_map, List.filterMap_map]
  congr 1
  · split_ifs <;> simp_all
  · split_ifs <;> simp_all
  · split_ifs <;> simp

theorem answerOf_merged (id : Bytes) {rs : List (ChatResponse α)} {last : ChatResponse α} (hlast : last ∈ rs.getLast?) :
    answerOf marshal (toMessagesResponse id (merged rs)) =
      { thinking := (rs.flatMap items).flatMap Item.allThinking
        text := (rs.flatMap items).flatMap Item.said
        toolUses := (rs.flatMap items).flatMap (Item.allUses marshal)
        stopReason := mapStopReason last.doneReason
          (((rs.flatMap items).flatMap (Item.allUses marshal)).length > 0 : Bool) } := by
  have hthinking : (rs.flatMap items).flatMap Item.allThinking = rs.flatMap (·.message.thinking) := by
    rw [List.flatMap_assoc]
    exact List.flatMap_congr fun r _ => (items_totals marshal r).1
  have hsaid : (rs.flatMap items).flatMap Item.said = rs.flatMap (·.message.content) := by
    rw [List.flatMap_assoc]
    exact List.flatMap_congr fun r _ => (items_totals marshal r).2.1
  have huses : (rs.flatMap items).flatMap (Item.allUses marshal) =
      (rs.flatMap (·.message.toolCalls)).map fun tc => (tc.id, tc.name, marshal tc.arguments) := by
    rw [List.flatMap_assoc, List.map_flatMap]
    exact List.flatMap_congr fun r _ => (items_totals marshal r).2.2
  have hreason : (merged rs).doneReason = last.doneReason := by
    rw [merged, List.getLastD_eq_getLast?, Option.mem_def.mp hlast]
    rfl
  rw [answerOf_single, hreason, hthinking, hsaid, huses, List.length_map]
  rfl

theorem late_iff {id model : Bytes} {estimated tokens : Int} {is : List (Item α)} (his : ∀ i ∈ is, i.Proper) :
    ¬ Wrong (Item.run marshal) Item.Late is (begun id model estimated tokens) ↔
      ∀ before t after, is = before ++ .thinking t :: after → ¬ ThinkingClosed before := by
  have hdone : ∀ before i after, is = before ++ i :: after →
      ((emitAll (Item.run marshal) before (begun id model estimated tokens)).2.thinkingDone = true ↔ ThinkingClosed before) :=
    fun before i after heq => done_iff fun j hj => his j (heq ▸ List.mem_append_left _ hj)
  rw [wrong_iff]
  constructor
  · intro h before t after heq hclosed
    exact h ⟨before, _, after, heq, (hdone before _ after heq).mpr hclosed⟩
  · rintro h ⟨before, i, after, heq, hlate⟩
    cases i with
    | thinking t => exact h before t after heq ((hdone before _ after heq).mp hlate)
    | content t => exact hlate
    | call tc => exact hlate

theorem skipped_iff {id model : Bytes} {estimated tokens : Int} {is : List (Item α)} (his : ∀ i ∈ is, i.Proper) :
    ¬ Wrong (Item.run marshal) (Item.Skipped marshal) is (begun id model estimated tokens) ↔
      ∀ before tc after, is = before ++ .call tc :: after →
        (marshal tc.arguments).isSome = true ∧ ∀ tc', .call tc' ∈ before → tc'.id ≠ tc.id := by
  have hsent : ∀ before i after, is = before ++ i :: after → ∀ x,
      (x ∈ (emitAll (Item.run marshal) before (begun id model estimated tokens)).2.toolCallsSent ↔ Sent marshal before x) :=
    fun before i after heq => (flags_run fun j hj => his j (heq ▸ List.mem_append_left _ hj)).sent
  rw [wrong_iff]
  constructor
  · intro h
    have hsome : ∀ before tc after, is = before ++ .call tc :: after → (marshal tc.arguments).isSome = true := by
      intro before tc after heq
      by_contra hnone
      rw [Bool.not_eq_true, Option.isSome_eq_false_iff, Option.isNone_iff_eq_none] at hnone
      exact h ⟨before, _, after, heq, .inr hnone⟩
    refine fun before tc after heq => ⟨hsome before tc after heq, fun tc' htc' hid => ?_⟩
    obtain ⟨x, y, rfl⟩ := List.append_of_mem htc'
    have hsome' := hsome x tc' (y ++ .call tc :: after) (by rw [heq, List.append_assoc, List.cons_append])
    exact h ⟨_, _, after, heq, .inl ((hsent _ _ after heq _).mpr ⟨tc', htc', hsome', hid⟩)⟩
  · rintro h ⟨before, i, after, heq, hskipped⟩
    cases i with
    | thinking t => exact hskipped
    | content t => exact hskipped
    | call tc =>
      obtain ⟨hsome, hids⟩ := h before tc after heq
      obtain hskipped | hnone := hskipped
      · obtain ⟨tc', htc', -, hid⟩ := (hsent before _ after heq _).mp hskipped
        exact hids tc' htc' hid
      · rw [hnone] at hsome
        cases hsome

/-- A stream says what the single message says if and only if no thinking comes after content behind thinking, all
arguments can be marshalled, and no id comes twice. -/
theorem answers_agree_iff (marshal : α → Option Bytes) (id model : Bytes) (estimated : Int) {rs : List (ChatResponse α)}
    (hrs : Complete rs) :
    reassemble (stream marshal (newStreamConverter id model estimated) rs) =
        answerOf marshal (toMessagesResponse id (merged rs)) ↔
      (∀ before t after, rs.flatMap items = before ++ .thinking t :: after → ¬ ThinkingClosed before) ∧
      ∀ before tc after, rs.flatMap items = before ++ .call tc :: after →
        (marshal tc.arguments).isSome = true ∧ ∀ tc', .call tc' ∈ before → tc'.id ≠ tc.id := by
  obtain ⟨message, tokens, last, hlast, hdone, hstream⟩ := stream_eq marshal id model estimated hrs
  have hproper : ∀ i ∈ rs.flatMap items, i.Proper := by
    intro i hi
    obtain ⟨r, -, hi⟩ := List.mem_flatMap.mp hi
    exact items_proper hi
  generalize hc : begun id model estimated tokens = c at hstream
  have hlate : ¬ Wrong (Item.run marshal) Item.Late (rs.flatMap items) c ↔ _ := hc ▸ late_iff hproper
  have hskipped : ¬ Wrong (Item.run marshal) (Item.Skipped marshal) (rs.flatMap items) c ↔ _ := hc ▸ skipped_iff hproper
  have hflags : Flags marshal (rs.flatMap items) (emitAll (Item.run marshal) (rs.flatMap items) c).2 := hc ▸ flags_run hproper
  rw [← hlate, ← hskipped, ← thinking_eq_iff marshal hproper, ← uses_eq_iff marshal, answerOf_merged id hlast, reassemble,
    hstream, List.cons_append, List.foldl_cons, List.foldl_append, emitAll_read marshal hproper, foldl_finish hdone,
    Answer.mk.injEq]
  constructor
  · rintro ⟨hthinking, -, huses, -⟩
    exact ⟨hthinking, huses⟩
  · rintro ⟨hthinking, huses⟩
    refine ⟨hthinking, rfl, huses, ?_⟩
    -- calls were sent if there are any
    have hsent : (emitAll (Item.run marshal) (rs.flatMap items) c).2.toolCallsSent = [] ↔
        (rs.flatMap items).flatMap (Item.allUses marshal) = [] := by
      rw [List.eq_nil_iff_forall_not_mem]
      simp only [hflags.sent]
      rw [List.flatMap_eq_nil_iff]
      have hsome := hskipped.mp ((uses_eq_iff marshal c).mp huses)
      constructor
      · intro hnone i hi
        cases i with
        | thinking t => rfl
        | content t => rfl
        | call tc =>
          obtain ⟨before, after, heq⟩ := List.append_of_mem hi
          exact absurd ⟨tc, hi, (hsome before tc after heq).1, rfl⟩ (hnone tc.id)
      · rintro hnone x ⟨tc, htc, -, -⟩
        cases hnone _ htc
    rw [decide_eq_decide.mpr]
    rw [gt_iff_lt, gt_iff_lt, List.length_pos_iff_ne_nil, List.length_pos_iff_ne_nil]
    exact not_congr hsent

end

/-- An answer in two pieces. -/
theorem greeting_agrees :
    let rs : List (ChatResponse Unit) :=
      [{ message := { content := ascii "Hi" } }, { message := { content := ascii "!" }, done := true, doneReason := ascii "stop" }]
    reassemble (stream (fun _ => some (ascii "\x7b\x7d")) (newStreamConverter (ascii "msg") (ascii "qwen3") 0) rs) =
      answerOf (fun _ => some (ascii "\x7b\x7d")) (toMessagesResponse (ascii "msg") (merged rs)) := by
  intro rs
  have hmem : ∀ before (i : Item Unit) after, rs.flatMap items = before ++ i :: after →
      i = .content (ascii "Hi") ∨ i = .content (ascii "!") := by
    intro before i after heq
    have hi : i ∈ before ++ i :: after := by simp
    rw [← heq] at hi
    simpa [rs, items, show ascii "Hi" ≠ [] by decide, show ascii "!" ≠ [] by decide] using hi
  refine (answers_agree_iff _ (ascii "msg") (ascii "qwen3") 0 ⟨[_], _, rfl, by simp, rfl⟩).mpr
    ⟨fun before t after heq => ?_, fun before tc after heq => ?_⟩
  · obtain h | h := hmem before _ after heq <;> cases h
  · obtain h | h := hmem before _ after heq <;> cases h

/-- Thinking that goes on after content is not streamed. -/
theorem afterthought_differs :
    let rs : List (ChatResponse Unit) :=
      [{ message := { thinking := ascii "a", content := ascii "b" } }, { message := { thinking := ascii "c" }, done := true }]
    Complete rs ∧
    reassemble (stream (fun _ => some (ascii "\x7b\x7d")) (newStreamConverter (ascii "msg") (ascii "qwen3") 0) rs) ≠
      answerOf (fun _ => some (ascii "\x7b\x7d")) (toMessagesResponse (ascii "msg") (merged rs)) := by
  exact ⟨⟨[_], _, rfl, by simp, rfl⟩, by decide⟩

end Xdragon.Anthropic
