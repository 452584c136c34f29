import Xdragon.Anthropic.Blocks
import Xdragon.Anthropic.WebSearch

/-!
# A stream with a search is one stream

What the writer notes about the events that pass is where the reader of the stream is. The result of the loop
therefore goes on where the converter has stopped, with the index that is next.
-/

namespace Xdragon.Anthropic

open Xdragon.Lib

variable {α : Type}

/-! ## What is claimed -/

/-- A block as it is written. -/
structure WrittenBlock (α : Type) where
  content : Content α
  deltas : List Delta

def Content.start (index : Nat) : Content α → Written α
  | .converted block => .event (.contentBlockStart index block)
  | .server block => .serverBlockStart index block

def WrittenBlock.events (index : Nat) (b : WrittenBlock α) : List (Written α) :=
  b.content.start index :: b.deltas.map (fun d => .event (.contentBlockDelta index d)) ++ [.event (.contentBlockStop index)]

/-- Blocks one after another, from an index on. -/
def writtenBlocks : Nat → List (WrittenBlock α) → List (Written α)
  | _, [] => []
  | index, b :: bs => b.events index ++ writtenBlocks (index + 1) bs

/-- The events so far could be the start of a well-formed stream. -/
def SoFar (es : List (StreamEvent α)) : Prop := es.foldlM Place.read .start ≠ none

instance (es : List (StreamEvent α)) : Decidable (SoFar es) :=
  inferInstanceAs (Decidable (es.foldlM Place.read .start ≠ none))

/-- The chunk calls no search. -/
def passes (r : ChatResponse α) : Bool := (findWebSearchToolCall r.message.toolCalls).isNone

/-- The largest counts of the chunks. -/
def largest (rs : List (ChatResponse α)) (u : Usage) : Usage :=
  rs.foldl (fun u r => ⟨max u.inputTokens r.metrics.promptEvalCount, max u.outputTokens r.metrics.evalCount⟩) u

/-- The counts of all responses on top of others. -/
def tally (rs : List (ChatResponse α)) (u : Usage) : Usage := rs.foldl (fun u r => u.add r.metrics) u

/-- The follow-up responses that come when a chunk starts the loop with a call. -/
def World.received (w : World α) (r : ChatResponse α) (call : ToolCall α) : List (ChatResponse α) :=
  (w.runWebSearchLoop r call ⟨0, 0⟩).received

/-! ## Usage -/

theorem largest_append (rs rs' : List (ChatResponse α)) (u : Usage) : largest (rs ++ rs') u = largest rs' (largest rs u) :=
  List.foldl_append ..

def LoopResult.usage (l : LoopResult α) : Usage :=
  match l.result with
  | .error e => e.usage
  | .ok r => r.usage

theorem rounds_usage (w : World α) (left loop : Nat) (r : ChatResponse α) (call : ToolCall α) (messages : List (FollowUp α))
    (serverContent : List (Content α)) (usage : Usage) :
    (w.rounds left loop r call messages serverContent usage).received =
        (w.rounds left loop r call messages serverContent ⟨0, 0⟩).received ∧
      (w.rounds left loop r call messages serverContent usage).usage =
        tally (w.rounds left loop r call messages serverContent ⟨0, 0⟩).received usage := by
  induction left generalizing loop r call messages serverContent usage with
  | zero => exact ⟨rfl, rfl⟩
  | succ left ih =>
    unfold World.rounds
    dsimp only
    split
    · exact ⟨rfl, rfl⟩
    split
    · exact ⟨rfl, rfl⟩
    split
    · exact ⟨rfl, rfl⟩
    rename_i followUp _
    split
    · exact ⟨rfl, rfl⟩
    · rename_i next _
      obtain ⟨hreceived, husage⟩ := ih (loop + 1) followUp next _ _ (usage.add followUp.metrics)
      obtain ⟨hreceived', -⟩ := ih (loop + 1) followUp next _ _ (Usage.add ⟨0, 0⟩ followUp.metrics)
      refine ⟨by rw [hreceived, hreceived'], ?_⟩
      rw [hreceived']
      exact husage

/-! ## What the writer notes -/

def Place.Open : Place → Prop
  | .start | .between _ | .inside _ => True
  | _ => False

/-- The index of the next block, once the open one is closed. -/
def Place.next : Place → Nat
  | .between n => n
  | .inside n => n + 1
  | _ => 0

/-- The events that close the open block. -/
def Place.close : Place → List (StreamEvent α)
  | .inside n => [.contentBlockStop n]
  | _ => []

structure Tracks (s : SearchWriter α) (p : Place) : Prop where
  started : s.messageStarted = true ↔ p ≠ .start
  opened : s.hasOpenBlock = true ↔ ∃ n, p = .inside n
  index : ∀ n, p = .inside n → s.openBlockIndex = n
  next : p.Open → s.nextIndex = p.next
  sent : s.terminalSent = true ↔ p = .stopped

theorem Tracks.note {s : SearchWriter α} {p q : Place} {e : StreamEvent α} (h : Tracks s p) (hread : p.read e = some q) :
    Tracks (s.note e) q := by
  unfold Place.read at hread
  split at hread
  · obtain rfl := Option.some.inj hread
    exact ⟨by simp [SearchWriter.note], by simpa [SearchWriter.note] using h.opened, by simp, fun _ => h.next trivial,
      by simpa [SearchWriter.note] using h.sent⟩
  · rename_i n i b
    split at hread
    · rename_i hi
      obtain rfl := Option.some.inj hread
      subst hi
      have hnext : s.nextIndex = i := h.next trivial
      refine ⟨by simpa [SearchWriter.note] using h.started, by simp [SearchWriter.note], by simp [SearchWriter.note], ?_,
        by simpa [SearchWriter.note] using h.sent⟩
      intro _
      simp [SearchWriter.note, Place.next, hnext]
    · cases hread
  · split at hread
    · obtain rfl := Option.some.inj hread
      exact h
    · cases hread
  · rename_i n i
    split at hread
    · rename_i hi
      obtain rfl := Option.some.inj hread
      subst hi
      have hnext : s.nextIndex = i + 1 := h.next trivial
      have hindex : s.openBlockIndex = i := h.index i rfl
      refine ⟨by simpa [SearchWriter.note] using h.started, by simp [SearchWriter.note, hindex], by simp, ?_,
        by simpa [SearchWriter.note] using h.sent⟩
      intro _
      simp [SearchWriter.note, Place.next, hnext]
    · cases hread
  · obtain rfl := Option.some.inj hread
    exact ⟨by simpa [SearchWriter.note] using h.started, by simpa [SearchWriter.note] using h.opened, by simp, False.elim,
      by simpa [SearchWriter.note] using h.sent⟩
  · obtain rfl := Option.some.inj hread
    exact ⟨by simpa [SearchWriter.note] using h.started, by simpa [SearchWriter.note] using h.opened, by simp, False.elim,
      by simp [SearchWriter.note]⟩
  · cases hread

/-- What is noted about all events that the reader reads. -/
theorem Tracks.notes {s : SearchWriter α} {p q : Place} {es : List (StreamEvent α)} (h : Tracks s p)
    (hread : es.foldlM Place.read p = some q) : Tracks (es.foldl SearchWriter.note s) q := by
  induction es generalizing s p with
  | nil =>
    obtain rfl : p = q := Option.some.inj hread
    exact h
  | cons e es ih =>
    rw [foldlM_cons_read, Option.bind_eq_some_iff] at hread
    obtain ⟨t, ht, hread⟩ := hread
    exact ih (h.note ht) hread

/-! ## The blocks that have passed -/

theorem writtenBlocks_append (index : Nat) (bs cs : List (WrittenBlock α)) :
    writtenBlocks index (bs ++ cs) = writtenBlocks index bs ++ writtenBlocks (index + bs.length) cs := by
  induction bs generalizing index with
  | nil => rfl
  | cons b bs ih =>
    rw [List.cons_append, writtenBlocks, ih, writtenBlocks, List.append_assoc, List.length_cons]
    congr 3
    omega

theorem map_blockEvents (index : Nat) (bs : List (Block α)) : (blockEvents index bs).map .event =
    writtenBlocks index (bs.map fun b => ⟨.converted b.contentBlock, b.deltas⟩) := by
  induction bs generalizing index with
  | nil => rfl
  | cons b bs ih =>
    rw [blockEvents, List.map_append, ih, List.map_cons, writtenBlocks]
    simp [Block.events, WrittenBlock.events, Content.start]

/-- How a block of a response is written. -/
def Content.written : Content α → WrittenBlock α
  | .converted (.text text) => ⟨.converted (.text []), [.text text]⟩
  | c => ⟨c, []⟩

theorem writeStreamContentBlocks_eq (index : Nat) (content : List (Content α)) :
    SearchWriter.writeStreamContentBlocks index content = writtenBlocks index (content.map Content.written) := by
  induction content generalizing index with
  | nil => rfl
  | cons c content ih =>
    rw [SearchWriter.writeStreamContentBlocks, ih, List.map_cons, writtenBlocks]
    congr 1
    rcases c with block | block
    · rfl
    · cases block <;> rfl

/-- Blocks that are read one after another. -/
theorem read_blockEvents (index : Nat) (bs : List (Block α)) :
    (blockEvents index bs).foldlM Place.read (.between index) = some (.between (index + bs.length)) := by
  induction bs generalizing index with
  | nil => rfl
  | cons b bs ih =>
    have hdeltas : ∀ ds : List Delta,
        (ds.map (StreamEvent.contentBlockDelta (α := α) index)).foldlM Place.read (.inside index) = some (.inside index) := by
      intro ds
      induction ds with
      | nil => rfl
      | cons d ds ihd =>
        rw [List.map_cons, foldlM_cons_read, Place.read, if_pos rfl, Option.bind_some]
        exact ihd
    have hb : (b.events index).foldlM Place.read (.between index) = some (.between (index + 1)) := by
      rw [Block.events, List.cons_append, foldlM_cons_read, Place.read, if_pos rfl, Option.bind_some, List.foldlM_append,
        hdeltas]
      simp [Place.read]
    rw [blockEvents, List.foldlM_append, hb, Option.bind_eq_bind, Option.bind_some, ih, List.length_cons]
    congr 2
    omega

theorem read_ne_start {p q : Place} {e : StreamEvent α} (h : p.read e = some q) : q ≠ .start := by
  rintro rfl
  unfold Place.read at h
  repeat' split at h
  all_goals cases h

theorem reads_ne_start {p q : Place} {es : List (StreamEvent α)} (hp : p ≠ .start) (h : es.foldlM Place.read p = some q) :
    q ≠ .start := by
  induction es generalizing p with
  | nil =>
    obtain rfl : p = q := Option.some.inj h
    exact hp
  | cons e es ih =>
    rw [foldlM_cons_read, Option.bind_eq_some_iff] at h
    obtain ⟨t, ht, h⟩ := h
    exact ih (read_ne_start ht) h

/-- The open block is closed. -/
theorem read_close {es : List (StreamEvent α)} {p : Place} (hread : es.foldlM Place.read .start = some p) (hopen : p.Open)
    (hne : p ≠ .start) : (es ++ p.close).foldlM Place.read .start = some (.between p.next) := by
  rw [List.foldlM_append, hread, Option.bind_eq_bind, Option.bind_some]
  cases p with
  | start => exact absurd rfl hne
  | between n => rfl
  | inside n => simp [Place.close, Place.read, Place.next]
  | ended => exact hopen.elim
  | stopped => exact hopen.elim

/-- Once the open block is closed, the events so far are the start of a message and its blocks. -/
theorem passed_blocks {es : List (StreamEvent α)} {p : Place} (hread : es.foldlM Place.read .start = some p) (hopen : p.Open)
    (hne : p ≠ .start) :
    ∃ message blocks, es ++ p.close = .messageStart message :: blockEvents 0 blocks ∧ blocks.length = p.next := by
  have hclose := read_close hread hopen hne
  have hwell : WellFormed (es ++ p.close ++ [.messageDelta [] ⟨0, 0⟩, .messageStop]) := by
    rw [wellFormed_iff, List.foldlM_append, hclose]
    rfl
  obtain ⟨message, blocks, stopReason, usage, heq⟩ := hwell
  obtain ⟨heq, -⟩ := List.append_inj' heq rfl
  refine ⟨message, blocks, heq, ?_⟩
  rw [heq, foldlM_cons_read, Place.read, Option.bind_some, read_blockEvents, Option.some.injEq, Place.between.injEq] at hclose
  omega

/-- A reader at the start has read nothing. -/
theorem read_start {es : List (StreamEvent α)} (hread : es.foldlM Place.read .start = some .start) : es = [] := by
  cases es with
  | nil => rfl
  | cons e es =>
    rw [foldlM_cons_read, Option.bind_eq_some_iff] at hread
    obtain ⟨t, ht, hread⟩ := hread
    exact absurd rfl (reads_ne_start (read_ne_start ht) hread)

/-! ## The result of the loop -/

/-- The events that have passed, and those of the response behind them. -/
theorem writeTerminalResponse_spec (w : World α) {s : SearchWriter α} {es : List (StreamEvent α)} {p : Place}
    (hread : es.foldlM Place.read .start = some p) (hopen : p.Open) (htracks : Tracks s p) (r : SearchedResponse α) :
    ∃ message blocks, es.map .event ++ (s.writeTerminalResponse w r).1 = .event (.messageStart message) ::
      writtenBlocks 0 blocks ++ [.event (.messageDelta r.stopReason r.usage), .event .messageStop] := by
  have hsent : ¬ s.terminalSent = true := by
    rw [htracks.sent]
    rintro rfl
    exact hopen
  unfold SearchWriter.writeTerminalResponse SearchWriter.ensureStreamMessageStart SearchWriter.closeOpenStreamBlock
  rw [if_neg hsent]
  simp only [writeStreamContentBlocks_eq]
  by_cases hstart : p = .start
  · subst hstart
    obtain rfl := read_start hread
    have hclosed : ¬ s.hasOpenBlock = true := by
      rw [htracks.opened]
      simp
    have hnew : ¬ s.messageStarted = true := by
      rw [htracks.started]
      simp
    have hnext : s.nextIndex = 0 := htracks.next trivial
    rw [if_neg hclosed, if_neg hnew, hnext]
    exact ⟨_, _, rfl⟩
  · obtain ⟨message, blocks, heq, hlength⟩ := passed_blocks hread hopen hstart
    have hstarted : s.messageStarted = true := htracks.started.mpr hstart
    have hclose : (if s.hasOpenBlock = true then
        (([.event (.contentBlockStop s.openBlockIndex)] : List (Written α)), max s.nextIndex (s.openBlockIndex + 1))
        else ([], s.nextIndex)) = (p.close.map .event, p.next) := by
      have hnext := htracks.next hopen
      cases p with
      | start => exact absurd rfl hstart
      | between n =>
        have hclosed : ¬ s.hasOpenBlock = true := by
          rw [htracks.opened]
          simp
        rw [if_neg hclosed, hnext]
        rfl
      | inside n =>
        rw [if_pos (htracks.opened.mpr ⟨n, rfl⟩), hnext, htracks.index n rfl, Place.next, Nat.max_self]
        rfl
      | ended => exact hopen.elim
      | stopped => exact hopen.elim
    rw [if_pos hstarted, hclose]
    refine ⟨message, blocks.map (fun b => ⟨.converted b.contentBlock, b.deltas⟩) ++ r.content.map Content.written, ?_⟩
    rw [writtenBlocks_append, ← map_blockEvents, List.length_map, hlength, Nat.zero_add]
    have hmap := congrArg (List.map Written.event) heq
    rw [List.map_append, List.map_cons] at hmap
    simp only [List.nil_append, ← List.append_assoc, hmap, List.cons_append]

/-! ## What passes -/

/-- The event is inside of the message. -/
def Inner : StreamEvent α → Prop
  | .messageDelta _ _ | .messageStop => False
  | _ => True

theorem open_of_inner {p q : Place} {es : List (StreamEvent α)} (hp : p.Open) (hin : ∀ e ∈ es, Inner e)
    (hread : es.foldlM Place.read p = some q) : q.Open := by
  induction es generalizing p with
  | nil =>
    obtain rfl : p = q := Option.some.inj hread
    exact hp
  | cons e es ih =>
    rw [foldlM_cons_read, Option.bind_eq_some_iff] at hread
    obtain ⟨t, ht, hread⟩ := hread
    apply ih _ (fun e he => hin e (List.mem_cons_of_mem _ he)) hread
    have he := hin e (List.mem_cons_self ..)
    unfold Place.read at ht
    repeat' split at ht
    all_goals first
      | exact he.elim
      | cases ht <;> trivial

theorem closeThinking_inner (c : StreamConverter) : ∀ e ∈ (c.closeThinking (α := α)).1, Inner e := by
  unfold StreamConverter.closeThinking
  split <;> simp [Inner]

theorem closeText_inner (c : StreamConverter) : ∀ e ∈ (c.closeText (α := α)).1, Inner e := by
  unfold StreamConverter.closeText
  split <;> simp [Inner]

theorem run_inner (marshal : α → Option Bytes) (i : Item α) (c : StreamConverter) : ∀ e ∈ (i.run marshal c).1, Inner e := by
  intro e he
  cases i with
  | thinking t =>
    rw [Item.run, StreamConverter.thinking] at he
    split at he
    · rcases List.mem_append.mp he with he | he
      · split at he
        · cases he
        · rw [List.mem_singleton.mp he]
          trivial
      · rw [List.mem_singleton.mp he]
        trivial
    · cases he
  | content t =>
    rw [Item.run, StreamConverter.content] at he
    split at he
    · rcases List.mem_append.mp he with he | he
      · rcases List.mem_append.mp he with he | he
        · exact closeThinking_inner c e he
        · split at he
          · cases he
          · rw [List.mem_singleton.mp he]
            trivial
      · rw [List.mem_singleton.mp he]
        trivial
    · cases he
  | call tc =>
    rw [Item.run, StreamConverter.toolCall] at he
    split at he
    · cases he
    · dsimp only at he
      split at he
      · exact closeText_inner c e he
      · rcases List.mem_append.mp he with he | he
        · exact closeText_inner c e he
        · simp only [List.mem_cons, List.not_mem_nil, or_false] at he
          rcases he with rfl | rfl | rfl <;> trivial

/-- A chunk that is not done ends no message. -/
theorem process_inner (marshal : α → Option Bytes) {r : ChatResponse α} (hdone : r.done = false) (c : StreamConverter) :
    ∀ e ∈ (c.process marshal r).1, Inner e := by
  have hall : ∀ (is : List (Item α)) (c : StreamConverter), ∀ e ∈ (emitAll (Item.run marshal) is c).1, Inner e := by
    intro is
    induction is with
    | nil => simp
    | cons i is ih =>
      intro c e he
      rw [emitAll_cons] at he
      rcases List.mem_append.mp he with he | he
      · exact run_inner marshal i c e he
      · exact ih _ e he
  rw [process_eq, finish_undone hdone, List.append_nil]
  intro e he
  rcases List.mem_append.mp he with he | he
  · unfold StreamConverter.begin at he
    split at he
    · rw [List.mem_singleton.mp he]
      trivial
    · cases he
  · exact hall _ _ e he

/-! ## The writer -/

theorem fold_keeps (s : SearchWriter α) (es : List (StreamEvent α)) :
    (es.foldl SearchWriter.note s).observed = s.observed ∧ (es.foldl SearchWriter.note s).loop = s.loop ∧
      (es.foldl SearchWriter.note s).loopBase = s.loopBase := by
  induction es generalizing s with
  | nil => exact ⟨rfl, rfl, rfl⟩
  | cons e es ih =>
    obtain ⟨hobserved, hloop, hbase⟩ := ih (s.note e)
    rw [List.foldl_cons, hobserved, hloop, hbase]
    unfold SearchWriter.note
    split <;> exact ⟨rfl, rfl, rfl⟩

/-- Where the writer is while chunks pass: what was written, and what the converter would have done alone. -/
structure Passing (w : World α) (rs : List (ChatResponse α)) (s : SearchWriter α) (p : Place) : Prop where
  tracks : Tracks s p
  converter : s.converter = (emitAll (StreamConverter.process fun a => some (w.marshal a)) rs (newStreamConverter w.id w.model
    w.estimatedInputTokens)).2
  observed : s.observed = largest rs ⟨0, 0⟩
  idle : s.loop = none

theorem newSearchWriter_passing (w : World α) : Passing w [] (newSearchWriter w) .start :=
  ⟨⟨by simp [newSearchWriter], by simp [newSearchWriter], by simp, fun _ => rfl, by simp [newSearchWriter]⟩, rfl, rfl, rfl⟩

/-- A chunk that calls no search passes. -/
theorem Passing.pass {w : World α} {rs : List (ChatResponse α)} {s : SearchWriter α} {p q : Place} {r : ChatResponse α}
    (h : Passing w rs s p) (hopen : p.Open) (hr : passes r = true)
    (hread : (s.converter.process (fun a => some (w.marshal a)) r).1.foldlM Place.read p = some q) :
    (s.write w r).1 = (s.converter.process (fun a => some (w.marshal a)) r).1.map .event ∧
      Passing w (rs ++ [r]) (s.write w r).2 q := by
  have hsent : ¬ s.terminalSent = true := by
    rw [h.tracks.sent]
    rintro rfl
    exact hopen
  have hnone : findWebSearchToolCall r.message.toolCalls = none := by simpa [passes] using hr
  have hwrite : s.write w r = (s.recordObservedUsage r.metrics).writePassthroughStreamChunk w r := by
    unfold SearchWriter.write
    rw [if_neg hsent, hnone]
    simp [SearchWriter.recordObservedUsage, h.idle]
  rw [hwrite]
  refine ⟨rfl, ?_⟩
  have htracks : Tracks (s.recordObservedUsage r.metrics) p :=
    ⟨h.tracks.started, h.tracks.opened, h.tracks.index, h.tracks.next, h.tracks.sent⟩
  have hnotes := htracks.notes hread
  obtain ⟨hobserved, hloop, -⟩ := fold_keeps (s.recordObservedUsage r.metrics)
    (s.converter.process (fun a => some (w.marshal a)) r).1
  refine ⟨⟨hnotes.started, hnotes.opened, hnotes.index, hnotes.next, hnotes.sent⟩, ?_, ?_, ?_⟩
  · rw [emitAll_append, ← h.converter]
    rfl
  · rw [largest_append, ← h.observed]
    exact hobserved
  · exact hloop.trans h.idle

/-- Chunks that pass, none of them the last one. -/
theorem Passing.passAll {w : World α} {rs before : List (ChatResponse α)} {s : SearchWriter α} {p q : Place}
    (h : Passing w rs s p) (hopen : p.Open) (hbefore : ∀ r ∈ before, passes r = true ∧ r.done = false)
    (hread : (emitAll (StreamConverter.process fun a => some (w.marshal a)) before s.converter).1.foldlM Place.read p = some q) :
    (emitAll (SearchWriter.write w) before s).1 =
        (emitAll (StreamConverter.process fun a => some (w.marshal a)) before s.converter).1.map .event ∧
      Passing w (rs ++ before) (emitAll (SearchWriter.write w) before s).2 q ∧ q.Open := by
  induction before generalizing rs s p with
  | nil =>
    obtain rfl : p = q := Option.some.inj hread
    rw [List.append_nil]
    exact ⟨rfl, h, hopen⟩
  | cons r before ih =>
    obtain ⟨hpasses, hdone⟩ := hbefore r (List.mem_cons_self ..)
    rw [emitAll_cons, List.foldlM_append, Option.bind_eq_bind, Option.bind_eq_some_iff] at hread
    obtain ⟨t, ht, hread⟩ := hread
    obtain ⟨hevents, hnext⟩ := h.pass hopen hpasses ht
    have hconverter : (s.write w r).2.converter = (s.converter.process (fun a => some (w.marshal a)) r).2 := by
      rw [hnext.converter, emitAll_append, ← h.converter]
      rfl
    rw [← hconverter] at hread
    obtain ⟨hrest, hpassing, hq⟩ := ih hnext (open_of_inner hopen (process_inner _ hdone _) ht)
      (fun r hr => hbefore r (List.mem_cons_of_mem _ hr)) hread
    rw [List.append_assoc] at hpassing
    refine ⟨?_, hpassing, hq⟩
    rw [emitAll_cons, emitAll_cons, hevents, hrest, hconverter, List.map_append]

/-- Chunks that come while the loop is in flight are counted. -/
theorem emitAll_swallow {w : World α} {s : SearchWriter α} {rs : List (ChatResponse α)} (hloop : s.loop.isSome = true)
    (hsent : s.terminalSent = false) (hrs : ∀ r ∈ rs, r.done = false) :
    emitAll (SearchWriter.write w) rs s = ([], { s with observed := largest rs s.observed }) := by
  induction rs generalizing s with
  | nil => rfl
  | cons r rs ih =>
    have hwrite : s.write w r = ([], s.recordObservedUsage r.metrics) := by
      unfold SearchWriter.write
      simp [hsent, SearchWriter.recordObservedUsage, hloop, hrs r (List.mem_cons_self ..)]
    rw [emitAll_cons, hwrite, ih]
    · rfl
    · exact hloop
    · exact hsent
    · exact fun r hr => hrs r (List.mem_cons_of_mem _ hr)

theorem largest_ge (rs : List (ChatResponse α)) (u : Usage) :
    u.inputTokens ≤ (largest rs u).inputTokens ∧ u.outputTokens ≤ (largest rs u).outputTokens := by
  induction rs generalizing u with
  | nil => exact ⟨le_refl _, le_refl _⟩
  | cons r rs ih =>
    obtain ⟨hin, hout⟩ := ih ⟨max u.inputTokens r.metrics.promptEvalCount, max u.outputTokens r.metrics.evalCount⟩
    exact ⟨le_trans (le_max_left ..) hin, le_trans (le_max_left ..) hout⟩

theorem tally_add (rs : List (ChatResponse α)) (u : Usage) : (tally rs u).inputTokens =
    u.inputTokens + (tally rs ⟨0, 0⟩).inputTokens ∧ (tally rs u).outputTokens = u.outputTokens + (tally rs ⟨0, 0⟩).outputTokens := by
  induction rs generalizing u with
  | nil => simp [tally]
  | cons r rs ih =>
    obtain ⟨hin, hout⟩ := ih (u.add r.metrics)
    obtain ⟨hin', hout'⟩ := ih (Usage.add ⟨0, 0⟩ r.metrics)
    simp only [tally, List.foldl_cons] at hin hout hin' hout' ⊢
    rw [hin, hout, hin', hout']
    simp only [Usage.add]
    constructor <;> omega

/-- The counts that came after the start of the loop are put on top of those of the loop. -/
theorem applyObservedUsageDelta_eq {s : SearchWriter α} (hin : s.loopBase.inputTokens ≤ s.observed.inputTokens)
    (hout : s.loopBase.outputTokens ≤ s.observed.outputTokens) (received : List (ChatResponse α)) :
    s.applyObservedUsageDelta (tally received s.loopBase) = tally received s.observed := by
  obtain ⟨hbase, hbase'⟩ := tally_add received s.loopBase
  obtain ⟨hobserved, hobserved'⟩ := tally_add received s.observed
  have hequal : ∀ {u v : Usage}, u.inputTokens = v.inputTokens → u.outputTokens = v.outputTokens → u = v := by
    rintro ⟨a, b⟩ ⟨c, d⟩ rfl rfl
    rfl
  apply hequal
  · unfold SearchWriter.applyObservedUsageDelta
    dsimp only
    split <;> omega
  · unfold SearchWriter.applyObservedUsageDelta
    dsimp only
    split <;> omega

theorem runWebSearchLoop_usage (w : World α) (r : ChatResponse α) (call : ToolCall α) (u : Usage) :
    (w.runWebSearchLoop r call u).usage = tally (w.received r call) u := by
  unfold World.received World.runWebSearchLoop
  split
  · exact (rounds_usage w _ _ r call _ _ u).2
  · rfl

/-- The end of the stream once the loop is there. -/
theorem writeLoopResult_spec {w : World α} {s : SearchWriter α} {es : List (StreamEvent α)} {p : Place}
    (hread : es.foldlM Place.read .start = some p) (hopen : p.Open) (htracks : Tracks s p) {r : ChatResponse α}
    {call : ToolCall α} (hloop : s.loop = some (w.runWebSearchLoop r call s.loopBase))
    (hin : s.loopBase.inputTokens ≤ s.observed.inputTokens) (hout : s.loopBase.outputTokens ≤ s.observed.outputTokens) :
    ∃ message blocks stopReason, es.map .event ++ (s.writeLoopResult w).1 = .event (.messageStart message) ::
      writtenBlocks 0 blocks ++ [.event (.messageDelta stopReason (tally (w.received r call) s.observed)),
        .event .messageStop] := by
  have htracks' : Tracks ({ s with loop := none } : SearchWriter α) p :=
    ⟨htracks.started, htracks.opened, htracks.index, htracks.next, htracks.sent⟩
  have hdelta : ({ s with loop := none } : SearchWriter α).applyObservedUsageDelta
      (w.runWebSearchLoop r call s.loopBase).usage = tally (w.received r call) s.observed := by
    rw [runWebSearchLoop_usage]
    exact applyObservedUsageDelta_eq hin hout (w.received r call)
  unfold SearchWriter.writeLoopResult
  rw [hloop]
  dsimp only
  unfold LoopResult.usage at hdelta
  split
  · rename_i e he
    rw [he] at hdelta
    dsimp only at hdelta
    rw [hdelta]
    obtain ⟨message, blocks, heq⟩ := writeTerminalResponse_spec w hread hopen htracks'
      (w.webSearchErrorResponse e (tally (w.received r call) s.observed))
    exact ⟨message, blocks, _, heq⟩
  · rename_i response hresponse
    rw [hresponse] at hdelta
    dsimp only at hdelta
    rw [hdelta]
    obtain ⟨message, blocks, heq⟩ := writeTerminalResponse_spec w hread hopen htracks'
      { response with usage := tally (w.received r call) s.observed }
    exact ⟨message, blocks, _, heq⟩

/-- A stream in which no chunk calls a search is that of the converter. -/
theorem searchStream_passes (w : World α) {before : List (ChatResponse α)} {last : ChatResponse α}
    (hpasses : ∀ r ∈ before ++ [last], passes r = true) (hbefore : ∀ r ∈ before, r.done = false)
    (halone : SoFar (stream (fun a => some (w.marshal a)) (newStreamConverter w.id w.model w.estimatedInputTokens)
      (before ++ [last]))) :
    searchStream w (before ++ [last]) =
      (stream (fun a => some (w.marshal a)) (newStreamConverter w.id w.model w.estimatedInputTokens) (before ++ [last])).map
        .event := by
  obtain ⟨q, hq⟩ := Option.ne_none_iff_exists'.mp halone
  unfold stream at hq
  rw [emitAll_append, List.foldlM_append, Option.bind_eq_bind, Option.bind_eq_some_iff] at hq
  obtain ⟨t, ht, hlast⟩ := hq
  obtain ⟨hevents, hpassing, hopen⟩ := (newSearchWriter_passing w).passAll trivial
    (fun r hr => ⟨hpasses r (List.mem_append_left _ hr), hbefore r hr⟩) ht
  rw [emitAll_cons, emitAll_nil, List.append_nil] at hlast
  have hconverter := hpassing.converter
  rw [List.nil_append] at hconverter
  rw [← hconverter] at hlast
  obtain ⟨hwrite, -⟩ := hpassing.pass hopen (hpasses last (by simp)) hlast
  unfold searchStream stream
  rw [emitAll_append, emitAll_append, hevents, emitAll_cons, emitAll_cons, hwrite, emitAll_nil, emitAll_nil, hconverter]
  simp [newSearchWriter]

/-- The loop is in flight, with counts that were not larger than they are now. -/
structure Searching (w : World α) (r : ChatResponse α) (call : ToolCall α) (s : SearchWriter α) (p : Place) : Prop where
  tracks : Tracks s p
  loop : s.loop = some (w.runWebSearchLoop r call s.loopBase)
  input : s.loopBase.inputTokens ≤ s.observed.inputTokens
  output : s.loopBase.outputTokens ≤ s.observed.outputTokens

/-- What a chunk is counted changes nothing but the counts. -/
theorem Searching.observe {w : World α} {r : ChatResponse α} {call : ToolCall α} {s : SearchWriter α} {p : Place}
    (h : Searching w r call s p) (rs : List (ChatResponse α)) :
    Searching w r call { s with observed := largest rs s.observed } p := by
  obtain ⟨hin, hout⟩ := largest_ge rs s.observed
  exact ⟨⟨h.tracks.started, h.tracks.opened, h.tracks.index, h.tracks.next, h.tracks.sent⟩, h.loop,
    le_trans h.input hin, le_trans h.output hout⟩

/-- The chunk that calls a search. -/
theorem Passing.search {w : World α} {rs : List (ChatResponse α)} {s : SearchWriter α} {p : Place} {r : ChatResponse α}
    {call : ToolCall α} (h : Passing w rs s p) (hopen : p.Open)
    (hcall : findWebSearchToolCall r.message.toolCalls = some call) :
    ∃ s', Searching w r call s' p ∧ s'.observed = largest (rs ++ [r]) ⟨0, 0⟩ ∧
      s.write w r = if r.done then s'.writeLoopResult w else ([], s') := by
  have hsent : ¬ s.terminalSent = true := by
    rw [h.tracks.sent]
    rintro rfl
    exact hopen
  have hidle : (s.recordObservedUsage r.metrics).loop.isSome = false := by
    rw [SearchWriter.recordObservedUsage, h.idle]
    rfl
  refine ⟨(s.recordObservedUsage r.metrics).startLoopWorker w r call, ?_, ?_, ?_⟩
  · unfold SearchWriter.startLoopWorker
    rw [hidle]
    refine ⟨⟨h.tracks.started, h.tracks.opened, h.tracks.index, h.tracks.next, h.tracks.sent⟩, rfl, ?_, ?_⟩
    · simp [SearchWriter.recordObservedUsage]
    · simp [SearchWriter.recordObservedUsage]
  · unfold SearchWriter.startLoopWorker
    rw [hidle, largest_append, ← h.observed]
    rfl
  · unfold SearchWriter.write
    rw [if_neg hsent, hcall]
    simp [hidle]

/-- The last chunk brings the result of the loop. -/
theorem Searching.finish {w : World α} {r : ChatResponse α} {call : ToolCall α} {s : SearchWriter α} {p : Place}
    (h : Searching w r call s p) (hopen : p.Open) {mid : List (ChatResponse α)} {last : ChatResponse α}
    (hmid : ∀ q ∈ mid, q.done = false) (hlast : last.done = true) :
    (emitAll (SearchWriter.write w) (mid ++ [last]) s).1 =
      (({ s with observed := largest (mid ++ [last]) s.observed } : SearchWriter α).writeLoopResult w).1 := by
  have hsent : s.terminalSent = false := by
    rw [← Bool.not_eq_true, h.tracks.sent]
    rintro rfl
    exact hopen
  have hloop : s.loop.isSome = true := by rw [h.loop, Option.isSome_some]
  have hwrite : ∀ t : SearchWriter α, t.terminalSent = false → t.loop.isSome = true →
      t.write w last = (t.recordObservedUsage last.metrics).writeLoopResult w := by
    intro t hsent hloop
    unfold SearchWriter.write
    simp [hsent, SearchWriter.recordObservedUsage, hloop, hlast]
  have hresult := hwrite { s with observed := largest mid s.observed } hsent hloop
  rw [emitAll_append, emitAll_swallow hloop hsent hmid, emitAll_cons, emitAll_nil, List.nil_append, List.append_nil]
  dsimp only
  rw [hresult, largest_append]
  rfl

/-- A stream in which a chunk calls a search goes on with the result of the loop. -/
theorem searchStream_searches (w : World α) {before after : List (ChatResponse α)} {r : ChatResponse α} {call : ToolCall α}
    (hbefore : ∀ q ∈ before, passes q = true) (hcall : findWebSearchToolCall r.message.toolCalls = some call)
    (hrs : Complete (before ++ r :: after))
    (halone : SoFar (stream (fun a => some (w.marshal a)) (newStreamConverter w.id w.model w.estimatedInputTokens) before)) :
    ∃ message blocks stopReason, searchStream w (before ++ r :: after) = .event (.messageStart message) ::
      writtenBlocks 0 blocks ++ [.event (.messageDelta stopReason (tally (w.received r call)
        (largest (before ++ r :: after) ⟨0, 0⟩))), .event .messageStop] := by
  obtain ⟨q, hq⟩ := Option.ne_none_iff_exists'.mp halone
  obtain ⟨initial, last, heq, hinitial, hlast⟩ := hrs
  have hpass : (∀ q ∈ before, q.done = false) → ∃ s, Searching w r call s q ∧ q.Open ∧
      s.observed = largest (before ++ [r]) ⟨0, 0⟩ ∧ searchStream w (before ++ r :: after) =
        (stream (fun a => some (w.marshal a)) (newStreamConverter w.id w.model w.estimatedInputTokens) before).map .event ++
          if r.done then (s.writeLoopResult w).1 ++ (emitAll (SearchWriter.write w) after (s.writeLoopResult w).2).1
          else (emitAll (SearchWriter.write w) after s).1 := by
    intro hundone
    obtain ⟨hevents, hpassing, hopen⟩ := (newSearchWriter_passing w).passAll trivial
      (fun q hq => ⟨hbefore q hq, hundone q hq⟩) hq
    rw [List.nil_append] at hpassing
    obtain ⟨s, hsearching, hobserved, hwrite⟩ := hpassing.search hopen hcall
    refine ⟨s, hsearching, hopen, hobserved, ?_⟩
    unfold searchStream
    rw [emitAll_append, hevents, emitAll_cons, hwrite]
    split <;> rfl
  obtain rfl | ⟨mid, l, rfl⟩ := List.eq_nil_or_concat after
  · obtain ⟨rfl, hr⟩ := List.append_inj' heq rfl
    obtain rfl : r = last := List.singleton_injective hr
    obtain ⟨s, hsearching, hopen, hobserved, hstream⟩ := hpass hinitial
    rw [hstream, if_pos hlast, emitAll_nil, List.append_nil, ← hobserved]
    exact writeLoopResult_spec hq hopen hsearching.tracks hsearching.loop hsearching.input hsearching.output
  · rw [List.concat_eq_append, ← List.cons_append, ← List.append_assoc] at heq
    obtain ⟨rfl, hl⟩ := List.append_inj' heq rfl
    obtain rfl : l = last := List.singleton_injective hl
    rw [List.forall_mem_append, List.forall_mem_cons] at hinitial
    obtain ⟨hundone, hr, hmid⟩ := hinitial
    obtain ⟨s, hsearching, hopen, hobserved, hstream⟩ := hpass hundone
    have hcounted := hsearching.observe (mid ++ [l])
    have hall : largest (before ++ r :: (mid ++ [l])) ⟨0, 0⟩ = largest (mid ++ [l]) s.observed := by
      rw [hobserved, ← largest_append, List.append_assoc]
      rfl
    rw [hstream, hr, if_neg Bool.false_ne_true, List.concat_eq_append, hsearching.finish hopen hmid hlast, hall]
    exact writeLoopResult_spec hq hopen hcounted.tracks hcounted.loop hcounted.input hcounted.output

theorem finish_stops (c : StreamConverter) {last : ChatResponse α} (hdone : last.done = true) :
    ∃ es, (c.finish last).1 = es ++ [.messageStop] := by
  rw [StreamConverter.finish, if_pos hdone]
  dsimp only
  rw [List.append_cons]
  exact ⟨_, rfl⟩

/-- The converter alone ends a complete stream. -/
theorem stream_stops (marshal : α → Option Bytes) (id model : Bytes) (estimated : Int) {rs : List (ChatResponse α)}
    (hrs : Complete rs) (halone : SoFar (stream marshal (newStreamConverter id model estimated) rs)) :
    WellFormed (stream marshal (newStreamConverter id model estimated) rs) := by
  obtain ⟨message, tokens, last, -, hdone, hstream⟩ := stream_eq marshal id model estimated hrs
  obtain ⟨es, hes⟩ := finish_stops (emitAll (Item.run marshal) (rs.flatMap items) (begun id model estimated tokens)).2 hdone
  obtain ⟨q, hq⟩ := Option.ne_none_iff_exists'.mp halone
  rw [wellFormed_iff, hq]
  rw [hstream, hes, ← List.append_assoc, List.foldlM_append, Option.bind_eq_bind, Option.bind_eq_some_iff] at hq
  obtain ⟨t, -, ht⟩ := hq
  rw [foldlM_cons_read, Option.bind_eq_some_iff] at ht
  obtain ⟨q', hread, hq'⟩ := ht
  obtain rfl : q' = q := Option.some.inj hq'
  cases t <;> simp [Place.read] at hread
  rw [hread]

/-- Whatever the search loop does, the writer writes one well-formed stream, and counts all that was counted. -/
theorem searchStream_wellWritten (w : World α) {rs : List (ChatResponse α)} (hrs : Complete rs)
    (halone : SoFar (stream (fun a => some (w.marshal a)) (newStreamConverter w.id w.model w.estimatedInputTokens)
      (rs.takeWhile passes))) :
    ∃ message blocks stopReason usage, searchStream w rs = .event (.messageStart message) :: writtenBlocks 0 blocks ++
        [.event (.messageDelta stopReason usage), .event .messageStop] ∧
      ∀ r call, (rs.dropWhile passes).head? = some r → findWebSearchToolCall r.message.toolCalls = some call →
        usage = tally (w.received r call) (largest rs ⟨0, 0⟩) := by
  have hsplit := List.takeWhile_append_dropWhile (p := passes) (l := rs)
  have hbefore : ∀ q ∈ rs.takeWhile passes, passes q = true := List.all_eq_true.mp List.all_takeWhile
  have hhead := List.head?_dropWhile_not passes rs
  cases hdrop : rs.dropWhile passes with
  | nil =>
    rw [hdrop, List.append_nil] at hsplit
    rw [hsplit] at halone hbefore
    obtain ⟨message, blocks, stopReason, usage, heq⟩ := stream_stops _ w.id w.model w.estimatedInputTokens hrs halone
    obtain ⟨before, last, rfl, hundone, -⟩ := hrs
    rw [searchStream_passes w hbefore hundone halone, heq]
    refine ⟨message, blocks.map fun b => ⟨.converted b.contentBlock, b.deltas⟩, stopReason, usage, ?_, by simp⟩
    rw [List.map_append, List.map_cons, map_blockEvents]
    rfl
  | cons r after =>
    rw [hdrop] at hsplit hhead
    have hr : passes r = false := hhead
    obtain ⟨call, hcall⟩ : ∃ call, findWebSearchToolCall r.message.toolCalls = some call := by
      simpa [passes, Option.isSome_iff_exists] using hr
    obtain ⟨message, blocks, stopReason, heq⟩ := searchStream_searches w hbefore hcall (hsplit ▸ hrs) halone
    rw [hsplit] at heq
    refine ⟨message, blocks, stopReason, _, heq, ?_⟩
    intro r' call' hr' hcall'
    obtain rfl : r = r' := Option.some.inj hr'
    obtain rfl : call = call' := Option.some.inj (hcall.symm.trans hcall')
    rfl

/-- A cloud model that writes a text, calls a search, and calls it again for ever. -/
def newsWorld : World Unit where
  id := ascii "msg_1"
  model := ascii "qwen3:cloud"
  estimatedInputTokens := 5
  marshal := fun _ => ascii "\x7b\x7d"
  query := fun _ => some (ascii "news")
  webSearch := fun _ _ => some [⟨ascii "News", ascii "https://example.com", []⟩]
  chat := fun _ _ => some { message := { toolCalls := [⟨ascii "call", ascii "web_search", ()⟩] }, metrics := ⟨3, 2⟩ }

def newsChunks : List (ChatResponse Unit) :=
  [{ message := { content := ascii "Hi" } }, { message := { toolCalls := [⟨ascii "call", ascii "web_search", ()⟩] } },
    { done := true, metrics := ⟨7, 4⟩ }]

theorem newsChunks_wellWritten : ∃ message blocks stopReason, searchStream newsWorld newsChunks =
    .event (.messageStart message) :: writtenBlocks 0 blocks ++
      [.event (.messageDelta stopReason ⟨16, 10⟩), .event .messageStop] := by
  have hrs : Complete newsChunks := ⟨newsChunks.take 2, _, rfl, by simp [newsChunks], rfl⟩
  obtain ⟨message, blocks, stopReason, usage, heq, husage⟩ := searchStream_wellWritten newsWorld hrs (by decide)
  have h16 : usage = ⟨16, 10⟩ := husage _ ⟨ascii "call", ascii "web_search", ()⟩ rfl rfl
  exact ⟨message, blocks, stopReason, h16 ▸ heq⟩

end Xdragon.Anthropic
