import Mathlib.Data.List.Nodup
import Xdragon.Openai.Responses

/-!
# The output items of a stream

A client keeps the items by their index. The converter goes along with it as long as neither thinking nor calls come
after text or calls.
-/

namespace Xdragon.Openai

open Xdragon.Lib
open Xdragon.Anthropic (ChatResponse Complete)

variable {α : Type}

/-! ## Well-formed streams -/

namespace Item

def id : Item → Bytes
  | .reasoning id _ => id
  | .functionCall id _ _ _ _ => id
  | .message id _ _ => id

def text : Item → Bytes
  | .reasoning _ summary => summary.getD []
  | .functionCall _ _ _ _ arguments => arguments
  | .message _ _ content => content.getD []

end Item

/-- An item that was added: its deltas so far, and what it was when it was done. -/
structure Tracked where
  id : Bytes
  text : Bytes := []
  done : Option Item := none
  deriving DecidableEq

/-- What a client has read of a stream. -/
inductive Reader where
  | open (items : List Tracked)
  | completed
  deriving DecidableEq

/-- The item, the index and the text of a delta. -/
def Data.delta : Data → Option (Bytes × Nat × Bytes)
  | .reasoningSummaryTextDelta id index _ text => some (id, index, text)
  | .functionCallArgumentsDelta id index text => some (id, index, text)
  | .outputTextDelta id index _ text => some (id, index, text)
  | _ => none

/-- The item at an index changes. It must be there with its id, and not be done. -/
def update (items : List Tracked) (index : Nat) (id : Bytes) (f : Tracked → Tracked) : Option (List Tracked) :=
  match items[index]? with
  | some t => if t.id = id ∧ t.done = none then some (items.set index (f t)) else none
  | none => none

/-- Nothing comes after the end, which lists what is done and leaves nothing open. -/
def Reader.read : Reader → Data → Option Reader
  | .completed, _ => none
  | .open items, .outputItemAdded index item =>
    if index = items.length ∧ item.id ∉ items.map (·.id) then some (.open (items ++ [{ id := item.id }])) else none
  | .open items, .outputItemDone index item =>
    (update items index item.id fun t => { t with done := some item }).map .open
  | .open items, .responseCompleted output _ _ _ =>
    if items.map (fun t => (t.done, t.text)) = output.map fun item => (some item, item.text) then some .completed else none
  | .open items, d =>
    match d.delta with
    | some (id, index, text) => (update items index id fun t => { t with text := t.text ++ text }).map .open
    | none => some (.open items)

structure WellFormed (es : List Event) : Prop where
  numbered : es.map (·.sequenceNumber) = List.range es.length
  read : (es.map (·.data)).foldlM Reader.read (.open []) = some .completed

instance (es : List Event) : Decidable (WellFormed es) :=
  decidable_of_iff (_ ∧ _) ⟨fun h => ⟨h.1, h.2⟩, fun h => ⟨h.numbered, h.read⟩⟩

/-! ## Reading at the last item -/

/-- The client reads some events, and the stream goes on. -/
def Reads (items : List Tracked) (ds : List Data) (items' : List Tracked) : Prop :=
  ds.foldlM Reader.read (.open items) = some (.open items')

theorem Reads.append {items items' items'' : List Tracked} {ds ds' : List Data} (h : Reads items ds items')
    (h' : Reads items' ds' items'') : Reads items (ds ++ ds') items'' := by
  rw [Reads, List.foldlM_append, h]
  exact h'

theorem Reads.cons {items items' items'' : List Tracked} {d : Data} {ds : List Data} (h : Reads items [d] items')
    (h' : Reads items' ds items'') : Reads items (d :: ds) items'' := h.append h'

theorem Reads.refl (items : List Tracked) : Reads items [] items := rfl

theorem reads_one {items items' : List Tracked} {d : Data} :
    Reads items [d] items' ↔ (Reader.open items).read d = some (.open items') := by
  simp [Reads]

theorem update_last (items : List Tracked) {t : Tracked} (ht : t.done = none) (f : Tracked → Tracked) :
    update (items ++ [t]) items.length t.id f = some (items ++ [f t]) := by
  simp [update, ht]

theorem update_none {items : List Tracked} {index : Nat} {id : Bytes}
    (h : ∀ t ∈ items[index]?, ¬ (t.id = id ∧ t.done = none)) (f : Tracked → Tracked) : update items index id f = none := by
  unfold update
  split
  · rename_i t ht
    rw [if_neg (h t ht)]
  · rfl

theorem reads_added (items : List Tracked) (item : Item) (hid : item.id ∉ items.map (·.id)) :
    Reads items [.outputItemAdded items.length item] (items ++ [{ id := item.id }]) := by
  rw [reads_one, Reader.read, if_pos ⟨rfl, hid⟩]

theorem reads_done (items : List Tracked) {t : Tracked} {item : Item} (ht : t.done = none) (hid : item.id = t.id) :
    Reads (items ++ [t]) [.outputItemDone items.length item] (items ++ [{ t with done := some item }]) := by
  rw [reads_one, Reader.read, hid, update_last _ ht]
  rfl

theorem reads_delta (items : List Tracked) {t : Tracked} {d : Data} {text : Bytes} (ht : t.done = none)
    (hd : d.delta = some (t.id, items.length, text)) :
    Reads (items ++ [t]) [d] (items ++ [{ t with text := t.text ++ text }]) := by
  have hupdate := update_last items ht fun t => { t with text := t.text ++ text }
  rw [reads_one]
  unfold Data.delta at hd
  split at hd
  all_goals first
    | cases hd
      rw [Reader.read, Data.delta]
      · dsimp only
        rw [hupdate]
        rfl
      all_goals simp
    | cases hd

/-- An item that is done. -/
def Item.tracked (item : Item) : Tracked := ⟨item.id, item.text, some item⟩

theorem reads_call {items : List Tracked} {id : Bytes} (hid : id ∉ items.map (·.id)) (tc : ToolCall) :
    Reads items (Converter.callEvents id items.length tc)
      (items ++ [Item.tracked (.functionCall id .completed tc.id tc.name tc.arguments)]) := by
  unfold Converter.callEvents
  have hadded : Reads items [.outputItemAdded items.length (.functionCall id .inProgress tc.id tc.name [])]
      (items ++ [{ id := id }]) := reads_added items (.functionCall id .inProgress tc.id tc.name []) hid
  have hdelta : Reads (items ++ [{ id := id }])
      (if tc.arguments ≠ [] then [.functionCallArgumentsDelta id items.length tc.arguments] else [])
      (items ++ [{ id := id, text := tc.arguments }]) := by
    split
    · exact reads_delta _ rfl rfl
    · rename_i h
      rw [Classical.not_not.mp h]
      exact .refl _
  have hdone : Reads (items ++ [{ id := id, text := tc.arguments }])
      [.functionCallArgumentsDone id items.length tc.arguments,
        .outputItemDone items.length (.functionCall id .completed tc.id tc.name tc.arguments)]
      (items ++ [Item.tracked (.functionCall id .completed tc.id tc.name tc.arguments)]) :=
    .cons (reads_one.mpr rfl) (reads_done _ rfl rfl)
  exact (hadded.append hdelta).append hdone

/-! ## The converter and the client -/

namespace Converter

def reasoningItems (c : Converter) : List Tracked :=
  if c.reasoningStarted then
    [⟨c.reasoningItemID, c.accumulatedThinking,
      if c.reasoningDone then some (.reasoning c.reasoningItemID (some c.accumulatedThinking)) else none⟩]
  else []

def messageItems (c : Converter) : List Tracked := if c.contentStarted then [⟨c.itemID, c.accumulatedText, none⟩] else []

/-- What a client knows that has read all events. -/
def tracked (c : Converter) : List Tracked := c.reasoningItems ++ c.toolCallItems.map Item.tracked ++ c.messageItems

/-- Text or calls have come. -/
def late (c : Converter) : Bool := c.contentStarted || c.toolCallsSent

/-- Text and calls exclude each other, and the reasoning is done when they come. -/
structure Sound (ids : Nat → Bytes) (itemID : Bytes) (c : Converter) : Prop where
  message : c.itemID = itemID
  index : c.outputIndex = if c.reasoningDone then 1 else 0
  started : c.reasoningDone = true → c.reasoningStarted = true
  thinking : c.reasoningStarted = false → c.accumulatedThinking = []
  text : c.contentStarted = false → c.accumulatedText = []
  finished : c.late = true → c.reasoningStarted = true → c.reasoningDone = true
  alone : c.contentStarted = true → c.toolCallsSent = false
  sent : c.toolCallItems ≠ [] ↔ c.toolCallsSent = true
  known : ∀ t ∈ c.reasoningItems ++ c.toolCallItems.map Item.tracked, ∃ j < c.generated, t.id = ids j

/-- The client goes along with what a step emits. -/
def Goes (ids : Nat → Bytes) (itemID : Bytes) (c : Converter) (r : List Data × Converter) : Prop :=
  Reads c.tracked r.1 r.2.tracked ∧ r.2.Sound ids itemID

section
variable {ids : Nat → Bytes} {itemID : Bytes} {c : Converter}

theorem Goes.refl (h : c.Sound ids itemID) : c.Goes ids itemID ([], c) := ⟨.refl _, h⟩

theorem Goes.trans {r : List Data × Converter} {ds : List Data} {c' : Converter} (h : c.Goes ids itemID r)
    (h' : r.2.Goes ids itemID (ds, c')) : c.Goes ids itemID (r.1 ++ ds, c') :=
  ⟨h.1.append h'.1, h'.2⟩

theorem sound_new : (newConverter itemID).Sound ids itemID := by
  refine ⟨rfl, rfl, ?_, ?_, ?_, ?_, ?_, ?_, ?_⟩ <;> simp [newConverter, reasoningItems, late]

theorem goes_begin (h : c.Sound ids itemID) : c.Goes ids itemID c.begin := by
  unfold begin
  split
  · exact ⟨.cons (reads_one.mpr rfl) (reads_one.mpr rfl), h.message, h.index, h.started, h.thinking, h.text, h.finished,
      h.alone, h.sent, h.known⟩
  · exact .refl h

theorem Sound.early (h : c.Sound ids itemID) (hlate : c.late = false) :
    c.toolCallItems = [] ∧ c.contentStarted = false ∧ c.toolCallsSent = false := by
  rw [late, Bool.or_eq_false_iff] at hlate
  refine ⟨?_, hlate⟩
  by_contra hne
  have := h.sent.mp hne
  rw [hlate.2] at this
  cases this

theorem Sound.tracked_early (h : c.Sound ids itemID) (hlate : c.late = false) : c.tracked = c.reasoningItems := by
  obtain ⟨hcalls, hcontent, -⟩ := h.early hlate
  simp [tracked, messageItems, hcalls, hcontent]

theorem Sound.index_eq (h : c.Sound ids itemID) (hdone : c.reasoningStarted = true → c.reasoningDone = true) :
    c.outputIndex = c.reasoningItems.length := by
  rw [h.index, reasoningItems]
  by_cases hstarted : c.reasoningStarted = true
  · simp [hstarted, hdone hstarted]
  · have : ¬ c.reasoningDone = true := fun hd => hstarted (h.started hd)
    simp [hstarted, this]

theorem finishReasoning_keeps (c : Converter) : c.finishReasoning.2.contentStarted = c.contentStarted ∧
    c.finishReasoning.2.toolCallsSent = c.toolCallsSent := by
  unfold finishReasoning
  split <;> exact ⟨rfl, rfl⟩

/-- The reasoning can be finished at any time, and then it is not open. -/
theorem goes_finishReasoning (h : c.Sound ids itemID) : c.Goes ids itemID c.finishReasoning ∧
    (c.finishReasoning.2.reasoningStarted = true → c.finishReasoning.2.reasoningDone = true) := by
  unfold finishReasoning
  split
  · rename_i hdone
    refine ⟨.refl h, fun hstarted => ?_⟩
    rw [hstarted] at hdone
    simpa using hdone
  · rename_i hopen
    rw [Bool.or_eq_true, Bool.not_eq_true', not_or, Bool.not_eq_false, Bool.not_eq_true] at hopen
    obtain ⟨hstarted, hdone⟩ := hopen
    have hlate : c.late = false := by
      by_contra hlate
      have := h.finished (by simpa using hlate) hstarted
      rw [hdone] at this
      cases this
    obtain ⟨hcalls, hcontent, -⟩ := h.early hlate
    refine ⟨⟨?_, h.message, ?_, fun _ => hstarted, h.thinking, h.text, fun _ _ => rfl, h.alone, h.sent, ?_⟩,
      fun _ => rfl⟩
    · simp only [tracked, reasoningItems, messageItems, hstarted, hdone, hcalls, hcontent, h.index, if_true, if_false,
        Bool.false_eq_true, List.map_nil, List.append_nil]
      exact .cons (reads_one.mpr rfl) (reads_done [] rfl rfl)
    · simp [h.index, hdone]
    · have := h.known
      simpa [reasoningItems, hstarted] using this

theorem goes_processThinking (h : c.Sound ids itemID) (hlate : c.late = false)
    (hdone : c.reasoningDone = false) (thinking : Bytes) : c.Goes ids itemID (c.processThinking ids thinking) := by
  obtain ⟨hcalls, hcontent, -⟩ := h.early hlate
  have hknown := h.known
  unfold processThinking
  by_cases hstarted : c.reasoningStarted = true
  · rw [if_pos hstarted]
    refine ⟨?_, h.message, h.index, h.started, ?_, h.text, h.finished, h.alone, h.sent, ?_⟩
    · simp only [tracked, reasoningItems, messageItems, hstarted, hdone, hcalls, hcontent, h.index, if_true, if_false,
        Bool.false_eq_true, List.map_nil, List.append_nil, List.nil_append]
      exact reads_delta [] rfl rfl
    · simp [hstarted]
    · simpa [reasoningItems, hstarted] using hknown
  · rw [if_neg hstarted]
    refine ⟨?_, h.message, h.index, fun _ => rfl, ?_, h.text, ?_, h.alone, h.sent, ?_⟩
    · simp only [tracked, reasoningItems, messageItems, hstarted, hdone, hcalls, hcontent, h.index, if_true, if_false,
        Bool.false_eq_true, List.map_nil, List.append_nil, h.thinking (by simpa using hstarted)]
      refine .cons (reads_added [] _ List.not_mem_nil) (reads_delta [] rfl rfl)
    · simp
    · rw [late] at hlate ⊢
      simp [hlate]
    · simp [reasoningItems, hcalls]
      refine ⟨c.generated, by omega, rfl⟩

/-- The items of calls, from a place among the calls of a response on. -/
def callItems (ids : Nat → Bytes) (generated : Nat) (tcs : List (ToolCall × Nat)) : List Item :=
  tcs.map fun (tc, i) => .functionCall (ids (generated + i)) .completed tc.id tc.name tc.arguments

theorem reads_calls (hids : ids.Injective) {generated index : Nat} (tcs : List ToolCall) {k : Nat} {items : List Tracked}
    (hlen : items.length = index + k) (hknown : ∀ t ∈ items, ∃ j < generated + k, t.id = ids j) :
    Reads items ((tcs.zipIdx k).flatMap fun (tc, i) => callEvents (ids (generated + i)) (index + i) tc)
      (items ++ (callItems ids generated (tcs.zipIdx k)).map Item.tracked) := by
  induction tcs generalizing k items with
  | nil => simpa [callItems] using Reads.refl items
  | cons tc tcs ih =>
    have hnew : ids (generated + k) ∉ items.map (·.id) := by
      rw [List.mem_map]
      rintro ⟨t, ht, heq⟩
      obtain ⟨j, hj, ht⟩ := hknown t ht
      have := hids (ht.symm.trans heq)
      omega
    have hcall := reads_call hnew tc
    rw [hlen] at hcall
    have hrest := @ih (k + 1)
      (items ++ [Item.tracked (.functionCall (ids (generated + k)) .completed tc.id tc.name tc.arguments)])
      (by simp [hlen]; omega) ?_
    · rw [List.zipIdx_cons, List.flatMap_cons]
      simpa [callItems] using hcall.append hrest
    · intro t ht
      rw [List.mem_append, List.mem_singleton] at ht
      rcases ht with ht | rfl
      · obtain ⟨j, hj, ht⟩ := hknown t ht
        exact ⟨j, by omega, ht⟩
      · exact ⟨generated + k, by omega, rfl⟩

theorem goes_processToolCalls (hids : ids.Injective) (h : c.Sound ids itemID) (hlate : c.late = false) {tcs : List ToolCall}
    (htcs : tcs ≠ []) : c.Goes ids itemID
      ((c.processToolCalls ids tcs).1, { (c.processToolCalls ids tcs).2 with toolCallsSent := true }) := by
  obtain ⟨hfinish, hdone⟩ := goes_finishReasoning h
  obtain ⟨hcontent, hsent⟩ := finishReasoning_keeps c
  unfold processToolCalls
  generalize c.finishReasoning = r at hfinish hdone hcontent hsent
  obtain ⟨finished, c'⟩ := r
  dsimp only at hfinish hdone hcontent hsent ⊢
  have h' : c'.Sound ids itemID := hfinish.2
  have hlate' : c'.late = false := by rw [late, hcontent, hsent, ← late, hlate]
  obtain ⟨hcalls, hnone, -⟩ := h'.early hlate'
  have hlen : c'.reasoningItems.length = c'.outputIndex + 0 := (h'.index_eq hdone).symm
  have hknown := h'.known
  rw [hcalls, List.map_nil, List.append_nil] at hknown
  refine hfinish.trans ⟨?_, h'.message, h'.index, h'.started, h'.thinking, h'.text, fun _ => hdone, ?_, ?_, ?_⟩
  · rw [h'.tracked_early hlate']
    have := reads_calls hids tcs hlen hknown
    simpa [tracked, reasoningItems, messageItems, hcalls, hnone, callItems] using this
  · simp [hnone]
  · simpa [hcalls] using htcs
  · intro t ht
    rw [List.mem_append] at ht
    rcases ht with ht | ht
    · obtain ⟨j, hj, ht⟩ := hknown t ht
      exact ⟨j, Nat.lt_add_right _ hj, ht⟩
    · simp only [hcalls, List.nil_append, List.map_map, List.mem_map] at ht
      obtain ⟨⟨tc, i⟩, hmem, rfl⟩ := ht
      have := List.snd_lt_of_mem_zipIdx hmem
      exact ⟨c'.generated + i, Nat.add_lt_add_left (by simpa using this) _, rfl⟩

/-- The message is added with the first text. -/
theorem goes_processTextContent (hids : ∀ j, ids j ≠ itemID) (h : c.Sound ids itemID) (hsent : c.toolCallsSent = false)
    (content : Bytes) : c.Goes ids itemID (c.processTextContent content) := by
  obtain ⟨hfinish, hdone⟩ := goes_finishReasoning h
  obtain ⟨-, hsent'⟩ := finishReasoning_keeps c
  unfold processTextContent
  generalize c.finishReasoning = r at hfinish hdone hsent'
  obtain ⟨finished, c'⟩ := r
  dsimp only at hfinish hdone hsent' ⊢
  have h' : c'.Sound ids itemID := hfinish.2
  have hcalls : c'.toolCallItems = [] := by
    by_contra hne
    have := h'.sent.mp hne
    rw [hsent', hsent] at this
    cases this
  have hindex := h'.index_eq hdone
  have hnew : c'.itemID ∉ c'.reasoningItems.map (·.id) := by
    rw [h'.message, List.mem_map]
    rintro ⟨t, ht, heq⟩
    obtain ⟨j, -, hj⟩ := h'.known t (List.mem_append_left _ ht)
    exact hids j (hj.symm.trans heq)
  rw [List.append_assoc]
  refine hfinish.trans ⟨?_, h'.message, h'.index, h'.started, h'.thinking, nofun, fun _ => hdone, fun _ => ?_, h'.sent,
    h'.known⟩
  · simp only [tracked, hcalls, List.map_nil, List.append_nil, messageItems, hindex]
    by_cases hstarted : c'.contentStarted = true
    · simp only [hstarted, if_true, List.nil_append]
      exact reads_delta _ rfl rfl
    · simp only [hstarted, Bool.false_eq_true, if_false, if_true, h'.text (by simpa using hstarted), List.append_nil]
      exact .cons (reads_added _ (.message c'.itemID .inProgress none) hnew)
        (.cons (reads_one.mpr rfl) (reads_delta _ (t := ⟨c'.itemID, [], none⟩) rfl rfl))
  · rw [hsent', hsent]

/-- The end lists the items that are done, if all are. -/
theorem read_completed {items : List Tracked} {output : List Item} (h : items = output.map Item.tracked) (i o t : Int) :
    (Reader.open items).read (.responseCompleted output i o t) = some .completed := by
  rw [Reader.read, if_pos]
  rw [h, List.map_map]
  rfl

theorem reasoningItems_done (hdone : c.reasoningStarted = true → c.reasoningDone = true) :
    c.reasoningItems = (if c.reasoningStarted then [.reasoning c.reasoningItemID (some c.accumulatedThinking)] else []).map
      Item.tracked := by
  unfold reasoningItems
  split
  · rename_i hstarted
    rw [hdone hstarted]
    rfl
  · rfl

theorem read_processCompletion (h : c.Sound ids itemID) (r : ChatResponse α) :
    (c.processCompletion r).1.foldlM Reader.read (.open c.tracked) = some .completed := by
  obtain ⟨hfinish, hdone⟩ := goes_finishReasoning h
  unfold processCompletion
  generalize c.finishReasoning = r at hfinish hdone
  obtain ⟨finished, c'⟩ := r
  dsimp only at hfinish hdone ⊢
  have h' : c'.Sound ids itemID := hfinish.2
  rw [List.append_assoc, List.foldlM_append, hfinish.1, Option.bind_eq_bind, Option.bind_some]
  have hitems := reasoningItems_done hdone
  by_cases hstarted : c'.contentStarted = true
  · have hsent := h'.alone hstarted
    have hcalls : c'.toolCallItems = [] := by
      by_contra hne
      have := h'.sent.mp hne
      rw [hsent] at this
      cases this
    have hread : Reads c'.tracked
        [.outputTextDone c'.itemID c'.outputIndex 0 c'.accumulatedText,
          .contentPartDone c'.itemID c'.outputIndex 0 c'.accumulatedText,
          .outputItemDone c'.outputIndex (.message c'.itemID .completed (some c'.accumulatedText))]
        (c'.buildFinalOutput.map Item.tracked) := by
      simp only [tracked, messageItems, buildFinalOutput, hcalls, hstarted, h'.index_eq hdone, if_true, List.map_nil,
        List.append_nil, List.length_nil, Nat.lt_irrefl, if_false, List.map_append, ← hitems]
      exact .cons (reads_one.mpr rfl) (.cons (reads_one.mpr rfl) (reads_done _ rfl rfl))
    rw [if_pos (by simp [hsent, hstarted]), List.foldlM_append, hread, Option.bind_eq_bind, Option.bind_some,
      List.foldlM_cons, read_completed rfl]
    rfl
  · have hall : c'.tracked = c'.buildFinalOutput.map Item.tracked := by
      have hcalls : (if 0 < c'.toolCallItems.length then c'.toolCallItems else []) = c'.toolCallItems := by
        split
        · rfl
        · rename_i hcalls
          rw [List.eq_nil_of_length_eq_zero (Nat.eq_zero_of_not_pos hcalls)]
      rw [tracked, messageItems, if_neg hstarted, buildFinalOutput, if_neg hstarted, hitems, List.append_nil, hcalls,
        List.map_append]
    rw [if_neg (by simp [hstarted]), List.nil_append, List.foldlM_cons, read_completed hall]
    rfl

/-! ## What is read wrongly -/

theorem reads_none {items : List Tracked} {d : Data} (h : (Reader.open items).read d = none) (ds : List Data) :
    (d :: ds).foldlM Reader.read (.open items) = none := by
  rw [List.foldlM_cons, h]
  rfl

/-- An index that is already given is given again. -/
theorem added_none {index : Nat} {item : Item} {items : List Tracked} (h : index < items.length) (ds : List Data) :
    (Data.outputItemAdded index item :: ds).foldlM Reader.read (.open items) = none := by
  refine reads_none ?_ ds
  rw [Reader.read, if_neg fun heq => Nat.ne_of_lt h heq.1]

theorem index_late (h : c.Sound ids itemID) (hlate : c.late = true) : c.outputIndex < c.tracked.length := by
  rw [h.index_eq (h.finished hlate), tracked, List.length_append, List.length_append, Nat.add_assoc]
  refine Nat.lt_add_of_pos_right ?_
  rw [late, Bool.or_eq_true] at hlate
  rcases hlate with hcontent | hsent
  · rw [messageItems, if_pos hcontent]
    exact Nat.add_pos_right _ Nat.one_pos
  · refine Nat.add_pos_left ?_ _
    rw [List.length_map]
    exact List.length_pos_iff.mpr (h.sent.mpr hsent)

/-- The thinking that comes late belongs to an item that is done, or is added where an item is. -/
theorem read_processThinking_late (hids : ∀ j, ids j ≠ itemID) (h : c.Sound ids itemID) (hlate : c.late = true)
    (thinking : Bytes) : (c.processThinking ids thinking).1.foldlM Reader.read (.open c.tracked) = none := by
  have hindex := index_late h hlate
  unfold processThinking
  by_cases hstarted : c.reasoningStarted = true
  · have hdone := h.finished hlate hstarted
    rw [if_pos hstarted]
    have hreasoning : c.reasoningItemID ≠ c.itemID := by
      obtain ⟨j, -, hj⟩ := h.known ⟨c.reasoningItemID, c.accumulatedThinking, _⟩
        (List.mem_append_left _ (by rw [reasoningItems, if_pos hstarted]; exact List.mem_singleton_self _))
      rw [h.message, show c.reasoningItemID = ids j from hj]
      exact hids j
    have hlast : ∀ t ∈ c.tracked[c.outputIndex]?, ¬ (t.id = c.reasoningItemID ∧ t.done = none) := by
      rw [h.index_eq (h.finished hlate), tracked, List.append_assoc, List.getElem?_append_right (Nat.le_refl _)]
      intro t ht
      have ht := List.mem_of_getElem? ht
      rw [List.mem_append, List.mem_map] at ht
      rcases ht with ⟨item, -, rfl⟩ | ht
      · simp [Item.tracked]
      · rw [messageItems] at ht
        split at ht
        · rw [List.mem_singleton.mp ht]
          exact fun hor => hreasoning hor.1.symm
        · cases ht
    refine reads_none ?_ []
    rw [Reader.read, Data.delta]
    · dsimp only
      rw [update_none hlast]
      rfl
    all_goals simp
  · rw [if_neg hstarted]
    exact added_none hindex _

theorem read_processToolCalls_late (h : c.Sound ids itemID) (hlate : c.late = true) {tcs : List ToolCall} (htcs : tcs ≠ []) :
    (c.processToolCalls ids tcs).1.foldlM Reader.read (.open c.tracked) = none := by
  have hfinish : c.finishReasoning = ([], c) := by
    have := h.finished hlate
    rw [finishReasoning, if_pos]
    cases hstarted : c.reasoningStarted <;> simp_all
  obtain ⟨tc, tcs, rfl⟩ := List.exists_cons_of_ne_nil htcs
  unfold processToolCalls
  rw [hfinish]
  exact added_none (index_late h hlate) _

end

end Converter

end Xdragon.Openai
