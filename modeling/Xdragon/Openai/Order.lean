import Xdragon.Openai.Items

/-!
# Streams that a client can read

What a response brings is read unless thinking or calls come after text or calls. Then an index is given twice, or text
is added to an item that is done.
-/

namespace Xdragon.Openai

open Xdragon.Lib
open Xdragon.Anthropic (ChatResponse Complete)

variable {α : Type}

namespace Converter

section
variable {ids : Nat → Bytes} {itemID : Bytes} {c : Converter}

/-! ## A response -/

def think (ids : Nat → Bytes) (thinking : Bytes) (c : Converter) : List Data × Converter :=
  if thinking ≠ [] then c.processThinking ids thinking else ([], c)

def call (ids : Nat → Bytes) (tcs : List ToolCall) (c : Converter) : List Data × Converter :=
  if tcs ≠ [] then ((c.processToolCalls ids tcs).1, { (c.processToolCalls ids tcs).2 with toolCallsSent := true }) else ([], c)

def say (tcs : List ToolCall) (content : Bytes) (c : Converter) : List Data × Converter :=
  if tcs = [] ∧ ¬ c.toolCallsSent ∧ content ≠ [] then c.processTextContent content else ([], c)

/-- One step after another. -/
def andThen (r : List Data × Converter) (step : Converter → List Data × Converter) : List Data × Converter :=
  (r.1 ++ (step r.2).1, (step r.2).2)

/-- What a response brings but the end. -/
def brings (ids : Nat → Bytes) (marshal : α → Option Bytes) (r : ChatResponse α) (c : Converter) : List Data × Converter :=
  andThen (andThen (andThen c.begin (think ids r.message.thinking)) (call ids (toToolCalls marshal r.message.toolCalls)))
    (say (toToolCalls marshal r.message.toolCalls) r.message.content)

variable {marshal : α → Option Bytes}

theorem data_eq (r : ChatResponse α) (c : Converter) : c.data ids marshal r =
    andThen (c.brings ids marshal r) fun c => if r.done then c.processCompletion r else ([], c) := rfl

theorem Goes.andThen {r : List Data × Converter} {step : Converter → List Data × Converter} (h : c.Goes ids itemID r)
    (h' : r.2.Goes ids itemID (step r.2)) : c.Goes ids itemID (andThen r step) := h.trans h'

/-- Steps that are not for this response change nothing. -/
theorem begin_keeps (c : Converter) : c.begin.2.contentStarted = c.contentStarted ∧
    c.begin.2.toolCallsSent = c.toolCallsSent ∧ c.begin.2.reasoningDone = c.reasoningDone := by
  unfold begin
  split <;> exact ⟨rfl, rfl, rfl⟩

theorem think_keeps (ids : Nat → Bytes) (thinking : Bytes) (c : Converter) :
    (c.think ids thinking).2.contentStarted = c.contentStarted ∧
      (c.think ids thinking).2.toolCallsSent = c.toolCallsSent ∧
      (c.think ids thinking).2.reasoningDone = c.reasoningDone := by
  unfold think processThinking
  split
  · cases c.reasoningStarted <;> exact ⟨rfl, rfl, rfl⟩
  · exact ⟨rfl, rfl, rfl⟩

theorem call_late (tcs : List ToolCall) (c : Converter) :
    (c.call ids tcs).2.late = true ↔ c.late = true ∨ tcs ≠ [] := by
  unfold call
  split
  · rename_i htcs
    simp [late, htcs]
  · rename_i htcs
    simp [htcs]

theorem say_late (tcs : List ToolCall) (content : Bytes) (c : Converter) :
    (c.say tcs content).2.late = true ↔ c.late = true ∨ (tcs = [] ∧ content ≠ []) := by
  unfold say
  split
  · rename_i h
    simp [late, processTextContent, h.1, h.2.2]
  · rename_i h
    refine (or_iff_left_of_imp ?_).symm
    rintro ⟨htcs, hcontent⟩
    rw [late, Bool.or_eq_true]
    exact .inr (Classical.byContradiction fun hsent => h ⟨htcs, hsent, hcontent⟩)

theorem goes_think (h : c.Sound ids itemID) {thinking : Bytes}
    (hearly : thinking ≠ [] → c.late = false ∧ c.reasoningDone = false) : c.Goes ids itemID (c.think ids thinking) := by
  unfold think
  split
  · rename_i hthinking
    obtain ⟨hlate, hdone⟩ := hearly hthinking
    exact goes_processThinking h hlate hdone thinking
  · exact .refl h

theorem goes_call (hids : ids.Injective) (h : c.Sound ids itemID) (tcs : List ToolCall)
    (hearly : tcs ≠ [] → c.late = false) : c.Goes ids itemID (c.call ids tcs) := by
  unfold call
  split
  · rename_i htcs
    exact goes_processToolCalls hids h (hearly htcs) htcs
  · exact .refl h

theorem goes_say (hmessage : ∀ j, ids j ≠ itemID) (h : c.Sound ids itemID) (tcs : List ToolCall) (content : Bytes) :
    c.Goes ids itemID (c.say tcs content) := by
  unfold say
  split
  · rename_i hsay
    exact goes_processTextContent hmessage h (by simpa using hsay.2.1) content
  · exact .refl h

/-- The reasoning is done only when text or calls have come. -/
def Steady (ids : Nat → Bytes) (itemID : Bytes) (c : Converter) : Prop :=
  c.Sound ids itemID ∧ (c.reasoningDone = true → c.late = true)

/-- A response brings thinking or calls late. -/
def Late (r : ChatResponse α) (c : Converter) : Prop :=
  c.late = true ∧ (r.message.thinking ≠ [] ∨ r.message.toolCalls ≠ [])

theorem brings_late (r : ChatResponse α) (c : Converter) : (c.brings ids marshal r).2.late = true ↔
    c.late = true ∨ r.message.toolCalls ≠ [] ∨ r.message.content ≠ [] := by
  obtain ⟨hcontent, hsent, -⟩ := begin_keeps c
  obtain ⟨hcontent', hsent', -⟩ := think_keeps ids r.message.thinking c.begin.2
  have hlate : (c.begin.2.think ids r.message.thinking).2.late = c.late := by
    rw [late, late, hcontent', hsent', hcontent, hsent]
  have hnil : toToolCalls marshal r.message.toolCalls = [] ↔ r.message.toolCalls = [] := List.map_eq_nil_iff
  unfold brings andThen
  dsimp only
  rw [say_late, call_late, hlate, ne_eq, hnil]
  by_cases hcalls : r.message.toolCalls = [] <;> simp [hcalls]

/-- The client reads what a response brings that is not wrong. -/
theorem brings_goes (marshal : α → Option Bytes) (hids : ids.Injective) (hmessage : ∀ j, ids j ≠ itemID) (h : c.Steady ids itemID) {r : ChatResponse α}
    (hr : ¬ Late r c) : c.Goes ids itemID (c.brings ids marshal r) ∧ (c.brings ids marshal r).2.Steady ids itemID := by
  obtain ⟨h, hsteady⟩ := h
  obtain ⟨hcontent, hsent, hdone⟩ := begin_keeps c
  obtain ⟨hcontent', hsent', hdone'⟩ := think_keeps ids r.message.thinking c.begin.2
  have hbegin := goes_begin h
  have hlate : c.begin.2.late = c.late := by rw [late, late, hcontent, hsent]
  have hlate' : (c.begin.2.think ids r.message.thinking).2.late = c.late := by rw [late, hcontent', hsent', ← late, hlate]
  have hthink : c.begin.2.Goes ids itemID (c.begin.2.think ids r.message.thinking) := by
    refine goes_think hbegin.2 fun hthinking => ?_
    have hearly : c.late = false := by
      rw [← Bool.not_eq_true]
      exact fun hl => hr ⟨hl, .inl hthinking⟩
    refine ⟨hlate.trans hearly, ?_⟩
    rw [hdone, ← Bool.not_eq_true]
    intro hd
    rw [hsteady hd] at hearly
    cases hearly
  have hcall := goes_call hids hthink.2 (toToolCalls marshal r.message.toolCalls) fun hcalls => by
    rw [hlate', ← Bool.not_eq_true]
    refine fun hl => hr ⟨hl, .inr fun hnil => hcalls ?_⟩
    rw [hnil]
    rfl
  have hgoes := ((hbegin.andThen hthink).andThen hcall).andThen
    (goes_say hmessage hcall.2 (toToolCalls marshal r.message.toolCalls) r.message.content)
  refine ⟨hgoes, hgoes.2, fun hd => ?_⟩
  by_contra hno
  rw [brings_late, not_or, not_or, Classical.not_not, Classical.not_not] at hno
  obtain ⟨hearly, hcalls, hnothing⟩ := hno
  have hsame : (c.brings ids marshal r).2 = (c.begin.2.think ids r.message.thinking).2 := by
    simp [brings, andThen, call, say, toToolCalls, hcalls, hnothing]
  rw [hsame, hdone', hdone] at hd
  exact hearly (hsteady hd)

theorem append_none {p : Reader} {ds : List Data} (h : ds.foldlM Reader.read p = none) (ds' : List Data) :
    (ds ++ ds').foldlM Reader.read p = none := by
  rw [List.foldlM_append, h]
  rfl

theorem data_wrong (hmessage : ∀ j, ids j ≠ itemID) (h : c.Sound ids itemID) {r : ChatResponse α} (hr : Late r c) :
    (c.data ids marshal r).1.foldlM Reader.read (.open c.tracked) = none := by
  obtain ⟨hlate, hr⟩ := hr
  obtain ⟨hcontent, hsent, -⟩ := begin_keeps c
  have hbegin := goes_begin h
  have hlate' : c.begin.2.late = true := by rw [late, hcontent, hsent, ← late, hlate]
  rw [data_eq, brings]
  refine append_none (append_none ?_ _) _
  by_cases hthinking : r.message.thinking = []
  · have hcalls : toToolCalls marshal r.message.toolCalls ≠ [] :=
      List.map_eq_nil_iff.not.mpr (hr.resolve_left (Classical.not_not.mpr hthinking))
    rw [andThen, andThen, think, if_neg (Classical.not_not.mpr hthinking), List.append_nil, List.foldlM_append, hbegin.1,
      Option.bind_eq_bind, Option.bind_some, call, if_pos hcalls]
    exact read_processToolCalls_late hbegin.2 hlate' hcalls
  · refine append_none ?_ _
    rw [andThen, List.foldlM_append, hbegin.1, Option.bind_eq_bind, Option.bind_some, think, if_pos hthinking]
    exact read_processThinking_late hmessage hbegin.2 hlate' _

theorem data_goes (marshal : α → Option Bytes) (hids : ids.Injective) (hmessage : ∀ j, ids j ≠ itemID) (h : c.Steady ids itemID) {r : ChatResponse α}
    (hr : ¬ Late r c) (hdone : r.done = false) :
    (c.data ids marshal r).1.foldlM Reader.read (.open c.tracked) = some (.open (c.data ids marshal r).2.tracked) ∧
      (c.data ids marshal r).2.Steady ids itemID := by
  have hbrings := brings_goes marshal hids hmessage h hr
  have hdata : c.data ids marshal r = c.brings ids marshal r := by
    rw [data_eq, andThen, hdone]
    simp
  rw [hdata]
  exact ⟨hbrings.1.1, hbrings.2⟩

theorem data_done (hids : ids.Injective) (hmessage : ∀ j, ids j ≠ itemID) (h : c.Steady ids itemID) {r : ChatResponse α}
    (hr : ¬ Late r c) (hdone : r.done = true) :
    (c.data ids marshal r).1.foldlM Reader.read (.open c.tracked) = some .completed := by
  obtain ⟨hgoes, hsteady⟩ := brings_goes marshal hids hmessage h hr
  rw [data_eq, andThen, List.foldlM_append, hgoes.1, Option.bind_eq_bind, Option.bind_some, if_pos hdone]
  exact read_processCompletion hsteady.1 r

end

/-! ## Numbers -/

section
variable (ids : Nat → Bytes) (marshal : α → Option Bytes)

theorem finishReasoning_sequenceNumber (c : Converter) : c.finishReasoning.2.sequenceNumber = c.sequenceNumber := by
  unfold finishReasoning
  split <;> rfl

theorem brings_sequenceNumber (r : ChatResponse α) (c : Converter) :
    (c.brings ids marshal r).2.sequenceNumber = c.sequenceNumber := by
  have hbegin : c.begin.2.sequenceNumber = c.sequenceNumber := by
    unfold begin
    split <;> rfl
  have hthink (c : Converter) : (c.think ids r.message.thinking).2.sequenceNumber = c.sequenceNumber := by
    unfold think processThinking
    split
    · cases c.reasoningStarted <;> rfl
    · rfl
  have hcall (tcs : List ToolCall) (c : Converter) : (c.call ids tcs).2.sequenceNumber = c.sequenceNumber := by
    unfold call processToolCalls
    split
    · exact finishReasoning_sequenceNumber c
    · rfl
  have hsay (tcs : List ToolCall) (c : Converter) :
      (c.say tcs r.message.content).2.sequenceNumber = c.sequenceNumber := by
    unfold say processTextContent
    split
    · exact finishReasoning_sequenceNumber c
    · rfl
  rw [brings, andThen, andThen, andThen, hsay, hcall, hthink, hbegin]

theorem data_sequenceNumber (r : ChatResponse α) (c : Converter) :
    (c.data ids marshal r).2.sequenceNumber = c.sequenceNumber := by
  rw [data_eq, andThen]
  dsimp only
  split
  · exact (finishReasoning_sequenceNumber _).trans (brings_sequenceNumber ids marshal r c)
  · exact brings_sequenceNumber ids marshal r c

theorem process_data (r : ChatResponse α) (c : Converter) :
    (c.process ids marshal r).1.map (·.data) = (c.data ids marshal r).1 := by
  have (ds : List Data) (n : Nat) : (ds.zipIdx n).map (fun p => p.1) = ds := List.zipIdx_map_fst n ds
  unfold process newEvents
  rw [List.map_map]
  exact this _ _

theorem process_numbers (r : ChatResponse α) (c : Converter) : (c.process ids marshal r).1.map (·.sequenceNumber) =
    List.range' c.sequenceNumber (c.process ids marshal r).1.length := by
  unfold process newEvents
  rw [List.map_map, data_sequenceNumber, List.length_map, List.length_zipIdx]
  exact List.zipIdx_map_snd ..

theorem process_sequenceNumber (r : ChatResponse α) (c : Converter) : (c.process ids marshal r).2.sequenceNumber =
    c.sequenceNumber + (c.process ids marshal r).1.length := by
  unfold process newEvents
  rw [List.length_map, List.length_zipIdx]
  exact congrArg (· + _) (data_sequenceNumber ids marshal r c)

/-- The events of all responses are numbered one after another. -/
theorem emitAll_numbers (rs : List (ChatResponse α)) (c : Converter) :
    (emitAll (process ids marshal) rs c).1.map (·.sequenceNumber) =
      List.range' c.sequenceNumber (emitAll (process ids marshal) rs c).1.length := by
  induction rs generalizing c with
  | nil => rfl
  | cons r rs ih =>
    rw [emitAll_cons, List.map_append, ih, process_numbers, process_sequenceNumber, List.length_append, List.range'_append_1]

end

/-! ## All responses -/

section
variable {ids : Nat → Bytes} {itemID : Bytes} {marshal : α → Option Bytes} {c : Converter}

/-- How a client reads an event. -/
def readEvent (p : Reader) (e : Event) : Option Reader := p.read e.data

theorem read_process (r : ChatResponse α) (c : Converter) (p : Reader) :
    (c.process ids marshal r).1.foldlM readEvent p = (c.data ids marshal r).1.foldlM Reader.read p := by
  rw [← process_data, List.foldlM_map]
  rfl

theorem process_late (r : ChatResponse α) (c : Converter) : (c.process ids marshal r).2.late = true ↔
    c.late = true ∨ r.message.toolCalls ≠ [] ∨ r.message.content ≠ [] := by
  have hdata : (c.process ids marshal r).2.late = (c.brings ids marshal r).2.late := by
    have : (c.process ids marshal r).2.late = (c.data ids marshal r).2.late := rfl
    rw [this, data_eq, andThen]
    dsimp only
    split
    · obtain ⟨hcontent, hsent⟩ := finishReasoning_keeps (c.brings ids marshal r).2
      simp [processCompletion, late, hcontent, hsent]
    · rfl
  rw [hdata, brings_late]

theorem Steady.number (h : c.Steady ids itemID) (n : Nat) : ({ c with sequenceNumber := n } : Converter).Steady ids itemID := by
  obtain ⟨h, hlate⟩ := h
  exact ⟨⟨h.message, h.index, h.started, h.thinking, h.text, h.finished, h.alone, h.sent, h.known⟩, hlate⟩

theorem process_goes (hids : ids.Injective) (hmessage : ∀ j, ids j ≠ itemID) {r : ChatResponse α} (hdone : r.done = false)
    (h : c.Steady ids itemID) (hr : ¬ Late r c) :
    (c.process ids marshal r).1.foldlM readEvent (.open c.tracked) = some (.open (c.process ids marshal r).2.tracked) ∧
      (c.process ids marshal r).2.Steady ids itemID := by
  obtain ⟨hread, hsteady⟩ := data_goes marshal hids hmessage h hr hdone
  rw [read_process, hread]
  exact ⟨rfl, hsteady.number _⟩

theorem process_wrong (hmessage : ∀ j, ids j ≠ itemID) {r : ChatResponse α} (h : c.Steady ids itemID) (hr : Late r c) :
    (c.process ids marshal r).1.foldlM readEvent (.open c.tracked) = none := by
  rw [read_process, data_wrong hmessage h.1 hr]

/-- Neither thinking nor calls come after text or calls. -/
def InOrder (rs : List (ChatResponse α)) : Prop :=
  rs.Pairwise fun q r => r.message.thinking ≠ [] ∨ r.message.toolCalls ≠ [] → q.message.toolCalls = [] ∧ q.message.content = []

theorem late_iff (ids : Nat → Bytes) (marshal : α → Option Bytes) (rs : List (ChatResponse α)) (c : Converter) : ¬ Wrong (Converter.process ids marshal) Late rs c ↔
    (c.late = true → ∀ r ∈ rs, ¬ (r.message.thinking ≠ [] ∨ r.message.toolCalls ≠ [])) ∧ InOrder rs := by
  induction rs generalizing c with
  | nil => simp [Wrong, InOrder]
  | cons r rs ih =>
    rw [Wrong, not_or, ih, process_late, Late, InOrder, InOrder, List.pairwise_cons, List.forall_mem_cons]
    have hpair (q : ChatResponse α) : (q.message.thinking ≠ [] ∨ q.message.toolCalls ≠ [] →
        r.message.toolCalls = [] ∧ r.message.content = []) ↔ (r.message.toolCalls ≠ [] ∨ r.message.content ≠ [] →
          ¬ (q.message.thinking ≠ [] ∨ q.message.toolCalls ≠ [])) := by
      rw [← not_imp_not, not_and_or]
    simp only [hpair]
    constructor
    · rintro ⟨hr, hrest, hpairs⟩
      exact ⟨fun hlate => ⟨fun h => hr ⟨hlate, h⟩, hrest (.inl hlate)⟩, fun q hq hor => hrest (.inr hor) q hq, hpairs⟩
    · rintro ⟨hall, hfirst, hpairs⟩
      exact ⟨fun h => (hall h.1).1 h.2, fun hor q hq => hor.elim (fun hlate => (hall hlate).2 q hq)
        fun hor => hfirst q hq hor, hpairs⟩

end

end Converter

/-- The stream is well formed exactly if the responses come in order. -/
theorem events_wellFormed_iff {ids : Nat → Bytes} {itemID : Bytes} {marshal : α → Option Bytes} (hids : ids.Injective)
    (hmessage : ∀ j, ids j ≠ itemID) {rs : List (ChatResponse α)} (hrs : Complete rs) :
    WellFormed (stream ids itemID marshal rs) ↔ Converter.InOrder rs := by
  obtain ⟨before, last, rfl, hbefore, hlast⟩ := hrs
  have hnew : (newConverter itemID).Steady ids itemID := ⟨Converter.sound_new, nofun⟩
  have hnumbered := Converter.emitAll_numbers ids marshal (before ++ [last]) (newConverter itemID)
  rw [show (newConverter itemID).sequenceNumber = 0 from rfl, ← List.range_eq_range'] at hnumbered
  have hread : WellFormed (stream ids itemID marshal (before ++ [last])) ↔
      (stream ids itemID marshal (before ++ [last])).foldlM Converter.readEvent (.open []) = some .completed := by
    refine ⟨fun h => ?_, fun h => ⟨hnumbered, ?_⟩⟩
    · have := h.read
      rwa [List.foldlM_map] at this
    · rwa [List.foldlM_map]
  have horder := Converter.late_iff ids marshal (before ++ [last]) (newConverter itemID)
  rw [show (newConverter itemID).late = false from rfl] at horder
  simp only [Bool.false_eq_true, false_imp_iff, true_and, wrong_append] at horder
  rw [hread, ← horder, stream, emitAll_append, List.foldlM_append]
  have hrun := foldlM_emitAll (Converter.process ids marshal) Converter.Late
    (fun c => Reader.open c.tracked) (I := Converter.Steady ids itemID)
    (fun r (_ : r ∈ before) c h hr => Converter.process_wrong hmessage h hr)
    (fun r hr c h hr' => Converter.process_goes hids hmessage (hbefore r hr) h hr') hnew
  rw [show Reader.open [] = .open (newConverter itemID).tracked from rfl]
  obtain ⟨hwrong, hnone⟩ | ⟨hright, hsome, hsteady⟩ := hrun
  · rw [hnone]
    exact iff_of_false nofun fun h => h (.inl hwrong)
  · rw [hsome, Option.bind_eq_bind, Option.bind_some, emitAll_cons, emitAll_nil, List.append_nil, Converter.read_process]
    generalize (emitAll (Converter.process ids marshal) before (newConverter itemID)).2 = c at hsteady
    by_cases hlate : Converter.Late last c
    · rw [Converter.data_wrong hmessage hsteady.1 hlate]
      exact iff_of_false nofun fun h => h (.inr (.inl hlate))
    · rw [Converter.data_done hids hmessage hsteady hlate hlast]
      refine iff_of_true rfl fun h => ?_
      rcases h with hwrong | hwrong | hwrong
      · exact hright hwrong
      · exact hlate hwrong
      · exact hwrong

/-- An answer after thinking. -/
theorem thoughtAnswer_wellFormed :
    WellFormed (stream (fun j => List.replicate j 0) (ascii "msg_1") (fun _ : Unit => none)
      [{ message := { thinking := ascii "Greet" } }, { message := { content := ascii "Hi" } },
        { message := { content := ascii "!" }, done := true }]) := by
  have hids : Function.Injective fun j => List.replicate j (0 : UInt8) := fun i j heq => by
    simpa using congrArg List.length heq
  have hmessage : ∀ j, List.replicate j (0 : UInt8) ≠ ascii "msg_1" := fun j heq => by
    have := List.eq_of_mem_replicate (heq ▸ (show 109 ∈ ascii "msg_1" by decide))
    cases this
  refine (events_wellFormed_iff hids hmessage ⟨[_, _], _, rfl, by simp, rfl⟩).mpr ?_
  simp [Converter.InOrder]

/-- A call after text gets the index of the message, which is never done. -/
theorem textCall_illFormed :
    Complete [{ message := { content := ascii "Hi" } },
      ({ message := { toolCalls := [⟨ascii "call", ascii "search", ()⟩] }, done := true } : ChatResponse Unit)] ∧
    ¬ WellFormed (stream (fun j => List.replicate j 0) (ascii "msg_1") (fun _ : Unit => some (ascii "\x7b\x7d"))
      [{ message := { content := ascii "Hi" } },
        { message := { toolCalls := [⟨ascii "call", ascii "search", ()⟩] }, done := true }]) := by
  exact ⟨⟨[_], _, rfl, by simp, rfl⟩, by decide⟩

end Xdragon.Openai
