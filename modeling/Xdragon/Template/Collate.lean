import Mathlib.Data.List.SplitBy
import Xdragon.Lib.Wire

/-!
# Collated messages

`collate` and `convertMessagesForTemplate` of `template/template.go`. A message joins the one before it if both have the
same role, and brings nothing but its content.
-/

namespace Xdragon.Template

open Xdragon.Lib

/-! ## Messages -/

/-- A tool call, with arguments of any type. -/
structure ToolCall (A : Type) where
  id : Bytes
  index : Int
  name : Bytes
  arguments : A
  deriving DecidableEq

structure Message (A : Type) where
  role : Bytes
  content : Bytes
  thinking : Bytes
  images : List Bytes
  toolCalls : List (ToolCall A)
  toolName : Bytes
  toolCallID : Bytes

variable {A M : Type}

/-- What stands between two contents. -/
def blankLine : Bytes := ascii "\n\n"

/-- `strings.Join` -/
def join (texts : List Bytes) : Bytes := blankLine.intercalate texts

/-- The second message joins the first one. -/
def Message.merges (a b : Message A) : Bool := decide (a.role = b.role ∧ b.role ≠ ascii "tool")

/-- The collated messages after one more, which may join the last of them. -/
def addMessage (collated : List (Message A)) (m : Message A) : List (Message A) :=
  match collated.getLast? with
  | some last =>
    if last.merges m then collated.dropLast ++ [{ last with content := last.content ++ (blankLine ++ m.content) }]
    else collated ++ [m]
  | none => collated ++ [m]

/-- One message of the loop. -/
def collateMessage (s : List Bytes × List (Message A)) (m : Message A) : List Bytes × List (Message A) :=
  (if m.role = ascii "system" then s.1 ++ [m.content] else s.1, addMessage s.2 m)

/-- The system messages, and the messages of all roles. -/
def collate (msgs : List (Message A)) : Bytes × List (Message A) :=
  let s := msgs.foldl collateMessage ([], [])
  (join s.1, s.2)

/-- `ToMap` makes the arguments what a template can range over. -/
def convertMessagesForTemplate (toMap : A → M) (messages : List (Message A)) : List (Message M) :=
  messages.map fun msg =>
    { role := msg.role, content := msg.content, thinking := msg.thinking, images := msg.images,
      toolCalls := msg.toolCalls.map fun tc =>
        { id := tc.id, index := tc.index, name := tc.name, arguments := toMap tc.arguments },
      toolName := msg.toolName, toolCallID := msg.toolCallID }

/-! ## Runs -/

/-- Runs of messages of one role. A tool message is a run of its own. -/
def runs (msgs : List (Message A)) : List (List (Message A)) := msgs.splitBy Message.merges

/-- The message of a run, with the contents joined. -/
def merge : List (Message A) → Option (Message A)
  | [] => none
  | m :: ms => some { m with content := join ((m :: ms).map (·.content)) }

@[simp] theorem filterMap_merge_nil (L : List (List (Message A))) : ([] :: L).filterMap merge = L.filterMap merge := rfl

@[simp] theorem filterMap_merge_cons (m : Message A) (ms : List (Message A)) (L : List (List (Message A))) :
    ((m :: ms) :: L).filterMap merge =
      { m with content := join ((m :: ms).map (·.content)) } :: L.filterMap merge := rfl

theorem join_concat {texts : List Bytes} (h : texts ≠ []) (text : Bytes) :
    join (texts ++ [text]) = join texts ++ (blankLine ++ text) := by
  induction texts with
  | nil => exact absurd rfl h
  | cons t texts ih =>
    cases texts with
    | nil => simp [join, List.intercalate]
    | cons t' texts =>
      have := ih (List.cons_ne_nil _ _)
      unfold join at this ⊢
      rw [List.cons_append, List.cons_append, List.intercalate_cons_cons, ← List.cons_append, this,
        List.intercalate_cons_cons]
      simp

theorem collate_snd (msgs : List (Message A)) : (collate msgs).2 = msgs.foldl addMessage [] := by
  have h : ∀ s : List Bytes × List (Message A), (msgs.foldl collateMessage s).2 = msgs.foldl addMessage s.2 :=
    fun s => (List.foldl_hom Prod.snd fun _ _ => rfl).symm
  exact h ([], [])

theorem addMessage_of_not_merges {collated : List (Message A)} {m : Message A}
    (h : ∀ last ∈ collated.getLast?, last.merges m = false) : addMessage collated m = collated ++ [m] := by
  unfold addMessage
  split
  · rename_i last hlast
    rw [h last hlast, if_neg Bool.false_ne_true]
  · rfl

theorem addMessage_of_merges {collated : List (Message A)} {last m : Message A} (h : last.merges m = true) :
    addMessage (collated ++ [last]) m =
      collated ++ [{ last with content := last.content ++ (blankLine ++ m.content) }] := by
  unfold addMessage
  rw [List.getLast?_concat]
  dsimp only
  rw [if_pos h, List.dropLast_concat]

/-- In a run every message joins the first one. -/
theorem merges_of_chain {m : Message A} {ms : List (Message A)} (h : (m :: ms).IsChain (Message.merges · ·)) :
    ∀ x ∈ ms, m.merges x = true := by
  induction ms generalizing m with
  | nil => nofun
  | cons m' ms ih =>
    rw [List.isChain_cons_cons] at h
    obtain ⟨hrole, htool⟩ := of_decide_eq_true h.1
    intro x hx
    obtain rfl | hx := List.mem_cons.mp hx
    · exact h.1
    · have := of_decide_eq_true (ih h.2 x hx)
      exact decide_eq_true ⟨hrole.trans this.1, this.2⟩

/-- The rest of a run joins what there is of it. -/
theorem foldl_addMessage {m : Message A} {ms : List (Message A)} (h : ∀ x ∈ ms, m.merges x = true)
    (collated : List (Message A)) {texts : List Bytes} (htexts : texts ≠ []) :
    ms.foldl addMessage (collated ++ [{ m with content := join texts }]) =
      collated ++ [{ m with content := join (texts ++ ms.map (·.content)) }] := by
  induction ms generalizing texts with
  | nil => simp
  | cons x ms ih =>
    have hx : ({ m with content := join texts } : Message A).merges x = true := h x List.mem_cons_self
    rw [List.foldl_cons, addMessage_of_merges hx, List.map_cons, List.append_cons texts]
    dsimp only
    rw [← join_concat htexts]
    exact ih (fun y hy => h y (List.mem_cons_of_mem _ hy)) (List.append_ne_nil_of_left_ne_nil htexts _)

theorem foldl_run {m : Message A} {ms : List (Message A)} (h : (m :: ms).IsChain (Message.merges · ·))
    {collated : List (Message A)} (hlast : ∀ last ∈ collated.getLast?, last.merges m = false) :
    (m :: ms).foldl addMessage collated = collated ++ (merge (m :: ms)).toList := by
  have hm : m = { m with content := join [m.content] } := by simp [join, List.intercalate]
  rw [List.foldl_cons, addMessage_of_not_merges hlast]
  conv_lhs => rw [hm]
  exact foldl_addMessage (merges_of_chain h) collated (List.cons_ne_nil _ _)

/-- The role of a run is that of its last message. -/
theorem merge_merges {r : List (Message A)} (h : r.IsChain (Message.merges · ·)) (hr : r ≠ []) (x : Message A) :
    ∀ m ∈ merge r, m.merges x = (r.getLast hr).merges x := by
  cases r with
  | nil => exact absurd rfl hr
  | cons m ms =>
    intro m' hm'
    cases hm'
    have hrole : ((m :: ms).getLast hr).role = m.role := by
      obtain heq | hmem := List.mem_cons.mp (List.getLast_mem hr)
      · rw [heq]
      · exact (of_decide_eq_true (merges_of_chain h _ hmem)).1.symm
    unfold Message.merges
    rw [hrole]

theorem foldl_runs {L : List (List (Message A))} (hne : [] ∉ L) (hchain : ∀ r ∈ L, r.IsChain (Message.merges · ·))
    (hnext : L.IsChain fun r r' => ∃ hr hr', (r.getLast hr).merges (r'.head hr') = false)
    {collated : List (Message A)}
    (hlast : ∀ last ∈ collated.getLast?, ∀ r ∈ L.head?, ∀ m ∈ r.head?, last.merges m = false) :
    L.flatten.foldl addMessage collated = collated ++ L.filterMap merge := by
  induction L generalizing collated with
  | nil => simp
  | cons r L ih =>
    cases r with
    | nil => exact absurd List.mem_cons_self hne
    | cons m ms =>
      have hr := hchain _ List.mem_cons_self
      rw [List.flatten_cons, List.foldl_append,
        foldl_run hr fun last hl => hlast last hl _ rfl _ rfl,
        ih (fun h => hne (List.mem_cons_of_mem _ h)) (fun r hr => hchain r (List.mem_cons_of_mem _ hr)) hnext.tail]
      · simp [merge]
      · intro last hl r' hr' x hx
        rw [List.isChain_cons] at hnext
        obtain ⟨hm, hr'', h⟩ := hnext.1 r' hr'
        have hlast : last ∈ merge (m :: ms) := by simpa [merge] using hl
        rw [merge_merges hr hm x last hlast, ← h, List.head_of_mem_head? hx]

theorem collate_eq (msgs : List (Message A)) : (collate msgs).2 = (runs msgs).filterMap merge := by
  rw [collate_snd]
  conv_lhs => rw [← List.flatten_splitBy Message.merges msgs]
  exact foldl_runs (List.nil_notMem_splitBy _ _) (fun _ => List.isChain_of_mem_splitBy)
    (List.isChain_getLast_head_splitBy _ _) nofun

/-- Collated messages do not merge any further. -/
theorem collate_chain (msgs : List (Message A)) : (collate msgs).2.IsChain fun a b => a.merges b = false := by
  have hne : [] ∉ runs msgs := List.nil_notMem_splitBy _ _
  have hchain : ∀ r ∈ runs msgs, r.IsChain (Message.merges · ·) := fun _ => List.isChain_of_mem_splitBy
  have hnext : (runs msgs).IsChain _ := List.isChain_getLast_head_splitBy Message.merges msgs
  rw [collate_eq]
  generalize runs msgs = L at hne hchain hnext
  induction L with
  | nil => exact .nil
  | cons r L ih =>
    cases r with
    | nil => exact absurd List.mem_cons_self hne
    | cons m ms =>
      have ih := ih (fun h => hne (List.mem_cons_of_mem _ h)) (fun r hr => hchain r (List.mem_cons_of_mem _ hr))
        hnext.tail
      rw [filterMap_merge_cons]
      cases L with
      | nil => exact .singleton _
      | cons r' L =>
        cases r' with
        | nil => exact absurd (List.mem_cons_of_mem _ List.mem_cons_self) hne
        | cons m' ms' =>
          rw [filterMap_merge_cons] at ih ⊢
          obtain ⟨hr, hr', h⟩ := (List.isChain_cons_cons.mp hnext).1
          exact .cons_cons ((merge_merges (hchain _ List.mem_cons_self) hr m' _ rfl).trans h) ih

theorem collate_role {msgs : List (Message A)} {m : Message A} (h : m ∈ (collate msgs).2) :
    ∃ m' ∈ msgs, m.role = m'.role := by
  rw [collate_eq, List.mem_filterMap] at h
  obtain ⟨r, hr, hm⟩ := h
  cases r with
  | nil => cases hm
  | cons m' ms =>
    cases hm
    refine ⟨m', ?_, rfl⟩
    rw [← List.flatten_splitBy Message.merges msgs]
    exact List.mem_flatten_of_mem hr List.mem_cons_self

/-! ## Payload -/

/-- The thinking text, if there is one. -/
def Message.thinkingTexts (m : Message A) : List Bytes := if m.thinking = [] then [] else [m.thinking]

/-- The collated messages have all that the messages have, and each run has its contents joined. -/
structure Kept (msgs collated : List (Message A)) : Prop where
  toolCalls : collated.flatMap (·.toolCalls) = msgs.flatMap (·.toolCalls)
  images : collated.flatMap (·.images) = msgs.flatMap (·.images)
  thinking : collated.flatMap (·.thinkingTexts) = msgs.flatMap (·.thinkingTexts)
  contents : collated.map (fun m => (some m.role, m.content)) =
    (runs msgs).map fun r => ((r.map (·.role)).head?, join (r.map (·.content)))

/-- A message with nothing but a content. -/
def Message.Bare (m : Message A) : Prop := m.toolCalls = [] ∧ m.images = [] ∧ m.thinking = []

theorem merge_contents {L : List (List (Message A))} (hne : [] ∉ L) :
    (L.filterMap merge).map (fun m => (some m.role, m.content)) =
      L.map fun r => ((r.map (·.role)).head?, join (r.map (·.content))) := by
  induction L with
  | nil => rfl
  | cons r L ih =>
    cases r with
    | nil => exact absurd List.mem_cons_self hne
    | cons m ms =>
      rw [filterMap_merge_cons, List.map_cons, ih fun h => hne (List.mem_cons_of_mem _ h)]
      rfl

/-- What the first messages of the runs have. -/
theorem flatMap_merge_sublist {X : Type} (f : Message A → List X) (hf : ∀ m c, f { m with content := c } = f m)
    (L : List (List (Message A))) : ((L.filterMap merge).flatMap f).Sublist (L.flatten.flatMap f) := by
  induction L with
  | nil => exact List.Sublist.refl _
  | cons r L ih =>
    cases r with
    | nil => exact ih
    | cons m ms =>
      rw [filterMap_merge_cons, List.flatMap_cons, List.flatten_cons, List.cons_append, List.flatMap_cons,
        List.flatMap_append, hf]
      exact (List.Sublist.refl _).append (ih.trans (List.sublist_append_right _ _))

/-- Nothing is lost if and only if all that the later messages of a run have is nothing. -/
theorem flatMap_merge_iff {X : Type} (f : Message A → List X) (hf : ∀ m c, f { m with content := c } = f m)
    (L : List (List (Message A))) :
    (L.filterMap merge).flatMap f = L.flatten.flatMap f ↔ ∀ r ∈ L, ∀ m ∈ r.tail, f m = [] := by
  induction L with
  | nil => exact iff_of_true rfl nofun
  | cons r L ih =>
    cases r with
    | nil => simpa using ih
    | cons m ms =>
      have hsub := flatMap_merge_sublist f hf L
      rw [filterMap_merge_cons, List.flatMap_cons, List.flatten_cons, List.cons_append, List.flatMap_cons,
        List.flatMap_append, hf, List.append_cancel_left_eq, List.forall_mem_cons, ← ih, List.tail_cons,
        ← List.flatMap_eq_nil_iff]
      constructor
      · intro h
        have hlen := congrArg List.length h
        rw [List.length_append] at hlen
        have hms : ms.flatMap f = [] := List.eq_nil_of_length_eq_zero (by have := hsub.length_le; omega)
        rw [hms, List.nil_append] at h
        exact ⟨hms, h⟩
      · rintro ⟨hms, h⟩
        rw [hms, h, List.nil_append]

theorem thinkingTexts_eq_nil {m : Message A} : m.thinkingTexts = [] ↔ m.thinking = [] := by
  unfold Message.thinkingTexts
  split_ifs with h <;> simp [h]

/-- A later message of a run is one that joins the message before it. -/
theorem tail_runs_iff (P : Message A → Prop) (msgs : List (Message A)) :
    (∀ r ∈ runs msgs, ∀ m ∈ r.tail, P m) ↔ msgs.IsChain fun a b => a.merges b = true → P b := by
  have hchain : ∀ r : List (Message A), r.IsChain (Message.merges · ·) →
      ((∀ m ∈ r.tail, P m) ↔ r.IsChain fun a b => a.merges b = true → P b) := by
    intro r
    induction r with
    | nil => exact fun _ => iff_of_true nofun .nil
    | cons m ms ih =>
      intro h
      cases ms with
      | nil => exact iff_of_true nofun (.singleton _)
      | cons m' ms =>
        rw [List.isChain_cons_cons] at h ⊢
        rw [← ih h.2, List.tail_cons, List.forall_mem_cons, List.tail_cons, forall_prop_of_true h.1]
  unfold runs
  conv_rhs => rw [← List.flatten_splitBy Message.merges msgs, List.isChain_flatten (List.nil_notMem_splitBy _ _)]
  constructor
  · intro h
    refine ⟨fun r hr => (hchain r (List.isChain_of_mem_splitBy hr)).mp (h r hr),
      (List.isChain_getLast_head_splitBy Message.merges msgs).imp ?_⟩
    rintro r r' ⟨hr, hr', hno⟩ x hx y hy hmerges
    rw [← List.getLast_of_mem_getLast? hx, ← List.head_of_mem_head? hy, hno] at hmerges
    cases hmerges
  · rintro ⟨h, -⟩ r hr
    exact (hchain r (List.isChain_of_mem_splitBy hr)).mpr (h r hr)

/-- The collated messages keep all that the messages have if and only if every message that joins the one before it is
bare. -/
theorem collate_kept_iff (msgs : List (Message A)) :
    Kept msgs (collate msgs).2 ↔ msgs.IsChain fun a b => a.merges b = true → b.Bare := by
  have hne : [] ∉ runs msgs := List.nil_notMem_splitBy _ _
  have hflatten : (runs msgs).flatten = msgs := List.flatten_splitBy _ _
  have htoolCalls := flatMap_merge_iff (·.toolCalls) (fun _ _ => rfl) (runs msgs)
  have himages := flatMap_merge_iff (·.images) (fun _ _ => rfl) (runs msgs)
  have hthinking := flatMap_merge_iff Message.thinkingTexts (fun _ _ => rfl) (runs msgs)
  rw [hflatten] at htoolCalls himages hthinking
  rw [← tail_runs_iff, collate_eq]
  constructor
  · intro h r hr m hm
    exact ⟨htoolCalls.mp h.toolCalls r hr m hm, himages.mp h.images r hr m hm,
      thinkingTexts_eq_nil.mp (hthinking.mp h.thinking r hr m hm)⟩
  · intro h
    exact ⟨htoolCalls.mpr fun r hr m hm => (h r hr m hm).1, himages.mpr fun r hr m hm => (h r hr m hm).2.1,
      hthinking.mpr fun r hr m hm => thinkingTexts_eq_nil.mpr (h r hr m hm).2.2, merge_contents hne⟩

/-- An assistant that speaks, and then calls a tool in a message of its own. -/
def speakThenCall : List (Message Unit) :=
  [⟨ascii "assistant", ascii "Let me look.", [], [], [], [], []⟩,
    ⟨ascii "assistant", [], [], [], [⟨ascii "call_1", 0, ascii "get_weather", ()⟩], [], []⟩]

/-- The call is gone. -/
theorem speakThenCall_lost : ¬ Kept speakThenCall (collate speakThenCall).2 := by
  intro h
  have := h.toolCalls
  revert this
  decide

end Xdragon.Template
