import Xdragon.Template.Collate
import Xdragon.Template.Delete

/-!
# Execution of a template

`Template.Execute` of `template/template.go`. A template that does not know `.Messages` is executed once for every turn, with
the last system message, prompt and response that were seen. The last turn gets the template that is cut at its response.
-/

namespace Xdragon.Template

open Xdragon.Lib

variable {A M T ε : Type}

/-- What an execution supplies to a template that takes one turn. -/
structure Turn where
  system : Bytes
  prompt : Bytes
  response : Bytes

/-- The data of an execution. -/
inductive Data (M T : Type) where
  | suffix (prompt suffix : Bytes)
  | messages (system : Bytes) (messages : List (Message M)) (tools : T)
  | turn (turn : Turn)

structure Values (A T : Type) where
  messages : List (Message A)
  tools : T
  prompt : Bytes
  suffix : Bytes
  forceLegacy : Bool

/-- The pending turn, the output, and the turns that were executed. -/
structure Legacy where
  turn : Turn
  b : Bytes
  executed : List Turn

/-- The closure `execute`, which clears the pending turn. -/
def Legacy.execute (exec : Turn → Except ε Bytes) (s : Legacy) : Except ε Legacy :=
  (exec s.turn).map fun out => { turn := ⟨[], [], []⟩, b := s.b ++ out, executed := s.executed ++ [s.turn] }

/-- `execute` on a condition. -/
def Legacy.executeIf (exec : Turn → Except ε Bytes) (s : Legacy) (c : Prop) [Decidable c] : Except ε Legacy :=
  if c then s.execute exec else .ok s

/-- One message of the loop. -/
def Legacy.message (exec : Turn → Except ε Bytes) (s : Legacy) (m : Message A) : Except ε Legacy :=
  if m.role = ascii "system" then
    (s.executeIf exec (s.turn.prompt ≠ [] ∨ s.turn.response ≠ [])).map fun s =>
      { s with turn := { s.turn with system := m.content } }
  else if m.role = ascii "user" then
    (s.executeIf exec (s.turn.response ≠ [])).map fun s => { s with turn := { s.turn with prompt := m.content } }
  else if m.role = ascii "assistant" then .ok { s with turn := { s.turn with response := m.content } }
  else .ok s

/-- The loop and the final execution, with the output and the turns that were executed. The outcome `none` is the panic of
`deleteNode`. -/
def executeLegacy (exec : List Node → Turn → Except ε Bytes) (root : List Node) (messages : List (Message A)) :
    Option (Except ε (Bytes × List Turn)) :=
  match messages.foldlM (Legacy.message (exec root)) ⟨⟨[], [], []⟩, [], []⟩ with
  | .error err => some (.error err)
  | .ok s => (deleteNode root).map fun nodes =>
    (exec nodes s.turn).map fun out => (s.b ++ out, s.executed ++ [s.turn])

/-- The text of a template, where `vars` are the names that it uses. -/
def execute (exec : List Node → Data M T → Except ε Bytes) (vars : List Node → Except ε (List Bytes)) (toMap : A → M)
    (root : List Node) (v : Values A T) : Option (Except ε Bytes) :=
  let (system, messages) := collate v.messages
  match vars root with
  | .error err => some (.error err)
  | .ok names =>
    if v.prompt ≠ [] ∧ v.suffix ≠ [] then some (exec root (.suffix v.prompt v.suffix))
    else if v.forceLegacy = false ∧ ascii "messages" ∈ names then
      some (exec root (.messages system (convertMessagesForTemplate toMap messages) v.tools))
    else
      (executeLegacy (fun nodes t => exec nodes (.turn t)) root messages).map fun r => r.map Prod.fst

/-! ## Turns -/

/-- The contents that an execution gets, with the roles that they have. -/
def Turn.contents (t : Turn) : List (Bytes × Bytes) :=
  [(ascii "system", t.system), (ascii "user", t.prompt), (ascii "assistant", t.response)].filter (·.2 ≠ [])

/-- The contents of messages, without those that are empty. -/
def contents (messages : List (Message A)) : List (Bytes × Bytes) :=
  (messages.map fun m => (m.role, m.content)).filter (·.2 ≠ [])

/-- Each content goes to one execution, in the order of the messages. -/
def Supplied (executed : List Turn) (messages : List (Message A)) : Prop :=
  executed.flatMap Turn.contents = contents messages

/-- The roles of a chat without tools. -/
def roles : List Bytes := [ascii "system", ascii "user", ascii "assistant"]

/-- The pending turn is executed before it takes the message. -/
def Turn.Flushes (t : Turn) (m : Message A) : Prop :=
  m.role = ascii "system" ∧ (t.prompt ≠ [] ∨ t.response ≠ []) ∨ m.role = ascii "user" ∧ t.response ≠ []

instance (t : Turn) (m : Message A) : Decidable (t.Flushes m) :=
  inferInstanceAs (Decidable (_ ∨ _))

/-- The pending turn after a message. -/
def Turn.after (t : Turn) (m : Message A) : Turn :=
  let t := if t.Flushes m then ⟨[], [], []⟩ else t
  if m.role = ascii "system" then { t with system := m.content }
  else if m.role = ascii "user" then { t with prompt := m.content }
  else if m.role = ascii "assistant" then { t with response := m.content }
  else t

/-- The message takes the place of a content that no execution got. -/
def Turn.Overwrites (t : Turn) (m : Message A) : Prop :=
  m.role = ascii "system" ∧ t.system ≠ [] ∧ t.prompt = [] ∧ t.response = [] ∨
    m.role = ascii "user" ∧ t.prompt ≠ [] ∧ t.response = [] ∨
    m.role = ascii "assistant" ∧ t.response ≠ []

/-- What the executions so far got, and what the next one would get. -/
def Legacy.given (s : Legacy) : List (Bytes × Bytes) := s.executed.flatMap Turn.contents ++ s.turn.contents

theorem map_ok {α β : Type} {f : α → β} {x : Except ε α} {b : β} (h : x.map f = .ok b) : ∃ a, x = .ok a ∧ f a = b := by
  cases x with
  | error err => cases h
  | ok a =>
    cases h
    exact ⟨a, rfl, rfl⟩

theorem Legacy.executeIf_ok {exec : Turn → Except ε Bytes} {s s' : Legacy} {c : Prop} [Decidable c]
    (h : s.executeIf exec c = .ok s') :
    s'.turn = (if c then ⟨[], [], []⟩ else s.turn) ∧ s'.executed = s.executed ++ if c then [s.turn] else [] := by
  unfold Legacy.executeIf at h
  split_ifs at h ⊢
  · obtain ⟨out, -, rfl⟩ := map_ok h
    exact ⟨rfl, rfl⟩
  · cases h
    exact ⟨rfl, (List.append_nil _).symm⟩

theorem roles_ne : ascii "user" ≠ ascii "system" ∧ ascii "assistant" ≠ ascii "system" ∧
    ascii "assistant" ≠ ascii "user" := by
  decide

theorem Legacy.message_ok {exec : Turn → Except ε Bytes} {s s' : Legacy} {m : Message A}
    (h : s.message exec m = .ok s') :
    s'.turn = s.turn.after m ∧ s'.executed = s.executed ++ if s.turn.Flushes m then [s.turn] else [] := by
  unfold Legacy.message at h
  unfold Turn.after Turn.Flushes
  split_ifs at h with hsystem huser hassistant
  · obtain ⟨s₁, hs₁, rfl⟩ := map_ok h
    obtain ⟨hturn, hexecuted⟩ := Legacy.executeIf_ok hs₁
    simp [hsystem, hturn, hexecuted, roles_ne.1.symm]
  · obtain ⟨s₁, hs₁, rfl⟩ := map_ok h
    obtain ⟨hturn, hexecuted⟩ := Legacy.executeIf_ok hs₁
    simp [huser, hturn, hexecuted, roles_ne.1]
  · cases h
    simp [hassistant, roles_ne]
  · cases h
    simp [hsystem, huser, hassistant]

/-! ## What is given -/

/-- A content, if it is not empty. -/
def content (role text : Bytes) : List (Bytes × Bytes) := if text = [] then [] else [(role, text)]

@[simp] theorem content_nil (role : Bytes) : content role [] = [] := rfl

theorem Turn.contents_eq (t : Turn) : t.contents =
    content (ascii "system") t.system ++ (content (ascii "user") t.prompt ++ content (ascii "assistant") t.response) := by
  unfold Turn.contents content
  split_ifs <;> simp_all

theorem contents_cons (m : Message A) (ms : List (Message A)) : contents (m :: ms) = content m.role m.content ++ contents ms := by
  unfold contents content
  rw [List.map_cons, List.filter_cons]
  split_ifs <;> simp_all

/-- What is executed at a message and what is pending after it, when nothing is overwritten. -/
theorem Turn.after_contents {t : Turn} {m : Message A} (hrole : m.role ∈ roles) (h : ¬ t.Overwrites m) :
    (if t.Flushes m then [t] else []).flatMap Turn.contents ++ (t.after m).contents =
      t.contents ++ content m.role m.content := by
  obtain ⟨huser, hassistant, hassistant'⟩ := roles_ne
  unfold Turn.Overwrites at h
  unfold Turn.after Turn.Flushes
  simp only [roles, List.mem_cons, List.not_mem_nil, or_false] at hrole
  rcases hrole with hrole | hrole | hrole
  · by_cases hpending : t.prompt ≠ [] ∨ t.response ≠ []
    · simp [hrole, hpending, huser.symm, contents_eq]
    · rw [not_or, not_not, not_not] at hpending
      have hsystem : t.system = [] := by
        by_contra hne
        exact h (.inl ⟨hrole, hne, hpending⟩)
      simp [hrole, hpending, huser.symm, contents_eq, hsystem]
  · by_cases hresponse : t.response = []
    · have hprompt : t.prompt = [] := by
        by_contra hne
        exact h (.inr (.inl ⟨hrole, hne, hresponse⟩))
      simp [hrole, hresponse, huser, contents_eq, hprompt]
    · simp [hrole, hresponse, huser, contents_eq]
  · have hresponse : t.response = [] := by
      by_contra hne
      exact h (.inr (.inr ⟨hrole, hne⟩))
    simp [hrole, hassistant, hassistant', contents_eq, hresponse]

/-- A content that is overwritten is missing. -/
theorem Turn.after_contents_lt {t : Turn} {m : Message A} (h : t.Overwrites m) :
    ((if t.Flushes m then [t] else []).flatMap Turn.contents ++ (t.after m).contents).length <
      (t.contents ++ content m.role m.content).length := by
  obtain ⟨huser, hassistant, hassistant'⟩ := roles_ne
  have hpos : ∀ role text, text ≠ [] → 0 < (content role text).length := by
    intro role text htext
    unfold content
    rw [if_neg htext]
    exact Nat.one_pos
  unfold Turn.after Turn.Flushes
  rcases h with ⟨hrole, hsystem, hprompt, hresponse⟩ | ⟨hrole, hprompt, hresponse⟩ | ⟨hrole, hresponse⟩
  · simp [hrole, hprompt, hresponse, huser.symm, contents_eq]
    exact hpos _ _ hsystem
  · simp [hrole, hresponse, huser, contents_eq]
    exact hpos _ _ hprompt
  · simp [hrole, hassistant, hassistant', contents_eq]
    have := hpos (ascii "assistant") _ hresponse
    omega

/-- No content is overwritten. -/
def Lossless (t : Turn) : List (Message A) → Prop
  | [] => True
  | m :: ms => ¬ t.Overwrites m ∧ Lossless (t.after m) ms

theorem Legacy.given_message {exec : Turn → Except ε Bytes} {s s' : Legacy} {m : Message A}
    (h : s.message exec m = .ok s') : s'.given = s.executed.flatMap Turn.contents ++
      ((if s.turn.Flushes m then [s.turn] else []).flatMap Turn.contents ++ (s.turn.after m).contents) := by
  obtain ⟨hturn, hexecuted⟩ := Legacy.message_ok h
  unfold Legacy.given
  rw [hturn, hexecuted, List.flatMap_append, List.append_assoc]

theorem foldlM_cons_ok {exec : Turn → Except ε Bytes} {s s' : Legacy} {m : Message A} {ms : List (Message A)}
    (h : (m :: ms).foldlM (Legacy.message exec) s = .ok s') :
    ∃ s₁, s.message exec m = .ok s₁ ∧ ms.foldlM (Legacy.message exec) s₁ = .ok s' := by
  rw [List.foldlM_cons] at h
  cases hs₁ : s.message exec m with
  | error err =>
    rw [hs₁] at h
    cases h
  | ok s₁ =>
    rw [hs₁] at h
    exact ⟨s₁, rfl, h⟩

theorem Legacy.given_length_le {exec : Turn → Except ε Bytes} {s s' : Legacy} {ms : List (Message A)}
    (hroles : ∀ m ∈ ms, m.role ∈ roles) (h : ms.foldlM (Legacy.message exec) s = .ok s') :
    s'.given.length ≤ (s.given ++ contents ms).length := by
  induction ms generalizing s with
  | nil =>
    cases h
    simp
  | cons m ms ih =>
    obtain ⟨s₁, hs₁, h⟩ := foldlM_cons_ok h
    have hle := ih (fun m hm => hroles m (List.mem_cons_of_mem _ hm)) h
    have hgiven := Legacy.given_message hs₁
    by_cases hover : s.turn.Overwrites m
    · have := Turn.after_contents_lt hover
      rw [hgiven] at hle
      simp only [Legacy.given, contents_cons, List.length_append] at this hle ⊢
      omega
    · rw [Turn.after_contents (hroles m List.mem_cons_self) hover] at hgiven
      rw [hgiven] at hle
      simp only [Legacy.given, contents_cons, List.length_append] at hle ⊢
      omega

/-- All contents are given if and only if none is overwritten. -/
theorem Legacy.given_iff {exec : Turn → Except ε Bytes} {s s' : Legacy} {ms : List (Message A)}
    (hroles : ∀ m ∈ ms, m.role ∈ roles) (h : ms.foldlM (Legacy.message exec) s = .ok s') :
    s'.given = s.given ++ contents ms ↔ Lossless s.turn ms := by
  induction ms generalizing s with
  | nil =>
    cases h
    exact iff_of_true (List.append_nil _).symm trivial
  | cons m ms ih =>
    have hroles' : ∀ m ∈ ms, m.role ∈ roles := fun m hm => hroles m (List.mem_cons_of_mem _ hm)
    obtain ⟨s₁, hs₁, h⟩ := foldlM_cons_ok h
    have hgiven := Legacy.given_message hs₁
    by_cases hover : s.turn.Overwrites m
    · refine iff_of_false (fun heq => ?_) fun hl => hl.1 hover
      have hle := Legacy.given_length_le hroles' h
      have := Turn.after_contents_lt hover
      rw [heq, hgiven] at hle
      simp only [Legacy.given, contents_cons, List.length_append] at this hle
      omega
    · rw [Turn.after_contents (hroles m List.mem_cons_self) hover, ← List.append_assoc] at hgiven
      have hiff := ih hroles' h
      rw [hgiven, List.append_assoc, ← contents_cons, (Legacy.message_ok hs₁).1] at hiff
      exact hiff.trans (and_iff_right hover).symm

/-! ## What is overwritten -/

theorem lossless_iff_forall {t : Turn} {ms : List (Message A)} :
    Lossless t ms ↔ ∀ before m after, ms = before ++ m :: after → ¬ (before.foldl Turn.after t).Overwrites m := by
  induction ms generalizing t with
  | nil => exact iff_of_true trivial fun before _ _ h => absurd h.symm (by simp)
  | cons m ms ih =>
    rw [Lossless, ih]
    constructor
    · rintro ⟨hm, h⟩ before m' after heq
      cases before with
      | nil =>
        cases heq
        exact hm
      | cons x before =>
        cases heq
        exact h before m' after rfl
    · intro h
      exact ⟨h [] m ms rfl, fun before m' after heq => h (m :: before) m' after (by rw [heq]; rfl)⟩

theorem Turn.after_system {t : Turn} {m : Message A} (h : m.role = ascii "system") : t.after m = ⟨m.content, [], []⟩ := by
  unfold Turn.after Turn.Flushes
  by_cases hpending : t.prompt ≠ [] ∨ t.response ≠ []
  · simp [h, hpending]
  · rw [not_or, not_not, not_not] at hpending
    simp [h, hpending, roles_ne.1.symm]

theorem Turn.after_user {t : Turn} {m : Message A} (h : m.role = ascii "user") :
    t.after m = ⟨if t.response = [] then t.system else [], m.content, []⟩ := by
  unfold Turn.after Turn.Flushes
  by_cases hresponse : t.response = [] <;> simp [h, hresponse, roles_ne.1]

theorem Turn.after_assistant {t : Turn} {m : Message A} (h : m.role = ascii "assistant") :
    t.after m = { t with response := m.content } := by
  unfold Turn.after Turn.Flushes
  simp [h, roles_ne]

theorem mem_roles {role : Bytes} : role ∈ roles ↔ role = ascii "system" ∨ role = ascii "user" ∨ role = ascii "assistant" := by
  simp [roles]

/-- The pending turn after messages. -/
def pending (ms : List (Message A)) : Turn := ms.foldl Turn.after ⟨[], [], []⟩

theorem pending_concat (ms : List (Message A)) (m : Message A) : pending (ms ++ [m]) = (pending ms).after m := by
  unfold pending
  rw [List.foldl_concat]

/-- A response is pending only right after an assistant. -/
theorem pending_response {ms : List (Message A)} {m : Message A} (hrole : m.role ∈ roles)
    (h : (pending (ms ++ [m])).response ≠ []) : m.role = ascii "assistant" := by
  rw [pending_concat] at h
  rcases mem_roles.mp hrole with hsystem | huser | hassistant
  · rw [Turn.after_system hsystem] at h
    exact absurd rfl h
  · rw [Turn.after_user huser] at h
    exact absurd rfl h
  · exact hassistant

/-- A prompt is pending right after its user, or after the assistant that comes next. -/
theorem pending_prompt {ms : List (Message A)} (hroles : ∀ m ∈ ms, m.role ∈ roles)
    (hchain : ms.IsChain fun a b => a.role ≠ b.role) (h : (pending ms).prompt ≠ []) :
    ∃ before x rest, ms = before ++ x :: rest ∧ x.role = ascii "user" ∧ x.content = (pending ms).prompt ∧
      (rest = [] ∨ ∃ a, rest = [a] ∧ a.role = ascii "assistant" ∧ a.content = (pending ms).response) := by
  induction ms using List.reverseRecOn with
  | nil => exact absurd rfl h
  | append_singleton ms m ih =>
    rw [pending_concat] at h ⊢
    have hroles' : ∀ m ∈ ms, m.role ∈ roles := fun m hm => hroles m (List.mem_append_left _ hm)
    rcases mem_roles.mp (hroles m List.mem_concat_self) with hsystem | huser | hassistant
    · rw [Turn.after_system hsystem] at h
      exact absurd rfl h
    · rw [Turn.after_user huser]
      exact ⟨ms, m, [], rfl, huser, rfl, .inl rfl⟩
    · rw [Turn.after_assistant hassistant] at h ⊢
      obtain ⟨before, x, rest, rfl, hx, hcontent, hrest⟩ := ih hroles' hchain.left_of_append h
      obtain rfl | ⟨a, rfl, ha, -⟩ := hrest
      · exact ⟨before, x, [m], List.append_assoc _ _ _, hx, hcontent, .inr ⟨m, rfl, hassistant, rfl⟩⟩
      · -- An assistant does not follow an assistant.
        rw [List.append_assoc] at hchain
        have := (List.isChain_cons_cons.mp (List.isChain_cons_cons.mp hchain.right_of_append).2).1
        exact absurd (ha.trans hassistant.symm) this

/-- A user whom only an empty answer follows, before the next user. -/
def DropsPrompt (ms : List (Message A)) : Prop :=
  ∃ x a y, [x, a, y] <:+: ms ∧ x.role = ascii "user" ∧ x.content ≠ [] ∧ a.role = ascii "assistant" ∧ a.content = [] ∧
    y.role = ascii "user"

/-- A system message that only empty turns follow, before the next system message. -/
def DropsSystem (ms : List (Message A)) : Prop :=
  ∃ x rest y, x :: rest ++ [y] <:+: ms ∧ x.role = ascii "system" ∧ x.content ≠ [] ∧
    (∀ m ∈ rest, m.role ≠ ascii "system" ∧ m.content = []) ∧ y.role = ascii "system"

/-- A system message is pending alone only while empty turns follow it. -/
theorem pending_system {ms : List (Message A)} (hroles : ∀ m ∈ ms, m.role ∈ roles)
    (hchain : ms.IsChain fun a b => a.role ≠ b.role) (hdrops : ¬ DropsPrompt ms) (hsystem : (pending ms).system ≠ [])
    (hprompt : (pending ms).prompt = []) (hresponse : (pending ms).response = []) :
    ∃ before x rest, ms = before ++ x :: rest ∧ x.role = ascii "system" ∧ x.content ≠ [] ∧
      ∀ m ∈ rest, m.role ≠ ascii "system" ∧ m.content = [] := by
  induction ms using List.reverseRecOn with
  | nil => exact absurd rfl hsystem
  | append_singleton ms m ih =>
    rw [pending_concat] at hsystem hprompt hresponse
    have hroles' : ∀ m ∈ ms, m.role ∈ roles := fun m hm => hroles m (List.mem_append_left _ hm)
    have hdrops' : ¬ DropsPrompt ms := fun ⟨x, a, y, hinfix, h⟩ =>
      hdrops ⟨x, a, y, hinfix.trans (List.prefix_append _ _).isInfix, h⟩
    have hnext : ∀ before x rest, ms = before ++ x :: rest → x.role = ascii "system" → x.content ≠ [] →
        (∀ m ∈ rest, m.role ≠ ascii "system" ∧ m.content = []) → m.role ≠ ascii "system" → m.content = [] →
        ∃ before x rest, ms ++ [m] = before ++ x :: rest ∧ x.role = ascii "system" ∧ x.content ≠ [] ∧
          ∀ m ∈ rest, m.role ≠ ascii "system" ∧ m.content = [] := by
      rintro before x rest rfl hx hcontent hrest hrole hm
      refine ⟨before, x, rest ++ [m], by simp, hx, hcontent, ?_⟩
      rw [List.forall_mem_append, List.forall_mem_singleton]
      exact ⟨hrest, hrole, hm⟩
    rcases mem_roles.mp (hroles m List.mem_concat_self) with hrole | hrole | hrole
    · rw [Turn.after_system hrole] at hsystem
      exact ⟨ms, m, [], rfl, hrole, hsystem, nofun⟩
    · rw [Turn.after_user hrole] at hsystem hprompt
      have hresponse' : (pending ms).response = [] := by
        by_contra hne
        rw [if_neg hne] at hsystem
        exact hsystem rfl
      rw [if_pos hresponse'] at hsystem
      -- A pending prompt would be dropped here.
      have hprompt' : (pending ms).prompt = [] := by
        by_contra hne
        obtain ⟨before, x, rest, rfl, hx, hcontent, rfl | ⟨a, rfl, ha, hempty⟩⟩ :=
          pending_prompt hroles' hchain.left_of_append hne
        · rw [List.append_assoc] at hchain
          exact (List.isChain_cons_cons.mp hchain.right_of_append).1 (hx.trans hrole.symm)
        · exact hdrops ⟨x, a, m, ⟨before, [], by simp⟩, hx, hcontent ▸ hne, ha, hempty.trans hresponse', hrole⟩
      obtain ⟨before, x, rest, heq, hx, hcontent, hrest⟩ :=
        ih hroles' hchain.left_of_append hdrops' hsystem hprompt' hresponse'
      exact hnext before x rest heq hx hcontent hrest (hrole ▸ roles_ne.1) hprompt
    · rw [Turn.after_assistant hrole] at hsystem hprompt hresponse
      -- What is pending is no response, as an assistant does not follow an assistant.
      have hresponse' : (pending ms).response = [] := by
        by_contra hne
        obtain rfl | ⟨ms, a, rfl⟩ := ms.eq_nil_or_concat'
        · exact hne rfl
        · have ha := pending_response (hroles' a List.mem_concat_self) hne
          rw [List.append_assoc] at hchain
          exact (List.isChain_cons_cons.mp hchain.right_of_append).1 (ha.trans hrole.symm)
      obtain ⟨before, x, rest, heq, hx, hcontent, hrest⟩ :=
        ih hroles' hchain.left_of_append hdrops' hsystem hprompt hresponse'
      exact hnext before x rest heq hx hcontent hrest (hrole ▸ roles_ne.2.1) hresponse

theorem foldl_after_empty (t : Turn) {rest : List (Message A)} (hroles : ∀ m ∈ rest, m.role ∈ roles)
    (h : ∀ m ∈ rest, m.role ≠ ascii "system" ∧ m.content = []) (hprompt : t.prompt = []) (hresponse : t.response = []) :
    rest.foldl Turn.after t = t := by
  induction rest with
  | nil => rfl
  | cons m rest ih =>
    have hm : t.after m = t := by
      obtain ⟨hsystem, hempty⟩ := h m List.mem_cons_self
      obtain ⟨system, prompt, response⟩ := t
      cases hprompt
      cases hresponse
      rcases mem_roles.mp (hroles m List.mem_cons_self) with hrole | hrole | hrole
      · exact absurd hrole hsystem
      · rw [Turn.after_user hrole, hempty]
        rfl
      · rw [Turn.after_assistant hrole, hempty]
    rw [List.foldl_cons, hm]
    exact ih (fun m hm => hroles m (List.mem_cons_of_mem _ hm)) fun m hm => h m (List.mem_cons_of_mem _ hm)

/-- In a list whose neighbours have different roles, a content is overwritten in two ways. -/
theorem lossless_iff {ms : List (Message A)} (hroles : ∀ m ∈ ms, m.role ∈ roles)
    (hchain : ms.IsChain fun a b => a.role ≠ b.role) :
    Lossless ⟨[], [], []⟩ ms ↔ ¬ DropsPrompt ms ∧ ¬ DropsSystem ms := by
  rw [lossless_iff_forall]
  constructor
  · refine fun h => ⟨?_, ?_⟩
    · rintro ⟨x, a, y, ⟨before, after, heq⟩, hx, hcontent, ha, hempty, hy⟩
      refine h (before ++ [x, a]) y after (by simp [← heq]) (.inr (.inl ⟨hy, ?_, ?_⟩))
      · rw [List.foldl_append, List.foldl_cons, List.foldl_cons, List.foldl_nil, Turn.after_assistant ha,
          Turn.after_user hx]
        exact hcontent
      · rw [List.foldl_append, List.foldl_cons, List.foldl_cons, List.foldl_nil, Turn.after_assistant ha]
        exact hempty
    · rintro ⟨x, rest, y, ⟨before, after, heq⟩, hx, hcontent, hrest, hy⟩
      have hrest' : ∀ m ∈ rest, m.role ∈ roles := by
        intro m hm
        refine hroles m ?_
        rw [← heq]
        simp [hm]
      have hturn : (before ++ x :: rest).foldl Turn.after ⟨[], [], []⟩ = ⟨x.content, [], []⟩ := by
        rw [List.foldl_append, List.foldl_cons, Turn.after_system hx]
        exact foldl_after_empty _ hrest' hrest rfl rfl
      refine h (before ++ x :: rest) y after (by simp [← heq]) (.inl ⟨hy, ?_⟩)
      rw [hturn]
      exact ⟨hcontent, rfl, rfl⟩
  · rintro ⟨hprompt, hsystem⟩ before m after rfl hover
    have hroles' : ∀ m ∈ before, m.role ∈ roles := fun m hm => hroles m (List.mem_append_left _ hm)
    change (pending before).Overwrites m at hover
    rcases hover with ⟨hrole, hne, hp, hr⟩ | ⟨hrole, hne, hr⟩ | ⟨hrole, hne⟩
    · have hdrops : ¬ DropsPrompt before := fun ⟨x, a, y, hinfix, h⟩ =>
        hprompt ⟨x, a, y, hinfix.trans (List.prefix_append _ _).isInfix, h⟩
      obtain ⟨before, x, rest, rfl, hx, hcontent, hrest⟩ :=
        pending_system hroles' hchain.left_of_append hdrops hne hp hr
      exact hsystem ⟨x, rest, m, ⟨before, after, by simp⟩, hx, hcontent, hrest, hrole⟩
    · obtain ⟨before, x, rest, rfl, hx, hcontent, rfl | ⟨a, rfl, ha, hempty⟩⟩ :=
        pending_prompt hroles' hchain.left_of_append hne
      · rw [List.append_assoc] at hchain
        exact (List.isChain_cons_cons.mp hchain.right_of_append).1 (hx.trans hrole.symm)
      · exact hprompt ⟨x, a, m, ⟨before, after, by simp⟩, hx, hcontent ▸ hne, ha, hempty.trans hr, hrole⟩
    · obtain rfl | ⟨before, a, rfl⟩ := before.eq_nil_or_concat'
      · exact hne rfl
      · have ha := pending_response (hroles' a List.mem_concat_self) hne
        rw [List.append_assoc] at hchain
        exact (List.isChain_cons_cons.mp hchain.right_of_append).1 (ha.trans hrole.symm)

/-- Without tools, neighbours in the collated list have different roles. -/
theorem collate_roles {msgs : List (Message A)} (hroles : ∀ m ∈ msgs, m.role ∈ roles) :
    (∀ m ∈ (collate msgs).2, m.role ∈ roles) ∧ (collate msgs).2.IsChain fun a b => a.role ≠ b.role := by
  have hcollated : ∀ m ∈ (collate msgs).2, m.role ∈ roles := by
    intro m hm
    obtain ⟨m', hm', hrole⟩ := collate_role hm
    rw [hrole]
    exact hroles m' hm'
  have htool : ascii "tool" ∉ roles := by decide
  refine ⟨hcollated, (collate_chain msgs).imp_of_mem_imp fun a b _ hb h heq => ?_⟩
  exact of_decide_eq_false h ⟨heq, fun h => htool (h ▸ hcollated b hb)⟩

/-- Every content of the collated list goes to one execution, in the order of the list, if and only if the list has no user
whom only an empty answer follows before the next user, and no system message that only empty turns follow before the next
one. -/
theorem executeLegacy_supplied_iff {exec : List Node → Turn → Except ε Bytes} {root : List Node}
    {msgs : List (Message A)} {out : Bytes} {executed : List Turn} (hroles : ∀ m ∈ msgs, m.role ∈ roles)
    (h : executeLegacy exec root (collate msgs).2 = some (.ok (out, executed))) :
    Supplied executed (collate msgs).2 ↔ ¬ DropsPrompt (collate msgs).2 ∧ ¬ DropsSystem (collate msgs).2 := by
  obtain ⟨hcollated, hchain⟩ := collate_roles hroles
  rw [← lossless_iff hcollated hchain]
  unfold executeLegacy at h
  split at h
  · cases h
  · rename_i s hs
    obtain ⟨nodes, -, h⟩ := Option.map_eq_some_iff.mp h
    obtain ⟨_, -, h⟩ := map_ok h
    cases h
    rw [← Legacy.given_iff hcollated hs]
    unfold Supplied Legacy.given
    rw [List.flatMap_append, List.flatMap_singleton]
    rfl

/-- A greeting, and a question. -/
def greetThenAsk : List (Message Unit) :=
  [⟨ascii "system", ascii "Be brief.", [], [], [], [], []⟩, ⟨ascii "user", ascii "Hello", [], [], [], [], []⟩,
    ⟨ascii "assistant", ascii "Hi!", [], [], [], [], []⟩, ⟨ascii "user", ascii "Why?", [], [], [], [], []⟩]

theorem greetThenAsk_supplied :
    Supplied [⟨ascii "Be brief.", ascii "Hello", ascii "Hi!"⟩, ⟨[], ascii "Why?", []⟩] (collate greetThenAsk).2 ↔
      ¬ DropsPrompt (collate greetThenAsk).2 ∧ ¬ DropsSystem (collate greetThenAsk).2 :=
  @executeLegacy_supplied_iff _ Unit (fun _ t => .ok (t.system ++ t.prompt ++ t.response)) [] greetThenAsk
    (ascii "Be brief.HelloHi!Why?") _ (by decide) rfl

/-- Two questions, with an answer that never came. -/
def askTwice : List (Message Unit) :=
  [⟨ascii "user", ascii "Hello", [], [], [], [], []⟩, ⟨ascii "assistant", [], [], [], [], [], []⟩,
    ⟨ascii "user", ascii "Why?", [], [], [], [], []⟩]

/-- The only execution gets the second question. -/
theorem askTwice_lost :
    executeLegacy (fun _ t => (.ok t.prompt : Except Unit Bytes)) [] (collate askTwice).2 =
        some (.ok (ascii "Why?", [⟨[], ascii "Why?", []⟩])) ∧
      ¬ Supplied [⟨[], ascii "Why?", []⟩] (collate askTwice).2 :=
  ⟨rfl, by unfold Supplied; decide⟩

end Xdragon.Template
