import Xdragon.Lib.Wire
import Xdragon.Parser.Turns

/-!
# Printing and parsing

A Modelfile that is printed and parsed again is the same one, unless an argument is printed without
quotes where it needs them.
-/

namespace Xdragon.Parser

open Xdragon.Lib (Bytes ascii cut cut_eq_some cut_of_eq)
open Xdragon.Parsers (Str trimLeft trimRight)

variable (u : Unicode)

/-! ## Commands that the parser gives -/

/-- What holds of a command that was parsed. -/
structure Command.Written (c : Command) : Prop where
  name : ∀ r ∈ c.name, isWord r = true
  args : ∀ r ∈ c.args, kept u r = true
  unclosed : Unclosed c.args

theorem mem_of_unquote {b s : Str} (h : unquote (trimSpace b) = some s) {r : Char} (hr : r ∈ s) : r ∈ b := by
  obtain ⟨w, z, -, -, hb⟩ := exists_around b
  rw [hb]
  obtain ⟨-, heq⟩ | heq | ⟨-, heq⟩ := unquote_cases h <;> rw [heq] <;> simp [hr]

theorem unclosed_append {x s : Str} (hx : '"' ∉ x) (h : Unclosed s) : Unclosed (x ++ s) := by
  rintro w n hw hn ⟨p, q, hsplit⟩
  rw [List.append_assoc] at hsplit
  obtain ⟨m, hm, hs⟩ | ⟨m, -, hs⟩ := List.append_eq_append_iff.mp hsplit
  · cases m with
    | nil => exact h w n hw hn ⟨[], q, hs⟩
    | cons y m =>
      rw [quotes_eq] at hs
      obtain rfl : '"' = y := (List.cons.inj hs).1
      exact hx (by rw [hm]; simp)
  · exact h w n hw hn ⟨m, q, by rw [List.append_assoc]; exact hs.symm⟩

/-- The argument with its role. -/
def withRole (role s : Str) : Str := if role ≠ [] then role ++ ": ".toList ++ s else s

theorem withRole_valid {role : Str} (h : isValidMessageRole role = true) (s : Str) :
    withRole role s = role ++ (": ".toList ++ s) := by
  have hne : role ≠ [] := by
    rintro rfl
    cases h
  rw [withRole, if_pos hne, List.append_assoc]

theorem finishValue_commands (l : Reader) (s : Str) :
    (l.finishValue s).commands = l.commands ++ [⟨l.cmd.name, withRole l.role s⟩] := rfl

theorem written_withRole {b s name role : Str} (hname : ∀ r ∈ name, isWord r = true)
    (hrole : role = [] ∨ isValidMessageRole role = true) (hb : Open b) (hkept : ∀ r ∈ b, kept u r = true)
    (h : unquote (trimSpace b) = some s) : Command.Written u ⟨name, withRole role s⟩ := by
  have hunclosed := unclosed_of_open hb h
  have hargs : ∀ r ∈ s, kept u r = true := fun r hr => hkept r (mem_of_unquote h hr)
  obtain rfl | hvalid := hrole
  · exact ⟨hname, hargs, hunclosed⟩
  · have halpha := Reader.isAlpha_role hvalid
    have hheader : ∀ r ∈ role ++ ": ".toList, kept u r = true ∧ r ≠ '"' := by
      intro r hr
      obtain hr | hr := List.mem_append.mp hr
      · refine ⟨by simp [kept, isPrint_alpha u (halpha r hr)], ?_⟩
        rintro rfl
        cases halpha _ hr
      · have hcolon := u.isPrint_ascii ':' (by decide)
        have hsep : ": ".toList = [':', ' '] := rfl
        rw [hsep, List.mem_cons, List.mem_singleton] at hr
        obtain rfl | rfl := hr
        · exact ⟨by simp [kept, hcolon], by decide⟩
        · exact ⟨by simp [kept, isSpace], by decide⟩
    rw [withRole_valid hvalid, ← List.append_assoc]
    refine ⟨hname, ?_, unclosed_append (fun hq => (hheader _ hq).2 rfl) hunclosed⟩
    intro r hr
    obtain hr | hr := List.mem_append.mp hr
    · exact (hheader r hr).1
    · exact hargs r hr

namespace Reader

/-- What holds at every turn of the loop. -/
structure Sound (l : Reader) : Prop where
  commands : ∀ c ∈ l.commands, c.Written u
  role : l.role = [] ∨ isValidMessageRole l.role = true
  name : l.curr = .value ∨ l.curr = .message → ∀ r ∈ l.cmd.name, isWord r = true
  value : l.curr = .value → Open l.b ∧ ∀ r ∈ l.b, kept u r = true
  parameter : l.curr = .parameter → ∀ r ∈ l.b, isWord r = true

theorem open_nil : Open [] := by
  intro p n q hb
  simp at hb

theorem sound_initial : Sound u {} := ⟨by simp, .inl rfl, by simp, by simp, by simp⟩

theorem isWord_command {w : Str} (h : isValidCommand w = true) : ∀ r ∈ toLower w, isWord r = true := by
  have hall : (["from".toList, "license".toList, "template".toList, "system".toList, "adapter".toList, "renderer".toList,
      "parser".toList, "parameter".toList, "message".toList, "requires".toList]).all (·.all isWord) = true := by decide
  have hmem := List.all_eq_true.mp hall _ (of_decide_eq_true h)
  exact List.all_eq_true.mp hmem

@[simp] theorem write_commands (l : Reader) (r : Char) : (l.write u r).commands = l.commands := by unfold write; split <;> rfl
@[simp] theorem write_role (l : Reader) (r : Char) : (l.write u r).role = l.role := by unfold write; split <;> rfl
@[simp] theorem write_curr (l : Reader) (r : Char) : (l.write u r).curr = l.curr := by unfold write; split <;> rfl
@[simp] theorem write_cmd (l : Reader) (r : Char) : (l.write u r).cmd = l.cmd := by unfold write; split <;> rfl

/-- Outside of the words and the value only the commands and the role count. -/
theorem Sound.idle {l l' : Reader} (h : Sound u l) (hcommands : l'.commands = l.commands) (hrole : l'.role = l.role)
    (hcurr : l'.curr = .nil ∨ l'.curr = .name ∨ l'.curr = .comment) : Sound u l' := by
  refine ⟨hcommands ▸ h.commands, hrole ▸ h.role, ?_, ?_, ?_⟩ <;>
    obtain hc | hc | hc := hcurr <;> simp [hc]

theorem Sound.finishName {l : Reader} (h : Sound u l) (hcmd : isValidCommand l.b = true) :
    Sound u { (l.finishName .value).2 with b := [], curr := (l.finishName .value).1 } := by
  have hword := isWord_command hcmd
  unfold Reader.finishName
  dsimp only
  split_ifs with hfrom hparameter hmessage
  · have hmodel : "model".toList.all isWord = true := by decide
    exact ⟨h.commands, h.role, fun _ => List.all_eq_true.mp hmodel, fun _ => ⟨open_nil, by simp⟩, by simp⟩
  · exact ⟨h.commands, h.role, by simp, by simp, by simp⟩
  · exact ⟨h.commands, h.role, fun _ => hword, by simp, by simp⟩
  · exact ⟨h.commands, h.role, fun _ => hword, fun _ => ⟨open_nil, by simp⟩, by simp⟩

theorem Sound.read_idle {l l' : Reader} (h : Sound u l) (hl : l.curr = .nil ∨ l.curr = .comment) {r : Char}
    (hread : l.read u r = .ok l') : Sound u l' := by
  obtain ⟨n, next, r', ⟨heq, hnext⟩ | heq⟩ := Reader.read_idle u hl r
  · rw [heq, Except.ok.injEq] at hread
    subst hread
    exact h.idle u (write_commands ..) (write_role ..) (by simpa [enter] using hnext)
  · rw [heq, Except.ok.injEq] at hread
    subst hread
    refine h.idle u (write_commands ..) (write_role ..) ?_
    rw [write_curr]
    tauto

theorem Sound.read {l l' : Reader} (h : Sound u l) {r : Char} (hread : l.read u r = .ok l') : Sound u l' := by
  cases hcurr : l.curr with
  | value =>
    obtain ⟨hopen, hkept⟩ := h.value hcurr
    have hpush : kept u r = true → ∀ x ∈ l.b ++ [r], kept u x = true := by
      intro hr x hx
      obtain hx | hx := List.mem_append.mp hx
      · exact hkept x hx
      · rw [List.mem_singleton.mp hx]
        exact hr
    cases hr : isNewline r with
    | true =>
      cases hs : unquote (trimSpace l.b) with
      | none =>
        rw [read_value_none u hcurr hr hs, Except.ok.injEq] at hread
        subst hread
        exact ⟨h.commands, h.role, h.name, fun _ => ⟨hopen.concat fun _ => hs, hpush (by simp [kept, hr])⟩, by simp [hcurr]⟩
      | some s =>
        rw [read_value_some u hcurr hr hs, Except.ok.injEq] at hread
        subst hread
        refine ⟨?_, .inl rfl, by simp, by simp, by simp⟩
        intro c hc
        obtain hc | hc := List.mem_append.mp hc
        · exact h.commands c hc
        · rw [List.mem_singleton.mp hc]
          exact written_withRole u (h.name (.inl hcurr)) h.role hopen hkept hs
    | false =>
      rw [read_value_other u hcurr hr, Except.ok.injEq] at hread
      subst hread
      refine ⟨h.commands, h.role, h.name, fun _ => ?_, by simp [hcurr]⟩
      dsimp only
      split_ifs with hk
      · exact ⟨hopen.concat (by simp [hr]), hpush hk⟩
      · exact ⟨hopen, hkept⟩
  | nil => exact h.read_idle u (.inl hcurr) hread
  | comment => exact h.read_idle u (.inr hcurr) hread
  | name =>
    cases ha : isAlpha r with
    | true =>
      rw [read_name u ha hcurr, Except.ok.injEq] at hread
      subst hread
      exact h.idle u rfl rfl (.inr (.inl hcurr))
    | false =>
      cases hs : isSpace r with
      | true =>
        cases hcmd : isValidCommand l.b with
        | true =>
          rw [read_name_space u hs hcurr hcmd, Except.ok.injEq] at hread
          subst hread
          exact h.finishName u hcmd
        | false =>
          rw [read_name_invalid u hs hcurr hcmd] at hread
          cases hread
      | false =>
        obtain ⟨e, herr⟩ := read_error u (l := l) (r := r) (e := .invalidCommand) (by simp [hcurr, parseRuneForState, ha, hs])
        rw [herr] at hread
        cases hread
  | message =>
    cases ha : isAlpha r with
    | true =>
      rw [read_message u ha hcurr, Except.ok.injEq] at hread
      subst hread
      exact ⟨h.commands, h.role, h.name, by simp [hcurr], by simp [hcurr]⟩
    | false =>
      cases hs : isSpace r with
      | true =>
        cases hrole : isValidMessageRole l.b with
        | true =>
          rw [read_message_space u hs hcurr hrole, Except.ok.injEq] at hread
          subst hread
          exact ⟨h.commands, .inr hrole, fun _ => h.name (.inr hcurr), fun _ => ⟨open_nil, by simp⟩, by simp⟩
        | false =>
          rw [read_message_invalid u hs hcurr hrole] at hread
          cases hread
      | false =>
        obtain ⟨e, herr⟩ := read_error u (l := l) (r := r) (e := .unexpectedEOF) (by simp [hcurr, parseRuneForState, ha, hs])
        rw [herr] at hread
        cases hread
  | parameter =>
    cases hw : isWord r with
    | true =>
      rw [read_parameter u hw hcurr, Except.ok.injEq] at hread
      subst hread
      refine ⟨h.commands, h.role, by simp [hcurr], by simp [hcurr], fun _ x hx => ?_⟩
      obtain hx | hx := List.mem_append.mp hx
      · exact h.parameter hcurr x hx
      · rw [List.mem_singleton.mp hx]
        exact hw
    | false =>
      cases hs : isSpace r with
      | true =>
        rw [read_parameter_space u hs hcurr, Except.ok.injEq] at hread
        subst hread
        exact ⟨h.commands, h.role, fun _ => h.parameter hcurr, fun _ => ⟨open_nil, by simp⟩, by simp⟩
      | false =>
        simp only [isWord, Bool.or_eq_false_iff, beq_eq_false_iff_ne] at hw
        obtain ⟨e, herr⟩ := read_error u (l := l) (r := r) (e := .unexpectedEOF) (by simp [hcurr, parseRuneForState, hw, hs])
        rw [herr] at hread
        cases hread

@[simp] theorem enter_commands (l : Reader) (next : State) (r : Char) : (l.enter u next r).commands = l.commands :=
  write_commands ..

@[simp] theorem finishName_commands (l : Reader) (next : State) : (l.finishName next).2.commands = l.commands := by
  unfold Reader.finishName
  dsimp only
  split_ifs <;> rfl

theorem read_commands {l l' : Reader} {r : Char} (h : l.read u r = .ok l') : l.commands <+: l'.commands := by
  unfold read at h
  have hline : (if isNewline r then { l with currLine := l.currLine + 1 } else l).commands = l.commands := by
    split_ifs <;> rfl
  dsimp only at h
  generalize (if isNewline r = true then { l with currLine := l.currLine + 1 } else l) = m at h hline
  rw [← hline]
  cases hnext : parseRuneForState r m.curr with
  | error e =>
    rw [hnext] at h
    cases e <;> cases h
  | ok next =>
    rw [hnext] at h
    dsimp only at h
    by_cases hsame : next.1 = m.curr
    · rw [if_pos hsame] at h
      cases h
      rw [write_commands]
    · rw [if_neg hsame] at h
      cases hcurr : m.curr with
      | nil | comment | parameter =>
        rw [hcurr] at h
        cases h
        rw [enter_commands]
      | name =>
        rw [hcurr] at h
        dsimp only at h
        split_ifs at h
        cases h
        rw [enter_commands, finishName_commands]
      | message =>
        rw [hcurr] at h
        dsimp only at h
        split_ifs at h
        cases h
        rw [enter_commands]
      | value =>
        rw [hcurr] at h
        dsimp only at h
        split at h
        · cases h
          exact List.prefix_rfl
        · split_ifs at h
          · cases h
            exact List.prefix_rfl
          · cases h
            rw [enter_commands]
            exact List.prefix_append ..

/-- Nothing is taken back. -/
theorem run_commands {l : Reader} {text : Str} {cs : List Command} (h : l.run u text = .ok cs) : l.commands <+: cs := by
  induction text generalizing l with
  | nil =>
    have hflush : l.flush = .ok cs := h
    unfold flush at hflush
    split at hflush
    · cases hflush
      exact List.prefix_rfl
    · cases hflush
      exact List.prefix_rfl
    · split at hflush
      · cases hflush
      · cases hflush
        exact List.prefix_append ..
    · cases hflush
  | cons r text ih =>
    cases hread : l.read u r with
    | error e =>
      rw [run_error u hread] at h
      cases h
    | ok l' =>
      rw [run_cons u hread] at h
      exact (read_commands u hread).trans (ih h)

/-- Everything that a run gives was parsed. -/
theorem Sound.run {l : Reader} (h : Sound u l) {text : Str} {cs : List Command} (hrun : l.run u text = .ok cs) :
    ∀ c ∈ cs, c.Written u := by
  induction text generalizing l with
  | nil =>
    have hflush : l.flush = .ok cs := hrun
    unfold flush at hflush
    split at hflush
    · cases hflush
      exact h.commands
    · cases hflush
      exact h.commands
    · rename_i hcurr
      split at hflush
      · cases hflush
      · rename_i s hs
        cases hflush
        intro c hc
        obtain hc | hc := List.mem_append.mp hc
        · exact h.commands c hc
        · obtain ⟨hopen, hkept⟩ := h.value hcurr
          rw [List.mem_singleton.mp hc]
          exact written_withRole u (h.name (.inl hcurr)) h.role hopen hkept hs
    · cases hflush
  | cons r text ih =>
    cases hread : l.read u r with
    | error e =>
      rw [run_error u hread] at hrun
      cases hrun
    | ok l' =>
      rw [run_cons u hread] at hrun
      exact ih (h.read u hread) hrun

end Reader

/-- A text that is printed in quotes, or read back without. -/
def Readable (s : Str) : Prop := needsQuotes s = true ∨ Bare s

/-- A command whose line is read back as the command. -/
def Command.Survives (c : Command) : Prop :=
  if c.name = "model".toList then Bare c.args
  else if c.name = "message".toList then
    ∃ role message, cut ": ".toList c.args = some (role, message) ∧ isValidMessageRole role = true ∧ Readable message
  else Readable c.args

theorem readable_of_quote {s rest t : Str} (hkept : ∀ r ∈ s, kept u r = true)
    (h : valueFrom u [] (quote s ++ '\n' :: rest) = some (s, t)) : Readable s := by
  cases hneeds : needsQuotes s with
  | true => exact .inl hneeds
  | false =>
    rw [quote, if_neg (by simp [hneeds])] at h
    exact .inr (bare_of_valueFrom u hkept h)

theorem valueFrom_readable {s : Str} (h : Readable s) (hkept : ∀ r ∈ s, kept u r = true) (hs : Unclosed s) (text : Str) :
    valueFrom u [] (quote s ++ '\n' :: text) = some (s, text) := by
  cases hneeds : needsQuotes s with
  | true => exact valueFrom_quote u hneeds hkept hs text
  | false =>
    rw [quote, if_neg (by simp [hneeds])]
    exact valueFrom_bare u (h.resolve_left (by simp [hneeds])) hkept text

theorem cut_role {role : Str} (h : isValidMessageRole role = true) (message : Str) :
    cut ": ".toList (role ++ (": ".toList ++ message)) = some (role, message) := by
  refine cut_of_eq fun i hi ⟨t, ht⟩ => ?_
  have hfirst := congrArg (·[0]?) ht
  have hdrop : ((role ++ (": ".toList ++ message)).drop i)[0]? = role[i]? := by
    rw [List.getElem?_drop, Nat.add_zero, List.getElem?_append_left hi]
  have hmem : ':' ∈ role := List.mem_of_getElem? (hdrop.symm.trans hfirst.symm)
  cases Reader.isAlpha_role h _ hmem

theorem Reader.Awaits.run_line {l : Reader} {name role : Str} {cs : List Command} (hl : Awaits l name role cs) {v s text : Str}
    (h : valueFrom u [] (v ++ '\n' :: text) = some (s, text)) :
    ∃ l', Rests l' ∧ l'.commands = cs ++ [⟨name, withRole role s⟩] ∧ run u l (v ++ '\n' :: text) = run u l' text := by
  obtain ⟨hnone, -⟩ | ⟨s', t, l', hsome, hrests, hcommands, hrun⟩ := run_value u hl.curr (v ++ '\n' :: text)
  · rw [hl.b, h] at hnone
    cases hnone
  · rw [hl.b, h] at hsome
    cases hsome
    rw [finishValue_commands, hl.name, hl.role, hl.commands] at hcommands
    exact ⟨l', hrests, hcommands, hrun⟩

theorem Reader.Awaits.valueFrom_of_run {l : Reader} {name role : Str} {cs : List Command} (hl : Awaits l name role cs)
    {text : Str} {out : List Command} (h : l.run u text = .ok out) :
    ∃ s t, valueFrom u [] text = some (s, t) ∧ cs ++ [⟨name, withRole role s⟩] <+: out := by
  obtain ⟨-, e, herr⟩ | ⟨s, t, l', hsome, -, hcommands, hrun⟩ := run_value u hl.curr text
  · rw [herr] at h
    cases h
  · rw [hl.b] at hsome
    rw [finishValue_commands, hl.name, hl.role, hl.commands] at hcommands
    rw [hrun] at h
    exact ⟨s, t, hsome, hcommands ▸ run_commands u h⟩

namespace Command
variable {c : Command}

theorem string_model (hname : c.name = "model".toList) : c.string = "FROM ".toList ++ c.args := by
  rw [string, if_pos hname]

theorem string_quoted (hname : c.name ∈ quotedNames) : c.string = c.name.map Char.toUpper ++ ' ' :: quote c.args := by
  rw [string, if_neg, if_pos hname]
  intro hmodel
  rw [hmodel] at hname
  revert hname
  decide

theorem string_message (hname : c.name = "message".toList) : c.string = "MESSAGE ".toList ++
    ((cut ": ".toList c.args).getD (c.args, [])).1 ++ ' ' :: quote ((cut ": ".toList c.args).getD (c.args, [])).2 := by
  rw [string, hname, if_neg (by decide), if_neg (by decide), if_pos rfl]

theorem string_parameter (hmodel : c.name ≠ "model".toList) (hquoted : c.name ∉ quotedNames)
    (hmessage : c.name ≠ "message".toList) : c.string = "PARAMETER ".toList ++ c.name ++ ' ' :: quote c.args := by
  rw [string, if_neg hmodel, if_neg hquoted, if_neg hmessage]

theorem survives_model (hname : c.name = "model".toList) : c.Survives ↔ Bare c.args := by
  rw [Survives, if_pos hname]

theorem survives_message (hname : c.name = "message".toList) : c.Survives ↔
    ∃ role message, cut ": ".toList c.args = some (role, message) ∧ isValidMessageRole role = true ∧ Readable message := by
  rw [Survives, hname, if_neg (by decide), if_pos rfl]

theorem survives_other (hmodel : c.name ≠ "model".toList) (hmessage : c.name ≠ "message".toList) :
    c.Survives ↔ Readable c.args := by
  rw [Survives, if_neg hmodel, if_neg hmessage]

end Command

open Reader

/-! ## One command -/

/-- The value on the line of a command that is no message. -/
def Command.printed (c : Command) : Str := if c.name = "model".toList then c.args else quote c.args

theorem run_header {l : Reader} (hl : l.Rests) {c : Command} (hc : c.Written u) (hmessage : c.name ≠ "message".toList)
    (text : Str) : ∃ l', Awaits l' c.name [] l.commands ∧ run u l (c.string ++ text) = run u l' (c.printed ++ text) := by
  by_cases hmodel : c.name = "model".toList
  · rw [c.string_model hmodel, Command.printed, if_pos hmodel, hmodel, List.append_assoc]
    exact run_from u hl _
  · rw [Command.printed, if_neg hmodel]
    by_cases hquoted : c.name ∈ quotedNames
    · rw [Command.string_quoted hquoted, List.append_assoc, List.cons_append]
      exact run_quoted u hl hquoted _
    · rw [Command.string_parameter hmodel hquoted hmessage, List.append_assoc, List.cons_append]
      exact run_parameter u hl hc.name _

theorem valueFrom_printed {c : Command} (hc : c.Written u) (hmessage : c.name ≠ "message".toList) (hs : c.Survives)
    (text : Str) : valueFrom u [] (c.printed ++ '\n' :: text) = some (c.args, text) := by
  by_cases hmodel : c.name = "model".toList
  · rw [Command.printed, if_pos hmodel]
    exact valueFrom_bare u ((Command.survives_model hmodel).mp hs) hc.args text
  · rw [Command.printed, if_neg hmodel]
    exact valueFrom_readable u ((Command.survives_other hmodel hmessage).mp hs) hc.args hc.unclosed text

theorem survives_of_printed {c : Command} (hc : c.Written u) (hmessage : c.name ≠ "message".toList) {rest t : Str}
    (h : valueFrom u [] (c.printed ++ '\n' :: rest) = some (c.args, t)) : c.Survives := by
  by_cases hmodel : c.name = "model".toList
  · rw [Command.printed, if_pos hmodel] at h
    exact (Command.survives_model hmodel).mpr (bare_of_valueFrom u hc.args h)
  · rw [Command.printed, if_neg hmodel] at h
    exact (Command.survives_other hmodel hmessage).mpr (readable_of_quote u hc.args h)

/-- The message of a command that was parsed was parsed. -/
theorem Command.Written.message {c : Command} (hc : c.Written u) {role message : Str}
    (h : cut ": ".toList c.args = some (role, message)) : (∀ r ∈ message, kept u r = true) ∧ Unclosed message := by
  have hsuf : message <:+ c.args := by
    rw [(cut_eq_some h).1, ← List.append_assoc]
    exact List.suffix_append ..
  exact ⟨fun r hr => hc.args r (hsuf.mem hr), hc.unclosed.infix hsuf.isInfix⟩

/-- The line of a command that survives gives the command. -/
theorem run_survives {l : Reader} (hl : l.Rests) {c : Command} (hc : c.Written u) (hs : c.Survives) (text : Str) :
    ∃ l' : Reader, l'.Rests ∧ l'.commands = l.commands ++ [c] ∧ run u l (c.string ++ '\n' :: text) = run u l' text := by
  by_cases hmessage : c.name = "message".toList
  · obtain ⟨role, message, hcut, hrole, hread⟩ := (Command.survives_message hmessage).mp hs
    obtain ⟨hkept, hunclosed⟩ := hc.message u hcut
    obtain ⟨l₁, hcurr, hb, hname, -, hcommands, hrun⟩ :=
      run_messageName u hl (role ++ ' ' :: (quote message ++ '\n' :: text))
    obtain ⟨l₂, hawaits, hrun₂⟩ := run_role u hcurr hb hrole (quote message ++ '\n' :: text)
    obtain ⟨l', hrests, hout, hrun'⟩ := hawaits.run_line u (valueFrom_readable u hread hkept hunclosed text)
    have hargs : withRole role message = c.args := by rw [withRole_valid hrole, (cut_eq_some hcut).1]
    refine ⟨l', hrests, ?_, ?_⟩
    · rw [hout, hname, hcommands, hargs, ← hmessage]
    · rw [Command.string_message hmessage, hcut]
      dsimp only [Option.getD_some]
      rw [List.append_assoc, List.append_assoc, List.cons_append, hrun, hrun₂, hrun']
  · obtain ⟨l₁, hawaits, hrun⟩ := run_header u hl hc hmessage ('\n' :: text)
    obtain ⟨l', hrests, hout, hrun'⟩ := hawaits.run_line u (valueFrom_printed u hc hmessage hs text)
    exact ⟨l', hrests, hout, hrun.trans hrun'⟩

/-- What comes out of the loop in front of a role is a message with a valid one. -/
theorem run_message {l : Reader} (hl : l.curr = .message) {text : Str} {out : List Command} (h : l.run u text = .ok out) :
    ∃ role s, isValidMessageRole role = true ∧ l.commands ++ [⟨l.cmd.name, role ++ (": ".toList ++ s)⟩] <+: out := by
  induction text generalizing l with
  | nil =>
    have hflush : l.flush = .ok out := h
    rw [flush, hl] at hflush
    cases hflush
  | cons r text ih =>
    cases ha : isAlpha r with
    | true =>
      rw [run_cons u (read_message u ha hl)] at h
      exact ih (l := { l with b := l.b ++ [r] }) hl h
    | false =>
      cases hs : isSpace r with
      | true =>
        cases hrole : isValidMessageRole l.b with
        | true =>
          rw [run_cons u (read_message_space u hs hl hrole)] at h
          obtain ⟨s, -, -, hpre⟩ := Awaits.valueFrom_of_run u (l := { l with role := l.b, b := [], curr := .value })
            ⟨rfl, rfl, rfl, rfl, rfl⟩ h
          refine ⟨l.b, s, hrole, ?_⟩
          rwa [withRole_valid hrole] at hpre
        | false =>
          rw [run_error u (read_message_invalid u hs hl hrole)] at h
          cases h
      | false =>
        obtain ⟨e, herr⟩ := read_error u (l := l) (r := r) (e := .unexpectedEOF) (by simp [hl, parseRuneForState, ha, hs])
        rw [run_error u herr] at h
        cases h

theorem eq_of_same_start {cs out : List Command} {c d : Command} (hc : cs ++ [c] <+: out) (hd : cs ++ [d] <+: out) : c = d := by
  have h := List.prefix_of_prefix_length_le hc hd (by simp)
  rw [List.prefix_append_right_inj] at h
  exact (List.cons_prefix_cons.mp h).1

/-- A command that comes back from its line survives. -/
theorem survives_of_run {l : Reader} (hl : l.Rests) {c : Command} (hc : c.Written u) {text : Str} {out : List Command}
    (h : l.run u (c.string ++ '\n' :: text) = .ok out) (hpre : l.commands ++ [c] <+: out) : c.Survives := by
  by_cases hmessage : c.name = "message".toList
  · obtain ⟨l₁, hcurr, hb, hname, -, hcommands, hrun⟩ := run_messageName u hl
      (((cut ": ".toList c.args).getD (c.args, [])).1 ++
        ' ' :: (quote ((cut ": ".toList c.args).getD (c.args, [])).2 ++ '\n' :: text))
    rw [Command.string_message hmessage, List.append_assoc, List.append_assoc, List.cons_append, hrun] at h
    obtain ⟨role, s, hrole, hpre'⟩ := run_message u hcurr h
    rw [hcommands] at hpre'
    have hargs : c.args = role ++ (": ".toList ++ s) := congrArg Command.args (eq_of_same_start hpre hpre')
    have hcut : cut ": ".toList c.args = some (role, s) := by rw [hargs, cut_role hrole]
    rw [hcut] at h
    obtain ⟨l₂, hawaits, hrun₂⟩ := run_role u hcurr hb hrole (quote s ++ '\n' :: text)
    rw [Option.getD_some, hrun₂] at h
    obtain ⟨s', t, hvalue, hpre₂⟩ := hawaits.valueFrom_of_run u h
    rw [hcommands] at hpre₂
    have hargs₂ : c.args = withRole role s' := congrArg Command.args (eq_of_same_start hpre hpre₂)
    rw [withRole_valid hrole, hargs] at hargs₂
    have hs : s = s' := List.append_cancel_left (List.append_cancel_left hargs₂)
    subst hs
    exact (Command.survives_message hmessage).mpr ⟨role, s, hcut, hrole, readable_of_quote u (hc.message u hcut).1 hvalue⟩
  · obtain ⟨l₁, hawaits, hrun⟩ := run_header u hl hc hmessage ('\n' :: text)
    rw [hrun] at h
    obtain ⟨s, t, hvalue, hpre'⟩ := hawaits.valueFrom_of_run u h
    have hargs : c.args = s := congrArg Command.args (eq_of_same_start hpre hpre')
    rw [← hargs] at hvalue
    exact survives_of_printed u hc hmessage hvalue

/-! ## The Modelfile -/

/-- All lines are read back if and only if every command survives. -/
theorem run_text {l : Reader} (hl : l.Rests) {cs : List Command} (hcs : ∀ c ∈ cs, c.Written u) :
    run u l (Modelfile.text ⟨cs⟩) = .ok (l.commands ++ cs) ↔ ∀ c ∈ cs, c.Survives := by
  induction cs generalizing l with
  | nil =>
    have hflush : l.flush = .ok (l.commands ++ []) := by rw [flush, hl.curr, List.append_nil]
    exact iff_of_true hflush (by simp)
  | cons c cs ih =>
    have hc := hcs c (List.mem_cons_self ..)
    have hrest : ∀ d ∈ cs, d.Written u := fun d hd => hcs d (List.mem_cons_of_mem _ hd)
    have htext : Modelfile.text ⟨c :: cs⟩ = c.string ++ '\n' :: Modelfile.text ⟨cs⟩ := by
      simp [Modelfile.text]
    rw [htext]
    constructor
    · intro h
      have hs := survives_of_run u hl hc h ⟨cs, by simp⟩
      obtain ⟨l', hrests, hcommands, hrun⟩ := run_survives u hl hc hs (Modelfile.text ⟨cs⟩)
      rw [hrun, show l.commands ++ c :: cs = l'.commands ++ cs by rw [hcommands]; simp, ih hrests hrest] at h
      exact List.forall_mem_cons.mpr ⟨hs, h⟩
    · intro h
      obtain ⟨hs, hall⟩ := List.forall_mem_cons.mp h
      obtain ⟨l', hrests, hcommands, hrun⟩ := run_survives u hl hc hs (Modelfile.text ⟨cs⟩)
      rw [hrun, (ih hrests hrest).mpr hall, hcommands, List.append_assoc, List.singleton_append]

theorem head_string {c : Command} : c.string.head? ≠ some '\uFEFF' := by
  unfold Command.string
  split_ifs with hmodel hquoted hmessage
  · simp
  · have hall : quotedNames.all (fun n => (n.map Char.toUpper).head? != none && (n.map Char.toUpper).head? != some '\uFEFF') =
        true := by decide
    have hn := List.all_eq_true.mp hall _ hquoted
    rw [List.head?_append]
    cases hx : (c.name.map Char.toUpper).head? with
    | none => simp [hx] at hn
    | some x => simpa [hx] using hn
  · simp
  · simp

/-- The printer's text is a file without a byte order mark. -/
theorem decode_string (f : Modelfile) : u.decode f.string = f.text := by
  refine u.decode_encode _ ?_
  unfold Modelfile.text
  cases f.commands with
  | nil => simp
  | cons c cs =>
    have hc := head_string (c := c)
    rw [List.flatMap_cons, List.head?_append, List.head?_append]
    cases hx : c.string.head? with
    | none => simp
    | some x => simpa [hx] using hc

/-- A Modelfile that was parsed is printed to a text that parses to it, if and only if each command survives: its argument
(behind the role, for a message) is printed in quotes, or has no newline or carriage return, no white space at its
ends and no quote in front. The argument of `FROM` is never printed in quotes, and a parameter named `message`
needs a role. -/
theorem parseFile_string_iff {input : Bytes} {f : Modelfile} (h : parseFile u input = .ok f) :
    parseFile u f.string = .ok f ↔ ∀ c ∈ f.commands, c.Survives := by
  unfold parseFile at h
  cases hrun : Reader.run u {} (u.decode input) with
  | error e =>
    rw [hrun] at h
    cases h
  | ok cs =>
    rw [hrun] at h
    have hif : (if cs.any (·.name = "model".toList) then .ok ⟨cs⟩ else .error .missingFrom : Except ParseError Modelfile) = .ok f := h
    split_ifs at hif with hmodel
    cases hif
    have hiff := run_text u (l := {}) ⟨rfl, rfl⟩ (sound_initial u |>.run u hrun)
    rw [← hiff, parseFile, decode_string]
    constructor
    · intro hok
      cases hrun' : Reader.run u {} (Modelfile.text ⟨cs⟩) with
      | error e =>
        rw [hrun'] at hok
        cases hok
      | ok ds =>
        rw [hrun'] at hok
        have hif' : (if ds.any (·.name = "model".toList) then .ok ⟨ds⟩ else .error .missingFrom : Except ParseError Modelfile) =
          .ok ⟨cs⟩ := hok
        split_ifs at hif'
        cases hif'
        rfl
    · intro hok
      rw [hok]
      exact if_pos hmodel

/-- A table and a decoder for ASCII. -/
def asciiOnly : Unicode where
  isPrint c := 0x20 ≤ c.toNat && c.toNat < 0x7f
  isPrint_ascii _ _ := rfl
  isPrint_space c hprint hspace := by
    simp only [Lib.isSpace, Bool.or_eq_true, Bool.and_eq_true, decide_eq_true_eq, beq_iff_eq] at hprint hspace
    exact Char.ext (UInt32.toNat_inj.mp (show c.toNat = 0x20 by omega))
  decode := Lib.toRunes
  decode_encode s _ := Lib.toRunes_ofRunes s

/-- A system prompt with a space at its end is printed in quotes, and read back. -/
theorem spacedSystem_survives : (parseFile asciiOnly (ascii "FROM llama\nSYSTEM \"Hi \"") =
      .ok ⟨[⟨"model".toList, "llama".toList⟩, ⟨"system".toList, "Hi ".toList⟩]⟩) ∧
    (parseFile asciiOnly (Modelfile.string ⟨[⟨"model".toList, "llama".toList⟩, ⟨"system".toList, "Hi ".toList⟩]⟩) =
        .ok ⟨[⟨"model".toList, "llama".toList⟩, ⟨"system".toList, "Hi ".toList⟩]⟩ ↔
      ∀ c ∈ [⟨"model".toList, "llama".toList⟩, ⟨"system".toList, "Hi ".toList⟩], Command.Survives c) :=
  ⟨by decide, @parseFile_string_iff asciiOnly (ascii "FROM llama\nSYSTEM \"Hi \"") _ (by decide)⟩

/-- A system prompt in quotes is printed as it is, and comes back without the quotes. -/
theorem quotedSystem_changes : (parseFile asciiOnly (ascii "FROM llama\nSYSTEM \"\"\"\"Hi\"\"\"\"") =
      .ok ⟨[⟨"model".toList, "llama".toList⟩, ⟨"system".toList, "\"Hi\"".toList⟩]⟩) ∧
    (parseFile asciiOnly (Modelfile.string ⟨[⟨"model".toList, "llama".toList⟩, ⟨"system".toList, "\"Hi\"".toList⟩]⟩) =
      .ok ⟨[⟨"model".toList, "llama".toList⟩, ⟨"system".toList, "Hi".toList⟩]⟩) ∧
    (⟨[⟨"model".toList, "llama".toList⟩, ⟨"system".toList, "Hi".toList⟩]⟩ : Modelfile) ≠
      ⟨[⟨"model".toList, "llama".toList⟩, ⟨"system".toList, "\"Hi\"".toList⟩]⟩ := by
  decide

end Xdragon.Parser
