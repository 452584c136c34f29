import Xdragon.Parser.Values

/-!
# Turns of the loop

What the loop of `ParseFile` does with the words in front of a value, and with the value.
-/

namespace Xdragon.Parser

open Xdragon.Lib (Bytes cut)
open Xdragon.Parsers (Str trimLeft trimRight)

variable (u : Unicode)

/-! ## Runes of a word -/

/-- A letter, a digit or an underscore. -/
def isWord (r : Char) : Bool := isAlpha r || isNumber r || r == '_'

theorem isPrint_word {r : Char} (h : isWord r = true) : u.isPrint r = true := by
  have hbounds : 0x20 ≤ r.toNat ∧ r.toNat < 0x7f := by
    simp only [isWord, isAlpha, isNumber, Bool.or_eq_true, Bool.and_eq_true, decide_eq_true_eq, beq_iff_eq, Char.le_def,
      UInt32.le_iff_toNat_le] at h
    obtain ((⟨h1, h2⟩ | ⟨h1, h2⟩) | ⟨h1, h2⟩) | rfl := h
    · exact ⟨le_trans (by decide) h1, lt_of_le_of_lt h2 (by decide)⟩
    · exact ⟨le_trans (by decide) h1, lt_of_le_of_lt h2 (by decide)⟩
    · exact ⟨le_trans (by decide) h1, lt_of_le_of_lt h2 (by decide)⟩
    · decide
  rw [u.isPrint_ascii r (by omega)]
  simp only [Bool.and_eq_true, decide_eq_true_eq]
  exact hbounds

theorem isPrint_alpha {r : Char} (h : isAlpha r = true) : u.isPrint r = true := isPrint_word u (by simp [isWord, h])

theorem not_word {r : Char} (h : isNewline r = true ∨ isSpace r = true ∨ r = '#') : isWord r = false := by
  simp only [isNewline, isSpace, Bool.or_eq_true, beq_iff_eq] at h
  obtain (rfl | rfl) | (rfl | rfl) | rfl := h <;> decide

theorem isNewline_word {r : Char} (h : isWord r = true) : isNewline r = false := by
  by_contra hn
  rw [not_word (.inl (by simpa using hn))] at h
  cases h

theorem isSpace_word {r : Char} (h : isWord r = true) : isSpace r = false := by
  by_contra hn
  rw [not_word (.inr (.inl (by simpa using hn)))] at h
  cases h

theorem isWord_alpha {r : Char} (h : isAlpha r = true) : isWord r = true := by simp [isWord, h]

@[simp] theorem isPrint_zero : u.isPrint '\x00' = false := by rw [u.isPrint_ascii _ (by decide)]; decide

theorem isPrint_newline {r : Char} (h : isNewline r = true) : u.isPrint r = false := by
  simp only [isNewline, Bool.or_eq_true, beq_iff_eq] at h
  obtain rfl | rfl := h <;> rw [u.isPrint_ascii _ (by decide)] <;> decide

/-! ## Turns of the loop -/

namespace Reader

/-- Between two commands. -/
structure Rests (l : Reader) : Prop where
  curr : l.curr = .nil
  role : l.role = []

theorem run_cons {l l' : Reader} {r : Char} (h : l.read u r = .ok l') (text : Str) :
    run u l (r :: text) = run u l' text := by
  simp only [run, List.foldlM_cons, h]
  rfl

theorem run_error {l : Reader} {r : Char} {e : ParseError} (h : l.read u r = .error e) (text : Str) :
    run u l (r :: text) = .error e := by
  simp only [run, List.foldlM_cons, h]
  rfl

/-- A run of runes that all go to the buffer. -/
theorem run_word {st : State} {w : Str}
    (hw : ∀ r ∈ w, ∀ l : Reader, l.curr = st → l.read u r = .ok { l with b := l.b ++ [r] }) {l : Reader} (hl : l.curr = st)
    (text : Str) : run u l (w ++ text) = run u { l with b := l.b ++ w } text := by
  induction w generalizing l with
  | nil => rw [List.append_nil, List.nil_append]
  | cons r w ih =>
    have hnext := ih (fun x hx => hw x (List.mem_cons_of_mem _ hx)) (l := { l with b := l.b ++ [r] }) hl
    rw [List.cons_append, run_cons u (hw r (List.mem_cons_self ..) l hl), hnext, List.append_assoc]
    rfl

theorem read_name {r : Char} (hr : isAlpha r = true) {l : Reader} (hl : l.curr = .name) :
    l.read u r = .ok { l with b := l.b ++ [r] } := by
  have hline := isNewline_word (isWord_alpha hr)
  simp [read, hl, parseRuneForState, hr, hline, write, isPrint_alpha u hr]

theorem read_message {r : Char} (hr : isAlpha r = true) {l : Reader} (hl : l.curr = .message) :
    l.read u r = .ok { l with b := l.b ++ [r] } := by
  have hline := isNewline_word (isWord_alpha hr)
  simp [read, hl, parseRuneForState, hr, hline, write, isPrint_alpha u hr]

theorem read_parameter {r : Char} (hr : isWord r = true) {l : Reader} (hl : l.curr = .parameter) :
    l.read u r = .ok { l with b := l.b ++ [r] } := by
  have hline := isNewline_word hr
  have hnext : parseRuneForState r .parameter = .ok (.parameter, r) := by
    simp only [isWord, Bool.or_eq_true, beq_iff_eq] at hr
    rw [parseRuneForState, if_pos (by tauto)]
  simp [read, hl, hnext, hline, write, isPrint_word u hr]

theorem read_first {r : Char} (hr : isAlpha r = true) {l : Reader} (hl : l.curr = .nil) :
    l.read u r = .ok { l with b := [r], curr := .name } := by
  have hword := isWord_alpha hr
  have hline := isNewline_word hword
  have hspace := isSpace_word hword
  have hhash : r ≠ '#' := by
    rintro rfl
    cases hr
  simp [read, hl, parseRuneForState, hline, hspace, hhash, enter, write, isPrint_alpha u hr]

theorem read_error {l : Reader} {r : Char} {e : RuneError} (h : parseRuneForState r l.curr = .error e) :
    ∃ e', l.read u r = .error e' := by
  unfold read
  cases e <;> split_ifs <;> simp [h]

/-- A rune after which the state is the same. -/
theorem read_stay {l : Reader} {r r' : Char} (h : parseRuneForState r l.curr = .ok (l.curr, r')) :
    ∃ n, l.read u r = .ok ({ l with currLine := n }.write u r') := by
  unfold read
  split_ifs
  · exact ⟨l.currLine + 1, by simp [h]⟩
  · exact ⟨l.currLine, by simp [h]⟩

/-- Between the commands and in a comment nothing is looked at. -/
theorem read_idle {l : Reader} (hl : l.curr = .nil ∨ l.curr = .comment) (r : Char) :
    ∃ n next r', l.read u r = .ok ({ l with currLine := n }.enter u next r') ∧
        (next = .nil ∨ next = .name ∨ next = .comment) ∨
      l.read u r = .ok ({ l with currLine := n }.write u r') := by
  have hnext : ∃ next r', parseRuneForState r l.curr = .ok (next, r') ∧ (next = .nil ∨ next = .name ∨ next = .comment) := by
    obtain hl | hl := hl <;> rw [hl] <;> unfold parseRuneForState <;> split_ifs <;> simp
  obtain ⟨next, r', hparse, hnext⟩ := hnext
  by_cases hsame : next = l.curr
  · rw [hsame] at hparse
    obtain ⟨n, hread⟩ := read_stay u hparse
    exact ⟨n, next, r', .inr hread⟩
  · obtain ⟨cmd, curr, currLine, b, role, commands⟩ := l
    refine ⟨if isNewline r then currLine + 1 else currLine, next, r', .inl ⟨?_, hnext⟩⟩
    unfold read
    obtain rfl | rfl := hl <;> dsimp only at hparse hsame <;> split_ifs <;> simp [hparse, hsame]

section
variable {r : Char} (hr : isSpace r = true)
include hr

theorem isNewline_space : isNewline r = false := by
  simp only [isSpace, Bool.or_eq_true, beq_iff_eq] at hr
  obtain rfl | rfl := hr <;> rfl

theorem isWord_space : isWord r = false := not_word (.inr (.inl hr))

theorem isAlpha_space : isAlpha r = false := by
  have h := isWord_space hr
  simp only [isWord, Bool.or_eq_false_iff] at h
  exact h.1.1

theorem next_parameter : parseRuneForState r .parameter = .ok (.value, '\x00') := by
  have h := isWord_space hr
  simp only [isWord, Bool.or_eq_false_iff, beq_eq_false_iff_ne] at h
  simp [parseRuneForState, h, hr]

theorem read_name_space {l : Reader} (hl : l.curr = .name) (h : isValidCommand l.b = true) :
    l.read u r = .ok { (l.finishName .value).2 with b := [], curr := (l.finishName .value).1 } := by
  simp [read, hl, isNewline_space hr, parseRuneForState, isAlpha_space hr, hr, h, enter, write]

theorem read_name_invalid {l : Reader} (hl : l.curr = .name) (h : isValidCommand l.b = false) :
    l.read u r = .error (.parser l.currLine errInvalidCommand) := by
  simp [read, hl, isNewline_space hr, parseRuneForState, isAlpha_space hr, hr, h]

theorem read_parameter_space {l : Reader} (hl : l.curr = .parameter) :
    l.read u r = .ok { l with cmd := { l.cmd with name := l.b }, b := [], curr := .value } := by
  simp [read, hl, isNewline_space hr, next_parameter hr, enter, write]

theorem read_message_space {l : Reader} (hl : l.curr = .message) (h : isValidMessageRole l.b = true) :
    l.read u r = .ok { l with role := l.b, b := [], curr := .value } := by
  simp [read, hl, isNewline_space hr, parseRuneForState, isAlpha_space hr, hr, h, enter, write]

theorem read_message_invalid {l : Reader} (hl : l.curr = .message) (h : isValidMessageRole l.b = false) :
    l.read u r = .error (.parser l.currLine errInvalidMessageRole) := by
  simp [read, hl, isNewline_space hr, parseRuneForState, isAlpha_space hr, hr, h]

end

theorem read_value_none {l : Reader} (hl : l.curr = .value) {r : Char} (hr : isNewline r = true)
    (h : unquote (trimSpace l.b) = none) :
    l.read u r = .ok { l with currLine := l.currLine + 1, b := l.b ++ [r] } := by
  simp [read, hl, hr, parseRuneForState, h]

theorem read_value_some {l : Reader} (hl : l.curr = .value) {r : Char} (hr : isNewline r = true) {s : Str}
    (h : unquote (trimSpace l.b) = some s) :
    l.read u r = .ok { l.finishValue s with currLine := l.currLine + 1, b := [], curr := .nil } := by
  have hspace : isSpace r = false := by
    simp only [isNewline, Bool.or_eq_true, beq_iff_eq] at hr
    obtain rfl | rfl := hr <;> rfl
  simp [read, hl, hr, parseRuneForState, h, hspace, enter, write, isPrint_newline u hr, finishValue]

theorem read_value_other {l : Reader} (hl : l.curr = .value) {r : Char} (hr : isNewline r = false) :
    l.read u r = .ok { l with b := if kept u r then l.b ++ [r] else l.b } := by
  obtain ⟨cmd, _, currLine, b, role, commands⟩ := l
  cases hl
  cases hs : isSpace r with
  | true =>
    cases h : unquote (trimSpace b) <;> simp [read, hr, parseRuneForState, hs, h, kept]
  | false =>
    cases h : u.isPrint r <;> simp [read, hr, parseRuneForState, hs, write, kept, h]

/-- What the loop does with a value. -/
theorem run_value {l : Reader} (hl : l.curr = .value) (text : Str) :
    (valueFrom u l.b text = none ∧ ∃ e, run u l text = .error e) ∨
    ∃ s t l', valueFrom u l.b text = some (s, t) ∧ l'.Rests ∧ l'.commands = (l.finishValue s).commands ∧
      run u l text = run u l' t := by
  induction text generalizing l with
  | nil =>
    rw [valueFrom]
    cases h : unquote (trimSpace l.b) with
    | none =>
      refine .inl ⟨rfl, .unexpectedEOF none, ?_⟩
      simp only [run, List.foldlM_nil, flush, pure, Except.pure, bind, Except.bind, hl, h]
    | some s =>
      refine .inr ⟨s, [], { l.finishValue s with curr := .nil }, rfl, ⟨rfl, rfl⟩, rfl, ?_⟩
      simp only [run, List.foldlM_nil, flush, pure, Except.pure, bind, Except.bind, hl, h]
  | cons r text ih =>
    cases hr : isNewline r with
    | true =>
      cases h : unquote (trimSpace l.b) with
      | none =>
        rw [valueFrom_newline_none u hr h, run_cons u (read_value_none u hl hr h)]
        exact ih (l := { l with currLine := l.currLine + 1, b := l.b ++ [r] }) hl
      | some s =>
        rw [valueFrom_newline_some u hr h, run_cons u (read_value_some u hl hr h)]
        exact .inr ⟨s, text, { l.finishValue s with currLine := l.currLine + 1, b := [], curr := .nil }, rfl, ⟨rfl, rfl⟩,
          rfl, rfl⟩
    | false =>
      rw [valueFrom_other u hr, run_cons u (read_value_other u hl hr)]
      exact ih (l := { l with b := if kept u r then l.b ++ [r] else l.b }) hl

/-- The loop in front of a value, once the command is known. -/
structure Awaits (l : Reader) (name role : Str) (commands : List Command) : Prop where
  curr : l.curr = .value
  b : l.b = []
  name : l.cmd.name = name
  role : l.role = role
  commands : l.commands = commands

theorem run_command {l : Reader} (hl : l.Rests) {w : Str} (hw : w.all isAlpha = true) (hcmd : isValidCommand w = true)
    (text : Str) : ∃ l' : Reader, l'.b = w ∧ l'.role = [] ∧ l'.commands = l.commands ∧
      run u l (w ++ ' ' :: text) =
        run u { (l'.finishName .value).2 with b := [], curr := (l'.finishName .value).1 } text := by
  cases w with
  | nil => cases hcmd
  | cons r w =>
    rw [List.all_eq_true] at hw
    refine ⟨{ l with b := r :: w, curr := .name }, rfl, hl.role, rfl, ?_⟩
    have hrest : ∀ x ∈ w, ∀ l : Reader, l.curr = .name → l.read u x = .ok { l with b := l.b ++ [x] } :=
      fun x hx l hl => read_name u (hw x (List.mem_cons_of_mem _ hx)) hl
    rw [List.cons_append, run_cons u (read_first u (hw r (List.mem_cons_self ..)) hl.curr),
      run_word u hrest (l := { l with b := [r], curr := .name }) rfl]
    exact run_cons u (read_name_space u rfl (l := { l with b := r :: w, curr := .name }) rfl hcmd) text

theorem run_quoted {l : Reader} (hl : l.Rests) {name : Str} (hname : name ∈ quotedNames) (text : Str) :
    ∃ l', Awaits l' name [] l.commands ∧ run u l (name.map Char.toUpper ++ ' ' :: text) = run u l' text := by
  have hall : quotedNames.all (fun n => (n.map Char.toUpper).all isAlpha && isValidCommand (n.map Char.toUpper) &&
      toLower (n.map Char.toUpper) == n && n != "from".toList && n != "parameter".toList && n != "message".toList) = true := by
    decide
  have hn := List.all_eq_true.mp hall name hname
  simp only [Bool.and_eq_true, beq_iff_eq, bne_iff_ne] at hn
  obtain ⟨⟨⟨⟨⟨halpha, hcmd⟩, hlower⟩, hfrom⟩, hparameter⟩, hmessage⟩ := hn
  obtain ⟨l', hb, hrole, hcommands, hrun⟩ := run_command u hl halpha hcmd text
  have hfinish : l'.finishName .value = (.value, { l' with cmd := { l'.cmd with name := name } }) := by
    rw [finishName, hb, hlower]
    dsimp only
    rw [if_neg hfrom, if_neg hparameter, if_neg hmessage]
  rw [hfinish] at hrun
  exact ⟨{ l' with cmd := { l'.cmd with name := name }, b := [], curr := .value }, ⟨rfl, rfl, rfl, hrole, hcommands⟩, hrun⟩

theorem run_from {l : Reader} (hl : l.Rests) (text : Str) :
    ∃ l', Awaits l' "model".toList [] l.commands ∧ run u l ("FROM ".toList ++ text) = run u l' text := by
  obtain ⟨l', hb, hrole, hcommands, hrun⟩ := run_command u hl (w := "FROM".toList) (by decide) (by decide) text
  have hfinish : l'.finishName .value = (.value, { l' with cmd := { l'.cmd with name := "model".toList } }) := by
    rw [finishName, hb]
    exact if_pos (by decide)
  rw [hfinish] at hrun
  exact ⟨{ l' with cmd := { l'.cmd with name := "model".toList }, b := [], curr := .value },
    ⟨rfl, rfl, rfl, hrole, hcommands⟩, hrun⟩

theorem run_parameter {l : Reader} (hl : l.Rests) {name : Str} (hname : ∀ r ∈ name, isWord r = true) (text : Str) :
    ∃ l', Awaits l' name [] l.commands ∧
      run u l ("PARAMETER ".toList ++ name ++ ' ' :: text) = run u l' text := by
  obtain ⟨l', hb, hrole, hcommands, hrun⟩ :=
    run_command u hl (w := "PARAMETER".toList) (by decide) (by decide) (name ++ ' ' :: text)
  have hfinish : l'.finishName .value = (.parameter, l') := by
    rw [finishName, hb]
    exact (if_neg (by decide)).trans (if_pos (by decide))
  have hread : ∀ r ∈ name, ∀ l : Reader, l.curr = .parameter → l.read u r = .ok { l with b := l.b ++ [r] } :=
    fun r hr l hl => read_parameter u (hname r hr) hl
  rw [hfinish, run_word u hread (l := { l' with b := [], curr := .parameter }) rfl,
    run_cons u (read_parameter_space u rfl (l := { l' with b := [] ++ name, curr := .parameter }) rfl)] at hrun
  refine ⟨{ l' with cmd := { l'.cmd with name := name }, b := [], curr := .value }, ⟨rfl, rfl, rfl, hrole, hcommands⟩,
    Eq.trans ?_ hrun⟩
  rw [List.append_assoc]
  rfl

/-- In front of a role. -/
theorem run_messageName {l : Reader} (hl : l.Rests) (text : Str) :
    ∃ l' : Reader, l'.curr = .message ∧ l'.b = [] ∧ l'.cmd.name = "message".toList ∧ l'.role = [] ∧
      l'.commands = l.commands ∧ run u l ("MESSAGE ".toList ++ text) = run u l' text := by
  obtain ⟨l', hb, hrole, hcommands, hrun⟩ := run_command u hl (w := "MESSAGE".toList) (by decide) (by decide) text
  have hfinish : l'.finishName .value = (.message, { l' with cmd := { l'.cmd with name := "message".toList } }) := by
    rw [finishName, hb]
    exact (if_neg (by decide)).trans ((if_neg (by decide)).trans (if_pos (by decide)))
  rw [hfinish] at hrun
  exact ⟨{ l' with cmd := { l'.cmd with name := "message".toList }, b := [], curr := .message }, rfl, rfl, rfl, hrole,
    hcommands, hrun⟩

theorem isAlpha_role {role : Str} (h : isValidMessageRole role = true) : ∀ r ∈ role, isAlpha r = true := by
  have hall : role.all isAlpha = true := by
    simp only [isValidMessageRole, Bool.or_eq_true, beq_iff_eq] at h
    obtain (rfl | rfl) | rfl := h <;> decide
  exact List.all_eq_true.mp hall

theorem run_role {l : Reader} (hl : l.curr = .message) (hb : l.b = []) {role : Str} (h : isValidMessageRole role = true)
    (text : Str) : ∃ l', Awaits l' l.cmd.name role l.commands ∧ run u l (role ++ ' ' :: text) = run u l' text := by
  have hread : ∀ r ∈ role, ∀ l : Reader, l.curr = .message → l.read u r = .ok { l with b := l.b ++ [r] } :=
    fun r hr l hl => read_message u (isAlpha_role h r hr) hl
  have hrun := run_word u hread hl (' ' :: text)
  rw [hb, List.nil_append,
    run_cons u (read_message_space u rfl (l := { l with b := role }) hl h)] at hrun
  exact ⟨{ l with role := role, b := [], curr := .value }, ⟨rfl, rfl, rfl, rfl, rfl⟩, hrun⟩

end Reader

end Xdragon.Parser
