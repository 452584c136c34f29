import Xdragon.Lib.Fields
import Xdragon.Lib.Wire

/-!
# Commands that need no approval

`IsAutoAllowed` of `x/agent/approval.go` reads the start of a command line. The shell runs all simple commands of the line.
-/

namespace Xdragon.Agent

open Xdragon.Lib

def autoAllowCommands : List Bytes :=
  [ascii "pwd", ascii "echo", ascii "date", ascii "whoami", ascii "hostname", ascii "uname"]

def autoAllowPrefixes : List Bytes :=
  [ascii "git status", ascii "git log", ascii "git diff", ascii "git branch", ascii "git show", ascii "git remote -v",
    ascii "git tag", ascii "git stash list", ascii "npm run", ascii "npm test", ascii "npm start", ascii "bun run",
    ascii "bun test", ascii "uv run", ascii "yarn run", ascii "yarn test", ascii "pnpm run", ascii "pnpm test",
    ascii "go list", ascii "go version", ascii "go env", ascii "npm list", ascii "npm ls", ascii "npm version",
    ascii "pip list", ascii "pip show", ascii "cargo tree", ascii "cargo version", ascii "go build", ascii "go test",
    ascii "go fmt", ascii "go vet", ascii "make", ascii "cmake", ascii "cargo build", ascii "cargo test", ascii "cargo check"]

def isAutoAllowed (command : Bytes) : Bool :=
  let command := trimSpace command
  (match fields command with
    | word :: _ => word ∈ autoAllowCommands
    | [] => false) ||
  autoAllowPrefixes.any fun p => p <+: command

/-! ## The commands of a line -/

/-- How the next character of a command line is quoted. -/
inductive Quoting where
  | unquoted
  | escaped
  | single
  | double
  | doubleEscaped
  deriving DecidableEq

def Quoting.next : Quoting → UInt8 → Quoting
  | .unquoted, c => if c = 0x5c then .escaped else if c = 0x27 then .single else if c = 0x22 then .double else .unquoted
  | .escaped, _ => .unquoted
  | .single, c => if c = 0x27 then .unquoted else .single
  | .double, c => if c = 0x22 then .unquoted else if c = 0x5c then .doubleEscaped else .double
  | .doubleEscaped, _ => .double

/-- `;`, `|`, `&` and a newline. -/
def isShellSeparator (c : UInt8) : Bool := c = 0x3b || c = 0x7c || c = 0x26 || c = 0x0a

/-- The text between unquoted separators, where `cur` is the one before. -/
def piecesFrom (q : Quoting) (cur : Bytes) : Bytes → List Bytes
  | [] => [cur]
  | c :: s => if q = .unquoted ∧ isShellSeparator c then cur :: piecesFrom .unquoted [] s else piecesFrom (q.next c) (cur ++ [c]) s

/-- The simple commands that the shell runs from a line. -/
def simpleCommands (line : Bytes) : List Bytes := (piecesFrom .unquoted [] line).filter fun c => trimLeft c ≠ []

/-- A command whose first word, or whose first words, are listed. -/
def Allowed (command : Bytes) : Prop :=
  (∃ word ∈ autoAllowCommands, (fields command).head? = some word) ∨
    ∃ p ∈ autoAllowPrefixes, ∃ u, trimLeft command = p ++ u ∧ AtBoundary u

/-! ## Listed texts -/

/-- Bytes that neither separate nor quote. -/
def isNeutral (x : UInt8) : Bool := !isShellSeparator x && x ≠ 0x5c && x ≠ 0x27 && x ≠ 0x22

/-- A text of ASCII characters that the shell reads as they are, which starts and ends with no white space. -/
structure Plain (p : Bytes) : Prop where
  ascii : ∀ x ∈ p, x.toNat < 0x80
  neutral : ∀ x ∈ p, isNeutral x = true
  solid_head : ∃ x ∈ p.head?, Solid x
  solid_last : ∃ x ∈ p.getLast?, Solid x

instance (p : Bytes) : Decidable (Plain p) :=
  decidable_of_iff ((∀ x ∈ p, x.toNat < 0x80) ∧ (∀ x ∈ p, isNeutral x = true) ∧ (∃ x ∈ p.head?, Solid x) ∧ ∃ x ∈ p.getLast?, Solid x)
    ⟨fun ⟨h1, h2, h3, h4⟩ => ⟨h1, h2, h3, h4⟩, fun h => ⟨h.ascii, h.neutral, h.solid_head, h.solid_last⟩⟩

/-- The listed texts are plain, the words among them have no white space, and no listed text starts with another one. -/
theorem listed : (∀ p ∈ autoAllowCommands ++ autoAllowPrefixes, Plain p) ∧ (∀ p ∈ autoAllowCommands, ∀ x ∈ p, Solid x) ∧
    ∀ p ∈ autoAllowCommands ++ autoAllowPrefixes, ∀ q ∈ autoAllowCommands ++ autoAllowPrefixes, p <+: q → p = q := by
  decide +kernel

/-- The code reads the first word of the line, and what the line starts with. -/
theorem isAutoAllowed_iff (command : Bytes) : isAutoAllowed command = true ↔
    (∃ word ∈ autoAllowCommands, ∃ u, trimLeft command = word ++ u ∧ AtBoundary u) ∨
      ∃ p ∈ autoAllowPrefixes, p <+: trimLeft command := by
  have hword : ∀ word ∈ autoAllowCommands, ((fields (trimSpace command)).head? = some word ↔
      ∃ u, trimLeft command = word ++ u ∧ AtBoundary u) := by
    intro word hmem
    have hsolid := listed.2.1 word hmem
    have hne : word ≠ [] := by
      obtain ⟨x, hx, -⟩ := (listed.1 word (List.mem_append_left _ hmem)).solid_head
      exact List.ne_nil_of_mem (List.mem_of_mem_head? hx)
    rw [head_fields_trimSpace hne hsolid, head_fields_iff hne hsolid]
  have hsame : ∀ p ∈ autoAllowPrefixes, (p <+: trimSpace command ↔ p <+: trimLeft command) := by
    intro p hmem
    have hplain := listed.1 p (List.mem_append_right _ hmem)
    exact prefix_trimSpace hplain.ascii hplain.solid_last
  have hfirst : (match fields (trimSpace command) with
      | word :: _ => decide (word ∈ autoAllowCommands)
      | [] => false) = true ↔ ∃ word ∈ autoAllowCommands, (fields (trimSpace command)).head? = some word := by
    cases fields (trimSpace command) with
    | nil => simp
    | cons word rest => simp
  simp only [isAutoAllowed, Bool.or_eq_true, hfirst, List.any_eq_true, decide_eq_true_eq]
  exact or_congr (exists_congr fun word => and_congr_right fun hmem => hword word hmem)
    (exists_congr fun p => and_congr_right fun hmem => hsame p hmem)

theorem allowed_iff (command : Bytes) : Allowed command ↔
    ∃ p ∈ autoAllowCommands ++ autoAllowPrefixes, ∃ u, trimLeft command = p ++ u ∧ AtBoundary u := by
  have hword : ∀ word ∈ autoAllowCommands, ((fields command).head? = some word ↔
      ∃ u, trimLeft command = word ++ u ∧ AtBoundary u) := by
    intro word hmem
    obtain ⟨x, hx, -⟩ := (listed.1 word (List.mem_append_left _ hmem)).solid_head
    exact head_fields_iff (List.ne_nil_of_mem (List.mem_of_mem_head? hx)) (listed.2.1 word hmem)
  unfold Allowed
  constructor
  · rintro (⟨word, hmem, h⟩ | ⟨p, hmem, h⟩)
    · exact ⟨word, List.mem_append_left _ hmem, (hword word hmem).mp h⟩
    · exact ⟨p, List.mem_append_right _ hmem, h⟩
  · rintro ⟨p, hmem, h⟩
    rcases List.mem_append.mp hmem with hmem | hmem
    · exact .inl ⟨p, hmem, (hword p hmem).mpr h⟩
    · exact .inr ⟨p, hmem, h⟩

/-! ## The first command -/

theorem piecesFrom_neutral {a : Bytes} (ha : ∀ x ∈ a, isNeutral x = true) (cur s : Bytes) :
    piecesFrom .unquoted cur (a ++ s) = piecesFrom .unquoted (cur ++ a) s := by
  induction a generalizing cur with
  | nil => rw [List.append_nil]; rfl
  | cons x a ih =>
    have hx := ha x (List.mem_cons_self ..)
    simp only [isNeutral, Bool.and_eq_true, Bool.not_eq_true', decide_eq_true_eq] at hx
    obtain ⟨⟨⟨hsep, hbackslash⟩, hsingle⟩, hdouble⟩ := hx
    have hnext : Quoting.unquoted.next x = .unquoted := by simp [Quoting.next, hbackslash, hsingle, hdouble]
    rw [List.cons_append, piecesFrom, if_neg (by simp [hsep]), hnext, ih fun y hy => ha y (List.mem_cons_of_mem _ hy),
      List.append_assoc]
    rfl

/-- The first piece goes on to the end of the text, or to a separator. -/
theorem piecesFrom_first (q : Quoting) (cur s : Bytes) : ∃ x rest, piecesFrom q cur s = (cur ++ x) :: rest ∧
    (q = .unquoted → ∀ c ∈ x.head?, isShellSeparator c = false) ∧ (s = x ∨ ∃ c y, isShellSeparator c = true ∧ s = x ++ c :: y) := by
  have hempty : ∀ q : Quoting, q = .unquoted → ∀ c ∈ ([] : Bytes).head?, isShellSeparator c = false := by
    intro _ _ c hc
    cases hc
  induction s generalizing q cur with
  | nil => exact ⟨[], [], by rw [List.append_nil]; rfl, hempty q, .inl rfl⟩
  | cons c s ih =>
    rw [piecesFrom]
    split_ifs with hcut
    · exact ⟨[], _, by rw [List.append_nil], hempty q, .inr ⟨c, s, hcut.2, rfl⟩⟩
    · obtain ⟨x, rest, hpieces, -, hx⟩ := ih (q.next c) (cur ++ [c])
      refine ⟨c :: x, rest, by rw [hpieces, List.append_assoc]; rfl, ?_, ?_⟩
      · rintro rfl d hd
        obtain rfl := Option.some.inj hd
        exact Bool.eq_false_iff.mpr fun hsep => hcut ⟨rfl, hsep⟩
      · obtain rfl | ⟨d, y, hd, rfl⟩ := hx
        · exact .inl rfl
        · exact .inr ⟨d, y, hd, rfl⟩

/-- White space is neutral, but for a newline. -/
theorem neutral_space {c : Char} (hspace : isSpace c = true) (hc : c ≠ '\n') : ∀ x ∈ String.utf8EncodeChar c, isNeutral x = true := by
  by_cases hascii : c.toNat < 128
  · rw [utf8EncodeChar_ascii hascii]
    intro x hx
    obtain rfl := List.mem_singleton.mp hx
    have hcases : c.toNat = 9 ∨ c.toNat = 11 ∨ c.toNat = 12 ∨ c.toNat = 13 ∨ c.toNat = 32 := by
      have hne : c.toNat ≠ 10 := fun h => hc (Char.toNat_inj.mp h)
      simp only [isSpace, Bool.or_eq_true, Bool.and_eq_true, decide_eq_true_eq, beq_iff_eq] at hspace
      omega
    rcases hcases with h | h | h | h | h <;> rw [h] <;> decide
  · intro x hx
    have hhigh := ((utf8EncodeChar_high (c := c) (by omega)).2 x hx).1
    have hne : ∀ y : UInt8, y.toNat < 128 → x ≠ y := by
      rintro y hy rfl
      omega
    simp only [isNeutral, isShellSeparator, Bool.and_eq_true, Bool.not_eq_true', Bool.or_eq_false_iff, decide_eq_false_iff_not,
      decide_eq_true_eq]
    exact ⟨⟨⟨⟨⟨⟨hne _ (by decide), hne _ (by decide)⟩, hne _ (by decide)⟩, hne _ (by decide)⟩, hne _ (by decide)⟩,
      hne _ (by decide)⟩, hne _ (by decide)⟩

/-- White space in front of a command makes blank pieces, and goes into the first one that is not blank. -/
theorem piecesFrom_spaces {ws : List Char} (hws : ∀ c ∈ ws, isSpace c = true) {cur : List Char} (hcur : ∀ c ∈ cur, isSpace c = true)
    (s : Bytes) : ∃ (blanks : List Bytes) (cur' : List Char), (∀ b ∈ blanks, trimLeft b = []) ∧ (∀ c ∈ cur', isSpace c = true) ∧
      piecesFrom .unquoted (ofRunes cur) (ofRunes ws ++ s) = blanks ++ piecesFrom .unquoted (ofRunes cur') s := by
  induction ws generalizing cur with
  | nil => exact ⟨[], cur, List.forall_mem_nil _, hcur, rfl⟩
  | cons c ws ih =>
    have hc := hws c (List.mem_cons_self ..)
    have htail : ∀ d ∈ ws, isSpace d = true := fun d hd => hws d (List.mem_cons_of_mem _ hd)
    have hcons : ofRunes (c :: ws) = String.utf8EncodeChar c ++ ofRunes ws := List.flatMap_cons
    rw [hcons, List.append_assoc]
    by_cases hnewline : c = '\n'
    · subst hnewline
      obtain ⟨blanks, cur', hblanks, hcur', hpieces⟩ := @ih htail [] (List.forall_mem_nil _)
      refine ⟨ofRunes cur :: blanks, cur', List.forall_mem_cons.mpr ⟨?_, hblanks⟩, hcur', ?_⟩
      · have := trimLeft_spaces hcur []
        rwa [List.append_nil] at this
      · rw [List.cons_append, ← hpieces]
        rfl
    · have hone : ofRunes cur ++ String.utf8EncodeChar c = ofRunes (cur ++ [c]) := by
        rw [ofRunes_append, ofRunes, ofRunes, List.flatMap_singleton]
      rw [piecesFrom_neutral (neutral_space hc hnewline), hone]
      apply ih htail
      intro d hd
      rcases List.mem_append.mp hd with hd | hd
      · exact hcur d hd
      · rw [List.mem_singleton.mp hd]
        exact hc

/-- What may follow a listed text: white space, a separator, or nothing. -/
def EndsWord (u : Bytes) : Prop := AtBoundary u ∨ ∃ c y, isShellSeparator c = true ∧ u = c :: y

theorem runes_separator {c : UInt8} (hc : isShellSeparator c = true) (x y : Bytes) :
    runes (x ++ c :: y) = runes x ++ runes (c :: y) := by
  apply runes_append
  intro d hd
  obtain rfl := Option.some.inj hd
  simp only [isShellSeparator, Bool.or_eq_true, decide_eq_true_eq] at hc
  rcases hc with ((rfl | rfl) | rfl) | rfl <;> decide

/-- No separator stands inside a white space character, so the first piece ends its word if and only if the line does. -/
theorem atBoundary_cut {u x : Bytes} (hhead : ∀ c ∈ x.head?, isShellSeparator c = false)
    (hx : u = x ∨ ∃ c y, isShellSeparator c = true ∧ u = x ++ c :: y) : AtBoundary x ↔ EndsWord u := by
  have hkeep : x ≠ [] → (AtBoundary u ↔ AtBoundary x) := by
    intro hne
    obtain rfl | ⟨c, y, hc, rfl⟩ := hx
    · rfl
    · have hruns : runes x ≠ [] := by
        intro h
        have := flatMap_runes x
        rw [h] at this
        exact hne this.symm
      rw [atBoundary_iff, atBoundary_iff, runes_separator hc, List.head?_append_of_ne_nil _ hruns]
  constructor
  · intro h
    by_cases hnil : x = []
    · subst hnil
      obtain rfl | ⟨c, y, hc, rfl⟩ := hx
      · exact .inl (.inl rfl)
      · exact .inr ⟨c, y, hc, rfl⟩
    · exact .inl ((hkeep hnil).mpr h)
  · rintro (h | ⟨c, y, hc, rfl⟩)
    · by_cases hnil : x = []
      · exact .inl hnil
      · exact (hkeep hnil).mp h
    · cases x with
      | nil => exact .inl rfl
      | cons d x =>
        have hd := hhead d rfl
        obtain h | ⟨e, z, -, h⟩ := hx
        · rw [List.head_eq_of_cons_eq h] at hc
          simp [hc] at hd
        · rw [List.cons_append] at h
          rw [List.head_eq_of_cons_eq h] at hc
          simp [hc] at hd

/-- The first simple command of a line that starts with a listed text. -/
theorem simpleCommands_first {line p u : Bytes} (hp : Plain p) (hline : trimLeft line = p ++ u) :
    ∃ first later x, simpleCommands line = first :: later ∧ trimLeft first = p ++ x ∧ (AtBoundary x ↔ EndsWord u) := by
  obtain ⟨ws, hws, hsplit⟩ := exists_spaces line
  obtain ⟨blanks, cur, hblanks, hcur, hpieces⟩ := piecesFrom_spaces hws (List.forall_mem_nil _) (p ++ u)
  obtain ⟨x, rest, hfirst, hhead, hx⟩ := piecesFrom_first .unquoted (ofRunes cur ++ p) u
  have htrim : trimLeft (ofRunes cur ++ p ++ x) = p ++ x := by
    obtain ⟨y, hy, hsolid⟩ := hp.solid_head
    obtain ⟨p', rfl⟩ := List.head?_eq_some_iff.mp hy
    rw [List.append_assoc, trimLeft_spaces hcur]
    exact trimLeft_solid hsolid _
  have hne : trimLeft (ofRunes cur ++ p ++ x) ≠ [] := by
    obtain ⟨y, hy, -⟩ := hp.solid_head
    rw [htrim]
    exact fun h => List.ne_nil_of_mem (List.mem_of_mem_head? hy) (List.append_eq_nil_iff.mp h).1
  refine ⟨ofRunes cur ++ p ++ x, rest.filter fun c => trimLeft c ≠ [], x, ?_, htrim, atBoundary_cut (hhead rfl) hx⟩
  have hnil : blanks.filter (fun c => trimLeft c ≠ []) = [] := by
    rw [List.filter_eq_nil_iff]
    intro b hb
    simp [hblanks b hb]
  rw [ofRunes_nil] at hpieces
  rw [simpleCommands, hsplit, hline, hpieces, List.filter_append, hnil, List.nil_append, piecesFrom_neutral hp.neutral, hfirst,
    List.filter_cons_of_pos (by simpa using hne)]

/-! ## The whole line -/

/-- What a line needs for its approval to hold of everything that the shell runs from it. -/
def Compositional (line : Bytes) : Prop := isAutoAllowed line = true → ∀ command ∈ simpleCommands line, Allowed command

/-- What the start of the line does not tell: that a listed prefix is not the start of a longer word, and that each later command
is listed too. -/
structure Harmless (line : Bytes) : Prop where
  words : ∀ p ∈ autoAllowPrefixes, ∀ u, trimLeft line = p ++ u → EndsWord u
  later : (∃ p ∈ autoAllowCommands, ∃ u, trimLeft line = p ++ u ∧ AtBoundary u) ∨ (∃ p ∈ autoAllowPrefixes, p <+: trimLeft line) →
    ∀ command ∈ (simpleCommands line).tail, Allowed command

end Xdragon.Agent
