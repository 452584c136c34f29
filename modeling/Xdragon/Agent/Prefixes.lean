import Xdragon.Agent.Approval

/-!
# What a prefix lets through

The first path of a command line is in the directory of the prefix that lets the line through. The rest of the
line is not looked at.
-/

namespace Xdragon.Agent

open Xdragon.Lib

/-! ## What is claimed -/

/-- The path is in the directory or is the directory itself, once its dots are resolved. -/
def Inside (dir arg : Bytes) : Prop :=
  rooted (toSlash arg) = false ∧ ascii ".." ∉ cleanParts (toSlash arg) ∧ cleanParts dir <+: cleanParts (toSlash arg)

instance (dir arg : Bytes) : Decidable (Inside dir arg) := inferInstanceAs (Decidable (_ ∧ _ ∧ _))

/-- The commands of a line, which a pipe connects. -/
def commands (line : Bytes) : List (List Bytes) := (line.splitOn pipe).map words

def firstCommand (line : Bytes) : Option Bytes := ((commands line).headD []).head?

def arguments (line : Bytes) : List Bytes := (commands line).flatMap List.tail

def isSeparator (b : UInt8) : Bool := b ∈ ascii ";&\n"

/-- Something stands behind a separator. -/
def startsFurther (line : Bytes) : Bool :=
  ((trimLeft line).dropWhile fun b => !isSeparator b).any fun b => !isSeparator b && b ∉ ascii " \t\r"

/-- The command and the directory of a prefix. -/
def commandOf (p : Bytes) : Bytes := p.takeWhile (· ≠ colon)
def dirOf (p : Bytes) : Bytes := (p.dropWhile (· ≠ colon)).tail.dropLast

/-- The line does what the prefix is for, and nothing else. -/
structure Respects (p line : Bytes) : Prop where
  first : firstCommand line = some (commandOf p)
  single : startsFurther line = false
  inside : ∀ arg ∈ arguments line, pathLike arg = true → Inside (dirOf p) arg

/-- The stored prefix lets the line through, which is no exact entry. -/
structure Through (a : ApprovalManager) (p line : Bytes) : Prop where
  stored : p ∈ a.prefixes
  inexact : allowlistKey (ascii "bash") (some line) ∉ a.allowlist
  some_prefix : extractBashPrefix line ≠ []
  lets : extractBashPrefix line = p ∨ hierarchical (extractBashPrefix line) p = true

/-- The arguments of a command that its prefix does not come from. -/
def others (args : List Bytes) : List Bytes :=
  args.takeWhile (!isClear ·) ++ (args.dropWhile (!isClear ·)).tail

/-- The arguments of a line that its prefix does not come from. -/
def unchecked (line : Bytes) : List Bytes :=
  others ((commands line).headD []).tail ++ (commands line).tail.flatMap List.tail

/-- The session after some approvals. -/
def approved (calls : List (Bytes × Option Bytes)) : ApprovalManager :=
  calls.foldl (fun a call => a.addToAllowlist call.1 call.2) newApprovalManager

/-! ## One prefix -/

/-- The directory that is remembered for a path has the path inside. -/
theorem pathDir_spec {arg dir : Bytes} (h : pathDir arg = some dir) :
    ∃ names, (∀ n ∈ names, PlainPart n) ∧ dir = joinNames names ∧ rooted (toSlash arg) = false ∧
      ascii ".." ∉ cleanParts (toSlash arg) ∧ names <+: cleanParts (toSlash arg) := by
  unfold pathDir at h
  dsimp only at h
  split at h
  · cases h
  rename_i hrel
  rw [Bool.not_eq_true] at hrel
  split at h
  · cases h
  rename_i hup
  rw [List.isPrefixOf_iff_prefix] at hup
  split at h
  · cases h
  obtain ⟨hplain, hclean⟩ := clean_relative hrel hup
  have hdots : ascii ".." ∉ cleanParts (toSlash arg) := fun hmem => (hplain _ hmem).ne_dots rfl
  obtain rfl := Option.some.inj h
  split
  · exact ⟨_, hplain, hclean, hrel, hdots, List.prefix_refl _⟩
  · refine ⟨(cleanParts (toSlash arg)).dropLast, ?_, ?_, hrel, hdots, List.dropLast_prefix _⟩
    · exact fun n hn => hplain n (List.mem_of_mem_dropLast hn)
    · rw [hclean, dirPath]
      exact clean_parent hplain

theorem colon_not_mem_safe {cmd : Bytes} (h : cmd ∈ safeCommands) : colon ∉ cmd := by
  have hall : safeCommands.all (fun c => !c.contains colon) = true := by decide
  have hcmd := List.all_eq_true.mp hall cmd h
  simpa using hcmd

/-- What a prefix is made of. -/
structure Made (cmd : Bytes) (names : List Bytes) (p : Bytes) : Prop where
  safe : cmd ∈ safeCommands
  plain : ∀ n ∈ names, PlainPart n
  eq : p = makePrefix cmd (joinNames names)

theorem extractBashPrefix_spec {line : Bytes} (h : extractBashPrefix line ≠ []) :
    ∃ cmd args names, words ((line.splitOn pipe).headD []) = cmd :: args ∧ Made cmd names (extractBashPrefix line) ∧
      ∀ arg, args.find? isClear = some arg → rooted (toSlash arg) = false ∧ ascii ".." ∉ cleanParts (toSlash arg) ∧
        names <+: cleanParts (toSlash arg) := by
  obtain ⟨p, hp⟩ : ∃ p, extractBashPrefix line = p := ⟨_, rfl⟩
  rw [hp] at h ⊢
  unfold extractBashPrefix at hp
  split at hp
  · rename_i cmd args hwords
    split at hp
    · exact absurd hp.symm h
    rename_i hsafe
    rw [not_or, Classical.not_not] at hsafe
    split at hp
    · rename_i arg harg
      cases hdir : pathDir arg with
      | none =>
        rw [hdir] at hp
        exact absurd hp.symm h
      | some dir =>
        rw [hdir] at hp
        obtain ⟨names, hplain, hjoin, hinside⟩ := pathDir_spec hdir
        refine ⟨cmd, args, names, hwords, ⟨hsafe.2, hplain, by rw [← hjoin, ← hp]; rfl⟩, ?_⟩
        intro arg' harg'
        obtain rfl := Option.some.inj (harg.symm.trans harg')
        exact hinside
    · rename_i hnone
      split at hp
      · exact ⟨cmd, args, [], hwords, ⟨hsafe.2, by simp, hp.symm⟩, by simp [hnone]⟩
      · exact absurd hp.symm h
  · exact absurd hp.symm h

theorem cut_colon {cmd : Bytes} (h : colon ∉ cmd) (rest : Bytes) :
    (cmd ++ colon :: rest).takeWhile (· ≠ colon) = cmd ∧ (cmd ++ colon :: rest).dropWhile (· ≠ colon) = colon :: rest := by
  have hall : ∀ b ∈ cmd, decide (b ≠ colon) = true := by
    intro b hb
    rw [decide_eq_true_eq]
    rintro rfl
    exact h hb
  rw [List.takeWhile_append_of_pos hall, List.dropWhile_append_of_pos hall]
  simp

section
variable {cmd : Bytes} {names : List Bytes} {p : Bytes}

theorem Made.split (h : Made cmd names p) : p = cmd ++ colon :: (joinNames names ++ [slash]) := by
  rw [h.eq, makePrefix]
  simp [ascii, colon, slash]

theorem Made.commandOf (h : Made cmd names p) : commandOf p = cmd := by
  rw [h.split]
  exact (cut_colon (colon_not_mem_safe h.safe) _).1

theorem Made.dirOf (h : Made cmd names p) : dirOf p = joinNames names := by
  rw [h.split, Agent.dirOf, (cut_colon (colon_not_mem_safe h.safe) _).2, List.tail_cons, List.dropLast_concat]

theorem Made.cutPrefix (h : Made cmd names p) : cutPrefix p = some (cmd, joinNames names ++ [slash]) := by
  rw [h.split, Agent.cutPrefix, if_pos (by simp), (cut_colon (colon_not_mem_safe h.safe) _).1,
    (cut_colon (colon_not_mem_safe h.safe) _).2, List.tail_cons]

/-- A stored prefix has the command of what it lets through, and a directory around it. -/
theorem Made.around (h : Made cmd names p) {cmd' : Bytes} {names' : List Bytes} {q : Bytes} (h' : Made cmd' names' q)
    (hlets : q = p ∨ hierarchical q p = true) : cmd' = cmd ∧ names <+: names' := by
  have hhier : hierarchical q p = true := by
    rcases hlets with rfl | hlets
    · unfold hierarchical
      rw [h'.cutPrefix]
      simp
    · exact hlets
  unfold hierarchical at hhier
  rw [h.cutPrefix, h'.cutPrefix] at hhier
  simp only [Bool.and_eq_true, decide_eq_true_eq, List.isPrefixOf_iff_prefix] at hhier
  exact ⟨hhier.1, names_prefix h.plain h'.plain hhier.2⟩

end

/-! ## A session -/

/-- Every stored prefix was made from a command line. -/
theorem approved_made (calls : List (Bytes × Option Bytes)) :
    ∀ p ∈ (approved calls).prefixes, ∃ cmd names, Made cmd names p := by
  have hadd : ∀ (a : ApprovalManager) (toolName : Bytes) (command : Option Bytes),
      (∀ p ∈ a.prefixes, ∃ cmd names, Made cmd names p) →
      ∀ p ∈ (a.addToAllowlist toolName command).prefixes, ∃ cmd names, Made cmd names p := by
    intro a toolName command ha p hp
    rcases command with _ | line
    · exact ha p hp
    · rw [ApprovalManager.addToAllowlist] at hp
      by_cases hbash : toolName = ascii "bash"
      · rw [if_pos hbash] at hp
        by_cases hne : extractBashPrefix line = []
        · simp only [hne, ne_eq, not_true_eq_false, if_false] at hp
          exact ha p hp
        · simp only [hne, ne_eq, not_false_eq_true, if_true, List.mem_cons] at hp
          rcases hp with rfl | hp
          · obtain ⟨cmd, args, names, -, hmade, -⟩ := extractBashPrefix_spec hne
            exact ⟨cmd, names, hmade⟩
          · exact ha p hp
      · rw [if_neg hbash] at hp
        exact ha p hp
  have hfold : ∀ (calls : List (Bytes × Option Bytes)) (a : ApprovalManager),
      (∀ p ∈ a.prefixes, ∃ cmd names, Made cmd names p) →
      ∀ p ∈ (calls.foldl (fun a call => a.addToAllowlist call.1 call.2) a).prefixes, ∃ cmd names, Made cmd names p := by
    intro calls
    induction calls with
    | nil => exact fun _ ha => ha
    | cons call calls ih => exact fun a ha => ih _ (hadd a call.1 call.2 ha)
  exact hfold calls newApprovalManager (by simp [newApprovalManager])

/-! ## The line -/

theorem mem_args {args : List Bytes} {arg : Bytes} (h : arg ∈ args) : arg ∈ others args ∨ args.find? isClear = some arg := by
  induction args with
  | nil => cases h
  | cons x args ih =>
    unfold others at ih ⊢
    by_cases hx : isClear x = true
    · rcases List.mem_cons.mp h with rfl | h
      · exact Or.inr (by simp [hx])
      · exact Or.inl (by simp [hx, h])
    · rcases List.mem_cons.mp h with rfl | h
      · exact Or.inl (by simp [hx])
      · rcases ih h with ih | ih
        · left
          simp only [hx, List.takeWhile_cons, List.dropWhile_cons, Bool.not_false, if_true, List.cons_append]
          exact List.mem_cons_of_mem _ ih
        · exact Or.inr (by simpa [hx] using ih)

theorem mem_of_others {args : List Bytes} {arg : Bytes} (h : arg ∈ others args) : arg ∈ args := by
  rcases List.mem_append.mp h with h | h
  · exact List.takeWhile_subset _ h
  · exact List.dropWhile_subset _ (List.mem_of_mem_tail h)

end Xdragon.Agent
