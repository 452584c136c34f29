import Xdragon.Template.Delete

/-!
# What is left of a pipeline

The part of a template in front of the first `.Response` and around it, and when the walk leaves just this of a pipeline.
It stumbles over commands behind the response and over a second response. A response in a chain it does not see.
-/

namespace Xdragon.Template

open Xdragon.Lib

/-! ## The first response -/

mutual

/-- There is a `.Response` in it. -/
def Operand.responds : Operand → Bool
  | .field ident => (Operand.field ident).isResponse
  | .other _ => false
  | .chain node _ => node.responds
  | .pipe p => p.responds

def Pipe.responds : Pipe → Bool
  | .mk _ c cs => c.responds || commandsRespond cs

def Command.responds : Command → Bool
  | .mk a as => a.responds || operandsRespond as

def operandsRespond : List Operand → Bool
  | [] => false
  | a :: as => a.responds || operandsRespond as

def commandsRespond : List Command → Bool
  | [] => false
  | c :: cs => c.responds || commandsRespond cs

end

mutual

def Node.responds : Node → Bool
  | .text _ => false
  | .action p => p.responds
  | .template _ none => false
  | .template _ (some p) => p.responds
  | .branch _ p list none => p.responds || nodesRespond list
  | .branch _ p list (some elseList) => p.responds || nodesRespond list || nodesRespond elseList

def nodesRespond : List Node → Bool
  | [] => false
  | n :: ns => n.responds || nodesRespond ns

end

mutual

/-- Up to the first `.Response`. -/
def Operand.upTo : Operand → Operand
  | .field ident => .field ident
  | .other text => .other text
  | .chain node field => .chain node.upTo field
  | .pipe p => .pipe p.upTo

def Pipe.upTo : Pipe → Pipe
  | .mk decl c cs => if c.responds then .mk decl c.upTo [] else .mk decl c (commandsUpTo cs)

def Command.upTo : Command → Command
  | .mk a as => if a.responds then .mk a.upTo [] else .mk a (operandsUpTo as)

def operandsUpTo : List Operand → List Operand
  | [] => []
  | a :: as => if a.responds then [a.upTo] else a :: operandsUpTo as

def commandsUpTo : List Command → List Command
  | [] => []
  | c :: cs => if c.responds then [c.upTo] else c :: commandsUpTo cs

end

mutual

def Node.upTo : Node → Node
  | .text text => .text text
  | .action p => .action p.upTo
  | .template name none => .template name none
  | .template name (some p) => .template name (some p.upTo)
  | .branch kind p list none =>
    if p.responds then .branch kind p.upTo [] none else .branch kind p (nodesUpTo list) none
  | .branch kind p list (some elseList) =>
    if p.responds then .branch kind p.upTo [] none
    else if nodesRespond list then .branch kind p (nodesUpTo list) none
    else .branch kind p list (some (nodesUpTo elseList))

def nodesUpTo : List Node → List Node
  | [] => []
  | n :: ns => if n.responds then [n.upTo] else n :: nodesUpTo ns

end

/-! ## What the walk sees -/

mutual

/-- The walk comes to a `.Response`. -/
def Operand.seen : Operand → Bool
  | .field ident => (Operand.field ident).isResponse
  | .other _ => false
  | .chain _ _ => false
  | .pipe p => p.seen

def Pipe.seen : Pipe → Bool
  | .mk _ c cs => c.seen || commandsSeen cs

def Command.seen : Command → Bool
  | .mk a as => a.seen || operandsSeen as

def operandsSeen : List Operand → Bool
  | [] => false
  | a :: as => a.seen || operandsSeen as

def commandsSeen : List Command → Bool
  | [] => false
  | c :: cs => c.seen || commandsSeen cs

end

mutual

def Node.seen : Node → Bool
  | .text _ => false
  | .action p => p.seen
  | .template _ _ => false
  | .branch _ _ list none => nodesSeen list
  | .branch _ _ list (some elseList) => nodesSeen list || nodesSeen elseList

def nodesSeen : List Node → Bool
  | [] => false
  | n :: ns => n.seen || nodesSeen ns

end

/-! ## What vanishes -/

/-- No argument is a `.Response` itself. -/
def Dull (as : List Operand) : Prop := ∀ a ∈ as, a.isResponse = false

def Command.Dull : Command → Prop
  | .mk a as => Template.Dull (a :: as)

mutual

/-- A pipeline in which a command has no argument left, from the first `.Response` on. -/
def Operand.Vanishes : Operand → Prop
  | .field _ => False
  | .other _ => False
  | .chain _ _ => False
  | .pipe p => p.Vanishes

def Pipe.Vanishes : Pipe → Prop
  | .mk _ c cs => if c.seen then c.Vanishes ∨ ∃ d ∈ cs, d.Dull else commandsVanish cs

def Command.Vanishes : Command → Prop
  | .mk a as => a.Vanishes ∧ Template.Dull as

def commandsVanish : List Command → Prop
  | [] => False
  | c :: cs => if c.seen then c.Vanishes ∨ ∃ d ∈ cs, d.Dull else commandsVanish cs

end

/-- Nothing is left of these arguments. -/
def operandsVanish : List Operand → Prop
  | [] => True
  | a :: as => a.Vanishes ∧ Dull as

def Node.Vanishes : Node → Prop
  | .action p => p.Vanishes
  | _ => False

/-- Nothing is left of these nodes. -/
def nodesVanish : List Node → Prop
  | [] => True
  | n :: _ => n.Vanishes

/-! ## When the walk stops at the first response -/

mutual

/-- For an argument in which the walk sees a `.Response`. -/
def Operand.Exact : Operand → Prop
  | .field _ => True
  | .other _ => True
  | .chain _ _ => True
  | .pipe p => p.Exact

/-- No command follows that of the first `.Response`. -/
def Pipe.Exact : Pipe → Prop
  | .mk _ c cs => if c.responds then cs = [] ∧ c.Exact else commandsExact cs

def Command.Exact : Command → Prop
  | .mk a as => if a.responds then (if a.seen then a.Exact ∧ Dull as else a.upTo = a ∧ operandsVanish as) else operandsExact as

/-- No further `.Response` follows the first one; if that is not seen, nothing is left behind it. -/
def operandsExact : List Operand → Prop
  | [] => True
  | a :: as => if a.responds then (if a.seen then a.Exact ∧ Dull as else a.upTo = a ∧ operandsVanish as) else operandsExact as

def commandsExact : List Command → Prop
  | [] => True
  | c :: cs => if c.responds then cs = [] ∧ c.Exact else commandsExact cs

end

mutual

/-- For a node in which the walk sees a `.Response`. -/
def Node.Exact : Node → Prop
  | .text _ => True
  | .template _ _ => True
  | .action p => p.Exact
  | .branch _ p list none => if p.responds then p.upTo = p ∧ nodesVanish list else nodesExact list
  | .branch _ p list (some elseList) =>
    -- There is no else list behind the first `.Response`.
    if p.responds || nodesRespond list then False else nodesExact elseList

def nodesExact : List Node → Prop
  | [] => True
  | n :: ns => if n.responds then (if n.seen then n.Exact else n.upTo = n ∧ nodesVanish ns) else nodesExact ns

end

/-! ## Without a response -/

mutual

theorem Operand.responds_of_seen : ∀ a : Operand, a.seen = true → a.responds = true
  | .field _, h => h
  | .other _, h => h
  | .chain _ _, h => absurd h Bool.false_ne_true
  | .pipe p, h => p.responds_of_seen h

theorem Pipe.responds_of_seen : ∀ p : Pipe, p.seen = true → p.responds = true
  | .mk _ c cs, h => by
    rw [Pipe.seen, Bool.or_eq_true] at h
    rw [Pipe.responds, Bool.or_eq_true]
    exact h.imp c.responds_of_seen (commandsRespond_of_seen cs)

theorem Command.responds_of_seen : ∀ c : Command, c.seen = true → c.responds = true
  | .mk a as, h => by
    rw [Command.seen, Bool.or_eq_true] at h
    rw [Command.responds, Bool.or_eq_true]
    exact h.imp a.responds_of_seen (operandsRespond_of_seen as)

theorem operandsRespond_of_seen : ∀ as : List Operand, operandsSeen as = true → operandsRespond as = true
  | [], h => h
  | a :: as, h => by
    rw [operandsSeen, Bool.or_eq_true] at h
    rw [operandsRespond, Bool.or_eq_true]
    exact h.imp a.responds_of_seen (operandsRespond_of_seen as)

theorem commandsRespond_of_seen : ∀ cs : List Command, commandsSeen cs = true → commandsRespond cs = true
  | [], h => h
  | c :: cs, h => by
    rw [commandsSeen, Bool.or_eq_true] at h
    rw [commandsRespond, Bool.or_eq_true]
    exact h.imp c.responds_of_seen (commandsRespond_of_seen cs)

end

mutual

theorem Operand.upTo_of_not_responds : ∀ a : Operand, a.responds = false → a.upTo = a
  | .field _, _ => rfl
  | .other _, _ => rfl
  | .chain node field, h => by rw [Operand.upTo, node.upTo_of_not_responds h]
  | .pipe p, h => by rw [Operand.upTo, p.upTo_of_not_responds h]

theorem Pipe.upTo_of_not_responds : ∀ p : Pipe, p.responds = false → p.upTo = p
  | .mk decl c cs, h => by
    rw [Pipe.responds, Bool.or_eq_false_iff] at h
    rw [Pipe.upTo, if_neg (by simp [h.1]), commandsUpTo_of_not_respond cs h.2]

theorem Command.upTo_of_not_responds : ∀ c : Command, c.responds = false → c.upTo = c
  | .mk a as, h => by
    rw [Command.responds, Bool.or_eq_false_iff] at h
    rw [Command.upTo, if_neg (by simp [h.1]), operandsUpTo_of_not_respond as h.2]

theorem operandsUpTo_of_not_respond : ∀ as : List Operand, operandsRespond as = false → operandsUpTo as = as
  | [], _ => rfl
  | a :: as, h => by
    rw [operandsRespond, Bool.or_eq_false_iff] at h
    rw [operandsUpTo, if_neg (by simp [h.1]), operandsUpTo_of_not_respond as h.2]

theorem commandsUpTo_of_not_respond : ∀ cs : List Command, commandsRespond cs = false → commandsUpTo cs = cs
  | [], _ => rfl
  | c :: cs, h => by
    rw [commandsRespond, Bool.or_eq_false_iff] at h
    rw [commandsUpTo, if_neg (by simp [h.1]), commandsUpTo_of_not_respond cs h.2]

end

mutual

/-- The walk keeps an argument without a `.Response`. -/
theorem Operand.walk_of_not_seen : ∀ a : Operand, a.seen = false → a.walk false = (some a, false)
  | .field ident, h => if_neg (of_decide_eq_false h)
  | .other _, _ => rfl
  | .chain _ _, _ => rfl
  | .pipe p, h => by
    rw [Operand.walk, if_neg Bool.false_ne_true, p.walk_of_not_seen h]

theorem Pipe.walk_of_not_seen : ∀ p : Pipe, p.seen = false → p.walk = (some p, false)
  | .mk decl c cs, h => by
    rw [Pipe.seen, Bool.or_eq_false_iff] at h
    rw [Pipe.walk, c.walk_of_not_seen h.1]
    dsimp only
    rw [walkCommands_of_not_seen cs h.2]

theorem Command.walk_of_not_seen : ∀ c : Command, c.seen = false → c.walk false = (some c, false)
  | .mk a as, h => by
    rw [Command.seen, Bool.or_eq_false_iff] at h
    rw [Command.walk, a.walk_of_not_seen h.1]
    dsimp only
    rw [walkOperands_of_not_seen as h.2]
    rfl

theorem walkOperands_of_not_seen : ∀ as : List Operand, operandsSeen as = false → walkOperands false as = (as, false)
  | [], _ => rfl
  | a :: as, h => by
    rw [operandsSeen, Bool.or_eq_false_iff] at h
    rw [walkOperands, a.walk_of_not_seen h.1]
    dsimp only
    rw [walkOperands_of_not_seen as h.2]
    rfl

theorem walkCommands_of_not_seen : ∀ cs : List Command, commandsSeen cs = false → walkCommands false cs = (some cs, false)
  | [], _ => rfl
  | c :: cs, h => by
    rw [commandsSeen, Bool.or_eq_false_iff] at h
    rw [walkCommands, c.walk_of_not_seen h.1]
    dsimp only
    rw [walkCommands_of_not_seen cs h.2]

end

/-! ## Behind a response -/

def Command.args : Command → List Operand
  | .mk a as => a :: as

def Pipe.cmds : Pipe → List Command
  | .mk _ c cs => c :: cs

theorem Operand.walk_true (a : Operand) : a.walk true = (if a.isResponse then some a else none, true) := by
  cases a with
  | field ident =>
    have hresponse : (Operand.field ident).isResponse = decide (ascii "Response" ∈ ident) := rfl
    rw [hresponse]
    unfold Operand.walk
    by_cases h : ascii "Response" ∈ ident
    · rw [if_pos h, if_pos (decide_eq_true h)]
    · rw [if_neg h, if_pos rfl, if_neg (by simpa using h)]
  | other text => rfl
  | chain node field => rfl
  | pipe p => rfl

theorem walkOperands_true (as : List Operand) : walkOperands true as = (as.filter Operand.isResponse, true) := by
  induction as with
  | nil => rfl
  | cons a as ih =>
    rw [walkOperands, a.walk_true]
    dsimp only
    rw [ih, List.filter_cons]
    split <;> rfl

theorem dull_iff (as : List Operand) : as.filter Operand.isResponse = [] ↔ Dull as := by
  unfold Dull
  rw [List.filter_eq_nil_iff]
  exact forall₂_congr fun _ _ => by rw [Bool.not_eq_true]

theorem walkOperands_cons (cut : Bool) (a : Operand) (as : List Operand) : walkOperands cut (a :: as) =
    ((a.walk cut).1.toList ++ (walkOperands (a.walk cut).2 as).1, (walkOperands (a.walk cut).2 as).2) := by
  rw [walkOperands]

theorem Command.walk_eq (c : Command) (cut : Bool) : c.walk cut =
    match walkOperands cut c.args with
    | ([], cut) => (none, cut)
    | (a :: as, cut) => (some (.mk a as), cut) := by
  obtain ⟨a, as⟩ := c
  rw [Command.walk, Command.args, walkOperands_cons]
  dsimp only
  cases (a.walk cut).1.toList ++ (walkOperands (a.walk cut).2 as).1 <;> rfl

theorem Command.walk_none (c : Command) (cut : Bool) : (c.walk cut).1 = none ↔ (walkOperands cut c.args).1 = [] := by
  rw [c.walk_eq]
  split
  · rename_i h
    rw [h]
    exact iff_of_true rfl rfl
  · rename_i h
    rw [h]
    exact iff_of_false nofun nofun

theorem Command.walk_some (c : Command) (cut : Bool) (d : Command) :
    (c.walk cut).1 = some d ↔ (walkOperands cut c.args).1 = d.args := by
  obtain ⟨b, bs⟩ := d
  rw [c.walk_eq, Command.args]
  split
  · rename_i h
    rw [h]
    exact iff_of_false nofun nofun
  · rename_i h
    rw [h]
    simp

theorem Command.dull_iff (c : Command) : c.Dull ↔ Template.Dull c.args := by
  cases c
  rfl

theorem Command.walk_snd (c : Command) (cut : Bool) : (c.walk cut).2 = (walkOperands cut c.args).2 := by
  rw [c.walk_eq]
  split <;> rename_i h <;> rw [h]

theorem walkCommands_cons (cut : Bool) (c : Command) (cs : List Command) : (walkCommands cut (c :: cs)).1 =
    (c.walk cut).1.bind fun d => (walkCommands (c.walk cut).2 cs).1.map (d :: ·) := by
  rw [walkCommands]
  split
  · rename_i h
    rw [h]
    rfl
  · rename_i h
    rw [h]
    dsimp only [Option.bind_some]
    split
    · rename_i h'
      rw [h']
      rfl
    · rename_i h'
      rw [h']
      rfl

theorem walkCommands_true (cs : List Command) : (walkCommands true cs).1 = none ↔ ∃ d ∈ cs, d.Dull := by
  induction cs with
  | nil => simp [walkCommands]
  | cons c cs ih =>
    have hcut : (c.walk true).2 = true := by rw [c.walk_snd, walkOperands_true]
    rw [walkCommands_cons, hcut, Option.bind_eq_none_iff, List.exists_mem_cons_iff, ← ih, c.dull_iff, ← dull_iff]
    have hnone := c.walk_none true
    rw [walkOperands_true] at hnone
    rw [← hnone]
    cases (c.walk true).1 <;> simp

theorem length_walkCommands {cut : Bool} {cs ds : List Command} (h : (walkCommands cut cs).1 = some ds) :
    ds.length = cs.length := by
  induction cs generalizing cut ds with
  | nil =>
    obtain rfl := Option.some.inj h
    rfl
  | cons c cs ih =>
    rw [walkCommands_cons, Option.bind_eq_some_iff] at h
    obtain ⟨d, -, h⟩ := h
    obtain ⟨es, hes, rfl⟩ := Option.map_eq_some_iff.mp h
    rw [List.length_cons, List.length_cons, ih hes]

theorem Pipe.walk_none (p : Pipe) : p.walk.1 = none ↔ (walkCommands false p.cmds).1 = none := by
  obtain ⟨decl, c, cs⟩ := p
  rw [Pipe.walk, Pipe.cmds, walkCommands_cons]
  split
  · rename_i h
    rw [h]
    exact iff_of_true rfl rfl
  · rename_i h
    rw [h]
    dsimp only [Option.bind_some]
    split <;> rename_i h' <;> rw [h'] <;> simp

theorem Pipe.walk_upTo (p : Pipe) : p.walk.1 = some p.upTo ↔ (walkCommands false p.cmds).1 = some (commandsUpTo p.cmds) := by
  obtain ⟨decl, c, cs⟩ := p
  have hpipe : (Pipe.mk decl c cs).walk.1 =
      (c.walk false).1.bind fun d => (walkCommands (c.walk false).2 cs).1.map (.mk decl d ·) := by
    rw [Pipe.walk]
    split
    · rename_i h
      rw [h]
      rfl
    · rename_i h
      rw [h]
      dsimp only [Option.bind_some]
      split <;> rename_i h' <;> rw [h'] <;> rfl
  rw [hpipe, Pipe.cmds, walkCommands_cons, Pipe.upTo, commandsUpTo]
  cases (c.walk false).1 with
  | none => exact iff_of_false nofun nofun
  | some d => split <;> cases (walkCommands (c.walk false).2 cs).1 <;> simp

/-! ## One argument in all places -/

mutual

/-- To show it of all arguments, show it of a pipeline of arguments of which it holds. -/
theorem Operand.ofParts {P : Operand → Prop} (hfield : ∀ ident, P (.field ident)) (hother : ∀ text, P (.other text))
    (hchain : ∀ node field, P (.chain node field))
    (hpipe : ∀ p : Pipe, (∀ c ∈ p.cmds, ∀ a ∈ c.args, P a) → P (.pipe p)) : ∀ a : Operand, P a
  | .field ident => hfield ident
  | .other text => hother text
  | .chain node field => hchain node field
  | .pipe p => hpipe p (Pipe.ofParts hfield hother hchain hpipe p)

theorem Pipe.ofParts {P : Operand → Prop} (hfield : ∀ ident, P (.field ident)) (hother : ∀ text, P (.other text))
    (hchain : ∀ node field, P (.chain node field))
    (hpipe : ∀ p : Pipe, (∀ c ∈ p.cmds, ∀ a ∈ c.args, P a) → P (.pipe p)) : ∀ p : Pipe, ∀ c ∈ p.cmds, ∀ a ∈ c.args, P a
  | .mk _ c cs => by
    rw [Pipe.cmds, List.forall_mem_cons]
    exact ⟨Command.ofParts hfield hother hchain hpipe c, induct_commands hfield hother hchain hpipe cs⟩

theorem Command.ofParts {P : Operand → Prop} (hfield : ∀ ident, P (.field ident)) (hother : ∀ text, P (.other text))
    (hchain : ∀ node field, P (.chain node field))
    (hpipe : ∀ p : Pipe, (∀ c ∈ p.cmds, ∀ a ∈ c.args, P a) → P (.pipe p)) : ∀ c : Command, ∀ a ∈ c.args, P a
  | .mk a as => by
    rw [Command.args, List.forall_mem_cons]
    exact ⟨Operand.ofParts hfield hother hchain hpipe a, induct_operands hfield hother hchain hpipe as⟩

theorem induct_operands {P : Operand → Prop} (hfield : ∀ ident, P (.field ident)) (hother : ∀ text, P (.other text))
    (hchain : ∀ node field, P (.chain node field))
    (hpipe : ∀ p : Pipe, (∀ c ∈ p.cmds, ∀ a ∈ c.args, P a) → P (.pipe p)) : ∀ as : List Operand, ∀ a ∈ as, P a
  | [] => nofun
  | a :: as => by
    rw [List.forall_mem_cons]
    exact ⟨Operand.ofParts hfield hother hchain hpipe a, induct_operands hfield hother hchain hpipe as⟩

theorem induct_commands {P : Operand → Prop} (hfield : ∀ ident, P (.field ident)) (hother : ∀ text, P (.other text))
    (hchain : ∀ node field, P (.chain node field))
    (hpipe : ∀ p : Pipe, (∀ c ∈ p.cmds, ∀ a ∈ c.args, P a) → P (.pipe p)) :
    ∀ cs : List Command, ∀ c ∈ cs, ∀ a ∈ c.args, P a
  | [] => nofun
  | c :: cs => by
    rw [List.forall_mem_cons]
    exact ⟨Command.ofParts hfield hother hchain hpipe c, induct_commands hfield hother hchain hpipe cs⟩

end

/-! ## What is deleted -/

theorem Command.seen_eq (c : Command) : c.seen = operandsSeen c.args := by
  cases c
  rfl

theorem Pipe.seen_eq (p : Pipe) : p.seen = commandsSeen p.cmds := by
  cases p
  rfl

section
variable {as : List Operand} {cs : List Command}

theorem walkOperands_snd (h : ∀ a ∈ as, (a.walk false).2 = a.seen) : (walkOperands false as).2 = operandsSeen as := by
  induction as with
  | nil => rfl
  | cons a as ih =>
    rw [List.forall_mem_cons] at h
    rw [walkOperands_cons, h.1, operandsSeen]
    cases a.seen with
    | true => rw [walkOperands_true, Bool.true_or]
    | false => rw [Bool.false_or, ih h.2]

theorem walkCommands_cons_snd (cut : Bool) (c : Command) (cs : List Command) : (walkCommands cut (c :: cs)).2 =
    if (c.walk cut).1.isSome then (walkCommands (c.walk cut).2 cs).2 else (c.walk cut).2 := by
  rw [walkCommands]
  split
  · rename_i h
    rw [h]
    rfl
  · rename_i h
    rw [h]
    dsimp only [Option.isSome_some]
    split <;> rename_i h' <;> rw [h'] <;> rfl

theorem walkCommands_true_snd (cs : List Command) : (walkCommands true cs).2 = true := by
  induction cs with
  | nil => rfl
  | cons c cs ih =>
    have hcut : (c.walk true).2 = true := by rw [c.walk_snd, walkOperands_true]
    rw [walkCommands_cons_snd, hcut, ih, ite_self]

theorem walkCommands_snd (h : ∀ c ∈ cs, (c.walk false).2 = c.seen) : (walkCommands false cs).2 = commandsSeen cs := by
  induction cs with
  | nil => rfl
  | cons c cs ih =>
    rw [List.forall_mem_cons] at h
    rw [walkCommands_cons_snd, commandsSeen]
    cases hseen : c.seen with
    | true => rw [h.1, hseen, walkCommands_true_snd, ite_self, Bool.true_or]
    | false =>
      rw [c.walk_of_not_seen hseen, Bool.false_or]
      exact ih h.2

end

theorem Pipe.walk_snd (p : Pipe) : p.walk.2 = (walkCommands false p.cmds).2 := by
  obtain ⟨decl, c, cs⟩ := p
  rw [Pipe.walk, Pipe.cmds, walkCommands_cons_snd]
  split
  · rename_i h
    rw [h]
    rfl
  · rename_i h
    rw [h]
    dsimp only [Option.isSome_some]
    split <;> rename_i h' <;> rw [h'] <;> rfl

theorem Operand.walk_pipe (p : Pipe) : (Operand.pipe p).walk false = (p.walk.1.map .pipe, p.walk.2) := by
  rw [Operand.walk, if_neg Bool.false_ne_true]
  split <;> rename_i h <;> rw [h] <;> rfl

/-- The predicate answers differently behind an argument if and only if it has seen a `.Response` there. -/
theorem Operand.walk_snd (a : Operand) : (a.walk false).2 = a.seen := by
  induction a using Operand.ofParts with
  | hfield ident =>
    have hseen : (Operand.field ident).seen = decide (ascii "Response" ∈ ident) := rfl
    rw [hseen, Operand.walk]
    split
    · rename_i h
      exact (decide_eq_true h).symm
    · rename_i h
      exact (decide_eq_false h).symm
  | hother text => rfl
  | hchain node field => rfl
  | hpipe p ih =>
    rw [Operand.walk_pipe, Pipe.walk_snd]
    refine (walkCommands_snd fun c hc => ?_).trans p.seen_eq.symm
    rw [Command.walk_snd, walkOperands_snd (ih c hc), c.seen_eq]

theorem Command.walk_seen (c : Command) : (c.walk false).2 = c.seen := by
  rw [Command.walk_snd, walkOperands_snd fun a _ => a.walk_snd, c.seen_eq]

/-! ## What is left of nothing -/

theorem walkOperands_nil_iff {as : List Operand} (h : ∀ a ∈ as, (a.walk false).1 = none ↔ a.Vanishes) :
    (walkOperands false as).1 = [] ↔ operandsVanish as := by
  cases as with
  | nil => exact iff_of_true rfl trivial
  | cons a as =>
    rw [List.forall_mem_cons] at h
    rw [walkOperands_cons, operandsVanish, ← h.1]
    cases hseen : a.seen with
    | true =>
      rw [a.walk_snd, hseen, walkOperands_true, ← dull_iff, List.append_eq_nil_iff, Option.toList_eq_nil_iff]
    | false =>
      rw [a.walk_of_not_seen hseen]
      exact iff_of_false nofun nofun

theorem Command.vanishes_iff (c : Command) : c.Vanishes ↔ operandsVanish c.args := by
  cases c
  rw [Command.Vanishes, Command.args, operandsVanish]

theorem Pipe.vanishes_iff (p : Pipe) : p.Vanishes ↔ commandsVanish p.cmds := by
  cases p
  rw [Pipe.Vanishes, Pipe.cmds, commandsVanish]

theorem walkCommands_none_iff {cs : List Command} (h : ∀ c ∈ cs, (c.walk false).1 = none ↔ c.Vanishes) :
    (walkCommands false cs).1 = none ↔ commandsVanish cs := by
  induction cs with
  | nil => exact iff_of_false nofun id
  | cons c cs ih =>
    rw [List.forall_mem_cons] at h
    rw [walkCommands_cons, commandsVanish, Option.bind_eq_none_iff]
    cases hseen : c.seen with
    | true =>
      rw [c.walk_seen, hseen, if_pos rfl, ← h.1, ← walkCommands_true]
      cases (c.walk false).1 <;> simp
    | false =>
      rw [if_neg Bool.false_ne_true, c.walk_of_not_seen hseen, ← ih h.2]
      simp

/-- What is deleted of a pipeline. -/
theorem Operand.walk_none_iff (a : Operand) : (a.walk false).1 = none ↔ a.Vanishes := by
  induction a using Operand.ofParts with
  | hfield ident =>
    refine iff_of_false (fun h => ?_) id
    rw [Operand.walk] at h
    split at h
    · cases h
    · cases h
  | hother text => exact iff_of_false nofun id
  | hchain node field => exact iff_of_false nofun id
  | hpipe p ih =>
    rw [Operand.walk_pipe, Option.map_eq_none_iff, Pipe.walk_none, Operand.Vanishes, Pipe.vanishes_iff]
    refine walkCommands_none_iff fun c hc => ?_
    rw [Command.walk_none, c.vanishes_iff, walkOperands_nil_iff (ih c hc)]

theorem Command.walk_none_iff (c : Command) : (c.walk false).1 = none ↔ c.Vanishes := by
  rw [Command.walk_none, c.vanishes_iff, walkOperands_nil_iff fun a _ => a.walk_none_iff]

theorem Pipe.walk_none_iff (p : Pipe) : p.walk.1 = none ↔ p.Vanishes := by
  rw [Pipe.walk_none, p.vanishes_iff, walkCommands_none_iff fun c _ => c.walk_none_iff]

/-! ## What is left of a pipeline -/

theorem Operand.seen_of_not_responds {a : Operand} (h : a.responds = false) : a.seen = false := by
  by_contra hseen
  rw [Bool.not_eq_false] at hseen
  rw [a.responds_of_seen hseen] at h
  cases h

theorem Command.exact_iff (c : Command) : c.Exact ↔ operandsExact c.args := by
  cases c
  rw [Command.Exact, Command.args, operandsExact]

theorem Pipe.exact_iff (p : Pipe) : p.Exact ↔ commandsExact p.cmds := by
  cases p
  rw [Pipe.Exact, Pipe.cmds, commandsExact]

/-- A field is never deleted with its `.Response`. -/
theorem Operand.walk_of_upTo_isResponse {a : Operand} (h : a.upTo.isResponse = true) : (a.walk false).1 ≠ none := by
  rw [ne_eq, a.walk_none_iff]
  cases a with
  | field ident => exact id
  | other text => cases h
  | chain node field => cases h
  | pipe p => cases h

theorem walkOperands_upTo_iff {as : List Operand}
    (h : ∀ a ∈ as, a.seen = true → ((a.walk false).1 = some a.upTo ↔ a.Exact)) :
    (walkOperands false as).1 = operandsUpTo as ↔ operandsExact as := by
  induction as with
  | nil => exact iff_of_true rfl trivial
  | cons a as ih =>
    rw [List.forall_mem_cons] at h
    rw [walkOperands_cons, operandsUpTo, operandsExact]
    cases hresponds : a.responds with
    | false =>
      rw [a.walk_of_not_seen (a.seen_of_not_responds hresponds), if_neg Bool.false_ne_true, if_neg Bool.false_ne_true,
        ← ih h.2]
      exact List.cons_inj_right a
    | true =>
      rw [if_pos rfl, if_pos rfl]
      cases hseen : a.seen with
      | false =>
        rw [a.walk_of_not_seen hseen, if_neg Bool.false_ne_true,
          ← walkOperands_nil_iff fun a _ => a.walk_none_iff]
        dsimp only [Option.toList_some, List.singleton_append]
        rw [List.cons_eq_cons, eq_comm]
      | true =>
        rw [if_pos rfl, a.walk_snd, hseen, walkOperands_true, ← h.1 hseen, ← dull_iff]
        cases hwalk : (a.walk false).1 with
        | some b => simp
        | none =>
          -- A second `.Response` is no other argument.
          refine iff_of_false (fun heq => ?_) nofun
          have hmem : a.upTo ∈ as.filter Operand.isResponse := by
            have heq' : as.filter Operand.isResponse = [a.upTo] := heq
            rw [heq']
            exact List.mem_singleton_self _
          exact a.walk_of_upTo_isResponse (List.mem_filter.mp hmem).2 hwalk

theorem Command.upTo_args (c : Command) : c.upTo.args = operandsUpTo c.args := by
  obtain ⟨a, as⟩ := c
  rw [Command.upTo, Command.args, operandsUpTo]
  split <;> rfl

theorem walkCommands_upTo_iff {cs : List Command} (h : ∀ c ∈ cs, (c.walk false).1 = some c.upTo ↔ c.Exact) :
    (walkCommands false cs).1 = some (commandsUpTo cs) ↔ commandsExact cs := by
  induction cs with
  | nil => exact iff_of_true rfl trivial
  | cons c cs ih =>
    rw [List.forall_mem_cons] at h
    rw [walkCommands_cons, commandsUpTo, commandsExact]
    cases hresponds : c.responds with
    | false =>
      have hseen : c.seen = false := by
        by_contra hseen
        rw [Bool.not_eq_false] at hseen
        rw [c.responds_of_seen hseen] at hresponds
        cases hresponds
      rw [c.walk_of_not_seen hseen, if_neg Bool.false_ne_true, if_neg Bool.false_ne_true, ← ih h.2, Option.bind_some]
      cases (walkCommands false cs).1 <;> simp
    | true =>
      rw [if_pos rfl, if_pos rfl, ← h.1]
      cases (c.walk false).1 with
      | none => exact iff_of_false nofun fun h => nomatch h.2
      | some d =>
        rw [Option.bind_some]
        cases hwalk : (walkCommands (c.walk false).2 cs).1 with
        | none =>
          refine iff_of_false nofun fun h => ?_
          rw [h.1] at hwalk
          cases hwalk
        | some ds =>
          have hlen := length_walkCommands hwalk
          have hnil : ds = [] ↔ cs = [] := by rw [← List.length_eq_zero_iff, hlen, List.length_eq_zero_iff]
          rw [Option.map_some, Option.some.injEq, Option.some.injEq, List.cons_eq_cons, hnil, and_comm]

theorem Operand.walk_upTo_iff (a : Operand) : a.seen = true → ((a.walk false).1 = some a.upTo ↔ a.Exact) := by
  induction a using Operand.ofParts with
  | hfield ident =>
    intro hseen
    refine iff_of_true ?_ trivial
    rw [Operand.walk, if_pos (of_decide_eq_true hseen)]
    rfl
  | hother text => nofun
  | hchain node field => nofun
  | hpipe p ih =>
    intro _
    have hpipe : p.walk.1.map Operand.pipe = some (.pipe p.upTo) ↔ p.walk.1 = some p.upTo := by
      cases p.walk.1 <;> simp
    rw [Operand.walk_pipe, Operand.upTo, hpipe, Pipe.walk_upTo, Operand.Exact, Pipe.exact_iff]
    refine walkCommands_upTo_iff fun c hc => ?_
    rw [Command.walk_some, c.upTo_args, c.exact_iff, walkOperands_upTo_iff (ih c hc)]

theorem Pipe.walk_upTo_iff (p : Pipe) : p.walk.1 = some p.upTo ↔ p.Exact := by
  rw [Pipe.walk_upTo, p.exact_iff]
  refine walkCommands_upTo_iff fun c _ => ?_
  rw [Command.walk_some, c.upTo_args, c.exact_iff, walkOperands_upTo_iff fun a _ => a.walk_upTo_iff]

theorem Pipe.walk_seen (p : Pipe) : p.walk.2 = p.seen := by
  rw [Pipe.walk_snd, p.seen_eq, walkCommands_snd fun c _ => c.walk_seen]

end Xdragon.Template
