import Xdragon.Lib.Wire

/-!
# Cutting a template at its response

`deleteNode` of `template/template.go`, as `Template.Execute` calls it for the last turn. The walk keeps what is in front of
the first `.Response` that it sees. A type assertion on a list that was deleted is a panic, which is `none`.
-/

namespace Xdragon.Template

open Xdragon.Lib

/-! ## Parsed templates -/

mutual

/-- An argument of a command. -/
inductive Operand where
  | field (ident : List Bytes)
  /-- A constant, a function, a variable, the dot or nil. -/
  | other (text : Bytes)
  | chain (node : Operand) (field : List Bytes)
  | pipe (pipe : Pipe)

/-- Its variables and its commands. The parser takes no empty pipeline. -/
inductive Pipe where
  | mk (decl : List Bytes) (cmd : Command) (cmds : List Command)

/-- Its arguments. The parser takes no empty command. -/
inductive Command where
  | mk (arg : Operand) (args : List Operand)

end

inductive BranchKind where
  | ifNode
  | withNode
  | rangeNode

inductive Node where
  /-- A text, a comment, `break` or `continue`. -/
  | text (text : Bytes)
  | action (pipe : Pipe)
  | template (name : Bytes) (pipe : Option Pipe)
  | branch (kind : BranchKind) (pipe : Pipe) (list : List Node) (elseList : Option (List Node))

/-- A field of which one name is `Response`. -/
def Operand.isResponse : Operand → Bool
  | .field ident => decide (ascii "Response" ∈ ident)
  | _ => false

/-! ## The walk -/

mutual

/-- The predicate never deletes a `.Response`, and deletes all else once it has seen one. -/
def Operand.walk (cut : Bool) : Operand → Option Operand × Bool
  | .field ident =>
    if ascii "Response" ∈ ident then (some (.field ident), true)
    else (if cut then none else some (.field ident), cut)
  | .other text => (if cut then none else some (.other text), cut)
  | .chain node field => (if cut then none else some (.chain node field), cut)
  | .pipe p =>
    if cut then (none, cut)
    else match p.walk with
      | (none, cut) => (none, cut)
      | (some p, cut) => (some (.pipe p), cut)

/-- A pipeline that the predicate did not delete. -/
def Pipe.walk : Pipe → Option Pipe × Bool
  | .mk decl c cs => match c.walk false with
    | (none, cut) => (none, cut)
    | (some c, cut) => match walkCommands cut cs with
      | (none, cut) => (none, cut)
      | (some cs, cut) => (some (.mk decl c cs), cut)

def Command.walk (cut : Bool) : Command → Option Command × Bool
  | .mk a as =>
    let (a, cut) := a.walk cut
    let (as, cut) := walkOperands cut as
    match a.toList ++ as with
    | [] => (none, cut)
    | a :: as => (some (.mk a as), cut)

def walkOperands (cut : Bool) : List Operand → List Operand × Bool
  | [] => ([], cut)
  | a :: as =>
    let (a, cut) := a.walk cut
    let (as, cut) := walkOperands cut as
    (a.toList ++ as, cut)

/-- Without a command the whole pipeline is deleted. -/
def walkCommands (cut : Bool) : List Command → Option (List Command) × Bool
  | [] => (some [], cut)
  | c :: cs => match c.walk cut with
    | (none, cut) => (none, cut)
    | (some c, cut) => match walkCommands cut cs with
      | (none, cut) => (none, cut)
      | (some cs, cut) => (some (c :: cs), cut)

end

mutual

def Node.walk (cut : Bool) : Node → Option (Option Node × Bool)
  | .text text => some (if cut then none else some (.text text), cut)
  | .template name p => some (if cut then none else some (.template name p), cut)
  | .action p =>
    if cut then some (none, cut)
    else match p.walk with
      | (none, cut) => some (none, cut)
      | (some p, cut) => some (some (.action p), cut)
  | .branch kind p list none =>
    if cut then some (none, cut)
    else match walkNodes false list with
      | none => none
      | some (list, cut) => some (some (.branch kind p list none), cut)
  | .branch kind p list (some elseList) =>
    if cut then some (none, cut)
    else match walkNodes false list with
      | none => none
      | some (list, cut) =>
        -- The predicate deletes the else list itself, and the assertion fails.
        if cut then none
        else match walkNodes false elseList with
          | none => none
          | some (elseList, cut) => some (some (.branch kind p list (some elseList)), cut)

def walkNodes (cut : Bool) : List Node → Option (List Node × Bool)
  | [] => some ([], cut)
  | n :: ns => match n.walk cut with
    | none => none
    | some (n, cut) => match walkNodes cut ns with
      | none => none
      | some (ns, cut) => some (n.toList ++ ns, cut)

end

/-- Of the root of a template. -/
def deleteNode (root : List Node) : Option (List Node) := (walkNodes false root).map Prod.fst

end Xdragon.Template
