import Xdragon.Lib.Path
import Xdragon.Lib.Utf8

/-!
# Approvals for a session

What the agent remembers when a tool is allowed for the session, and what it allows because of it. For a
command line it remembers the command and the directory of its first path.
-/

namespace Xdragon.Agent

open Xdragon.Lib

def colon : UInt8 := 0x3a
def backslash : UInt8 := 0x5c
def pipe : UInt8 := 0x7c

/-! ## Prefixes -/

/-- The commands that get prefixes. -/
def safeCommands : List Bytes :=
  [ascii "cat", ascii "ls", ascii "head", ascii "tail", ascii "less", ascii "more", ascii "file", ascii "wc", ascii "grep",
    ascii "find", ascii "tree", ascii "stat", ascii "sed"]

def isNumeric (s : Bytes) : Bool := s.all (fun b => 0x30 ≤ b && b ≤ 0x39) && 0 < s.length

def isFlag (arg : Bytes) : Bool := (ascii "-").isPrefixOf arg

/-- An argument that looks like a path. -/
def pathLike (arg : Bytes) : Bool := slash ∈ arg || backslash ∈ arg || (ascii ".").isPrefixOf arg

/-- The arguments that the first pass stops at. -/
def isClear (arg : Bytes) : Bool := !isFlag arg && !isNumeric arg && pathLike arg

/-- `strings.ReplaceAll` of backslashes by slashes. -/
def toSlash (arg : Bytes) : Bytes := arg.map fun b => if b = backslash then slash else b

/-- `path.Dir`. -/
def dirPath (path : Bytes) : Bytes := clean (path.rdropWhile (· ≠ slash))

/-- What is in front of the first slash. -/
def base (path : Bytes) : Bytes := path.takeWhile (· ≠ slash)

/-- The directory of a path, or nothing for a path that is not to be remembered. -/
def pathDir (arg : Bytes) : Option Bytes :=
  let arg := toSlash arg
  if rooted arg then none
  else
    let cleaned := clean arg
    if (ascii "..").isPrefixOf cleaned then none
    else if ascii ".." <:+: arg ∧ base arg ≠ base cleaned then none
    else some (if (ascii "/").isSuffixOf arg then cleaned else dirPath cleaned)

/-- The words of one command. -/
def words (part : Bytes) : List Bytes := fields (trimSpace part)

def makePrefix (cmd dir : Bytes) : Bytes := cmd ++ ascii ":" ++ dir ++ ascii "/"

/-- `extractBashPrefix`. The result is empty if there is no prefix. -/
def extractBashPrefix (command : Bytes) : Bytes :=
  match words ((command.splitOn pipe).headD []) with
  | cmd :: args =>
    if args = [] ∨ cmd ∉ safeCommands then []
    else
      match args.find? isClear with
      | some arg => (pathDir arg).elim [] (makePrefix cmd)
      | none => if args.any fun arg => !isFlag arg && !isNumeric arg then makePrefix cmd (ascii ".") else []
  | [] => []

/-! ## The manager -/

structure ApprovalManager where
  /-- Exact matches. -/
  allowlist : List Bytes
  prefixes : List Bytes

def newApprovalManager : ApprovalManager := ⟨[], []⟩

/-- A prefix, cut at its colon. -/
def cutPrefix (p : Bytes) : Option (Bytes × Bytes) :=
  if colon ∈ p then some (p.takeWhile (· ≠ colon), (p.dropWhile (· ≠ colon)).tail) else none

/-- A stored prefix lets the current one through. -/
def hierarchical (current stored : Bytes) : Bool :=
  match cutPrefix current, cutPrefix stored with
  | some (currentCmd, currentPath), some (storedCmd, storedPath) => currentCmd = storedCmd && storedPath.isPrefixOf currentPath
  | _, _ => false

/-- The key of an exact match. The command is the argument `command`, if it is a string. -/
def allowlistKey (toolName : Bytes) (command : Option Bytes) : Bytes :=
  match command with
  | some cmd => if toolName = ascii "bash" then ascii "bash:" ++ cmd else toolName
  | none => toolName

namespace ApprovalManager

variable (a : ApprovalManager)

def matchesHierarchicalPrefix (currentPrefix : Bytes) : Bool := a.prefixes.any (hierarchical currentPrefix)

def isAllowed (toolName : Bytes) (command : Option Bytes) : Bool :=
  allowlistKey toolName command ∈ a.allowlist ||
    (toolName = ascii "bash" &&
      match command with
      | some cmd =>
        let p := extractBashPrefix cmd
        p ≠ [] && (p ∈ a.prefixes || a.matchesHierarchicalPrefix p)
      | none => false) ||
    (toolName ≠ ascii "bash" && toolName ∈ a.allowlist)

def addToAllowlist (toolName : Bytes) (command : Option Bytes) : ApprovalManager :=
  match command with
  | some cmd =>
    if toolName = ascii "bash" then
      let p := extractBashPrefix cmd
      if p ≠ [] then { a with prefixes := p :: a.prefixes }
      else { a with allowlist := (ascii "bash:" ++ cmd) :: a.allowlist }
    else { a with allowlist := toolName :: a.allowlist }
  | none => { a with allowlist := toolName :: a.allowlist }

end ApprovalManager

end Xdragon.Agent
