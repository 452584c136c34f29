import Xdragon.Lib.Path
import Xdragon.Lib.Tags
import Xdragon.Lib.Utf8

/-!
# Model names

A name is written with slashes and a colon, parsed from the right, and used as a path of four parts.
-/

namespace Xdragon.Names

open Xdragon.Lib (Bytes ascii cut cutLast runes toRunes slash joinPath)

/-- What stands for a part that was promised by a separator, but is missing. -/
def missingPart : Bytes := ascii "!MISSING!"

def defaultHost : Bytes := ascii "registry.ollama.ai"
def defaultNamespace : Bytes := ascii "library"
def defaultTag : Bytes := ascii "latest"
def defaultProtocolScheme : Bytes := ascii "https"

inductive PartKind where
  | kindHost
  | kindNamespace
  | kindModel
  | kindTag
  | kindDigest
  deriving DecidableEq

/-- `nameSpace` is the field `Namespace`. -/
structure Name where
  host : Bytes := []
  nameSpace : Bytes := []
  model : Bytes := []
  tag : Bytes := []
  protocolScheme : Bytes := []
  deriving DecidableEq

def defaultName : Name where
  host := defaultHost
  nameSpace := defaultNamespace
  tag := defaultTag
  protocolScheme := defaultProtocolScheme

/-- `cmp.Or`. -/
def cmpOr (a b : Bytes) : Bytes := if a ≠ [] then a else b

/-- `strings.LastIndex`. -/
def lastIndex (s sep : Bytes) : Int :=
  match cutLast sep s with
  | some (before, _) => before.length
  | none => -1

/-- The parts before and after the last separator, and whether there is one. -/
def cutPromised (s sep : Bytes) : Bytes × Bytes × Bool :=
  match cutLast sep s with
  | some (before, after) => (cmpOr before missingPart, cmpOr after missingPart, true)
  | none => (s, [], false)

def isAlphanumericOrUnderscore (c : UInt8) : Bool :=
  let n := c.toNat
  (0x41 ≤ n && n ≤ 0x5a) || (0x61 ≤ n && n ≤ 0x7a) || (0x30 ≤ n && n ≤ 0x39) || n == 0x5f

def isValidLen (kind : PartKind) (s : Bytes) : Bool :=
  match kind with
  | .kindHost => s.length ≥ 1 && s.length ≤ 350
  | .kindTag => s.length ≥ 1 && s.length ≤ 80
  | _ => s.length ≥ 1 && s.length ≤ 80

/-- The check of a byte that is not the first one. -/
def isValidByte (kind : PartKind) (c : UInt8) : Bool :=
  if c = 0x5f ∨ c = 0x2d then true
  else if c = 0x2e then kind ≠ .kindNamespace
  else if c = 0x3a then kind = .kindHost || kind = .kindDigest
  else isAlphanumericOrUnderscore c

/-- The loop visits the first byte of each rune. -/
def isValidPart (kind : PartKind) (s : Bytes) : Bool :=
  isValidLen kind s &&
    match (runes s).map fun r => r.bytes.headD 0 with
    | [] => true
    | c :: cs => isAlphanumericOrUnderscore c && cs.all (isValidByte kind)

/-- `strings.EqualFold`, where `fold` gives one rune for those that are alike but for case. -/
def equalFold (fold : Char → Char) (s t : Bytes) : Bool := (toRunes s).map fold = (toRunes t).map fold

/-- The parts of a text that is parsed from the right. -/
def parseNameBare (s : Bytes) : Name :=
  let (s, n) : Bytes × Name :=
    if lastIndex s (ascii ":") > lastIndex s (ascii "/") then
      let (s, tag, _) := cutPromised s (ascii ":")
      (s, { tag })
    else (s, {})
  let (s, model, promised) := cutPromised s (ascii "/")
  if !promised then { n with model := s }
  else
    let n := { n with model }
    let (s, nameSpace, promised) := cutPromised s (ascii "/")
    if !promised then { n with nameSpace := s }
    else
      let n := { n with nameSpace }
      match cut (ascii "://") s with
      | some (scheme, host) => { n with protocolScheme := scheme, host }
      | none => { n with host := s }

def merge (a b : Name) : Name where
  host := cmpOr a.host b.host
  nameSpace := cmpOr a.nameSpace b.nameSpace
  model := a.model
  tag := cmpOr a.tag b.tag
  protocolScheme := cmpOr a.protocolScheme b.protocolScheme

def parseName (s : Bytes) : Name := merge (parseNameBare s) defaultName

namespace Name

variable (n : Name)

def isFullyQualified : Bool :=
  isValidPart .kindHost n.host && isValidPart .kindNamespace n.nameSpace && isValidPart .kindModel n.model &&
    isValidPart .kindTag n.tag

def string : Bytes :=
  (if n.host ≠ [] then n.host ++ ascii "/" else []) ++ (if n.nameSpace ≠ [] then n.nameSpace ++ ascii "/" else []) ++
    n.model ++ if n.tag ≠ [] then ascii ":" ++ n.tag else []

def displayShortest (fold : Char → Char) : Bytes :=
  (if !equalFold fold n.host defaultHost then n.host ++ ascii "/" ++ n.nameSpace ++ ascii "/"
    else if !equalFold fold n.nameSpace defaultNamespace then n.nameSpace ++ ascii "/"
    else []) ++ n.model ++ ascii ":" ++ n.tag

/-- `none` is the panic. -/
def filepath : Option Bytes :=
  if n.isFullyQualified then some (joinPath [n.host, n.nameSpace, n.model, n.tag]) else none

def equalFold (fold : Char → Char) (n o : Name) : Bool :=
  Names.equalFold fold n.host o.host && Names.equalFold fold n.nameSpace o.nameSpace &&
    Names.equalFold fold n.model o.model && Names.equalFold fold n.tag o.tag

end Name

def parseNameFromFilepath (s : Bytes) : Name :=
  match s.splitOn slash with
  | [host, nameSpace, model, tag] =>
    let n : Name := { host, nameSpace, model, tag }
    if !n.isFullyQualified then {} else n
  | _ => {}

end Xdragon.Names
