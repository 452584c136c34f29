import Mathlib.Algebra.GroupWithZero.Nat
import Mathlib.Data.List.Sort
import Xdragon.Lib.Run

/-!
# Downloading a blob in parts

The life of `blobDownload` for one blob, over the restarts of the server. `Prepare` plans the parts
and writes a file for each one, or takes over the part files that it finds. `run` fetches the parts
into one file, at the same time, and persists the progress of each part in its own file. In the end
it removes the part files and renames the file of the blob.

The remote blob is a function of the offset and a length. The file of the blob has a byte where one
was written, and nothing where it is a hole.
-/

namespace Xdragon.Server.Download

/-! ## Parts -/

def numDownloadParts : Nat := 16
def minDownloadPartSize : Nat := 100 * 1000 * 1000
def maxDownloadPartSize : Nat := 1000 * 1000 * 1000

/-- `blobDownloadPart`, as its file has it. -/
structure Part where
  n : Nat
  offset : Nat
  size : Nat
  completed : Nat
  deriving DecidableEq

def Part.startsAt (p : Part) : Nat := p.offset + p.completed

/-- The file of a part. A file that was truncated and not written is torn. -/
inductive PartFile
  | json (p : Part)
  | torn

/-- How `writePart` ends. -/
inductive WriteEnd
  | stored
  | torn
  | unopened
  deriving DecidableEq

def writePart (files : List (Nat × PartFile)) (p : Part) : WriteEnd → List (Nat × PartFile)
  | .stored => (p.n, .json p) :: files.filter (·.1 ≠ p.n)
  | .torn => (p.n, .torn) :: files.filter (·.1 ≠ p.n)
  | .unopened => files

/-- The size of all parts but the last one. -/
def partSize (total : Nat) : Nat :=
  let size := total / numDownloadParts
  if size < minDownloadPartSize then minDownloadPartSize
  else if size > maxDownloadPartSize then maxDownloadPartSize
  else size

/-! ## The process -/

/-- What a response carries: the requested range, or anything else. The status is not looked at. -/
inductive Body
  | range
  | other (byte : Nat → UInt8)

/-- How `io.CopyN` ends: with all bytes, with an error after which `Completed` is moved on, or with
another error. -/
inductive CopyEnd
  | full
  | resumable
  | rolledBack
  deriving DecidableEq

/-- The goroutine of a part. -/
inductive Try
  /-- Before the first attempt, or between two of them. -/
  | waiting
  /-- `downloadChunk` has asked for `remaining` bytes from `start` on and written `copied` of them. -/
  | copying (start remaining copied : Nat)
  | done
  | failed
  deriving DecidableEq

structure Work where
  part : Part
  attempt : Try
  deriving DecidableEq

inductive Phase
  | idle
  /-- In the loop of `Prepare` that creates the part files. -/
  | preparing (total offset size : Nat) (parts : List Part)
  | prepared (total : Nat) (parts : List Part)
  | running (works : List Work)
  /-- In the loop of `run` that removes the part files. -/
  | removing (parts : List Part) (i : Nat)
  deriving DecidableEq

structure State where
  files : List (Nat × PartFile)
  /-- The file `-partial`. -/
  data : Nat → Option UInt8
  /-- The file of the blob, once it was renamed. -/
  blobFile : Option (Nat → Option UInt8)
  phase : Phase

inductive Event
  /-- `Prepare` up to its loop. The `HEAD` request may fail. -/
  | prepare (headErr : Bool)
  | newPart (out : WriteEnd)
  | prepareEnd
  /-- `run` up to the goroutines, with a truncation that may fail. -/
  | run (truncated : Bool)
  | runErr
  | attempt (k : Nat)
  /-- The body of part `k` gives `n` bytes. -/
  | copy (k n : Nat) (body : Body)
  /-- The end of `downloadChunk`. `stalled` is set when the watchdog returned first. -/
  | endCopy (k : Nat) (e : CopyEnd) (out : WriteEnd) (stalled : Bool)
  | giveUp (k : Nat)
  /-- `g.Wait`, and the close of the file, which may fail. -/
  | wait (closeErr : Bool)
  | remove (err : Bool)
  | rename (err : Bool)
  | crash

/-- `filepath.Glob` sorts by name. -/
def glob (files : List (Nat × PartFile)) : List (Nat × PartFile) :=
  files.insertionSort fun a b => toString a.1 ≤ toString b.1

/-- `readPart` of all files, up to the first one that fails. -/
@[grind =]
def readParts : List (Nat × PartFile) → Option (List Part)
  | [] => some []
  | (_, .json p) :: fs => (readParts fs).map (p :: ·)
  | (_, .torn) :: _ => none

def totalSize (ps : List Part) : Nat := (ps.map (·.size)).sum

/-- The bytes that a body gives for the range from `start` on, after `copied` of them. -/
def Body.byte (blob : Nat → UInt8) (start : Nat) : Body → Nat → UInt8
  | .range, x => blob x
  | .other f, x => f (x - start)

namespace State

variable (s : State)

/-- `length` is the content length of the remote blob. -/
def prepare (length : Nat) (headErr : Bool) : State :=
  match readParts (glob s.files) with
  | none => s
  | some [] =>
    if headErr then s
    else { s with phase := .preparing length 0 (partSize length) [] }
  | some parts => { s with phase := .prepared (totalSize parts) parts }

def newPart (total offset size : Nat) (parts : List Part) (out : WriteEnd) : State :=
  let size := if offset + size > total then total - offset else size
  let part : Part := ⟨parts.length, offset, size, 0⟩
  let files := writePart s.files part out
  match out with
  | .stored => { s with files, phase := .preparing total (offset + size) size (parts ++ [part]) }
  | _ => { s with files, phase := .idle }

/-- A complete part gets no goroutine. -/
def run (total : Nat) (parts : List Part) (truncated : Bool) : State :=
  { s with
    data := fun x => if truncated && total ≤ x then none else s.data x
    phase := .running (parts.map fun p => ⟨p, if p.completed = p.size then .done else .waiting⟩) }

def setWork (works : List Work) (k : Nat) (w : Work) : State := { s with phase := .running (works.set k w) }

def copy (blob : Nat → UInt8) (works : List Work) (k : Nat) (w : Work) (start remaining copied n : Nat) (body : Body) :
    State :=
  { s with
      data := fun x => if start + copied ≤ x ∧ x < start + copied + n then some (body.byte blob start x) else s.data x }
    |>.setWork works k { w with attempt := .copying start remaining (copied + n) }

def endCopy (works : List Work) (k : Nat) (w : Work) (copied : Nat) (e : CopyEnd) (out : WriteEnd) (stalled : Bool) :
    State :=
  let part := { w.part with completed := w.part.completed + copied }
  match e with
  | .rolledBack => s.setWork works k { w with attempt := .waiting }
  | .resumable => { s with files := writePart s.files part out }.setWork works k ⟨part, .waiting⟩
  | .full =>
    { s with files := writePart s.files part out }.setWork works k
      ⟨part, if out = WriteEnd.stored ∧ !stalled then .done else .waiting⟩

def step (blob : Nat → UInt8) (length : Nat) : Event → Option State
  | .prepare headErr =>
    match s.phase, s.blobFile with
    | .idle, none => some (s.prepare length headErr)
    | _, _ => none
  | .newPart out =>
    match s.phase with
    | .preparing total offset size parts =>
      if offset < total then some (s.newPart total offset size parts out) else none
    | _ => none
  | .prepareEnd =>
    match s.phase with
    | .preparing total offset _ parts =>
      if offset < total then none else some { s with phase := .prepared total parts }
    | _ => none
  | .run truncated =>
    match s.phase with
    | .prepared total parts => some (s.run total parts truncated)
    | _ => none
  | .runErr =>
    match s.phase with
    | .prepared _ _ => some { s with phase := .idle }
    | _ => none
  | .attempt k =>
    match s.phase with
    | .running works =>
      match works[k]? with
      | some ⟨p, .waiting⟩ => some (s.setWork works k ⟨p, .copying p.startsAt (p.size - p.completed) 0⟩)
      | _ => none
    | _ => none
  | .copy k n body =>
    match s.phase with
    | .running works =>
      match works[k]? with
      | some ⟨p, .copying start remaining copied⟩ =>
        if copied + n ≤ remaining then
          some (s.copy blob works k ⟨p, .copying start remaining copied⟩ start remaining copied n body)
        else none
      | _ => none
    | _ => none
  | .endCopy k e out stalled =>
    match s.phase with
    | .running works =>
      match works[k]? with
      | some ⟨p, .copying start remaining copied⟩ =>
        -- `io.CopyN` fails when and only when it copied too little; the request may fail before it
        if e = .full ∧ copied = remaining ∨ e = .resumable ∧ copied < remaining ∨
            e = .rolledBack ∧ (copied < remaining ∨ copied = 0) then
          some (s.endCopy works k ⟨p, .copying start remaining copied⟩ copied e out stalled)
        else none
      | _ => none
    | _ => none
  | .giveUp k =>
    match s.phase with
    | .running works =>
      match works[k]? with
      | some ⟨p, .waiting⟩ => some (s.setWork works k ⟨p, .failed⟩)
      | _ => none
    | _ => none
  | .wait closeErr =>
    match s.phase with
    | .running works =>
      if works.all (fun w => w.attempt = .done) ∧ !closeErr then
        some { s with phase := .removing (works.map (·.part)) 0 }
      else if works.all (fun w => w.attempt = .done ∨ w.attempt = .failed) then some { s with phase := .idle }
      else none
    | _ => none
  | .remove err =>
    match s.phase with
    | .removing parts i =>
      if i < parts.length then
        if err ∨ ¬ s.files.any (·.1 = i) then some { s with phase := .idle }
        else some { s with files := s.files.filter (·.1 ≠ i), phase := .removing parts (i + 1) }
      else none
    | _ => none
  | .rename err =>
    match s.phase with
    | .removing parts i =>
      if i < parts.length then none
      else if err then some { s with phase := .idle }
      else some { s with data := fun _ => none, blobFile := some s.data, phase := .idle }
    | _ => none
  | .crash => some { s with phase := .idle }

end State

/-- No file at all. -/
def State.init : State := ⟨[], fun _ => none, none, .idle⟩

end Xdragon.Server.Download
