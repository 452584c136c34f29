import Xdragon.Lib.File
import Xdragon.Lib.Run

/-!
# The disk cache of blobs

The calls of `DiskCache.Put` over the files of a blob directory, one system call at a time.
A reader hands over its content in pieces of any size, and may fail after each of them. The
process may be killed between any two writes: what was written stays, the calls are gone.

The hash is a parameter. Nothing here depends on which one it is.
-/

namespace Xdragon.Blob

open Xdragon.Lib

inductive Error
  | changed
  | exceeds (nextSize size : Int)
  | unexpectedEOF
  | read
  | write
  | openFile
  | close
  deriving DecidableEq

/-! ## The writer that withholds the last write -/

/-- `checkWriter`. The hash state is what was written to it. -/
structure CheckWriter (δ : Type) where
  size : Int
  d : δ
  h : Bytes
  n : Nat
  err : Option Error
  deriving DecidableEq

section
variable {δ : Type} [DecidableEq δ]

/-- `Write` up to the write to the file. -/
def CheckWriter.verify (sum : Bytes → δ) (w : CheckWriter δ) (p : Bytes) : Except Error Unit :=
  match w.err with
  | some e => .error e
  | none =>
    let nextSize : Int := w.n + p.length
    if nextSize = w.size ∧ sum (w.h ++ p) ≠ w.d then .error .changed
    else if nextSize > w.size then .error (.exceeds nextSize w.size)
    else .ok ()

/-- `Write` once the file took `k` bytes of `p`. A file that takes less returns an error. -/
def CheckWriter.wrote (w : CheckWriter δ) (p : Bytes) (k : Nat) : CheckWriter δ :=
  { w with h := w.h ++ p, n := w.n + k, err := if k < p.length then some .write else none }

theorem CheckWriter.verify_ok {sum : Bytes → δ} {w : CheckWriter δ} {p : Bytes} (h : w.verify sum p = .ok ()) :
    w.err = none ∧ (w.n + p.length : Int) ≤ w.size ∧
      ((w.n + p.length : Int) = w.size → sum (w.h ++ p) = w.d) := by
  unfold verify at h
  split at h
  · exact absurd h (by simp)
  · rename_i herr
    simp only at h
    split_ifs at h with hlast hmore
    · refine ⟨herr, by omega, fun heq => ?_⟩
      by_contra hsum
      exact hlast ⟨heq, hsum⟩

/-! ## The calls in progress -/

/-- Where a call of `copyNamedFile` stands after it has opened the file. -/
inductive Phase
  | copying
  /-- `io.Copy` failed, or stopped short, and `f.Truncate(0)` comes next. -/
  | failing (e : Error)
  | closing
  deriving DecidableEq

structure Call (δ : Type) where
  w : CheckWriter δ
  phase : Phase

/-- The blob directory and the calls of `Put` in progress. `returned` is the call that
returned in the last step, with its error. -/
structure DiskCache (δ : Type) where
  files : δ → Option Bytes
  calls : List (Call δ)
  returned : Option (δ × Option Error)

def DiskCache.empty : DiskCache δ := ⟨fun _ => none, [], none⟩

inductive Event (δ : Type)
  /-- `copyNamedFile` up to the copy: `os.Stat` and `os.OpenFile`, which may fail. -/
  | put (d : δ) (size : Int) (openErr : Bool)
  /-- The reader of call `i` gives `p`, and the file takes `k` bytes of it. -/
  | write (i : Nat) (p : Bytes) (k : Nat)
  | eof (i : Nat)
  | readErr (i : Nat)
  /-- `f.Truncate(0)`, which may fail, and the return of the error. -/
  | truncate (i : Nat) (done : Bool)
  /-- `f.Close()`, which may fail, and then `os.Remove`, which may fail too. -/
  | close (i : Nat) (closeErr removed : Bool)
  | crash

namespace DiskCache

variable (s : DiskCache δ)

/-- What `os.OpenFile` leaves of the file: a file that is too long is truncated. -/
def opened (size : Int) : Option Bytes → Bytes
  | none => []
  | some f => if (f.length : Int) > size then [] else f

def put (d : δ) (size : Int) (openErr : Bool) : DiskCache δ :=
  if (s.files d).map (fun f => (f.length : Int)) = some size then { s with returned := some (d, none) }
  else if openErr then { s with returned := some (d, some .openFile) }
  else
    let files := Function.update s.files d (some (opened size (s.files d)))
    if size = 0 then { s with files, returned := some (d, none) }
    else { files, calls := s.calls ++ [⟨⟨size, d, [], 0, none⟩, .copying⟩], returned := none }

/-- One round of `io.Copy`: the file handle of the call stands at `w.n`. -/
def write (sum : Bytes → δ) (i : Nat) (c : Call δ) (p : Bytes) (k : Nat) : DiskCache δ :=
  match c.w.verify sum p with
  | .error e => { s with calls := s.calls.set i { c with phase := .failing e }, returned := none }
  | .ok () =>
    { files := Function.update s.files c.w.d ((s.files c.w.d).map (writeAt · c.w.n (p.take k)))
      calls := s.calls.set i ⟨c.w.wrote p k, if k < p.length then .failing .write else .copying⟩
      returned := none }

/-- The end of `io.Copy` without an error. -/
def eof (i : Nat) (c : Call δ) : DiskCache δ :=
  let phase := if (c.w.n : Int) < c.w.size then .failing .unexpectedEOF else .closing
  { s with calls := s.calls.set i { c with phase }, returned := none }

def readErr (i : Nat) (c : Call δ) : DiskCache δ :=
  { s with calls := s.calls.set i { c with phase := .failing .read }, returned := none }

def truncate (i : Nat) (c : Call δ) (e : Error) (done : Bool) : DiskCache δ :=
  { files := if done then Function.update s.files c.w.d ((s.files c.w.d).map fun _ => []) else s.files
    calls := s.calls.eraseIdx i
    returned := some (c.w.d, some e) }

def close (i : Nat) (c : Call δ) (closeErr removed : Bool) : DiskCache δ :=
  if closeErr then
    { files := if removed then Function.update s.files c.w.d none else s.files
      calls := s.calls.eraseIdx i
      returned := some (c.w.d, some .close) }
  else { s with calls := s.calls.eraseIdx i, returned := some (c.w.d, none) }

def step (sum : Bytes → δ) : Event δ → Option (DiskCache δ)
  | .put d size openErr => some (s.put d size openErr)
  | .write i p k =>
    match s.calls[i]? with
    | some c => if c.phase = .copying ∧ k ≤ p.length then some (s.write sum i c p k) else none
    | none => none
  | .eof i =>
    match s.calls[i]? with
    | some c => if c.phase = .copying then some (s.eof i c) else none
    | none => none
  | .readErr i =>
    match s.calls[i]? with
    | some c => if c.phase = .copying then some (s.readErr i c) else none
    | none => none
  | .truncate i done =>
    match s.calls[i]? with
    | some c =>
      match c.phase with
      | .failing e => some (s.truncate i c e done)
      | _ => none
    | none => none
  | .close i closeErr removed =>
    match s.calls[i]? with
    | some c => if c.phase = .closing then some (s.close i c closeErr removed) else none
    | none => none
  | .crash => some { s with calls := [], returned := none }

end DiskCache

/-! ## A whole call -/

/-- How a call of `PutBytes` ends. -/
inductive Outcome
  | stored
  | unopened
  /-- The file took `k` bytes, and was then truncated or not. -/
  | cut (k : Nat) (truncated : Bool)
  | unclosed (removed : Bool)

/-- `PutBytes` of a content under its own digest, without another call between its steps: the files
after it, and whether it returned no error. A `bytes.Reader` gives its content in one piece. -/
def putBytes (files : δ → Option Bytes) (d : δ) (data : Bytes) (out : Outcome) : (δ → Option Bytes) × Bool :=
  if (files d).map (fun f => (f.length : Int)) = some (data.length : Int) then (files, true)
  else
    let f := DiskCache.opened data.length (files d)
    match out with
    | .unopened => (files, false)
    | .stored => (Function.update files d (some (writeAt f 0 data)), true)
    | .cut k truncated =>
      if data = [] then (Function.update files d (some f), true)
      else (Function.update files d (some (if truncated then [] else writeAt f 0 (data.take k))), false)
    | .unclosed removed =>
      if data = [] then (Function.update files d (some f), true)
      else (Function.update files d (if removed then none else some (writeAt f 0 data)), false)

theorem putBytes_ne (files : δ → Option Bytes) {d d' : δ} {data : Bytes} {out : Outcome} (h : d' ≠ d) :
    (putBytes files d data out).1 d' = files d' := by
  unfold putBytes
  by_cases hstat : (files d).map (fun f => (f.length : Int)) = some (data.length : Int)
  · rw [if_pos hstat]
  · rw [if_neg hstat]
    by_cases hnil : data = [] <;> cases out <;> simp [hnil, h]

/-- The events of such a call. -/
def putBytesEvents (files : δ → Option Bytes) (d : δ) (data : Bytes) (out : Outcome) : List (Event δ) :=
  if (files d).map (fun f => (f.length : Int)) = some (data.length : Int) then [.put d data.length false]
  else
    match out with
    | .unopened => [.put d data.length true]
    | .stored =>
      if data = [] then [.put d data.length false]
      else [.put d data.length false, .write 0 data data.length, .eof 0, .close 0 false false]
    | .cut k truncated =>
      if data = [] then [.put d data.length false]
      else [.put d data.length false, .write 0 data k, .truncate 0 truncated]
    | .unclosed removed =>
      if data = [] then [.put d data.length false]
      else [.put d data.length false, .write 0 data data.length, .eof 0, .close 0 true removed]

/-- The call does what its steps do, when the process is not killed and no other call comes between. -/
theorem putBytes_exec {sum : Bytes → δ} (files : δ → Option Bytes) {d : δ} {data : Bytes} (hd : sum data = d)
    {out : Outcome} (hout : ∀ k t, out = .cut k t → k < data.length) :
    ∃ s, exec (DiskCache.step · sum) ⟨files, [], none⟩ (putBytesEvents files d data out) = some s ∧
      s.files = (putBytes files d data out).1 ∧ s.calls = [] ∧
      ((putBytes files d data out).2 = true ↔ s.returned = some (d, none)) := by
  have hv : CheckWriter.verify sum ⟨data.length, d, [], 0, none⟩ data = .ok () := by
    simp [CheckWriter.verify, hd]
  unfold putBytes putBytesEvents
  by_cases hstat : (files d).map (fun f => (f.length : Int)) = some (data.length : Int)
  · simp only [if_pos hstat]
    simp [exec, DiskCache.step, DiskCache.put, hstat]
  simp only [if_neg hstat]
  by_cases hnil : data = []
  · subst hnil
    have hsome : files d ≠ some [] := fun h => hstat (by simp [h])
    cases out <;> simp [exec, DiskCache.step, DiskCache.put, hsome]
  simp only [if_neg hnil]
  have hlen : (data.length : Int) ≠ 0 := by simpa using hnil
  cases out with
  | unopened => simp [exec, DiskCache.step, DiskCache.put, hstat]
  | stored =>
    simp [exec, DiskCache.step, DiskCache.put, DiskCache.write, DiskCache.eof, DiskCache.close, hstat, hnil, hv,
      CheckWriter.wrote]
  | cut k truncated =>
    have hk := hout k truncated rfl
    cases truncated <;>
      simp [exec, DiskCache.step, DiskCache.put, DiskCache.write, DiskCache.truncate, hstat, hnil, hv, hk, Nat.le_of_lt hk,
        CheckWriter.wrote]
  | unclosed removed =>
    cases removed <;>
      simp [exec, DiskCache.step, DiskCache.put, DiskCache.write, DiskCache.eof, DiskCache.close, hstat, hnil, hv,
        CheckWriter.wrote]

/-- The disk is full after one of two bytes, and the file is not truncated. -/
theorem cutFile_exec : ∃ s, exec (DiskCache.step · id) ⟨fun _ => none, [], none⟩
      (putBytesEvents (fun _ => none) [1, 2] [1, 2] (.cut 1 false)) = some s ∧
    s.files = (putBytes (fun _ => none) [1, 2] [1, 2] (.cut 1 false)).1 ∧ s.calls = [] ∧
    ((putBytes (fun _ => none) [1, 2] [1, 2] (.cut 1 false)).2 = true ↔ s.returned = some ([1, 2], none)) :=
  putBytes_exec (fun _ => none) rfl fun k t h => by
    cases h
    decide

end

/-- A hash without collisions that shows its content. -/
def plain : Bytes → Bytes := id

end Xdragon.Blob
