import Xdragon.Lib.Run

/-!
# Pushing a blob

`uploadBlob` for any number of callers, with the uploads that they share through `blobUploadManager`.
The map is keyed by the digest alone. An upload belongs to the repository of the caller that stored it:
`Prepare` asks that repository for a session, or finds that it has mounted the blob, and `Run` sends
the parts and the commit to it in a goroutine of its own, which takes the upload off the map in the end.

The registry is what it replied. The log has every reply that the HTTP client handed back, the oldest one first.
-/

namespace Xdragon.Server.Upload

/-! ## Requests -/

/-- What is asked of which repository, and by whom: a call asks with `HEAD`, an upload with the rest. -/
inductive Request (ρ δ : Type)
  | head (caller : Nat) (repo : ρ) (digest : δ)
  | create (upload : Nat) (repo : ρ) (digest : δ)
  /-- The `PATCH` of a part, or the `PUT` that it was redirected to. -/
  | part (upload : Nat) (repo : ρ) (digest : δ) (offset size : Nat)
  | commit (upload : Nat) (repo : ρ) (digest : δ)

structure Reply (ρ δ : Type) where
  request : Request ρ δ
  status : Nat

/-- The errors that the code tells apart. -/
inductive Err
  | canceled
  | notExist
  | maxRetriesExceeded
  | other
  deriving DecidableEq

/-- How `makeRequest` ends. What the status of a reply calls for may fail as well: a token is asked for, the
body is read, a redirect has no `Location`. -/
inductive Answer
  | failed (e : Err)
  | reply (status : Nat) (later : Option Err)
  deriving DecidableEq

def Answer.status : Answer → Option Nat
  | .failed _ => none
  | .reply status _ => some status

variable {ρ δ : Type}

/-- The replies to one request, in the order of its attempts. -/
def replies (request : Request ρ δ) (answers : List Answer) : List (Reply ρ δ) :=
  (answers.filterMap Answer.status).map fun status => ⟨request, status⟩

/-- `makeRequestWithRetry`, with the attempts that are left. The list has the answers to all of its attempts. -/
def makeRequestWithRetry : Nat → List Answer → Option (Except Err Nat)
  | 0, [] => some (.error .other)
  | _ + 1, [.failed e] => some (.error e)
  | n + 1, .reply status later :: answers =>
    if status = 401 then
      match later, answers with
      | some e, [] => some (.error e)
      | some _, _ :: _ => none
      | none, answers => makeRequestWithRetry n answers
    else if answers ≠ [] then none
    else if status = 404 then some (.error .notExist)
    else if 400 ≤ status then some (.error (later.getD .other))
    else some (.ok status)
  | _, _ => none

/-! ## Parts -/

def maxRetries : Nat := 6
def numUploadParts : Nat := 16
def minUploadPartSize : Nat := 100 * 1000 * 1000
def maxUploadPartSize : Nat := 1000 * 1000 * 1000

/-- What a goroutine of a part does next, once there is room in `nextURL` for the location of a reply. -/
inductive Then
  | accepted
  /-- The redirect is followed, unless its `Location` is bad. -/
  | redirect (later : Option Err)
  deriving DecidableEq

/-- The goroutine of a part. `tries` has the attempt of every loop it is in, the innermost one first:
the outermost loop sends `PATCH` requests, the loops of redirects send `PUT` requests. -/
inductive Work
  | waiting
  /-- The context was done before the part had its turn. -/
  | skipped
  | trying (tries : List Nat)
  | sending (tries : List Nat) (next : Then)
  | done
  | failed
  deriving DecidableEq

/-- `blobUploadPart`. -/
structure Part where
  n : Nat
  offset : Nat
  size : Nat
  /-- `Hash` is set. -/
  hash : Bool
  work : Work

/-- The size of all parts but the last one. -/
def partSize (total : Nat) : Nat :=
  let size := total / numUploadParts
  if size < minUploadPartSize then minUploadPartSize
  else if size > maxUploadPartSize then maxUploadPartSize
  else size

/-- The loop of `Prepare`. -/
def addParts (total : Nat) : Nat → Nat → Nat → List Part → List Part
  | 0, _, _, parts => parts
  | fuel + 1, offset, size, parts =>
    if offset < total then
      let size := if offset + size > total then total - offset else size
      addParts total fuel (offset + size) size (parts ++ [⟨parts.length, offset, size, false, .waiting⟩])
    else parts

def Part.running (p : Part) : Bool :=
  match p.work with
  | .trying _ | .sending _ _ => true
  | _ => false

/-- An attempt of `uploadPart` has failed. -/
def Work.fail (tries : List Nat) : Err → Work
  | .canceled | .maxRetriesExceeded => .failed
  | _ =>
    match tries with
    | [] => .failed
    | k :: tries => if k + 1 < maxRetries then .trying ((k + 1) :: tries) else .failed

/-- `uploadPart` from the reply on, with a location that is a URL or is none. Only the reply to a `PATCH` and
a redirect go to `nextURL`. -/
def Part.answer (p : Part) (tries : List Nat) (parsed : Bool) : Answer → Part
  | .failed e => { p with work := Work.fail tries e }
  | .reply status later =>
    if !parsed then { p with work := Work.fail tries .other }
    else if status = 307 then { p with work := .sending tries (.redirect later) }
    else if 400 ≤ status then { p with work := Work.fail tries (later.getD .other) }
    else if tries.length ≤ 1 then { p with work := .sending tries .accepted }
    else { p with hash := true, work := .done }

/-- The location went to `nextURL`. -/
def Part.sent (p : Part) (tries : List Nat) : Then → Part
  | .accepted => { p with hash := true, work := .done }
  | .redirect (some e) => { p with work := Work.fail tries e }
  | .redirect none => { p with work := .trying (0 :: tries) }

/-! ## Uploads -/

/-- Where `Run` is. -/
inductive Run
  /-- `Prepare` is at work, or it has failed. -/
  | idle
  | spawned
  /-- In the loop over the parts, with a URL or without one. -/
  | parts (i : Nat) (url : Bool)
  /-- After `g.Wait`. -/
  | waited
  | committing (attempt : Nat)
  /-- Before the deferred calls. -/
  | leaving
  | returned
  deriving DecidableEq

/-- `blobUpload`. -/
structure Upload (ρ δ : Type) where
  repo : ρ
  digest : δ
  parts : List Part
  /-- Whether the channel has a URL. The channel is nil until `Prepare` makes it. -/
  nextURL : Option Bool
  /-- Whether `CancelFunc` was called. It is nil until `Run` sets it. -/
  cancel : Option Bool
  done : Bool
  /-- `err` is not nil. -/
  err : Bool
  references : Int
  run : Run

/-- Where `Prepare` fails on this side. -/
inductive Fault
  | blobsPath
  | stat
  | url
  deriving DecidableEq

inductive RunEvent
  /-- `Run` up to its loop, with a file that opens or does not. -/
  | start (opened : Bool)
  | skip
  | take
  | go
  /-- The current request of part `k` ends. -/
  | answer (k : Nat) (parsed : Bool) (a : Answer)
  | send (k : Nat)
  | wait
  | url
  | commit (answers : List Answer)
  | delete
  deriving DecidableEq

namespace Upload

variable (up : Upload ρ δ)

/-- The context of the group is done when the upload was canceled or a part has failed. -/
def innerDone : Bool := up.cancel = some true || up.parts.any (·.work = .failed)

def setPart (k : Nat) (p : Part) : Upload ρ δ := { up with parts := up.parts.set k p }

/-- `Prepare` after its request. -/
def prepared (size status : Nat) : Upload ρ δ :=
  if status = 201 then { up with done := true }
  else { up with parts := addParts size size 0 (partSize size) up.parts }

def finish (err : Bool) : Upload ρ δ := { up with err, done := true, run := .leaving }

/-- `Run`, with the replies that it got. -/
def step (u : Nat) : RunEvent → Option (Upload ρ δ × List (Reply ρ δ))
  | .start opened =>
    if up.run ≠ .spawned then none
    else if opened then some ({ up with cancel := some false, run := .parts 0 false }, [])
    else some ({ up with cancel := some false, err := true, run := .leaving }, [])
  | .skip =>
    match up.run with
    | .parts i false =>
      match up.parts[i]? with
      | some p => if up.innerDone then some ({ up.setPart i { p with work := .skipped } with run := .parts (i + 1) false }, [])
                  else none
      | none => none
    | _ => none
  | .take =>
    match up.run, up.nextURL with
    | .parts i false, some true =>
      if i < up.parts.length then some ({ up with nextURL := some false, run := .parts i true }, []) else none
    | _, _ => none
  | .go =>
    match up.run with
    | .parts i true =>
      match up.parts[i]? with
      | some p =>
        -- the limit of the group
        if up.parts.countP (·.running) < numUploadParts then
          some ({ up.setPart i { p with work := .trying [0] } with run := .parts (i + 1) false }, [])
        else none
      | none => none
    | _ => none
  | .answer k parsed a =>
    match up.parts[k]? with
    | some p =>
      match p.work with
      | .trying tries =>
        some (up.setPart k (p.answer tries parsed a), replies (.part u up.repo up.digest p.offset p.size) [a])
      | _ => none
    | none => none
  | .send k =>
    match up.parts[k]?, up.nextURL with
    | some p, some false =>
      match p.work with
      | .sending tries next => some ({ up.setPart k (p.sent tries next) with nextURL := some true }, [])
      | _ => none
    | _, _ => none
  | .wait =>
    if up.run ≠ .parts up.parts.length false ∨ up.parts.any (·.running) then none
    else if up.parts.any (·.work = .failed) then some ({ up with err := true, run := .leaving }, [])
    else some ({ up with run := .waited }, [])
  | .url =>
    -- a receive from a nil channel blocks forever, and the sum of a part without `Hash` is a panic
    if up.run = .waited ∧ up.nextURL = some true ∧ up.parts.all (·.hash) then
      some ({ up with nextURL := some false, run := .committing 0 }, [])
    else none
  | .commit answers =>
    match up.run with
    | .committing attempt =>
      (makeRequestWithRetry 2 answers).map fun result =>
        let up' : Upload ρ δ :=
          match result with
          | .ok _ => up.finish false
          | .error e =>
            if e ≠ .canceled ∧ attempt + 1 < maxRetries then { up with run := .committing (attempt + 1) }
            else up.finish true
        (up', replies (.commit u up.repo up.digest) answers)
    | _ => none
  | .delete => if up.run = .leaving then some ({ up with run := .returned }, []) else none

end Upload

/-! ## Calls -/

/-- Where a call of `uploadBlob` is. `err` says whether it ends with an error. -/
inductive Phase
  | head
  | store
  | prepare (u : Nat)
  | wait (u : Nat)
  /-- In the loop of `Wait`. -/
  | polling (u : Nat)
  | releasing (u : Nat) (err : Bool)
  | returned (err : Bool)

structure Caller (ρ δ : Type) where
  repo : ρ
  digest : δ
  phase : Phase

structure State (ρ δ : Type) where
  callers : List (Caller ρ δ)
  uploads : List (Upload ρ δ)
  /-- `blobUploadManager`. -/
  manager : List (δ × Nat)
  log : List (Reply ρ δ)

inductive Event (ρ δ : Type)
  | call (repo : ρ) (digest : δ)
  | head (c : Nat) (answers : List Answer)
  | loadOrStore (c : Nat)
  | prepare (c : Nat) (answers : List Answer) (fault : Option Fault)
  | acquire (c : Nat)
  | poll (c : Nat)
  | canceled (c : Nat)
  | release (c : Nat)
  | run (u : Nat) (e : RunEvent)

namespace State

variable [DecidableEq δ] (s : State ρ δ)

def setPhase (c : Nat) (x : Caller ρ δ) (phase : Phase) : State ρ δ :=
  { s with callers := s.callers.set c { x with phase } }

def setUpload (u : Nat) (up : Upload ρ δ) : State ρ δ := { s with uploads := s.uploads.set u up }

/-- `blobUploadManager.Delete`. -/
def delete (digest : δ) : State ρ δ := { s with manager := s.manager.filter (·.1 ≠ digest) }

def record (rs : List (Reply ρ δ)) : State ρ δ := { s with log := s.log ++ rs }

def head (c : Nat) (answers : List Answer) : Option (State ρ δ) :=
  match s.callers[c]? with
  | some ⟨repo, digest, .head⟩ =>
    (makeRequestWithRetry 2 answers).map fun result =>
      let phase : Phase :=
        match result with
        | .error .notExist => .store
        | .error _ => .returned true
        | .ok _ => .returned false
      (s.record (replies (.head c repo digest) answers)).setPhase c ⟨repo, digest, .head⟩ phase
  | _ => none

def loadOrStore (c : Nat) : Option (State ρ δ) :=
  match s.callers[c]? with
  | some ⟨repo, digest, .store⟩ =>
    match s.manager.lookup digest with
    | some u => some (s.setPhase c ⟨repo, digest, .store⟩ (.wait u))
    | none =>
      let u := s.uploads.length
      let up : Upload ρ δ := ⟨repo, digest, [], none, none, false, false, 0, .idle⟩
      some ({ s with uploads := s.uploads ++ [up], manager := (digest, u) :: s.manager }.setPhase c
        ⟨repo, digest, .store⟩ (.prepare u))
  | _ => none

/-- `Prepare`, and what `uploadBlob` does with its result. -/
def prepare (fileSize : δ → Nat) (c : Nat) (answers : List Answer) (fault : Option Fault) : Option (State ρ δ) :=
  match s.callers[c]? with
  | some ⟨repo, digest, .prepare u⟩ =>
    match s.uploads[u]? with
    | some up =>
      let s' := s.record (replies (.create u repo digest) answers)
      let quit (s : State ρ δ) : State ρ δ := (s.delete digest).setPhase c ⟨repo, digest, .prepare u⟩ (.returned true)
      let spawn (up : Upload ρ δ) : State ρ δ :=
        (s'.setUpload u { up with run := .spawned }).setPhase c ⟨repo, digest, .prepare u⟩ (.wait u)
      if fault = some .blobsPath then if answers = [] then some (quit s) else none
      else
        (makeRequestWithRetry 2 answers).map fun
          | .error _ => quit s'
          | .ok status =>
            if fault = some .stat then quit s'
            else if status = 201 then spawn (up.prepared (fileSize up.digest) status)
            else if fault = some .url then quit (s'.setUpload u (up.prepared (fileSize up.digest) status))
            else spawn { up.prepared (fileSize up.digest) status with nextURL := some true }
    | none => none
  | _ => none

/-- The steps of `Wait`. -/
def acquire (c : Nat) : Option (State ρ δ) :=
  match s.callers[c]? with
  | some ⟨repo, digest, .wait u⟩ =>
    (s.uploads[u]?).map fun up =>
      (s.setUpload u { up with references := up.references + 1 }).setPhase c ⟨repo, digest, .wait u⟩ (.polling u)
  | _ => none

def poll (c : Nat) : Option (State ρ δ) :=
  match s.callers[c]? with
  | some ⟨repo, digest, .polling u⟩ =>
    match s.uploads[u]? with
    | some up =>
      if up.done || up.err then some (s.setPhase c ⟨repo, digest, .polling u⟩ (.releasing u up.err)) else none
    | none => none
  | _ => none

def canceled (c : Nat) : Option (State ρ δ) :=
  match s.callers[c]? with
  | some ⟨repo, digest, .polling u⟩ => some (s.setPhase c ⟨repo, digest, .polling u⟩ (.releasing u true))
  | _ => none

def release (c : Nat) : Option (State ρ δ) :=
  match s.callers[c]? with
  | some ⟨repo, digest, .releasing u err⟩ =>
    match s.uploads[u]? with
    | some up =>
      let up := { up with references := up.references - 1 }
      let next (up : Upload ρ δ) : State ρ δ :=
        (s.setUpload u up).setPhase c ⟨repo, digest, .releasing u err⟩ (.returned err)
      if up.references ≠ 0 then some (next up)
      else
        -- the call of a nil `CancelFunc` is a panic
        up.cancel.map fun _ => next { up with cancel := some true }
    | none => none
  | _ => none

def run (u : Nat) (e : RunEvent) : Option (State ρ δ) :=
  match s.uploads[u]? with
  | some up =>
    (up.step u e).map fun (up', rs) =>
      let s' := (s.setUpload u up').record rs
      if e = .delete then s'.delete up.digest else s'
  | none => none

def step (fileSize : δ → Nat) : Event ρ δ → Option (State ρ δ)
  | .call repo digest => some { s with callers := s.callers ++ [⟨repo, digest, .head⟩] }
  | .head c answers => s.head c answers
  | .loadOrStore c => s.loadOrStore c
  | .prepare c answers fault => s.prepare fileSize c answers fault
  | .acquire c => s.acquire c
  | .poll c => s.poll c
  | .canceled c => s.canceled c
  | .release c => s.release c
  | .run u e => s.run u e

def init : State ρ δ := ⟨[], [], [], []⟩

end State

end Xdragon.Server.Upload
