import Mathlib.Algebra.Group.Int.Defs
import Mathlib.Algebra.Group.Nat.Defs
import Mathlib.Data.List.AList
import Mathlib.Data.List.Infix

/-!
# The scheduler

`server/sched.go`. Each section under `loadedMu` or `refMu`, and each operation on a channel, is one step.
A request or a runner is known by the number of its pointer. The goroutines that wait are in lists, and every
event says which one goes on and what the code outside of the scheduler answers.
-/

namespace Xdragon.Server

/-! ## Data -/

/-- The fields of `Model` that the scheduler reads. -/
structure Model where
  name : String := ""
  shortName : String := ""
  modelPath : String := ""
  digest : String := ""
  adapterPaths : List String := []
  projectorPaths : List String := []
  capabilities : List String := []
  modelFormat : String := ""
deriving Inhabited

/-- `api.Runner`. -/
structure RunnerOptions where
  numCtx : Int := 0
  numBatch : Int := 0
  numGPU : Int := 0
  mainGPU : Int := 0
  useMMap : Option Bool := none
  numThread : Int := 0
deriving DecidableEq, Inhabited

structure LlmRequest where
  model : Model := {}
  opts : RunnerOptions := {}
  sessionDuration : Option Int := none
  useImagegen : Bool := false
deriving Inhabited

def schedulerModelKey (m : Model) : String :=
  if m.modelPath ≠ "" then m.modelPath
  else if m.digest ≠ "" then "digest:" ++ m.digest
  else if m.name ≠ "" then "name:" ++ m.name
  else if m.shortName ≠ "" then "short:" ++ m.shortName
  else ""

def LlmRequest.key (req : LlmRequest) : String := schedulerModelKey req.model

/-- `processPending` gives these models to `loadMLX`. -/
def Model.mlx (m : Model) : Bool :=
  "image" ∈ m.capabilities ∨ m.modelFormat = "safetensors" ∧ "completion" ∈ m.capabilities

/-- `locks` tells the timer of a finished event, whose function takes `refMu`, from the one of `loadMLX`. -/
structure Timer where
  locks : Bool
  armed : Bool := true

structure RunnerRef where
  refCount : Nat := 0
  pid : Int := 0
  loading : Bool := false
  isImagegen : Bool := false
  sessionDuration : Int := 0
  expireTimer : Option Timer := none
  /-- The model and the options. Only `unload` clears them. -/
  config : Option (Model × RunnerOptions) := none
  modelPath : String := ""
  modelKey : String := ""
deriving Inhabited

/-- `unload` was executed. -/
def RunnerRef.unloaded (r : RunnerRef) : Prop := r.config = none

instance (r : RunnerRef) : Decidable r.unloaded := inferInstanceAs (Decidable (r.config = none))

/-- What is sent on `successCh` or `errCh`. -/
inductive Reply where
  | success (runner : Nat)
  | error (text : String)
deriving DecidableEq

def errMaxQueue : String := "server busy, please try again.  maximum pending requests exceeded"

/-- A caller of `GetRunner`, after its lookup. -/
inductive Caller where
  | check (runner : Nat)
  | use (runner : Nat)
  | enqueue
  | returned
deriving DecidableEq

/-- Where `processPending` is. -/
inductive Pending where
  | select
  | next (req : Nat)
  | check (req runner : Nat)
  | use (req runner : Nat)
  | refresh (req loadedCount : Nat)
  | serve (req : Nat) (requireFull : Bool)
  | fit (req : Nat) (requireFull : Bool)
  | publish (req : Nat) (pid : Int)
  | arm (req runner : Nat)
  | room (req : Nat)
  | idle (req first : Nat) (rest : List Nat)
  | expire (req runner : Nat)
  | wait (req : Nat)
  | stopped
  | panicked (req : Nat)
deriving DecidableEq

/-- The request that `processPending` is working on. -/
def Pending.request : Pending → Option Nat
  | .select => none
  | .stopped => none
  | .next q => some q
  | .check q _ => some q
  | .use q _ => some q
  | .refresh q _ => some q
  | .serve q _ => some q
  | .fit q _ => some q
  | .publish q _ => some q
  | .arm q _ => some q
  | .room q => some q
  | .idle q _ _ => some q
  | .expire q _ => some q
  | .wait q => some q
  | .panicked q => some q

/-- Where `processCompleted` is. -/
inductive Completed where
  | select
  | finished (req : Nat)
  | decrement (req runner : Nat)
  | expired (runner : Nat)
  | recover (runner : Nat)
  | unloaded
  | stopped
deriving DecidableEq

structure Scheduler where
  maxQueue : Nat
  keepAlive : Int
  maxRunners : Nat
  pendingReqCh : List Nat := []
  finishedReqCh : List Nat := []
  expiredCh : List Nat := []
  unloadedCh : Nat := 0
  /-- The `ModelPath` of the server. -/
  activeLoading : Option String := none
  loaded : AList (fun _ : String => Nat) := ∅
  /-- How many requests there are. -/
  requests : Nat := 0
  request : Nat → LlmRequest := fun _ => default
  ctxDone : Nat → Bool := fun _ => false
  /-- What was sent to the request. -/
  replies : Nat → List Reply := fun _ => []
  /-- The finished event of the request was processed. -/
  finished : Nat → Bool := fun _ => false
  /-- How many runners were published. -/
  runners : Nat := 0
  runner : Nat → RunnerRef := fun _ => default
  caller : Nat → Caller := fun _ => .returned
  /-- Goroutines that wait for the context of a request. -/
  finishers : List Nat := []
  /-- Goroutines of `load`: a request and its runner, whose `refMu` is held. -/
  loaders : List (Nat × Nat) := []
  /-- Timers that went off and wait for `refMu`. -/
  callbacks : List Nat := []
  /-- Goroutines that only send an expired event. -/
  senders : List Nat := []
  /-- Callers of `expireRunner` after their lookup. -/
  expirers : List Nat := []
  pending : Pending := .select
  completed : Completed := .select
  done : Bool := false

namespace Scheduler

/-! ## Locks, channels and runners -/

/-- Between two steps only a goroutine of `load` or the wait for VRAM recovery has the lock. -/
def refMuFree (s : Scheduler) (r : Nat) : Prop := (∀ l ∈ s.loaders, l.2 ≠ r) ∧ s.completed ≠ .recover r

instance (s : Scheduler) (r : Nat) : Decidable (s.refMuFree r) := inferInstanceAs (Decidable (_ ∧ _))

/-- A send does not block. A channel without a buffer keeps the value until the receiver takes its step. -/
def hasRoom (s : Scheduler) (length : Nat) : Prop := length < max s.maxQueue 1

instance (s : Scheduler) (n : Nat) : Decidable (s.hasRoom n) := inferInstanceAs (Decidable (_ < _))

def modifyRunner (s : Scheduler) (r : Nat) (f : RunnerRef → RunnerRef) : Scheduler :=
  { s with runner := Function.update s.runner r (f (s.runner r)) }

def reply (s : Scheduler) (q : Nat) (v : Reply) : Scheduler :=
  { s with replies := Function.update s.replies q (s.replies q ++ [v]) }

/-- `expiredCh <- runner`. -/
def sendExpired (s : Scheduler) (r : Nat) : Option Scheduler :=
  if s.hasRoom s.expiredCh.length then some { s with expiredCh := s.expiredCh ++ [r] } else none

end Scheduler

def RunnerRef.stopTimer (r : RunnerRef) : RunnerRef := { r with expireTimer := none }

def RunnerRef.unload (r : RunnerRef) : RunnerRef := { r.stopTimer with config := none }

/-- `ping` is what the server of the runner answers. -/
def RunnerRef.needsReload (r : RunnerRef) (req : LlmRequest) (ping : Bool) : Bool :=
  let wantImagegen := req.useImagegen || decide ("image" ∈ req.model.capabilities)
  if r.isImagegen ≠ wantImagegen then true
  else match r.config with
    | none => true
    | some (model, options) =>
      -- num_gpu of -1 fits every runner
      let optsExisting := if req.opts.numGPU < 0 then { options with numGPU := -1 } else options
      let optsNew := if req.opts.numGPU < 0 then { req.opts with numGPU := -1 } else req.opts
      decide (model.adapterPaths ≠ req.model.adapterPaths) || decide (model.projectorPaths ≠ req.model.projectorPaths) ||
        decide (optsExisting ≠ optsNew) || !ping

namespace Scheduler

/-- Counts the request, and sends it the runner. -/
def useLoadedRunner (s : Scheduler) (q r : Nat) : Option Scheduler :=
  if s.refMuFree r then
    let s := s.modifyRunner r fun x => { x.stopTimer with
      refCount := x.refCount + 1
      sessionDuration := (s.request q).sessionDuration.getD x.sessionDuration }
    some { s.reply q (.success r) with finishers := s.finishers ++ [q] }
  else none

/-- Makes the runner expire as soon as it is idle. -/
def expireIdle (s : Scheduler) (r : Nat) : Option Scheduler :=
  if s.refMuFree r then
    let s := s.modifyRunner r fun x => { x.stopTimer with sessionDuration := 0 }
    if (s.runner r).refCount = 0 then s.sendExpired r else some s
  else none

/-! ## GetRunner -/

/-- The options of a new request. `vision` is the answer of `CheckCapabilities`. -/
def raiseNumCtx (opts : RunnerOptions) (vision : Bool) : RunnerOptions :=
  let opts := if opts.numCtx < 4 then { opts with numCtx := 4 } else opts
  if vision then { opts with numCtx := max opts.numCtx 2048 } else opts

/-- The request, and the lookup. -/
def getRunner (s : Scheduler) (req : LlmRequest) (vision : Bool) : Scheduler :=
  let req := { req with opts := raiseNumCtx req.opts vision }
  { s with
    requests := s.requests + 1
    request := Function.update s.request s.requests req
    caller := Function.update s.caller s.requests <| match s.loaded.lookup req.key with
      | some r => .check r
      | none => .enqueue }

/-- The next step of a caller of `GetRunner`. -/
def stepCaller (s : Scheduler) (q : Nat) (ping : Bool) : Option Scheduler :=
  match s.caller q with
  | .returned => none
  | .check r =>
    if s.refMuFree r then some { s with
      caller := Function.update s.caller q <|
        if (s.runner r).needsReload (s.request q) ping then .enqueue else .use r }
    else none
  | .use r => (s.useLoadedRunner q r).map fun s => { s with caller := Function.update s.caller q .returned }
  | .enqueue =>
    let s := { s with caller := Function.update s.caller q .returned }
    if s.hasRoom s.pendingReqCh.length then some { s with pendingReqCh := s.pendingReqCh ++ [q] }
    else some (s.reply q (.error errMaxQueue))

/-! ## processPending -/

/-- A request whose context is done is skipped. -/
def takePending (s : Scheduler) : Option Scheduler :=
  match s.pending, s.pendingReqCh with
  | .select, q :: rest => some { s with pendingReqCh := rest, pending := if s.ctxDone q then .select else .next q }
  | _, _ => none

def stopPending (s : Scheduler) : Option Scheduler :=
  if s.done then
    match s.pending with
    | .select => some { s with pending := .stopped }
    | .wait _ => some { s with pending := .stopped }
    | _ => none
  else none

def takeUnloaded (s : Scheduler) : Option Scheduler :=
  if 0 < s.unloadedCh then
    match s.pending with
    | .select => some { s with unloadedCh := s.unloadedCh - 1 }
    | .wait q => some { s with unloadedCh := s.unloadedCh - 1, pending := .next q }
    | _ => none
  else none

/-- The lookup at the start of the loop. -/
def lookupPending (s : Scheduler) : Option Scheduler :=
  match s.pending with
  | .next q =>
    let loadedCount := s.loaded.entries.length
    some { s with pending := match s.loaded.lookup (s.request q).key with
      | some r => .check q r
      | none => if 0 < s.maxRunners ∧ s.maxRunners ≤ loadedCount then .room q else .refresh q loadedCount }
  | _ => none

def checkPending (s : Scheduler) (ping : Bool) : Option Scheduler :=
  match s.pending with
  | .check q r =>
    if s.refMuFree r then
      some { s with pending := if (s.runner r).needsReload (s.request q) ping then .expire q r else .use q r }
    else none
  | _ => none

def usePending (s : Scheduler) : Option Scheduler :=
  match s.pending with
  | .use q r => (s.useLoadedRunner q r).map fun s => { s with pending := .select }
  | _ => none

/-- The default for each GPU. -/
def defaultModelsPerGPU : Nat := 3

/-- The new runner of `loadMLX`. Its `pid` is never set. -/
def mlxRunner (s : Scheduler) (req : LlmRequest) : RunnerRef where
  isImagegen := decide ("image" ∈ req.model.capabilities) || req.useImagegen
  sessionDuration := req.sessionDuration.getD s.keepAlive
  config := some (req.model, req.opts)
  modelPath := req.model.modelPath
  modelKey := req.key

/-- The new runner of `load`. -/
def llamaRunner (s : Scheduler) (req : LlmRequest) (pid : Int) : RunnerRef where
  pid := pid
  loading := true
  sessionDuration := req.sessionDuration.getD s.keepAlive
  config := some (req.model, req.opts)
  modelPath := req.model.modelPath
  modelKey := req.key

/-- `loaded[runner.modelKey] = runner`, for a new runner. -/
def publishRunner (s : Scheduler) (x : RunnerRef) : Scheduler :=
  { s with
    runners := s.runners + 1
    runner := Function.update s.runner s.runners x
    loaded := s.loaded.insert x.modelKey s.runners }

/-- The GPU list, then the start of `loadMLX` or the metadata of the model. `opened` is the error of
`NewServer`, `NewClient` or `LoadModel`, if any. -/
def refreshPending (s : Scheduler) (gpus : Nat) (opened : Option String) : Option Scheduler :=
  match s.pending with
  | .refresh q loadedCount =>
    let s := { s with maxRunners := if s.maxRunners = 0 then defaultModelsPerGPU * max gpus 1 else s.maxRunners }
    match opened with
    | some err => some { s.reply q (.error err) with pending := .select }
    | none =>
      if (s.request q).model.mlx then
        some { s.publishRunner (s.mlxRunner (s.request q)) with pending := .arm q s.runners }
      else some { s with pending := .serve q (loadedCount ≠ 0) }
  | _ => none

/-- The timer of `loadMLX`. -/
def armPending (s : Scheduler) : Option Scheduler :=
  match s.pending with
  | .arm q r =>
    if s.refMuFree r then
      some { s.modifyRunner r fun x =>
        if 0 < (s.request q).sessionDuration.getD s.keepAlive then
          { x with expireTimer := some { locks := false } } else x with pending := .use q r }
    else none
  | _ => none

/-- The error of `newServerFn`, with a hint for old models. -/
def newServerError (err : String) (unsupported : Bool) (shortName : String) : String :=
  if unsupported ∨ "failed to load model".toList <:+: err.toList then
    err ++ ": this model may be incompatible with your version of Ollama. If you previously pulled this model, " ++
      "try updating it by running `ollama pull " ++ shortName ++ "`"
  else err

/-- The first section of `load`. `created` is the error of `newServerFn`, if any. -/
def servePending (s : Scheduler) (created : Option (String × Bool)) : Option Scheduler :=
  match s.pending with
  | .serve q requireFull =>
    match s.activeLoading with
    | none => match created with
      | some (err, unsupported) =>
        some { s.reply q (.error (newServerError err unsupported (s.request q).model.shortName)) with
          pending := .select }
      | none => some { s with
          activeLoading := some (s.request q).model.modelPath
          pending := .fit q requireFull }
    | some path =>
      -- "attempting to load different model after eviction"
      if path ≠ (s.request q).model.modelPath then some { s with pending := .panicked q }
      else some { s with pending := .fit q requireFull }
  | _ => none

/-- What `llama.Load` returns. `requiredFull` is `ErrLoadRequiredFull`. -/
inductive LoadResult where
  | ok (pid : Int)
  | requiredFull (err : String)
  | failed (err : String)

def fitPending (s : Scheduler) (res : LoadResult) : Option Scheduler :=
  match s.pending with
  | .fit q requireFull =>
    match res with
    | .ok pid => some { s with pending := .publish q pid }
    | .requiredFull err =>
      if requireFull then some { s with pending := .room q }
      else some { s.reply q (.error err) with activeLoading := none, pending := .select }
    | .failed err => some { s.reply q (.error err) with activeLoading := none, pending := .select }
  | _ => none

/-- The second section of `load`, and its goroutine. -/
def publishPending (s : Scheduler) : Option Scheduler :=
  match s.pending with
  | .publish q pid =>
    let publish (s : Scheduler) : Scheduler := { s.publishRunner (s.llamaRunner (s.request q) pid) with
      activeLoading := none
      loaders := s.loaders ++ [(q, s.runners)]
      pending := .select }
    match s.loaded.lookup (s.request q).key with
    | none => some (publish s)
    | some old => if s.refMuFree old then some (publish (s.modifyRunner old RunnerRef.unload)) else none
  | _ => none

/-- `ByDurationAndName`. A negative duration is the largest. -/
def shorter (a b : RunnerRef) : Prop :=
  let d₁ := a.sessionDuration % 2 ^ 64
  let d₂ := b.sessionDuration % 2 ^ 64
  let n₁ := if a.modelPath = "" then a.modelKey else a.modelPath
  let n₂ := if b.modelPath = "" then b.modelKey else b.modelPath
  if d₁ ≠ d₂ then d₁ < d₂ else n₁ < n₂

instance : DecidableRel shorter := fun a b => by unfold shorter; infer_instance

/-- The list of `findRunnerToUnload`. A map has no order, and `sort.Sort` is not stable. -/
def gatherPending (s : Scheduler) (order : List Nat) : Option Scheduler :=
  match s.pending with
  | .room q =>
    if order.Perm (s.loaded.entries.map (·.2)) ∧ order.Pairwise (fun a b => ¬ shorter (s.runner b) (s.runner a)) then
      match order with
      | [] => some { s with pending := .next q }
      | first :: _ => some { s with pending := .idle q first order }
    else none
  | _ => none

/-- One round of the loop of `findRunnerToUnload`. -/
def scanPending (s : Scheduler) : Option Scheduler :=
  match s.pending with
  | .idle q first [] => some { s with pending := .expire q first }
  | .idle q first (r :: rest) =>
    if s.refMuFree r then
      some { s with pending := if (s.runner r).refCount = 0 then .expire q r else .idle q first rest }
    else none
  | _ => none

def expirePending (s : Scheduler) : Option Scheduler :=
  match s.pending with
  | .expire q r => (s.expireIdle r).map fun s => { s with pending := .wait q }
  | _ => none

/-- The end of the goroutine of `load`: the error of `WaitUntilRunning`, or the `Pid` of the server. -/
def stepLoader (s : Scheduler) (q r : Nat) (res : Except String Int) : Option Scheduler :=
  if (q, r) ∈ s.loaders then
    let s := { s with loaders := s.loaders.erase (q, r) }
    match res with
    | .error err => (s.reply q (.error err)).sendExpired r
    | .ok pid =>
      let s := s.modifyRunner r fun x => { x with
        pid := if x.pid < 0 then pid else x.pid
        refCount := x.refCount + 1
        loading := false }
      some { s.reply q (.success r) with finishers := s.finishers ++ [q] }
  else none

/-! ## processCompleted -/

def stopCompleted (s : Scheduler) : Option Scheduler :=
  match s.completed with
  | .select => if s.done then some { s with completed := .stopped } else none
  | _ => none

def takeFinished (s : Scheduler) : Option Scheduler :=
  match s.completed, s.finishedReqCh with
  | .select, q :: rest => some { s with finishedReqCh := rest, completed := .finished q }
  | _, _ => none

/-- A finished event without a runner is ignored. -/
def lookupFinished (s : Scheduler) : Option Scheduler :=
  match s.completed with
  | .finished q => match s.loaded.lookup (s.request q).key with
    | none => some { s with finished := Function.update s.finished q true, completed := .select }
    | some r => some { s with completed := .decrement q r }
  | _ => none

/-- `refCount--` on an unsigned integer. -/
def decrement (n : Nat) : Nat := if n = 0 then 2 ^ 64 - 1 else n - 1

/-- The timer of an idle runner is set or reset. -/
def resetTimer (x : RunnerRef) : RunnerRef := match x.expireTimer with
  | none => { x with expireTimer := some { locks := true } }
  | some t => { x with expireTimer := some { t with armed := true } }

def decrementFinished (s : Scheduler) : Option Scheduler :=
  match s.completed with
  | .decrement q r =>
    if s.refMuFree r then
      let s := { s.modifyRunner r fun x => { x with refCount := decrement x.refCount } with
        finished := Function.update s.finished q true
        completed := .select }
      if (s.runner r).refCount = 0 then
        if (s.runner r).sessionDuration ≤ 0 then (s.modifyRunner r RunnerRef.stopTimer).sendExpired r
        else some (s.modifyRunner r resetTimer)
      else some s
    else none
  | _ => none

def takeExpired (s : Scheduler) : Option Scheduler :=
  match s.completed, s.expiredCh with
  | .select, r :: rest => some { s with expiredCh := rest, completed := .expired r }
  | _, _ => none

/-- An expired event. The runner that is loaded is known by its pid. -/
def expireCompleted (s : Scheduler) : Option Scheduler :=
  match s.completed with
  | .expired r =>
    if s.refMuFree r then
      if 0 < (s.runner r).refCount then some { s with senders := s.senders ++ [r], completed := .select }
      else match s.loaded.lookup (s.runner r).modelKey with
        | none => some { s with completed := .select }
        | some runnerToUnload =>
          if (s.runner r).pid ≠ (s.runner runnerToUnload).pid then
            some { s.modifyRunner r RunnerRef.unload with completed := .select }
          else some { s.modifyRunner r RunnerRef.unload with
            loaded := s.loaded.erase (s.runner r).modelKey
            completed := .recover r }
    else none
  | _ => none

/-- The VRAM is back, and `refMu` is free. -/
def recovered (s : Scheduler) : Option Scheduler :=
  match s.completed with
  | .recover _ => some { s with completed := .unloaded }
  | _ => none

def sendUnloaded (s : Scheduler) : Option Scheduler :=
  match s.completed with
  | .unloaded =>
    if s.hasRoom s.unloadedCh then some { s with unloadedCh := s.unloadedCh + 1, completed := .select } else none
  | _ => none

/-! ## Timers and other goroutines -/

/-- The context of a request is done, and its goroutine sends the finished event. -/
def finish (s : Scheduler) (q : Nat) : Option Scheduler :=
  if q ∈ s.finishers ∧ s.ctxDone q ∧ s.hasRoom s.finishedReqCh.length then
    some { s with finishers := s.finishers.erase q, finishedReqCh := s.finishedReqCh ++ [q] }
  else none

/-- A timer goes off. -/
def fire (s : Scheduler) (r : Nat) : Option Scheduler :=
  match (s.runner r).expireTimer with
  | none => none
  | some t =>
    if t.armed then
      let s := s.modifyRunner r fun x => { x with expireTimer := some { t with armed := false } }
      if t.locks then some { s with callbacks := s.callbacks ++ [r] } else some { s with senders := s.senders ++ [r] }
    else none

/-- The function of the timer that a finished event sets. -/
def callback (s : Scheduler) (r : Nat) : Option Scheduler :=
  if r ∈ s.callbacks ∧ s.refMuFree r then
    { s.modifyRunner r RunnerRef.stopTimer with callbacks := s.callbacks.erase r }.sendExpired r
  else none

def stepSender (s : Scheduler) (r : Nat) : Option Scheduler :=
  if r ∈ s.senders then { s with senders := s.senders.erase r }.sendExpired r else none

/-- The lookup of `expireRunner`. -/
def expireRunner (s : Scheduler) (m : Model) : Scheduler :=
  match s.loaded.lookup (schedulerModelKey m) with
  | none => s
  | some r => { s with expirers := s.expirers ++ [r] }

def stepExpirer (s : Scheduler) (r : Nat) : Option Scheduler :=
  if r ∈ s.expirers then { s with expirers := s.expirers.erase r }.expireIdle r else none

/-! ## Runs -/

inductive Event where
  | getRunner (req : LlmRequest) (vision : Bool)
  | caller (req : Nat) (ping : Bool)
  | cancel (req : Nat)
  | shutdown
  | takePending
  | stopPending
  | takeUnloaded
  | lookupPending
  | checkPending (ping : Bool)
  | usePending
  | refreshPending (gpus : Nat) (opened : Option String)
  | armPending
  | servePending (created : Option (String × Bool))
  | fitPending (res : LoadResult)
  | publishPending
  | gatherPending (order : List Nat)
  | scanPending
  | expirePending
  | loader (req runner : Nat) (res : Except String Int)
  | stopCompleted
  | takeFinished
  | lookupFinished
  | decrementFinished
  | takeExpired
  | expireCompleted
  | recovered
  | sendUnloaded
  | finish (req : Nat)
  | fire (runner : Nat)
  | callback (runner : Nat)
  | sender (runner : Nat)
  | expireRunner (m : Model)
  | expirer (runner : Nat)

def stepEvent (s : Scheduler) : Event → Option Scheduler
  | .getRunner req vision => some (s.getRunner req vision)
  | .caller q ping => s.stepCaller q ping
  | .cancel q => some { s with ctxDone := Function.update s.ctxDone q true }
  | .shutdown => some { s with done := true }
  | .takePending => s.takePending
  | .stopPending => s.stopPending
  | .takeUnloaded => s.takeUnloaded
  | .lookupPending => s.lookupPending
  | .checkPending ping => s.checkPending ping
  | .usePending => s.usePending
  | .refreshPending gpus opened => s.refreshPending gpus opened
  | .armPending => s.armPending
  | .servePending created => s.servePending created
  | .fitPending res => s.fitPending res
  | .publishPending => s.publishPending
  | .gatherPending order => s.gatherPending order
  | .scanPending => s.scanPending
  | .expirePending => s.expirePending
  | .loader q r res => s.stepLoader q r res
  | .stopCompleted => s.stopCompleted
  | .takeFinished => s.takeFinished
  | .lookupFinished => s.lookupFinished
  | .decrementFinished => s.decrementFinished
  | .takeExpired => s.takeExpired
  | .expireCompleted => s.expireCompleted
  | .recovered => s.recovered
  | .sendUnloaded => s.sendUnloaded
  | .finish q => s.finish q
  | .fire r => s.fire r
  | .callback r => s.callback r
  | .sender r => s.stepSender r
  | .expireRunner m => some (s.expireRunner m)
  | .expirer r => s.stepExpirer r

/-- A panic ends the process. -/
def step (s : Scheduler) (e : Event) : Option Scheduler :=
  match s.pending with
  | .panicked _ => none
  | _ => s.stepEvent e

def Initial (s : Scheduler) : Prop :=
  ∃ maxQueue keepAlive maxRunners, s = { maxQueue := maxQueue, keepAlive := keepAlive, maxRunners := maxRunners }

end Scheduler

end Xdragon.Server
