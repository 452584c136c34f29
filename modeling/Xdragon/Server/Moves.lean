import Xdragon.Server.Sched

/-!
# What a step of the scheduler can do

Every step is one of the moves here, and then changes that no result depends on: timers, session durations,
process ids, and who sends an expired event.
-/

namespace Xdragon.Server

namespace Pending

/-- The model of the request was not loaded at the lookup, and is going to be. -/
def loading : Pending → Bool
  | .refresh _ _ => true
  | .serve _ _ => true
  | .fit _ _ => true
  | .publish _ _ => true
  | _ => false

/-- Inside of `load`. -/
def llama : Pending → Bool
  | .serve _ _ => true
  | .fit _ _ => true
  | .publish _ _ => true
  | _ => false

/-- The runner was looked up, and may be handed out. -/
def target : Pending → Option Nat
  | .check _ r => some r
  | .use _ r => some r
  | .arm _ r => some r
  | _ => none

/-- The runner is going to be handed out. -/
def chosen : Pending → Option Nat
  | .use _ r => some r
  | .arm _ r => some r
  | _ => none

/-- The loop goes on, without a runner. -/
def plain : Pending → Bool
  | .panicked _ => false
  | p => p.target.isNone

end Pending

/-- The request of a finished event. -/
def Completed.request : Completed → Option Nat
  | .finished q => some q
  | .decrement q _ => some q
  | _ => none

namespace Scheduler

/-- Nothing changes that a result depends on. -/
structure Quiet (s s' : Scheduler) : Prop where
  refCount : ∀ r, (s'.runner r).refCount = (s.runner r).refCount
  config : ∀ r, (s'.runner r).config = (s.runner r).config
  modelKey : ∀ r, (s'.runner r).modelKey = (s.runner r).modelKey
  ctxDone : ∀ q, s.ctxDone q = true → s'.ctxDone q = true := by exact fun _ h => h
  done : s.done = true → s'.done = true := by exact id
  pendingReqCh : s'.pendingReqCh = s.pendingReqCh := by rfl
  finishedReqCh : s'.finishedReqCh = s.finishedReqCh := by rfl
  activeLoading : s'.activeLoading = s.activeLoading := by rfl
  loaded : s'.loaded = s.loaded := by rfl
  requests : s'.requests = s.requests := by rfl
  request : s'.request = s.request := by rfl
  replies : s'.replies = s.replies := by rfl
  finished : s'.finished = s.finished := by rfl
  runners : s'.runners = s.runners := by rfl
  caller : s'.caller = s.caller := by rfl
  finishers : s'.finishers = s.finishers := by rfl
  loaders : s'.loaders = s.loaders := by rfl
  pending : s'.pending = s.pending := by rfl
  completed : s'.completed = s.completed := by rfl

theorem Quiet.refl (s : Scheduler) : Quiet s s :=
  ⟨fun _ => rfl, fun _ => rfl, fun _ => rfl, fun _ hq => hq, id, rfl, rfl, rfl, rfl, rfl, rfl, rfl, rfl, rfl, rfl,
    rfl, rfl, rfl, rfl⟩

/-- Counts one request more, and sends it the runner. -/
def lend (s : Scheduler) (q r : Nat) : Scheduler :=
  { (s.modifyRunner r fun x => { x with refCount := x.refCount + 1 }).reply q (.success r) with
    finishers := s.finishers ++ [q] }

/-- A runner for the request that nobody has. -/
structure NewRunner (s : Scheduler) (q : Nat) (x : RunnerRef) : Prop where
  refCount : x.refCount = 0
  config : ¬ x.unloaded
  modelKey : x.modelKey = (s.request q).key

/-- What is left of a step without the quiet changes. -/
inductive Move (s : Scheduler) : Event → Scheduler → Prop
  | stay {e} : Move s e s
  | request {e} (req : LlmRequest) (c : Caller)
      (hc : c = .enqueue ∨ ∃ r, c = .check r ∧ s.loaded.lookup req.key = some r) :
      Move s e { s with
        requests := s.requests + 1
        request := Function.update s.request s.requests req
        caller := Function.update s.caller s.requests c }
  | callerChecks {e q r} (h : s.caller q = .check r) (hr : ¬ (s.runner r).unloaded) :
      Move s e { s with caller := Function.update s.caller q (.use r) }
  | callerFails {e q r} (h : s.caller q = .check r) :
      Move s e { s with caller := Function.update s.caller q .enqueue }
  | callerUses {e q r} (h : s.caller q = .use r) :
      Move s e { s.lend q r with caller := Function.update s.caller q .returned }
  | callerQueues {e q} (h : s.caller q = .enqueue) :
      Move s e { s with caller := Function.update s.caller q .returned, pendingReqCh := s.pendingReqCh ++ [q] }
  | callerBusy {e q} (h : s.caller q = .enqueue) :
      Move s e { s.reply q (.error errMaxQueue) with caller := Function.update s.caller q .returned }
  | takes {e q rest} (h : s.pending = .select) (hq : s.pendingReqCh = q :: rest) :
      Move s e { s with pendingReqCh := rest, pending := .next q }
  | skips {e q rest} (h : s.pending = .select) (hq : s.pendingReqCh = q :: rest) (hctx : s.ctxDone q = true) :
      Move s e { s with pendingReqCh := rest }
  | stops {e} (hdone : s.done = true) (h : s.pending = .select ∨ ∃ q, s.pending = .wait q) :
      Move s e { s with pending := .stopped }
  | turns {e q p} (h : s.pending.request = some q) (hp : p.request = some q) (hplain : p.plain = true)
      (hload : p.loading = true → s.pending.loading = true ∨ s.loaded.lookup (s.request q).key = none)
      (hllama : p.llama = true → s.pending.llama = true ∨ (s.request q).model.mlx = false) :
      Move s e { s with pending := p }
  | finds {e q r} (h : s.pending = .next q) (hr : s.loaded.lookup (s.request q).key = some r) :
      Move s e { s with pending := .check q r }
  | checks {e q r} (h : s.pending = .check q r) (hr : ¬ (s.runner r).unloaded) :
      Move s e { s with pending := .use q r }
  | uses {e q r} (h : s.pending = .use q r) : Move s e { s.lend q r with pending := .select }
  | unread {gpus err q n} (h : s.pending = .refresh q n) :
      Move s (.refreshPending gpus (some err)) { s.reply q (.error err) with pending := .select }
  | opens {e q n x} (h : s.pending = .refresh q n) (hmlx : (s.request q).model.mlx = true) (hx : NewRunner s q x) :
      Move s e { s.publishRunner x with pending := .arm q s.runners }
  | arms {e q r} (h : s.pending = .arm q r) : Move s e { s with pending := .use q r }
  | serves {e q full} (h : s.pending = .serve q full) (hact : s.activeLoading = none) :
      Move s e { s with activeLoading := some (s.request q).model.modelPath, pending := .fit q full }
  | panics {e q full path} (h : s.pending = .serve q full) (hact : s.activeLoading = some path)
      (hne : path ≠ (s.request q).model.modelPath) : Move s e { s with pending := .panicked q }
  | fails {e q err} (h : s.pending.request = some q) :
      Move s e { s.reply q (.error err) with activeLoading := none, pending := .select }
  | publishes {e q pid x} (h : s.pending = .publish q pid) (hnone : s.loaded.lookup (s.request q).key = none)
      (hx : NewRunner s q x) :
      Move s e { s.publishRunner x with
        activeLoading := none, loaders := s.loaders ++ [(q, s.runners)], pending := .select }
  | replaces {e q pid x old} (h : s.pending = .publish q pid) (hold : s.loaded.lookup (s.request q).key = some old)
      (hx : NewRunner s q x) :
      Move s e { (s.modifyRunner old RunnerRef.unload).publishRunner x with
        activeLoading := none, loaders := s.loaders ++ [(q, s.runners)], pending := .select }
  | loadFails {e q r err} (h : (q, r) ∈ s.loaders) :
      Move s e { s.reply q (.error err) with loaders := s.loaders.erase (q, r) }
  | loadEnds {e q r} (h : (q, r) ∈ s.loaders) :
      Move s e { s.lend q r with loaders := s.loaders.erase (q, r) }
  | rests {e c} (h : s.completed.request = none) (hc : c.request = none) : Move s e { s with completed := c }
  | takesFinished {e q rest} (h : s.completed = .select) (hq : s.finishedReqCh = q :: rest) :
      Move s e { s with finishedReqCh := rest, completed := .finished q }
  | losesFinished {e q} (h : s.completed = .finished q) (hr : s.loaded.lookup (s.request q).key = none) :
      Move s e { s with finished := Function.update s.finished q true, completed := .select }
  | findsFinished {e q r} (h : s.completed = .finished q) (hr : s.loaded.lookup (s.request q).key = some r) :
      Move s e { s with completed := .decrement q r }
  | decrements {e q r} (h : s.completed = .decrement q r) :
      Move s e { s.modifyRunner r fun x => { x with refCount := decrement x.refCount } with
        finished := Function.update s.finished q true, completed := .select }
  | orphans {r r'} (h : s.completed = .expired r) (hfree : s.refMuFree r) (hcount : (s.runner r).refCount = 0)
      (hr : s.loaded.lookup (s.runner r).modelKey = some r') (hpid : (s.runner r).pid ≠ (s.runner r').pid) :
      Move s .expireCompleted { s.modifyRunner r RunnerRef.unload with completed := .select }
  | unloads {r r'} (h : s.completed = .expired r) (hfree : s.refMuFree r) (hcount : (s.runner r).refCount = 0)
      (hr : s.loaded.lookup (s.runner r).modelKey = some r') (hpid : (s.runner r).pid = (s.runner r').pid) :
      Move s .expireCompleted { s.modifyRunner r RunnerRef.unload with
        loaded := s.loaded.erase (s.runner r).modelKey, completed := .recover r }
  | finishes {e q} (h : q ∈ s.finishers) :
      Move s e { s with finishers := s.finishers.erase q, finishedReqCh := s.finishedReqCh ++ [q] }

/-- A step is a move and quiet changes. -/
def Moves (s : Scheduler) (e : Event) (s' : Scheduler) : Prop := ∃ s₁, Move s e s₁ ∧ Quiet s₁ s'

variable {s s' : Scheduler} {e : Event}

theorem Move.moves (h : Move s e s') : Moves s e s' := ⟨s', h, .refl s'⟩

theorem Quiet.moves (h : Quiet s s') : Moves s e s' := ⟨s, .stay, h⟩

/-! ## Quiet changes -/

/-- The runner keeps what the results depend on. -/
structure Keeps (f : RunnerRef → RunnerRef) : Prop where
  refCount : ∀ x, (f x).refCount = x.refCount := by intro x; rfl
  config : ∀ x, (f x).config = x.config := by intro x; rfl
  modelKey : ∀ x, (f x).modelKey = x.modelKey := by intro x; rfl

theorem runner_modifyRunner (s : Scheduler) (r : Nat) (f : RunnerRef → RunnerRef) (r' : Nat) :
    (s.modifyRunner r f).runner r' = if r' = r then f (s.runner r) else s.runner r' := by
  simp only [modifyRunner, Function.update_apply]

theorem quiet_modifyRunner (s : Scheduler) (r : Nat) {f : RunnerRef → RunnerRef} (hf : Keeps f) :
    Quiet s (s.modifyRunner r f) := by
  refine { Quiet.refl s with refCount := fun r' => ?_, config := fun r' => ?_, modelKey := fun r' => ?_ } <;>
    rw [runner_modifyRunner] <;> split
  · rename_i h; rw [hf.refCount, h]
  · rfl
  · rename_i h; rw [hf.config, h]
  · rfl
  · rename_i h; rw [hf.modelKey, h]
  · rfl

theorem Quiet.trans {s₁ s₂ s₃ : Scheduler} (h : Quiet s₁ s₂) (h' : Quiet s₂ s₃) : Quiet s₁ s₃ where
  refCount r := (h'.refCount r).trans (h.refCount r)
  config r := (h'.config r).trans (h.config r)
  modelKey r := (h'.modelKey r).trans (h.modelKey r)
  ctxDone q hq := h'.ctxDone q (h.ctxDone q hq)
  done hd := h'.done (h.done hd)
  pendingReqCh := h'.pendingReqCh.trans h.pendingReqCh
  finishedReqCh := h'.finishedReqCh.trans h.finishedReqCh
  activeLoading := h'.activeLoading.trans h.activeLoading
  loaded := h'.loaded.trans h.loaded
  requests := h'.requests.trans h.requests
  request := h'.request.trans h.request
  replies := h'.replies.trans h.replies
  finished := h'.finished.trans h.finished
  runners := h'.runners.trans h.runners
  caller := h'.caller.trans h.caller
  finishers := h'.finishers.trans h.finishers
  loaders := h'.loaders.trans h.loaders
  pending := h'.pending.trans h.pending
  completed := h'.completed.trans h.completed

theorem quiet_sendExpired {r : Nat} (h : s.sendExpired r = some s') : Quiet s s' := by
  unfold sendExpired at h
  split at h
  · cases h
    exact { Quiet.refl s with }
  · cases h

theorem quiet_expireIdle {r : Nat} (h : s.expireIdle r = some s') : Quiet s s' := by
  unfold expireIdle at h
  split at h
  · have hq : Quiet s (s.modifyRunner r fun x => { x.stopTimer with sessionDuration := 0 }) :=
      quiet_modifyRunner s r ⟨fun _ => rfl, fun _ => rfl, fun _ => rfl⟩
    dsimp only at h
    split at h
    · exact hq.trans (quiet_sendExpired h)
    · cases h
      exact hq
  · cases h

theorem quiet_fire {r : Nat} (h : s.fire r = some s') : Quiet s s' := by
  unfold fire at h
  split at h
  · cases h
  · rename_i t _
    split at h
    · have hq : Quiet s (s.modifyRunner r fun x => { x with expireTimer := some { t with armed := false } }) :=
        quiet_modifyRunner s r ⟨fun _ => rfl, fun _ => rfl, fun _ => rfl⟩
      dsimp only at h
      split at h <;> cases h <;> exact { hq with }
    · cases h

theorem quiet_callback {r : Nat} (h : s.callback r = some s') : Quiet s s' := by
  unfold callback at h
  split at h
  · have hq : Quiet s (s.modifyRunner r RunnerRef.stopTimer) := quiet_modifyRunner s r ⟨fun _ => rfl, fun _ => rfl, fun _ => rfl⟩
    have hsend := quiet_sendExpired h
    exact Quiet.trans (by exact { hq with }) hsend
  · cases h

theorem quiet_stepSender {r : Nat} (h : s.stepSender r = some s') : Quiet s s' := by
  unfold stepSender at h
  split at h
  · have hsend := quiet_sendExpired h
    exact Quiet.trans (by exact { Quiet.refl s with }) hsend
  · cases h

theorem quiet_stepExpirer {r : Nat} (h : s.stepExpirer r = some s') : Quiet s s' := by
  unfold stepExpirer at h
  split at h
  · have hidle := quiet_expireIdle h
    exact Quiet.trans (by exact { Quiet.refl s with }) hidle
  · cases h

theorem quiet_expireRunner (s : Scheduler) (m : Model) : Quiet s (s.expireRunner m) := by
  unfold expireRunner
  split <;> exact { Quiet.refl s with }

/-! ## Handing out -/

theorem lend_of_useLoadedRunner {q r : Nat} (h : s.useLoadedRunner q r = some s') : Quiet (s.lend q r) s' := by
  unfold useLoadedRunner at h
  split at h
  · cases h
    refine { Quiet.refl _ with refCount := fun r' => ?_, config := fun r' => ?_, modelKey := fun r' => ?_ } <;>
      simp only [lend, reply, runner_modifyRunner] <;> split <;> rfl
  · cases h

theorem not_unloaded_of_needsReload {x : RunnerRef} {req : LlmRequest} {ping : Bool}
    (h : ¬ x.needsReload req ping = true) : ¬ x.unloaded := by
  intro hu
  apply h
  unfold RunnerRef.needsReload
  rw [hu]
  dsimp only
  split <;> rfl

/-! ## Callers -/

theorem moves_getRunner (s : Scheduler) (req : LlmRequest) (vision : Bool) : Moves s e (s.getRunner req vision) := by
  refine (Move.request { req with opts := raiseNumCtx req.opts vision } _ ?_).moves
  split
  · rename_i r hr
    exact .inr ⟨r, rfl, hr⟩
  · exact .inl rfl

theorem moves_stepCaller {q : Nat} {ping : Bool} (h : s.stepCaller q ping = some s') : Moves s e s' := by
  unfold stepCaller at h
  split at h
  · cases h
  · rename_i r hc
    split at h
    · cases h
      split
      · exact (Move.callerFails hc).moves
      · rename_i hr
        exact (Move.callerChecks hc (not_unloaded_of_needsReload hr)).moves
    · cases h
  · rename_i r hc
    obtain ⟨s₁, hs₁, rfl⟩ := Option.map_eq_some_iff.mp h
    have hq := lend_of_useLoadedRunner hs₁
    refine ⟨_, .callerUses hc, { hq with caller := ?_ }⟩
    rw [hq.caller]
    rfl
  · rename_i hc
    dsimp only at h
    split at h <;> cases h
    · exact (Move.callerQueues hc).moves
    · exact (Move.callerBusy hc).moves

/-! ## processPending -/

theorem moves_takePending (h : s.takePending = some s') : Moves s e s' := by
  unfold takePending at h
  split at h
  · rename_i q rest hp hq
    cases h
    split
    · rename_i hctx
      refine ⟨_, .skips hp hq hctx, { Quiet.refl _ with pending := hp.symm }⟩
    · exact (Move.takes hp hq).moves
  · cases h

theorem moves_stopPending (h : s.stopPending = some s') : Moves s e s' := by
  unfold stopPending at h
  split at h
  · rename_i hdone
    split at h <;> cases h
    · rename_i hp
      exact (Move.stops hdone (.inl hp)).moves
    · rename_i q hp
      exact (Move.stops hdone (.inr ⟨q, hp⟩)).moves
  · cases h

theorem moves_takeUnloaded (h : s.takeUnloaded = some s') : Moves s e s' := by
  unfold takeUnloaded at h
  split at h
  · split at h <;> cases h
    · exact Quiet.moves { Quiet.refl s with }
    · rename_i q hp
      refine ⟨_, .turns (q := q) (p := .next q) (by rw [hp]; rfl) rfl rfl (by nofun) (by nofun), { Quiet.refl _ with }⟩
  · cases h

theorem moves_lookupPending (h : s.lookupPending = some s') : Moves s e s' := by
  unfold lookupPending at h
  split at h
  · rename_i q hp
    have hq : s.pending.request = some q := by rw [hp]; rfl
    cases h
    split
    · rename_i r hr
      exact (Move.finds hp hr).moves
    · rename_i hnone
      split
      · exact (Move.turns hq rfl rfl (by intro h; cases h) (by intro h; cases h)).moves
      · exact (Move.turns hq rfl rfl (fun _ => .inr hnone) (by intro h; cases h)).moves
  · cases h

theorem moves_checkPending {ping : Bool} (h : s.checkPending ping = some s') : Moves s e s' := by
  unfold checkPending at h
  split at h
  · rename_i q r hp
    split at h <;> cases h
    split
    · exact (Move.turns (q := q) (by rw [hp]; rfl) rfl rfl (by nofun) (by nofun)).moves
    · rename_i hr
      exact (Move.checks hp (not_unloaded_of_needsReload hr)).moves
  · cases h

theorem moves_usePending (h : s.usePending = some s') : Moves s e s' := by
  unfold usePending at h
  split at h
  · rename_i q r hp
    obtain ⟨s₁, hs₁, rfl⟩ := Option.map_eq_some_iff.mp h
    exact ⟨_, .uses hp, { lend_of_useLoadedRunner hs₁ with pending := rfl }⟩
  · cases h

theorem newRunner_mlx (s : Scheduler) (q : Nat) : NewRunner s q (s.mlxRunner (s.request q)) :=
  ⟨rfl, nofun, rfl⟩

theorem newRunner_llama (s : Scheduler) (q : Nat) (pid : Int) : NewRunner s q (s.llamaRunner (s.request q) pid) :=
  ⟨rfl, nofun, rfl⟩

theorem moves_refreshPending {gpus : Nat} {opened : Option String} (h : s.refreshPending gpus opened = some s') :
    Moves s (.refreshPending gpus opened) s' := by
  unfold refreshPending at h
  split at h
  · rename_i q n hp
    dsimp only at h
    split at h
    · cases h
      exact ⟨_, .unread hp, { Quiet.refl _ with }⟩
    · split at h
      · rename_i hmlx
        cases h
        exact ⟨_, .opens hp hmlx (newRunner_mlx s q), { Quiet.refl _ with }⟩
      · rename_i hmlx
        cases h
        refine ⟨_, .turns (q := q) (p := .serve q (n ≠ 0)) (by rw [hp]; rfl) rfl rfl (fun _ => .inl (by rw [hp]; rfl))
          (fun _ => .inr (Bool.not_eq_true _ ▸ hmlx)), { Quiet.refl _ with }⟩
  · cases h

theorem moves_armPending (h : s.armPending = some s') : Moves s e s' := by
  unfold armPending at h
  split at h
  · rename_i q r hp
    split at h <;> cases h
    have hkeeps : Keeps fun x : RunnerRef =>
        if 0 < (s.request q).sessionDuration.getD s.keepAlive then
          { x with expireTimer := some { locks := false } } else x :=
      ⟨fun x => by split <;> rfl, fun x => by split <;> rfl, fun x => by split <;> rfl⟩
    exact ⟨_, .arms hp, { quiet_modifyRunner s r hkeeps with pending := rfl }⟩
  · cases h

theorem moves_servePending {created : Option (String × Bool)} (h : s.servePending created = some s') :
    Moves s e s' := by
  unfold servePending at h
  split at h
  · rename_i q full hp
    have hq : s.pending.request = some q := by rw [hp]; rfl
    split at h
    · rename_i hact
      split at h <;> cases h
      · exact ⟨_, .fails hq, { Quiet.refl _ with activeLoading := hact }⟩
      · exact (Move.serves hp hact).moves
    · rename_i path hact
      split at h <;> cases h
      · rename_i hne
        exact (Move.panics hp hact hne).moves
      · exact (Move.turns hq rfl rfl (fun _ => .inl (by rw [hp]; rfl)) (fun _ => .inl (by rw [hp]; rfl))).moves
  · cases h

theorem moves_fitPending {res : LoadResult} (h : s.fitPending res = some s') : Moves s e s' := by
  unfold fitPending at h
  split at h
  · rename_i q full hp
    have hq : s.pending.request = some q := by rw [hp]; rfl
    split at h
    · cases h
      exact (Move.turns hq rfl rfl (fun _ => .inl (by rw [hp]; rfl)) (fun _ => .inl (by rw [hp]; rfl))).moves
    · split at h <;> cases h
      · exact (Move.turns hq rfl rfl (by nofun) (by nofun)).moves
      · exact (Move.fails hq).moves
    · cases h
      exact (Move.fails hq).moves
  · cases h

theorem moves_publishPending (h : s.publishPending = some s') : Moves s e s' := by
  unfold publishPending at h
  split at h
  · rename_i q pid hp
    dsimp only at h
    split at h
    · rename_i hnone
      cases h
      exact (Move.publishes hp hnone (newRunner_llama s q pid)).moves
    · rename_i old hold
      split at h <;> cases h
      exact (Move.replaces hp hold (newRunner_llama s q pid)).moves
  · cases h

theorem moves_gatherPending {order : List Nat} (h : s.gatherPending order = some s') : Moves s e s' := by
  unfold gatherPending at h
  split at h
  · rename_i q hp
    have hq : s.pending.request = some q := by rw [hp]; rfl
    split at h
    · split at h <;> cases h
      · exact (Move.turns hq rfl rfl (by nofun) (by nofun)).moves
      · exact (Move.turns hq rfl rfl (by nofun) (by nofun)).moves
    · cases h
  · cases h

theorem moves_scanPending (h : s.scanPending = some s') : Moves s e s' := by
  unfold scanPending at h
  split at h
  · rename_i q first hp
    cases h
    exact (Move.turns (q := q) (by rw [hp]; rfl) rfl rfl (by nofun) (by nofun)).moves
  · rename_i q first r rest hp
    have hq : s.pending.request = some q := by rw [hp]; rfl
    split at h <;> cases h
    split
    · exact (Move.turns hq rfl rfl (by nofun) (by nofun)).moves
    · exact (Move.turns hq rfl rfl (by nofun) (by nofun)).moves
  · cases h

theorem moves_expirePending (h : s.expirePending = some s') : Moves s e s' := by
  unfold expirePending at h
  split at h
  · rename_i q r hp
    obtain ⟨s₁, hs₁, rfl⟩ := Option.map_eq_some_iff.mp h
    refine ⟨_, .turns (q := q) (p := .wait q) (by rw [hp]; rfl) rfl rfl (by nofun) (by nofun),
      { quiet_expireIdle hs₁ with pending := rfl }⟩
  · cases h

theorem moves_stepLoader {q r : Nat} {res : Except String Int} (h : s.stepLoader q r res = some s') :
    Moves s e s' := by
  unfold stepLoader at h
  split at h
  · rename_i hmem
    dsimp only at h
    split at h
    · exact ⟨_, .loadFails hmem, quiet_sendExpired h⟩
    · cases h
      refine ⟨_, .loadEnds hmem,
        { Quiet.refl _ with refCount := fun r' => ?_, config := fun r' => ?_, modelKey := fun r' => ?_ }⟩ <;>
        simp only [lend, reply, runner_modifyRunner] <;> split <;> rfl
  · cases h

/-! ## processCompleted -/

theorem moves_stopCompleted (h : s.stopCompleted = some s') : Moves s e s' := by
  unfold stopCompleted at h
  split at h
  · rename_i hc
    split at h <;> cases h
    exact (Move.rests (by rw [hc]; rfl) rfl).moves
  · cases h

theorem moves_takeFinished (h : s.takeFinished = some s') : Moves s e s' := by
  unfold takeFinished at h
  split at h
  · rename_i q rest hc hq
    cases h
    exact (Move.takesFinished hc hq).moves
  · cases h

theorem moves_lookupFinished (h : s.lookupFinished = some s') : Moves s e s' := by
  unfold lookupFinished at h
  split at h
  · rename_i q hc
    split at h <;> cases h
    · rename_i hr
      exact (Move.losesFinished hc hr).moves
    · rename_i r hr
      exact (Move.findsFinished hc hr).moves
  · cases h

theorem keeps_resetTimer : Keeps resetTimer := by
  refine ⟨fun x => ?_, fun x => ?_, fun x => ?_⟩ <;> unfold resetTimer <;> split <;> rfl

theorem moves_decrementFinished (h : s.decrementFinished = some s') : Moves s e s' := by
  unfold decrementFinished at h
  split at h
  · rename_i q r hc
    split at h
    · refine ⟨_, .decrements hc, ?_⟩
      dsimp only at h
      split at h
      · split at h
        · exact (quiet_modifyRunner _ r (by constructor <;> exact fun _ => rfl)).trans (quiet_sendExpired h)
        · cases h
          exact quiet_modifyRunner _ r keeps_resetTimer
      · cases h
        exact .refl _
    · cases h
  · cases h

theorem moves_takeExpired (h : s.takeExpired = some s') : Moves s e s' := by
  unfold takeExpired at h
  split at h
  · rename_i r rest hc _
    cases h
    exact ⟨_, .rests (c := .expired r) (by rw [hc]; rfl) rfl, { Quiet.refl _ with }⟩
  · cases h

theorem moves_expireCompleted (h : s.expireCompleted = some s') : Moves s .expireCompleted s' := by
  unfold expireCompleted at h
  split at h
  · rename_i r hc
    have hrest : s.completed.request = none := by rw [hc]; rfl
    split at h
    · rename_i hfree
      split at h
      · cases h
        exact ⟨_, .rests (c := .select) hrest rfl, { Quiet.refl _ with }⟩
      · rename_i hcount
        split at h
        · cases h
          exact (Move.rests hrest rfl).moves
        · rename_i r' hr
          split at h <;> cases h
          · rename_i hpid
            exact (Move.orphans hc hfree (by omega) hr hpid).moves
          · rename_i hpid
            exact (Move.unloads hc hfree (by omega) hr (not_not.mp hpid)).moves
    · cases h
  · cases h

theorem moves_recovered (h : s.recovered = some s') : Moves s e s' := by
  unfold recovered at h
  split at h
  · rename_i r hc
    cases h
    exact (Move.rests (by rw [hc]; rfl) rfl).moves
  · cases h

theorem moves_sendUnloaded (h : s.sendUnloaded = some s') : Moves s e s' := by
  unfold sendUnloaded at h
  split at h
  · rename_i hc
    split at h <;> cases h
    exact ⟨_, .rests (c := .select) (by rw [hc]; rfl) rfl, { Quiet.refl _ with }⟩
  · cases h

theorem moves_finish {q : Nat} (h : s.finish q = some s') : Moves s e s' := by
  unfold finish at h
  split at h <;> cases h
  rename_i hq
  exact (Move.finishes hq.1).moves

/-! ## Steps -/

theorem moves_of_step (h : s.step e = some s') : Moves s e s' := by
  have h : s.stepEvent e = some s' := by
    unfold step at h
    split at h
    · cases h
    · exact h
  cases e with
  | getRunner req vision =>
    cases h
    exact moves_getRunner s req vision
  | caller q ping => exact moves_stepCaller h
  | cancel q =>
    cases h
    refine Quiet.moves { Quiet.refl s with ctxDone := fun q' hq' => ?_ }
    simp only [Function.update_apply]
    split
    · rfl
    · exact hq'
  | shutdown =>
    cases h
    exact Quiet.moves { Quiet.refl s with done := fun _ => rfl }
  | takePending => exact moves_takePending h
  | stopPending => exact moves_stopPending h
  | takeUnloaded => exact moves_takeUnloaded h
  | lookupPending => exact moves_lookupPending h
  | checkPending ping => exact moves_checkPending h
  | usePending => exact moves_usePending h
  | refreshPending gpus opened => exact moves_refreshPending h
  | armPending => exact moves_armPending h
  | servePending created => exact moves_servePending h
  | fitPending res => exact moves_fitPending h
  | publishPending => exact moves_publishPending h
  | gatherPending order => exact moves_gatherPending h
  | scanPending => exact moves_scanPending h
  | expirePending => exact moves_expirePending h
  | loader q r res => exact moves_stepLoader h
  | stopCompleted => exact moves_stopCompleted h
  | takeFinished => exact moves_takeFinished h
  | lookupFinished => exact moves_lookupFinished h
  | decrementFinished => exact moves_decrementFinished h
  | takeExpired => exact moves_takeExpired h
  | expireCompleted => exact moves_expireCompleted h
  | recovered => exact moves_recovered h
  | sendUnloaded => exact moves_sendUnloaded h
  | finish q => exact moves_finish h
  | fire r => exact (quiet_fire h).moves
  | callback r => exact (quiet_callback h).moves
  | sender r => exact (quiet_stepSender h).moves
  | expireRunner m =>
    cases h
    exact (quiet_expireRunner s m).moves
  | expirer r => exact (quiet_stepExpirer h).moves

end Scheduler

end Xdragon.Server
