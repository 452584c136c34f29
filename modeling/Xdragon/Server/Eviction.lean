import Xdragon.Server.Replies

/-!
# The eviction loop

`activeLoading` outlives one round of the loop of `processPending`. Every exit of the loop clears it, except for
an error of `LoadModel` in a later round. There are never more runners than `maxRunners`.
-/

namespace Xdragon.Server

open Xdragon.Lib

namespace Scheduler

variable {s s' : Scheduler} {e : Event}

/-! ## Before the model is loaded -/

/-- While `processPending` loads a model, no runner has its key. -/
structure Vacant (s : Scheduler) : Prop where
  idle : ∀ q, s.pending.loading = true → s.pending.request = some q → s.loaded.lookup (s.request q).key = none
  llama : ∀ q, s.pending.llama = true → s.pending.request = some q → (s.request q).model.mlx = false

theorem Vacant.quiet (h : Vacant s) (hq : Quiet s s') : Vacant s' := by
  refine ⟨fun q hl hr => ?_, fun q hl hr => ?_⟩
  · rw [hq.pending] at hl hr
    rw [hq.loaded, hq.request]
    exact h.idle q hl hr
  · rw [hq.pending] at hl hr
    rw [hq.request]
    exact h.llama q hl hr

theorem vacant_of_not_loading (hload : s.pending.loading = false) (hllama : s.pending.llama = false) : Vacant s :=
  ⟨fun q hl => absurd hl (by rw [hload]; nofun), fun q hl => absurd hl (by rw [hllama]; nofun)⟩

/-- A request that `processPending` has is not the next one. -/
theorem Answered.request_of_pending (h : Answered s) {q : Nat} (hq : s.pending.request = some q) (req : LlmRequest) :
    Function.update s.request s.requests req q = s.request q :=
  Function.update_of_ne (h.lt_of_holders (holders_pos_of_pending hq)).ne _ _

theorem lookup_erase_eq_none {k : String} (k' : String) (h : s.loaded.lookup k = none) :
    (s.loaded.erase k').lookup k = none := by
  by_cases hk : k = k'
  · rw [hk]
    exact AList.lookup_erase _ _
  · rw [AList.lookup_erase_ne hk]
    exact h

theorem Vacant.move (h : Vacant s) (ha : Answered s) (hm : Move s e s') : Vacant s' := by
  cases hm with
  | request req c hc =>
    refine ⟨fun q hl hr => ?_, fun q hl hr => ?_⟩
    · dsimp only
      rw [ha.request_of_pending hr]
      exact h.idle q hl hr
    · dsimp only
      rw [ha.request_of_pending hr]
      exact h.llama q hl hr
  | @turns _ q p hq hp hplain hload hllama =>
    refine ⟨fun q' hl hr => ?_, fun q' hl hr => ?_⟩
    · have hqq : q = q' := Option.some.inj (hp.symm.trans hr)
      subst hqq
      exact (hload hl).elim (fun hl => h.idle q hl hq) id
    · have hqq : q = q' := Option.some.inj (hp.symm.trans hr)
      subst hqq
      exact (hllama hl).elim (fun hl => h.llama q hl hq) id
  | @serves _ q full hp hact =>
    refine ⟨fun q' hl hr => ?_, fun q' hl hr => ?_⟩
    · exact h.idle q' (by rw [hp]; rfl) (by rw [hp]; exact hr)
    · exact h.llama q' (by rw [hp]; rfl) (by rw [hp]; exact hr)
  | unloads =>
    exact ⟨fun q hl hr => lookup_erase_eq_none _ (h.idle q hl hr), h.llama⟩
  | takes => exact vacant_of_not_loading rfl rfl
  | stops => exact vacant_of_not_loading rfl rfl
  | finds => exact vacant_of_not_loading rfl rfl
  | checks => exact vacant_of_not_loading rfl rfl
  | uses => exact vacant_of_not_loading rfl rfl
  | unread => exact vacant_of_not_loading rfl rfl
  | opens => exact vacant_of_not_loading rfl rfl
  | arms => exact vacant_of_not_loading rfl rfl
  | panics => exact vacant_of_not_loading rfl rfl
  | fails => exact vacant_of_not_loading rfl rfl
  | publishes => exact vacant_of_not_loading rfl rfl
  | replaces => exact vacant_of_not_loading rfl rfl
  | stay => exact h
  | callerChecks => exact ⟨h.idle, h.llama⟩
  | callerFails => exact ⟨h.idle, h.llama⟩
  | callerUses => exact ⟨h.idle, h.llama⟩
  | callerQueues => exact ⟨h.idle, h.llama⟩
  | callerBusy => exact ⟨h.idle, h.llama⟩
  | skips => exact ⟨h.idle, h.llama⟩
  | loadFails => exact ⟨h.idle, h.llama⟩
  | loadEnds => exact ⟨h.idle, h.llama⟩
  | rests => exact ⟨h.idle, h.llama⟩
  | takesFinished => exact ⟨h.idle, h.llama⟩
  | losesFinished => exact ⟨h.idle, h.llama⟩
  | findsFinished => exact ⟨h.idle, h.llama⟩
  | decrements => exact ⟨h.idle, h.llama⟩
  | orphans => exact ⟨h.idle, h.llama⟩
  | finishes => exact ⟨h.idle, h.llama⟩

theorem vacant_initial (h : Initial s) : Vacant s := by
  obtain ⟨maxQueue, keepAlive, maxRunners, rfl⟩ := h
  exact vacant_of_not_loading rfl rfl

/-! ## The server that is loading -/

/-- The server belongs to the request that `processPending` has, and its model is not loaded. -/
structure Reserved (s : Scheduler) (path : String) (q : Nat) : Prop where
  request : s.pending.request = some q
  target : s.pending.target = none
  path : (s.request q).model.modelPath = path
  mlx : (s.request q).model.mlx = false
  vacant : s.loaded.lookup (s.request q).key = none

structure Settled (s : Scheduler) : Prop where
  active : ∀ path, s.activeLoading = some path → s.pending = .stopped ∨ ∃ q, Reserved s path q
  calm : ∀ q, s.pending ≠ .panicked q

/-- `LoadModel` does not fail while a server is loading. -/
def Readable (s : Scheduler) : Event → Prop
  | .refreshPending _ (some _) => match s.pending with
    | .refresh q _ => (s.request q).model.mlx = true ∨ s.activeLoading = none
    | _ => True
  | _ => True

instance (s : Scheduler) (e : Event) : Decidable (Readable s e) := by
  unfold Readable
  split
  · split <;> infer_instance
  · infer_instance

theorem Settled.quiet (h : Settled s) (hq : Quiet s s') : Settled s' := by
  refine ⟨fun path hact => ?_, fun q => ?_⟩
  · rw [hq.activeLoading] at hact
    rw [hq.pending]
    refine (h.active path hact).imp_right fun ⟨q, hres⟩ => ⟨q, ?_⟩
    exact ⟨by rw [hq.pending]; exact hres.request, by rw [hq.pending]; exact hres.target,
      by rw [hq.request]; exact hres.path, by rw [hq.request]; exact hres.mlx,
      by rw [hq.loaded, hq.request]; exact hres.vacant⟩
  · rw [hq.pending]
    exact h.calm q

/-- A request that finds, uses or arms a runner has no server. -/
theorem Settled.inactive (h : Settled s) (hstop : s.pending ≠ .stopped)
    (htarget : ∀ q, s.pending.request = some q → s.pending.target ≠ none) : s.activeLoading = none := by
  rcases hact : s.activeLoading with _ | path
  · rfl
  · rcases h.active path hact with hs | ⟨q, hres⟩
    · exact absurd hs hstop
    · exact absurd hres.target (htarget q hres.request)

theorem Settled.inactive_of_select (h : Settled s) (hp : s.pending = .select) : s.activeLoading = none :=
  h.inactive (by rw [hp]; nofun) (by rw [hp]; nofun)

theorem Settled.reserved (h : Settled s) {q : Nat} {path : String} (hq : s.pending.request = some q)
    (hact : s.activeLoading = some path) : Reserved s path q := by
  rcases h.active path hact with hs | ⟨q', hres⟩
  · rw [hs] at hq
    cases hq
  · have hqq : q' = q := Option.some.inj (hres.request.symm.trans hq)
    exact hqq ▸ hres

/-- Nothing is loading afterwards. -/
theorem settled_of_inactive (hact : s.activeLoading = none) (hp : ∀ q, s.pending ≠ .panicked q) : Settled s :=
  ⟨fun _ h => absurd (hact.symm.trans h) nofun, hp⟩

theorem Settled.move (h : Settled s) (ha : Answered s) (hv : Vacant s) (hok : Readable s e) (hm : Move s e s') :
    Settled s' := by
  have hsame : ∀ {s' : Scheduler}, s'.activeLoading = s.activeLoading → s'.pending = s.pending →
      s'.request = s.request → s'.loaded = s.loaded → Settled s' := by
    intro s' h1 h2 h3 h4
    refine ⟨fun path hact => ?_, fun q => h2 ▸ h.calm q⟩
    rw [h2]
    refine (h.active path (h1 ▸ hact)).imp_right fun ⟨q, hres⟩ => ⟨q, ?_⟩
    exact ⟨h2 ▸ hres.request, h2 ▸ hres.target, h3 ▸ hres.path, h3 ▸ hres.mlx, by rw [h3, h4]; exact hres.vacant⟩
  cases hm with
  | request req c hc =>
    refine ⟨fun path hact => (h.active path hact).imp_right fun ⟨q, hres⟩ => ⟨q, ?_⟩, h.calm⟩
    have hq := ha.request_of_pending hres.request req
    exact ⟨hres.request, hres.target, by dsimp only; rw [hq]; exact hres.path, by dsimp only; rw [hq]; exact hres.mlx,
      by dsimp only; rw [hq]; exact hres.vacant⟩
  | takes hp => exact settled_of_inactive (h.inactive_of_select hp) nofun
  | stops => exact ⟨fun _ _ => .inl rfl, nofun⟩
  | @turns _ q p hq hpq hplain =>
    have hpanic : ∀ q, p ≠ .panicked q := by
      rintro q rfl
      cases hplain
    have htarget : p.target = none := by
      unfold Pending.plain at hplain
      split at hplain
      · cases hplain
      · exact Option.isNone_iff_eq_none.mp hplain
    refine ⟨fun path hact => .inr ⟨q, ?_⟩, hpanic⟩
    have hres := h.reserved hq hact
    exact ⟨hpq, htarget, hres.path, hres.mlx, hres.vacant⟩
  | @finds _ q r hp hr =>
    refine settled_of_inactive ?_ nofun
    rcases hact : s.activeLoading with _ | path
    · rfl
    · have hres := h.reserved (q := q) (by rw [hp]; rfl) hact
      rw [hres.vacant] at hr
      cases hr
  | checks hp => exact settled_of_inactive (h.inactive (by rw [hp]; nofun) (by rw [hp]; nofun)) nofun
  | uses hp => exact settled_of_inactive (h.inactive (by rw [hp]; nofun) (by rw [hp]; nofun)) nofun
  | arms hp => exact settled_of_inactive (h.inactive (by rw [hp]; nofun) (by rw [hp]; nofun)) nofun
  | @unread _ err q n hp =>
    refine settled_of_inactive ?_ nofun
    simp only [Readable, hp] at hok
    rcases hact : s.activeLoading with _ | path
    · exact hact
    · have hres := h.reserved (q := q) (by rw [hp]; rfl) hact
      rw [hres.mlx, hact] at hok
      rcases hok with hok | hok <;> cases hok
  | @opens _ q n x hp hmlx =>
    refine settled_of_inactive ?_ nofun
    rcases hact : s.activeLoading with _ | path
    · exact hact
    · have hres := h.reserved (q := q) (by rw [hp]; rfl) hact
      rw [hres.mlx] at hmlx
      cases hmlx
  | @serves _ q full hp hact =>
    refine ⟨fun path hpath => .inr ⟨q, rfl, rfl, Option.some.inj hpath, ?_, ?_⟩, nofun⟩
    · exact hv.llama q (by rw [hp]; rfl) (by rw [hp]; rfl)
    · exact hv.idle q (by rw [hp]; rfl) (by rw [hp]; rfl)
  | @panics _ q full path hp hact hne =>
    have hres := h.reserved (q := q) (by rw [hp]; rfl) hact
    exact absurd hres.path.symm hne
  | fails => exact settled_of_inactive rfl nofun
  | publishes => exact settled_of_inactive rfl nofun
  | replaces => exact settled_of_inactive rfl nofun
  | unloads =>
    refine ⟨fun path hact => (h.active path hact).imp_right fun ⟨q, hres⟩ => ⟨q, ?_⟩, h.calm⟩
    exact ⟨hres.request, hres.target, hres.path, hres.mlx, lookup_erase_eq_none _ hres.vacant⟩
  | stay => exact h
  | callerChecks => exact hsame rfl rfl rfl rfl
  | callerFails => exact hsame rfl rfl rfl rfl
  | callerUses => exact hsame rfl rfl rfl rfl
  | callerQueues => exact hsame rfl rfl rfl rfl
  | callerBusy => exact hsame rfl rfl rfl rfl
  | skips => exact hsame rfl rfl rfl rfl
  | loadFails => exact hsame rfl rfl rfl rfl
  | loadEnds => exact hsame rfl rfl rfl rfl
  | rests => exact hsame rfl rfl rfl rfl
  | takesFinished => exact hsame rfl rfl rfl rfl
  | losesFinished => exact hsame rfl rfl rfl rfl
  | findsFinished => exact hsame rfl rfl rfl rfl
  | decrements => exact hsame rfl rfl rfl rfl
  | orphans => exact hsame rfl rfl rfl rfl
  | finishes => exact hsame rfl rfl rfl rfl

/-! ## Runs -/

theorem vacant_of_reaches {ok : Scheduler → Event → Prop} (h : Reaches Scheduler.step ok Initial s) :
    Answered s ∧ Vacant s := by
  refine h.invariant (I := fun s => Answered s ∧ Vacant s) (fun s hs => ⟨answered_initial hs, vacant_initial hs⟩) ?_
  intro s e s' hs _ hstep
  obtain ⟨s₁, hm, hq⟩ := moves_of_step hstep
  exact ⟨hs.1.step hstep, (hs.2.move hs.1 hm).quiet hq⟩

theorem settled_of_reaches (h : Reaches Scheduler.step Readable Initial s) : Settled s := by
  induction h with
  | init hi =>
    obtain ⟨maxQueue, keepAlive, maxRunners, rfl⟩ := hi
    exact settled_of_inactive rfl nofun
  | step e hr hok hs ih =>
    obtain ⟨ha, hv⟩ := vacant_of_reaches hr
    obtain ⟨s₁, hm, hq⟩ := moves_of_step hs
    exact (ih.move ha hv hok hm).quiet hq

/-- No server is loading when `processPending` takes a request, and no other server is in its way. -/
def OneAtATime (s : Scheduler) : Prop :=
  (s.pending = .select → s.activeLoading = none) ∧
    (∀ q full path, s.pending = .serve q full → s.activeLoading = some path →
      path = (s.request q).model.modelPath) ∧ ∀ q, s.pending ≠ .panicked q

/-- As long as `LoadModel` does not fail while a server is loading, no request finds the server of another one. -/
theorem loading_one_at_a_time (h : Reaches Scheduler.step Readable Initial s) : OneAtATime s := by
  have hs := settled_of_reaches h
  refine ⟨hs.inactive_of_select, fun q full path hp hact => ?_, hs.calm⟩
  exact (hs.reserved (by rw [hp]; rfl) hact).path.symm

/-- The first model is evicted for the second one, and then the second one does not load either. -/
def evictingRun : List Event :=
  [.getRunner { model := { modelPath := "a" } } false, .caller 0 true, .takePending, .lookupPending,
    .refreshPending 1 none, .servePending none, .fitPending (.ok 7), .publishPending, .loader 0 0 (.ok 7),
    .getRunner { model := { modelPath := "b" } } false, .caller 1 true, .takePending, .lookupPending,
    .refreshPending 1 none, .servePending none, .fitPending (.requiredFull "full"), .gatherPending [0], .scanPending,
    .scanPending, .expirePending, .cancel 0, .finish 0, .takeFinished, .lookupFinished, .decrementFinished,
    .takeExpired, .expireCompleted, .recovered, .sendUnloaded, .takeUnloaded, .lookupPending]

theorem evictingRun_one_at_a_time : ∃ s : Scheduler, Reaches Scheduler.step Readable Initial s ∧
    s.pending = .select ∧ s.replies 1 = [.error "full"] ∧ OneAtATime s := by
  let s := (exec Scheduler.step { maxQueue := 512, keepAlive := 300, maxRunners := 0 } (evictingRun ++
    [Event.refreshPending 1 none, .servePending none, .fitPending (.requiredFull "full")])).get (by decide)
  have hs : Reaches Scheduler.step Readable Initial s :=
    reaches_of_exec (Reaches.init ⟨_, _, _, rfl⟩) (by decide) (Option.some_get _).symm
  exact ⟨s, hs, by decide, by decide, loading_one_at_a_time hs⟩

/-- The file of the second model is gone in the second round, and its server meets the request for a third model. -/
theorem evictingRun_panics : ∃ s : Scheduler, Reaches Scheduler.step (fun _ _ => True) Initial s ∧ ¬ OneAtATime s := by
  let s := (exec Scheduler.step { maxQueue := 512, keepAlive := 300, maxRunners := 0 } (evictingRun ++
    [Event.refreshPending 1 (some "no such file"), .getRunner { model := { modelPath := "c" } } false, .caller 2 true,
      .takePending, .lookupPending, .refreshPending 1 none, .servePending none])).get (by decide)
  have hs : Reaches Scheduler.step (fun _ _ => True) Initial s :=
    reaches_of_exec (Reaches.init ⟨_, _, _, rfl⟩) (by decide) (Option.some_get _).symm
  have hp : s.pending = .panicked 2 := by decide
  exact ⟨s, hs, fun h => h.2.2 2 hp⟩

/-- No other runner takes the place of a loaded one: it stays until an expired event takes it away. -/
theorem loaded_until_expired (h : Reaches Scheduler.step (fun _ _ => True) Initial s) (hs : s.step e = some s')
    {k : String} {r : Nat} (hk : s.loaded.lookup k = some r) :
    s'.loaded.lookup k = some r ∨ e = .expireCompleted ∧ s'.loaded.lookup k = none := by
  obtain ⟨s₁, hm, hq⟩ := moves_of_step hs
  have hv := (vacant_of_reaches h).2.idle
  have hnew {key : String} (hnone : s.loaded.lookup key = none) (n : Nat) : (s.loaded.insert key n).lookup k = some r := by
    rw [AList.lookup_insert_ne, hk]
    rintro rfl
    cases hk.symm.trans hnone
  rw [hq.loaded]
  cases hm with
  | opens hp _ hx => exact .inl (hnew (hx.modelKey ▸ hv _ (by rw [hp]; rfl) (by rw [hp]; rfl)) _)
  | publishes hp hnone hx => exact .inl (hnew (hx.modelKey ▸ hnone) _)
  | replaces hp hold => cases (hv _ (by rw [hp]; rfl) (by rw [hp]; rfl)).symm.trans hold
  | @unloads r₁ =>
    by_cases hkey : k = (s.runner r₁).modelKey
    · exact .inr ⟨rfl, hkey ▸ AList.lookup_erase _ _⟩
    · exact .inl ((AList.lookup_erase_ne hkey).trans hk)
  | _ => exact .inl hk

theorem evictingRun_expires : ∃ s s' : Scheduler, s.step .expireCompleted = some s' ∧ s'.loaded.lookup "a" = none := by
  let s := (exec Scheduler.step { maxQueue := 512, keepAlive := 300, maxRunners := 0 } (evictingRun.take 26)).get (by decide)
  have hs : Reaches Scheduler.step (fun _ _ => True) Initial s :=
    reaches_of_exec (Reaches.init ⟨_, _, _, rfl⟩) (by decide) (Option.some_get _).symm
  have hstep : s.step .expireCompleted = some _ := (Option.some_get (by decide)).symm
  have hk : s.loaded.lookup "a" = some 0 := by decide
  exact ⟨s, _, hstep, (loaded_until_expired hs hstep hk).elim (fun h => absurd h (by decide)) And.right⟩

/-! ## The number of runners -/

/-- There is room for the runners, and for the one that `processPending` is going to load. `m` is the number that is
configured, if any. -/
structure Fits (m : Nat) (s : Scheduler) : Prop where
  le : s.loaded.entries.length ≤ s.maxRunners
  kept : m ≠ 0 → s.maxRunners = m
  lt : s.pending.loading = true → s.maxRunners ≠ 0 → s.loaded.entries.length < s.maxRunners
  set : s.pending.llama = true → s.maxRunners ≠ 0

variable {m : Nat}

theorem fits_of_not_loading (hle : s.loaded.entries.length ≤ s.maxRunners) (hkept : m ≠ 0 → s.maxRunners = m)
    (hload : s.pending.loading = false) (hllama : s.pending.llama = false) : Fits m s :=
  ⟨hle, hkept, fun h => absurd (hload.symm.trans h) Bool.false_ne_true,
    fun h => absurd (hllama.symm.trans h) Bool.false_ne_true⟩

theorem length_erase_le (key : String) (l : AList fun _ : String => Nat) :
    (l.erase key).entries.length ≤ l.entries.length := (List.kerase_sublist key l.entries).length_le

theorem length_publishRunner_le (s : Scheduler) (x : RunnerRef) :
    (s.publishRunner x).loaded.entries.length ≤ s.loaded.entries.length + 1 := by
  unfold publishRunner
  rw [AList.entries_insert, List.length_cons]
  exact Nat.succ_le_succ (length_erase_le x.modelKey s.loaded)

/-- No runner is added, and `processPending` is not closer to one. -/
def Sheds (s s' : Scheduler) : Prop :=
  s'.maxRunners = s.maxRunners ∧ s'.loaded.entries.length ≤ s.loaded.entries.length ∧
    (s'.pending.loading = true → s.pending.loading = true) ∧ (s'.pending.llama = true → s.pending.llama = true)

/-- Only three steps of `processPending` add a runner or lead to one. -/
theorem sheds_stepEvent (h : s.stepEvent e = some s') :
    e = .lookupPending ∨ (∃ gpus opened, e = .refreshPending gpus opened) ∨ e = .publishPending ∨ Sheds s s' := by
  cases e with
  | lookupPending => exact .inl rfl
  | refreshPending gpus opened => exact .inr (.inl ⟨gpus, opened, rfl⟩)
  | publishPending => exact .inr (.inr (.inl rfl))
  | getRunner | cancel | shutdown =>
    cases h
    exact .inr (.inr (.inr ⟨rfl, le_rfl, id, id⟩))
  | _ =>
    -- each of them writes other fields, or goes on to a state that is no further
    refine .inr (.inr (.inr ?_))
    simp only [stepEvent] at h
    grind [Sheds, Pending.loading, Pending.llama, modifyRunner, reply, sendExpired, expireIdle, useLoadedRunner,
      stepCaller, takePending, stopPending, takeUnloaded, checkPending, usePending, armPending, servePending,
      fitPending, gatherPending, scanPending, expirePending, stepLoader, stopCompleted, takeFinished, lookupFinished,
      decrementFinished, takeExpired, expireCompleted, length_erase_le, recovered, sendUnloaded, finish, fire,
      callback, stepSender, expireRunner, stepExpirer]

theorem Fits.sheds (hf : Fits m s) (hs : Sheds s s') : Fits m s' := by
  obtain ⟨hmax, hlen, hloading, hllama⟩ := hs
  refine ⟨hmax ▸ hlen.trans hf.le, fun hm => hmax.trans (hf.kept hm), fun hl hm => ?_, fun hl => hmax ▸ hf.set (hllama hl)⟩
  rw [hmax] at hm ⊢
  exact hlen.trans_lt (hf.lt (hloading hl) hm)

theorem Fits.lookupPending (hf : Fits m s) (h : s.lookupPending = some s') : Fits m s' := by
  unfold Scheduler.lookupPending at h
  split at h
  · cases h
    split
    · exact fits_of_not_loading hf.le hf.kept rfl rfl
    · split
      · exact fits_of_not_loading hf.le hf.kept rfl rfl
      · rename_i hroom
        exact ⟨hf.le, hf.kept, fun _ h0 => lt_of_not_ge fun hge => hroom ⟨Nat.pos_of_ne_zero h0, hge⟩,
          fun hl => absurd hl Bool.false_ne_true⟩
  · cases h

theorem Fits.refreshPending {gpus : Nat} {opened : Option String} (hf : Fits m s)
    (h : s.refreshPending gpus opened = some s') : Fits m s' := by
  unfold Scheduler.refreshPending at h
  split at h
  · rename_i q n hp
    have hlt := hf.lt (by rw [hp]; rfl)
    have hle := hf.le
    dsimp only at h
    generalize hk : (if s.maxRunners = 0 then defaultModelsPerGPU * max gpus 1 else s.maxRunners) = k at h
    -- the number that the scheduler chooses is at least three
    have hroom : s.loaded.entries.length < k := by
      rw [← hk, defaultModelsPerGPU]
      split <;> omega
    have hkept (hm : m ≠ 0) : k = m := by rw [← hk, if_neg (hf.kept hm ▸ hm), hf.kept hm]
    split at h
    · cases h
      exact fits_of_not_loading hroom.le hkept rfl rfl
    · split at h <;> cases h
      · exact fits_of_not_loading ((length_publishRunner_le s _).trans hroom) hkept rfl rfl
      · exact ⟨hroom.le, hkept, fun _ _ => hroom, fun _ => Nat.ne_zero_of_lt hroom⟩
  · cases h

theorem Fits.publishPending (hf : Fits m s) (h : s.publishPending = some s') : Fits m s' := by
  unfold Scheduler.publishPending at h
  split at h
  · rename_i q pid hp
    have hlt := hf.lt (by rw [hp]; rfl) (hf.set (by rw [hp]; rfl))
    dsimp only at h
    split at h
    · cases h
      exact fits_of_not_loading ((length_publishRunner_le s _).trans hlt) hf.kept rfl rfl
    · split at h <;> cases h
      exact fits_of_not_loading ((length_publishRunner_le (s.modifyRunner _ _) _).trans hlt) hf.kept rfl rfl
  · cases h

theorem Fits.step (hf : Fits m s) (h : s.step e = some s') : Fits m s' := by
  have h : s.stepEvent e = some s' := by
    unfold Scheduler.step at h
    split at h
    · cases h
    · exact h
  obtain rfl | ⟨gpus, opened, rfl⟩ | rfl | hs := sheds_stepEvent h
  · exact hf.lookupPending h
  · exact hf.refreshPending h
  · exact hf.publishPending h
  · exact hf.sheds hs

/-- The configuration allows `m` runners, where 0 leaves the number to the scheduler. -/
def Allows (m : Nat) (s : Scheduler) : Prop := Initial s ∧ s.maxRunners = m

/-- Never more runners are loaded than the configuration allows, or than the scheduler chose in its place. -/
theorem loaded_le_maxRunners (h : Reaches Scheduler.step (fun _ _ => True) (Allows m) s) :
    s.loaded.entries.length ≤ s.maxRunners ∧ (m ≠ 0 → s.maxRunners = m) := by
  have hf : Fits m s := by
    refine h.invariant (fun s hs => ?_) fun s e s' hf _ hs => hf.step hs
    obtain ⟨⟨maxQueue, keepAlive, maxRunners, rfl⟩, hm⟩ := hs
    exact fits_of_not_loading (Nat.zero_le _) (fun _ => hm) rfl rfl
  exact ⟨hf.le, hf.kept⟩

/-- One runner is allowed, and the second request waits for room. -/
theorem evictingRun_loaded_le : ∃ s : Scheduler, Reaches Scheduler.step (fun _ _ => True) (Allows 1) s ∧
    s.pending = .room 1 ∧ s.loaded.entries.length ≤ 1 := by
  let s := (exec Scheduler.step { maxQueue := 512, keepAlive := 300, maxRunners := 1 } (evictingRun.take 13)).get (by decide)
  have hs : Reaches Scheduler.step (fun _ _ => True) (Allows 1) s :=
    reaches_of_exec (Reaches.init ⟨⟨_, _, _, rfl⟩, rfl⟩) (by decide) (Option.some_get _).symm
  obtain ⟨hle, hkept⟩ := loaded_le_maxRunners hs
  exact ⟨s, hs, by decide, hkept (by decide) ▸ hle⟩

end Scheduler

end Xdragon.Server
