import Xdragon.Server.Eviction

/-!
# Expired events

An expired event can come twice, and its runner can have a successor by then. The two are told apart by their
pids, which the runners of `loadMLX` do not have.
-/

namespace Xdragon.Server

open Xdragon.Lib

namespace Scheduler

variable {s s' : Scheduler} {e : Event}

/-- The map has exactly the runners that are not unloaded. -/
structure Kept (s : Scheduler) : Prop where
  keys : ∀ k r, s.loaded.lookup k = some r →
    r < s.runners ∧ (s.runner r).modelKey = k ∧ ¬ (s.runner r).unloaded
  present : ∀ r, r < s.runners → ¬ (s.runner r).unloaded → s.loaded.lookup (s.runner r).modelKey = some r

/-- An expired event of an idle runner finds the runner itself, or one with another pid. -/
def OwnPid (s : Scheduler) : Event → Prop
  | .expireCompleted => match s.completed with
    | .expired r => match s.loaded.lookup (s.runner r).modelKey with
      | some r' => r' = r ∨ (s.runner r).pid ≠ (s.runner r').pid ∨ 0 < (s.runner r).refCount
      | none => True
    | _ => True
  | _ => True

instance (s : Scheduler) (e : Event) : Decidable (OwnPid s e) := by
  unfold OwnPid
  split
  · split
    · split <;> infer_instance
    · infer_instance
  · infer_instance

/-! ## Moves -/

theorem Kept.same (h : Kept s) (hconf : ∀ r, (s'.runner r).config = (s.runner r).config)
    (hkey : ∀ r, (s'.runner r).modelKey = (s.runner r).modelKey) (hl : s'.loaded = s.loaded := by rfl)
    (hr : s'.runners = s.runners := by rfl) : Kept s' := by
  refine ⟨fun k r hk => ?_, fun r hlt hu => ?_⟩
  · rw [hl] at hk
    rw [hr, hkey, RunnerRef.unloaded, hconf]
    exact h.keys k r hk
  · rw [hl, hkey]
    rw [hr] at hlt
    rw [RunnerRef.unloaded, hconf] at hu
    exact h.present r hlt hu

theorem Kept.quiet (h : Kept s) (hq : Quiet s s') : Kept s' := h.same hq.config hq.modelKey hq.loaded hq.runners

/-- A new runner whose key is not in the map. -/
theorem Kept.publishRunner (h : Kept s) {q : Nat} {x : RunnerRef} (hx : NewRunner s q x)
    (hnone : s.loaded.lookup (s.request q).key = none) : Kept (s.publishRunner x) := by
  have hold : ∀ r, r < s.runners → (s.publishRunner x).runner r = s.runner r :=
    fun r hr => Function.update_of_ne hr.ne _ _
  have hnew : (s.publishRunner x).runner s.runners = x := Function.update_self ..
  refine ⟨fun k r hk => ?_, fun r hlt hu => ?_⟩
  · by_cases hkey : k = x.modelKey
    · rw [hkey] at hk
      have hr : s.runners = r := Option.some.inj ((AList.lookup_insert s.loaded).symm.trans hk)
      rw [← hr, hnew, hkey]
      exact ⟨Nat.lt_succ_self _, rfl, hx.config⟩
    · have hk : s.loaded.lookup k = some r := (AList.lookup_insert_ne hkey).symm.trans hk
      obtain ⟨hlt, hkeys⟩ := h.keys k r hk
      rw [hold r hlt]
      exact ⟨Nat.lt_succ_of_lt hlt, hkeys⟩
  · rcases Nat.lt_succ_iff_lt_or_eq.mp hlt with hlt | rfl
    · rw [hold r hlt] at hu ⊢
      have hp := h.present r hlt hu
      have hne : (s.runner r).modelKey ≠ x.modelKey := by
        intro heq
        rw [heq, hx.modelKey, hnone] at hp
        cases hp
      exact (AList.lookup_insert_ne hne).trans hp
    · rw [hnew]
      exact AList.lookup_insert s.loaded

theorem runner_unload (s : Scheduler) (r r' : Nat) :
    (s.modifyRunner r RunnerRef.unload).runner r' = if r' = r then (s.runner r).unload else s.runner r' :=
  runner_modifyRunner s r _ r'

theorem modelKey_unload (s : Scheduler) (r r' : Nat) :
    ((s.modifyRunner r RunnerRef.unload).runner r').modelKey = (s.runner r').modelKey := by
  rw [runner_unload]
  split
  · rename_i h
    rw [h]
    rfl
  · rfl

theorem not_unloaded_unload {r r' : Nat} :
    ¬ ((s.modifyRunner r RunnerRef.unload).runner r').unloaded ↔ r' ≠ r ∧ ¬ (s.runner r').unloaded := by
  rw [runner_unload]
  split
  · rename_i h
    exact ⟨fun hu => absurd rfl hu, fun hu => absurd h hu.1⟩
  · rename_i h
    exact ⟨fun hu => ⟨h, hu⟩, fun hu => hu.2⟩

/-- A runner that another one has replaced is unloaded once more. -/
theorem Kept.orphan (h : Kept s) {r r' : Nat} (hr : s.loaded.lookup (s.runner r).modelKey = some r') (hne : r' ≠ r)
    (c : Completed) : Kept { s.modifyRunner r RunnerRef.unload with completed := c } := by
  refine ⟨fun k r'' hk => ?_, fun r'' hlt hu => ?_⟩
  · obtain ⟨hlt, hkey, hu⟩ := h.keys k r'' hk
    refine ⟨hlt, (modelKey_unload s r r'').trans hkey, not_unloaded_unload.mpr ⟨?_, hu⟩⟩
    rintro rfl
    have hk : s.loaded.lookup k = some r'' := hk
    rw [← hkey, hr] at hk
    exact hne (Option.some.inj hk)
  · obtain ⟨hne', hu⟩ := not_unloaded_unload.mp hu
    show s.loaded.lookup ((s.modifyRunner r RunnerRef.unload).runner r'').modelKey = some r''
    rw [modelKey_unload]
    exact h.present r'' hlt hu

/-- The runner leaves the map in the same section. -/
theorem Kept.unload (h : Kept s) {r : Nat} (hr : s.loaded.lookup (s.runner r).modelKey = some r) (c : Completed) :
    Kept { s.modifyRunner r RunnerRef.unload with
      loaded := s.loaded.erase (s.runner r).modelKey, completed := c } := by
  refine ⟨fun k r' hk => ?_, fun r' hlt hu => ?_⟩
  · have hk : (s.loaded.erase (s.runner r).modelKey).lookup k = some r' := hk
    have hne : k ≠ (s.runner r).modelKey := by
      rintro rfl
      rw [AList.lookup_erase] at hk
      cases hk
    rw [AList.lookup_erase_ne hne] at hk
    obtain ⟨hlt, hkey, hu⟩ := h.keys k r' hk
    refine ⟨hlt, (modelKey_unload s r r').trans hkey, not_unloaded_unload.mpr ⟨?_, hu⟩⟩
    rintro rfl
    exact hne hkey.symm
  · obtain ⟨hne, hu⟩ := not_unloaded_unload.mp hu
    have hp := h.present r' hlt hu
    show (s.loaded.erase (s.runner r).modelKey).lookup
      ((s.modifyRunner r RunnerRef.unload).runner r').modelKey = some r'
    rw [modelKey_unload, AList.lookup_erase_ne]
    · exact hp
    · intro heq
      rw [heq, hr] at hp
      exact hne (Option.some.inj hp).symm

/-- Another count leaves the rest of the runner as it is. -/
def recount (f : Nat → Nat) (x : RunnerRef) : RunnerRef := { x with refCount := f x.refCount }

theorem config_recount (s : Scheduler) (r : Nat) (f : Nat → Nat) (r' : Nat) :
    ((s.modifyRunner r (recount f)).runner r').config = (s.runner r').config := by
  rw [runner_modifyRunner]
  split
  · rename_i h
    rw [h]
    rfl
  · rfl

theorem modelKey_recount (s : Scheduler) (r : Nat) (f : Nat → Nat) (r' : Nat) :
    ((s.modifyRunner r (recount f)).runner r').modelKey = (s.runner r').modelKey := by
  rw [runner_modifyRunner]
  split
  · rename_i h
    rw [h]
    rfl
  · rfl

theorem config_lend (s : Scheduler) (q r r' : Nat) : ((s.lend q r).runner r').config = (s.runner r').config :=
  config_recount s r (· + 1) r'

theorem modelKey_lend (s : Scheduler) (q r r' : Nat) : ((s.lend q r).runner r').modelKey = (s.runner r').modelKey :=
  modelKey_recount s r (· + 1) r'

/-- What the condition says about a runner that is unloaded. -/
theorem OwnPid.eq {r r' : Nat} (hok : OwnPid s .expireCompleted) (h : s.completed = .expired r)
    (hcount : (s.runner r).refCount = 0) (hr : s.loaded.lookup (s.runner r).modelKey = some r')
    (hpid : (s.runner r).pid = (s.runner r').pid) : r' = r := by
  simp only [OwnPid, h, hr] at hok
  rcases hok with hok | hok | hok
  · exact hok
  · exact absurd hpid hok
  · omega

theorem Kept.move (h : Kept s) (hv : Vacant s) (hok : OwnPid s e) (hm : Move s e s') : Kept s' := by
  cases hm with
  | @opens _ q n x hp hmlx hx =>
    exact (h.publishRunner hx (hv.idle q (by rw [hp]; rfl) (by rw [hp]; rfl))).same (fun _ => rfl) fun _ => rfl
  | publishes hp hnone hx => exact (h.publishRunner hx hnone).same (fun _ => rfl) fun _ => rfl
  | @replaces _ q pid x old hp hold hx =>
    rw [hv.idle q (by rw [hp]; rfl) (by rw [hp]; rfl)] at hold
    cases hold
  | @orphans r r' hc hfree hcount hr hpid => exact h.orphan hr (fun heq => hpid (by rw [heq])) _
  | @unloads r r' hc hfree hcount hr hpid =>
    have heq := hok.eq hc hcount hr hpid
    exact h.unload (heq ▸ hr) _
  | @callerUses _ q r => exact h.same (config_lend s q r) (modelKey_lend s q r)
  | @uses _ q r => exact h.same (config_lend s q r) (modelKey_lend s q r)
  | @loadEnds _ q r => exact h.same (config_lend s q r) (modelKey_lend s q r)
  | @decrements _ q r => exact h.same (config_recount s r decrement) (modelKey_recount s r decrement)
  | stay => exact h
  | request => exact ⟨h.keys, h.present⟩
  | callerChecks => exact ⟨h.keys, h.present⟩
  | callerFails => exact ⟨h.keys, h.present⟩
  | callerQueues => exact ⟨h.keys, h.present⟩
  | callerBusy => exact ⟨h.keys, h.present⟩
  | takes => exact ⟨h.keys, h.present⟩
  | skips => exact ⟨h.keys, h.present⟩
  | stops => exact ⟨h.keys, h.present⟩
  | turns => exact ⟨h.keys, h.present⟩
  | finds => exact ⟨h.keys, h.present⟩
  | checks => exact ⟨h.keys, h.present⟩
  | unread => exact ⟨h.keys, h.present⟩
  | arms => exact ⟨h.keys, h.present⟩
  | serves => exact ⟨h.keys, h.present⟩
  | panics => exact ⟨h.keys, h.present⟩
  | fails => exact ⟨h.keys, h.present⟩
  | loadFails => exact ⟨h.keys, h.present⟩
  | rests => exact ⟨h.keys, h.present⟩
  | takesFinished => exact ⟨h.keys, h.present⟩
  | losesFinished => exact ⟨h.keys, h.present⟩
  | findsFinished => exact ⟨h.keys, h.present⟩
  | finishes => exact ⟨h.keys, h.present⟩

/-! ## Runs -/

theorem kept_initial (h : Initial s) : Kept s := by
  obtain ⟨maxQueue, keepAlive, maxRunners, rfl⟩ := h
  exact ⟨nofun, fun r hr => absurd hr (Nat.not_lt_zero r)⟩

theorem kept_of_reaches {ok : Scheduler → Event → Prop} (hok : ∀ s e, ok s e → OwnPid s e)
    (h : Reaches Scheduler.step ok Initial s) : Kept s := by
  induction h with
  | init hi => exact kept_initial hi
  | step e hr he hs ih =>
    obtain ⟨s₁, hm, hq⟩ := moves_of_step hs
    exact (ih.move (vacant_of_reaches hr).2 (hok _ _ he) hm).quiet hq

/-- Every runner that was published and not unloaded is in the map. -/
def NoneLeaked (s : Scheduler) : Prop :=
  ∀ r, r < s.runners → ¬ (s.runner r).unloaded → s.loaded.lookup (s.runner r).modelKey = some r

/-- An expired event takes at most its own runner out of the map. -/
def TakesOwn (s : Scheduler) (r : Nat) (s' : Scheduler) : Prop :=
  ∀ k r', s.loaded.lookup k = some r' → s'.loaded.lookup k = some r' ∨ r' = r

theorem takesOwn_expireCompleted {r : Nat} (hok : OwnPid s .expireCompleted) (hc : s.completed = .expired r)
    (hs : s.expireCompleted = some s') : TakesOwn s r s' := by
  intro k r' hk
  simp only [expireCompleted, hc] at hs
  split at hs
  · split at hs
    · cases hs
      exact .inl hk
    · rename_i hcount
      split at hs
      · cases hs
        exact .inl hk
      · rename_i r'' hr
        split at hs <;> cases hs
        · exact .inl hk
        · rename_i hpid
          have heq := hok.eq hc (by omega) hr (not_not.mp hpid)
          by_cases hkey : k = (s.runner r).modelKey
          · rw [hkey, hr] at hk
            exact .inr ((Option.some.inj hk).symm.trans heq)
          · exact .inl ((AList.lookup_erase_ne hkey).trans hk)
  · cases hs

/-- As long as expired events find the runner itself or another pid, no runner is lost. -/
theorem expired_takes_own (h : Reaches Scheduler.step OwnPid Initial s) :
    NoneLeaked s ∧ ∀ r s', s.completed = .expired r → OwnPid s .expireCompleted →
      s.step .expireCompleted = some s' → TakesOwn s r s' := by
  refine ⟨(kept_of_reaches (fun _ _ h => h) h).present, fun r s' hc hok hs => ?_⟩
  unfold step at hs
  split at hs
  · cases hs
  · exact takesOwn_expireCompleted hok hc hs

/-- A safetensors model is loaded, and expired twice while nobody uses it. -/
def twiceExpired : List Event :=
  let m : Model := { digest := "m", modelFormat := "safetensors", capabilities := ["completion"] }
  [.getRunner { model := m } false, .caller 0 true, .takePending, .lookupPending, .refreshPending 1 none, .armPending,
    .usePending, .cancel 0, .finish 0, .takeFinished, .lookupFinished, .decrementFinished, .expireRunner m,
    .expireRunner m, .expirer 0, .expirer 0, .takeExpired, .expireCompleted, .recovered, .sendUnloaded]

theorem twiceExpired_takes_own : ∃ s s' : Scheduler, Reaches Scheduler.step OwnPid Initial s ∧
    s.completed = .expired 0 ∧ s.step .expireCompleted = some s' ∧ NoneLeaked s ∧ TakesOwn s 0 s' := by
  let s := (exec Scheduler.step { maxQueue := 512, keepAlive := 300, maxRunners := 0 }
    (twiceExpired ++ [Event.takeExpired])).get (by decide)
  have hs : Reaches Scheduler.step OwnPid Initial s :=
    reaches_of_exec (Reaches.init ⟨_, _, _, rfl⟩) (by decide) (Option.some_get _).symm
  let s' := (s.step .expireCompleted).get (by decide)
  have hs' : s.step .expireCompleted = some s' := (Option.some_get _).symm
  have hc : s.completed = .expired 0 := by decide
  exact ⟨s, s', hs, hc, hs', (expired_takes_own hs).1, (expired_takes_own hs).2 0 s' hc (by decide) hs'⟩

/-- The model is loaded again before the second event, which then drops the new runner from the map. -/
theorem twiceExpired_leaks : ∃ s s' : Scheduler, Reaches Scheduler.step (fun _ _ => True) Initial s ∧
    s.completed = .expired 0 ∧ s.step .expireCompleted = some s' ∧ ¬ TakesOwn s 0 s' ∧ ¬ NoneLeaked s' := by
  let m : Model := { digest := "m", modelFormat := "safetensors", capabilities := ["completion"] }
  let s := (exec Scheduler.step { maxQueue := 512, keepAlive := 300, maxRunners := 0 }
    (twiceExpired ++ [Event.getRunner { model := m } false, .caller 1 true, .takePending, .lookupPending,
      .refreshPending 1 none, .armPending, .usePending, .takeExpired])).get (by decide)
  have hs : Reaches Scheduler.step (fun _ _ => True) Initial s :=
    reaches_of_exec (Reaches.init ⟨_, _, _, rfl⟩) (by decide) (Option.some_get _).symm
  let s' := (s.step .expireCompleted).get (by decide)
  have hs' : s.step .expireCompleted = some s' := (Option.some_get _).symm
  have hbefore : s.loaded.lookup "digest:m" = some 1 := by decide
  have hafter : s'.loaded.lookup "digest:m" = none := by decide
  refine ⟨s, s', hs, by decide, hs', fun htake => ?_, fun hnone => ?_⟩
  · rcases htake _ _ hbefore with h | h
    · rw [hafter] at h
      cases h
    · cases h
  · have h1 := hnone 1 (by decide) (by decide)
    have hkey : (s'.runner 1).modelKey = "digest:m" := by decide
    rw [hkey, hafter] at h1
    cases h1

end Scheduler

end Xdragon.Server
