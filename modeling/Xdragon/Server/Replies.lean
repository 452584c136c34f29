import Xdragon.Lib.Run
import Xdragon.Server.Moves

/-!
# Replies

A request is in one place at a time: its caller, the queue, `processPending`, or a goroutine of `load`. Who has
it answers it, and then nobody has it any more.
-/

namespace Xdragon.Server

open Xdragon.Lib

/-- The caller has its request until it returns. -/
def Caller.holds : Caller → Nat
  | .returned => 0
  | _ => 1

theorem Caller.holds_eq_one {c : Caller} (h : c ≠ .returned) : c.holds = 1 := by
  cases c with
  | returned => contradiction
  | check r => rfl
  | use r => rfl
  | enqueue => rfl

namespace Scheduler

/-- How many goroutines and channels have the request. -/
def holders (s : Scheduler) (q : Nat) : Nat :=
  (s.caller q).holds + s.pendingReqCh.count q + s.pending.request.toList.count q + (s.loaders.map Prod.fst).count q

/-- Who has the request, and its replies. -/
def places (s : Scheduler) (q : Nat) : Nat := s.holders q + (s.replies q).length

structure Answered (s : Scheduler) : Prop where
  once : ∀ q, s.places q ≤ 1
  fresh : ∀ q, s.requests ≤ q → s.places q = 0
  dropped : ∀ q, q < s.requests → s.places q = 0 → s.ctxDone q = true ∨ s.done = true

variable {s s' : Scheduler} {e : Event} {q r : Nat}

/-! ## The places of one request -/

theorem holders_pos_of_caller (h : s.caller q ≠ .returned) : 0 < s.holders q := by
  have := Caller.holds_eq_one h
  simp only [holders]
  omega

theorem holders_pos_of_pending (h : s.pending.request = some q) : 0 < s.holders q := by
  have : s.pending.request.toList.count q = 1 := by
    rw [h]
    exact List.count_singleton_self
  simp only [holders]
  omega

theorem holders_pos_of_loader (h : (q, r) ∈ s.loaders) : 0 < s.holders q := by
  have : 0 < (s.loaders.map Prod.fst).count q := List.count_pos_iff.mpr (List.mem_map.mpr ⟨_, h, rfl⟩)
  simp only [holders]
  omega

theorem Answered.unanswered (h : Answered s) (hq : 0 < s.holders q) : s.replies q = [] := by
  have := h.once q
  simp only [places] at this
  exact List.eq_nil_of_length_eq_zero (by omega)

theorem Answered.lt_of_holders (h : Answered s) (hq : 0 < s.holders q) : q < s.requests := by
  by_contra hge
  have := h.fresh q (by omega)
  simp only [places] at this
  omega

theorem Answered.lt_of_reply (h : Answered s) {v : Reply} (hv : v ∈ s.replies q) : q < s.requests := by
  have := List.length_pos_of_mem hv
  by_contra hge
  have := h.fresh q (by omega)
  simp only [places] at this
  omega

/-! ## Who gives a request away -/

theorem holds_update_returned (h : s.caller q ≠ .returned) (q' : Nat) :
    (Function.update s.caller q .returned q').holds + [q].count q' = (s.caller q').holds := by
  by_cases hq : q' = q
  · rw [hq, Function.update_self, List.count_singleton_self, Caller.holds_eq_one h]
    rfl
  · rw [Function.update_of_ne hq, List.count_singleton, if_neg (by simpa using Ne.symm hq)]
    rfl

theorem holds_update {c : Caller} (h : s.caller q ≠ .returned) (hc : c ≠ .returned) (q' : Nat) :
    (Function.update s.caller q c q').holds = (s.caller q').holds := by
  by_cases hq : q' = q
  · rw [hq, Function.update_self, Caller.holds_eq_one h, Caller.holds_eq_one hc]
  · rw [Function.update_of_ne hq]

theorem length_replies_reply (s : Scheduler) (q : Nat) (v : Reply) (q' : Nat) :
    ((s.reply q v).replies q').length = (s.replies q').length + [q].count q' := by
  simp only [reply, Function.update_apply]
  split
  · rename_i h
    rw [h, List.length_append, List.count_singleton_self]
    rfl
  · rename_i h
    rw [List.count_singleton, if_neg (by simpa using Ne.symm h)]
    rfl

theorem count_cons_eq (q : Nat) (rest : List Nat) (q' : Nat) :
    (q :: rest).count q' = [q].count q' + rest.count q' := by
  rw [← List.singleton_append, List.count_append]

theorem count_loaders_erase (h : (q, r) ∈ s.loaders) (q' : Nat) :
    ((s.loaders.erase (q, r)).map Prod.fst).count q' + [q].count q' = (s.loaders.map Prod.fst).count q' := by
  have hp := ((List.perm_cons_erase h).map Prod.fst).count_eq q'
  have hcons := count_cons_eq q ((s.loaders.erase (q, r)).map Prod.fst) q'
  simp only [List.map_cons] at hp
  omega

/-! ## Moves -/

theorem Quiet.places (h : Quiet s s') (q : Nat) : s'.places q = s.places q := by
  simp only [Scheduler.places, holders, h.caller, h.pendingReqCh, h.pending, h.loaders, h.replies]

theorem Answered.quiet (h : Answered s) (hq : Quiet s s') : Answered s' := by
  refine ⟨fun q => ?_, fun q hge => ?_, fun q hlt hz => ?_⟩
  · rw [hq.places]
    exact h.once q
  · rw [hq.places]
    exact h.fresh q (hq.requests ▸ hge)
  · rw [hq.places] at hz
    exact (h.dropped q (hq.requests ▸ hlt) hz).imp (hq.ctxDone q) hq.done

/-- A move that passes requests on, or drops one that may be dropped. -/
theorem Answered.passed (h : Answered s) (hp : ∀ q, s'.places q ≤ s.places q)
    (hdrop : ∀ q, s'.places q < s.places q → s.ctxDone q = true ∨ s.done = true)
    (hr : s'.requests = s.requests := by rfl) (hctx : s'.ctxDone = s.ctxDone := by rfl)
    (hd : s'.done = s.done := by rfl) : Answered s' := by
  refine ⟨fun q => (hp q).trans (h.once q), fun q hge => ?_, fun q hlt hz => ?_⟩
  · have := hp q
    have := h.fresh q (hr ▸ hge)
    omega
  · rw [hctx, hd]
    by_cases h0 : s.places q = 0
    · exact h.dropped q (hr ▸ hlt) h0
    · exact hdrop q (by omega)

theorem Answered.same (h : Answered s) (hp : ∀ q, s'.places q = s.places q)
    (hr : s'.requests = s.requests := by rfl) (hctx : s'.ctxDone = s.ctxDone := by rfl)
    (hd : s'.done = s.done := by rfl) : Answered s' :=
  h.passed (fun q => (hp q).le) (fun q hlt => absurd (hp q) hlt.ne) hr hctx hd

theorem Answered.request (h : Answered s) (req : LlmRequest) {c : Caller} (hc : c ≠ .returned) :
    Answered { s with
      requests := s.requests + 1
      request := Function.update s.request s.requests req
      caller := Function.update s.caller s.requests c } := by
  have hnew : ∀ q, (Function.update s.caller s.requests c q).holds = (s.caller q).holds + [s.requests].count q := by
    intro q
    by_cases hq : q = s.requests
    · have h0 := h.fresh q hq.ge
      simp only [places, holders] at h0
      rw [hq, Function.update_self, List.count_singleton_self, ← hq, Caller.holds_eq_one hc]
      omega
    · rw [Function.update_of_ne hq, List.count_singleton, if_neg (by simpa using Ne.symm hq)]
      rfl
  refine ⟨fun q => ?_, fun q hge => ?_, fun q hlt hz => ?_⟩
  · have h1 := h.once q
    by_cases hq : q = s.requests
    · have h0 := h.fresh q hq.ge
      simp only [places, holders, hnew] at h0 ⊢
      have := List.count_le_length (a := q) (l := [s.requests])
      simp only [List.length_singleton] at this
      omega
    · simp only [places, holders, hnew] at h1 ⊢
      rw [List.count_singleton, if_neg (by simpa using Ne.symm hq)]
      omega
  · have hge : s.requests + 1 ≤ q := hge
    have h0 := h.fresh q (by omega)
    simp only [places, holders, hnew] at h0 ⊢
    rw [List.count_singleton, if_neg (by simp; omega)]
    omega
  · have hlt : q < s.requests + 1 := hlt
    simp only [places, holders, hnew] at hz
    by_cases hq : q = s.requests
    · rw [hq, List.count_singleton_self] at hz
      omega
    · refine h.dropped q (by omega) ?_
      simp only [places, holders]
      omega

theorem Answered.move (h : Answered s) (hm : Move s e s') : Answered s' := by
  cases hm with
  | stay => exact h
  | request req c hc =>
    refine h.request req ?_
    rcases hc with rfl | ⟨r, rfl, -⟩ <;> nofun
  | @callerChecks _ q r hc =>
    refine h.same fun q' => ?_
    have hcall := holds_update (c := .use r) (by rw [hc]; nofun) (by nofun) q'
    simp only [places, holders, hcall]
  | @callerFails _ q r hc =>
    refine h.same fun q' => ?_
    have hcall := holds_update (c := .enqueue) (by rw [hc]; nofun) (by nofun) q'
    simp only [places, holders, hcall]
  | @callerUses _ q r hc =>
    refine h.same fun q' => ?_
    have hrep := length_replies_reply s q (.success r) q'
    have hcall := holds_update_returned (by rw [hc]; nofun) q'
    simp only [places, holders, lend, reply, modifyRunner] at hrep ⊢
    omega
  | @callerQueues _ q hc =>
    refine h.same fun q' => ?_
    have hcall := holds_update_returned (by rw [hc]; nofun) q'
    simp only [places, holders, List.count_append]
    omega
  | @callerBusy _ q hc =>
    refine h.same fun q' => ?_
    have hrep := length_replies_reply s q (.error errMaxQueue) q'
    have hcall := holds_update_returned (by rw [hc]; nofun) q'
    simp only [places, holders, reply] at hrep ⊢
    omega
  | @takes _ q rest hp hch =>
    refine h.same fun q' => ?_
    have hcount := count_cons_eq q rest q'
    simp only [places, holders, hp, hch, Pending.request, Option.toList_some, Option.toList_none, List.count_nil]
    omega
  | @skips _ q rest hp hch hctx =>
    refine h.passed (fun q' => ?_) fun q' hlt => .inl ?_
    · simp only [places, holders, hch, count_cons_eq q rest]
      omega
    · simp only [places, holders, hch, count_cons_eq q rest] at hlt
      have : 0 < [q].count q' := by omega
      rw [List.mem_singleton.mp (List.count_pos_iff.mp this)]
      exact hctx
  | stops hdone hp =>
    refine h.passed (fun q' => ?_) fun q' _ => .inr hdone
    simp only [places, holders, Pending.request, Option.toList_none, List.count_nil]
    omega
  | turns hreq hpreq =>
    refine h.same fun q' => ?_
    simp only [places, holders, hreq, hpreq]
  | finds hp =>
    refine h.same fun q' => ?_
    simp only [places, holders, hp, Pending.request]
  | checks hp =>
    refine h.same fun q' => ?_
    simp only [places, holders, hp, Pending.request]
  | @uses _ q r hp =>
    refine h.same fun q' => ?_
    have hrep := length_replies_reply s q (.success r) q'
    simp only [places, holders, lend, reply, modifyRunner, hp, Pending.request, Option.toList_some,
      Option.toList_none, List.count_nil] at hrep ⊢
    omega
  | @unread _ err q _ hp =>
    refine h.same fun q' => ?_
    have hrep := length_replies_reply s q (.error err) q'
    simp only [places, holders, reply, hp, Pending.request, Option.toList_some, Option.toList_none,
      List.count_nil] at hrep ⊢
    omega
  | opens hp =>
    refine h.same fun q' => ?_
    simp only [places, holders, publishRunner, hp, Pending.request]
  | arms hp =>
    refine h.same fun q' => ?_
    simp only [places, holders, hp, Pending.request]
  | serves hp =>
    refine h.same fun q' => ?_
    simp only [places, holders, hp, Pending.request]
  | panics hp =>
    refine h.same fun q' => ?_
    simp only [places, holders, hp, Pending.request]
  | @fails _ q err hp =>
    refine h.same fun q' => ?_
    have hrep := length_replies_reply s q (.error err) q'
    have hsel : Pending.select.request = none := rfl
    simp only [places, holders, reply, hp, hsel, Option.toList_some, Option.toList_none, List.count_nil] at hrep ⊢
    omega
  | publishes hp =>
    refine h.same fun q' => ?_
    simp only [places, holders, publishRunner, hp, Pending.request, Option.toList_some, Option.toList_none,
      List.count_nil, List.map_append, List.map_cons, List.map_nil, List.count_append]
    omega
  | replaces hp =>
    refine h.same fun q' => ?_
    simp only [places, holders, publishRunner, modifyRunner, hp, Pending.request, Option.toList_some,
      Option.toList_none, List.count_nil, List.map_append, List.map_cons, List.map_nil, List.count_append]
    omega
  | @loadFails _ q r err hmem =>
    refine h.same fun q' => ?_
    have hrep := length_replies_reply s q (.error err) q'
    have hload := count_loaders_erase hmem q'
    simp only [places, holders, reply] at hrep ⊢
    omega
  | @loadEnds _ q r hmem =>
    refine h.same fun q' => ?_
    have hrep := length_replies_reply s q (.success r) q'
    have hload := count_loaders_erase hmem q'
    simp only [places, holders, lend, reply, modifyRunner] at hrep ⊢
    omega
  | rests => exact h.same fun _ => rfl
  | takesFinished => exact h.same fun _ => rfl
  | losesFinished => exact h.same fun _ => rfl
  | findsFinished => exact h.same fun _ => rfl
  | decrements => exact h.same fun _ => rfl
  | orphans => exact h.same fun _ => rfl
  | unloads => exact h.same fun _ => rfl
  | finishes => exact h.same fun _ => rfl

/-! ## Runs -/

theorem answered_initial (h : Initial s) : Answered s := by
  obtain ⟨maxQueue, keepAlive, maxRunners, rfl⟩ := h
  exact ⟨fun _ => Nat.zero_le 1, fun _ _ => rfl, fun q hq => absurd hq (Nat.not_lt_zero q)⟩

theorem Answered.step (h : Answered s) (hs : s.step e = some s') : Answered s' := by
  obtain ⟨s₁, hm, hq⟩ := moves_of_step hs
  exact (h.move hm).quiet hq

theorem answered_of_reaches {ok : Scheduler → Event → Prop} (h : Reaches Scheduler.step ok Initial s) : Answered s :=
  h.invariant (I := Answered) (fun _ => answered_initial) fun _ _ _ h _ => h.step

/-- Nobody has the request any more, and it has no reply. -/
def Dropped (s : Scheduler) (q : Nat) : Prop := q < s.requests ∧ s.holders q = 0 ∧ s.replies q = []

/-- In every run a request has at most one reply, and only a request that is cancelled gets none. -/
theorem replied_once (h : Reaches Scheduler.step (fun _ _ => True) Initial s) (q : Nat) :
    (s.replies q).length ≤ 1 ∧ (Dropped s q → s.ctxDone q = true ∨ s.done = true) := by
  have ha := answered_of_reaches h
  constructor
  · have := ha.once q
    simp only [places] at this
    omega
  · rintro ⟨hlt, hnone, hrep⟩
    refine ha.dropped q hlt ?_
    rw [places, hnone, hrep]
    rfl

/-- One request is answered by its caller, one is skipped, and one fails to load. -/
def busyRun : List Event :=
  let req : LlmRequest := { model := { modelPath := "a" } }
  [.getRunner req false, .caller 0 true, .getRunner req false, .caller 1 true, .takePending, .lookupPending,
    .refreshPending 1 none, .servePending none, .fitPending (.failed "no memory"), .getRunner req false, .cancel 2,
    .caller 2 true, .takePending]

theorem busyRun_replied_once : ∃ s : Scheduler, Reaches Scheduler.step (fun _ _ => True) Initial s ∧
    s.replies 0 = [.error "no memory"] ∧ s.replies 1 = [.error errMaxQueue] ∧ Dropped s 2 ∧
    ∀ q, (s.replies q).length ≤ 1 ∧ (Dropped s q → s.ctxDone q = true ∨ s.done = true) := by
  let s := (exec Scheduler.step { maxQueue := 1, keepAlive := 0, maxRunners := 0 } busyRun).get (by decide)
  have hs : Reaches Scheduler.step (fun _ _ => True) Initial s :=
    reaches_of_exec (Reaches.init ⟨_, _, _, rfl⟩) (by decide) (Option.some_get _).symm
  refine ⟨s, hs, by decide, by decide, ⟨by decide, by decide, by decide⟩,
    replied_once hs⟩

end Scheduler

end Xdragon.Server
