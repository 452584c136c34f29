import Mathlib.Data.Finset.Card
import Xdragon.Server.Expiry

/-!
# Handing out runners

The lookup, `needsReload` and the increment of `refCount` are three sections. The count is exact, and a runner
that somebody uses is not unloaded, as long as no runner is unloaded between the last two of them.
-/

namespace Xdragon.Server

open Xdragon.Lib

namespace Scheduler

variable {s s' : Scheduler} {e : Event} {q r : Nat}

/-! ## Who has a runner -/

/-- The runner was handed to the request. -/
def Handed (s : Scheduler) (q r : Nat) : Prop := .success r ∈ s.replies q

instance (s : Scheduler) (q r : Nat) : Decidable (s.Handed q r) := inferInstanceAs (Decidable (_ ∈ _))

/-- The requests that were handed the runner and are not finished. -/
def users (s : Scheduler) (r : Nat) : Finset Nat :=
  {q ∈ Finset.range s.requests | s.Handed q r ∧ s.finished q = false}

/-- The request has the runner, or may get it. -/
inductive Wants (s : Scheduler) (q r : Nat) : Prop
  | check (h : s.caller q = .check r)
  | use (h : s.caller q = .use r)
  | target (hq : s.pending.request = some q) (h : s.pending.target = some r)
  | load (h : (q, r) ∈ s.loaders)
  | handed (h : s.Handed q r)

/-- The request uses the runner, or is going to. -/
inductive Secures (s : Scheduler) (q r : Nat) : Prop
  | use (h : s.caller q = .use r)
  | chosen (hq : s.pending.request = some q) (h : s.pending.chosen = some r)
  | load (h : (q, r) ∈ s.loaders)
  | handed (h : s.Handed q r) (hf : s.finished q = false)

/-- Where the finished event of a request is. -/
def tokens (s : Scheduler) (q : Nat) : Nat :=
  s.finishers.count q + s.finishedReqCh.count q + s.completed.request.toList.count q

structure Counted (s : Scheduler) : Prop where
  wants : ∀ q r, Wants s q r → r < s.runners ∧ (s.runner r).modelKey = (s.request q).key
  secures : ∀ q r, Secures s q r → ¬ (s.runner r).unloaded
  count : ∀ r, r < s.runners → (s.runner r).refCount = (s.users r).card
  once : ∀ q, s.tokens q ≤ 1
  token : ∀ q, 0 < s.tokens q → ∃ r, s.Handed q r ∧ s.finished q = false
  early : ∀ q, s.finished q = true → s.replies q ≠ []
  given : ∀ q r, s.completed = .decrement q r → s.Handed q r

theorem chosen_target {p : Pending} (h : p.chosen = some r) : p.target = some r := by
  cases p <;> first | exact h | cases h

theorem Secures.wants (h : Secures s q r) : Wants s q r := by
  cases h with
  | use h => exact .use h
  | chosen hq h => exact .target hq (chosen_target h)
  | load h => exact .load h
  | handed h _ => exact .handed h

theorem mem_users (ha : Answered s) : q ∈ s.users r ↔ s.Handed q r ∧ s.finished q = false := by
  simp only [users, Finset.mem_filter, Finset.mem_range, and_iff_right_iff_imp]
  exact fun h => ha.lt_of_reply h.1

theorem users_eq (hr : s'.requests = s.requests)
    (h : ∀ q, s'.Handed q r ∧ s'.finished q = false ↔ s.Handed q r ∧ s.finished q = false) : s'.users r = s.users r := by
  ext q
  simp only [users, Finset.mem_filter, Finset.mem_range, hr, h]

theorem Answered.handed_unique (ha : Answered s) {r' : Nat} (h : s.Handed q r) (h' : s.Handed q r') : r = r' := by
  have h1 := ha.once q
  simp only [places] at h1
  obtain ⟨v, hv⟩ := List.length_eq_one_iff.mp (le_antisymm (show (s.replies q).length ≤ 1 by omega)
    (List.length_pos_of_mem h))
  simp only [Handed, hv, List.mem_singleton] at h h'
  exact Reply.success.inj (h.trans h'.symm)

/-! ## What a move changes -/

/-- The requests, the runners and the finished events are the same. -/
structure Same (s s' : Scheduler) : Prop where
  requests : s'.requests = s.requests := by rfl
  request : s'.request = s.request := by rfl
  replies : s'.replies = s.replies := by rfl
  finished : s'.finished = s.finished := by rfl
  runners : s'.runners = s.runners := by rfl
  refCount : ∀ r, (s'.runner r).refCount = (s.runner r).refCount := by exact fun _ => rfl
  config : ∀ r, (s'.runner r).config = (s.runner r).config := by exact fun _ => rfl
  modelKey : ∀ r, (s'.runner r).modelKey = (s.runner r).modelKey := by exact fun _ => rfl
  tokens : ∀ q, s'.tokens q = s.tokens q := by exact fun _ => rfl

/-- The goroutines go on, and may claim runners that are there. -/
theorem Counted.same (h : Counted s) (hsame : Same s s')
    (hw : ∀ q r, Wants s' q r → Wants s q r ∨ r < s.runners ∧ (s.runner r).modelKey = (s.request q).key)
    (hsec : ∀ q r, Secures s' q r → Secures s q r ∨ ¬ (s.runner r).unloaded)
    (hgiven : ∀ q r, s'.completed = .decrement q r → s.completed = .decrement q r ∨ s.Handed q r) : Counted s' := by
  have husers : ∀ r, s'.users r = s.users r := by
    intro r
    refine users_eq hsame.requests fun q => ?_
    rw [Handed, Handed, hsame.replies, hsame.finished]
  refine ⟨fun q r hq => ?_, fun q r hq => ?_, fun r hr => ?_, fun q => ?_, fun q hq => ?_, fun q hq => ?_,
    fun q r hq => ?_⟩
  · rw [hsame.runners, hsame.modelKey, hsame.request]
    exact (hw q r hq).elim (h.wants q r) id
  · rw [RunnerRef.unloaded, hsame.config]
    exact (hsec q r hq).elim (h.secures q r) id
  · rw [hsame.runners] at hr
    rw [hsame.refCount, husers]
    exact h.count r hr
  · rw [hsame.tokens]
    exact h.once q
  · rw [hsame.tokens] at hq
    simp only [Handed, hsame.replies, hsame.finished]
    exact h.token q hq
  · rw [hsame.finished] at hq
    rw [hsame.replies]
    exact h.early q hq
  · rw [Handed, hsame.replies]
    exact (hgiven q r hq).elim (h.given q r) id

theorem Quiet.same (h : Quiet s s') : Same s s' where
  requests := h.requests
  request := h.request
  replies := h.replies
  finished := h.finished
  runners := h.runners
  refCount := h.refCount
  config := h.config
  modelKey := h.modelKey
  tokens q := by simp only [Scheduler.tokens, h.finishers, h.finishedReqCh, h.completed]

/-- The callers, `processPending` and the goroutines of `load` are the same, and so are the replies. -/
structure SamePlaces (s s' : Scheduler) : Prop where
  caller : s'.caller = s.caller := by rfl
  pending : s'.pending = s.pending := by rfl
  loaders : s'.loaders = s.loaders := by rfl
  replies : s'.replies = s.replies := by rfl
  finished : s'.finished = s.finished := by rfl

theorem SamePlaces.wants (h : SamePlaces s s') (hw : Wants s' q r) : Wants s q r := by
  cases hw with
  | check hc => exact .check (h.caller ▸ hc)
  | use hc => exact .use (h.caller ▸ hc)
  | target hq ht => exact .target (h.pending ▸ hq) (h.pending ▸ ht)
  | load hl => exact .load (h.loaders ▸ hl)
  | handed hr => exact .handed (show .success r ∈ s.replies q by rw [← h.replies]; exact hr)

theorem SamePlaces.secures (h : SamePlaces s s') (hs : Secures s' q r) : Secures s q r := by
  cases hs with
  | use hc => exact .use (h.caller ▸ hc)
  | chosen hq ht => exact .chosen (h.pending ▸ hq) (h.pending ▸ ht)
  | load hl => exact .load (h.loaders ▸ hl)
  | handed hr hf =>
    exact .handed (show .success r ∈ s.replies q by rw [← h.replies]; exact hr) (h.finished ▸ hf)

theorem Counted.quiet (h : Counted s) (hq : Quiet s s') : Counted s' := by
  have hp : SamePlaces s s' := ⟨hq.caller, hq.pending, hq.loaders, hq.replies, hq.finished⟩
  refine h.same hq.same (fun q r hw => .inl (hp.wants hw)) (fun q r hs => .inl (hp.secures hs)) fun q r hc => .inl ?_
  exact hq.completed ▸ hc

/-! ## Replies -/

theorem handed_reply_error {err : String} {q' : Nat} : (s.reply q (.error err)).Handed q' r ↔ s.Handed q' r := by
  simp only [Handed, reply, Function.update_apply]
  split
  · rename_i h
    rw [h]
    simp
  · rfl

/-- An error does not change who has a runner. -/
theorem Counted.reply_error (h : Counted s) (q : Nat) (err : String) : Counted (s.reply q (.error err)) := by
  refine ⟨fun q' r hw => ?_, fun q' r hs => ?_, fun r hr => ?_, h.once, fun q' hq => ?_, fun q' hq hnil => ?_,
    fun q' r hc => ?_⟩
  · refine h.wants q' r ?_
    cases hw with
    | check hc => exact .check hc
    | use hc => exact .use hc
    | target hq ht => exact .target hq ht
    | load hl => exact .load hl
    | handed hr => exact .handed (handed_reply_error.mp hr)
  · refine h.secures q' r ?_
    cases hs with
    | use hc => exact .use hc
    | chosen hq ht => exact .chosen hq ht
    | load hl => exact .load hl
    | handed hr hf => exact .handed (handed_reply_error.mp hr) hf
  · have husers : (s.reply q (.error err)).users r = s.users r :=
      users_eq rfl fun q' => and_congr_left fun _ => handed_reply_error
    rw [husers]
    exact h.count r hr
  · obtain ⟨r, hr, hf⟩ := h.token q' hq
    exact ⟨r, handed_reply_error.mpr hr, hf⟩
  · refine h.early q' hq ?_
    simp only [reply, Function.update_apply] at hnil
    split at hnil
    · exact absurd hnil (by simp)
    · exact hnil
  · exact handed_reply_error.mpr (h.given q' r hc)

theorem handed_lend {q' r' : Nat} : (s.lend q r).Handed q' r' ↔ s.Handed q' r' ∨ q' = q ∧ r' = r := by
  simp only [Handed, lend, reply, modifyRunner, Function.update_apply]
  split
  · rename_i h
    rw [h]
    simp
  · rename_i h
    simp [h]

theorem refCount_lend (s : Scheduler) (q r r' : Nat) :
    ((s.lend q r).runner r').refCount = (s.runner r').refCount + if r' = r then 1 else 0 := by
  show ((s.modifyRunner r (recount (· + 1))).runner r').refCount = _
  rw [runner_modifyRunner]
  split
  · rename_i h
    rw [h]
    rfl
  · rfl

theorem Counted.lend (h : Counted s) (ha : Answered s) (hq : 0 < s.holders q) (hs : Secures s q r) :
    Counted (s.lend q r) := by
  have hnil : s.replies q = [] := ha.unanswered hq
  have hnot : ∀ r', ¬ s.Handed q r' := by
    intro r' hr'
    rw [Handed, hnil] at hr'
    cases hr'
  have hfin : s.finished q = false := by
    by_contra hf
    exact h.early q (Bool.not_eq_false _ ▸ hf) hnil
  have htok : s.tokens q = 0 := by
    by_contra ht
    obtain ⟨r', hr', -⟩ := h.token q (by omega)
    exact hnot r' hr'
  have htokens : ∀ q', (s.lend q r).tokens q' = s.tokens q' + [q].count q' := by
    intro q'
    simp only [tokens, Scheduler.lend, Scheduler.reply, modifyRunner, List.count_append]
    omega
  refine ⟨fun q' r' hw => ?_, fun q' r' hs' => ?_, fun r' hr' => ?_, fun q' => ?_, fun q' hq' => ?_, fun q' hq' => ?_,
    fun q' r' hc => ?_⟩
  · rw [modelKey_lend]
    refine h.wants q' r' ?_
    cases hw with
    | check hc => exact .check hc
    | use hc => exact .use hc
    | target hq ht => exact .target hq ht
    | load hl => exact .load hl
    | handed hr =>
      rcases handed_lend.mp hr with hr | ⟨rfl, rfl⟩
      · exact .handed hr
      · exact hs.wants
  · rw [RunnerRef.unloaded, config_lend]
    refine h.secures q' r' ?_
    cases hs' with
    | use hc => exact .use hc
    | chosen hq ht => exact .chosen hq ht
    | load hl => exact .load hl
    | handed hr hf =>
      rcases handed_lend.mp hr with hr | ⟨rfl, rfl⟩
      · exact .handed hr hf
      · exact hs
  · rw [refCount_lend, h.count r' hr']
    split
    · rename_i heq
      subst heq
      have husers : (s.lend q r').users r' = insert q (s.users r') := by
        ext q'
        simp only [users, Finset.mem_insert, Finset.mem_filter, Finset.mem_range, handed_lend, and_true]
        constructor
        · rintro ⟨hlt, hr | rfl, hf⟩
          · exact .inr ⟨hlt, hr, hf⟩
          · exact .inl rfl
        · rintro (rfl | ⟨hlt, hr, hf⟩)
          · exact ⟨ha.lt_of_holders hq, .inr rfl, hfin⟩
          · exact ⟨hlt, .inl hr, hf⟩
      have hnew : q ∉ s.users r' := by
        rw [mem_users ha]
        exact fun hr => hnot r' hr.1
      rw [husers, Finset.card_insert_of_notMem hnew]
    · rename_i hne
      have husers : (s.lend q r).users r' = s.users r' := by
        refine users_eq rfl fun q' => and_congr_left fun _ => ?_
        rw [handed_lend]
        exact or_iff_left fun h => hne h.2
      rw [husers, Nat.add_zero]
  · rw [htokens]
    have h1 := h.once q'
    by_cases hqq : q' = q
    · rw [hqq, htok, List.count_singleton_self]
    · rw [List.count_singleton, if_neg (by simpa using Ne.symm hqq)]
      exact h1
  · rw [htokens] at hq'
    by_cases hqq : q' = q
    · rw [hqq]
      exact ⟨r, handed_lend.mpr (.inr ⟨rfl, rfl⟩), hfin⟩
    · rw [List.count_singleton, if_neg (by simpa using Ne.symm hqq)] at hq'
      obtain ⟨r', hr', hf⟩ := h.token q' hq'
      exact ⟨r', handed_lend.mpr (.inl hr'), hf⟩
  · intro hnil'
    have hmem : Reply.success r ∈ (s.lend q r).replies q := handed_lend.mpr (.inr ⟨rfl, rfl⟩)
    by_cases hqq : q' = q
    · rw [hqq] at hnil'
      rw [hnil'] at hmem
      cases hmem
    · refine h.early q' hq' ?_
      simpa [Scheduler.lend, Scheduler.reply, modifyRunner, Function.update_of_ne hqq] using hnil'
  · exact handed_lend.mpr (.inl (h.given q' r' hc))

/-! ## New runners -/

theorem Counted.publishRunner (h : Counted s) {x : RunnerRef} (hx : NewRunner s q x) :
    Counted (s.publishRunner x) := by
  have hold : ∀ r, r < s.runners → (s.publishRunner x).runner r = s.runner r :=
    fun r hr => Function.update_of_ne hr.ne _ _
  have hp : SamePlaces s (s.publishRunner x) := {}
  refine ⟨fun q r hw => ?_, fun q r hs => ?_, fun r hr => ?_, h.once, h.token, h.early, h.given⟩
  · obtain ⟨hlt, hkey⟩ := h.wants q r (hp.wants hw)
    rw [hold r hlt]
    exact ⟨Nat.lt_succ_of_lt hlt, hkey⟩
  · have hs := hp.secures hs
    rw [hold r (h.wants q r hs.wants).1]
    exact h.secures q r hs
  · have husers : (s.publishRunner x).users r = s.users r := users_eq rfl fun _ => Iff.rfl
    rw [husers]
    rcases Nat.lt_succ_iff_lt_or_eq.mp hr with hlt | rfl
    · rw [hold r hlt]
      exact h.count r hlt
    · have hnew : (s.publishRunner x).runner s.runners = x := Function.update_self ..
      have hempty : s.users s.runners = ∅ := by
        refine Finset.eq_empty_of_forall_notMem fun q hq => ?_
        simp only [users, Finset.mem_filter] at hq
        exact absurd (h.wants q _ (.handed hq.2.1)).1 (Nat.lt_irrefl _)
      rw [hnew, hempty, hx.refCount]
      rfl

/-! ## Unloading -/

/-- A runner that nobody secures can be unloaded. -/
theorem Counted.unload (h : Counted s) (hfree : ∀ q, ¬ Secures s q r) :
    Counted (s.modifyRunner r RunnerRef.unload) := by
  have hp : SamePlaces s (s.modifyRunner r RunnerRef.unload) := {}
  refine ⟨fun q' r' hw => ?_, fun q' r' hs => ?_, fun r' hr' => ?_, h.once, h.token, h.early, h.given⟩
  · rw [modelKey_unload]
    exact h.wants q' r' (hp.wants hw)
  · have hold := hp.secures hs
    refine not_unloaded_unload.mpr ⟨fun heq => ?_, h.secures q' r' hold⟩
    exact hfree q' (heq ▸ hold)
  · have husers : (s.modifyRunner r RunnerRef.unload).users r' = s.users r' := users_eq rfl fun _ => Iff.rfl
    rw [husers, runner_unload]
    split
    · rename_i heq
      rw [← heq]
      exact h.count r' hr'
    · exact h.count r' hr'

/-! ## Finished events -/

theorem tokens_pos_of_completed (h : s.completed.request = some q) : 0 < s.tokens q := by
  have : s.completed.request.toList.count q = 1 := by
    rw [h]
    exact List.count_singleton_self
  simp only [tokens]
  omega

/-- The lookup of a finished event finds the runner of its request. -/
theorem Counted.lookup_finished (h : Counted s) (hk : Kept s) (hc : s.completed = .finished q) :
    ∃ r, s.Handed q r ∧ s.loaded.lookup (s.request q).key = some r := by
  obtain ⟨r, hr, hf⟩ := h.token q (tokens_pos_of_completed (by rw [hc]; rfl))
  obtain ⟨hlt, hkey⟩ := h.wants q r (.handed hr)
  exact ⟨r, hr, hkey ▸ hk.present r hlt (h.secures q r (.handed hr hf))⟩

/-- The count of the runner goes down with its user. -/
theorem Counted.decrement (h : Counted s) (ha : Answered s) (hc : s.completed = .decrement q r) :
    Counted { s.modifyRunner r fun x => { x with refCount := Scheduler.decrement x.refCount } with
      finished := Function.update s.finished q true, completed := .select } := by
  have hr : s.Handed q r := h.given q r hc
  have htok : 0 < s.tokens q := tokens_pos_of_completed (by rw [hc]; rfl)
  have hfin : s.finished q = false := by
    obtain ⟨-, -, hf⟩ := h.token q htok
    exact hf
  have hfin' : ∀ q', Function.update s.finished q true q' = false ↔ q' ≠ q ∧ s.finished q' = false := by
    intro q'
    simp only [Function.update_apply]
    split
    · rename_i heq
      simp [heq]
    · rename_i hne
      simp [hne]
  have htokens : ∀ q', s.tokens q' = s.finishers.count q' + s.finishedReqCh.count q' + [q].count q' := by
    intro q'
    simp only [tokens, hc, Completed.request, Option.toList_some]
  refine ⟨fun q' r' hw => ?_, fun q' r' hs => ?_, fun r' hr' => ?_, fun q' => ?_, fun q' hq' => ?_, fun q' hq' => ?_,
    fun _ _ hq' => by cases hq'⟩
  · have hw : Wants s q' r' := by
      cases hw with
      | check hc => exact .check hc
      | use hc => exact .use hc
      | target hq ht => exact .target hq ht
      | load hl => exact .load hl
      | handed hr => exact .handed hr
    exact ⟨(h.wants q' r' hw).1, (modelKey_recount s r Scheduler.decrement r').trans (h.wants q' r' hw).2⟩
  · rw [RunnerRef.unloaded]
    refine fun hu => h.secures q' r' ?_ ((config_recount s r Scheduler.decrement r').symm.trans hu)
    cases hs with
    | use hc => exact .use hc
    | chosen hq ht => exact .chosen hq ht
    | load hl => exact .load hl
    | handed hr hf => exact .handed hr ((hfin' q').mp hf).2
  · have hcount : ((s.modifyRunner r (recount Scheduler.decrement)).runner r').refCount =
        if r' = r then Scheduler.decrement (s.runner r).refCount else (s.runner r').refCount := by
      rw [runner_modifyRunner]
      split <;> rfl
    refine hcount.trans ?_
    split
    · rename_i heq
      subst heq
      have hmem : q ∈ s.users r' := (mem_users ha).mpr ⟨hr, hfin⟩
      have hpos : 0 < (s.users r').card := Finset.card_pos.mpr ⟨q, hmem⟩
      have hdec : Scheduler.decrement (s.runner r').refCount = (s.users r').card - 1 := by
        rw [Scheduler.decrement, h.count r' hr', if_neg (by omega)]
      rw [hdec, ← Finset.card_erase_of_mem hmem]
      congr 1
      ext q'
      simp only [users, Finset.mem_erase, Finset.mem_filter, Finset.mem_range, hfin']
      constructor
      · rintro ⟨hne, hlt, hr, hf⟩
        exact ⟨hlt, hr, hne, hf⟩
      · rintro ⟨hlt, hr, hne, hf⟩
        exact ⟨hne, hlt, hr, hf⟩
    · rename_i hne
      rw [h.count r' hr']
      congr 1
      ext q'
      simp only [users, Finset.mem_filter, Finset.mem_range, hfin']
      refine and_congr_right fun _ => and_congr_right fun hr'' => ⟨fun hf => ⟨?_, hf⟩, fun hf => hf.2⟩
      rintro rfl
      exact hne (ha.handed_unique hr'' hr)
  · have h1 := h.once q'
    rw [htokens] at h1
    simp only [tokens, modifyRunner, Completed.request, Option.toList_none, List.count_nil]
    omega
  · have h1 := h.once q'
    rw [htokens] at h1
    simp only [tokens, modifyRunner, Completed.request, Option.toList_none, List.count_nil] at hq'
    obtain ⟨r', hr', hf⟩ := h.token q' (by rw [htokens]; omega)
    refine ⟨r', hr', (hfin' q').mpr ⟨?_, hf⟩⟩
    rintro rfl
    rw [List.count_singleton_self] at h1
    omega
  · have hq' : Function.update s.finished q true q' = true := hq'
    by_cases hqq : q' = q
    · rw [hqq]
      exact List.ne_nil_of_mem hr
    · rw [Function.update_of_ne hqq] at hq'
      exact h.early q' hq'

/-! ## Moves -/

/-- A goroutine has checked the runner, and has not counted itself yet. -/
def Claimed (s : Scheduler) (r : Nat) : Prop :=
  (∃ q ∈ List.range s.requests, s.caller q = .use r) ∨ s.pending.chosen = some r

instance (s : Scheduler) (r : Nat) : Decidable (s.Claimed r) := inferInstanceAs (Decidable (_ ∨ _))

/-- No runner is unloaded that a goroutine is about to hand out. -/
def Unclaimed (s : Scheduler) : Event → Prop
  | .expireCompleted => match s.completed with
    | .expired r => 0 < (s.runner r).refCount ∨ s.loaded.lookup (s.runner r).modelKey = none ∨ ¬ s.Claimed r
    | _ => True
  | _ => True

instance (s : Scheduler) (e : Event) : Decidable (Unclaimed s e) := by
  apply @Event.casesOn (fun e => Decidable (Unclaimed s e)) e
  case expireCompleted =>
    unfold Unclaimed
    dsimp only
    generalize s.completed = k
    refine Completed.casesOn k ?_ ?_ ?_ ?_ ?_ ?_ ?_ <;> intros <;> infer_instance
  all_goals
    intros
    exact .isTrue trivial

/-- Goroutines may only lose runners, and may only claim ones that are there. -/
theorem Counted.turn (h : Counted s) {p : Pending}
    (hw : ∀ q r, p.request = some q → p.target = some r → Wants s q r ∨
      r < s.runners ∧ (s.runner r).modelKey = (s.request q).key)
    (hs : ∀ q r, p.request = some q → p.chosen = some r → Secures s q r ∨ ¬ (s.runner r).unloaded) :
    Counted { s with pending := p } := by
  refine h.same {} (fun q r hq => ?_) (fun q r hq => ?_) fun q r hc => .inl hc
  · cases hq with
    | check hc => exact .inl (.check hc)
    | use hc => exact .inl (.use hc)
    | target hq ht => exact hw q r hq ht
    | load hl => exact .inl (.load hl)
    | handed hr => exact .inl (.handed hr)
  · cases hq with
    | use hc => exact .inl (.use hc)
    | chosen hq ht => exact hs q r hq ht
    | load hl => exact .inl (.load hl)
    | handed hr hf => exact .inl (.handed hr hf)

/-- `processPending` lets go of its runner. -/
theorem Counted.letGo (h : Counted s) {p : Pending} (hp : p.target = none) : Counted { s with pending := p } := by
  refine h.turn (fun q r _ ht => ?_) fun q r _ ht => ?_
  · rw [hp] at ht
    cases ht
  · rw [chosen_target ht] at hp
    cases hp

theorem Counted.call (h : Counted s) (q : Nat) {c : Caller}
    (hw : ∀ r, c = .check r ∨ c = .use r → r < s.runners ∧ (s.runner r).modelKey = (s.request q).key)
    (hs : ∀ r, c = .use r → ¬ (s.runner r).unloaded) : Counted { s with caller := Function.update s.caller q c } := by
  refine h.same {} (fun q' r hq => ?_) (fun q' r hq => ?_) fun q' r hc => .inl hc
  · cases hq with
    | check hc =>
      by_cases hqq : q' = q
      · subst hqq
        exact .inr (hw r (.inl ((Function.update_self ..).symm.trans hc)))
      · exact .inl (.check ((Function.update_of_ne hqq ..).symm.trans hc))
    | use hc =>
      by_cases hqq : q' = q
      · subst hqq
        exact .inr (hw r (.inr ((Function.update_self ..).symm.trans hc)))
      · exact .inl (.use ((Function.update_of_ne hqq ..).symm.trans hc))
    | target hq ht => exact .inl (.target hq ht)
    | load hl => exact .inl (.load hl)
    | handed hr => exact .inl (.handed hr)
  · cases hq with
    | use hc =>
      by_cases hqq : q' = q
      · subst hqq
        exact .inr (hs r ((Function.update_self ..).symm.trans hc))
      · exact .inl (.use ((Function.update_of_ne hqq ..).symm.trans hc))
    | chosen hq ht => exact .inl (.chosen hq ht)
    | load hl => exact .inl (.load hl)
    | handed hr hf => exact .inl (.handed hr hf)

/-- A caller that does not use a runner. -/
theorem Counted.hangUp (h : Counted s) (q : Nat) {c : Caller} (hc : c = .enqueue ∨ c = .returned) :
    Counted { s with caller := Function.update s.caller q c } := by
  refine h.call q (fun r hr => ?_) fun r hr => ?_
  · rcases hc with rfl | rfl <;> rcases hr with hr | hr <;> cases hr
  · rcases hc with rfl | rfl <;> cases hr

theorem Counted.erase_loader (h : Counted s) (l : Nat × Nat) : Counted { s with loaders := s.loaders.erase l } := by
  refine h.same {} (fun q r hq => .inl ?_) (fun q r hq => .inl ?_) fun q r hc => .inl hc
  · cases hq with
    | check hc => exact .check hc
    | use hc => exact .use hc
    | target hq ht => exact .target hq ht
    | load hl => exact .load (List.mem_of_mem_erase hl)
    | handed hr => exact .handed hr
  · cases hq with
    | use hc => exact .use hc
    | chosen hq ht => exact .chosen hq ht
    | load hl => exact .load (List.mem_of_mem_erase hl)
    | handed hr hf => exact .handed hr hf

/-- Neither the map nor the server that is loading matters here. -/
theorem Counted.frame (h : Counted s) (hsame : Same s s') (hp : SamePlaces s s')
    (hc : s'.completed = s.completed ∨ s'.completed.request = none := by exact .inl rfl) : Counted s' := by
  refine h.same hsame (fun q r hw => .inl (hp.wants hw)) (fun q r hs => .inl (hp.secures hs)) fun q r hd => ?_
  rcases hc with hc | hc
  · exact .inl (hc ▸ hd)
  · rw [hd] at hc
    cases hc

theorem Counted.request (h : Counted s) (ha : Answered s) (hk : Kept s) (req : LlmRequest) {c : Caller}
    (hc : c = .enqueue ∨ ∃ r, c = .check r ∧ s.loaded.lookup req.key = some r) :
    Counted { s with
      requests := s.requests + 1
      request := Function.update s.request s.requests req
      caller := Function.update s.caller s.requests c } := by
  have hreq : ∀ q, q < s.requests → Function.update s.request s.requests req q = s.request q :=
    fun q hq => Function.update_of_ne hq.ne _ _
  have hcall : ∀ q, q ≠ s.requests → Function.update s.caller s.requests c q = s.caller q :=
    fun q hq => Function.update_of_ne hq _ _
  have hwant : ∀ q r, Wants s q r → r < s.runners ∧
      (s.runner r).modelKey = (Function.update s.request s.requests req q).key := by
    intro q r hw
    have hlt : q < s.requests := by
      cases hw with
      | check hc => exact ha.lt_of_holders (holders_pos_of_caller (by rw [hc]; nofun))
      | use hc => exact ha.lt_of_holders (holders_pos_of_caller (by rw [hc]; nofun))
      | target hq _ => exact ha.lt_of_holders (holders_pos_of_pending hq)
      | load hl => exact ha.lt_of_holders (holders_pos_of_loader hl)
      | handed hr => exact ha.lt_of_reply hr
    rw [hreq q hlt]
    exact h.wants q r hw
  refine ⟨fun q r hw => ?_, fun q r hs => ?_, fun r hr => ?_, h.once, h.token, h.early, h.given⟩
  · cases hw with
    | check hcq =>
      by_cases hqq : q = s.requests
      · subst hqq
        have hcq : c = .check r := (Function.update_self ..).symm.trans hcq
        rcases hc with hc | ⟨r', hc, hr'⟩
        · rw [hc] at hcq
          cases hcq
        · rw [hc] at hcq
          obtain rfl := Caller.check.inj hcq
          obtain ⟨hlt, hkey, -⟩ := hk.keys _ _ hr'
          have hnew : Function.update s.request s.requests req s.requests = req := Function.update_self ..
          exact ⟨hlt, hkey.trans (congrArg LlmRequest.key hnew.symm)⟩
      · exact hwant q r (.check ((hcall q hqq).symm.trans hcq))
    | use hcq =>
      by_cases hqq : q = s.requests
      · subst hqq
        have hcq : c = .use r := (Function.update_self ..).symm.trans hcq
        rcases hc with hc | ⟨r', hc, -⟩ <;> rw [hc] at hcq <;> cases hcq
      · exact hwant q r (.use ((hcall q hqq).symm.trans hcq))
    | target hq ht => exact hwant q r (.target hq ht)
    | load hl => exact hwant q r (.load hl)
    | handed hr => exact hwant q r (.handed hr)
  · refine h.secures q r ?_
    cases hs with
    | use hcq =>
      by_cases hqq : q = s.requests
      · subst hqq
        have hcq : c = .use r := (Function.update_self ..).symm.trans hcq
        rcases hc with hc | ⟨r', hc, -⟩ <;> rw [hc] at hcq <;> cases hcq
      · exact .use ((hcall q hqq).symm.trans hcq)
    | chosen hq ht => exact .chosen hq ht
    | load hl => exact .load hl
    | handed hr hf => exact .handed hr hf
  · rw [h.count r hr]
    congr 1
    ext q
    simp only [users, Finset.mem_filter, Finset.mem_range]
    refine ⟨fun hq => ⟨Nat.lt_succ_of_lt hq.1, hq.2⟩, fun hq => ⟨?_, hq.2⟩⟩
    exact ha.lt_of_reply hq.2.1

/-- A runner that leaves the map, or is not in it, has no user. -/
theorem Counted.unused (h : Counted s) (hfree : s.refMuFree r) (hcount : (s.runner r).refCount = 0)
    (ha : Answered s) (hclaim : ¬ s.Claimed r) : ∀ q, ¬ Secures s q r := by
  intro q hs
  cases hs with
  | use hc =>
    have hlt := ha.lt_of_holders (holders_pos_of_caller (q := q) (by rw [hc]; nofun))
    exact hclaim (.inl ⟨q, List.mem_range.mpr hlt, hc⟩)
  | chosen _ hc => exact hclaim (.inr hc)
  | load hl => exact hfree.1 _ hl rfl
  | handed hr hf =>
    have hlt := (h.wants q r (.handed hr)).1
    have hmem : q ∈ s.users r := (mem_users ha).mpr ⟨hr, hf⟩
    have hpos : 0 < (s.users r).card := Finset.card_pos.mpr ⟨q, hmem⟩
    have := h.count r hlt
    omega

theorem Unclaimed.not_claimed (hok : Unclaimed s .expireCompleted) {r' : Nat} (hc : s.completed = .expired r)
    (hcount : (s.runner r).refCount = 0) (hr : s.loaded.lookup (s.runner r).modelKey = some r') : ¬ s.Claimed r := by
  simp only [Unclaimed, hc, hr] at hok
  rcases hok with hok | hok | hok
  · omega
  · cases hok
  · exact hok

theorem Counted.move (h : Counted s) (ha : Answered s) (hv : Vacant s) (hk : Kept s) (hclaim : Unclaimed s e)
    (hpid : OwnPid s e) (hm : Move s e s') : Counted s' := by
  cases hm with
  | stay => exact h
  | request req c hc => exact h.request ha hk req hc
  | @callerChecks _ q r hc hr =>
    refine h.call q (fun r' hr' => ?_) fun r' hr' => ?_
    · rcases hr' with hr' | hr' <;> cases hr'
      exact h.wants q r (.check hc)
    · cases hr'
      exact hr
  | @callerFails _ q r hc => exact h.hangUp q (.inl rfl)
  | @callerUses _ q r hc =>
    have hl := h.lend ha (holders_pos_of_caller (by rw [hc]; nofun)) (.use hc)
    exact (hl.hangUp q (.inr rfl)).frame {} {}
  | @callerQueues _ q hc =>
    exact (h.hangUp q (.inr rfl)).frame {} {}
  | @callerBusy _ q hc =>
    have he := h.reply_error q errMaxQueue
    exact (he.hangUp q (.inr rfl)).frame {} {}
  | @takes _ q rest hp hch => exact (h.letGo (p := .next q) rfl).frame {} {}
  | skips => exact h.frame {} {}
  | stops => exact h.letGo rfl
  | @turns _ q p hq hpq hplain =>
    refine h.letGo ?_
    unfold Pending.plain at hplain
    split at hplain
    · cases hplain
    · exact Option.isNone_iff_eq_none.mp hplain
  | @finds _ q r hp hr =>
    refine h.turn (fun q' r' hq' hr' => .inr ?_) nofun
    cases hq'
    cases hr'
    obtain ⟨hlt, hkey, -⟩ := hk.keys _ _ hr
    exact ⟨hlt, hkey⟩
  | @checks _ q r hp hr =>
    refine h.turn (fun q' r' hq' hr' => .inl ?_) fun q' r' hq' hr' => .inr ?_
    · cases hq'
      cases hr'
      exact .target (by rw [hp]; rfl) (by rw [hp]; rfl)
    · cases hr'
      exact hr
  | @uses _ q r hp =>
    have hl := h.lend ha (holders_pos_of_pending (by rw [hp]; rfl))
      (.chosen (by rw [hp]; rfl) (by rw [hp]; rfl : s.pending.chosen = some r))
    exact (hl.letGo (p := .select) rfl).frame {} {}
  | @unread _ err q n hp => exact ((h.reply_error q err).letGo (p := .select) rfl).frame {} {}
  | @opens _ q n x hp hmlx hx =>
    have hpub := h.publishRunner hx
    have hnew : (s.publishRunner x).runner s.runners = x := Function.update_self ..
    refine hpub.turn (fun q' r' hq' hr' => .inr ?_) fun q' r' hq' hr' => .inr ?_
    · cases hq'
      cases hr'
      rw [hnew]
      exact ⟨Nat.lt_succ_self _, hx.modelKey⟩
    · cases hr'
      rw [hnew]
      exact hx.config
  | @arms _ q r hp =>
    refine h.turn (fun q' r' hq' hr' => .inl ?_) fun q' r' hq' hr' => .inl ?_
    · cases hq'
      cases hr'
      exact .target (by rw [hp]; rfl) (by rw [hp]; rfl)
    · cases hq'
      cases hr'
      exact .chosen (by rw [hp]; rfl) (by rw [hp]; rfl)
  | @serves _ q full hp => exact (h.letGo (p := .fit q full) rfl).frame {} {}
  | panics => exact h.letGo rfl
  | @fails _ q err hp => exact ((h.reply_error q err).letGo (p := .select) rfl).frame {} {}
  | @publishes _ q pid x hp hnone hx =>
    have hpub := h.publishRunner hx
    have hnew : (s.publishRunner x).runner s.runners = x := Function.update_self ..
    refine (hpub.letGo (p := .select) rfl).same {} (fun q' r' hw => ?_) (fun q' r' hs => ?_) fun q' r' hc => .inl hc
    · cases hw with
      | check hc => exact .inl (.check hc)
      | use hc => exact .inl (.use hc)
      | target hq ht => exact .inl (.target hq ht)
      | load hl =>
        rcases List.mem_append.mp hl with hl | hl
        · exact .inl (.load hl)
        · cases List.mem_singleton.mp hl
          refine .inr ⟨Nat.lt_succ_self _, ?_⟩
          exact (congrArg RunnerRef.modelKey hnew).trans hx.modelKey
      | handed hr => exact .inl (.handed hr)
    · cases hs with
      | use hc => exact .inl (.use hc)
      | chosen hq ht => exact .inl (.chosen hq ht)
      | load hl =>
        rcases List.mem_append.mp hl with hl | hl
        · exact .inl (.load hl)
        · cases List.mem_singleton.mp hl
          refine .inr fun hu => hx.config ?_
          exact (congrArg RunnerRef.config hnew).symm.trans hu
      | handed hr hf => exact .inl (.handed hr hf)
  | @replaces _ q pid x old hp hold hx =>
    rw [hv.idle q (by rw [hp]; rfl) (by rw [hp]; rfl)] at hold
    cases hold
  | @loadFails _ q r err hmem => exact ((h.reply_error q err).erase_loader (q, r)).frame {} {}
  | @loadEnds _ q r hmem =>
    have hl := h.lend ha (holders_pos_of_loader hmem) (.load hmem)
    exact (hl.erase_loader (q, r)).frame {} {}
  | @rests _ c hc hcc =>
    refine h.frame { tokens := fun q => ?_ } {} (.inr hcc)
    simp only [tokens, hc, hcc]
  | @takesFinished _ q rest hc hch =>
    refine h.same { tokens := fun q' => ?_ } (fun _ _ hw => .inl ?_) (fun _ _ hs => .inl ?_) nofun
    · have hcount := count_cons_eq q rest q'
      simp only [tokens, hc, hch, Completed.request, Option.toList_some, Option.toList_none, List.count_nil]
      omega
    · exact SamePlaces.wants {} hw
    · exact SamePlaces.secures {} hs
  | @losesFinished _ q hc hr =>
    obtain ⟨r, -, hlookup⟩ := h.lookup_finished hk hc
    rw [hr] at hlookup
    cases hlookup
  | @findsFinished _ q r hc hr =>
    obtain ⟨r', hr', hlookup⟩ := h.lookup_finished hk hc
    refine h.same { tokens := fun q' => ?_ } (fun _ _ hw => .inl ?_) (fun _ _ hs => .inl ?_) fun q'' r'' hd => .inr ?_
    · simp only [tokens, hc, Completed.request]
    · exact SamePlaces.wants {} hw
    · exact SamePlaces.secures {} hs
    · cases hd
      rw [hr] at hlookup
      cases hlookup
      exact hr'
  | decrements hc => exact h.decrement ha hc
  | @orphans r r' hc hfree hcount hr hne =>
    have hunused : ∀ q, ¬ Secures s q r := by
      intro q hs
      have hp := hk.present r (h.wants q r hs.wants).1 (h.secures q r hs)
      rw [hr] at hp
      exact hne (by rw [Option.some.inj hp])
    refine (h.unload hunused).frame { tokens := fun q => ?_ } {} (.inr rfl)
    simp only [tokens, modifyRunner, hc, Completed.request]
  | @unloads r r' hc hfree hcount hr heq =>
    have hunused := h.unused hfree hcount ha (hclaim.not_claimed hc hcount hr)
    refine (h.unload hunused).frame { tokens := fun q => ?_ } {} (.inr rfl)
    simp only [tokens, modifyRunner, hc, Completed.request]
  | @finishes _ q hmem =>
    refine h.frame { tokens := fun q' => ?_ } {}
    have hcount := (List.perm_cons_erase hmem).count_eq q'
    have hcons := count_cons_eq q (s.finishers.erase q) q'
    simp only [tokens, List.count_append]
    omega

/-! ## Runs -/

/-- Neither of the two races takes place. -/
def Careful (s : Scheduler) (e : Event) : Prop := Unclaimed s e ∧ OwnPid s e

instance (s : Scheduler) (e : Event) : Decidable (Careful s e) := inferInstanceAs (Decidable (_ ∧ _))

theorem counted_of_reaches (h : Reaches Scheduler.step Careful Initial s) : Counted s := by
  induction h with
  | init hi =>
    obtain ⟨maxQueue, keepAlive, maxRunners, rfl⟩ := hi
    refine ⟨fun q r hw => ?_, fun q r hs => ?_, fun r hr => absurd hr (Nat.not_lt_zero r), fun _ => Nat.zero_le 1,
      fun q hq => absurd hq (Nat.lt_irrefl 0), nofun, nofun⟩
    · cases hw <;> contradiction
    · cases hs <;> contradiction
  | step e hr hok hs ih =>
    obtain ⟨ha, hv⟩ := vacant_of_reaches hr
    have hk := kept_of_reaches (fun _ _ h => h.2) hr
    obtain ⟨s₁, hm, hq⟩ := moves_of_step hs
    exact (ih.move ha hv hk hok.1 hok.2 hm).quiet hq

/-- No runner is unloaded that a request still has. -/
def HandedOutSafely (s : Scheduler) : Prop :=
  ∀ q r, s.Handed q r → (s.runner r).unloaded → s.finished q = true

/-- In a careful run, a runner is not unloaded when it is handed out, nor before its requests are finished. -/
theorem handed_out_safely (h : Reaches Scheduler.step Careful Initial s) : HandedOutSafely s := by
  intro q r hr hu
  by_contra hf
  exact (counted_of_reaches h).secures q r (.handed hr (Bool.not_eq_true _ ▸ hf)) hu

/-- The counts are exact, and a finished event goes to the runner of its request. -/
def RefCountExact (s : Scheduler) : Prop :=
  (∀ r, r < s.runners → (s.runner r).refCount = (s.users r).card) ∧
    (∀ q r, s.completed = .decrement q r → s.Handed q r ∧ s.finished q = false ∧ 0 < (s.runner r).refCount) ∧
    ∀ q, s.completed = .finished q → ∃ r, s.loaded.lookup (s.request q).key = some r ∧ s.Handed q r

theorem ref_count_exact (h : Reaches Scheduler.step Careful Initial s) : RefCountExact s := by
  have hc := counted_of_reaches h
  have ha := (vacant_of_reaches h).1
  refine ⟨hc.count, fun q r hd => ?_, fun q hq => ?_⟩
  · have hr := hc.given q r hd
    obtain ⟨-, -, hf⟩ := hc.token q (tokens_pos_of_completed (by rw [hd]; rfl))
    have hlt := (hc.wants q r (.handed hr)).1
    rw [hc.count r hlt]
    exact ⟨hr, hf, Finset.card_pos.mpr ⟨q, (mem_users ha).mpr ⟨hr, hf⟩⟩⟩
  · obtain ⟨r, hr, hlookup⟩ := hc.lookup_finished (kept_of_reaches (fun _ _ h => h.2) h) hq
    exact ⟨r, hlookup, hr⟩

/-- A model is loaded, its first request ends, and the second one is checked. -/
def idleRun : List Event :=
  let req : LlmRequest := { model := { modelPath := "a" } }
  [.getRunner req false, .caller 0 true, .takePending, .lookupPending, .refreshPending 1 none, .servePending none,
    .fitPending (.ok 7), .publishPending, .loader 0 0 (.ok 7), .cancel 0, .finish 0, .takeFinished, .lookupFinished,
    .decrementFinished, .getRunner req false, .caller 1 true]

/-- The timer goes off while the second request is between its check and its count. -/
def racingRun : List Event := idleRun ++ [.fire 0, .callback 0, .takeExpired, .expireCompleted, .recovered, .caller 1 true]

theorem idleRun_safe : ∃ s : Scheduler, Reaches Scheduler.step Careful Initial s ∧ s.Handed 1 0 ∧
    s.completed = .expired 0 ∧ HandedOutSafely s := by
  let s := (exec Scheduler.step { maxQueue := 512, keepAlive := 300, maxRunners := 0 }
    (idleRun ++ [Event.fire 0, .caller 1 true, .callback 0, .takeExpired])).get (by decide)
  have hs : Reaches Scheduler.step Careful Initial s :=
    reaches_of_exec (Reaches.init ⟨_, _, _, rfl⟩) (by decide) (Option.some_get _).symm
  exact ⟨s, hs, by decide, by decide, handed_out_safely hs⟩

theorem idleRun_exact : ∃ s : Scheduler, Reaches Scheduler.step Careful Initial s ∧ s.completed = .decrement 1 0 ∧
    (s.runner 0).refCount = 1 ∧ RefCountExact s := by
  let s := (exec Scheduler.step { maxQueue := 512, keepAlive := 300, maxRunners := 0 }
    (idleRun ++ [Event.caller 1 true, .cancel 1, .finish 1, .takeFinished, .lookupFinished])).get (by decide)
  have hs : Reaches Scheduler.step Careful Initial s :=
    reaches_of_exec (Reaches.init ⟨_, _, _, rfl⟩) (by decide) (Option.some_get _).symm
  exact ⟨s, hs, by decide, by decide, ref_count_exact hs⟩

/-- The request gets a runner that is unloaded, and its context is not done. -/
theorem racingRun_unsafe : ∃ s : Scheduler, Reaches Scheduler.step (fun _ _ => True) Initial s ∧
    s.ctxDone 1 = false ∧ ¬ HandedOutSafely s := by
  let s := (exec Scheduler.step { maxQueue := 512, keepAlive := 300, maxRunners := 0 } racingRun).get (by decide)
  have hs : Reaches Scheduler.step (fun _ _ => True) Initial s :=
    reaches_of_exec (Reaches.init ⟨_, _, _, rfl⟩) (by decide) (Option.some_get _).symm
  refine ⟨s, hs, by decide, fun hsafe => ?_⟩
  have hf : s.finished 1 = false := by decide
  rw [hsafe 1 0 (by decide) (by decide)] at hf
  cases hf

/-- The model is loaded again, and the end of the second request is counted for the new runner. -/
theorem racingRun_inexact : ∃ s : Scheduler, Reaches Scheduler.step (fun _ _ => True) Initial s ∧
    s.completed = .decrement 1 1 ∧ ¬ RefCountExact s := by
  let req : LlmRequest := { model := { modelPath := "a" } }
  let s := (exec Scheduler.step { maxQueue := 512, keepAlive := 300, maxRunners := 0 } (racingRun ++
    [.sendUnloaded, .getRunner req false, .caller 2 true, .takePending, .lookupPending, .refreshPending 1 none,
      .servePending none, .fitPending (.ok 8), .publishPending, .loader 2 1 (.ok 8), .cancel 1, .finish 1,
      .takeFinished, .lookupFinished])).get (by decide)
  have hs : Reaches Scheduler.step (fun _ _ => True) Initial s :=
    reaches_of_exec (Reaches.init ⟨_, _, _, rfl⟩) (by decide) (Option.some_get _).symm
  have hc : s.completed = .decrement 1 1 := by decide
  have hnot : ¬ s.Handed 1 1 := by decide
  exact ⟨s, hs, hc, fun hex => hnot (hex.2.1 1 1 hc).1⟩

end Scheduler

end Xdragon.Server
