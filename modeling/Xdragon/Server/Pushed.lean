import Xdragon.Server.Upload

/-!
# A call that returns nil has pushed

What a repository has is read off the log of replies. An upload that is done without an error was mounted or
committed, and every call that waits for it has its digest. It has the repository of the upload only if no
call finds an upload of another repository on the map.
-/

namespace Xdragon.Server.Upload

open Xdragon.Lib

variable {ρ δ : Type}

/-! ## What is claimed -/

/-- The status of a request that was granted. -/
def Success (status : Nat) : Prop := 200 ≤ status ∧ status < 300

instance (status : Nat) : Decidable (Success status) := inferInstanceAs (Decidable (_ ∧ _))

/-- The ranges, given by offset and size, fill the bytes from `start` to `stop` one after another. -/
def Tiles (stop : Nat) : Nat → List (Nat × Nat) → Prop
  | start, [] => start = stop
  | start, (offset, size) :: ranges => offset = start ∧ 0 < size ∧ Tiles stop (start + size) ranges

/-- The part was sent and accepted. -/
def Accepted (log : List (Reply ρ δ)) (u : Nat) (repo : ρ) (digest : δ) (range : Nat × Nat) : Prop :=
  ∃ status, Success status ∧ ⟨.part u repo digest range.1 range.2, status⟩ ∈ log

/-- The upload was mounted, or all of its parts were accepted and then the commit. -/
def Uploaded (size : Nat) (log : List (Reply ρ δ)) (u : Nat) (repo : ρ) (digest : δ) : Prop :=
  ⟨.create u repo digest, 201⟩ ∈ log ∨
    ∃ ranges earlier status, Tiles size 0 ranges ∧ (∀ r ∈ ranges, Accepted earlier u repo digest r) ∧
      Success status ∧ earlier ++ [⟨.commit u repo digest, status⟩] <+: log

/-- The repository has the blob, as far as the call can know. -/
def Pushed (size : Nat) (log : List (Reply ρ δ)) (c : Nat) (repo : ρ) (digest : δ) : Prop :=
  (∃ status, Success status ∧ ⟨.head c repo digest, status⟩ ∈ log) ∨ ∃ u, Uploaded size log u repo digest

/-- The reply grants the request or refuses it. -/
def Answer.Decided (a : Answer) : Prop := ∀ status ∈ a.status.toList, Success status ∨ 400 ≤ status

instance (a : Answer) : Decidable a.Decided := inferInstanceAs (Decidable (∀ status ∈ a.status.toList, _))

/-- A call finds no upload of another repository on the map, and no reply is left open: only the request of a
part may be redirected, with the status that the code looks for. -/
def Own [DecidableEq δ] (s : State ρ δ) : Event ρ δ → Prop
  | .loadOrStore c =>
    ∀ x ∈ s.callers[c]?.toList, ∀ u ∈ (s.manager.lookup x.digest).toList, ∀ up ∈ s.uploads[u]?.toList, up.repo = x.repo
  | .head _ answers => ∀ a ∈ answers, a.Decided
  | .run _ (.answer _ _ a) => a.status = some 307 ∨ a.Decided
  | .run _ (.commit answers) => ∀ a ∈ answers, a.Decided
  | _ => True

instance [DecidableEq ρ] [DecidableEq δ] (s : State ρ δ) (e : Event ρ δ) : Decidable (Own s e) := by
  unfold Own
  split <;> infer_instance

/-! ## The log only grows -/

theorem Accepted.mono {log : List (Reply ρ δ)} {u : Nat} {repo : ρ} {digest : δ} {range : Nat × Nat}
    (h : Accepted log u repo digest range) (rs : List (Reply ρ δ)) : Accepted (log ++ rs) u repo digest range := by
  obtain ⟨status, hok, hmem⟩ := h
  exact ⟨status, hok, List.mem_append_left rs hmem⟩

theorem Uploaded.mono {size : Nat} {log : List (Reply ρ δ)} {u : Nat} {repo : ρ} {digest : δ}
    (h : Uploaded size log u repo digest) (rs : List (Reply ρ δ)) : Uploaded size (log ++ rs) u repo digest := by
  rcases h with h | ⟨ranges, earlier, status, htiles, hall, hok, hlog⟩
  · exact Or.inl (List.mem_append_left rs h)
  · exact Or.inr ⟨ranges, earlier, status, htiles, hall, hok, hlog.trans (List.prefix_append log rs)⟩

theorem Pushed.mono {size : Nat} {log : List (Reply ρ δ)} {c : Nat} {repo : ρ} {digest : δ}
    (h : Pushed size log c repo digest) (rs : List (Reply ρ δ)) : Pushed size (log ++ rs) c repo digest := by
  rcases h with ⟨status, hok, hmem⟩ | ⟨u, hu⟩
  · exact Or.inl ⟨status, hok, List.mem_append_left rs hmem⟩
  · exact Or.inr ⟨u, hu.mono rs⟩

/-! ## Requests with retries -/

/-- A request that succeeds has its status from the last reply, and that one is no error. -/
theorem makeRequestWithRetry_ok {n : Nat} {answers : List Answer} {status : Nat}
    (h : makeRequestWithRetry n answers = some (.ok status)) :
    status < 400 ∧ ∃ before later, answers = before ++ [.reply status later] := by
  fun_induction makeRequestWithRetry n answers with
  | case1 => cases h
  | case2 => cases h
  | case3 => cases h
  | case4 => cases h
  | case5 n answers ih =>
    obtain ⟨hlt, before, later, rfl⟩ := ih h
    exact ⟨hlt, _ :: before, later, rfl⟩
  | case6 => cases h
  | case7 => cases h
  | case8 => cases h
  | case9 n st later answers hne hnil h404 h400 =>
    simp only [Option.some.injEq, Except.ok.injEq] at h
    subst h
    obtain rfl := Classical.not_not.mp hnil
    exact ⟨by omega, [], later, rfl⟩
  | case10 => cases h

theorem replies_append (request : Request ρ δ) (as bs : List Answer) :
    replies request (as ++ bs) = replies request as ++ replies request bs := by
  unfold replies
  rw [List.filterMap_append, List.map_append]

/-- The reply of a request that was granted is the last one. -/
theorem replies_ok {n : Nat} {answers : List Answer} {status : Nat}
    (h : makeRequestWithRetry n answers = some (.ok status)) (request : Request ρ δ) :
    ∃ before, replies request answers = before ++ [⟨request, status⟩] := by
  obtain ⟨-, before, later, rfl⟩ := makeRequestWithRetry_ok h
  exact ⟨replies request before, by rw [replies_append]; rfl⟩

theorem success_of_ok {n : Nat} {answers : List Answer} {status : Nat}
    (h : makeRequestWithRetry n answers = some (.ok status)) (hall : ∀ a ∈ answers, a.Decided) : Success status := by
  obtain ⟨hlt, before, later, rfl⟩ := makeRequestWithRetry_ok h
  have hlast := hall (.reply status later) (by simp)
  rcases hlast status (by simp [Answer.status]) with hok | hge
  · exact hok
  · omega

/-! ## The plan of the parts -/

def Part.range (p : Part) : Nat × Nat := (p.offset, p.size)

theorem Tiles.append {a b c : Nat} {rs ts : List (Nat × Nat)} (h : Tiles b a rs) (h' : Tiles c b ts) :
    Tiles c a (rs ++ ts) := by
  induction rs generalizing a with
  | nil =>
    obtain rfl : a = b := h
    exact h'
  | cons r rs ih =>
    obtain ⟨hoffset, hsize, hrest⟩ := h
    exact ⟨hoffset, hsize, ih hrest⟩

theorem partSize_pos (total : Nat) : 0 < partSize total := by
  unfold partSize minUploadPartSize maxUploadPartSize
  simp only
  repeat' split
  all_goals omega

theorem addParts_tiles {total fuel offset size : Nat} {parts : List Part}
    (h : Tiles offset 0 (parts.map Part.range)) (hle : offset ≤ total) (hfuel : total ≤ offset + fuel) (hpos : 0 < size) :
    Tiles total 0 ((addParts total fuel offset size parts).map Part.range) := by
  induction fuel generalizing offset size parts with
  | zero =>
    obtain rfl : offset = total := by omega
    exact h
  | succ fuel ih =>
    unfold addParts
    split
    · apply ih
      · rw [List.map_append]
        apply h.append
        refine ⟨rfl, ?_, rfl⟩
        dsimp only
        split <;> omega
      · split <;> omega
      · split <;> omega
      · split <;> omega
    · obtain rfl : offset = total := by omega
      exact h

theorem addParts_hash (total fuel offset size : Nat) {parts : List Part} (h : ∀ p ∈ parts, p.work = .waiting ∧ p.hash = false) :
    ∀ p ∈ addParts total fuel offset size parts, p.work = .waiting ∧ p.hash = false := by
  induction fuel generalizing offset size parts with
  | zero => exact h
  | succ fuel ih =>
    unfold addParts
    split
    · apply ih
      intro p hp
      rcases List.mem_append.mp hp with hp | hp
      · exact h p hp
      · rw [List.mem_singleton] at hp
        subst hp
        exact ⟨rfl, rfl⟩
    · exact h

/-! ## One upload -/

/-- A part that was accepted, and whose goroutine may still have to hand over the location. -/
def Part.Taken (p : Part) : Prop := p.hash = true ∨ ∃ tries, p.work = .sending tries .accepted

/-- Nothing has happened to the upload since it was stored. -/
structure Fresh (up : Upload ρ δ) : Prop where
  parts : up.parts = []
  nextURL : up.nextURL = none
  done : up.done = false
  run : up.run = .idle

structure Sound (size : Nat) (log : List (Reply ρ δ)) (u : Nat) (up : Upload ρ δ) : Prop where
  tiles : up.nextURL ≠ none → Tiles size 0 (up.parts.map Part.range)
  taken : ∀ p ∈ up.parts, p.Taken → Accepted log u up.repo up.digest p.range
  committing : ∀ k, up.run = .committing k → up.nextURL ≠ none ∧ ∀ p ∈ up.parts, p.hash = true
  done : up.done = true → up.err = false → Uploaded size log u up.repo up.digest

theorem Sound.mono {size u : Nat} {log : List (Reply ρ δ)} {up : Upload ρ δ} (h : Sound size log u up)
    (rs : List (Reply ρ δ)) : Sound size (log ++ rs) u up :=
  ⟨h.tiles, fun p hp ht => (h.taken p hp ht).mono rs, h.committing, fun hd he => (h.done hd he).mono rs⟩

/-- What a step of a part keeps. -/
structure Part.Moved (p p' : Part) : Prop where
  range : p'.range = p.range
  hash : p.hash = true → p'.hash = true

theorem Part.answer_moved (p : Part) (tries : List Nat) (parsed : Bool) (a : Answer) :
    p.Moved (p.answer tries parsed a) := by
  unfold Part.answer
  repeat' split
  all_goals exact ⟨rfl, by simp⟩

theorem Part.sent_moved (p : Part) (tries : List Nat) (next : Then) : p.Moved (p.sent tries next) := by
  unfold Part.sent
  split
  all_goals exact ⟨rfl, by simp⟩

theorem Work.fail_ne (tries tries' : List Nat) (e : Err) (next : Then) : Work.fail tries e ≠ .sending tries' next := by
  unfold Work.fail
  repeat' split
  all_goals simp

theorem Part.taken_fail {p : Part} {tries : List Nat} {e : Err} (h : { p with work := Work.fail tries e }.Taken) :
    p.hash = true := by
  rcases h with h | ⟨tries', h⟩
  · exact h
  · exact (Work.fail_ne _ _ _ _ h).elim

/-- A part is taken by a reply that is no error and no redirect. -/
theorem Part.answer_taken {p : Part} {tries : List Nat} {parsed : Bool} {a : Answer}
    (h : (p.answer tries parsed a).Taken) :
    p.hash = true ∨ ∃ status, a.status = some status ∧ status ≠ 307 ∧ status < 400 := by
  unfold Part.answer at h
  split at h
  · exact Or.inl (Part.taken_fail h)
  · rename_i status later
    split at h
    · exact Or.inl (Part.taken_fail h)
    split at h
    · rcases h with h | ⟨tries', h⟩
      · exact Or.inl h
      · cases h
    split at h
    · exact Or.inl (Part.taken_fail h)
    · exact Or.inr ⟨status, rfl, ‹_›, by omega⟩

theorem Part.sent_taken {p : Part} {tries : List Nat} {next : Then} (hp : p.work = .sending tries next)
    (h : (p.sent tries next).Taken) : p.Taken := by
  unfold Part.sent at h
  split at h
  · exact Or.inr ⟨tries, hp⟩
  · exact Or.inl (Part.taken_fail h)
  · rcases h with h | ⟨tries', h⟩
    · exact Or.inl h
    · cases h

theorem map_set_of_eq {α β : Type} {f : α → β} {xs : List α} {k : Nat} {x y : α} (hx : xs[k]? = some x)
    (hf : f y = f x) : (xs.set k y).map f = xs.map f := by
  apply List.ext_getElem?
  intro i
  rw [List.getElem?_map, List.getElem?_map, List.getElem?_set]
  split
  · rename_i hki
    subst hki
    rw [if_pos (List.getElem?_eq_some_iff.mp hx).1, hx, Option.map_some, Option.map_some, hf]
  · rfl

theorem Sound.setPart {size u k : Nat} {log : List (Reply ρ δ)} {up : Upload ρ δ} (h : Sound size log u up) {p p' : Part}
    (hp : up.parts[k]? = some p) (hmoved : p.Moved p')
    (htaken : p'.Taken → Accepted log u up.repo up.digest p.range) : Sound size log u (up.setPart k p') := by
  have hmem : ∀ q ∈ up.parts.set k p', q = p' ∨ q ∈ up.parts := by
    intro q hq
    exact (List.mem_or_eq_of_mem_set hq).symm
  refine ⟨?_, ?_, ?_, h.done⟩
  · intro hne
    unfold Upload.setPart
    rw [map_set_of_eq hp hmoved.range]
    exact h.tiles hne
  · intro q hq ht
    rcases hmem q hq with rfl | hq
    · rw [hmoved.range]
      exact htaken ht
    · exact h.taken q hq ht
  · intro n hrun
    obtain ⟨hne, hall⟩ := h.committing n hrun
    refine ⟨hne, fun q hq => ?_⟩
    rcases hmem q hq with rfl | hq
    · exact hmoved.hash (hall p (List.mem_of_getElem? hp))
    · exact hall q hq

/-- A step of `Run` that touches neither the parts nor the result. -/
theorem Sound.go {size u : Nat} {log : List (Reply ρ δ)} {up : Upload ρ δ} (h : Sound size log u up) {run : Run}
    (hrun : ∀ k, run ≠ .committing k) : Sound size log u { up with run } :=
  ⟨h.tiles, h.taken, fun k hk => absurd hk (hrun k), h.done⟩

/-- The replies to the requests of an upload are decided. -/
def RunEvent.Decided : RunEvent → Prop
  | .answer _ _ a => a.status = some 307 ∨ a.Decided
  | .commit answers => ∀ a ∈ answers, a.Decided
  | _ => True

/-- The commit was granted, and every part was before it. -/
theorem Sound.committed {size u k : Nat} {log : List (Reply ρ δ)} {up : Upload ρ δ} (h : Sound size log u up)
    (hrun : up.run = .committing k) {answers : List Answer} {status : Nat}
    (hok : makeRequestWithRetry 2 answers = some (.ok status)) (hall : ∀ a ∈ answers, a.Decided) :
    Uploaded size (log ++ replies (.commit u up.repo up.digest) answers) u up.repo up.digest := by
  obtain ⟨hne, hhash⟩ := h.committing k hrun
  obtain ⟨before, hreplies⟩ := replies_ok hok (.commit u up.repo up.digest)
  refine Or.inr ⟨up.parts.map Part.range, log ++ before, status, h.tiles hne, ?_, success_of_ok hok hall, ?_⟩
  · intro r hr
    obtain ⟨p, hp, rfl⟩ := List.mem_map.mp hr
    exact (h.taken p hp (Or.inl (hhash p hp))).mono before
  · exact ⟨[], by rw [List.append_nil, hreplies, List.append_assoc]⟩

/-- A part that has no reply yet, or has failed, keeps what it had. -/
theorem Sound.setWork {size u k : Nat} {log : List (Reply ρ δ)} {up : Upload ρ δ} (h : Sound size log u up) {p : Part}
    (hp : up.parts[k]? = some p) {work : Work} (hwork : ∀ tries, work ≠ .sending tries .accepted) :
    Sound size log u (up.setPart k { p with work }) := by
  have hmoved : p.Moved { p with work } := ⟨rfl, fun hhash => hhash⟩
  apply h.setPart hp hmoved
  rintro (hhash | ⟨tries, htries⟩)
  · exact h.taken p (List.mem_of_getElem? hp) (Or.inl hhash)
  · exact absurd htries (hwork tries)

/-- `nextURL` changes between full and empty. -/
theorem Sound.move {size u : Nat} {log : List (Reply ρ δ)} {up : Upload ρ δ} (h : Sound size log u up)
    (hne : up.nextURL ≠ none) (full : Bool) : Sound size log u { up with nextURL := some full } :=
  ⟨fun _ => h.tiles hne, h.taken, fun k hk => ⟨by simp, (h.committing k hk).2⟩, h.done⟩

theorem Sound.step {size u : Nat} {log : List (Reply ρ δ)} {up up' : Upload ρ δ} {e : RunEvent} {rs : List (Reply ρ δ)}
    (h : Sound size log u up) (hok : e.Decided) (hs : up.step u e = some (up', rs)) :
    Sound size (log ++ rs) u up' ∧ up'.repo = up.repo ∧ up'.digest = up.digest := by
  have h' := h.mono rs
  unfold Upload.step at hs
  cases e with
  | start opened =>
    simp only at hs
    repeat' split at hs
    all_goals simp only [reduceCtorEq, Option.some.injEq, Prod.mk.injEq] at hs
    all_goals obtain ⟨rfl, rfl⟩ := hs
    · exact ⟨⟨h'.tiles, h'.taken, by simp, h'.done⟩, rfl, rfl⟩
    · exact ⟨⟨h'.tiles, h'.taken, by simp, by simp⟩, rfl, rfl⟩
  | skip =>
    simp only at hs
    repeat' split at hs
    all_goals simp only [reduceCtorEq, Option.some.injEq, Prod.mk.injEq] at hs
    obtain ⟨rfl, rfl⟩ := hs
    exact ⟨(h'.setWork ‹_› (by simp)).go (by simp), rfl, rfl⟩
  | take =>
    simp only at hs
    repeat' split at hs
    all_goals simp only [reduceCtorEq, Option.some.injEq, Prod.mk.injEq] at hs
    obtain ⟨rfl, rfl⟩ := hs
    rename_i hurl _
    exact ⟨(h'.move (by rw [hurl]; simp) false).go (by simp), rfl, rfl⟩
  | go =>
    simp only at hs
    repeat' split at hs
    all_goals simp only [reduceCtorEq, Option.some.injEq, Prod.mk.injEq] at hs
    obtain ⟨rfl, rfl⟩ := hs
    exact ⟨(h'.setWork ‹_› (by simp)).go (by simp), rfl, rfl⟩
  | answer k parsed a =>
    simp only at hs
    repeat' split at hs
    all_goals simp only [reduceCtorEq, Option.some.injEq, Prod.mk.injEq] at hs
    obtain ⟨rfl, rfl⟩ := hs
    rename_i p hp _ tries _
    refine ⟨h'.setPart hp (p.answer_moved tries parsed a) ?_, rfl, rfl⟩
    intro ht
    rcases Part.answer_taken ht with hhash | ⟨status, hstatus, h307, h400⟩
    · exact h'.taken p (List.mem_of_getElem? hp) (Or.inl hhash)
    · refine ⟨status, ?_, ?_⟩
      · rcases hok with hok | hok
        · rw [hok] at hstatus
          exact absurd (Option.some.inj hstatus).symm h307
        · rcases hok status (by simp [hstatus]) with hok | hge
          · exact hok
          · omega
      · simp [replies, hstatus, Part.range]
  | send k =>
    simp only at hs
    repeat' split at hs
    all_goals simp only [reduceCtorEq, Option.some.injEq, Prod.mk.injEq] at hs
    obtain ⟨rfl, rfl⟩ := hs
    rename_i p hp hurl _ tries next hwork
    have hset := h'.setPart hp (p.sent_moved tries next) fun ht =>
      h'.taken p (List.mem_of_getElem? hp) (Part.sent_taken hwork ht)
    exact ⟨hset.move (by simp [Upload.setPart, hurl]) true, rfl, rfl⟩
  | wait =>
    simp only at hs
    repeat' split at hs
    all_goals simp only [reduceCtorEq, Option.some.injEq, Prod.mk.injEq] at hs
    all_goals obtain ⟨rfl, rfl⟩ := hs
    · exact ⟨⟨h'.tiles, h'.taken, by simp, by simp⟩, rfl, rfl⟩
    · exact ⟨h'.go (by simp), rfl, rfl⟩
  | url =>
    simp only at hs
    split at hs
    all_goals simp only [reduceCtorEq, Option.some.injEq, Prod.mk.injEq] at hs
    obtain ⟨rfl, rfl⟩ := hs
    rename_i hready
    obtain ⟨-, hurl, hall⟩ := hready
    have hmove := h'.move (by rw [hurl]; simp) false
    exact ⟨⟨hmove.tiles, hmove.taken, fun k _ => ⟨by simp, List.all_eq_true.mp hall⟩, hmove.done⟩, rfl, rfl⟩
  | commit answers =>
    simp only at hs
    split at hs
    · rename_i attempt hrun
      obtain ⟨result, hresult, heq⟩ := Option.map_eq_some_iff.mp hs
      simp only [Prod.mk.injEq] at heq
      obtain ⟨rfl, rfl⟩ := heq
      split
      · have hcommit := h.committed hrun hresult hok
        exact ⟨⟨h'.tiles, h'.taken, by simp [Upload.finish], fun _ _ => hcommit⟩, rfl, rfl⟩
      · split
        · refine ⟨⟨h'.tiles, h'.taken, fun _ _ => h'.committing attempt hrun, h'.done⟩, rfl, rfl⟩
        · exact ⟨⟨h'.tiles, h'.taken, by simp [Upload.finish], by simp [Upload.finish]⟩, rfl, rfl⟩
    · cases hs
  | delete =>
    simp only at hs
    split at hs
    all_goals simp only [reduceCtorEq, Option.some.injEq, Prod.mk.injEq] at hs
    obtain ⟨rfl, rfl⟩ := hs
    exact ⟨h'.go (by simp), rfl, rfl⟩

/-- `Run` has not started on a fresh upload. -/
theorem Fresh.step {up : Upload ρ δ} (h : Fresh up) (u : Nat) (e : RunEvent) : up.step u e = none := by
  unfold Upload.step
  cases e <;> simp [h.run, h.parts]

/-! ## All uploads and calls -/

section
variable {fileSize : δ → Nat} {s s' : State ρ δ}

/-- The upload belongs to the repository and has the digest of the call. -/
structure Serves (up : Upload ρ δ) (x : Caller ρ δ) : Prop where
  repo : up.repo = x.repo
  digest : up.digest = x.digest

/-- What is known about a call where it is. -/
def Placed (fileSize : δ → Nat) (s : State ρ δ) (c : Nat) (x : Caller ρ δ) : Prop :=
  match x.phase with
  | .head | .store => True
  | .prepare u => ∃ up, s.uploads[u]? = some up ∧ Serves up x ∧ Fresh up
  | .wait u | .polling u => ∃ up, s.uploads[u]? = some up ∧ Serves up x
  | .releasing _ err | .returned err => err = false → Pushed (fileSize x.digest) s.log c x.repo x.digest

structure Inv (fileSize : δ → Nat) (s : State ρ δ) : Prop where
  uploads : ∀ u up, s.uploads[u]? = some up → Sound (fileSize up.digest) s.log u up
  callers : ∀ c x, s.callers[c]? = some x → Placed fileSize s c x
  manager : ∀ digest u, (digest, u) ∈ s.manager → ∃ up, s.uploads[u]? = some up ∧ up.digest = digest
  /-- Two calls do not prepare one upload. -/
  alone : ∀ (c c' : Nat) (x x' : Caller ρ δ) (u : Nat), s.callers[c]? = some x → s.callers[c']? = some x' → x.phase = .prepare u →
    x'.phase = .prepare u → c = c'

/-- What a step keeps of the uploads and of the log, the upload that it prepares apart. -/
structure Kept (s s' : State ρ δ) (ex : Option Nat) : Prop where
  log : ∃ rs, s'.log = s.log ++ rs
  uploads : ∀ u up, s.uploads[u]? = some up → ∃ up', s'.uploads[u]? = some up' ∧ up'.repo = up.repo ∧
    up'.digest = up.digest ∧ (ex ≠ some u → Fresh up → Fresh up')

theorem Placed.mono {c : Nat} {x : Caller ρ δ} {ex : Option Nat} (h : Placed fileSize s c x) (hkept : Kept s s' ex)
    (hex : ∀ u, x.phase = .prepare u → ex ≠ some u) : Placed fileSize s' c x := by
  obtain ⟨repo, digest, phase⟩ := x
  obtain ⟨rs, hlog⟩ := hkept.log
  unfold Placed at h ⊢
  cases phase with
  | head => trivial
  | store => trivial
  | prepare u =>
    obtain ⟨up, hup, hserves, hfresh⟩ := h
    obtain ⟨up', hup', hrepo, hdigest, hstill⟩ := hkept.uploads u up hup
    exact ⟨up', hup', ⟨hrepo.trans hserves.repo, hdigest.trans hserves.digest⟩, hstill (hex u rfl) hfresh⟩
  | wait u =>
    obtain ⟨up, hup, hserves⟩ := h
    obtain ⟨up', hup', hrepo, hdigest, -⟩ := hkept.uploads u up hup
    exact ⟨up', hup', hrepo.trans hserves.repo, hdigest.trans hserves.digest⟩
  | polling u =>
    obtain ⟨up, hup, hserves⟩ := h
    obtain ⟨up', hup', hrepo, hdigest, -⟩ := hkept.uploads u up hup
    exact ⟨up', hup', hrepo.trans hserves.repo, hdigest.trans hserves.digest⟩
  | releasing u err =>
    intro herr
    rw [hlog]
    exact (h herr).mono rs
  | returned err =>
    intro herr
    rw [hlog]
    exact (h herr).mono rs

theorem Inv.move (h : Inv fileSize s) {c : Nat} {x : Caller ρ δ} (phase : Phase) (ex : Option Nat)
    (hx : s.callers[c]? = some x) (hcallers : s'.callers = s.callers.set c { x with phase }) (hkept : Kept s s' ex)
    (huploads : ∀ u up, s'.uploads[u]? = some up → Sound (fileSize up.digest) s'.log u up)
    (hmanager : ∀ digest u, (digest, u) ∈ s'.manager → ∃ up, s'.uploads[u]? = some up ∧ up.digest = digest)
    (hex : ∀ u, ex = some u → x.phase = .prepare u)
    (hplaced : Placed fileSize s' c { x with phase })
    (hnew : ∀ u, phase = .prepare u → s.uploads[u]? = none) : Inv fileSize s' := by
  have hcases : ∀ (c' : Nat) (x' : Caller ρ δ), s'.callers[c']? = some x' → c' = c ∧ x' = { x with phase } ∨ c' ≠ c ∧ s.callers[c']? = some x' := by
    intro c' x' hx'
    rw [hcallers, List.getElem?_set] at hx'
    split at hx'
    · rename_i hcc
      rw [if_pos (List.getElem?_eq_some_iff.mp hx).1] at hx'
      exact Or.inl ⟨hcc.symm, (Option.some.inj hx').symm⟩
    · rename_i hne
      exact Or.inr ⟨fun hc => hne hc.symm, hx'⟩
  -- an upload that another call prepares was there before
  have hold : ∀ (c' : Nat) (x' : Caller ρ δ) (u : Nat), s.callers[c']? = some x' → x'.phase = .prepare u → s.uploads[u]? ≠ none := by
    intro c' x' u hx' hphase
    have hpl := h.callers c' x' hx'
    unfold Placed at hpl
    rw [hphase] at hpl
    obtain ⟨up, hup, -⟩ := hpl
    rw [hup]
    simp
  refine ⟨huploads, ?_, hmanager, ?_⟩
  · intro c' x' hx'
    rcases hcases c' x' hx' with ⟨rfl, rfl⟩ | ⟨hne, hx'⟩
    · exact hplaced
    · apply (h.callers c' x' hx').mono hkept
      intro u hphase hu
      exact hne (h.alone c' c x' x u hx' hx hphase (hex u hu))
  · intro c₁ c₂ x₁ x₂ u h₁ h₂ hp₁ hp₂
    rcases hcases c₁ x₁ h₁ with ⟨rfl, rfl⟩ | ⟨hne₁, h₁⟩ <;> rcases hcases c₂ x₂ h₂ with ⟨rfl, rfl⟩ | ⟨hne₂, h₂⟩
    · rfl
    · exact absurd (hnew u hp₁) (hold c₂ x₂ u h₂ hp₂)
    · exact absurd (hnew u hp₂) (hold c₁ x₁ u h₁ hp₁)
    · exact h.alone c₁ c₂ x₁ x₂ u h₁ h₂ hp₁ hp₂

theorem Kept.record (s : State ρ δ) (rs : List (Reply ρ δ)) {s' : State ρ δ} {ex : Option Nat}
    (huploads : s'.uploads = s.uploads) (hlog : s'.log = s.log ++ rs) : Kept s s' ex :=
  ⟨⟨rs, hlog⟩, fun u up hup => ⟨up, by rw [huploads]; exact hup, rfl, rfl, fun _ hf => hf⟩⟩

theorem Kept.set {u : Nat} {up up' : Upload ρ δ} {rs : List (Reply ρ δ)} {ex : Option Nat} (hup : s.uploads[u]? = some up)
    (huploads : s'.uploads = s.uploads.set u up') (hlog : s'.log = s.log ++ rs) (hrepo : up'.repo = up.repo)
    (hdigest : up'.digest = up.digest) (hfresh : ex ≠ some u → Fresh up → Fresh up') : Kept s s' ex := by
  refine ⟨⟨rs, hlog⟩, fun v w hw => ?_⟩
  rw [huploads, List.getElem?_set]
  split
  · rename_i huv
    subst huv
    obtain rfl : up = w := Option.some.inj (hup.symm.trans hw)
    rw [if_pos (List.getElem?_eq_some_iff.mp hup).1]
    exact ⟨up', rfl, hrepo, hdigest, hfresh⟩
  · exact ⟨w, hw, rfl, rfl, fun _ hf => hf⟩

theorem Inv.uploads_record (h : Inv fileSize s) (rs : List (Reply ρ δ)) (u : Nat) (up : Upload ρ δ)
    (hup : s.uploads[u]? = some up) : Sound (fileSize up.digest) (s.log ++ rs) u up := (h.uploads u up hup).mono rs

theorem Inv.uploads_set (h : Inv fileSize s) {u : Nat} {up' : Upload ρ δ} {rs : List (Reply ρ δ)}
    (hsound : Sound (fileSize up'.digest) (s.log ++ rs) u up') (v : Nat) (w : Upload ρ δ)
    (hw : (s.uploads.set u up')[v]? = some w) : Sound (fileSize w.digest) (s.log ++ rs) v w := by
  rw [List.getElem?_set] at hw
  split at hw
  · rename_i huv
    subst huv
    split at hw
    · obtain rfl := Option.some.inj hw
      exact hsound
    · cases hw
  · exact (h.uploads v w hw).mono rs

theorem Inv.manager_set (h : Inv fileSize s) {u : Nat} {up up' : Upload ρ δ} (hup : s.uploads[u]? = some up)
    (hdigest : up'.digest = up.digest) {manager : List (δ × Nat)} (hsub : ∀ e ∈ manager, e ∈ s.manager) (digest : δ)
    (v : Nat) (hv : (digest, v) ∈ manager) : ∃ w, (s.uploads.set u up')[v]? = some w ∧ w.digest = digest := by
  obtain ⟨w, hw, hd⟩ := h.manager digest v (hsub _ hv)
  rw [List.getElem?_set]
  split
  · rename_i huv
    subst huv
    obtain rfl : up = w := Option.some.inj (hup.symm.trans hw)
    rw [if_pos (List.getElem?_eq_some_iff.mp hup).1]
    exact ⟨up', rfl, hdigest.trans hd⟩
  · exact ⟨w, hw, hd⟩

/-! ## The steps -/

theorem Inv.call (h : Inv fileSize s) (repo : ρ) (digest : δ) :
    Inv fileSize { s with callers := s.callers ++ [⟨repo, digest, .head⟩] } := by
  have hcases : ∀ (c : Nat) (x : Caller ρ δ), (s.callers ++ [⟨repo, digest, .head⟩])[c]? = some x →
      s.callers[c]? = some x ∨ x.phase = .head := by
    intro c x hx
    rw [List.getElem?_append] at hx
    split at hx
    · exact Or.inl hx
    · obtain rfl := List.mem_singleton.mp (List.mem_of_getElem? hx)
      exact Or.inr rfl
  have hkept : Kept s { s with callers := s.callers ++ [⟨repo, digest, .head⟩] } none :=
    Kept.record s [] rfl (List.append_nil s.log).symm
  refine ⟨h.uploads, ?_, h.manager, ?_⟩
  · intro c x hx
    rcases hcases c x hx with hx | hphase
    · exact (h.callers c x hx).mono hkept (by simp)
    · unfold Placed
      rw [hphase]
      trivial
  · intro c c' x x' u hx hx' hphase hphase'
    rcases hcases c x hx with hx | hhead
    · rcases hcases c' x' hx' with hx' | hhead
      · exact h.alone c c' x x' u hx hx' hphase hphase'
      · rw [hhead] at hphase'
        cases hphase'
    · rw [hhead] at hphase
      cases hphase

theorem Inv.head {c : Nat} {answers : List Answer} (h : Inv fileSize s) (hok : ∀ a ∈ answers, a.Decided)
    (hs : s.head c answers = some s') : Inv fileSize s' := by
  unfold State.head at hs
  split at hs
  · rename_i repo digest hx
    obtain ⟨result, hresult, rfl⟩ := Option.map_eq_some_iff.mp hs
    refine h.move _ none hx rfl (Kept.record s _ rfl rfl) (h.uploads_record _) h.manager (by simp) ?_ ?_
    · rcases result with e | status
      · cases e
        case notExist => trivial
        all_goals exact fun herr => by cases herr
      · obtain ⟨before, hreplies⟩ := replies_ok hresult (.head c repo digest)
        intro _
        refine Or.inl ⟨status, success_of_ok hresult hok, ?_⟩
        simp [State.setPhase, State.record, hreplies]
    · rintro u hphase
      rcases result with e | status
      · cases e <;> cases hphase
      · cases hphase
  · cases hs

/-- The count of the references and the flag of `CancelFunc` do not matter. -/
theorem Sound.counted {size u : Nat} {log : List (Reply ρ δ)} {up : Upload ρ δ} (h : Sound size log u up)
    (references : Int) (cancel : Option Bool) : Sound size log u { up with references, cancel } :=
  ⟨h.tiles, h.taken, h.committing, h.done⟩

theorem Fresh.counted {up : Upload ρ δ} (h : Fresh up) (references : Int) (cancel : Option Bool) :
    Fresh { up with references, cancel } :=
  ⟨h.parts, h.nextURL, h.done, h.run⟩

/-- A step of a call that only counts in its upload. -/
theorem Inv.counted {c u : Nat} {x : Caller ρ δ} {up : Upload ρ δ} {phase : Phase} (h : Inv fileSize s)
    (hx : s.callers[c]? = some x) (hup : s.uploads[u]? = some up) (references : Int) (cancel : Option Bool)
    (hnew : ∀ v, phase ≠ .prepare v)
    (hplaced : Placed fileSize ((s.setUpload u { up with references, cancel }).setPhase c x phase) c { x with phase }) :
    Inv fileSize ((s.setUpload u { up with references, cancel }).setPhase c x phase) := by
  have hlog : s.log = s.log ++ [] := (List.append_nil s.log).symm
  have hkept : Kept s ((s.setUpload u { up with references, cancel }).setPhase c x phase) none :=
    Kept.set hup rfl hlog rfl rfl fun _ hf => hf.counted references cancel
  refine h.move phase none hx rfl hkept ?_ ?_ (by simp) hplaced fun v hv => absurd hv (hnew v)
  · intro v w hw
    have hsound := ((h.uploads u up hup).counted references cancel).mono []
    have hall := h.uploads_set hsound v w hw
    rw [List.append_nil] at hall
    exact hall
  · have hdigest : { up with references, cancel }.digest = up.digest := rfl
    exact h.manager_set hup hdigest fun _ he => he

theorem Inv.acquire {c : Nat} (h : Inv fileSize s) (hs : s.acquire c = some s') : Inv fileSize s' := by
  unfold State.acquire at hs
  split at hs
  · rename_i repo digest u hx
    obtain ⟨up, hup, rfl⟩ := Option.map_eq_some_iff.mp hs
    obtain ⟨up', hup', hserves⟩ := h.callers c _ hx
    obtain rfl : up = up' := Option.some.inj (hup.symm.trans hup')
    apply h.counted hx hup _ _ (by simp)
    refine ⟨{ up with references := up.references + 1 }, ?_, hserves.repo, hserves.digest⟩
    simp [State.setPhase, State.setUpload, (List.getElem?_eq_some_iff.mp hup).1]
  · cases hs

theorem Inv.poll {c : Nat} (h : Inv fileSize s) (hs : s.poll c = some s') : Inv fileSize s' := by
  unfold State.poll at hs
  split at hs
  · rename_i repo digest u hx
    split at hs
    · rename_i up hup
      split at hs
      · rename_i hdone
        obtain rfl := Option.some.inj hs
        have hkept : Kept s (s.setPhase c ⟨repo, digest, .polling u⟩ (.releasing u up.err)) none :=
          Kept.record s [] rfl (List.append_nil s.log).symm
        refine h.move (.releasing u up.err) none hx rfl hkept h.uploads h.manager (by simp) ?_ (by simp)
        obtain ⟨up', hup', hserves⟩ := h.callers c _ hx
        obtain rfl : up = up' := Option.some.inj (hup.symm.trans hup')
        intro herr
        -- the upload is done, and it belongs to the repository of the call
        have hdone : up.done = true := by simpa [herr] using hdone
        have hload := (h.uploads u up hup).done hdone herr
        rw [hserves.repo, hserves.digest] at hload
        exact Or.inr ⟨u, hload⟩
      · cases hs
    · cases hs
  · cases hs

theorem Inv.canceled {c : Nat} (h : Inv fileSize s) (hs : s.canceled c = some s') : Inv fileSize s' := by
  unfold State.canceled at hs
  split at hs
  · rename_i repo digest u hx
    obtain rfl := Option.some.inj hs
    have hkept : Kept s (s.setPhase c ⟨repo, digest, .polling u⟩ (.releasing u true)) none :=
      Kept.record s [] rfl (List.append_nil s.log).symm
    exact h.move (.releasing u true) none hx rfl hkept h.uploads h.manager (by simp) (fun herr => by cases herr) (by simp)
  · cases hs

theorem Inv.release {c : Nat} (h : Inv fileSize s) (hs : s.release c = some s') : Inv fileSize s' := by
  unfold State.release at hs
  split at hs
  · rename_i repo digest u err hx
    have hplaced := h.callers c _ hx
    split at hs
    · rename_i up hup
      simp only at hs
      split at hs
      · obtain rfl := Option.some.inj hs
        exact h.counted hx hup _ _ (by simp) hplaced
      · obtain ⟨called, -, rfl⟩ := Option.map_eq_some_iff.mp hs
        exact h.counted hx hup _ _ (by simp) hplaced
    · cases hs
  · cases hs

end

section
variable [DecidableEq δ] {fileSize : δ → Nat} {s s' : State ρ δ}

/-- The upload that a call stores. -/
def stored (repo : ρ) (digest : δ) : Upload ρ δ := ⟨repo, digest, [], none, none, false, false, 0, .idle⟩

omit [DecidableEq δ] in
theorem stored_fresh (repo : ρ) (digest : δ) : Fresh (stored repo digest) := ⟨rfl, rfl, rfl, rfl⟩

omit [DecidableEq δ] in
theorem Fresh.sound {up : Upload ρ δ} (h : Fresh up) (size u : Nat) (log : List (Reply ρ δ)) : Sound size log u up := by
  refine ⟨?_, ?_, ?_, ?_⟩
  · intro hne
    exact absurd h.nextURL hne
  · intro p hp
    rw [h.parts] at hp
    cases hp
  · intro k hk
    rw [h.run] at hk
    cases hk
  · intro hd
    rw [h.done] at hd
    cases hd

theorem Inv.loadOrStore {c : Nat} (h : Inv fileSize s) (hok : Own s (.loadOrStore c))
    (hs : s.loadOrStore c = some s') : Inv fileSize s' := by
  unfold State.loadOrStore at hs
  split at hs
  · rename_i repo digest hx
    split at hs
    · rename_i u hu
      obtain rfl := Option.some.inj hs
      have hkept : Kept s (s.setPhase c ⟨repo, digest, .store⟩ (.wait u)) none :=
        Kept.record s [] rfl (List.append_nil s.log).symm
      refine h.move (.wait u) none hx rfl hkept h.uploads h.manager (by simp) ?_ (by simp)
      obtain ⟨before, after, heq, -⟩ := List.lookup_eq_some_iff.mp hu
      obtain ⟨up, hup, hd⟩ := h.manager digest u (by simp [heq])
      refine ⟨up, hup, ?_, hd⟩
      exact hok ⟨repo, digest, .store⟩ (by simp [hx]) u (by simp [hu]) up (by simp [hup])
    · obtain rfl := Option.some.inj hs
      have hold : ∀ (v : Nat) (w : Upload ρ δ), s.uploads[v]? = some w → (s.uploads ++ [stored repo digest])[v]? = some w := by
        intro v w hw
        rw [List.getElem?_append_left (List.getElem?_eq_some_iff.mp hw).1]
        exact hw
      have hlast : (s.uploads ++ [stored repo digest])[s.uploads.length]? = some (stored repo digest) := by simp
      refine h.move (.prepare s.uploads.length) none hx rfl ?_ ?_ ?_ (by simp) ?_ ?_
      · exact ⟨⟨[], (List.append_nil s.log).symm⟩, fun v w hw => ⟨w, hold v w hw, rfl, rfl, fun _ hf => hf⟩⟩
      · intro v w hw
        change (s.uploads ++ [stored repo digest])[v]? = some w at hw
        rw [List.getElem?_append] at hw
        split at hw
        · exact h.uploads v w hw
        · obtain rfl := List.mem_singleton.mp (List.mem_of_getElem? hw)
          exact (stored_fresh repo digest).sound _ _ _
      · intro d v hv
        rcases List.mem_cons.mp hv with heq | hv
        · obtain ⟨rfl, rfl⟩ := Prod.mk.inj heq
          exact ⟨stored repo d, hlast, rfl⟩
        · obtain ⟨w, hw, hd⟩ := h.manager d v hv
          exact ⟨w, hold v w hw, hd⟩
      · exact ⟨stored repo digest, hlast, ⟨rfl, rfl⟩, stored_fresh repo digest⟩
      · intro v hv
        obtain rfl := Phase.prepare.inj hv
        simp
  · cases hs

/-- `Prepare` fails, and its upload leaves the map. -/
theorem Inv.quit (h : Inv fileSize s) (t : State ρ δ) {c u : Nat} {x : Caller ρ δ} (hx : s.callers[c]? = some x)
    (hphase : x.phase = .prepare u) (hcallers : t.callers = s.callers) (hkept : Kept s t (some u))
    (huploads : ∀ v up, t.uploads[v]? = some up → Sound (fileSize up.digest) t.log v up)
    (hmanager : ∀ digest v, (digest, v) ∈ t.manager → ∃ up, t.uploads[v]? = some up ∧ up.digest = digest) (digest : δ) :
    Inv fileSize ((t.delete digest).setPhase c x (.returned true)) := by
  have hkept' : Kept s ((t.delete digest).setPhase c x (.returned true)) (some u) := ⟨hkept.log, hkept.uploads⟩
  refine h.move (.returned true) (some u) hx ?_ hkept' huploads ?_ ?_ (fun herr => by cases herr) (by simp)
  · unfold State.setPhase State.delete
    rw [hcallers]
  · intro d v hv
    exact hmanager d v (List.mem_filter.mp hv).1
  · rintro v ⟨⟩
    exact hphase

omit [DecidableEq δ] in
/-- The upload that was prepared changes. -/
theorem Inv.setUpload (h : Inv fileSize s) {u : Nat} {up : Upload ρ δ} (up' : Upload ρ δ) (hup : s.uploads[u]? = some up)
    (rs : List (Reply ρ δ)) (hrepo : up'.repo = up.repo) (hdigest : up'.digest = up.digest)
    (hsound : Sound (fileSize up.digest) (s.log ++ rs) u up') :
    Kept s ((s.record rs).setUpload u up') (some u) ∧
    (∀ v w, ((s.record rs).setUpload u up').uploads[v]? = some w → Sound (fileSize w.digest) (s.log ++ rs) v w) ∧
    (∀ d v, (d, v) ∈ s.manager → ∃ w, ((s.record rs).setUpload u up').uploads[v]? = some w ∧ w.digest = d) :=
  ⟨Kept.set hup rfl rfl hrepo hdigest fun hne => absurd rfl hne, h.uploads_set (hdigest ▸ hsound),
    h.manager_set hup hdigest fun _ he => he⟩

omit [DecidableEq δ] in
/-- `Prepare` succeeds, and `Run` is started. -/
theorem Inv.spawn (h : Inv fileSize s) {c u : Nat} {x : Caller ρ δ} {up : Upload ρ δ} (up' : Upload ρ δ) (hx : s.callers[c]? = some x)
    (hphase : x.phase = .prepare u) (hup : s.uploads[u]? = some up) (hserves : Serves up x) (rs : List (Reply ρ δ))
    (hrepo : up'.repo = up.repo) (hdigest : up'.digest = up.digest)
    (hsound : Sound (fileSize up.digest) (s.log ++ rs) u up') :
    Inv fileSize (((s.record rs).setUpload u up').setPhase c x (.wait u)) := by
  obtain ⟨hkept, huploads, hmanager⟩ := h.setUpload up' hup rs hrepo hdigest hsound
  have hkept' : Kept s (((s.record rs).setUpload u up').setPhase c x (.wait u)) (some u) := ⟨hkept.log, hkept.uploads⟩
  refine h.move (.wait u) (some u) hx rfl hkept' huploads hmanager ?_ ?_ (by simp)
  · rintro v ⟨⟩
    exact hphase
  · refine ⟨up', ?_, hrepo.trans hserves.repo, hdigest.trans hserves.digest⟩
    simp [State.setPhase, State.setUpload, State.record, (List.getElem?_eq_some_iff.mp hup).1]

omit [DecidableEq δ] in
theorem Upload.prepared_repo (up : Upload ρ δ) (size status : Nat) : (up.prepared size status).repo = up.repo := by
  unfold Upload.prepared
  split <;> rfl

omit [DecidableEq δ] in
theorem Upload.prepared_digest (up : Upload ρ δ) (size status : Nat) : (up.prepared size status).digest = up.digest := by
  unfold Upload.prepared
  split <;> rfl

omit [DecidableEq δ] in
/-- A mounted upload has nothing to send. -/
theorem Fresh.mounted {size u : Nat} {log : List (Reply ρ δ)} {up : Upload ρ δ} (h : Fresh up)
    (hlog : ⟨.create u up.repo up.digest, 201⟩ ∈ log) :
    Sound size log u { up.prepared size 201 with run := .spawned } := by
  have hsound := h.sound size u log
  exact ⟨hsound.tiles, hsound.taken, by simp, fun _ _ => Or.inl hlog⟩

omit [DecidableEq δ] in
/-- The parts of a session tile the blob, and none was sent. -/
theorem Fresh.planned {size u status : Nat} {log : List (Reply ρ δ)} {up : Upload ρ δ} (h : Fresh up) (hne : status ≠ 201) :
    Sound size log u (up.prepared size status) ∧
      Sound size log u { up.prepared size status with nextURL := some true, run := .spawned } := by
  have hprepared : up.prepared size status = { up with parts := addParts size size 0 (partSize size) [] } := by
    unfold Upload.prepared
    rw [if_neg hne, h.parts]
  rw [hprepared]
  have hwaiting := addParts_hash size size 0 (partSize size) (List.forall_mem_nil fun p : Part => p.work = .waiting ∧ p.hash = false)
  have htaken : ∀ p ∈ addParts size size 0 (partSize size) [], p.Taken → Accepted log u up.repo up.digest p.range := by
    intro p hp ht
    obtain ⟨hwork, hhash⟩ := hwaiting p hp
    rcases ht with ht | ⟨tries, ht⟩
    · rw [hhash] at ht
      cases ht
    · rw [hwork] at ht
      cases ht
  have hdone : ∀ {P : Prop}, up.done = true → P := fun hd => by
    rw [h.done] at hd
    cases hd
  refine ⟨⟨?_, htaken, ?_, fun hd => hdone hd⟩, ⟨?_, htaken, by simp, fun hd => hdone hd⟩⟩
  · intro hurl
    exact absurd h.nextURL hurl
  · intro k hk
    have hrun : up.run = .committing k := hk
    rw [h.run] at hrun
    cases hrun
  · intro _
    exact addParts_tiles rfl (Nat.zero_le _) (by omega) (partSize_pos size)

theorem Inv.prepare {c : Nat} {answers : List Answer} {fault : Option Fault} (h : Inv fileSize s)
    (hs : s.prepare fileSize c answers fault = some s') : Inv fileSize s' := by
  unfold State.prepare at hs
  split at hs
  · rename_i repo digest u hx
    obtain ⟨up, hup, hserves, hfresh⟩ := h.callers c _ hx
    rw [hup] at hs
    simp only at hs
    have hquit : ∀ rs, Inv fileSize (((s.record rs).delete digest).setPhase c ⟨repo, digest, .prepare u⟩ (.returned true)) := by
      intro rs
      have hkept : Kept s (s.record rs) (some u) := Kept.record s rs rfl rfl
      exact h.quit (s.record rs) hx rfl rfl hkept (h.uploads_record rs) h.manager digest
    split at hs
    · split at hs
      · obtain rfl := Option.some.inj hs
        have hnil := hquit []
        unfold State.record at hnil
        rw [List.append_nil] at hnil
        exact hnil
      · cases hs
    · obtain ⟨result, hresult, rfl⟩ := Option.map_eq_some_iff.mp hs
      rcases result with e | status
      · exact hquit _
      · simp only
        split
        · exact hquit _
        split
        · rename_i h201
          subst h201
          obtain ⟨before, hreplies⟩ := replies_ok hresult (.create u repo digest)
          apply h.spawn { up.prepared (fileSize up.digest) 201 with run := .spawned } hx rfl hup hserves _ rfl rfl
          apply hfresh.mounted
          rw [hserves.repo, hserves.digest, hreplies]
          simp
        · rename_i hne
          obtain ⟨hsound, hspawned⟩ := hfresh.planned hne
          have hrepo := up.prepared_repo (fileSize up.digest) status
          have hdigest := up.prepared_digest (fileSize up.digest) status
          split
          · obtain ⟨hkept, huploads, hmanager⟩ :=
              h.setUpload _ hup (replies (.create u repo digest) answers) hrepo hdigest hsound
            exact h.quit ((s.record _).setUpload u _) hx rfl rfl hkept huploads hmanager digest
          · exact h.spawn _ hx rfl hup hserves _ hrepo hdigest hspawned
  · cases hs

theorem Inv.run {u : Nat} {e : RunEvent} (h : Inv fileSize s) (hok : e.Decided) (hs : s.run u e = some s') :
    Inv fileSize s' := by
  unfold State.run at hs
  split at hs
  · rename_i up hup
    obtain ⟨⟨up', rs⟩, hstep, rfl⟩ := Option.map_eq_some_iff.mp hs
    obtain ⟨hsound, hrepo, hdigest⟩ := (h.uploads u up hup).step hok hstep
    rw [← hdigest] at hsound
    have hfresh : Fresh up → Fresh up' := by
      intro hf
      rw [hf.step u e] at hstep
      cases hstep
    have hkept : Kept s ((s.setUpload u up').record rs) none := Kept.set hup rfl rfl hrepo hdigest fun _ => hfresh
    -- the deferred call may take an entry off the map, and no step adds one
    have hinv : ∀ manager : List (δ × Nat), (∀ e ∈ manager, e ∈ s.manager) →
        Inv fileSize { (s.setUpload u up').record rs with manager } := by
      intro manager hsub
      refine ⟨h.uploads_set hsound, ?_, h.manager_set hup hdigest hsub, h.alone⟩
      intro c x hx
      exact (h.callers c x hx).mono ⟨hkept.log, hkept.uploads⟩ (by simp)
    simp only
    split
    · exact hinv _ fun e he => (List.mem_filter.mp he).1
    · exact hinv s.manager fun e he => he
  · cases hs

theorem Inv.step {e : Event ρ δ} (h : Inv fileSize s) (hok : Own s e) (hs : s.step fileSize e = some s') :
    Inv fileSize s' := by
  cases e with
  | call repo digest =>
    obtain rfl := Option.some.inj hs
    exact h.call repo digest
  | head c answers => exact h.head hok hs
  | loadOrStore c => exact h.loadOrStore hok hs
  | prepare c answers fault => exact h.prepare hs
  | acquire c => exact h.acquire hs
  | poll c => exact h.poll hs
  | canceled c => exact h.canceled hs
  | release c => exact h.release hs
  | run u e =>
    apply h.run _ hs
    cases e <;> exact hok

omit [DecidableEq δ] in
theorem Inv.init : Inv fileSize (State.init : State ρ δ) :=
  ⟨by simp [State.init], by simp [State.init], by simp [State.init], by simp [State.init]⟩

/-- A call that returns nil has pushed its blob to its own repository, whatever the other calls do. -/
theorem pushed_of_returned (h : Reaches (fun s e => s.step fileSize e) Own (· = State.init) s) {c : Nat} {repo : ρ}
    {digest : δ} (hc : s.callers[c]? = some ⟨repo, digest, .returned false⟩) :
    Pushed (fileSize digest) s.log c repo digest := by
  have hinv : Inv fileSize s := by
    apply h.invariant
    · rintro t rfl
      exact Inv.init
    · intro t e t' ht hok hs
      exact ht.step hok hs
  exact hinv.callers c _ hc rfl

end

/-! ## Runs -/

/-- A part that is redirected, fails and is sent again, and a commit that needs a token. -/
def redirectedRun : List (Event Nat Nat) :=
  [.call 1 7, .head 0 [.reply 404 none], .loadOrStore 0, .prepare 0 [.reply 202 none] none, .acquire 0,
    .run 0 (.start true), .run 0 .take, .run 0 .go, .run 0 (.answer 0 true (.reply 307 none)), .run 0 (.send 0),
    .run 0 (.answer 0 true (.reply 500 none)), .run 0 (.answer 0 true (.reply 201 none)), .run 0 .wait, .run 0 .url,
    .run 0 (.commit [.reply 401 none, .reply 201 none]), .run 0 .delete, .poll 0, .release 0]

theorem redirectedRun_pushed : ∃ s, exec (fun s e => s.step (fun _ => 3) e) State.init redirectedRun = some s ∧
    s.callers = [⟨1, 7, .returned false⟩] ∧ Pushed 3 s.log 0 1 7 := by
  refine ⟨_, rfl, rfl, ?_⟩
  have hrun : Checked (fun s e => s.step (fun _ => 3) e) Own State.init redirectedRun := by decide
  exact pushed_of_returned (reaches_of_exec (Reaches.init rfl) hrun rfl) rfl

def Request.repo : Request ρ δ → ρ
  | .head _ repo _ | .create _ repo _ | .part _ repo _ _ _ | .commit _ repo _ => repo

/-- A repository that has the blob has granted something. -/
theorem Pushed.granted {size c : Nat} {log : List (Reply ρ δ)} {repo : ρ} {digest : δ}
    (h : Pushed size log c repo digest) : ∃ r ∈ log, r.request.repo = repo ∧ Success r.status := by
  rcases h with ⟨status, hok, hmem⟩ | ⟨u, hmem | ⟨ranges, earlier, status, -, -, hok, hlog⟩⟩
  · exact ⟨_, hmem, rfl, hok⟩
  · exact ⟨_, hmem, rfl, (by decide : Success 201)⟩
  · exact ⟨_, hlog.subset (List.mem_append_right _ (List.mem_singleton_self _)), rfl, hok⟩

/-- Two calls push one blob to two repositories at the same time. -/
def sharedRun : List (Event Nat Nat) :=
  [.call 1 7, .call 2 7, .head 0 [.reply 404 none], .head 1 [.reply 404 none], .loadOrStore 0, .loadOrStore 1,
    .prepare 0 [.reply 202 none] none, .acquire 0, .acquire 1, .run 0 (.start true), .run 0 .take, .run 0 .go,
    .run 0 (.answer 0 true (.reply 202 none)), .run 0 (.send 0), .run 0 .wait, .run 0 .url,
    .run 0 (.commit [.reply 201 none]), .poll 1, .release 1]

/-- The call that finds the upload of the other repository returns nil. -/
theorem sharedRun_unsound : ¬ ∀ s : State Nat Nat,
    Reaches (fun s e => s.step (fun _ => 3) e) (fun _ _ => True) (· = State.init) s → ∀ c repo digest,
      s.callers[c]? = some ⟨repo, digest, .returned false⟩ → Pushed 3 s.log c repo digest := by
  intro h
  have hchecked : Checked (fun s e => s.step (fun _ => 3) e) (fun _ _ => True) State.init sharedRun := by decide
  have hpushed := h _ (reaches_of_exec (Reaches.init rfl) hchecked rfl) 1 2 7 rfl
  obtain ⟨r, hr, hrepo, hok⟩ := hpushed.granted
  revert r
  decide

end Xdragon.Server.Upload
