import Xdragon.Lib.Wire

/-!
# Readers that are lenient in places

A lenient reader passes over what a strict one looks at. A log has the places at which it does so. The strict reader reads
what the lenient one reads, if all places of the log are good.
-/

namespace Xdragon.Lib

variable {ε σ α β γ δ : Type}

/-! ## Logs -/

/-- The log of a reader, and then that of the next one. -/
def Reader.logBind (p : Reader ε α) (log : Bytes → List σ) (next : α → Bytes → List σ) : Bytes → List σ := fun input =>
  log input ++ match p input with
    | some (.ok a, rest) => next a rest
    | _ => []

@[grind =]
def Reader.logTimes (p : Reader ε α) (log : Bytes → List σ) : Nat → Bytes → List σ
  | 0 => fun _ => []
  | n + 1 => p.logBind log fun _ => logTimes p log n

@[simp] theorem Reader.logBind_nil (p : Reader ε α) (log : Bytes → List σ) : p.logBind log (fun _ _ => []) = log := by
  funext input
  unfold Reader.logBind
  split <;> exact List.append_nil _

/-! ## Lenient readers -/

/-- The strict reader `q` gives a value of which `p` has the part `f`, if and only if `p` gives it and its log is good. -/
def Lenient (good : σ → Prop) (p : Reader ε α) (q : Reader ε β) (log : Bytes → List σ) (f : β → α) : Prop :=
  ∀ input a rest, (∃ b, q input = some (.ok b, rest) ∧ f b = a) ↔
    p input = some (.ok a, rest) ∧ ∀ s ∈ log input, good s

namespace Lenient

variable {good : σ → Prop}

theorem of_fixed {p : Reader ε α} {f : α → α} (h : ∀ input a rest, p input = some (.ok a, rest) → f a = a) :
    Lenient good p p (fun _ => []) f := by
  intro input a rest
  constructor
  · rintro ⟨b, hb, rfl⟩
    rw [h _ _ _ hb]
    exact ⟨hb, by simp⟩
  · rintro ⟨ha, -⟩
    exact ⟨a, ha, h _ _ _ ha⟩

theorem refl (p : Reader ε α) : Lenient good p p (fun _ => []) id := of_fixed fun _ _ _ _ => rfl

theorem pure (b : β) (f : β → α) :
    Lenient good (Pure.pure (f b) : Reader ε α) (Pure.pure b : Reader ε β) (fun _ => []) f := by
  intro input a rest
  constructor
  · rintro ⟨b, hb, rfl⟩
    cases hb
    exact ⟨rfl, by simp⟩
  · rintro ⟨ha, -⟩
    cases ha
    exact ⟨b, rfl, rfl⟩

/-- Where both give nothing. -/
theorem of_failing {p : Reader ε α} {q : Reader ε β} (hp : ∀ input, (p input).any (·.1.toBool) = false)
    (hq : ∀ input, (q input).any (·.1.toBool) = false) (log : Bytes → List σ) (f : β → α) : Lenient good p q log f := by
  intro input a rest
  constructor
  · rintro ⟨b, hb, -⟩
    have h := hq input
    rw [hb] at h
    cases h
  · rintro ⟨ha, -⟩
    have h := hp input
    rw [ha] at h
    cases h

theorem bind {p : Reader ε α} {q : Reader ε β} {log : Bytes → List σ} {f : β → α} (hp : Lenient good p q log f)
    {F : α → Reader ε γ} {G : β → Reader ε δ} {log' : α → Bytes → List σ} {f' : δ → γ}
    (hF : ∀ b, (∃ input rest, q input = some (.ok b, rest)) → Lenient good (F (f b)) (G b) (log' (f b)) f') :
    Lenient good (p >>= F) (q >>= G) (p.logBind log log') f' := by
  intro input a rest
  unfold Reader.logBind
  constructor
  · rintro ⟨d, hd, rfl⟩
    obtain ⟨b, mid, hb, hd⟩ := Reader.of_bind_ok hd
    obtain ⟨ha, hlog⟩ := (hp input (f b) mid).mp ⟨b, hb, rfl⟩
    obtain ⟨hc, hlog'⟩ := (hF b ⟨_, _, hb⟩ mid (f' d) rest).mp ⟨d, hd, rfl⟩
    rw [Reader.bind_ok ha, ha]
    refine ⟨hc, fun s hs => ?_⟩
    rcases List.mem_append.mp hs with hs | hs
    · exact hlog s hs
    · exact hlog' s hs
  · rintro ⟨hc, hlog⟩
    obtain ⟨a', mid, ha, hc⟩ := Reader.of_bind_ok hc
    rw [ha] at hlog
    obtain ⟨b, hb, rfl⟩ := (hp input a' mid).mpr ⟨ha, fun s hs => hlog s (List.mem_append_left _ hs)⟩
    obtain ⟨d, hd, hfd⟩ := (hF b ⟨_, _, hb⟩ mid a rest).mpr ⟨hc, fun s hs => hlog s (List.mem_append_right _ hs)⟩
    exact ⟨d, by rw [Reader.bind_ok hb, hd], hfd⟩

theorem bind_pure {p : Reader ε α} {q : Reader ε β} {log : Bytes → List σ} {f : β → α} (hp : Lenient good p q log f)
    {g : α → γ} {h : β → δ} {f' : δ → γ} (hg : ∀ b, (∃ input rest, q input = some (.ok b, rest)) → f' (h b) = g (f b)) :
    Lenient good (p >>= fun a => Pure.pure (g a)) (q >>= fun b => Pure.pure (h b)) log f' := by
  intro input c rest
  constructor
  · rintro ⟨d, hd, rfl⟩
    obtain ⟨b, mid, hb, hd⟩ := Reader.of_bind_ok hd
    obtain ⟨ha, hlog⟩ := (hp input (f b) mid).mp ⟨b, hb, rfl⟩
    cases hd
    rw [Reader.bind_ok ha, hg b ⟨_, _, hb⟩]
    exact ⟨rfl, hlog⟩
  · rintro ⟨hc, hlog⟩
    obtain ⟨a, mid, ha, hc⟩ := Reader.of_bind_ok hc
    obtain ⟨b, hb, rfl⟩ := (hp input a mid).mpr ⟨ha, hlog⟩
    cases hc
    refine ⟨h b, ?_, hg b ⟨_, _, hb⟩⟩
    rw [Reader.bind_ok hb]
    rfl

/-- A reader without a log in front of one with a log. -/
theorem after {p : Reader ε α} {F : α → Reader ε γ} {G : α → Reader ε δ} {log' : α → Bytes → List σ} {f' : δ → γ}
    (hF : ∀ a, (∃ input rest, p input = some (.ok a, rest)) → Lenient good (F a) (G a) (log' a) f') :
    Lenient good (p >>= F) (p >>= G) (p.logBind (fun _ => []) log') f' :=
  (refl p).bind hF

theorem times {p : Reader ε α} {q : Reader ε β} {log : Bytes → List σ} {f : β → α} (hp : Lenient good p q log f)
    (n : Nat) : Lenient good (p.times n) (q.times n) (p.logTimes log n) (List.map f) := by
  induction n with
  | zero =>
    exact pure [] (List.map f)
  | succ n ih =>
    unfold Reader.times Reader.logTimes
    exact hp.bind fun b _ => ih.bind_pure fun bs _ => rfl

end Lenient

end Xdragon.Lib
