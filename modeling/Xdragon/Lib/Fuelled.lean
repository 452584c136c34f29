/-!
# Programs with fuel

A program reads and changes a state, may fail, and has fuel for its loops. `none` says that the fuel ran out. What counts is
what it comes to with any fuel from some amount on.
-/

namespace Xdragon.Lib

/-- A program over the states `σ` that may fail with an `ε`. -/
def Fuelled (ε σ α : Type) : Type := Nat → σ → Option (Except ε α × σ)

namespace Fuelled

variable {ε σ α β : Type}

instance : Monad (Fuelled ε σ) where
  pure a := fun _ s => some (.ok a, s)
  bind p f := fun fuel s =>
    match p fuel s with
    | none => none
    | some (.error e, s) => some (.error e, s)
    | some (.ok a, s) => f a fuel s

def fail (e : ε) : Fuelled ε σ α := fun _ s => some (.error e, s)

def get : Fuelled ε σ σ := fun _ s => some (.ok s, s)

def modify (f : σ → σ) : Fuelled ε σ Unit := fun _ s => some (.ok (), f s)

def ofExcept : Except ε α → Fuelled ε σ α
  | .ok a => pure a
  | .error e => fail e

def iterate (body : β → Fuelled ε σ (β ⊕ α)) : Nat → β → Fuelled ε σ α
  | 0, _ => fun _ _ => none
  | n + 1, b => do
    match ← body b with
    | .inl b => iterate body n b
    | .inr a => pure a

/-- Repeats the body until it gives a result. -/
def loop (body : β → Fuelled ε σ (β ⊕ α)) (b : β) : Fuelled ε σ α := fun fuel s => iterate body fuel b fuel s

/-! ## What a program comes to -/

/-- With fuel from `n` on. -/
def Settles (p : Fuelled ε σ α) (s : σ) (n : Nat) (out : Except ε α × σ) : Prop := ∀ fuel, n ≤ fuel → p fuel s = some out

/-- What is asked of an outcome: a failure is one, too. -/
def Meets (Q : α → σ → Prop) : Except ε α × σ → Prop
  | (.ok a, s) => Q a s
  | (.error _, _) => True

/-- From `s` the program ends, and unless it fails it ends with `Q`. -/
def Ends (p : Fuelled ε σ α) (Q : α → σ → Prop) (s : σ) : Prop := ∃ n out, p.Settles s n out ∧ Meets Q out

section
variable {p : Fuelled ε σ α} {f : α → Fuelled ε σ β} {Q Q' : α → σ → Prop} {R : β → σ → Prop} {s : σ}

theorem Ends.mono (h : Ends p Q s) (himp : ∀ a s, Q a s → Q' a s) : Ends p Q' s := by
  obtain ⟨n, out, hout, hmeets⟩ := h
  refine ⟨n, out, hout, ?_⟩
  match out, hmeets with
  | (.ok a, s), hmeets => exact himp a s hmeets
  | (.error _, _), _ => exact trivial

theorem Ends.pure {a : α} (h : Q a s) : Ends (pure a : Fuelled ε σ α) Q s := ⟨0, (.ok a, s), fun _ _ => rfl, h⟩

theorem Ends.fail {e : ε} : Ends (fail e : Fuelled ε σ α) Q s := ⟨0, (.error e, s), fun _ _ => rfl, trivial⟩

theorem Ends.ofExcept {x : Except ε α} (h : ∀ a, x = .ok a → Q a s) : Ends (ofExcept x : Fuelled ε σ α) Q s := by
  cases x with
  | ok a => exact Ends.pure (h a rfl)
  | error e => exact Ends.fail

theorem Ends.bind (hp : Ends p Q s) (hf : ∀ a s', Q a s' → Ends (f a) R s') : Ends (p >>= f) R s := by
  obtain ⟨n, out, hout, hmeets⟩ := hp
  match out, hmeets with
  | (.error e, s'), _ =>
    refine ⟨n, (.error e, s'), fun fuel hle => ?_, trivial⟩
    simp only [Bind.bind, hout fuel hle]
  | (.ok a, s'), hmeets =>
    obtain ⟨m, res, hres, hmeets⟩ := hf a s' hmeets
    refine ⟨max n m, res, fun fuel hle => ?_, hmeets⟩
    simp only [Bind.bind, hout fuel (by omega), hres fuel (by omega)]

theorem Ends.get_bind {f : σ → Fuelled ε σ β} (h : Ends (f s) R s) : Ends (Fuelled.get >>= f) R s := by
  obtain ⟨n, out, hout, hmeets⟩ := h
  exact ⟨n, out, fun fuel hle => hout fuel hle, hmeets⟩

theorem Ends.modify_bind {g : σ → σ} {f : Unit → Fuelled ε σ β} (h : Ends (f ()) R (g s)) :
    Ends (Fuelled.modify g >>= f) R s := by
  obtain ⟨n, out, hout, hmeets⟩ := h
  exact ⟨n, out, fun fuel hle => hout fuel hle, hmeets⟩

end

/-- A loop ends when each round keeps the invariant and lowers the measure. -/
theorem Ends.loop {body : β → Fuelled ε σ (β ⊕ α)} {I : β → σ → Prop} {Q : α → σ → Prop} (measure : β → σ → Nat)
    (hbody : ∀ b s, I b s → Ends (body b) (fun r s' => match r with
      | .inl b' => I b' s' ∧ measure b' s' < measure b s
      | .inr a => Q a s') s) {b : β} {s : σ} (h : I b s) : Ends (loop body b) Q s := by
  -- the rounds that are left and the fuel of the body count separately
  have hiterate : ∀ k b s, I b s → measure b s < k → ∃ n out, (∀ rounds fuel, k ≤ rounds → n ≤ fuel →
      iterate body rounds b fuel s = some out) ∧ Meets Q out := by
    intro k
    induction k with
    | zero => exact fun b s _ hlt => absurd hlt (Nat.not_lt_zero _)
    | succ k ih =>
      intro b s hI hlt
      obtain ⟨n, out, hout, hmeets⟩ := hbody b s hI
      match out, hmeets with
      | (.error e, s'), _ =>
        refine ⟨n, (.error e, s'), fun rounds fuel hrounds hle => ?_, trivial⟩
        obtain ⟨rounds, rfl⟩ : ∃ r, rounds = r + 1 := ⟨rounds - 1, by omega⟩
        simp only [iterate, Bind.bind, hout fuel hle]
      | (.ok (.inr a), s'), hmeets =>
        refine ⟨n, (.ok a, s'), fun rounds fuel hrounds hle => ?_, hmeets⟩
        obtain ⟨rounds, rfl⟩ : ∃ r, rounds = r + 1 := ⟨rounds - 1, by omega⟩
        simp only [iterate, Bind.bind, hout fuel hle]
        rfl
      | (.ok (.inl b'), s'), hmeets =>
        obtain ⟨hI', hless⟩ := hmeets
        obtain ⟨m, res, hres, hmeets⟩ := ih b' s' hI' (by omega)
        refine ⟨max n m, res, fun rounds fuel hrounds hle => ?_, hmeets⟩
        obtain ⟨rounds, rfl⟩ : ∃ r, rounds = r + 1 := ⟨rounds - 1, by omega⟩
        simp only [iterate, Bind.bind, hout fuel (by omega)]
        exact hres rounds fuel (by omega) (by omega)
  obtain ⟨n, out, hout, hmeets⟩ := hiterate (measure b s + 1) b s h (Nat.lt_succ_self _)
  refine ⟨max n (measure b s + 1), out, fun fuel hle => ?_, hmeets⟩
  exact hout fuel fuel (by omega) (by omega)

end Fuelled

end Xdragon.Lib
