import Mathlib.Tactic.TypeStar

/-!
# Runs of a machine

A machine takes one event at a time, and refuses an event that cannot happen.
Some results hold on every run, others on the runs whose steps all meet a condition.
-/

namespace Xdragon.Lib

variable {σ ε : Type*}

/-- The states that a run from `init` reaches, when every step meets `ok`. -/
inductive Reaches (step : σ → ε → Option σ) (ok : σ → ε → Prop) (init : σ → Prop) : σ → Prop
  | init {s : σ} : init s → Reaches step ok init s
  | step {s s' : σ} (e : ε) : Reaches step ok init s → ok s e → step s e = some s' →
      Reaches step ok init s'

/-- Runs the events one after another. -/
@[grind =]
def exec (step : σ → ε → Option σ) : σ → List ε → Option σ
  | s, [] => some s
  | s, e :: es => (step s e).bind fun s' => exec step s' es

section
variable {step : σ → ε → Option σ} {ok : σ → ε → Prop} {init : σ → Prop}

/-- What holds at the start and survives every step holds in every state of a run. -/
theorem Reaches.invariant {I : σ → Prop} (hinit : ∀ s, init s → I s)
    (hstep : ∀ s e s', I s → ok s e → step s e = some s' → I s') {s : σ}
    (h : Reaches step ok init s) : I s := by
  induction h with
  | init hi => exact hinit _ hi
  | step e _ hok hs ih => exact hstep _ e _ ih hok hs

/-- A run goes on from a state that another run reaches. -/
theorem Reaches.trans {init' : σ → Prop} (hinit : ∀ s, init' s → Reaches step ok init s) {s : σ}
    (h : Reaches step ok init' s) : Reaches step ok init s := by
  induction h with
  | init hi => exact hinit _ hi
  | step e _ hok hs ih => exact .step e ih hok hs

end

/-- Two runs, one after the other. -/
theorem exec_append {step : σ → ε → Option σ} {s s' s'' : σ} {es es' : List ε} (h : exec step s es = some s')
    (h' : exec step s' es' = some s'') : exec step s (es ++ es') = some s'' := by
  induction es generalizing s with
  | nil =>
    obtain rfl := Option.some.inj h
    exact h'
  | cons e es ih =>
    rw [exec, Option.bind_eq_some_iff] at h
    obtain ⟨t, ht, hrest⟩ := h
    rw [List.cons_append, exec, ht]
    exact ih hrest

/-- Every step of a list of events meets `ok`, up to the first refused one. -/
def Checked (step : σ → ε → Option σ) (ok : σ → ε → Prop) : σ → List ε → Prop
  | _, [] => True
  | s, e :: es => ok s e ∧ match step s e with
    | none => True
    | some s' => Checked step ok s' es

instance Checked.decidable (step : σ → ε → Option σ) (ok : σ → ε → Prop)
    [∀ s e, Decidable (ok s e)] : ∀ s es, Decidable (Checked step ok s es)
  | _, [] => .isTrue trivial
  | s, e :: es =>
    match h : step s e with
    | none => decidable_of_iff (ok s e) (by simp [Checked, h])
    | some s' =>
      have := Checked.decidable step ok s' es
      decidable_of_iff (ok s e ∧ Checked step ok s' es) (by simp [Checked, h])

/-- A concrete run, checked step by step, reaches its last state. -/
theorem reaches_of_exec {step : σ → ε → Option σ} {ok : σ → ε → Prop} {init : σ → Prop}
    {s s' : σ} {es : List ε} (hs : Reaches step ok init s) (hc : Checked step ok s es)
    (h : exec step s es = some s') : Reaches step ok init s' := by
  induction es generalizing s with
  | nil =>
    simp only [exec, Option.some.injEq] at h
    exact h ▸ hs
  | cons e es ih =>
    simp only [exec, Option.bind_eq_some_iff] at h
    obtain ⟨t, ht, h⟩ := h
    simp only [Checked, ht] at hc
    exact ih (.step e hs hc.1 ht) hc.2 h

end Xdragon.Lib
