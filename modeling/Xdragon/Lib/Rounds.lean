import Mathlib.Tactic.SplitIfs

/-!
# Parsers that are fed in pieces

A parser takes a piece of text, works on what it has in rounds, and gives an output. It does not
depend on how the text is cut if two pieces one after another give what their concatenation gives.
-/

namespace Xdragon.Lib

variable {σ ω α : Type*}

/-- The outputs of the rounds of a loop that goes on while the last round says so, or none if the
number of rounds is not enough. -/
@[grind =]
def rounds (eat : σ → ω × σ × Bool) : Nat → σ → Option (List ω × σ)
  | 0, _ => none
  | n + 1, s =>
    if (eat s).2.2 then (rounds eat n (eat s).2.1).map fun r => ((eat s).1 :: r.1, r.2)
    else some ([(eat s).1], (eat s).2.1)

theorem rounds_stop {eat : σ → ω × σ × Bool} {n : Nat} {s s' : σ} {o : ω} (h : eat s = (o, s', false)) :
    rounds eat (n + 1) s = some ([o], s') := by
  simp [rounds, h]

theorem rounds_more {eat : σ → ω × σ × Bool} {n : Nat} {s s' : σ} {o : ω} (h : eat s = (o, s', true)) :
    rounds eat (n + 1) s = (rounds eat n s').map fun r => (o :: r.1, r.2) := by
  simp [rounds, h]

/-- A loop that ends does not depend on the number of rounds. -/
theorem rounds_unique {eat : σ → ω × σ × Bool} {n m : Nat} {s : σ} {r r' : List ω × σ} (h : rounds eat n s = some r)
    (h' : rounds eat m s = some r') : r = r' := by
  induction n generalizing m s r r' with
  | zero => cases h
  | succ n ih =>
    cases m with
    | zero => cases h'
    | succ m =>
      rw [rounds] at h h'
      split_ifs at h h'
      · obtain ⟨q, hq, rfl⟩ := Option.map_eq_some_iff.mp h
        obtain ⟨q', hq', rfl⟩ := Option.map_eq_some_iff.mp h'
        rw [ih hq hq']
      · rw [h] at h'
        exact Option.some.inj h'

/-- The outputs of all pieces, put together by `app`. -/
@[grind =]
def feed (app : ω → ω → ω) (one : ω) (add : σ → List α → Option (ω × σ)) : σ → List (List α) → Option (ω × σ)
  | s, [] => some (one, s)
  | s, c :: cs => (add s c).bind fun r => (feed app one add r.2 cs).map fun t => (app r.1 t.1, t.2)

section
variable {ν : Type*} {g : ω → ω → ω} {e : ω} {f : σ → List α → Option (ω × σ)} {I : σ → Prop} {K : List α → Prop}
  {v : ω → ν} (hone : ∀ a, v (g a e) = v a)
  (happ : ∀ a x y, v x = v y → v (g a x) = v (g a y))
  (hadd : ∀ s a, I s → K a → ∃ r, f s a = some r ∧ I r.2 ∧ ∀ b, K b →
    ∃ t u, f r.2 b = some t ∧ f s (a ++ b) = some u ∧ t.2 = u.2 ∧ v (g r.1 t.1) = v u.1)
  (hnil : K []) (happend : ∀ a b, K a → K b → K (a ++ b))
include hone happ hadd hnil happend

/-- What a parser that can go on from its state gives for the pieces is what it gives for the text. -/
theorem feed_cons {s : σ} (hs : I s) {c : List α} {cs : List (List α)} (hcs : ∀ d ∈ c :: cs, K d) :
    ∃ r u, feed g e f s (c :: cs) = some r ∧ f s (c :: cs).flatten = some u ∧ r.2 = u.2 ∧ v r.1 = v u.1 := by
  have hflat : ∀ cs : List (List α), (∀ c ∈ cs, K c) → K cs.flatten := by
    intro cs
    induction cs with
    | nil => exact fun _ => hnil
    | cons c cs ih =>
      exact fun h => happend _ _ (h c (List.mem_cons_self ..)) (ih fun d hd => h d (List.mem_cons_of_mem _ hd))
  induction cs generalizing s c with
  | nil =>
    obtain ⟨r, hr, -, -⟩ := hadd s c hs (hcs c (List.mem_cons_self ..))
    refine ⟨(g r.1 e, r.2), r, ?_, ?_, rfl, hone r.1⟩
    · rw [feed, hr, Option.bind_some, feed, Option.map_some]
    · rw [List.flatten_cons, List.flatten_nil, List.append_nil, hr]
  | cons d cs ih =>
    have hrest : ∀ x ∈ d :: cs, K x := fun x hx => hcs x (List.mem_cons_of_mem _ hx)
    obtain ⟨r, hr, hI, hb⟩ := hadd s c hs (hcs c (List.mem_cons_self ..))
    obtain ⟨r', u', hr', hu', hnext, hview⟩ := ih hI hrest
    obtain ⟨t, u, ht, hu, htu, hviews⟩ := hb _ (hflat _ hrest)
    rw [ht] at hu'
    cases hu'
    refine ⟨(g r.1 r'.1, r'.2), u, ?_, by rw [List.flatten_cons, hu], hnext.trans htu, ?_⟩
    · rw [feed, hr, Option.bind_some, hr', Option.map_some]
    · exact (happ _ _ _ hview).trans hviews

end

end Xdragon.Lib
