import Mathlib.Data.List.Basic

/-!
# Steps that emit events

A machine takes steps from its state and emits events on the way. A checker reads the events one after
another, and goes along with the machine as long as no step is wrong.
-/

namespace Xdragon.Lib

variable {σ ε ι κ π : Type*}

/-- The events of all steps, and the state after them. -/
@[grind =]
def emitAll (step : ι → σ → List ε × σ) : List ι → σ → List ε × σ
  | [], s => ([], s)
  | i :: is, s => ((step i s).1 ++ (emitAll step is (step i s).2).1, (emitAll step is (step i s).2).2)

section
variable (step : ι → σ → List ε × σ)

@[simp] theorem emitAll_nil (s : σ) : emitAll step [] s = ([], s) := rfl

theorem emitAll_cons (i : ι) (is : List ι) (s : σ) : emitAll step (i :: is) s =
    ((step i s).1 ++ (emitAll step is (step i s).2).1, (emitAll step is (step i s).2).2) := rfl

@[simp] theorem emitAll_append (is js : List ι) (s : σ) : emitAll step (is ++ js) s =
    ((emitAll step is s).1 ++ (emitAll step js (emitAll step is s).2).1, (emitAll step js (emitAll step is s).2).2) := by
  induction is generalizing s with
  | nil => rfl
  | cons i is ih => rw [List.cons_append, emitAll_cons, ih, emitAll_cons, List.append_assoc]

theorem emitAll_map (f : κ → ι) (ks : List κ) (s : σ) : emitAll step (ks.map f) s = emitAll (fun k => step (f k)) ks s := by
  induction ks generalizing s with
  | nil => rfl
  | cons k ks ih => rw [List.map_cons, emitAll_cons, emitAll_cons, ih]

/-- What each step keeps holds after all steps. -/
theorem emitAll_keeps {I : σ → Prop} (h : ∀ i s, I s → I (step i s).2) (is : List ι) {s : σ} (hs : I s) :
    I (emitAll step is s).2 := by
  induction is generalizing s with
  | nil => exact hs
  | cons i is ih => exact ih (h i s hs)

/-- A machine whose steps are runs of smaller steps while something holds. -/
theorem emitAll_flatMap {I : σ → Prop} (hI : ∀ i s, I s → I (step i s).2) (big : κ → σ → List ε × σ) (steps : κ → List ι)
    {ks : List κ} (h : ∀ k ∈ ks, ∀ s, I s → big k s = emitAll step (steps k) s) {s : σ} (hs : I s) :
    emitAll big ks s = emitAll step (ks.flatMap steps) s := by
  induction ks generalizing s with
  | nil => rfl
  | cons k ks ih =>
    have hrest := fun k' hk' => h k' (List.mem_cons_of_mem _ hk')
    rw [emitAll_cons, List.flatMap_cons, emitAll_append, h k (List.mem_cons_self ..) s hs,
      ih hrest (emitAll_keeps step hI _ hs)]

end

/-- Some step of the run is wrong. -/
def Wrong (step : ι → σ → List ε × σ) (wrong : ι → σ → Prop) : List ι → σ → Prop
  | [], _ => False
  | i :: is, s => wrong i s ∨ Wrong step wrong is (step i s).2

/-- The steps of a run before which it went one way, and the step then. -/
theorem wrong_iff {step : ι → σ → List ε × σ} {wrong : ι → σ → Prop} {is : List ι} {s : σ} :
    Wrong step wrong is s ↔ ∃ before i after, is = before ++ i :: after ∧ wrong i (emitAll step before s).2 := by
  induction is generalizing s with
  | nil => simp [Wrong]
  | cons i is ih =>
    rw [Wrong, ih]
    constructor
    · rintro (h | ⟨before, j, after, rfl, h⟩)
      · exact ⟨[], i, is, rfl, h⟩
      · exact ⟨i :: before, j, after, rfl, h⟩
    · rintro ⟨before, j, after, heq, h⟩
      cases before with
      | nil =>
        obtain ⟨rfl, rfl⟩ := List.cons.inj heq
        exact .inl h
      | cons k before =>
        obtain ⟨rfl, rfl⟩ := List.cons.inj heq
        exact .inr ⟨before, j, after, rfl, h⟩

theorem wrong_append {step : ι → σ → List ε × σ} {wrong : ι → σ → Prop} {is js : List ι} {s : σ} :
    Wrong step wrong (is ++ js) s ↔ Wrong step wrong is s ∨ Wrong step wrong js (emitAll step is s).2 := by
  induction is generalizing s with
  | nil => simp [Wrong]
  | cons i is ih => rw [List.cons_append, Wrong, Wrong, ih, emitAll_cons, or_assoc]

/-- Machines whose states change alike go wrong alike. -/
theorem wrong_congr {step : ι → σ → List ε × σ} {step' : ι → σ → List κ × σ} (h : ∀ i s, (step i s).2 = (step' i s).2)
    (wrong : ι → σ → Prop) (is : List ι) (s : σ) : Wrong step wrong is s ↔ Wrong step' wrong is s := by
  induction is generalizing s with
  | nil => rfl
  | cons i is ih => rw [Wrong, Wrong, h, ih]

/-- Where a wrong step emits less than it should, a run emits all that it should exactly if no step is wrong. -/
theorem emitAll_eq_iff {step : ι → σ → List ε × σ} {wrong : ι → σ → Prop} {full : ι → List ε} {is : List ι}
    (hright : ∀ i ∈ is, ∀ s, ¬ wrong i s → (step i s).1 = full i)
    (hwrong : ∀ i ∈ is, ∀ s, wrong i s → (step i s).1.length < (full i).length) (s : σ) :
    (emitAll step is s).1 = is.flatMap full ↔ ¬ Wrong step wrong is s := by
  have hboth : (¬ Wrong step wrong is s → (emitAll step is s).1 = is.flatMap full) ∧
      (Wrong step wrong is s → (emitAll step is s).1.length < (is.flatMap full).length) := by
    induction is generalizing s with
    | nil => exact ⟨fun _ => rfl, False.elim⟩
    | cons i is ih =>
      obtain ⟨hall, hless⟩ := ih (fun j hj => hright j (List.mem_cons_of_mem _ hj))
        (fun j hj => hwrong j (List.mem_cons_of_mem _ hj)) (step i s).2
      have hi := hright i (List.mem_cons_self ..) s
      have hi' := hwrong i (List.mem_cons_self ..) s
      rw [Wrong, emitAll_cons, List.flatMap_cons, List.length_append, List.length_append]
      by_cases h : wrong i s <;> by_cases hrest : Wrong step wrong is (step i s).2
      · have := hi' h
        have := hless hrest
        exact ⟨fun hno => absurd (.inl h) hno, fun _ => by omega⟩
      · have := hi' h
        exact ⟨fun hno => absurd (.inl h) hno, fun _ => by rw [hall hrest]; omega⟩
      · have := hless hrest
        exact ⟨fun hno => absurd (.inr hrest) hno, fun _ => by rw [hi h]; omega⟩
      · exact ⟨fun _ => by rw [hi h, hall hrest], fun hor => absurd hor (by simp [h, hrest])⟩
  constructor
  · intro heq h
    have := hboth.2 h
    rw [heq] at this
    exact Nat.lt_irrefl _ this
  · exact hboth.1

/-- If a checker goes along with each step that is not wrong, and with no wrong one, it goes along with a run exactly if
no step is wrong. -/
theorem foldlM_emitAll (step : ι → σ → List ε × σ) (wrong : ι → σ → Prop) {read : π → ε → Option π} (place : σ → π)
    {I : σ → Prop} {is : List ι} (hwrong : ∀ i ∈ is, ∀ s, I s → wrong i s → (step i s).1.foldlM read (place s) = none)
    (hright : ∀ i ∈ is, ∀ s, I s → ¬ wrong i s →
      (step i s).1.foldlM read (place s) = some (place (step i s).2) ∧ I (step i s).2) {s : σ} (hs : I s) :
    (Wrong step wrong is s ∧ (emitAll step is s).1.foldlM read (place s) = none) ∨
      (¬ Wrong step wrong is s ∧ (emitAll step is s).1.foldlM read (place s) = some (place (emitAll step is s).2) ∧
        I (emitAll step is s).2) := by
  induction is generalizing s with
  | nil => exact .inr ⟨id, rfl, hs⟩
  | cons i is ih =>
    have hrest := fun {t : σ} (ht : I t) => ih (fun j hj => hwrong j (List.mem_cons_of_mem _ hj))
      (fun j hj => hright j (List.mem_cons_of_mem _ hj)) ht
    rw [Wrong, emitAll_cons, List.foldlM_append]
    by_cases h : wrong i s
    · rw [hwrong i (List.mem_cons_self ..) s hs h]
      exact .inl ⟨.inl h, rfl⟩
    · obtain ⟨hread, hnext⟩ := hright i (List.mem_cons_self ..) s hs h
      rw [hread, Option.bind_eq_bind, Option.bind_some]
      obtain ⟨hw, hr⟩ | ⟨hw, hr⟩ := hrest hnext
      · exact .inl ⟨.inr hw, hr⟩
      · exact .inr ⟨fun hor => hor.elim h hw, hr⟩

end Xdragon.Lib
