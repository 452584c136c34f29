import Mathlib.Tactic.TypeStar

/-!
# Recursion through parts

A function that calls itself on smaller arguments, given by its body with the calls as a parameter.
-/

namespace Xdragon.Lib

variable {α β : Type*} (size : α → Nat) (body : (α → Option β) → α → Option β)

/-- The function up to a depth of calls. -/
@[grind =]
def nestedUpTo : Nat → α → Option β
  | 0, _ => none
  | n + 1, x => body (nestedUpTo n) x

/-- The calls do not get deeper than the size of the argument. -/
def nested (x : α) : Option β := nestedUpTo body (size x + 1) x

/-- The body calls the function on smaller arguments only. -/
def Shrinking : Prop := ∀ x f g, (∀ y, size y < size x → f y = g y) → body f x = body g x

variable {size body}

theorem nestedUpTo_eq (h : Shrinking size body) {x : α} {n : Nat} (hn : size x < n) :
    nestedUpTo body n x = nested size body x := by
  induction hk : size x using Nat.strongRecOn generalizing x n with
  | _ k ih =>
    cases n with
    | zero => omega
    | succ n =>
      refine h x _ _ fun y hy => ?_
      rw [ih (size y) (by omega) (by omega) rfl, ih (size y) (by omega) hy rfl]

/-- The function is what its body says. -/
theorem nested_eq (h : Shrinking size body) (x : α) : nested size body x = body (nested size body) x :=
  h x _ _ fun _ hy => nestedUpTo_eq h hy

/-! ## Calls for the parts of a list -/

variable {γ : Type*} {f g : α → Option γ} {xs : List α}

theorem mapM_congr (h : ∀ x ∈ xs, f x = g x) : xs.mapM f = xs.mapM g := by
  induction xs with
  | nil => rfl
  | cons x xs ih =>
    rw [List.mapM_cons, List.mapM_cons, h x (List.mem_cons_self ..), ih fun y hy => h y (List.mem_cons_of_mem _ hy)]

theorem mapM_eq_none : xs.mapM f = none ↔ ∃ x ∈ xs, f x = none := by
  induction xs with
  | nil => simp
  | cons x xs ih =>
    simp only [List.mapM_cons, List.mem_cons, exists_eq_or_imp, ← ih]
    cases f x with
    | none => simp
    | some y => cases xs.mapM f <;> simp

theorem mem_of_mapM {ys : List γ} (h : xs.mapM f = some ys) {y : γ} (hy : y ∈ ys) : ∃ x ∈ xs, f x = some y := by
  induction xs generalizing ys with
  | nil =>
    cases h
    cases hy
  | cons x xs ih =>
    rw [List.mapM_cons] at h
    obtain ⟨z, hz, h⟩ := Option.bind_eq_some_iff.mp h
    obtain ⟨zs, hzs, h⟩ := Option.bind_eq_some_iff.mp h
    obtain rfl := Option.some.inj h
    obtain rfl | hy := List.mem_cons.mp hy
    · exact ⟨x, List.mem_cons_self .., hz⟩
    · obtain ⟨w, hw, heq⟩ := ih hzs hy
      exact ⟨w, List.mem_cons_of_mem _ hw, heq⟩

/-- The parts give back what they were made of. -/
theorem mapM_map {e : γ → α} {ys : List γ} (h : ∀ y ∈ ys, f (e y) = some y) : (ys.map e).mapM f = some ys := by
  induction ys with
  | nil => rfl
  | cons y ys ih =>
    rw [List.map_cons, List.mapM_cons, h y (List.mem_cons_self ..), ih fun z hz => h z (List.mem_cons_of_mem _ hz)]
    rfl

/-- The first part that is not good is bad. -/
def FirstOf (good bad : α → Prop) (xs : List α) : Prop :=
  ∃ before x after, xs = before ++ x :: after ∧ (∀ y ∈ before, good y) ∧ bad x

theorem not_firstOf_nil (good bad : α → Prop) : ¬ FirstOf good bad [] := by
  rintro ⟨before, x, after, h, -⟩
  cases before <;> cases h

theorem firstOf_congr {good bad good' bad' : α → Prop} (hgood : ∀ x ∈ xs, good x ↔ good' x) (hbad : ∀ x ∈ xs, bad x ↔ bad' x) :
    FirstOf good bad xs ↔ FirstOf good' bad' xs := by
  constructor <;>
  · rintro ⟨before, x, after, rfl, hbefore, hx⟩
    have hin : x ∈ before ++ x :: after := List.mem_append_right _ (List.mem_cons_self ..)
    refine ⟨before, x, after, rfl, fun y hy => ?_, ?_⟩
    · simpa [hgood y (List.mem_append_left _ hy)] using hbefore y hy
    · simpa [hbad x hin] using hx

theorem firstOf_cons {good bad : α → Prop} {x : α} :
    FirstOf good bad (x :: xs) ↔ bad x ∨ good x ∧ FirstOf good bad xs := by
  constructor
  · rintro ⟨before, y, after, h, hgood, hbad⟩
    cases before with
    | nil =>
      obtain ⟨rfl, rfl⟩ := List.cons.inj h
      exact .inl hbad
    | cons z before =>
      obtain ⟨rfl, rfl⟩ := List.cons.inj h
      exact .inr ⟨hgood x (List.mem_cons_self ..), before, y, after, rfl, fun w hw => hgood w (List.mem_cons_of_mem _ hw), hbad⟩
  · rintro (hbad | ⟨hx, before, y, after, rfl, hgood, hbad⟩)
    · exact ⟨[], x, xs, rfl, fun _ h => (nomatch h), hbad⟩
    · exact ⟨x :: before, y, after, rfl, List.forall_mem_cons.mpr ⟨hx, hgood⟩, hbad⟩

end Xdragon.Lib
