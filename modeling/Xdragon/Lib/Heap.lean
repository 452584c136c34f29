import Mathlib.Data.List.ReduceOption

/-!
# Heaps

What a priority queue promises, whatever it looks like inside: a push adds an element, and a pop takes
a least one.
-/

namespace Xdragon.Lib

/-- `less` orders the elements, and some of them may be alike. -/
structure WeakOrder {α : Type} (less : α → α → Bool) : Prop where
  asymm : ∀ x y, less x y = true → less y x = false
  trans_not : ∀ x y z, less x y = false → less y z = false → less x z = false

theorem WeakOrder.irrefl {α : Type} {less : α → α → Bool} (h : WeakOrder less) (x : α) : less x x = false := by
  rcases hx : less x x with - | -
  · rfl
  · exact hx ▸ h.asymm x x hx

structure Heap (α : Type) (less : α → α → Bool) where
  State : Type
  items : State → List α
  empty : State
  push : α → State → State
  pop : State → Option (α × State)
  items_empty : items empty = []
  items_push (x : α) (q : State) : (items (push x q)).Perm (x :: items q)
  pop_eq_none {q : State} : pop q = none ↔ items q = []
  pop_perm {q q' : State} {x : α} : pop q = some (x, q') → (items q).Perm (x :: items q')
  pop_least {q q' : State} {x : α} : WeakOrder less → pop q = some (x, q') → ∀ y ∈ items q', less y x = false

namespace Heap

variable {α : Type} {less : α → α → Bool} (h : Heap α less)

/-- The elements one after another, where there is one. -/
def pushAll (xs : List (Option α)) (q : h.State) : h.State := xs.reduceOption.foldl (fun q x => h.push x q) q

theorem mem_push {x y : α} {q : h.State} : y ∈ h.items (h.push x q) ↔ y = x ∨ y ∈ h.items q := by
  rw [(h.items_push x q).mem_iff, List.mem_cons]

theorem length_push (x : α) (q : h.State) : (h.items (h.push x q)).length = (h.items q).length + 1 :=
  (h.items_push x q).length_eq

theorem length_pop {q q' : h.State} {x : α} (hpop : h.pop q = some (x, q')) :
    (h.items q).length = (h.items q').length + 1 := (h.pop_perm hpop).length_eq

theorem mem_pop {q q' : h.State} {x y : α} (hpop : h.pop q = some (x, q')) : y ∈ h.items q ↔ y = x ∨ y ∈ h.items q' := by
  rw [(h.pop_perm hpop).mem_iff, List.mem_cons]

theorem mem_pushAll {xs : List (Option α)} {y : α} {q : h.State} :
    y ∈ h.items (h.pushAll xs q) ↔ some y ∈ xs ∨ y ∈ h.items q := by
  unfold pushAll
  rw [← List.reduceOption_mem_iff]
  generalize xs.reduceOption = l
  induction l generalizing q with
  | nil => simp
  | cons x l ih => rw [List.foldl_cons, ih, h.mem_push, List.mem_cons, or_left_comm, or_assoc]

theorem length_pushAll_le (xs : List (Option α)) (q : h.State) :
    (h.items (h.pushAll xs q)).length ≤ (h.items q).length + xs.length := by
  unfold pushAll
  have hlen : xs.reduceOption.length ≤ xs.length := List.reduceOption_length_le xs
  generalize xs.reduceOption = l at hlen ⊢
  have hfold : (h.items (l.foldl (fun q x => h.push x q) q)).length = (h.items q).length + l.length := by
    clear hlen
    induction l generalizing q with
    | nil => rfl
    | cons x l ih =>
      rw [List.foldl_cons, ih, h.length_push, List.length_cons]
      omega
  omega

end Heap

/-! ## A heap that is a list -/

/-- A least element, and the others. -/
@[grind =]
def takeLeast {α : Type} (less : α → α → Bool) (x : α) : List α → α × List α
  | [] => (x, [])
  | y :: ys =>
    if less y x then ((takeLeast less y ys).1, x :: (takeLeast less y ys).2)
    else ((takeLeast less x ys).1, y :: (takeLeast less x ys).2)

section
variable {α : Type} {less : α → α → Bool}

theorem takeLeast_perm (x : α) (ys : List α) :
    (x :: ys).Perm ((takeLeast less x ys).1 :: (takeLeast less x ys).2) := by
  induction ys generalizing x with
  | nil => exact .refl _
  | cons y ys ih =>
    rw [takeLeast]
    split
    · exact ((ih y).cons x).trans (.swap _ _ _)
    · exact (List.Perm.swap y x ys).trans (((ih x).cons y).trans (.swap _ _ _))

theorem takeLeast_least (hless : WeakOrder less) (x : α) (ys : List α) :
    less x (takeLeast less x ys).1 = false ∧ ∀ y ∈ (takeLeast less x ys).2, less y (takeLeast less x ys).1 = false := by
  induction ys generalizing x with
  | nil =>
    exact ⟨hless.irrefl x, by simp [takeLeast]⟩
  | cons y ys ih =>
    rw [takeLeast]
    split
    · rename_i hyx
      obtain ⟨hy, hrest⟩ := ih y
      have hx := hless.trans_not _ _ _ (hless.asymm y x hyx) hy
      refine ⟨hx, ?_⟩
      intro z hz
      obtain rfl | hz := List.mem_cons.mp hz
      · exact hx
      · exact hrest z hz
    · rename_i hyx
      obtain ⟨hx, hrest⟩ := ih x
      refine ⟨hx, ?_⟩
      intro z hz
      obtain rfl | hz := List.mem_cons.mp hz
      · exact hless.trans_not _ _ _ (Bool.eq_false_iff.mpr hyx) hx
      · exact hrest z hz

/-- A list that is not empty has a least element. -/
theorem exists_least (hless : WeakOrder less) {items : List α} (hne : items ≠ []) :
    ∃ e ∈ items, ∀ y ∈ items, less y e = false := by
  obtain ⟨x, items, rfl⟩ := List.exists_cons_of_ne_nil hne
  have hperm := @takeLeast_perm _ less x items
  obtain ⟨-, hleast⟩ := takeLeast_least hless x items
  refine ⟨(takeLeast less x items).1, hperm.mem_iff.mpr (List.mem_cons_self ..), ?_⟩
  intro y hy
  rcases List.mem_cons.mp (hperm.mem_iff.mp hy) with rfl | hy
  · exact hless.irrefl _
  · exact hleast y hy

variable (less) in
def listHeap : Heap α less where
  State := List α
  items q := q
  empty := []
  push x q := x :: q
  pop
    | [] => none
    | x :: q => some (takeLeast less x q)
  items_empty := rfl
  items_push _ _ := .refl _
  pop_eq_none {q} := by cases q <;> simp
  pop_perm {q q' x} h := by
    cases q with
    | nil => cases h
    | cons y q =>
      obtain ⟨rfl, rfl⟩ := Prod.mk.inj (Option.some.inj h)
      exact takeLeast_perm y q
  pop_least {q q' x} hless h := by
    cases q with
    | nil => cases h
    | cons y q =>
      obtain ⟨rfl, rfl⟩ := Prod.mk.inj (Option.some.inj h)
      exact (takeLeast_least hless y q).2

end

/-! ## A heap that is told what to pop -/

section
variable {α : Type} [DecidableEq α] (less : α → α → Bool)

/-- The next element of the script is popped if it is a least one. -/
def popScripted : List α × List α → Option (α × (List α × List α))
  | ([], _) => none
  | (x :: q, []) => some ((takeLeast less x q).1, ((takeLeast less x q).2, []))
  | (x :: q, e :: script) =>
    if e ∈ x :: q ∧ ∀ y ∈ x :: q, less y e = false then some (e, ((x :: q).erase e, script))
    else some ((takeLeast less x q).1, ((takeLeast less x q).2, script))

variable {less} in
theorem popScripted_cases {q q' : List α × List α} {x : α} (h : popScripted less q = some (x, q')) :
    (x ∈ q.1 ∧ (∀ y ∈ q.1, less y x = false) ∧ q'.1 = q.1.erase x) ∨
      ∃ y ys, q.1 = y :: ys ∧ takeLeast less y ys = (x, q'.1) := by
  obtain ⟨items, script⟩ := q
  rcases items with - | ⟨y, ys⟩
  · cases h
  · rcases script with - | ⟨e, script⟩
    · obtain ⟨rfl, rfl⟩ := Prod.mk.inj (Option.some.inj h)
      exact .inr ⟨y, ys, rfl, rfl⟩
    · rw [popScripted] at h
      split_ifs at h with he
      · obtain ⟨rfl, rfl⟩ := Prod.mk.inj (Option.some.inj h)
        exact .inl ⟨he.1, he.2, rfl⟩
      · obtain ⟨rfl, rfl⟩ := Prod.mk.inj (Option.some.inj h)
        exact .inr ⟨y, ys, rfl, rfl⟩

def scriptedHeap (script : List α) : Heap α less where
  State := List α × List α
  items q := q.1
  empty := ([], script)
  push x q := (x :: q.1, q.2)
  pop := popScripted less
  items_empty := rfl
  items_push _ _ := .refl _
  pop_eq_none {q} := by
    obtain ⟨items, script⟩ := q
    rcases items with - | ⟨y, ys⟩ <;> rcases script with - | ⟨e, script⟩
    · simp [popScripted]
    · simp [popScripted]
    · simp [popScripted]
    · rw [popScripted]
      split_ifs <;> simp
  pop_perm {q q' x} h := by
    rcases popScripted_cases h with ⟨hmem, -, hq⟩ | ⟨y, ys, hq, htake⟩
    · rw [hq]
      exact List.perm_cons_erase hmem
    · have hperm := @takeLeast_perm _ less y ys
      rwa [htake, ← hq] at hperm
  pop_least {q q' x} hless h := by
    rcases popScripted_cases h with ⟨-, hleast, hq⟩ | ⟨y, ys, hq, htake⟩
    · rw [hq]
      exact fun z hz => hleast z (List.mem_of_mem_erase hz)
    · have hleast := (takeLeast_least hless y ys).2
      rwa [htake] at hleast

variable {less}

theorem pop_scripted {script items : List α} {e : α} (s : List α) (he : e ∈ items) (hleast : ∀ y ∈ items, less y e = false) :
    (scriptedHeap less s).pop (items, e :: script) = some (e, (items.erase e, script)) := by
  rcases items with - | ⟨x, items⟩
  · cases he
  · exact if_pos ⟨he, hleast⟩

theorem pushAll_scripted (s : List α) (xs : List (Option α)) (items script : List α) :
    (scriptedHeap less s).pushAll xs (items, script) = (xs.reduceOption.reverse ++ items, script) := by
  unfold Heap.pushAll
  generalize xs.reduceOption = l
  induction l generalizing items with
  | nil => rfl
  | cons x l ih =>
    rw [List.reverse_cons, List.append_assoc]
    exact ih (x :: items)

end

end Xdragon.Lib
