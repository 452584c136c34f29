import Mathlib.Data.List.Basic

/-!
# Readers that drop what follows some places

A reader drops something, such as white space, behind some places of its text, but only within the piece that it is given.
The pieces give what the text gives, unless a piece ends at such a place and what is not dropped then shows.
-/

namespace Xdragon.Lib

/-- A reader that goes on from a state. -/
structure Dropping (σ α ω : Type*) where
  /-- What a text gives. -/
  out : σ → List α → ω
  next : σ → List α → σ
  /-- The text ends at a place behind which something is dropped, or with what is dropped there. -/
  behind : σ → List α → Prop
  /-- A text without what is dropped. -/
  trim : List α → List α
  one : ω
  app : ω → ω → ω
  size : ω → Nat

variable {σ α ω : Type*}

namespace Dropping

variable (d : Dropping σ α ω)

/-- What the pieces give. -/
@[grind =]
def pieces : σ → List (List α) → ω
  | _, [] => d.one
  | s, c :: cs => d.app (d.out s c) (pieces (d.next s c) cs)

/-- What a reader keeps to in the states of `inv`, where dropping changes nothing in front of a `harmless` text. -/
structure Lawful (inv : σ → Prop) (harmless : List α → Prop) : Prop where
  inv_next {s : σ} (x : List α) : inv s → inv (d.next s x)
  out_nil {s : σ} : inv s → d.out s [] = d.one
  not_behind_nil {s : σ} : inv s → ¬ d.behind s []
  out_append {s : σ} {x : List α} (y : List α) : inv s → ¬ d.behind s x →
    d.out s (x ++ y) = d.app (d.out s x) (d.out (d.next s x) y)
  behind_append {s : σ} {x : List α} (y : List α) : inv s → ¬ d.behind s x →
    (d.behind s (x ++ y) ↔ d.behind (d.next s x) y)
  out_drop {s : σ} {x : List α} (y : List α) : inv s → d.behind s x →
    d.out s (x ++ y) = d.app (d.out s x) (d.out (d.next s x) (d.trim y))
  behind_drop {s : σ} {x : List α} (y : List α) : inv s → d.behind s x →
    (d.behind s (x ++ y) ↔ d.trim y = [] ∨ d.behind (d.next s x) y)
  out_harmless {s : σ} {x y : List α} : inv s → d.behind s x → harmless y →
    d.out (d.next s x) (d.trim y) = d.out (d.next s x) y
  size_harmful {s : σ} {x y : List α} : inv s → d.behind s x → ¬ harmless y →
    d.size (d.out (d.next s x) (d.trim y)) < d.size (d.out (d.next s x) y)
  harmless_nil : harmless []
  harmless_later {x y : List α} : harmless (x ++ y) → d.trim x = [] → harmless y
  size_app (o o' : ω) : d.size (d.app o o') = d.size o + d.size o'

/-- What follows a place behind which something is dropped, in later pieces, is harmless. -/
def Apart (harmless : List α → Prop) (s : σ) (cs : List (List α)) : Prop :=
  ∀ c₁ c₂, cs = c₁ ++ c₂ → d.behind s c₁.flatten → harmless c₂.flatten

variable {d} {inv : σ → Prop} {harmless : List α → Prop} (h : d.Lawful inv harmless)
include h

theorem apart_cons {s : σ} (hs : inv s) (c : List α) (cs : List (List α)) :
    d.Apart harmless s (c :: cs) ↔ ∀ c₁ c₂, cs = c₁ ++ c₂ → d.behind s (c ++ c₁.flatten) → harmless c₂.flatten := by
  constructor
  · intro hall c₁ c₂ hcs hbehind
    exact hall (c :: c₁) c₂ (by rw [hcs, List.cons_append]) hbehind
  · intro hall c₁ c₂ hcs hbehind
    cases c₁ with
    | nil => exact absurd hbehind (h.not_behind_nil hs)
    | cons d c₁ =>
      obtain ⟨rfl, htail⟩ := List.cons.inj hcs
      exact hall c₁ c₂ htail hbehind

theorem apart_next {s : σ} (hs : inv s) {c : List α} (cs : List (List α)) (hc : ¬ d.behind s c) :
    d.Apart harmless s (c :: cs) ↔ d.Apart harmless (d.next s c) cs := by
  rw [apart_cons h hs]
  unfold Apart
  simp only [h.behind_append _ hs hc]

theorem apart_behind {s : σ} (hs : inv s) {c : List α} (cs : List (List α)) (hc : d.behind s c) :
    d.Apart harmless s (c :: cs) ↔ harmless cs.flatten ∧ d.Apart harmless (d.next s c) cs := by
  rw [apart_cons h hs]
  constructor
  · intro hall
    refine ⟨hall [] cs rfl (by simpa using hc), fun c₁ c₂ hcs hbehind => hall c₁ c₂ hcs ?_⟩
    exact (h.behind_drop _ hs hc).mpr (.inr hbehind)
  · rintro ⟨hfirst, hall⟩ c₁ c₂ hcs hbehind
    obtain hspace | hbehind := (h.behind_drop _ hs hc).mp hbehind
    · rw [hcs, List.flatten_append] at hfirst
      exact h.harmless_later hfirst hspace
    · exact hall c₁ c₂ hcs hbehind

/-- The pieces give what the text gives, or more where what is dropped shows. -/
theorem pieces_apart {s : σ} (hs : inv s) (cs : List (List α)) :
    (d.Apart harmless s cs → d.pieces s cs = d.out s cs.flatten) ∧
      (¬ d.Apart harmless s cs → d.size (d.out s cs.flatten) < d.size (d.pieces s cs)) := by
  induction cs generalizing s with
  | nil =>
    refine ⟨fun _ => (h.out_nil hs).symm, fun hno => absurd ?_ hno⟩
    intro c₁ c₂ hcs _
    obtain ⟨-, rfl⟩ := List.append_eq_nil_iff.mp hcs.symm
    exact h.harmless_nil
  | cons c cs ih =>
    obtain ⟨hequal, hlonger⟩ := ih (h.inv_next c hs)
    rw [pieces, List.flatten_cons]
    by_cases hc : d.behind s c
    · rw [apart_behind h hs cs hc, h.out_drop _ hs hc]
      refine ⟨fun hall => by rw [hequal hall.2, h.out_harmless hs hc hall.1], fun hno => ?_⟩
      rw [h.size_app, h.size_app]
      have hle : d.size (d.out (d.next s c) cs.flatten) ≤ d.size (d.pieces (d.next s c) cs) := by
        by_cases hall : d.Apart harmless (d.next s c) cs
        · exact Nat.le_of_eq (congrArg d.size (hequal hall).symm)
        · exact Nat.le_of_lt (hlonger hall)
      by_cases hfirst : harmless cs.flatten
      · have := hlonger fun hall => hno ⟨hfirst, hall⟩
        rw [h.out_harmless hs hc hfirst]
        omega
      · have := h.size_harmful hs hc hfirst
        omega
    · rw [apart_next h hs cs hc, h.out_append _ hs hc]
      refine ⟨fun hall => by rw [hequal hall], fun hno => ?_⟩
      have := hlonger hno
      rw [h.size_app, h.size_app]
      omega

/-- The pieces give what the text gives exactly if nothing shows that is dropped elsewhere. -/
theorem pieces_eq_iff {s : σ} (hs : inv s) (cs : List (List α)) :
    d.pieces s cs = d.out s cs.flatten ↔ d.Apart harmless s cs := by
  obtain ⟨hequal, hlonger⟩ := pieces_apart h hs cs
  constructor
  · intro heq
    by_contra hno
    have := hlonger hno
    rw [heq] at this
    exact Nat.lt_irrefl _ this
  · exact hequal

/-- What dropping never changes is the same for the pieces and the text. -/
theorem pieces_view {ν : Type*} {v : ω → ν} (happ : ∀ a b b', v b = v b' → v (d.app a b) = v (d.app a b'))
    (hdrop : ∀ s x y, inv s → d.behind s x → v (d.out (d.next s x) (d.trim y)) = v (d.out (d.next s x) y))
    {s : σ} (hs : inv s) (cs : List (List α)) : v (d.pieces s cs) = v (d.out s cs.flatten) := by
  induction cs generalizing s with
  | nil => exact congrArg v (h.out_nil hs).symm
  | cons c cs ih =>
    rw [pieces, List.flatten_cons]
    by_cases hc : d.behind s c
    · rw [h.out_drop _ hs hc]
      exact happ _ _ _ ((ih (h.inv_next c hs)).trans (hdrop _ _ _ hs hc).symm)
    · rw [h.out_append _ hs hc]
      exact happ _ _ _ (ih (h.inv_next c hs))

end Dropping

end Xdragon.Lib
