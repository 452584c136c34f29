import Mathlib.Data.List.Forall2
import Mathlib.Data.List.Infix

/-!
# Next fit

Items go to bins one after another, in order. When an item does not fit, its bin is closed and the
next one is opened. More room and more bins never place fewer items.
-/

namespace Xdragon.Lib

/-- How many items are placed, with `free` left in the open bin. -/
def nextFit : List Nat → Nat → List Nat → Nat
  | [], _, _ => 0
  | size :: sizes, free, [] => if size ≤ free then nextFit sizes (free - size) [] + 1 else 0
  | size :: sizes, free, bin :: bins =>
    if size ≤ free then nextFit sizes (free - size) (bin :: bins) + 1 else nextFit (size :: sizes) bin bins

/-- The second state has all the room of the first one, and maybe more bins in front. -/
inductive HasRoom : Nat × List Nat → Nat × List Nat → Prop
  | same {free free' : Nat} {bins bins' : List Nat} : free ≤ free' → List.Forall₂ (· ≤ ·) bins bins' →
      HasRoom (free, bins) (free', bins')
  | extra {state : Nat × List Nat} {free' bin : Nat} {bins : List Nat} : HasRoom state (bin, bins) →
      HasRoom state (free', bin :: bins)

/-- Less room is still there. -/
theorem HasRoom.less {state state' : Nat × List Nat} (h : HasRoom state state') {free : Nat} (hle : free ≤ state.1) :
    HasRoom (free, state.2) state' := by
  induction h with
  | same hfree hbins => exact .same (hle.trans hfree) hbins
  | extra _ ih => exact .extra (ih hle)

/-- The room of the later bins is there, too. -/
theorem HasRoom.close {state state' : Nat × List Nat} (h : HasRoom state state') {bin : Nat} {bins : List Nat}
    (hbins : state.2 = bin :: bins) : HasRoom (bin, bins) state' := by
  induction h with
  | same hfree hall =>
    simp only at hbins
    subst hbins
    cases hall with
    | cons hle hrest => exact .extra (.same hle hrest)
  | extra _ ih => exact .extra (ih hbins)

theorem hasRoom_rfl (free : Nat) (bins : List Nat) : HasRoom (free, bins) (free, bins) :=
  .same (Nat.le_refl _) (List.forall₂_refl _)

/-- Bins in front only add room. -/
theorem hasRoom_front {front : List Nat} {free : Nat} {bins : List Nat} {bin : Nat} {rest : List Nat}
    (h : front ++ free :: bins = bin :: rest) : HasRoom (free, bins) (bin, rest) := by
  induction front generalizing bin rest with
  | nil =>
    rw [List.nil_append, List.cons.injEq] at h
    obtain ⟨rfl, rfl⟩ := h
    exact hasRoom_rfl free bins
  | cons first front ih =>
    rw [List.cons_append, List.cons.injEq] at h
    obtain ⟨-, rfl⟩ := h
    cases hnext : front ++ free :: bins with
    | nil => simp at hnext
    | cons next rest => exact .extra (ih hnext)

theorem nextFit_cons_fits {size free : Nat} (h : size ≤ free) (sizes bins : List Nat) :
    nextFit (size :: sizes) free bins = nextFit sizes (free - size) bins + 1 := by
  cases bins <;> simp [nextFit, h]

theorem HasRoom.place {free free' size : Nat} {bins bins' : List Nat} (h : HasRoom (free, bins) (free', bins'))
    (h' : size ≤ free') : HasRoom (free - size, bins) (free' - size, bins') := by
  cases h with
  | same hfree hbins => exact .same (by omega) hbins
  | extra hrest => exact .extra (hrest.less (Nat.sub_le ..))

/-- The item is placed in the open bin: whatever the other state does with it leaves no more room. -/
theorem nextFit_place {size : Nat} {sizes : List Nat}
    (ih : ∀ {state state' : Nat × List Nat}, HasRoom state state' →
      nextFit sizes state.1 state.2 ≤ nextFit sizes state'.1 state'.2)
    (bins : List Nat) {free free' : Nat} {bins' : List Nat} (h : HasRoom (free, bins) (free', bins'))
    (h' : size ≤ free') : nextFit (size :: sizes) free bins ≤ nextFit sizes (free' - size) bins' + 1 := by
  induction bins generalizing free with
  | nil =>
    rw [nextFit]
    split
    · exact Nat.succ_le_succ (ih (h.place h'))
    · exact Nat.zero_le _
  | cons bin bins ihbins =>
    rw [nextFit]
    split
    · exact Nat.succ_le_succ (ih (h.place h'))
    · exact ihbins (h.close rfl)

theorem nextFit_mono (sizes : List Nat) {state state' : Nat × List Nat} (h : HasRoom state state') :
    nextFit sizes state.1 state.2 ≤ nextFit sizes state'.1 state'.2 := by
  induction sizes generalizing state state' with
  | nil => simp [nextFit]
  | cons size sizes ih =>
    obtain ⟨free', bins'⟩ := state'
    simp only
    induction bins' generalizing state free' with
    | nil =>
      obtain ⟨free, bins⟩ := state
      by_cases hfit : size ≤ free'
      · rw [nextFit_cons_fits hfit]
        exact nextFit_place ih bins h hfit
      · cases h with
        | same hfree hbins =>
          cases hbins
          simp [nextFit, show ¬ size ≤ free by omega]
    | cons bin' bins' ihbins =>
      by_cases hfit : size ≤ free'
      · rw [nextFit_cons_fits hfit]
        exact nextFit_place ih state.2 h hfit
      · -- The bin is closed in the roomier state, and so it is in the other one, or it is an extra one.
        rw [nextFit, if_neg hfit]
        cases h with
        | same hfree hbins =>
          cases hbins with
          | cons hle hrest =>
            rw [nextFit, if_neg (by omega)]
            exact ihbins _ (.same hle hrest)
        | extra hrest => exact ihbins _ hrest

theorem nextFit_le_length (sizes : List Nat) (free : Nat) (bins : List Nat) :
    nextFit sizes free bins ≤ sizes.length := by
  fun_induction nextFit sizes free bins <;> simp_all

end Xdragon.Lib
