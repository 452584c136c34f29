import Mathlib.Data.List.Infix
import Mathlib.Data.List.Perm.Basic

/-!
# Rows that show the end of a list

A buffer holds the last entries of a list. At first they lie in line, and from then on the next entry takes the place of the
oldest one.
-/

namespace Xdragon.Lib

variable {ρ : Type*}

/-- Dropping at the end goes through an append. -/
theorem take_append_sub (older newer : List ρ) {p : Nat} (hp : p ≤ newer.length) :
    (older ++ newer).take ((older ++ newer).length - p) = older ++ newer.take (newer.length - p) := by
  rw [List.length_append, Nat.add_sub_assoc hp, List.take_length_add_append]

/-- The rows with `x` at `i`. -/
def replaceAt (rows : List ρ) (i : Nat) (x : ρ) : List ρ := rows.take i ++ x :: rows.drop (i + 1)

theorem length_replaceAt {rows : List ρ} {i : Nat} (hi : i < rows.length) (x : ρ) : (replaceAt rows i x).length = rows.length := by
  rw [replaceAt, List.length_append, List.length_cons, List.length_take, List.length_drop]
  omega

theorem take_replaceAt {rows : List ρ} {i : Nat} (hi : i ≤ rows.length) (x : ρ) : (replaceAt rows i x).take (i + 1) = rows.take i ++ [x] := by
  have hlen : (rows.take i).length = i := List.length_take_of_le hi
  have := @List.take_length_add_append _ (rows.take i) (x :: rows.drop (i + 1)) 1
  rwa [hlen] at this

theorem drop_replaceAt {rows : List ρ} {i : Nat} (hi : i ≤ rows.length) (x : ρ) : (replaceAt rows i x).drop (i + 1) = rows.drop (i + 1) := by
  have hlen : (rows.take i).length = i := List.length_take_of_le hi
  have := @List.drop_length_add_append _ (rows.take i) (x :: rows.drop (i + 1)) 1
  rwa [hlen] at this

/-- The rows show the end of `entries`, with `size` of them if there are so many. The next one goes to `idx`. -/
inductive Shows (size : Nat) (rows : List ρ) (idx : Nat) (entries : List ρ) : Prop
  /-- All entries lie in line, and behind them is room. -/
  | lined : idx ≤ rows.length → rows.length ≤ size → rows.take idx = entries → Shows size rows idx entries
  /-- Every row is an entry, and the oldest one is at `idx`. -/
  | turned : 0 < idx → idx ≤ rows.length → size ≤ rows.length → (idx < rows.length → rows.length = size) →
      rows.drop idx ++ rows.take idx <:+ entries → Shows size rows idx entries

namespace Shows

variable {size idx : Nat} {rows entries : List ρ}

theorem idx_le (h : Shows size rows idx entries) : idx ≤ rows.length := by
  cases h with
  | lined hle hsize htake => exact hle
  | turned hpos hle hsize hturn hsuffix => exact hle

/-- The rows in front of the next one are the newest entries. -/
theorem take_suffix (h : Shows size rows idx entries) : rows.take idx <:+ entries := by
  cases h with
  | lined hle hsize htake => rw [htake]
  | turned hpos hle hsize hturn hsuffix => exact (List.suffix_append ..).trans hsuffix

theorem idx_le_entries (h : Shows size rows idx entries) : idx ≤ entries.length := by
  have := h.take_suffix.length_le
  rwa [List.length_take_of_le h.idx_le] at this

/-- They are still the newest ones when some entries are dropped at the end. -/
theorem take_suffix_dropped (h : Shows size rows idx entries) {p : Nat} (hp : p ≤ idx) :
    rows.take (idx - p) <:+ entries.take (entries.length - p) := by
  obtain ⟨older, rfl⟩ := h.take_suffix
  have hlen : (rows.take idx).length = idx := List.length_take_of_le h.idx_le
  rw [take_append_sub _ _ (hp.trans_eq hlen.symm), hlen, List.take_take, Nat.min_eq_left (Nat.sub_le ..)]
  exact List.suffix_append ..

/-- All rows in line, and nothing but entries. -/
theorem of_suffix {rows : List ρ} (hne : rows ≠ []) (h : rows <:+ entries) (hsize : rows = entries ∨ size ≤ rows.length) :
    Shows size rows rows.length entries := by
  by_cases hle : size ≤ rows.length
  · refine .turned (List.length_pos_iff.mpr hne) (Nat.le_refl _) hle (fun hlt => absurd hlt (Nat.lt_irrefl _)) ?_
    rwa [List.drop_length, List.nil_append, List.take_length]
  · obtain rfl := hsize.resolve_right hle
    exact .lined (Nat.le_refl _) (by omega) (List.take_length ..)

/-- What is shown, in the order of the rows. -/
theorem window (h : Shows size rows idx entries) (hlen : rows.length ≤ size) : ∃ window, window <:+ entries ∧
    window.length = min entries.length size ∧ (rows.take (min entries.length size)).Perm window := by
  cases h with
  | lined hle hsize htake =>
    subst htake
    have hmin : min (rows.take idx).length size = idx := by
      rw [List.length_take_of_le hle]
      omega
    rw [hmin]
    exact ⟨rows.take idx, List.suffix_rfl, List.length_take_of_le hle, .refl _⟩
  | turned hpos hle hsize hturn hsuffix =>
    have hall : (rows.drop idx ++ rows.take idx).length = size := by
      rw [List.length_append, List.length_drop, List.length_take]
      omega
    have hmin : min entries.length size = size := by
      have := hsuffix.length_le
      omega
    rw [hmin, List.take_of_length_le hlen]
    refine ⟨rows.drop idx ++ rows.take idx, hsuffix, hall, ?_⟩
    have := @List.perm_append_comm _ (rows.take idx) (rows.drop idx)
    rwa [List.take_append_drop] at this

/-- Rows in line are as many as the window takes. -/
theorem le_length (h : Shows size rows rows.length entries) : min entries.length size ≤ rows.length := by
  cases h with
  | lined hle hsize htake =>
    rw [List.take_length] at htake
    rw [htake]
    exact Nat.min_le_left ..
  | turned hpos hle hsize hturn hsuffix => exact (Nat.min_le_right ..).trans hsize

/-! ## New entries -/

/-- More entries come behind the newest ones, of which the oldest are cut off. `p` entries were dropped before. -/
theorem append (h : Shows size rows idx entries) {p : Nat} (hp : p ≤ idx) {new : List ρ} (hnew : new ≠ [])
    (hroom : idx = entries.length ∨ size ≤ idx - p + new.length) :
    Shows size ((rows.take (idx - p)).drop (idx - p + 1 - size) ++ new) ((rows.take (idx - p)).drop (idx - p + 1 - size) ++ new).length
      (entries.take (entries.length - p) ++ new) := by
  have hpos := List.length_pos_iff.mpr hnew
  have hkept := h.take_suffix_dropped hp
  have hlen : (rows.take (idx - p)).length = idx - p := List.length_take_of_le ((Nat.sub_le ..).trans h.idx_le)
  apply of_suffix (List.append_ne_nil_of_right_ne_nil _ hnew)
  · exact List.suffix_append_self_iff.mpr ((List.drop_suffix ..).trans hkept)
  · by_cases hcut : size ≤ idx - p + new.length
    · right
      rw [List.length_append, List.length_drop, hlen]
      omega
    · left
      have hwhole : rows.take (idx - p) = entries.take (entries.length - p) := by
        apply hkept.eq_of_length
        rw [hlen, hroom.resolve_right hcut, List.length_take]
        omega
      rw [show idx - p + 1 - size = 0 by omega, List.drop_zero, hwhole]

/-- An entry comes behind all others. -/
theorem write_lined {i : Nat} (hi : i < rows.length) (hsize : rows.length ≤ size) (htake : rows.take i = entries) (x : ρ) :
    Shows size (replaceAt rows i x) (i + 1) (entries ++ [x]) := by
  apply lined
  · rw [length_replaceAt hi]
    exact hi
  · rw [length_replaceAt hi]
    exact hsize
  · rw [take_replaceAt hi.le, htake]

/-- An entry takes the place of the oldest one, or of the only one that was dropped. -/
theorem write_turned {i : Nat} (hi : i < rows.length) (hsize : rows.length = size) (hsuffix : rows.drop (i + 1) ++ rows.take i <:+ entries)
    (x : ρ) : Shows size (replaceAt rows i x) (i + 1) (entries ++ [x]) := by
  apply turned (Nat.succ_pos i)
  · rw [length_replaceAt hi]
    exact hi
  · rw [length_replaceAt hi, hsize]
  · intro _
    rw [length_replaceAt hi, hsize]
  · rw [take_replaceAt hi.le, drop_replaceAt hi.le, ← List.append_assoc]
    exact List.suffix_append_self_iff.mpr hsuffix

end Shows

end Xdragon.Lib
