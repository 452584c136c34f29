import Mathlib.Data.Int.Log
import Mathlib.Data.Rat.Floor
import Mathlib.Tactic.Positivity

/-!
# Rounding to single precision

Numbers with 24 significant bits, and the nearest one to a rational that is not negative. The
exponent has no bounds: nothing here comes near the smallest or the largest `float32`.
-/

namespace Xdragon.Lib

/-- The nearest integer, and the even one of two. -/
def roundEven (t : ℚ) : ℤ :=
  if t - ⌊t⌋ < 1 / 2 then ⌊t⌋
  else if 1 / 2 < t - ⌊t⌋ then ⌊t⌋ + 1
  else if ⌊t⌋ % 2 = 0 then ⌊t⌋ else ⌊t⌋ + 1

theorem roundEven_nearest (t : ℚ) (j : ℤ) : |(roundEven t : ℚ) - t| ≤ |(j : ℚ) - t| := by
  have hle := Int.floor_le t
  have hlt := Int.lt_floor_add_one t
  -- Every integer is at or below the floor, or above it.
  have hside : (j : ℚ) ≤ ⌊t⌋ ∨ (⌊t⌋ : ℚ) + 1 ≤ j := by
    rcases le_or_gt j ⌊t⌋ with h | h
    · exact Or.inl (by exact_mod_cast h)
    · exact Or.inr (by exact_mod_cast h)
  have hdist : min (t - ⌊t⌋) (⌊t⌋ + 1 - t) ≤ |(j : ℚ) - t| := by
    rcases hside with h | h
    · rw [abs_of_nonpos (by linarith)]
      exact (min_le_left _ _).trans (by linarith)
    · rw [abs_of_nonneg (by linarith)]
      exact (min_le_right _ _).trans (by linarith)
  refine le_trans ?_ hdist
  have hdown : |(⌊t⌋ : ℚ) - t| = t - ⌊t⌋ := by rw [abs_of_nonpos (by linarith)]; ring
  have hup : |((⌊t⌋ + 1 : ℤ) : ℚ) - t| = ⌊t⌋ + 1 - t := by
    push_cast
    rw [abs_of_nonneg (by linarith)]
  unfold roundEven
  split
  · rw [hdown]
    exact le_min le_rfl (by linarith)
  · split
    · rw [hup]
      exact le_min (by linarith) le_rfl
    · split
      · rw [hdown]
        exact le_min le_rfl (by linarith)
      · rw [hup]
        exact le_min (by linarith) le_rfl

theorem roundEven_bounds (t : ℚ) : ⌊t⌋ ≤ roundEven t ∧ roundEven t ≤ ⌊t⌋ + 1 := by
  unfold roundEven
  split
  · omega
  · split
    · omega
    · split <;> omega

/-- A number with at most 24 significant bits. -/
def IsFloat32 (y : ℚ) : Prop := ∃ (k : ℕ) (e : ℤ), k ≤ 2 ^ 24 ∧ y = k * 2 ^ e

/-- The distance of the numbers with 24 significant bits around `x`. -/
def spacing (x : ℚ) : ℚ := 2 ^ (Int.log 2 x - 23)

/-- `float32(x)`. -/
def float32 (x : ℚ) : ℚ := if x ≤ 0 then 0 else roundEven (x / spacing x) * spacing x

theorem isFloat32_zero : IsFloat32 0 := ⟨0, 0, by omega, by simp⟩

theorem spacing_pos (x : ℚ) : 0 < spacing x := by
  unfold spacing; exact zpow_pos (by norm_num) _

/-- What is left of `x` in units of its spacing has 24 bits. -/
theorem div_spacing {x : ℚ} (hx : 0 < x) : 2 ^ 23 ≤ x / spacing x ∧ x / spacing x < 2 ^ 24 := by
  have h1 : (2 : ℚ) ^ Int.log 2 x ≤ x := by exact_mod_cast Int.zpow_log_le_self (b := 2) (by decide) hx
  have h2 : x < (2 : ℚ) ^ (Int.log 2 x + 1) := by exact_mod_cast Int.lt_zpow_succ_log_self (b := 2) (by decide) x
  have e1 : (2 : ℚ) ^ 23 * spacing x = 2 ^ Int.log 2 x := by
    unfold spacing
    rw [← zpow_natCast, ← zpow_add₀ (by norm_num)]
    congr 1
    push_cast
    ring
  have e2 : (2 : ℚ) ^ 24 * spacing x = 2 ^ (Int.log 2 x + 1) := by
    unfold spacing
    rw [← zpow_natCast, ← zpow_add₀ (by norm_num)]
    congr 1
    push_cast
    ring
  rw [le_div_iff₀ (spacing_pos x), div_lt_iff₀ (spacing_pos x), e1, e2]
  exact ⟨h1, h2⟩

theorem isFloat32_float32 (x : ℚ) : IsFloat32 (float32 x) := by
  unfold float32
  split
  · exact isFloat32_zero
  · rename_i hx
    obtain ⟨h1, h2⟩ := div_spacing (not_le.mp hx)
    obtain ⟨hlow, hhigh⟩ := roundEven_bounds (x / spacing x)
    have hfloor : 0 ≤ ⌊x / spacing x⌋ := Int.floor_nonneg.mpr (le_trans (by norm_num) h1)
    have hceil : ⌊x / spacing x⌋ < 2 ^ 24 := Int.floor_lt.mpr (by exact_mod_cast h2)
    refine ⟨(roundEven (x / spacing x)).toNat, Int.log 2 x - 23, by omega, ?_⟩
    rw [← Int.cast_natCast, Int.toNat_of_nonneg (hfloor.trans hlow)]
    rfl

/-- No number with 24 significant bits is nearer. -/
theorem float32_nearest {x y : ℚ} (hx : 0 ≤ x) (hy : IsFloat32 y) : |float32 x - x| ≤ |y - x| := by
  obtain ⟨k, e, hk, rfl⟩ := hy
  rcases hx.eq_or_lt with rfl | hx
  · rw [float32, if_pos le_rfl, sub_self, abs_zero]
    exact abs_nonneg _
  · have hu := spacing_pos x
    obtain ⟨h1, h2⟩ := div_spacing hx
    -- In units of the spacing, where the nearest integer is known.
    have hscale : ∀ r : ℚ, |r * spacing x - x| = |r - x / spacing x| * spacing x := by
      intro r
      rw [← abs_of_pos hu, ← abs_mul, abs_of_pos hu, sub_mul, div_mul_cancel₀ _ hu.ne']
    have hint : ∀ j : ℤ, |float32 x - x| ≤ |(j : ℚ) * spacing x - x| := by
      intro j
      rw [float32, if_neg (not_le.mpr hx), hscale, hscale]
      exact mul_le_mul_of_nonneg_right (roundEven_nearest _ j) hu.le
    by_cases he : Int.log 2 x - 23 ≤ e
    · have hj := hint (k * 2 ^ (e - (Int.log 2 x - 23)).toNat)
      have heq : ((k * 2 ^ (e - (Int.log 2 x - 23)).toNat : ℤ) : ℚ) * spacing x = k * 2 ^ e := by
        unfold spacing
        push_cast
        rw [← zpow_natCast, Int.toNat_of_nonneg (by omega), mul_assoc, ← zpow_add₀ (by norm_num)]
        congr 2
        ring
      rwa [heq] at hj
    · -- A finer number is below the power of two under `x`, which is no nearer itself.
      have hbelow : (k : ℚ) * 2 ^ e ≤ 2 ^ 23 * spacing x := by
        have hk' : (k : ℚ) ≤ 2 ^ 24 := by exact_mod_cast hk
        have hpow : (2 : ℚ) ^ e ≤ 2 ^ (Int.log 2 x - 23 - 1) := zpow_le_zpow_right₀ (by norm_num) (by omega)
        calc (k : ℚ) * 2 ^ e ≤ 2 ^ 24 * 2 ^ (Int.log 2 x - 23 - 1) := by
              apply mul_le_mul hk' hpow (zpow_nonneg (by norm_num) _) (by norm_num)
          _ = 2 ^ 23 * spacing x := by
              rw [zpow_sub_one₀ (by norm_num)]
              unfold spacing
              ring
      have hpower : 2 ^ 23 * spacing x ≤ x := (le_div_iff₀ hu).mp h1
      have hj := hint (2 ^ 23)
      simp only [Int.cast_pow, Int.cast_ofNat] at hj
      rw [abs_of_nonpos (show (2 : ℚ) ^ 23 * spacing x - x ≤ 0 by linarith)] at hj
      rw [abs_of_nonpos (show (k : ℚ) * 2 ^ e - x ≤ 0 by linarith)]
      linarith

/-! ## What rounding keeps -/

theorem float32_eq_self {x : ℚ} (hx : 0 ≤ x) (h : IsFloat32 x) : float32 x = x := by
  have hnear := float32_nearest hx h
  rw [sub_self, abs_zero, abs_nonpos_iff, sub_eq_zero] at hnear
  exact hnear

theorem float32_le {x y : ℚ} (hx : 0 ≤ x) (hy : IsFloat32 y) (h : x ≤ y) : float32 x ≤ y := by
  by_contra hlt
  have hnear := float32_nearest hx hy
  rw [abs_of_nonneg (by linarith), abs_of_nonneg (by linarith)] at hnear
  linarith

theorem le_float32 {x y : ℚ} (hx : 0 ≤ x) (hy : IsFloat32 y) (h : y ≤ x) : y ≤ float32 x := by
  by_contra hlt
  have hnear := float32_nearest hx hy
  rw [abs_of_nonpos (by linarith), abs_of_nonpos (by linarith)] at hnear
  linarith

theorem float32_nonneg {x : ℚ} (hx : 0 ≤ x) : 0 ≤ float32 x := le_float32 hx isFloat32_zero hx

theorem float32_mono {x y : ℚ} (h : x ≤ y) : float32 x ≤ float32 y := by
  by_contra hlt
  have hx : 0 ≤ x := by
    by_contra hneg
    have hzero : float32 x = 0 := if_pos (not_le.mp hneg).le
    rcases le_or_gt y 0 with hy | hy
    · exact hlt (hzero.trans_le (if_pos hy : float32 y = 0).ge)
    · exact hlt (hzero.trans_le (float32_nonneg hy.le))
  have hnearX := float32_nearest hx (isFloat32_float32 y)
  have hnearY := float32_nearest (hx.trans h) (isFloat32_float32 x)
  rcases le_or_gt (float32 x) y with hle | hgt
  · exact hlt (le_float32 (hx.trans h) (isFloat32_float32 x) hle)
  · -- both numbers lie between the two results, so that each is as near to the other result
    rw [abs_of_nonneg (by linarith)] at hnearX
    have hbelow : float32 y < x := by
      by_contra hge
      rw [abs_of_nonneg (by linarith)] at hnearX
      linarith
    rw [abs_of_neg (by linarith)] at hnearX
    rw [abs_of_neg (by linarith), abs_of_pos (by linarith)] at hnearY
    obtain rfl : x = y := by linarith
    exact hlt le_rfl

/-- A number from `2 ^ e` on is a multiple of the spacing there. -/
theorem IsFloat32.multiple {y : ℚ} (hy : IsFloat32 y) {e : ℤ} (h : 2 ^ e < y) : ∃ k : ℤ, y = k * 2 ^ (e - 23) := by
  obtain ⟨k, d, hk, rfl⟩ := hy
  have hd : e - 23 ≤ d := by
    by_contra hlt
    have hk' : (k : ℚ) ≤ 2 ^ 24 := by exact_mod_cast hk
    have hpow : (2 : ℚ) ^ d ≤ 2 ^ (e - 24) := zpow_le_zpow_right₀ (by norm_num) (by omega)
    have hle : (k : ℚ) * 2 ^ d ≤ 2 ^ 24 * 2 ^ (e - 24) :=
      mul_le_mul hk' hpow (zpow_nonneg (by norm_num) _) (by norm_num)
    have heq : (2 : ℚ) ^ 24 * 2 ^ (e - 24) = 2 ^ e := by
      rw [← zpow_natCast, ← zpow_add₀ (by norm_num)]
      congr 1
      push_cast
      ring
    linarith
  refine ⟨k * 2 ^ (d - (e - 23)).toNat, ?_⟩
  push_cast
  rw [← zpow_natCast, Int.toNat_of_nonneg (by omega), mul_assoc, ← zpow_add₀ (by norm_num)]
  congr 2
  ring

/-! ## The middle of two numbers -/

/-- `(low + high) / 2`, with both operations rounded. -/
def middle (low high : ℚ) : ℚ := float32 (float32 (low + high) / 2)

theorem IsFloat32.half {y : ℚ} (hy : IsFloat32 y) : IsFloat32 (y / 2) := by
  obtain ⟨k, e, hk, rfl⟩ := hy
  refine ⟨k, e - 1, hk, ?_⟩
  rw [zpow_sub_one₀ (by norm_num)]
  ring

theorem IsFloat32.double {y : ℚ} (hy : IsFloat32 y) : IsFloat32 (2 * y) := by
  obtain ⟨k, e, hk, rfl⟩ := hy
  refine ⟨k, e + 1, hk, ?_⟩
  rw [zpow_add_one₀ (by norm_num)]
  ring

theorem isFloat32_middle (low high : ℚ) : IsFloat32 (middle low high) := isFloat32_float32 _

/-- Halving is exact, so that only the sum is rounded. -/
theorem middle_nearest {low high y : ℚ} (h0 : 0 ≤ low) (h1 : 0 ≤ high) (hy : IsFloat32 y) :
    |middle low high - (low + high) / 2| ≤ |y - (low + high) / 2| := by
  have hsum : 0 ≤ low + high := by linarith
  have hhalf := (isFloat32_float32 (low + high)).half
  rw [middle, float32_eq_self (by have := float32_nonneg hsum; linarith) hhalf]
  have hnear := float32_nearest hsum hy.double
  have e1 : float32 (low + high) / 2 - (low + high) / 2 = (float32 (low + high) - (low + high)) / 2 := by ring
  have e2 : y - (low + high) / 2 = (2 * y - (low + high)) / 2 := by ring
  rw [e1, e2, abs_div, abs_div]
  exact div_le_div_of_nonneg_right hnear (abs_nonneg _)

theorem le_middle {low high y : ℚ} (h0 : 0 ≤ low) (h1 : 0 ≤ high) (hy : IsFloat32 y) (h : y ≤ (low + high) / 2) :
    y ≤ middle low high := by
  by_contra hlt
  have hnear := middle_nearest h0 h1 hy
  rw [abs_of_nonpos (by linarith), abs_of_nonpos (by linarith)] at hnear
  linarith

theorem middle_mem {low high : ℚ} (h0 : 0 ≤ low) (h : low ≤ high) (hh : IsFloat32 high) :
    low ≤ middle low high ∧ middle low high ≤ high := by
  have hnear := middle_nearest h0 (h0.trans h) hh
  have hend : |high - (low + high) / 2| = (high - low) / 2 := by
    rw [abs_of_nonneg (by linarith)]
    ring
  rw [hend] at hnear
  have := abs_le.mp hnear
  constructor <;> linarith [this.1, this.2]

/-- The middle only meets an end if no number lies between. -/
theorem middle_between {low high y : ℚ} (h0 : 0 ≤ low) (hy : IsFloat32 y) (h1 : low < y) (h2 : y < high) :
    low < middle low high ∧ middle low high < high := by
  have hnear := middle_nearest h0 (by linarith) hy
  have hclose : |y - (low + high) / 2| < (high - low) / 2 := abs_lt.mpr ⟨by linarith, by linarith⟩
  have := abs_lt.mp (hnear.trans_lt hclose)
  constructor <;> linarith [this.1, this.2]

end Xdragon.Lib
