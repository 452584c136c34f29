import Xdragon.Llm.Packing

/-!
# When the bisection ends

Two neighbouring capacities above 16 lie further apart than the bisection wants to get, and their
middle is one of them. It ends exactly when a capacity of 16 is enough.
-/

open Xdragon.Lib

namespace Xdragon.Llm

/-! ## Close enough -/

theorem isFloat32_sixteen : IsFloat32 16 := ⟨1, 4, by norm_num, by norm_num⟩

/-- The bisection goes on above this distance. -/
theorem lt_of_apart {d : ℚ} (h0 : 0 ≤ d) (h : float32 (1 / 1000000) < float32 d) : 2 ^ (-20 : ℤ) < d := by
  by_contra hle
  have hgrid : IsFloat32 (2 ^ (-20 : ℤ)) := ⟨1, -20, by norm_num, by norm_num⟩
  have h1 := float32_le h0 hgrid (not_lt.mp hle)
  have h2 : (2 : ℚ) ^ (-20 : ℤ) ≤ float32 (1 / 1000000) := le_float32 (by norm_num) hgrid (by norm_num)
  exact absurd h (not_lt.mpr (h1.trans h2))

/-- It does not end at that distance, which is twice as much. -/
theorem apart_of_le {d : ℚ} (h : 2 ^ (-19 : ℤ) ≤ d) : float32 (1 / 1000000) < float32 d := by
  have hpos : (0 : ℚ) ≤ d := le_trans (by norm_num) h
  have h1 : float32 (1 / 1000000) ≤ 3 * 2 ^ (-21 : ℤ) :=
    float32_le (by norm_num) ⟨3, -21, by norm_num, by norm_num⟩ (by norm_num)
  have h2 : (2 : ℚ) ^ (-19 : ℤ) ≤ float32 d :=
    le_float32 hpos ⟨1, -19, by norm_num, by norm_num⟩ h
  have h3 : (3 : ℚ) * 2 ^ (-21 : ℤ) < 2 ^ (-19 : ℤ) := by norm_num
  exact h1.trans_lt (h3.trans_le h2)

/-! ## One bisection -/

section
variable {fit : ℚ → GPULayersList} {maxNumGPU : Nat}

/-- The ends of the bisection: the higher one is enough, and the lower one is not, or it is 0. -/
structure Bracket (fit : ℚ → GPULayersList) (maxNumGPU : Nat) (low high : ℚ) (best : GPULayersList) : Prop where
  low_nonneg : 0 ≤ low
  lt : low < high
  low_float : IsFloat32 low
  high_float : IsFloat32 high
  best : best = fit high
  high_enough : (fit high).sum = maxNumGPU
  low_short : low = 0 ∨ (fit low).sum ≠ maxNumGPU

/-- A result is what fits at some capacity, and it is as much as at the highest one. -/
theorem bisect_some {fuel : Nat} {low high : ℚ} {best out : GPULayersList} (h0 : 0 ≤ low) (hle : low ≤ high)
    (hf : IsFloat32 high) (hbest : best = fit high) (henough : (fit high).sum = maxNumGPU)
    (h : bisect fit maxNumGPU fuel low high best = some out) :
    ∃ c, c ≤ high ∧ out = fit c ∧ out.sum = maxNumGPU := by
  induction fuel generalizing low high best with
  | zero => cases h
  | succ fuel ih =>
    unfold bisect at h
    simp only at h
    split at h
    · obtain ⟨hm1, hm2⟩ := middle_mem h0 hle hf
      split at h
      · rename_i hmid
        obtain ⟨c, hc, hout⟩ := ih h0 hm1 (isFloat32_middle ..) rfl hmid h
        exact ⟨c, hc.trans hm2, hout⟩
      · exact ih (h0.trans hm1) hm2 hf hbest henough h
    · rw [Option.some.injEq] at h
      subst h hbest
      exact ⟨high, le_rfl, rfl, henough⟩

/-- More fuel changes no result. -/
theorem bisect_more {fuel fuel' : Nat} (hle : fuel ≤ fuel') {low high : ℚ} {best out : GPULayersList}
    (h : bisect fit maxNumGPU fuel low high best = some out) : bisect fit maxNumGPU fuel' low high best = some out := by
  induction fuel generalizing fuel' low high best with
  | zero => cases h
  | succ fuel ih =>
    obtain ⟨fuel', rfl⟩ : ∃ n, fuel' = n + 1 := ⟨fuel' - 1, by omega⟩
    unfold bisect at h ⊢
    simp only at h ⊢
    split at h
    · rename_i hapart
      rw [if_pos hapart]
      split at h
      · rename_i hmid
        rw [if_pos hmid]
        exact ih (by omega) h
      · rename_i hmid
        rw [if_neg hmid]
        exact ih (by omega) h
    · rename_i hclose
      rwa [if_neg hclose]

/-- Above 16 two different capacities lie a whole spacing apart. -/
theorem gap_above {low high : ℚ} (hl : IsFloat32 low) (hh : IsFloat32 high) (hlt : low < high) (h16 : 16 < high) :
    2 ^ (-19 : ℤ) ≤ high - low := by
  have hpos : (0 : ℚ) < 2 ^ (-19 : ℤ) := by norm_num
  have h4 : (2 : ℚ) ^ (4 : ℤ) = 16 := by norm_num
  obtain ⟨k, hk⟩ := hh.multiple (e := 4) (by rw [h4]; exact h16)
  -- The last multiple at or above the lower one.
  obtain ⟨j, hj, hjk⟩ : ∃ j : ℤ, low ≤ j * 2 ^ (-19 : ℤ) ∧ (j : ℚ) * 2 ^ (-19 : ℤ) < k * 2 ^ (-19 : ℤ) := by
    by_cases hlow : 16 < low
    · obtain ⟨j, hj⟩ := hl.multiple (e := 4) (by rw [h4]; exact hlow)
      exact ⟨j, hj.le, by rw [← show (4 : ℤ) - 23 = -19 by norm_num, ← hj, ← hk]; exact hlt⟩
    · refine ⟨2 ^ 23, (not_lt.mp hlow).trans (by norm_num), ?_⟩
      have h16' : (((2 : ℤ) ^ 23 : ℤ) : ℚ) * 2 ^ (-19 : ℤ) = 16 := by norm_num
      rw [h16', ← show (4 : ℤ) - 23 = -19 by norm_num, ← hk]
      exact h16
  have hint : j + 1 ≤ k := by
    have := lt_of_mul_lt_mul_right hjk hpos.le
    exact_mod_cast this
  have hcast : ((j : ℚ) + 1) * 2 ^ (-19 : ℤ) ≤ k * 2 ^ (-19 : ℤ) :=
    mul_le_mul_of_nonneg_right (by exact_mod_cast hint) hpos.le
  have hk' : high = k * 2 ^ (-19 : ℤ) := hk
  rw [add_mul, one_mul] at hcast
  rw [hk']
  exact le_sub_iff_add_le.mpr (by rw [add_comm]; exact (add_le_add_left hj _).trans hcast)

/-- Without room at 16 the bisection never ends. -/
theorem bisect_none {low high : ℚ} {best : GPULayersList}
    (h : Bracket fit maxNumGPU low high best)
    (hshort : ∀ c, c ≤ 16 → (fit c).sum ≠ maxNumGPU) (fuel : Nat) :
    bisect fit maxNumGPU fuel low high best = none := by
  induction fuel generalizing low high best with
  | zero => rfl
  | succ fuel ih =>
    have h16 : 16 < high := not_le.mp fun hle => hshort high hle h.high_enough
    have hgap := gap_above h.low_float h.high_float h.lt h16
    unfold bisect
    simp only
    rw [if_pos (apart_of_le hgap)]
    obtain ⟨hm1, hm2⟩ := middle_mem h.low_nonneg h.lt.le h.high_float
    split
    · rename_i hmid
      refine ih ⟨h.low_nonneg, ?_, h.low_float, isFloat32_middle .., rfl, hmid, h.low_short⟩
      by_cases hlow : low < 16
      · exact (middle_between h.low_nonneg isFloat32_sixteen hlow h16).1
      · refine lt_of_le_of_ne hm1 fun he => ?_
        rcases h.low_short with hzero | hno
        · exact hlow (hzero ▸ by norm_num)
        · exact hno (he ▸ hmid)
    · rename_i hmid
      refine ih ⟨h.low_nonneg.trans hm1, ?_, isFloat32_middle .., h.high_float, h.best, h.high_enough, Or.inr hmid⟩
      exact lt_of_le_of_ne hm2 fun he => hmid (he.symm ▸ h.high_enough)

/-- Multiples of a distance that no capacity of a bisection goes below. -/
def OnGrid (x : ℚ) : Prop := ∃ k : ℤ, x = k * 2 ^ (-45 : ℤ)

theorem OnGrid.gap {x y : ℚ} (hx : OnGrid x) (hy : OnGrid y) (h : x < y) : x + 2 ^ (-45 : ℤ) ≤ y := by
  obtain ⟨j, rfl⟩ := hx
  obtain ⟨k, rfl⟩ := hy
  have hpos : (0 : ℚ) < 2 ^ (-45 : ℤ) := by norm_num
  have hint : j + 1 ≤ k := by exact_mod_cast lt_of_mul_lt_mul_right h hpos.le
  have hcast : ((j : ℚ) + 1) * 2 ^ (-45 : ℤ) ≤ k * 2 ^ (-45 : ℤ) :=
    mul_le_mul_of_nonneg_right (by exact_mod_cast hint) hpos.le
  rwa [add_mul, one_mul] at hcast

/-- Below 16 there is a capacity between any two that are too far apart. -/
theorem exists_between {low high : ℚ} (h0 : 0 ≤ low) (hgap : 2 ^ (-20 : ℤ) < high - low) (h16 : high ≤ 16) :
    ∃ y, IsFloat32 y ∧ low < y ∧ y < high := by
  have hpos : (0 : ℚ) < 2 ^ (-20 : ℤ) := by norm_num
  have hunit : (2 : ℚ) ^ (-20 : ℤ) * 2 ^ 20 = 1 := by norm_num
  generalize (2 : ℚ) ^ (-20 : ℤ) = u at hgap hpos hunit
  -- The last multiple of the distance below the higher end.
  obtain ⟨k, hk⟩ : ∃ k, k = ⌈high * 2 ^ 20⌉ - 1 := ⟨_, rfl⟩
  have hhigh : high * 2 ^ 20 * u = high := by rw [mul_assoc, mul_comm _ u, hunit, mul_one]
  have hlt : (k : ℚ) < high * 2 ^ 20 := by
    rw [hk]
    exact Int.lt_ceil.mp (by omega)
  have hle : high * 2 ^ 20 ≤ (k : ℚ) + 1 := by
    rw [hk]
    push_cast
    linarith [Int.le_ceil (high * 2 ^ 20)]
  have hlt' := mul_lt_mul_of_pos_right hlt hpos
  have hle' := mul_le_mul_of_nonneg_right hle hpos.le
  rw [hhigh] at hlt' hle'
  rw [add_mul, one_mul] at hle'
  have hnonneg : 0 ≤ k := by
    have hku : 0 < (k : ℚ) * u := by linarith
    have hk0 := (mul_pos_iff_of_pos_right hpos).mp hku
    exact_mod_cast hk0.le
  have hbound : k < 2 ^ 24 := by
    have hk24 : (k : ℚ) < 2 ^ 24 := lt_of_lt_of_le hlt (by linarith)
    exact_mod_cast hk24
  refine ⟨k * u, ⟨k.toNat, -20, by omega, ?_⟩, by linarith, hlt'⟩
  rw [← Int.cast_natCast, Int.toNat_of_nonneg hnonneg]
  congr 1
  exact mul_right_cancel₀ (show (2 : ℚ) ^ 20 ≠ 0 by norm_num) (hunit.trans (by norm_num : (1 : ℚ) = 2 ^ (-20 : ℤ) * 2 ^ 20))

/-- With room at 16, or without a capacity above it, the bisection ends. -/
theorem bisect_ends {top : ℚ} (n : ℕ) {low high : ℚ} {best : GPULayersList} (h : Bracket fit maxNumGPU low high best)
    (htop : high ≤ top) (hroom : high ≤ 16 ∨ ∀ c, 16 ≤ c → c ≤ top → (fit c).sum = maxNumGPU)
    (hl : OnGrid low) (hh : OnGrid high) (hn : high - low ≤ n * 2 ^ (-45 : ℤ)) :
    ∃ fuel out, bisect fit maxNumGPU fuel low high best = some out := by
  induction n generalizing low high best with
  | zero =>
    rw [Nat.cast_zero, zero_mul] at hn
    exact absurd h.lt (not_lt.mpr (sub_nonpos.mp hn))
  | succ n ih =>
    by_cases hapart : float32 (1 / 1000000) < float32 (high - low)
    · have hgap := lt_of_apart (sub_nonneg.mpr h.lt.le) hapart
      have hbetween : ∃ y, IsFloat32 y ∧ low < y ∧ y < high := by
        rcases le_or_gt high 16 with h16 | h16
        · exact exists_between h.low_nonneg hgap h16
        · refine ⟨16, isFloat32_sixteen, ?_, h16⟩
          have hall := hroom.resolve_left (not_le.mpr h16)
          by_contra hge
          rcases h.low_short with hzero | hno
          · rw [hzero] at hge
            exact hge (by norm_num)
          · exact hno (hall low (not_lt.mp hge) (h.lt.le.trans htop))
      obtain ⟨y, hy, hy1, hy2⟩ := hbetween
      obtain ⟨hm1, hm2⟩ := middle_between h.low_nonneg hy hy1 hy2
      have hgrid : OnGrid (middle low high) := by
        have hge : 2 ^ (-21 : ℤ) ≤ middle low high := by
          refine le_middle h.low_nonneg (h.low_nonneg.trans h.lt.le) ⟨1, -21, by norm_num, by norm_num⟩ ?_
          have hlow := h.low_nonneg
          have hhalf : ∀ u : ℚ, 2 * u < high - low → u ≤ (low + high) / 2 := fun u hu => by linarith
          exact hhalf _ (by rwa [← show (2 : ℚ) ^ (-20 : ℤ) = 2 * 2 ^ (-21 : ℤ) by norm_num])
        exact (isFloat32_middle low high).multiple (e := -22) (lt_of_lt_of_le (by norm_num) hge)
      have hless1 := hgrid.gap hh hm2
      have hless2 := hl.gap hgrid hm1
      rw [Nat.cast_succ, add_mul, one_mul] at hn
      by_cases hmid : (fit (middle low high)).sum = maxNumGPU
      · obtain ⟨fuel, out, hout⟩ := ih ⟨h.low_nonneg, hm1, h.low_float, isFloat32_middle .., rfl, hmid, h.low_short⟩
          (hm2.le.trans htop) (hroom.imp_left hm2.le.trans) hl hgrid (by linarith)
        exact ⟨fuel + 1, out, by rw [bisect, if_pos hapart]; simp only; rw [if_pos hmid, hout]⟩
      · obtain ⟨fuel, out, hout⟩ := ih ⟨h.low_nonneg.trans hm1.le, hm2, isFloat32_middle .., h.high_float, h.best,
          h.high_enough, Or.inr hmid⟩ htop hroom hgrid hh (by linarith)
        exact ⟨fuel + 1, out, by rw [bisect, if_pos hapart]; simp only; rw [if_neg hmid, hout]⟩
    · exact ⟨1, best, by rw [bisect, if_neg hapart]⟩

end

/-! ## One class of GPUs -/

section
variable (layers : List Nat) {gl : List DeviceInfo} (requestedLayers : Int) (forceRequest : Bool)

/-- As many layers fit at 16 times the free memory as at 1000 times. -/
def RoomAtSixteen (gl : List DeviceInfo) : Prop :=
  (greedyFit layers gl 16 requestedLayers).sum = (greedyFit layers gl 1000 requestedLayers).sum

instance (gl : List DeviceInfo) : Decidable (RoomAtSixteen layers requestedLayers gl) := by
  unfold RoomAtSixteen; infer_instance

theorem highest_cases : (0 ≤ requestedLayers ∧ forceRequest = true ∧ highest requestedLayers forceRequest = 1000) ∨
    (¬ (0 ≤ requestedLayers ∧ forceRequest = true) ∧ highest requestedLayers forceRequest = 1) := by
  by_cases h : 0 ≤ requestedLayers ∧ forceRequest = true
  · exact Or.inl ⟨h.1, h.2, if_pos h⟩
  · exact Or.inr ⟨h, if_neg h⟩

theorem isFloat32_highest : IsFloat32 (highest requestedLayers forceRequest) := by
  rcases highest_cases requestedLayers forceRequest with ⟨-, -, h⟩ | ⟨-, h⟩
  · rw [h]
    exact ⟨1000, 0, by norm_num, by norm_num⟩
  · rw [h]
    exact ⟨1, 0, by norm_num, by norm_num⟩

theorem highest_pos : 0 < highest requestedLayers forceRequest := by
  rcases highest_cases requestedLayers forceRequest with ⟨-, -, h⟩ | ⟨-, h⟩ <;> rw [h] <;> norm_num

variable {layers requestedLayers forceRequest}

/-- The result is as good as at the highest capacity. -/
theorem bestFit_some {fuel : Nat} {out : GPULayersList}
    (h : bestFit fuel layers gl requestedLayers forceRequest = some out) :
    ∃ c, c ≤ highest requestedLayers forceRequest ∧ out = greedyFit layers gl c requestedLayers ∧
      out.sum = (greedyFit layers gl (highest requestedLayers forceRequest) requestedLayers).sum :=
  bisect_some le_rfl (highest_pos ..).le (isFloat32_highest ..) rfl rfl h

/-- From the highest capacity the bisection ends, unless it may go up to 1000 and only a capacity above 16 is enough. -/
theorem bisect_highest {fit : ℚ → GPULayersList} (hmono : ∀ {c d : ℚ}, c ≤ d → (fit c).sum ≤ (fit d).sum) (requestedLayers : Int)
    (forceRequest : Bool) :
    (∃ fuel out, bisect fit (fit (highest requestedLayers forceRequest)).sum fuel 0 (highest requestedLayers forceRequest)
        (fit (highest requestedLayers forceRequest)) = some out) ↔
      (0 ≤ requestedLayers ∧ forceRequest = true → (fit 16).sum = (fit 1000).sum) := by
  have hstart : Bracket fit (fit (highest requestedLayers forceRequest)).sum 0 (highest requestedLayers forceRequest)
      (fit (highest requestedLayers forceRequest)) :=
    ⟨le_rfl, highest_pos .., isFloat32_zero, isFloat32_highest .., rfl, rfl, Or.inl rfl⟩
  have hgrid : ∀ k : ℤ, OnGrid k := fun k => ⟨k * 2 ^ 45, by push_cast; rw [mul_assoc]; norm_num⟩
  have hzero : OnGrid 0 := by exact_mod_cast hgrid 0
  rcases highest_cases requestedLayers forceRequest with ⟨h0, hforce, htop⟩ | ⟨hfree, htop⟩
  · rw [htop] at hstart ⊢
    constructor
    · rintro ⟨fuel, out, hout⟩ -
      by_contra hshort
      have hnone := bisect_none hstart (fun c hc he => hshort (le_antisymm (hmono (by norm_num))
        (he.symm.trans_le (hmono hc)))) fuel
      rw [hnone] at hout
      cases hout
    · intro hroom
      have hroom := hroom ⟨h0, hforce⟩
      refine bisect_ends (1000 * 2 ^ 45) hstart le_rfl (Or.inr fun c h16 hc => ?_) hzero
        (by exact_mod_cast hgrid 1000) (by norm_num)
      exact le_antisymm (hmono hc) (hroom ▸ hmono h16)
  · rw [htop] at hstart ⊢
    refine ⟨fun _ h => absurd h hfree, fun _ => ?_⟩
    exact bisect_ends (2 ^ 45) hstart le_rfl (Or.inl (by norm_num)) hzero (by exact_mod_cast hgrid 1)
      (by norm_num)

theorem bestFit_ends (hne : gl ≠ []) :
    (∃ fuel out, bestFit fuel layers gl requestedLayers forceRequest = some out) ↔
      (0 ≤ requestedLayers ∧ forceRequest = true → RoomAtSixteen layers requestedLayers gl) :=
  bisect_highest (fun h => greedyFit_mono layers hne h requestedLayers) requestedLayers forceRequest

theorem bestFit_more {fuel fuel' : Nat} (hle : fuel ≤ fuel') {out : GPULayersList}
    (h : bestFit fuel layers gl requestedLayers forceRequest = some out) :
    bestFit fuel' layers gl requestedLayers forceRequest = some out := bisect_more hle h

end

end Xdragon.Llm
