import Mathlib.Data.List.Infix

/-!
# The cache of a layer

`x/mlxrunner/cache/cache.go`. Of an array only the axis of the sequence is left: a list of rows.
A nil pointer is `none`, and `none` as a result is a panic.
-/

namespace Xdragon.Mlx

section
variable {ρ : Type*}

/-- `Slice(start, stop)`. A `stop` of 0 is the end of the axis. -/
def slice (rows : List ρ) (start stop : Nat) : List ρ :=
  (rows.take (if stop = 0 then rows.length else stop)).drop start

def sliceUpdate (rows other : List ρ) (start stop : Nat) : List ρ :=
  rows.take start ++ other ++ rows.drop (if stop = 0 then rows.length else stop)

/-- The new rows of `Update`, when the buffer has to grow: whole steps that hold `L` rows. -/
def newRows (zero : ρ) (step L : Nat) : List ρ := List.replicate ((step + L - 1) / step * step) zero

/-- A buffer after it grew. What lies after `prev` is cut off, unless `prev` ends a step. -/
def grown (zero : ρ) (step prev L : Nat) : Option (List ρ) → List ρ
  | none => newRows zero step L
  | some rows => (if prev % step ≠ 0 then slice rows 0 prev else rows) ++ newRows zero step L

end

structure KVCache (κ ν : Type*) where
  keys : Option (List κ) := none
  values : Option (List ν) := none
  offset : Nat := 0
  step : Nat

namespace KVCache

variable {κ ν : Type*}

def newKVCache : KVCache κ ν := { step := 256 }

/-- The buffer of keys is missing or too short for `L` more rows. -/
def needsGrowth (c : KVCache κ ν) (L : Nat) : Bool :=
  match c.keys with
  | none => true
  | some rows => rows.length < c.offset + L

/-- `Update`, with the cache and the arrays that it returns. `zeroKey` and `zeroValue` fill new rows. -/
def update (zeroKey : κ) (zeroValue : ν) (c : KVCache κ ν) (keys : List κ) (values : List ν) :
    KVCache κ ν × List κ × List ν :=
  let L := keys.length
  let prev := c.offset
  let offset := c.offset + L
  let bufferedKeys := if c.needsGrowth L then grown zeroKey c.step prev L c.keys else c.keys.getD []
  let bufferedValues := if c.needsGrowth L then grown zeroValue c.step prev L c.values else c.values.getD []
  let newKeys := sliceUpdate bufferedKeys keys prev offset
  let newValues := sliceUpdate bufferedValues values prev offset
  ({ c with keys := some newKeys, values := some newValues, offset := offset },
    slice newKeys 0 offset, slice newValues 0 offset)

def state (c : KVCache κ ν) : Option (List κ × List ν) :=
  match c.keys, c.values with
  | some keys, some values =>
    if c.offset = keys.length then some (keys, values)
    else some (slice keys 0 c.offset, slice values 0 c.offset)
  | _, _ => none

/-- `Trim`, with the number of rows that it dropped. -/
def trim (c : KVCache κ ν) (n : Nat) : KVCache κ ν × Nat :=
  let n := min c.offset n
  ({ c with offset := c.offset - n }, n)

/-! ## What a cache holds -/

/-- The first `offset` rows of the buffers are these, and the buffers have one length. -/
structure Holds (c : KVCache κ ν) (keys : List κ) (values : List ν) : Prop where
  step_pos : 0 < c.step
  keys_length : keys.length = c.offset
  values_length : values.length = c.offset
  keys_prefix : keys <+: c.keys.getD []
  values_prefix : values <+: c.values.getD []
  same : (c.keys.getD []).length = (c.values.getD []).length
  both : c.keys.isSome = c.values.isSome

theorem holds_new : Holds (newKVCache : KVCache κ ν) [] [] := by
  constructor <;> simp [newKVCache]

section
variable {ρ : Type*}

theorem slice_take {rows kept : List ρ} (h : kept <+: rows) (hne : kept ≠ []) :
    slice rows 0 kept.length = kept := by
  unfold slice
  rw [if_neg (by simpa using hne), List.drop_zero]
  exact (List.prefix_iff_eq_take.mp h).symm

/-- New rows have room for what they were made for. -/
theorem le_newRows (zero : ρ) {step : Nat} (hstep : 0 < step) (L : Nat) : L ≤ (newRows zero step L).length := by
  rw [newRows, List.length_replicate]
  have hdiv := Nat.div_add_mod (step + L - 1) step
  have hmod := Nat.mod_lt (step + L - 1) hstep
  rw [Nat.mul_comm] at hdiv
  omega

/-- Growth keeps the rows that are in use. -/
theorem grown_spec (zero : ρ) {step : Nat} (hstep : 0 < step) (L : Nat) {rows : Option (List ρ)} {kept : List ρ}
    (h : kept <+: rows.getD []) :
    kept <+: grown zero step kept.length L rows ∧ kept.length + L ≤ (grown zero step kept.length L rows).length := by
  have hroom := le_newRows zero hstep L
  cases rows with
  | none =>
    rw [Option.getD_none, List.prefix_nil] at h
    subst h
    exact ⟨List.nil_prefix, by simpa [grown] using hroom⟩
  | some rows =>
    rw [Option.getD_some] at h
    have hbase : kept <+: if kept.length % step ≠ 0 then slice rows 0 kept.length else rows := by
      split
      · rename_i hmod
        rw [slice_take h]
        rintro rfl
        exact hmod (Nat.zero_mod step)
      · exact h
    have := hbase.length_le
    exact ⟨hbase.trans (List.prefix_append ..), by rw [grown, List.length_append]; omega⟩

/-- The rows come after those in use, and nothing else in front of the offset changes. -/
theorem sliceUpdate_spec {rows kept other : List ρ} (h : kept <+: rows)
    (hroom : kept.length + other.length ≤ rows.length) :
    kept ++ other <+: sliceUpdate rows other kept.length (kept.length + other.length) ∧
      (kept.length + other.length ≠ 0 →
        (sliceUpdate rows other kept.length (kept.length + other.length)).length = rows.length) := by
  unfold sliceUpdate
  rw [← List.prefix_iff_eq_take.mp h]
  refine ⟨List.prefix_append .., fun hne => ?_⟩
  rw [if_neg hne, List.length_append, List.length_append, List.length_drop]
  omega

end

/-- Before the new rows are written, both buffers have room for them. -/
theorem Holds.buffered {c : KVCache κ ν} {keys : List κ} {values : List ν} (h : Holds c keys values)
    (zeroKey : κ) (zeroValue : ν) (L : Nat) {bufferedKeys : List κ} {bufferedValues : List ν}
    (hk : bufferedKeys = if c.needsGrowth L then grown zeroKey c.step c.offset L c.keys else c.keys.getD [])
    (hv : bufferedValues =
      if c.needsGrowth L then grown zeroValue c.step c.offset L c.values else c.values.getD []) :
    (keys <+: bufferedKeys ∧ keys.length + L ≤ bufferedKeys.length) ∧
      (values <+: bufferedValues ∧ values.length + L ≤ bufferedValues.length) ∧
      bufferedKeys.length = bufferedValues.length := by
  have hgk := grown_spec zeroKey h.step_pos L h.keys_prefix
  have hgv := grown_spec zeroValue h.step_pos L h.values_prefix
  rw [h.keys_length] at hgk ⊢
  rw [h.values_length] at hgv ⊢
  cases hgrow : c.needsGrowth L with
  | true =>
    simp only [hgrow, if_true] at hk hv
    subst hk hv
    refine ⟨hgk, hgv, ?_⟩
    have hsame := h.same
    have hboth := h.both
    have hleK := h.keys_prefix.length_le
    have hleV := h.values_prefix.length_le
    rw [h.keys_length] at hleK
    rw [h.values_length] at hleV
    cases hkeys : c.keys with
    | none =>
      cases hvalues : c.values with
      | none => simp [grown, newRows]
      | some values => simp [hkeys, hvalues] at hboth
    | some keys =>
      cases hvalues : c.values with
      | none => simp [hkeys, hvalues] at hboth
      | some values =>
        simp only [hkeys, hvalues, Option.getD_some] at hsame hleK hleV
        unfold grown newRows slice
        simp only [List.length_append, List.length_replicate]
        split
        · split <;> simp <;> omega
        · rw [hsame]
  | false =>
    simp only [hgrow, Bool.false_eq_true, if_false] at hk hv
    subst hk hv
    have hroom : c.offset + L ≤ (c.keys.getD []).length := by
      unfold needsGrowth at hgrow
      cases hkeys : c.keys with
      | none => simp [hkeys] at hgrow
      | some rows => simpa [hkeys] using hgrow
    exact ⟨⟨h.keys_prefix, hroom⟩, ⟨h.values_prefix, h.same ▸ hroom⟩, h.same⟩

/-- `Update` appends its rows. -/
theorem Holds.update {c : KVCache κ ν} {keys : List κ} {values : List ν} (h : Holds c keys values)
    (zeroKey : κ) (zeroValue : ν) (newKeys : List κ) (newValues : List ν)
    (hlen : newValues.length = newKeys.length) :
    Holds (c.update zeroKey zeroValue newKeys newValues).1 (keys ++ newKeys) (values ++ newValues) := by
  unfold KVCache.update
  simp only
  generalize hk : (if c.needsGrowth newKeys.length then grown zeroKey c.step c.offset newKeys.length c.keys
    else c.keys.getD []) = bufferedKeys
  generalize hv : (if c.needsGrowth newKeys.length then grown zeroValue c.step c.offset newKeys.length c.values
    else c.values.getD []) = bufferedValues
  obtain ⟨⟨hkp, hkr⟩, ⟨hvp, hvr⟩, hsame⟩ := h.buffered zeroKey zeroValue newKeys.length hk.symm hv.symm
  have hkeys := sliceUpdate_spec hkp hkr
  have hvalues := sliceUpdate_spec hvp (by rw [hlen]; exact hvr)
  rw [h.keys_length] at hkeys
  rw [h.values_length, hlen] at hvalues
  refine ⟨h.step_pos, ?_, ?_, hkeys.1, hvalues.1, ?_, rfl⟩
  · rw [List.length_append, h.keys_length]
  · rw [List.length_append, h.values_length, hlen]
  · simp only [Option.getD_some]
    by_cases hzero : c.offset + newKeys.length = 0
    · have hnone : newKeys = [] ∧ newValues = [] := by
        constructor <;> apply List.length_eq_zero_iff.mp <;> omega
      simp [sliceUpdate, hnone, show c.offset = 0 by omega]
    · rw [hkeys.2 hzero, hvalues.2 hzero, hsame]

/-- `State` shows exactly the rows that the cache holds. -/
theorem Holds.state {c : KVCache κ ν} {keys : List κ} {values : List ν} (h : Holds c keys values)
    (hne : keys ≠ []) : c.state = some (keys, values) := by
  have hvne : values ≠ [] := by
    rw [← List.length_pos_iff, h.values_length, ← h.keys_length]
    exact List.length_pos_iff.mpr hne
  have hkp := h.keys_prefix
  have hvp := h.values_prefix
  have hsame := h.same
  have hboth := h.both
  unfold KVCache.state
  cases hkeys : c.keys with
  | none =>
    rw [hkeys, Option.getD_none, List.prefix_nil] at hkp
    exact absurd hkp hne
  | some bufferedKeys =>
    cases hvalues : c.values with
    | none => simp [hkeys, hvalues] at hboth
    | some bufferedValues =>
      simp only [hkeys, hvalues, Option.getD_some] at hkp hvp hsame ⊢
      split
      · rename_i hfull
        have h1 := hkp.eq_of_length (h.keys_length.trans hfull)
        have h2 := hvp.eq_of_length (h.values_length.trans (hfull.trans hsame))
        rw [h1, h2]
      · have h1 := slice_take hkp hne
        have h2 := slice_take hvp hvne
        rw [h.keys_length] at h1
        rw [h.values_length] at h2
        rw [h1, h2]

/-- `Trim` drops rows at the end. -/
theorem Holds.trim {c : KVCache κ ν} {keys : List κ} {values : List ν} (h : Holds c keys values) (n : Nat) :
    Holds (c.trim n).1 (keys.take (keys.length - n)) (values.take (values.length - n)) := by
  have hk := h.keys_length
  have hv := h.values_length
  refine ⟨h.step_pos, ?_, ?_, (List.take_prefix ..).trans h.keys_prefix, (List.take_prefix ..).trans h.values_prefix,
    h.same, h.both⟩
  · rw [List.length_take]
    simp only [KVCache.trim]
    omega
  · rw [List.length_take]
    simp only [KVCache.trim]
    omega

end KVCache

end Xdragon.Mlx
