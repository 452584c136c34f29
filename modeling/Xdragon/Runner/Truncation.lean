import Mathlib.Data.Nat.Find
import Mathlib.Order.Bounds.Basic
import Xdragon.Runner.Discard
import Xdragon.Runner.Pipeline

/-!
# A prompt that is too long

`NewSequence` keeps the first inputs of such a prompt and starts again at the first cut after which the rest fits and
that splits no group. The prompt is refused if a group starts within the inputs that are kept, or nothing is left.
-/

namespace Xdragon.Runner.Pipeline

/-- Where the rest of a prompt can start. -/
def cuts (l : List Input) (start : Int) : Set Nat := {p | start ≤ p ∧ ¬ Inside l p}

theorem length_mem_cuts {l : List Input} {start : Int} (h : start ≤ l.length) : l.length ∈ cuts l start :=
  ⟨h, fun hin => Nat.lt_irrefl _ hin.1⟩

theorem exists_isLeast_cuts {l : List Input} {start : Int} (h : start ≤ l.length) : ∃ p, IsLeast (cuts l start) p := by
  have hex : ∃ p : Nat, start ≤ p ∧ ¬ Inside l p := ⟨l.length, length_mem_cuts h⟩
  exact ⟨Nat.find hex, Nat.find_spec hex, fun _ hp => Nat.find_min' hex hp⟩

/-- A cut inside a group moves on. -/
theorem isLeast_cuts_succ {l : List Input} {i p : Nat} (hin : Inside l i) (h : IsLeast (cuts l (i + 1 : Nat)) p) :
    IsLeast (cuts l i) p := by
  have hp := h.1.1
  refine ⟨⟨by omega, h.1.2⟩, fun q hq => h.2 ⟨?_, hq.2⟩⟩
  have hne : i ≠ q := by
    rintro rfl
    exact hq.2 hin
  have := hq.1
  omega

/-- A group starts before the `n`th input and before the `p`th one. -/
def StartsBefore (l : List Input) (n : Int) (p : Nat) : Prop :=
  ∃ (j : Nat) (x : Input), l[j]? = some x ∧ (j : Int) < n ∧ j < p ∧ x.sameBatch ≠ 0

/-- The scan ends at the first cut, or at a group within the inputs that are kept. -/
theorem moveStart_cases (numKeep : Int) {l rest : List Input} (hl : Apart l) {i r start : Nat}
    (hrest : rest = l.drop i) (h : i < l.length → Left l i r) (hi : i ≤ start) (hle : start ≤ l.length) :
    (∃ p : Nat, moveStart numKeep rest i r start = .ok (p : Int) ∧ IsLeast (cuts l start) p ∧
      ∀ (j : Nat) x, l[j]? = some x → i ≤ j → j < p → x.sameBatch ≠ 0 → numKeep ≤ j) ∨
    ∃ err, moveStart numKeep rest i r start = .error err ∧
      ∃ (j : Nat) (x : Input), l[j]? = some x ∧ (j : Int) < numKeep ∧ x.sameBatch ≠ 0 := by
  induction rest generalizing i r start with
  | nil =>
    have hend := List.drop_eq_nil_iff.mp hrest.symm
    obtain rfl : start = l.length := Nat.le_antisymm hle (Nat.le_trans hend hi)
    refine .inl ⟨_, rfl, ⟨length_mem_cuts (Int.le_refl _), fun q hq => Int.ofNat_le.mp hq.1⟩, fun j x hx hij => ?_⟩
    have := (List.getElem?_eq_some_iff.mp hx).1
    omega
  | cons x rest ih =>
    have hx : l[i]? = some x := by
      rw [← List.head?_drop, ← hrest]
      rfl
    have hdrop : rest = l.drop (i + 1) := by
      rw [← List.tail_drop, ← hrest]
      rfl
    have hlen := (List.getElem?_eq_some_iff.mp hx).1
    have hin := (h hlen).inside hlen
    have hnext := (h hlen).next hl hx
    unfold moveStart
    split
    · rename_i hstop
      obtain ⟨rfl, heq⟩ := hstop
      obtain rfl : start = i := Int.ofNat.inj heq
      refine .inl ⟨start, rfl, ⟨⟨Int.le_refl _, fun hno => hin.mp hno rfl⟩, fun q hq => Int.ofNat_le.mp hq.1⟩, ?_⟩
      intro j y _ hij hjp
      omega
    · rename_i hgo
      -- the cut as it goes on, and that no other one is passed
      obtain ⟨start', hstart, hi', hle', hleast⟩ : ∃ start' : Nat,
          (if (start : Int) = i then (start : Int) + 1 else start) = start' ∧ i + 1 ≤ start' ∧ start' ≤ l.length ∧
            ∀ p, IsLeast (cuts l start') p → IsLeast (cuts l start) p := by
        by_cases heq : start = i
        · subst heq
          have hr : r ≠ 0 := fun h0 => hgo ⟨h0, rfl⟩
          exact ⟨start + 1, by simp, Nat.le_refl _, hlen, fun p hp => isLeast_cuts_succ (hin.mpr hr) hp⟩
        · exact ⟨start, if_neg (by omega), by omega, hle, fun p hp => hp⟩
      simp only [hstart]
      split
      · rename_i hgroup
        split
        · rename_i hkeep
          exact .inr ⟨_, rfl, i, x, hx, hkeep, hgroup⟩
        · rename_i hkeep
          rw [if_pos (by omega)] at hnext
          rcases ih hdrop (fun _ => hnext) hi' hle' with ⟨p, hp, hcut, hfirst⟩ | herr
          · refine .inl ⟨p, hp, hleast p hcut, fun j y hy hij hjp hy0 => ?_⟩
            rcases Nat.eq_or_lt_of_le hij with rfl | hlt
            · omega
            · exact hfirst j y hy hlt hjp hy0
          · exact .inr herr
      · rename_i hplain
        rw [if_neg (by omega)] at hnext
        rcases ih hdrop (fun _ => hnext) hi' hle' with ⟨p, hp, hcut, hfirst⟩ | herr
        · refine .inl ⟨p, hp, hleast p hcut, fun j y hy hij hjp hy0 => ?_⟩
          rcases Nat.eq_or_lt_of_le hij with rfl | hlt
          · obtain rfl := Option.some.inj (hx.symm.trans hy)
            exact absurd hy0 hplain
          · exact hfirst j y hy hlt hjp hy0
        · exact .inr herr

/-- The prompt of a new sequence, if the inputs start again with the `p`th one. -/
structure Truncated (numCtx : Int) (inputs : List Input) (numKeep : Int) (p : Nat) (prompt : List Input) : Prop where
  eq : prompt = inputs.take numKeep.toNat ++ inputs.drop p
  pos : 1 ≤ prompt.length
  le : prompt.length ≤ numCtx

theorem truncateInputs_spec {numCtx : Int} {inputs : List Input} {numKeep : Int} (h0 : 0 ≤ numKeep)
    (hkeep : numKeep < numCtx) (hlong : numCtx < inputs.length) (hl : Apart inputs) {p : Nat}
    (hp : IsLeast (cuts inputs (numKeep + (inputs.length - numCtx))) p) :
    ((StartsBefore inputs numKeep p ∨ p = inputs.length) ∧
      ∃ err, truncateInputs numCtx inputs numKeep true = some (.error err)) ∨
    ¬ (StartsBefore inputs numKeep p ∨ p = inputs.length) ∧
      ∃ prompt, truncateInputs numCtx inputs numKeep true = some (.ok prompt) ∧
        Truncated numCtx inputs numKeep p prompt := by
  have hstart : ((numKeep + (inputs.length - numCtx)).toNat : Int) = numKeep + (inputs.length - numCtx) :=
    Int.toNat_of_nonneg (by omega)
  have hle : (numKeep + (inputs.length - numCtx)).toNat ≤ inputs.length := by omega
  have hpos := hp.1.1
  have hend : p ≤ inputs.length := hp.2 (length_mem_cuts (by omega))
  have hrun := @moveStart_cases numKeep _ _ hl 0 0 _ List.drop_zero.symm
    (fun hi => left_zero hi fun hin => by obtain ⟨-, j, x, -, hj, -⟩ := hin; omega) (Nat.zero_le _) hle
  rw [hstart] at hrun
  unfold truncateInputs
  rw [if_neg (by omega), if_neg (by simp)]
  dsimp only
  rcases hrun with ⟨q, hq, hcut, hfirst⟩ | ⟨err, herr, j, x, hx, hj, hx0⟩
  · obtain rfl := hcut.unique hp
    have hno : ¬ StartsBefore inputs numKeep q := by
      rintro ⟨j, x, hx, hj, hjq, hx0⟩
      have := hfirst j x hx (Nat.zero_le _) hjq hx0
      omega
    rw [hq]
    dsimp only
    by_cases hall : q = inputs.length
    · exact .inl ⟨.inr hall, _, if_pos (by omega)⟩
    · refine .inr ⟨by rw [not_or]; exact ⟨hno, hall⟩, inputs.take numKeep.toNat ++ inputs.drop q, ?_, rfl, ?_, ?_⟩
      · rw [if_neg (by omega), if_neg (by omega), Int.toNat_natCast]
      · rw [List.length_append, List.length_drop]
        omega
      · rw [List.length_append, List.length_take, List.length_drop]
        omega
  · rw [herr]
    exact .inl ⟨.inl ⟨j, x, hx, hj, by omega, hx0⟩, err, rfl⟩

/-- A prompt that is too long is refused if and only if a group starts within the inputs that are kept, or the first
cut is the end. Else it is what is kept and what comes from the first cut on. -/
theorem newSequence_truncated {numCtx : Int} {inputs : List Input} {params : NewSequenceParams} (hctx : 1 ≤ numCtx)
    (hlong : numCtx < inputs.length) (hl : Apart inputs) (htruncate : params.truncate = true) :
    ∃ p res, IsLeast (cuts inputs (keepOf numCtx inputs params.numKeep + (inputs.length - numCtx))) p ∧
      newSequence numCtx inputs params = some res ∧
      ((∃ err, res = .error err) ↔
        StartsBefore inputs (keepOf numCtx inputs params.numKeep) p ∨ p = inputs.length) ∧
      ∀ prompt numKeep, res = .ok (prompt, numKeep) →
        numKeep = keepOf numCtx inputs params.numKeep ∧ Truncated numCtx inputs numKeep p prompt := by
  have hkeep : 0 ≤ keepOf numCtx inputs params.numKeep ∧ keepOf numCtx inputs params.numKeep < numCtx := by
    unfold keepOf
    split <;> omega
  obtain ⟨p, hp⟩ := @exists_isLeast_cuts inputs
    (keepOf numCtx inputs params.numKeep + (inputs.length - numCtx)) (by omega)
  have hne : inputs ≠ [] := by
    rintro rfl
    rw [List.length_nil] at hlong
    omega
  have hspec := truncateInputs_spec hkeep.1 hkeep.2 hlong hl hp
  unfold newSequence
  rw [if_neg hne, htruncate]
  dsimp only
  rcases hspec with ⟨hcond, err, herr⟩ | ⟨hcond, prompt, hok, htrunc⟩
  · exact ⟨p, .error err, hp, by rw [herr]; rfl, iff_of_true ⟨err, rfl⟩ hcond, nofun⟩
  · refine ⟨p, .ok (prompt, _), hp, by rw [hok]; rfl, iff_of_false ?_ hcond, ?_⟩
    · rintro ⟨err, ⟨⟩⟩
    · rintro prompt' numKeep' ⟨⟩
      exact ⟨rfl, htrunc⟩

/-- A prompt with an image of three inputs. The first cut goes through the image. -/
def longPrompt : List Input :=
  [⟨1, 0, 0⟩, ⟨2, 0, 0⟩, ⟨3, 0, 0⟩, ⟨4, 0, 0⟩, ⟨5, 1, 2⟩, ⟨0, 0, 0⟩, ⟨0, 0, 0⟩, ⟨6, 0, 0⟩]

/-- The image goes as a whole. -/
theorem longPrompt_truncated : ∃ p, IsLeast (cuts longPrompt (1 + (8 - 4))) p ∧
    Truncated 4 longPrompt 1 p [⟨1, 0, 0⟩, ⟨6, 0, 0⟩] := by
  have hrun : newSequence 4 longPrompt { numKeep := 1, truncate := true } =
      some (.ok ([⟨1, 0, 0⟩, ⟨6, 0, 0⟩], 1)) := by rfl
  obtain ⟨p, res, hp, hres, -, hok⟩ := @newSequence_truncated 4 longPrompt
    { numKeep := 1, truncate := true } (by decide) (by decide) (by decide) rfl
  obtain rfl := Option.some.inj (hres.symm.trans hrun)
  exact ⟨p, hp, (hok _ _ rfl).2⟩

end Xdragon.Runner.Pipeline
