import Xdragon.Llm.Classes

/-!
# The rounds of an assignment

Without a forced request every round ends. A forced round ends if all GPUs have room at 16 times
their free memory for what they have room for at 1000 times.
-/

open Xdragon.Lib

namespace Xdragon.Llm

/-! ## When it returns -/

theorem findBestFitLoop_more {fuel fuel' : Nat} (hle : fuel ≤ fuel') {forceRequest : Bool}
    {classes : List (List DeviceInfo)} {layers : List Nat} {requestedLayers : Int} {gpuLayers out : GPULayersList}
    (h : findBestFitLoop fuel forceRequest classes layers requestedLayers gpuLayers = some out) :
    findBestFitLoop fuel' forceRequest classes layers requestedLayers gpuLayers = some out := by
  induction classes generalizing layers requestedLayers gpuLayers with
  | nil => exact h
  | cons gl rest ih =>
    simp only [findBestFitLoop, Option.bind_eq_some_iff] at h ⊢
    obtain ⟨part, hpart, hrest⟩ := h
    exact ⟨part, bestFit_more hle hpart, ih hrest⟩

/-- Without a forced request every class is done after some steps. -/
theorem findBestFitLoop_ends {forceRequest : Bool} {classes : List (List DeviceInfo)} (hne : ∀ gl ∈ classes, gl ≠ [])
    {layers : List Nat} {requestedLayers : Int} (hfree : ¬ (0 ≤ requestedLayers ∧ forceRequest = true))
    (gpuLayers : GPULayersList) :
    ∃ fuel out, findBestFitLoop fuel forceRequest classes layers requestedLayers gpuLayers = some out := by
  induction classes generalizing layers requestedLayers gpuLayers with
  | nil => exact ⟨0, gpuLayers, rfl⟩
  | cons gl rest ih =>
    have hgl := hne gl (List.mem_cons_self ..)
    obtain ⟨fuel, part, hpart⟩ : ∃ fuel part, bestFit fuel layers gl requestedLayers forceRequest = some part :=
      (bestFit_ends hgl).mpr fun h => absurd h hfree
    obtain ⟨c, -, hgreedy, -⟩ := bestFit_some hpart
    have hreq := (greedyFit_spec layers hgl c requestedLayers).requested
    rw [← hgreedy] at hreq
    obtain ⟨fuel', out, hout⟩ := @ih (fun gl hgl => hne gl (List.mem_cons_of_mem _ hgl))
      (layers.take (layers.length - part.sum)) (requestedLayers - part.sum)
      (by rwa [(highest_sub hreq forceRequest).1]) (part ++ gpuLayers)
    refine ⟨max fuel fuel', out, ?_⟩
    simp only [findBestFitLoop, Option.bind_eq_some_iff]
    exact ⟨part, bestFit_more (le_max_left ..) hpart, findBestFitLoop_more (le_max_right ..) hout⟩

theorem findBestFit_more {fuel fuel' : Nat} (hle : fuel ≤ fuel') {layers : List Nat} {gpus : List DeviceInfo}
    {requestedLayers : Int} {forceRequest : Bool} {out : GPULayersList}
    (h : findBestFit fuel layers gpus requestedLayers forceRequest = some out) :
    findBestFit fuel' layers gpus requestedLayers forceRequest = some out := findBestFitLoop_more hle h

section
variable {layers : List Nat} {gpus : List DeviceInfo} {requestedLayers : Int} {forceRequest : Bool}

theorem findBestFit_ends (hfree : ¬ (0 ≤ requestedLayers ∧ forceRequest = true)) :
    ∃ fuel out, findBestFit fuel layers gpus requestedLayers forceRequest = some out :=
  findBestFitLoop_ends (byPerformance_spec gpus).2 hfree []

variable (hne : gpus ≠ []) (hsame : ∀ gpu ∈ gpus, gpu.integrated = false)
include hne hsame

/-- On GPUs of one kind there is one bisection. -/
theorem findBestFit_same (fuel : Nat) :
    findBestFit fuel layers gpus requestedLayers forceRequest =
      bestFit fuel layers gpus requestedLayers forceRequest := by
  unfold findBestFit
  rw [byPerformance_same hne hsame]
  simp only [findBestFitLoop, List.append_nil]
  cases bestFit fuel layers gpus requestedLayers forceRequest <;> rfl

theorem findBestFit_same_ends :
    (∃ fuel out, findBestFit fuel layers gpus requestedLayers forceRequest = some out) ↔
      (0 ≤ requestedLayers ∧ forceRequest = true → RoomAtSixteen layers requestedLayers gpus) := by
  simp only [findBestFit_same hne hsame]
  exact bestFit_ends hne

theorem findBestFit_same_sum {fuel : Nat} {out : GPULayersList}
    (h : findBestFit fuel layers gpus requestedLayers forceRequest = some out) :
    out.sum = (greedyFit layers gpus (highest requestedLayers forceRequest) requestedLayers).sum := by
  rw [findBestFit_same hne hsame] at h
  obtain ⟨c, -, -, hsum⟩ := bestFit_some h
  exact hsum

end

/-! ## One round -/

/-- What a round leaves of a request: a run at the end of its layers. -/
structure Round (layers : List Nat) (gpus : List DeviceInfo) (requireFull : Bool) (requestedLayers : Int)
    (out : GPULayersList) : Prop where
  sum_le : out.sum ≤ layers.length
  indices : out.indices = List.range' (layers.length - out.sum) out.sum
  requested : 0 ≤ requestedLayers → out.sum ≤ requestedLayers
  onGPUs : ∃ space, OnGPUs layers gpus space out ∧
    (requestedLayers < 0 ∨ requireFull = true → ∀ gpu, space gpu ≤ gpu.freeMemory)

theorem findBestFit_round {fuel : Nat} {layers : List Nat} {gpus gpus' : List DeviceInfo} {requireFull : Bool}
    {requestedLayers : Int} {forceRequest : Bool} {out : GPULayersList} (hsub : gpus.Subperm gpus')
    (hforce : requireFull = true → forceRequest = false)
    (h : findBestFit fuel layers gpus requestedLayers forceRequest = some out) :
    Round layers gpus' requireFull requestedLayers out := by
  obtain ⟨parts, rfl, hplaced⟩ := findBestFit_placed h
  refine ⟨hplaced.sum_le, hplaced.indices, hplaced.requested,
    (freeSpace · (highest requestedLayers forceRequest)), ?_, ?_⟩
  · obtain ⟨used, hused, hfits⟩ := hplaced.onGPUs
    exact ⟨used, hused.trans ((byPerformance_spec gpus).1.subperm.trans hsub), hfits⟩
  · intro hlimit gpu
    refine freeSpace_le gpu (le_of_eq ?_)
    refine if_neg fun hf => ?_
    rcases hlimit with hneg | hfull
    · omega
    · rw [hforce hfull] at hf
      exact absurd hf.2 (by decide)

theorem packLoop_round {fuel : Nat} {layers : List Nat} {gpus : List DeviceInfo} {requireFull : Bool}
    {requestedLayers : Int} (left : Nat) {i : Nat} {gpuLayers out : GPULayersList}
    (hstart : 0 < left ∨ Round layers gpus requireFull requestedLayers gpuLayers)
    (h : packLoop fuel layers gpus requireFull requestedLayers left i gpuLayers = some out) :
    Round layers gpus requireFull requestedLayers out := by
  induction left generalizing i gpuLayers with
  | zero =>
    simp only [packLoop, Option.some.injEq] at h
    exact h ▸ hstart.resolve_left (Nat.lt_irrefl 0)
  | succ left ih =>
    simp only [packLoop, Option.bind_eq_some_iff] at h
    obtain ⟨next, hnext, h⟩ := h
    have hround : Round layers gpus requireFull requestedLayers next :=
      findBestFit_round (List.take_sublist (i + 1) gpus).subperm (by simp +contextual) hnext
    split at h
    · rw [Option.some.injEq] at h
      exact h ▸ hround
    · exact ih (Or.inr hround) h

theorem assignRound_round {fuel : Nat} {spread : Bool} {layers : List Nat} {gpus : List DeviceInfo}
    {requireFull : Bool} {requestedLayers : Int} {lastUsedGPU : Nat} {gpuLayers out : GPULayersList}
    (hlast : lastUsedGPU < gpus.length)
    (h : assignRound fuel spread layers gpus requireFull requestedLayers lastUsedGPU gpuLayers = some out) :
    Round layers gpus requireFull requestedLayers out := by
  unfold assignRound at h
  split at h
  · exact findBestFit_round (List.Subperm.refl _) (fun hfull => by rw [hfull]; rfl) h
  · exact packLoop_round _ (Or.inl (by omega)) h

theorem packLoop_more {fuel fuel' : Nat} (hle : fuel ≤ fuel') {layers : List Nat} {gpus : List DeviceInfo}
    {requireFull : Bool} {requestedLayers : Int} (left : Nat) {i : Nat} {gpuLayers out : GPULayersList}
    (h : packLoop fuel layers gpus requireFull requestedLayers left i gpuLayers = some out) :
    packLoop fuel' layers gpus requireFull requestedLayers left i gpuLayers = some out := by
  induction left generalizing i gpuLayers with
  | zero => exact h
  | succ left ih =>
    simp only [packLoop, Option.bind_eq_some_iff] at h ⊢
    obtain ⟨next, hnext, h⟩ := h
    refine ⟨next, findBestFit_more hle hnext, ?_⟩
    split at h
    · rename_i hdone
      rwa [if_pos hdone]
    · rename_i hdone
      rw [if_neg hdone]
      exact ih h

theorem assignRound_more {fuel fuel' : Nat} (hle : fuel ≤ fuel') {spread : Bool} {layers : List Nat}
    {gpus : List DeviceInfo} {requireFull : Bool} {requestedLayers : Int} {lastUsedGPU : Nat}
    {gpuLayers out : GPULayersList}
    (h : assignRound fuel spread layers gpus requireFull requestedLayers lastUsedGPU gpuLayers = some out) :
    assignRound fuel' spread layers gpus requireFull requestedLayers lastUsedGPU gpuLayers = some out := by
  unfold assignRound at h ⊢
  split at h
  · rename_i hspread
    rw [if_pos hspread]
    exact findBestFit_more hle h
  · rename_i hspread
    rw [if_neg hspread]
    exact packLoop_more hle _ h

section
variable {layers : List Nat} {gpus : List DeviceInfo} {requireFull : Bool} {requestedLayers : Int}

/-- Without a limit to lift, every round ends. -/
theorem packLoop_ends (hfree : requestedLayers < 0 ∨ requireFull = true) (left i : Nat) (gpuLayers : GPULayersList) :
    ∃ fuel out, packLoop fuel layers gpus requireFull requestedLayers left i gpuLayers = some out := by
  induction left generalizing i gpuLayers with
  | zero => exact ⟨0, gpuLayers, rfl⟩
  | succ left ih =>
    obtain ⟨fuel, next, hnext⟩ : ∃ fuel next, findBestFit fuel layers (gpus.take (i + 1)) requestedLayers
        (i + 1 = gpus.length && !requireFull) = some next := by
      apply findBestFit_ends
      rintro ⟨h0, hforce⟩
      rcases hfree with hneg | hfull
      · omega
      · simp [hfull] at hforce
    obtain ⟨fuel', out, hout⟩ := ih (i + 1) next
    by_cases hdone : next.sum = layers.length ∨ (next.sum : Int) = requestedLayers
    · refine ⟨fuel, next, ?_⟩
      simp only [packLoop, hnext, Option.bind_some, if_pos hdone]
    · refine ⟨max fuel fuel', out, ?_⟩
      simp only [packLoop, findBestFit_more (le_max_left fuel fuel') hnext, Option.bind_some, if_neg hdone]
      exact packLoop_more (le_max_right ..) _ hout

theorem assignRound_ends (hfree : requestedLayers < 0 ∨ requireFull = true) (spread : Bool) (lastUsedGPU : Nat)
    (gpuLayers : GPULayersList) :
    ∃ fuel out, assignRound fuel spread layers gpus requireFull requestedLayers lastUsedGPU gpuLayers = some out := by
  unfold assignRound
  split
  · apply findBestFit_ends
    rintro ⟨h0, hforce⟩
    rcases hfree with hneg | hfull
    · omega
    · simp [hfull] at hforce
  · exact packLoop_ends hfree ..

end

/-! ## A forced round -/

section
variable {layers : List Nat} {gpus : List DeviceInfo} {requestedLayers : Int} (hne : gpus ≠ [])
  (hsame : ∀ gpu ∈ gpus, gpu.integrated = false) (h0 : 0 ≤ requestedLayers)
include hne h0

/-- Nothing places more than the request, or than all layers. -/
theorem greedyFit_chain (n : Nat) (hn : 0 < n) :
    (greedyFit layers (gpus.take n) 1 requestedLayers).sum ≤ (greedyFit layers gpus 16 requestedLayers).sum ∧
      (greedyFit layers gpus 16 requestedLayers).sum ≤ (greedyFit layers gpus 1000 requestedLayers).sum ∧
      (greedyFit layers gpus 1000 requestedLayers).sum ≤ layers.length ∧
      ((greedyFit layers gpus 1000 requestedLayers).sum : Int) ≤ requestedLayers := by
  have htake : gpus.take n ≠ [] := by
    rw [Ne, List.take_eq_nil_iff]
    rintro (h | h)
    · omega
    · exact hne h
  have h1 : (greedyFit layers (gpus.take n) 1 requestedLayers).sum ≤
      (greedyFit layers (gpus.take n ++ gpus.drop n) 1 requestedLayers).sum := greedyFit_take layers htake 1 _
  rw [List.take_append_drop] at h1
  have h2 := greedyFit_mono layers hne (show (1 : ℚ) ≤ 16 by norm_num) requestedLayers
  have h3 := greedyFit_mono layers hne (show (16 : ℚ) ≤ 1000 by norm_num) requestedLayers
  have h4 := greedyFit_spec layers hne 1000 requestedLayers
  exact ⟨h1.trans h2, h3, h4.sum_le, h4.requested h0⟩

include hsame

/-- The loop only forces the request on all GPUs, and stops before if fewer are enough. -/
theorem packLoop_forced (left : Nat) {i : Nat} (hleft : i + (left + 1) = gpus.length) (gpuLayers : GPULayersList) :
    ((∃ fuel out, packLoop fuel layers gpus false requestedLayers (left + 1) i gpuLayers = some out) ↔
      RoomAtSixteen layers requestedLayers gpus) ∧
    ∀ fuel out, packLoop fuel layers gpus false requestedLayers (left + 1) i gpuLayers = some out →
      out.sum = (greedyFit layers gpus 1000 requestedLayers).sum := by
  induction left generalizing i gpuLayers with
  | zero =>
    have hall : gpus.take (i + 1) = gpus := List.take_of_length_le (by omega)
    have hlast : (decide (i + 1 = gpus.length) && !false) = true := by simp [hleft]
    have hdone : ∀ fuel, packLoop fuel layers gpus false requestedLayers 1 i gpuLayers =
        findBestFit fuel layers gpus requestedLayers true := by
      intro fuel
      simp only [packLoop, hall, hlast, ite_self]
      cases findBestFit fuel layers gpus requestedLayers true <;> rfl
    simp only [hdone]
    refine ⟨?_, fun fuel out hout => ?_⟩
    · rw [findBestFit_same_ends hne hsame]
      exact ⟨fun h => h ⟨h0, rfl⟩, fun h _ => h⟩
    · rw [findBestFit_same_sum hne hsame hout, highest, if_pos ⟨h0, rfl⟩]
  | succ left ih =>
    have hnot : (decide (i + 1 = gpus.length) && !false) = false := by simp; omega
    have htake : gpus.take (i + 1) ≠ [] := by
      rw [Ne, List.take_eq_nil_iff]
      rintro (h | h)
      · omega
      · exact hne h
    have hsame' : ∀ gpu ∈ gpus.take (i + 1), gpu.integrated = false :=
      fun gpu hg => hsame gpu (List.mem_of_mem_take hg)
    have hchain := @greedyFit_chain layers gpus requestedLayers hne h0 (i + 1) (by omega)
    -- The call on these GPUs is not forced.
    obtain ⟨fuel₀, next, hnext⟩ : ∃ fuel₀ next,
        findBestFit fuel₀ layers (gpus.take (i + 1)) requestedLayers false = some next :=
      findBestFit_ends (by simp)
    have hsum := findBestFit_same_sum htake hsame' hnext
    rw [highest, if_neg (by simp)] at hsum
    have hstep : ∀ {fuel}, fuel₀ ≤ fuel → packLoop fuel layers gpus false requestedLayers (left + 1 + 1) i gpuLayers =
        if next.sum = layers.length ∨ (next.sum : Int) = requestedLayers then some next
        else packLoop fuel layers gpus false requestedLayers (left + 1) (i + 1) next := by
      intro fuel hle
      conv => lhs; unfold packLoop
      simp only [hnot, findBestFit_more hle hnext, Option.bind_some]
    by_cases hdone : next.sum = layers.length ∨ (next.sum : Int) = requestedLayers
    · simp only [if_pos hdone] at hstep
      have hequal : next.sum = (greedyFit layers gpus 1000 requestedLayers).sum ∧
          RoomAtSixteen layers requestedLayers gpus := by
        unfold RoomAtSixteen
        omega
      refine ⟨⟨fun _ => hequal.2, fun _ => ⟨fuel₀, next, hstep le_rfl⟩⟩, fun fuel out hout => ?_⟩
      have hmore := packLoop_more (le_max_left fuel fuel₀) _ hout
      rw [hstep (le_max_right ..), Option.some.injEq] at hmore
      exact hmore ▸ hequal.1
    · simp only [if_neg hdone] at hstep
      obtain ⟨hiff, hsums⟩ := ih (i := i + 1) (by omega) next
      have hback : ∀ fuel out, packLoop fuel layers gpus false requestedLayers (left + 1 + 1) i gpuLayers = some out →
          packLoop (max fuel fuel₀) layers gpus false requestedLayers (left + 1) (i + 1) next = some out := by
        intro fuel out hout
        rw [← hstep (le_max_right ..)]
        exact packLoop_more (le_max_left ..) _ hout
      refine ⟨?_, fun fuel out hout => hsums _ out (hback fuel out hout)⟩
      rw [← hiff]
      constructor
      · rintro ⟨fuel, out, hout⟩
        exact ⟨_, out, hback fuel out hout⟩
      · rintro ⟨fuel, out, hout⟩
        exact ⟨max fuel fuel₀, out, by rw [hstep (le_max_right ..)]; exact packLoop_more (le_max_left ..) _ hout⟩

theorem assignRound_forced {spread : Bool} {lastUsedGPU : Nat} (hlast : lastUsedGPU < gpus.length)
    (gpuLayers : GPULayersList) :
    ((∃ fuel out, assignRound fuel spread layers gpus false requestedLayers lastUsedGPU gpuLayers = some out) ↔
      RoomAtSixteen layers requestedLayers gpus) ∧
    ∀ fuel out, assignRound fuel spread layers gpus false requestedLayers lastUsedGPU gpuLayers = some out →
      out.sum = (greedyFit layers gpus 1000 requestedLayers).sum := by
  unfold assignRound
  cases spread with
  | true =>
    simp only [if_true, Bool.not_false]
    refine ⟨?_, fun fuel out hout => ?_⟩
    · rw [findBestFit_same_ends hne hsame]
      exact ⟨fun h => h ⟨h0, rfl⟩, fun h _ => h⟩
    · rw [findBestFit_same_sum hne hsame hout, highest, if_pos ⟨h0, rfl⟩]
  | false =>
    obtain ⟨left, hleft⟩ : ∃ left, gpus.length - lastUsedGPU = left + 1 := ⟨gpus.length - lastUsedGPU - 1, by omega⟩
    simp only [Bool.false_eq_true, if_false, hleft]
    exact packLoop_forced hne hsame h0 left (by omega) gpuLayers

end

end Xdragon.Llm
