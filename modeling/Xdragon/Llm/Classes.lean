import Xdragon.Llm.Bisect

/-!
# What `findBestFit` places

Each class of GPUs gets a run of layers in front of those that the class before it took.
-/

open Xdragon.Lib

namespace Xdragon.Llm

/-! ## Classes of GPUs -/

theorem addByPerformance_flatten (info : DeviceInfo) (classes : List (Bool × List DeviceInfo)) :
    ((addByPerformance info classes).map (·.2)).flatten.Perm ((classes.map (·.2)).flatten ++ [info]) := by
  induction classes with
  | nil => simp [addByPerformance]
  | cons c classes ih =>
    obtain ⟨score, devices⟩ := c
    unfold addByPerformance
    split
    · simp only [List.map_cons, List.flatten_cons, List.append_assoc]
      exact List.Perm.append_left _ (List.perm_append_comm)
    · simp only [List.map_cons, List.flatten_cons, List.append_assoc]
      exact ih.append_left _

theorem addByPerformance_ne_nil (info : DeviceInfo) {classes : List (Bool × List DeviceInfo)}
    (h : ∀ c ∈ classes, c.2 ≠ []) : ∀ c ∈ addByPerformance info classes, c.2 ≠ [] := by
  induction classes with
  | nil => simp [addByPerformance]
  | cons c classes ih =>
    obtain ⟨score, devices⟩ := c
    unfold addByPerformance
    split
    · intro c hc
      rcases List.mem_cons.mp hc with rfl | hc
      · simp
      · exact h c (List.mem_cons_of_mem _ hc)
    · intro c hc
      rcases List.mem_cons.mp hc with rfl | hc
      · exact h _ (List.mem_cons_self ..)
      · exact ih (fun c hc => h c (List.mem_cons_of_mem _ hc)) c hc

/-- Every GPU is in one class, and no class is empty. -/
theorem byPerformance_spec (gpus : List DeviceInfo) :
    (byPerformance gpus).flatten.Perm gpus ∧ ∀ gl ∈ byPerformance gpus, gl ≠ [] := by
  have hfold : ∀ (l : List DeviceInfo) (classes : List (Bool × List DeviceInfo)), (∀ c ∈ classes, c.2 ≠ []) →
      ((l.foldl (fun resp info => addByPerformance info resp) classes).map (·.2)).flatten.Perm
        ((classes.map (·.2)).flatten ++ l) ∧
      ∀ c ∈ l.foldl (fun resp info => addByPerformance info resp) classes, c.2 ≠ [] := by
    intro l
    induction l with
    | nil => exact fun classes h => ⟨by simp, h⟩
    | cons info l ih =>
      intro classes h
      obtain ⟨hperm, hne⟩ := ih _ (addByPerformance_ne_nil info h)
      refine ⟨hperm.trans ?_, hne⟩
      rw [List.append_cons]
      exact (addByPerformance_flatten info classes).append_right l
  obtain ⟨hperm, hne⟩ := hfold gpus [] (by simp)
  refine ⟨by simpa [byPerformance] using hperm, fun gl hgl => ?_⟩
  obtain ⟨c, hc, rfl⟩ := List.mem_map.mp hgl
  exact hne c hc

/-- GPUs of one kind are one class. -/
theorem byPerformance_same {gpus : List DeviceInfo} (hne : gpus ≠ []) (h : ∀ gpu ∈ gpus, gpu.integrated = false) :
    byPerformance gpus = [gpus] := by
  have hfold : ∀ (l devices : List DeviceInfo), (∀ gpu ∈ l, gpu.integrated = false) →
      l.foldl (fun resp info => addByPerformance info resp) [(false, devices)] = [(false, devices ++ l)] := by
    intro l
    induction l with
    | nil => simp
    | cons info l ih =>
      intro devices hl
      have hinfo := hl info (List.mem_cons_self ..)
      rw [List.foldl_cons, addByPerformance, if_pos hinfo.symm, ih _ fun gpu hg => hl gpu (List.mem_cons_of_mem _ hg),
        List.append_assoc, List.singleton_append]
  cases gpus with
  | nil => exact absurd rfl hne
  | cons gpu gpus =>
    have hgpu := h gpu (List.mem_cons_self ..)
    unfold byPerformance
    rw [List.foldl_cons, addByPerformance, hgpu, hfold gpus [gpu] fun g hg => h g (List.mem_cons_of_mem _ hg)]
    rfl

/-! ## All classes -/

/-- How many layers `greedyFit` places on each class at a capacity, each time without those placed before. -/
def classCounts (capacity : ℚ) : List (List DeviceInfo) → List Nat → Int → List Nat
  | [], _, _ => []
  | gl :: rest, layers, requestedLayers =>
    let placed := (greedyFit layers gl capacity requestedLayers).sum
    placed :: classCounts capacity rest (layers.take (layers.length - placed)) (requestedLayers - placed)

/-- What the classes place together, and how much there is for each of them. -/
structure Placed (layers : List Nat) (classes : List (List DeviceInfo)) (requestedLayers : Int) (top : ℚ)
    (parts : List GPULayersList) : Prop where
  counts : parts.map (·.sum) = classCounts top classes layers requestedLayers
  sum_le : GPULayersList.sum parts.reverse.flatten ≤ layers.length
  indices : GPULayersList.indices parts.reverse.flatten =
    List.range' (layers.length - GPULayersList.sum parts.reverse.flatten) (GPULayersList.sum parts.reverse.flatten)
  requested : 0 ≤ requestedLayers → GPULayersList.sum parts.reverse.flatten ≤ requestedLayers
  used : List.Forall₂ (fun part gl => ∃ used, used <:+ gl ∧ List.Forall₂ (Fits layers (freeSpace · top)) part used)
    parts classes

theorem GPULayersList.sum_append (l l' : GPULayersList) : GPULayersList.sum (l ++ l') = l.sum + l'.sum := by
  simp [sum]

theorem GPULayersList.indices_append (l l' : GPULayersList) :
    GPULayersList.indices (l ++ l') = l.indices ++ l'.indices := by
  simp [indices]

/-- The size of an entry does not depend on the layers behind it. -/
theorem load_take {layers : List Nat} {n : Nat} {e : GPULayers} (h : ∀ i ∈ e.layers, i < n) :
    e.load (layers.take n) = e.load layers := by
  unfold GPULayers.load
  congr 1
  refine List.map_congr_left fun i hi => ?_
  rw [List.getD_eq_getElem?_getD, List.getD_eq_getElem?_getD, List.getElem?_take, if_pos (h i hi)]

theorem fits_take {layers : List Nat} {n : Nat} {space : DeviceInfo → Nat} {part : GPULayersList}
    {used : List DeviceInfo} (hlt : ∀ i ∈ part.indices, i < n)
    (h : List.Forall₂ (Fits (layers.take n) space) part used) : List.Forall₂ (Fits layers space) part used := by
  have hall : ∀ e ∈ part, ∀ i ∈ e.layers, i < n :=
    fun e he i hi => hlt i (List.mem_flatMap.mpr ⟨e, he, hi⟩)
  refine ((List.forall₂_and_left _ _).mpr ⟨hall, h⟩).imp ?_
  rintro e gpu ⟨he, hid, hload⟩
  exact ⟨hid, load_take he ▸ hload⟩

theorem fits_mono {layers : List Nat} {c d : ℚ} (h : c ≤ d) {part : GPULayersList} {used : List DeviceInfo}
    (hfit : List.Forall₂ (Fits layers (freeSpace · c)) part used) :
    List.Forall₂ (Fits layers (freeSpace · d)) part used :=
  hfit.imp fun _ gpu hf => ⟨hf.1, hf.2.trans (freeSpace_mono gpu h)⟩

/-- One more class, before the classes that share what it leaves. -/
theorem Placed.cons {layers : List Nat} {gl : List DeviceInfo} {rest : List (List DeviceInfo)}
    {requestedLayers : Int} {c top : ℚ} {part : GPULayersList} {parts : List GPULayersList} (hc : c ≤ top)
    (hpart : Greedy layers gl c requestedLayers part)
    (hbest : part.sum = (greedyFit layers gl top requestedLayers).sum)
    (h : Placed (layers.take (layers.length - part.sum)) rest (requestedLayers - part.sum) top parts) :
    Placed layers (gl :: rest) requestedLayers top (part :: parts) := by
  have hlen : (layers.take (layers.length - part.sum)).length = layers.length - part.sum := by
    rw [List.length_take]
    omega
  have hle := h.sum_le
  have hind := h.indices
  have hreq := h.requested
  rw [hlen] at hle hind
  have hflat : (part :: parts).reverse.flatten = parts.reverse.flatten ++ part := by simp
  have hpartLe := hpart.sum_le
  have hpartReq := hpart.requested
  refine ⟨?_, ?_, ?_, ?_, ?_⟩
  · rw [List.map_cons, h.counts, hbest]
    rfl
  · rw [hflat, GPULayersList.sum_append]
    omega
  · rw [hflat, GPULayersList.sum_append, GPULayersList.indices_append, hind, hpart.indices]
    generalize GPULayersList.sum parts.reverse.flatten = placed at hle
    rw [show layers.length - (placed + part.sum) = layers.length - part.sum - placed by omega,
      ← List.range'_append_1]
    congr 2
    omega
  · rw [hflat, GPULayersList.sum_append]
    intro h0
    have := hpartReq h0
    have := hreq (by omega)
    push_cast
    omega
  · obtain ⟨used, hsuffix, hfits⟩ := hpart.used
    refine .cons ⟨used, hsuffix, fits_mono hc hfits⟩ ?_
    -- The layers of the other classes lie before those of this one.
    have hlt : ∀ part' ∈ parts, ∀ i ∈ part'.indices, i < layers.length - part.sum := by
      intro part' hmem i hi
      have hall : i ∈ GPULayersList.indices parts.reverse.flatten := by
        obtain ⟨e, he, hi⟩ := List.mem_flatMap.mp hi
        exact List.mem_flatMap.mpr ⟨e, List.mem_flatten.mpr ⟨part', List.mem_reverse.mpr hmem, he⟩, hi⟩
      rw [hind, List.mem_range'_1] at hall
      omega
    refine ((List.forall₂_and_left _ _).mpr ⟨hlt, h.used⟩).imp ?_
    rintro part' gl' ⟨hpart', used', hsuffix', hfits'⟩
    exact ⟨used', hsuffix', fits_take hpart' hfits'⟩

/-- Fewer layers to place keep the highest capacity. -/
theorem highest_sub {requestedLayers : Int} {placed : Nat} (h : 0 ≤ requestedLayers → (placed : Int) ≤ requestedLayers)
    (forceRequest : Bool) :
    (0 ≤ requestedLayers - placed ↔ 0 ≤ requestedLayers) ∧
      highest (requestedLayers - placed) forceRequest = highest requestedLayers forceRequest := by
  have hiff : 0 ≤ requestedLayers - placed ↔ 0 ≤ requestedLayers := by
    constructor
    · intro h'
      omega
    · intro h'
      have := h h'
      omega
  exact ⟨hiff, by simp only [highest, hiff]⟩

theorem findBestFitLoop_placed {fuel : Nat} {forceRequest : Bool} {classes : List (List DeviceInfo)}
    (hne : ∀ gl ∈ classes, gl ≠ []) {layers : List Nat} {requestedLayers : Int} {gpuLayers out : GPULayersList}
    (h : findBestFitLoop fuel forceRequest classes layers requestedLayers gpuLayers = some out) :
    ∃ parts, out = parts.reverse.flatten ++ gpuLayers ∧
      Placed layers classes requestedLayers (highest requestedLayers forceRequest) parts := by
  induction classes generalizing layers requestedLayers gpuLayers with
  | nil =>
    simp only [findBestFitLoop, Option.some.injEq] at h
    subst h
    refine ⟨[], rfl, rfl, Nat.zero_le _, by simp [GPULayersList.indices, GPULayersList.sum], fun h => ?_, .nil⟩
    simpa [GPULayersList.sum] using h
  | cons gl rest ih =>
    simp only [findBestFitLoop, Option.bind_eq_some_iff] at h
    obtain ⟨part, hpart, hrest⟩ := h
    obtain ⟨c, hc, rfl, hbest⟩ := bestFit_some hpart
    have hgreedy := greedyFit_spec layers (hne gl (List.mem_cons_self ..)) c requestedLayers
    obtain ⟨parts, rfl, hplaced⟩ := ih (fun gl hgl => hne gl (List.mem_cons_of_mem _ hgl)) hrest
    rw [(highest_sub hgreedy.requested forceRequest).2] at hplaced
    exact ⟨_ :: parts, by simp, hplaced.cons hc hgreedy hbest⟩

theorem findBestFit_placed {fuel : Nat} {layers : List Nat} {gpus : List DeviceInfo} {requestedLayers : Int}
    {forceRequest : Bool} {out : GPULayersList}
    (h : findBestFit fuel layers gpus requestedLayers forceRequest = some out) :
    ∃ parts, out = parts.reverse.flatten ∧
      Placed layers (byPerformance gpus) requestedLayers (highest requestedLayers forceRequest) parts := by
  obtain ⟨parts, hout, hplaced⟩ := findBestFitLoop_placed (byPerformance_spec gpus).2 h
  exact ⟨parts, by rw [hout, List.append_nil], hplaced⟩

/-- Every entry of a layout belongs to a GPU of its own. -/
def OnGPUs (layers : List Nat) (gpus : List DeviceInfo) (space : DeviceInfo → Nat) (out : GPULayersList) : Prop :=
  ∃ used, used.Subperm gpus ∧ List.Forall₂ (Fits layers space) out used

theorem Placed.onGPUs {layers : List Nat} {classes : List (List DeviceInfo)} {requestedLayers : Int} {top : ℚ}
    {parts : List GPULayersList} (h : Placed layers classes requestedLayers top parts) :
    OnGPUs layers classes.flatten (freeSpace · top) parts.reverse.flatten := by
  have hall : ∀ {parts : List GPULayersList} {classes : List (List DeviceInfo)},
      List.Forall₂ (fun part gl => ∃ used, used <:+ gl ∧ List.Forall₂ (Fits layers (freeSpace · top)) part used)
        parts classes → OnGPUs layers classes.flatten (freeSpace · top) parts.reverse.flatten := by
    intro parts classes h
    induction h with
    | nil => exact ⟨[], List.nil_subperm, .nil⟩
    | cons hpart _ ih =>
      obtain ⟨used, hsuffix, hfits⟩ := hpart
      obtain ⟨used', hsub', hfits'⟩ := ih
      refine ⟨used' ++ used, ?_, ?_⟩
      · rw [List.flatten_cons]
        exact List.perm_append_comm.subperm.trans (hsuffix.sublist.subperm.append hsub')
      · simpa using List.rel_append hfits' hfits
  exact hall h.used

end Xdragon.Llm
