import Xdragon.Llm.Load

/-!
# Loading ends

Each round either remembers a new hash, or backs off further, or ends the operation. There are finitely many hashes, and the
backoff is above 1 after a few steps.
-/

open Xdragon.Lib

namespace Xdragon.Llm

/-! ## The backoff -/

/-- What the backoff can be. -/
inductive BackedOff : ℚ → Prop
  | start : BackedOff 0
  | more {backoff : ℚ} : BackedOff backoff → backoff ≤ 1 → BackedOff (moreBackoff backoff)

theorem tenth_ge : (1 / 16 : ℚ) ≤ float32 (1 / 10) := le_float32 (by norm_num) ⟨1, -4, by norm_num, by norm_num⟩ (by norm_num)

theorem BackedOff.nonneg {backoff : ℚ} (h : BackedOff backoff) : 0 ≤ backoff := by
  induction h with
  | start => exact le_rfl
  | more _ _ ih => exact float32_nonneg (add_nonneg ih (le_trans (by norm_num) tenth_ge))

/-- Rounding does not eat up a step: in sixteenths the backoff grows by one at least. -/
theorem moreBackoff_grows {backoff : ℚ} (h0 : 0 ≤ backoff) (h1 : backoff ≤ 1) :
    ⌊16 * backoff⌋ + 1 ≤ ⌊16 * moreBackoff backoff⌋ := by
  have hfloor : 0 ≤ ⌊16 * backoff⌋ := Int.floor_nonneg.mpr (by linarith)
  have hbound : ⌊16 * backoff⌋ ≤ 16 := by
    have hle := Int.floor_le_floor (show 16 * backoff ≤ (16 : ℤ) by push_cast; linarith)
    rwa [Int.floor_intCast] at hle
  have hgrid : IsFloat32 ((⌊16 * backoff⌋ + 1) / 16) := by
    refine ⟨(⌊16 * backoff⌋ + 1).toNat, -4, by omega, ?_⟩
    rw [← Int.cast_natCast, Int.toNat_of_nonneg (by omega)]
    push_cast
    norm_num [div_eq_mul_inv]
  have hbelow : ((⌊16 * backoff⌋ : ℚ) + 1) / 16 ≤ backoff + float32 (1 / 10) := by
    have hle := Int.floor_le (16 * backoff)
    have htenth := tenth_ge
    linarith
  have hmore := le_float32 (add_nonneg h0 (le_trans (by norm_num) tenth_ge)) hgrid hbelow
  apply Int.le_floor.mpr
  push_cast
  unfold moreBackoff
  linarith

/-- How many times the backoff can still grow. -/
def leeway (backoff : ℚ) : Nat := (17 - ⌊16 * backoff⌋).toNat

theorem leeway_moreBackoff {backoff : ℚ} (h0 : 0 ≤ backoff) (h1 : backoff ≤ 1) : leeway (moreBackoff backoff) < leeway backoff := by
  have hgrows := moreBackoff_grows h0 h1
  have hbound : ⌊16 * backoff⌋ ≤ 16 := by
    have hle := Int.floor_le_floor (show 16 * backoff ≤ (16 : ℤ) by push_cast; linarith)
    rwa [Int.floor_intCast] at hle
  unfold leeway
  omega

/-! ## The hashes -/

theorem card_hashes (hashes : Finset UInt64) : hashes.card ≤ 2 ^ 64 := by
  calc hashes.card = (hashes.image UInt64.toNat).card :=
        (Finset.card_image_of_injective hashes fun _ _ => UInt64.toNat_inj.mp).symm
    _ ≤ (Finset.range (2 ^ 64)).card := by
        refine Finset.card_le_card fun n hn => ?_
        obtain ⟨hash, -, rfl⟩ := Finset.mem_image.mp hn
        exact Finset.mem_range.mpr hash.toNat_lt
    _ = 2 ^ 64 := Finset.card_range _

/-! ## One step of each kind -/

/-- A report that `Load` starts with or gets. -/
def Runner.Reports (runner : Runner) (start : Option BackendMemory) (memory : Option BackendMemory) : Prop :=
  memory = start ∨ ∃ k resp, runner.reply k = .ok resp ∧ memory = some resp.memory

/-- What `NumGPU` can be: a number of the caller's stays, unless offloading is turned off. -/
def Allowed (start numGPU : Int) : Prop := start < 0 ∨ numGPU = start ∨ numGPU = 0

theorem createLayout_allowed {fuel : Nat} {env : Environment} {totalLayers : Nat} {systemInfo : SystemInfo} {systemGPUs : List DeviceInfo}
    {memory : Option BackendMemory} {requireFull : Bool} {backoff : ℚ} {start numGPU : Int} (h : Allowed start numGPU)
    {out : Except LoadError GPULayersList × Int}
    (hout : createLayout fuel env totalLayers systemInfo systemGPUs memory requireFull backoff numGPU = some out) : Allowed start out.2 := by
  simp only [createLayout, Option.map_eq_some_iff] at hout
  obtain ⟨⟨gpuLayers, layers⟩, -, rfl⟩ := hout
  simp only [verifyLayout]
  split
  · exact h
  · split
    · exact h
    · split
      · split
        · exact Or.inr (Or.inr rfl)
        · exact h
      · split
        · exact h
        · exact h

namespace Loader

variable (l : Loader) (start : LoadState)

/-- `createLayout` comes back wherever `Load` may call it. -/
def LayoutReturns : Prop := ∀ memory backoff numGPU, l.runner.Reports start.mem memory → BackedOff backoff → Allowed start.numGPU numGPU →
  ∃ fuel out, Llm.createLayout fuel l.env l.totalLayers l.systemInfo l.gpus memory l.requireFull backoff numGPU = some out

/-- What always holds. -/
structure Usual (s : LoadState) : Prop where
  mem : l.runner.Reports start.mem s.mem
  backoff : BackedOff s.backoff
  numGPU : Allowed start.numGPU s.numGPU

/-- Nothing that the loops are counted by is different. -/
structure Kept (s s' : LoadState) : Prop where
  gpuLayers : s'.gpuLayers = s.gpuLayers
  pastAllocations : s'.pastAllocations = s.pastAllocations
  backoff : s'.backoff = s.backoff

variable {l start} {s : LoadState}

theorem Kept.trans {s s' s'' : LoadState} (h : Kept s s') (h' : Kept s' s'') : Kept s s'' :=
  ⟨h'.gpuLayers.trans h.gpuLayers, h'.pastAllocations.trans h.pastAllocations, h'.backoff.trans h.backoff⟩

theorem initModel_ends (operation : LoadOperation) (gpuLayers : GPULayersList) (h : l.Usual start s) :
    (l.initModel operation gpuLayers).Ends
      (fun resp s' => (l.Usual start s' ∧ Kept s s') ∧ l.runner.Reports start.mem (some resp.memory)) s := by
  apply Fuelled.Ends.get_bind
  apply Fuelled.Ends.modify_bind
  apply Fuelled.Ends.ofExcept
  intro resp hresp
  refine ⟨⟨⟨h.mem, h.backoff, h.numGPU⟩, rfl, rfl, rfl⟩, ?_⟩
  cases hreply : l.runner.reply s.calls.length with
  | error message => simp [hreply, Except.mapError] at hresp
  | ok reply =>
    simp only [hreply, Except.mapError, Except.ok.injEq] at hresp
    exact Or.inr ⟨_, reply, hreply, by rw [hresp]⟩

variable (hlayout : l.LayoutReturns start)
include hlayout

theorem tryLayout_ends {memory : Option BackendMemory} (hmemory : l.runner.Reports start.mem memory) (h : l.Usual start s) :
    (l.tryLayout memory).Ends (fun _ s' => l.Usual start s' ∧ Kept s s') s := by
  obtain ⟨n, ⟨created, numGPU⟩, hout⟩ := hlayout memory s.backoff s.numGPU hmemory h.backoff h.numGPU
  refine ⟨n, (.ok created, { s with numGPU }), fun fuel hle => ?_, ⟨h.mem, h.backoff, ?_⟩, rfl, rfl, rfl⟩
  · rw [tryLayout, createLayout_more hle hout]
    rfl
  · exact createLayout_allowed h.numGPU hout

theorem createLayout_ends {memory : Option BackendMemory} (hmemory : l.runner.Reports start.mem memory) (h : l.Usual start s) :
    (l.createLayout memory).Ends (fun _ s' => l.Usual start s' ∧ Kept s s') s := by
  apply Fuelled.Ends.bind (tryLayout_ends hlayout hmemory h)
  intro created s' h'
  exact Fuelled.Ends.ofExcept fun _ _ => h'

/-! ## The loops -/

/-- The numbers of layers are finitely many, and trying them changes nothing unless one of them is kept. -/
theorem explore_ends (operation : LoadOperation) {left : Nat} (hleft : left = 0 ∨ start.numGPU < 0) (resp : LoadResponse)
    (h : l.Usual start s) :
    (l.explore operation left resp).Ends (fun r s' => l.Usual start s' ∧ (r.isSome → Kept s s')) s := by
  induction left generalizing resp s with
  | zero => exact Fuelled.Ends.pure ⟨h, fun _ => ⟨rfl, rfl, rfl⟩⟩
  | succ left ih =>
    have hneg := hleft.resolve_left (Nat.succ_ne_zero left)
    apply Fuelled.Ends.get_bind
    apply Fuelled.Ends.modify_bind
    have hforced : l.Usual start { s with numGPU := s.gpuLayers.sum + left } := ⟨h.mem, h.backoff, Or.inl hneg⟩
    apply Fuelled.Ends.bind (tryLayout_ends hlayout hforced.mem hforced)
    rintro created s₁ ⟨h₁, hkept₁⟩
    apply Fuelled.Ends.modify_bind
    have hback : l.Usual start { s₁ with numGPU := -1 } := ⟨h₁.mem, h₁.backoff, Or.inl hneg⟩
    apply Fuelled.Ends.bind (Fuelled.Ends.ofExcept fun _ _ => Eq.refl { s₁ with numGPU := -1 })
    rintro newGPULayers s₂ rfl
    apply Fuelled.Ends.bind (initModel_ends operation newGPULayers hback)
    rintro resp' s₃ ⟨⟨h₃, hkept₃⟩, hreports⟩
    have hkept : Kept s s₃ := ⟨hkept₃.gpuLayers.trans hkept₁.gpuLayers, hkept₃.pastAllocations.trans hkept₁.pastAllocations,
      hkept₃.backoff.trans hkept₁.backoff⟩
    have hrest : ∀ {s' : LoadState}, l.Usual start s' → Kept s s' →
        (l.explore operation left resp').Ends (fun r s' => l.Usual start s' ∧ (r.isSome → Kept s s')) s' :=
      fun h' hkept' => (ih (Or.inr hneg) resp' h').mono fun r s'' hr => ⟨hr.1, fun hsome => hkept'.trans (hr.2 hsome)⟩
    split
    · apply Fuelled.Ends.bind (createLayout_ends hlayout hreports h₃)
      rintro verifyGPULayers s₄ ⟨h₄, hkept₄⟩
      split
      · apply Fuelled.Ends.modify_bind
        exact Fuelled.Ends.pure ⟨⟨h₄.mem, h₄.backoff, h₄.numGPU⟩, fun hnone => absurd hnone (by simp)⟩
      · exact hrest h₄ (hkept.trans hkept₄)
    · exact hrest h₃ hkept

/-- What a round of the inner loop comes to. -/
def Settled (l : Loader) (s s' : LoadState) : LoadResponse ⊕ Label → Prop
  | .inl _ => s'.gpuLayers = s.gpuLayers ∧ s'.pastAllocations = s.pastAllocations ∧ leeway s'.backoff < leeway s.backoff
  | .inr .nextLoad => s'.pastAllocations = s.pastAllocations ∧ l.hash s'.gpuLayers ∉ s.pastAllocations
  | .inr .nextOperation => True

omit hlayout in
theorem giveWay_ends (resp : LoadResponse) (h : l.Usual start s) :
    (giveWay resp).Ends (fun r s' => l.Usual start s' ∧ Settled l s s' r) s := by
  unfold giveWay
  split
  · exact Fuelled.Ends.pure ⟨h, trivial⟩
  · apply Fuelled.Ends.get_bind
    split
    · exact Fuelled.Ends.fail
    · split
      · exact Fuelled.Ends.fail
      · rename_i hlow
        have hlow := not_lt.mp hlow
        apply Fuelled.Ends.modify_bind
        exact Fuelled.Ends.pure ⟨⟨h.mem, h.backoff.more hlow, h.numGPU⟩, rfl, rfl, leeway_moreBackoff h.backoff.nonneg hlow⟩

theorem settle_ends (operation : LoadOperation) (resp : LoadResponse) (h : l.Usual start s) :
    (l.settle operation resp).Ends (fun r s' => l.Usual start s' ∧ Settled l s s' r) s := by
  apply Fuelled.Ends.get_bind
  apply Fuelled.Ends.bind (createLayout_ends hlayout h.mem h)
  rintro newGPULayers s₁ ⟨h₁, hkept₁⟩
  apply Fuelled.Ends.get_bind
  split
  · rename_i hfresh
    apply Fuelled.Ends.modify_bind
    exact Fuelled.Ends.pure ⟨⟨h₁.mem, h₁.backoff, h₁.numGPU⟩, hkept₁.pastAllocations, hkept₁.pastAllocations ▸ hfresh.1⟩
  · refine Fuelled.Ends.bind (explore_ends hlayout operation ?_ resp h₁) ?_
    · split
      · rename_i hmore
        -- only a caller that asks for no number of layers gets here
        refine Or.inr ?_
        rcases h₁.numGPU with hneg | hsame | hzero
        · exact hneg
        · exact hsame ▸ hmore.1
        · exact absurd hmore.1 (by omega)
      · exact Or.inl rfl
    · rintro explored s₂ ⟨h₂, hkept₂⟩
      cases explored with
      | none => exact Fuelled.Ends.pure ⟨h₂, trivial⟩
      | some resp' =>
        have hkept := hkept₁.trans (hkept₂ rfl)
        refine (giveWay_ends resp' h₂).mono fun r s' hr => ⟨hr.1, ?_⟩
        have hsettled := hr.2
        match r with
        | .inl _ =>
          simp only [Settled, hkept.gpuLayers, hkept.pastAllocations, hkept.backoff] at hsettled ⊢
          exact hsettled
        | .inr .nextLoad =>
          simp only [Settled, hkept.pastAllocations] at hsettled ⊢
          exact hsettled
        | .inr .nextOperation => exact trivial

/-- The inner loop backs off a few times at most. -/
theorem settleLoop_ends (operation : LoadOperation) (resp : LoadResponse) (h : l.Usual start s) :
    (Fuelled.loop (l.settle operation) resp).Ends
      (fun label s' => l.Usual start s' ∧ (label = .nextLoad →
        s'.pastAllocations = s.pastAllocations ∧ l.hash s'.gpuLayers ∉ s.pastAllocations)) s := by
  refine Fuelled.Ends.loop (fun _ s' => leeway s'.backoff)
    (I := fun _ s' => l.Usual start s' ∧ s'.pastAllocations = s.pastAllocations) ?_ ⟨h, rfl⟩
  rintro resp' s₁ ⟨h₁, hpast⟩
  refine (settle_ends hlayout operation resp' h₁).mono fun r s₂ ⟨h₂, hsettled⟩ => ?_
  match r with
  | .inl _ => exact ⟨⟨h₂, hsettled.2.1.trans hpast⟩, hsettled.2.2⟩
  | .inr .nextLoad => exact ⟨h₂, fun _ => ⟨hsettled.1.trans hpast, hpast ▸ hsettled.2⟩⟩
  | .inr .nextOperation => exact ⟨h₂, fun hlabel => nomatch hlabel⟩

/-- How many hashes are left when the layout at hand has been tried. -/
def untried (l : Loader) (s : LoadState) : Nat := 2 ^ 64 - (insert (l.hash s.gpuLayers) s.pastAllocations).card

theorem tryLoad_ends (operation : LoadOperation) (h : l.Usual start s) :
    (l.tryLoad operation).Ends (fun r s' => l.Usual start s' ∧ (r = .inl () → untried l s' < untried l s)) s := by
  apply Fuelled.Ends.get_bind
  apply Fuelled.Ends.bind (initModel_ends operation s.gpuLayers h)
  rintro resp s₁ ⟨⟨h₁, hkept⟩, hreports⟩
  apply Fuelled.Ends.modify_bind
  have htried : l.Usual start
      { s₁ with pastAllocations := insert (l.hash s₁.gpuLayers) s₁.pastAllocations, mem := some resp.memory } :=
    ⟨hreports, h₁.backoff, h₁.numGPU⟩
  apply Fuelled.Ends.bind (settleLoop_ends hlayout operation resp htried)
  rintro label s₂ ⟨h₂, hfresh⟩
  cases label with
  | nextOperation => exact Fuelled.Ends.pure ⟨h₂, fun hagain => nomatch hagain⟩
  | nextLoad =>
    obtain ⟨hpast, hnew⟩ := hfresh rfl
    refine Fuelled.Ends.pure ⟨h₂, fun _ => ?_⟩
    simp only [hkept.gpuLayers, hkept.pastAllocations] at hpast hnew
    have hroom := card_hashes (insert (l.hash s₂.gpuLayers) s₂.pastAllocations)
    rw [hpast, Finset.card_insert_of_notMem hnew] at hroom
    rw [untried, untried, hpast, Finset.card_insert_of_notMem hnew]
    omega

theorem loadAt_ends (operation : LoadOperation) (h : l.Usual start s) : (l.loadAt operation).Ends (fun _ s' => l.Usual start s') s := by
  refine Fuelled.Ends.loop (fun _ s' => untried l s') (I := fun _ s' => l.Usual start s') ?_ h
  intro _ s₁ h₁
  refine (tryLoad_ends hlayout operation h₁).mono fun r s₂ ⟨h₂, hless⟩ => ?_
  cases r with
  | inl _ => exact ⟨h₂, hless rfl⟩
  | inr _ => exact h₂

theorem body_ends (h : l.Usual start s) : (l.body).Ends (fun _ s' => l.Usual start s') s := by
  apply Fuelled.Ends.get_bind
  apply Fuelled.Ends.bind (createLayout_ends hlayout h.mem h)
  rintro gpuLayers s₁ ⟨h₁, -⟩
  apply Fuelled.Ends.modify_bind
  have hfirst : l.Usual start { s₁ with gpuLayers } := ⟨h₁.mem, h₁.backoff, h₁.numGPU⟩
  apply Fuelled.Ends.bind (Fuelled.Ends.ofExcept fun _ _ => hfirst)
  intro _ s₂ h₂
  apply Fuelled.Ends.bind (loadAt_ends hlayout .fit h₂)
  intro _ s₃ h₃
  apply Fuelled.Ends.bind (loadAt_ends hlayout .alloc h₃)
  intro _ s₄ h₄
  apply Fuelled.Ends.get_bind
  apply Fuelled.Ends.bind (initModel_ends .commit s₄.gpuLayers h₄)
  rintro resp s₅ ⟨⟨h₅, -⟩, hreports⟩
  apply Fuelled.Ends.modify_bind
  split
  · exact Fuelled.Ends.pure ⟨hreports, h₅.backoff, h₅.numGPU⟩
  · exact Fuelled.Ends.fail

end Loader

/-- `createLayout` comes back when the full model has to fit and all reports are complete. -/
theorem layoutReturns_full {l : Loader} {start : LoadState} (hfull : l.requireFull = true)
    (hstart : ∀ memory, start.mem = some memory → memory.Complete)
    (hreply : ∀ k resp, l.runner.reply k = .ok resp → resp.memory.Complete) : l.LayoutReturns start := by
  intro memory backoff numGPU hreports _ _
  refine createLayout_free (Or.inr hfull) l.env l.totalLayers l.systemInfo l.gpus ?_ backoff
  rcases hreports with rfl | ⟨k, resp, hresp, rfl⟩
  · cases hmem : start.mem with
    | none => exact unknownMemory_complete l.totalLayers
    | some memory => exact hstart memory hmem
  · exact hreply k resp hresp

/-- A runner that fails twice, and whose reports change with every call. -/
def changingLoader : Loader where
  env :=
    { darwin := false
      schedSpread := false
      gpuOverhead := 0
      sorting := largestFirst
      sum64 := fun bytes => bytes.foldl (fun sum b => sum * 31 + b.toUInt64) 0 }
  runner :=
    { launched := .ok ()
      reply := fun k => .ok
        { success := decide (2 ≤ k)
          memory :=
            { cpu := { weights := [0, 0], cache := [0, 0] }
              gpus := [{ deviceID := ⟨"0", "CUDA"⟩
                         weights := [0x20000000, 0x20000000]
                         cache := [UInt64.ofNat k, 0]
                         graph := if k % 2 = 0 then 0 else 0x40000000 }] } } }
  totalLayers := 2
  systemInfo :=
    { totalMemory := 0x800000000
      freeMemory := 0x800000000
      freeSwap := 0 }
  gpus := [{ deviceID := ⟨"0", "CUDA"⟩, freeMemory := 0x80000000 }]
  requireFull := true

/-- `Load` comes back, and its last state lists the requests that it made. -/
theorem load_ends (l : Loader) (mem : Option BackendMemory) (numGPU : Int) (hlayout : l.LayoutReturns { mem, numGPU }) :
    ∃ n result last, ∀ fuel, n ≤ fuel → l.load fuel { mem, numGPU } = some (result, last) := by
  obtain ⟨n, out, hout, -⟩ := Loader.body_ends hlayout ⟨Or.inl rfl, .start, Or.inr (Or.inl rfl)⟩
  refine ⟨n, (Loader.deferred out).1, (Loader.deferred out).2, fun fuel hle => ?_⟩
  rw [Loader.load, hout fuel hle]
  rfl

theorem changingLoader_ends :
    ∃ n result last, ∀ fuel, n ≤ fuel → changingLoader.load fuel { mem := none, numGPU := -1 } = some (result, last) := by
  refine load_ends changingLoader none (-1) (layoutReturns_full rfl (fun memory h => nomatch h) fun k resp hresp => ?_)
  cases hresp
  exact ⟨⟨le_rfl, le_rfl⟩, List.forall_mem_singleton.mpr ⟨le_rfl, le_rfl⟩⟩

end Xdragon.Llm
