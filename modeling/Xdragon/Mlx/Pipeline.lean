import Mathlib.Data.List.Indexes
import Xdragon.Lib.Run
import Xdragon.Mlx.Cache

/-!
# The prefix cache of the runner

`x/mlxrunner/cache.go` and `x/mlxrunner/pipeline.go`, for a model whose caches are plain
`KVCache`s. `Forward` appends a row for each token to the cache of each layer. The tokens that
`Sample` picks come with the request.
-/

open Xdragon.Lib

namespace Xdragon.Mlx

structure CacheEntry (κ ν : Type*) where
  tokens : List Int
  caches : List (KVCache κ ν)

structure Runner (κ ν : Type*) where
  cache : Option (CacheEntry κ ν) := none

/-- The rows of a token, by layer and position, and the end of a text. -/
structure Model (κ ν : Type*) where
  numLayers : Nat
  keyOf : Nat → Nat → Int → κ
  valueOf : Nat → Nat → Int → ν
  zeroKey : κ
  zeroValue : ν
  isEOS : Int → Bool

/-- A request. `inputs` is its prompt as the tokenizer encodes it. -/
structure Request where
  inputs : List Int
  /-- What the calls of `Sample` return, in order. -/
  samples : Nat → Int
  maxTokens : Nat

structure Response where
  token : Int := 0
  done : Bool := false
  doneReason : Nat := 0
  promptTokens : Nat := 0
  completionTokens : Nat := 0

variable {κ ν : Type*}

/-! ## The cached sequence -/

def commonPrefix : List Int → List Int → Nat
  | t :: ts, u :: us => if t = u then commonPrefix ts us + 1 else 0
  | _, _ => 0

/-- `FindNearestCache`, with the caches and the tokens that are left to evaluate. -/
def Runner.findNearestCache (r : Runner κ ν) (tokens : List Int) :
    Runner κ ν × List (KVCache κ ν) × List Int :=
  match r.cache with
  | none => (r, [], tokens)
  | some entry =>
    let common := commonPrefix tokens entry.tokens
    if common = 0 then ({ cache := none }, [], tokens)
    else if common < entry.tokens.length then
      let trim := entry.tokens.length - common
      let caches := entry.caches.map fun c => (c.trim trim).1
      ({ cache := some ⟨entry.tokens.take common, caches⟩ }, caches, tokens.drop common)
    else (r, entry.caches, tokens.drop common)

def Runner.insertCache (tokens : List Int) (caches : List (KVCache κ ν)) : Runner κ ν :=
  { cache := some ⟨tokens, caches⟩ }

/-! ## The pipeline -/

namespace Model

variable (m : Model κ ν)

def newCaches : List (KVCache κ ν) := List.replicate m.numLayers KVCache.newKVCache

/-- The caches, and the inputs of the calls of `Forward` so far. -/
structure Pass (κ ν : Type*) where
  caches : List (KVCache κ ν)
  calls : List (List Int) := []

def forward (pass : Pass κ ν) (tokens : List Int) : Pass κ ν :=
  { caches := pass.caches.mapIdx fun layer c =>
      (c.update m.zeroKey m.zeroValue (tokens.mapIdx fun i => m.keyOf layer (c.offset + i))
        (tokens.mapIdx fun i => m.valueOf layer (c.offset + i))).1
    calls := pass.calls ++ [tokens] }

/-- The loop over the prompt, which leaves one token. -/
def prefill (tokens : List Int) : Nat → Nat → Pass κ ν → Option (Nat × Pass κ ν)
  | 0, processed, pass => some (processed, pass)
  | fuel + 1, processed, pass =>
    if 1 < tokens.length - processed then
      let n := min (2 <<< 10) (tokens.length - processed - 1)
      let pass := m.forward pass ((tokens.drop processed).take n)
      -- `Eval` looks at the state of every cache.
      if pass.caches.all fun c => c.state.isSome then prefill tokens fuel (processed + n) pass else none
    else some (processed, pass)

/-- What the sampling loop leaves. -/
structure Sampled (κ ν : Type*) where
  pass : Pass κ ν
  outputs : List Int
  responses : List Response
  final : Response

/-- The sampling loop from `i` on. The next token is already under way when the end of the text is seen. -/
def generate (samples : Nat → Int) : Nat → Nat → Sampled κ ν → Sampled κ ν
  | 0, _, s => s
  | n + 1, i, s =>
    let sample := samples i
    let s := { s with pass := m.forward s.pass [sample], outputs := s.outputs ++ [sample] }
    if m.isEOS sample then
      { s with final := { s.final with token := sample, doneReason := 0, completionTokens := i } }
    else generate samples n (i + 1) { s with responses := s.responses ++ [{ token := sample }] }

/-- `TextGenerationPipeline`: the runner after the request, the calls of `Forward`, and what it sent. -/
def textGenerationPipeline (r : Runner κ ν) (request : Request) :
    Option (Runner κ ν × List (List Int) × List Response) :=
  let found := r.findNearestCache request.inputs
  let caches := if found.2.1.length = 0 then m.newCaches else found.2.1
  let tokens := found.2.2
  (m.prefill tokens tokens.length 0 ⟨caches, []⟩).map fun e =>
    let final : Response :=
      { done := true, promptTokens := tokens.length, completionTokens := request.maxTokens, doneReason := 1 }
    let s := m.generate request.samples request.maxTokens 0
      ⟨m.forward e.2 (tokens.drop e.1), [], [], final⟩
    (Runner.insertCache (request.inputs ++ s.outputs) s.pass.caches, s.pass.calls, s.responses ++ [s.final])

/-! ## What the caches hold -/

/-- The rows of a text, from its start. -/
def keysOf (layer : Nat) (tokens : List Int) : List κ := tokens.mapIdx (m.keyOf layer)

def valuesOf (layer : Nat) (tokens : List Int) : List ν := tokens.mapIdx (m.valueOf layer)

/-- There is one cache for each layer, and it holds the rows of exactly these tokens. -/
structure Caching (caches : List (KVCache κ ν)) (tokens : List Int) : Prop where
  length : caches.length = m.numLayers
  holds : ∀ layer (c : KVCache κ ν), caches[layer]? = some c → c.Holds (m.keysOf layer tokens) (m.valuesOf layer tokens)

theorem caching_new : Caching m m.newCaches [] := by
  refine ⟨List.length_replicate, fun layer c hc => ?_⟩
  rw [newCaches, List.getElem?_replicate] at hc
  split at hc
  · cases hc
    exact KVCache.holds_new
  · cases hc

variable {m}

theorem Caching.forward {pass : Pass κ ν} {done : List Int} (h : Caching m pass.caches done) (tokens : List Int) :
    Caching m (m.forward pass tokens).caches (done ++ tokens) := by
  refine ⟨by rw [Model.forward, List.length_mapIdx, h.length], fun layer c hc => ?_⟩
  simp only [Model.forward, List.getElem?_mapIdx, Option.map_eq_some_iff] at hc
  obtain ⟨old, hold, rfl⟩ := hc
  have hold := h.holds layer old hold
  have hoff : old.offset = done.length := by
    rw [← hold.keys_length, keysOf, List.length_mapIdx]
  have hnew := hold.update m.zeroKey m.zeroValue (tokens.mapIdx fun i => m.keyOf layer (old.offset + i))
    (tokens.mapIdx fun i => m.valueOf layer (old.offset + i)) (by simp)
  unfold keysOf valuesOf
  rw [List.mapIdx_append, List.mapIdx_append]
  simp only [hoff, Nat.add_comm done.length] at hnew ⊢
  exact hnew

theorem take_mapIdx {ρ : Type*} (f : Nat → Int → ρ) (tokens : List Int) (n : Nat) :
    (tokens.mapIdx f).take n = (tokens.take n).mapIdx f := by
  apply List.ext_getElem?
  intro i
  rw [List.getElem?_take, List.getElem?_mapIdx, List.getElem?_mapIdx, List.getElem?_take]
  split <;> rfl

theorem Caching.trim {caches : List (KVCache κ ν)} {tokens : List Int} (h : Caching m caches tokens) (n : Nat) :
    Caching m (caches.map fun c => (c.trim n).1) (tokens.take (tokens.length - n)) := by
  refine ⟨by rw [List.length_map, h.length], fun layer c hc => ?_⟩
  rw [List.getElem?_map, Option.map_eq_some_iff] at hc
  obtain ⟨old, hold, rfl⟩ := hc
  have htrim := (h.holds layer old hold).trim n
  rwa [keysOf, valuesOf, List.length_mapIdx, List.length_mapIdx, take_mapIdx, take_mapIdx] at htrim

/-- Every cache shows its rows, unless there are none. -/
theorem Caching.state {caches : List (KVCache κ ν)} {tokens : List Int} (h : Caching m caches tokens)
    (hne : tokens ≠ []) {layer : Nat} {c : KVCache κ ν} (hc : caches[layer]? = some c) :
    c.offset = tokens.length ∧ c.state = some (m.keysOf layer tokens, m.valuesOf layer tokens) := by
  have hold := h.holds layer c hc
  refine ⟨?_, hold.state ?_⟩
  · rw [← hold.keys_length, keysOf, List.length_mapIdx]
  · simpa [keysOf] using hne

/-! ## One request -/

/-- The loop over the prompt evaluates all but the last token, and every call gets some. -/
structure Evaluated (m : Model κ ν) (done tokens : List Int) (processed : Nat) (pass : Pass κ ν) : Prop where
  caching : Caching m pass.caches (done ++ tokens.take processed)
  some : ∀ call ∈ pass.calls, call ≠ []
  calls : pass.calls.flatten = tokens.take processed

theorem Evaluated.forward {done tokens : List Int} {processed : Nat} {pass : Pass κ ν}
    (h : Evaluated m done tokens processed pass) {n : Nat} (hn : 0 < n) (hlt : processed < tokens.length) :
    Evaluated m done tokens (processed + n) (m.forward pass ((tokens.drop processed).take n)) := by
  refine ⟨?_, ?_, ?_⟩
  · rw [List.take_add, ← List.append_assoc]
    exact h.caching.forward _
  · intro call hcall
    rcases List.mem_append.mp hcall with hcall | hcall
    · exact h.some call hcall
    · rw [List.mem_singleton.mp hcall, Ne, List.take_eq_nil_iff, List.drop_eq_nil_iff]
      omega
  · simp only [Model.forward, List.flatten_append, h.calls, List.flatten_singleton]
    rw [List.take_add]

theorem prefill_spec {done tokens : List Int} (fuel : Nat) {processed : Nat} {pass : Pass κ ν}
    (h : Evaluated m done tokens processed pass) (hlt : processed < tokens.length)
    (hfuel : tokens.length - processed ≤ fuel) :
    ∃ pass', m.prefill tokens fuel processed pass = some (tokens.length - 1, pass') ∧
      Evaluated m done tokens (tokens.length - 1) pass' := by
  induction fuel generalizing processed pass with
  | zero => omega
  | succ fuel ih =>
    unfold prefill
    by_cases hmore : 1 < tokens.length - processed
    · rw [if_pos hmore]
      simp only
      generalize hn : min (2 <<< 10) (tokens.length - processed - 1) = n
      have hpos : 0 < n := by
        rw [← hn]
        exact Nat.lt_min.mpr ⟨by decide, by omega⟩
      have hle : n ≤ tokens.length - processed - 1 := hn ▸ Nat.min_le_right _ _
      have hnext := h.forward hpos hlt
      have hne : done ++ tokens.take (processed + n) ≠ [] := by
        intro he
        have := (List.take_eq_nil_iff.mp (List.append_eq_nil_iff.mp he).2)
        rcases this with h0 | h0
        · omega
        · rw [h0] at hlt
          exact absurd hlt (Nat.not_lt_zero _)
      have hstate : (m.forward pass ((tokens.drop processed).take n)).caches.all (fun c => c.state.isSome) := by
        rw [List.all_eq_true]
        intro c hc
        obtain ⟨layer, hlayer⟩ := List.mem_iff_getElem?.mp hc
        rw [(hnext.caching.state hne hlayer).2]
        rfl
      rw [if_pos hstate]
      exact ih hnext (by omega) (by omega)
    · rw [if_neg hmore]
      have hlast : processed = tokens.length - 1 := by omega
      exact ⟨pass, by rw [hlast], hlast ▸ h⟩

/-- One pass of the sampling loop feeds back what it adds to the outputs. -/
theorem generate_spec (samples : Nat → Int) {done : List Int} (before : List (List Int)) (n : Nat) {i : Nat}
    {s : Sampled κ ν} (hcache : Caching m s.pass.caches (done ++ s.outputs))
    (hcalls : s.pass.calls = before ++ s.outputs.map fun t => [t]) :
    Caching m (m.generate samples n i s).pass.caches (done ++ (m.generate samples n i s).outputs) ∧
      (m.generate samples n i s).pass.calls = before ++ (m.generate samples n i s).outputs.map fun t => [t] := by
  induction n generalizing i s with
  | zero => exact ⟨hcache, hcalls⟩
  | succ n ih =>
    unfold generate
    simp only
    have hnext : Caching m (m.forward s.pass [samples i]).caches (done ++ (s.outputs ++ [samples i])) := by
      rw [← List.append_assoc]
      exact hcache.forward _
    have hfed : (m.forward s.pass [samples i]).calls = before ++ (s.outputs ++ [samples i]).map fun t => [t] := by
      simp [Model.forward, hcalls]
    split
    · exact ⟨hnext, hfed⟩
    · exact ih hnext hfed

end Model

theorem commonPrefix_take (ts us : List Int) :
    ts.take (commonPrefix ts us) = us.take (commonPrefix ts us) ∧ commonPrefix ts us ≤ us.length := by
  fun_induction commonPrefix ts us with
  | case1 t ts us ih =>
    exact ⟨by rw [List.take_succ_cons, List.take_succ_cons, ih.1], by simpa using ih.2⟩
  | case2 t ts u us hne => simp
  | case3 ts us => simp

/-- Nothing is left exactly when the cached text starts with the prompt. -/
theorem drop_commonPrefix_eq_nil (ts us : List Int) : ts.drop (commonPrefix ts us) = [] ↔ ts <+: us := by
  fun_induction commonPrefix ts us with
  | case1 t ts us ih => rw [List.drop_succ_cons, ih, List.prefix_cons_inj]
  | case2 t ts u us hne => simp [List.cons_prefix_cons, hne]
  | case3 ts us hno =>
    cases ts with
    | nil => simp
    | cons t ts =>
      cases us with
      | nil => simp
      | cons u us => exact absurd rfl (hno t ts u us rfl)

namespace Runner

variable {m : Model κ ν}

def cachedTokens (r : Runner κ ν) : List Int := (r.cache.map (·.tokens)).getD []

/-- The cached text is not empty, and the caches hold its rows. -/
def Synced (m : Model κ ν) (r : Runner κ ν) : Prop :=
  ∀ entry, r.cache = some entry → entry.tokens ≠ [] ∧ m.Caching entry.caches entry.tokens

/-- A hit gives the caches of what is not left, and a miss leaves everything. -/
theorem findNearestCache_spec {r : Runner κ ν} (h : Synced m r) (tokens : List Int) :
    ∃ k ≤ tokens.length, (r.findNearestCache tokens).2.2 = tokens.drop k ∧
      (((r.findNearestCache tokens).2.1 = [] ∧ k = 0) ∨
        (0 < k ∧ m.Caching (r.findNearestCache tokens).2.1 (tokens.take k))) ∧
      (tokens ≠ [] → (tokens.drop k = [] ↔ tokens <+: r.cachedTokens)) := by
  unfold findNearestCache cachedTokens
  cases hcache : r.cache with
  | none =>
    refine ⟨0, Nat.zero_le _, rfl, Or.inl ⟨rfl, rfl⟩, fun hne => ?_⟩
    simp [hne]
  | some entry =>
    obtain ⟨-, hentry⟩ := h entry hcache
    obtain ⟨htake, hle⟩ := commonPrefix_take tokens entry.tokens
    have hnil := drop_commonPrefix_eq_nil tokens entry.tokens
    simp only [Option.map_some, Option.getD_some]
    generalize commonPrefix tokens entry.tokens = common at htake hle hnil ⊢
    by_cases hzero : common = 0
    · rw [if_pos hzero]
      refine ⟨0, Nat.zero_le _, rfl, Or.inl ⟨rfl, rfl⟩, fun _ => ?_⟩
      rw [← hnil, hzero]
    · rw [if_neg hzero]
      have hlen : common ≤ tokens.length := by
        have := congrArg List.length htake
        rw [List.length_take, List.length_take] at this
        omega
      by_cases htrim : common < entry.tokens.length
      · rw [if_pos htrim]
        refine ⟨common, hlen, rfl, Or.inr ⟨Nat.pos_of_ne_zero hzero, ?_⟩, fun _ => hnil⟩
        have hkept := hentry.trim (entry.tokens.length - common)
        rwa [show entry.tokens.length - (entry.tokens.length - common) = common by omega, ← htake] at hkept
      · rw [if_neg htrim]
        refine ⟨common, hlen, rfl, Or.inr ⟨Nat.pos_of_ne_zero hzero, ?_⟩, fun _ => hnil⟩
        rw [htake, List.take_of_length_le (by omega)]
        exact hentry

/-- The caches that a request starts with. -/
theorem starting {r : Runner κ ν} {inputs : List Int} {k : Nat}
    (h : ((r.findNearestCache inputs).2.1 = [] ∧ k = 0) ∨
      (0 < k ∧ m.Caching (r.findNearestCache inputs).2.1 (inputs.take k))) :
    m.Caching (if (r.findNearestCache inputs).2.1.length = 0 then m.newCaches
      else (r.findNearestCache inputs).2.1) (inputs.take k) := by
  rcases h with ⟨hmiss, rfl⟩ | ⟨-, hhit⟩
  · rw [hmiss, List.length_nil, if_pos rfl]
    exact m.caching_new
  · split
    · rename_i hlen
      -- A model without layers has no caches to find, and makes none.
      have hzero : m.numLayers = 0 := by rw [← hhit.length, hlen]
      rw [Model.newCaches, hzero, List.replicate_zero, ← List.length_eq_zero_iff.mp hlen]
      exact hhit
    · exact hhit

/-- One request: it ends, it caches its prompt and its outputs, and it evaluates what was left of the
prompt and then each output. It calls the model without a token if nothing was left. -/
theorem request_spec {r : Runner κ ν} (h : Synced m r) (q : Request) :
    ∃ outputs caches calls responses,
      m.textGenerationPipeline r q = some (insertCache (q.inputs ++ outputs) caches, calls, responses) ∧
      m.Caching caches (q.inputs ++ outputs) ∧
      calls.flatten = (r.findNearestCache q.inputs).2.2 ++ outputs ∧
      ((∀ call ∈ calls, call ≠ []) ↔ (r.findNearestCache q.inputs).2.2 ≠ []) := by
  obtain ⟨k, hk, hrest, hcaches, -⟩ := findNearestCache_spec h q.inputs
  have hstart := starting hcaches
  unfold Model.textGenerationPipeline
  simp only
  generalize (if (r.findNearestCache q.inputs).2.1.length = 0 then m.newCaches
    else (r.findNearestCache q.inputs).2.1) = caches at hstart ⊢
  generalize (r.findNearestCache q.inputs).2.2 = tokens at hrest ⊢
  -- The pass before the sampling loop.
  obtain ⟨processed, pass, hprefill, hpass, hflat, hsome⟩ : ∃ processed pass,
      m.prefill tokens tokens.length 0 ⟨caches, []⟩ = some (processed, pass) ∧
      m.Caching (m.forward pass (tokens.drop processed)).caches q.inputs ∧
      (m.forward pass (tokens.drop processed)).calls.flatten = tokens ∧
      ((∀ call ∈ (m.forward pass (tokens.drop processed)).calls, call ≠ []) ↔ tokens ≠ []) := by
    by_cases hnil : tokens = []
    · subst hnil
      refine ⟨0, ⟨caches, []⟩, rfl, ?_, rfl, by simp [Model.forward]⟩
      have hempty : m.Caching (Model.Pass.mk caches []).caches (q.inputs.take k) := hstart
      have hall := hempty.forward []
      rwa [List.append_nil, List.take_of_length_le (List.drop_eq_nil_iff.mp hrest.symm)] at hall
    · have hpos : 0 < tokens.length := List.length_pos_iff.mpr hnil
      have h0 : m.Evaluated (q.inputs.take k) tokens 0 ⟨caches, []⟩ :=
        ⟨by simpa using hstart, by simp, by simp⟩
      obtain ⟨pass, hprefill, heval⟩ := Model.prefill_spec tokens.length h0 hpos (Nat.le_refl _)
      have hlast := heval.forward (n := 1) Nat.one_pos (by omega)
      have htake : (tokens.drop (tokens.length - 1)).take 1 = tokens.drop (tokens.length - 1) :=
        List.take_of_length_le (by rw [List.length_drop]; omega)
      rw [htake, show tokens.length - 1 + 1 = tokens.length by omega] at hlast
      refine ⟨_, pass, hprefill, ?_, ?_, fun _ => hnil, fun _ => hlast.some⟩
      · have hall := hlast.caching
        rwa [List.take_length, hrest, List.take_append_drop, ← hrest] at hall
      · rw [hlast.calls, List.take_length]
  rw [hprefill, Option.map_some]
  obtain ⟨hcaching, hcalls⟩ := Model.generate_spec (m := m) q.samples
    (m.forward pass (tokens.drop processed)).calls q.maxTokens (i := 0)
    (s := ⟨m.forward pass (tokens.drop processed), [], [],
      ⟨0, true, 1, tokens.length, q.maxTokens⟩⟩) (by simpa using hpass) (by simp)
  refine ⟨_, _, _, _, rfl, hcaching, ?_, ?_⟩
  · rw [hcalls, List.flatten_append, hflat]
    congr 1
    rw [← List.flatMap_def, List.flatMap_singleton']
  · rw [hcalls, ← hsome]
    simp [or_imp, forall_and]

/-! ## Runs -/

/-- A server that takes one request after another. -/
def serve (m : Model κ ν) (r : Runner κ ν) (q : Request) : Option (Runner κ ν) :=
  (m.textGenerationPipeline r q).map (·.1)

/-- A prompt encodes to some tokens. -/
def Prompted (_ : Runner κ ν) (q : Request) : Prop := q.inputs ≠ []

instance (r : Runner κ ν) (q : Request) : Decidable (Prompted r q) := by
  unfold Prompted; infer_instance

theorem Synced.serve {r r' : Runner κ ν} (h : Synced m r) {q : Request} (hq : Prompted r q)
    (hs : serve m r q = some r') : Synced m r' := by
  obtain ⟨outputs, caches, calls, responses, hrun, hcaching, -⟩ := request_spec h q
  unfold Runner.serve at hs
  rw [hrun, Option.map_some, Option.some.injEq] at hs
  subst hs
  intro entry hentry
  simp only [insertCache, Option.some.injEq] at hentry
  subst hentry
  exact ⟨fun he => hq (List.append_eq_nil_iff.mp he).1, hcaching⟩

theorem synced_of_reaches {r : Runner κ ν} (h : Reaches (serve m) Prompted (· = {}) r) : Synced m r := by
  refine h.invariant ?_ fun r q r' hr hq hs => hr.serve hq hs
  rintro r rfl entry hentry
  cases hentry

/-- There is a cache for each layer, and all of them show the rows of exactly these tokens. -/
def Shows (m : Model κ ν) (caches : List (KVCache κ ν)) (tokens : List Int) : Prop :=
  caches.length = m.numLayers ∧ ∀ layer c, caches[layer]? = some c →
    c.offset = tokens.length ∧ c.state = some (m.keysOf layer tokens, m.valuesOf layer tokens)

theorem shows_of_caching {caches : List (KVCache κ ν)} {tokens : List Int} (h : m.Caching caches tokens)
    (hne : tokens ≠ []) : Shows m caches tokens :=
  ⟨h.length, fun _ _ hc => h.state hne hc⟩

/-- Between requests the caches are those of the cached text, and what is found for a prompt fits it.
The model is called with some tokens each time, what is left of the prompt first, unless the
cached text starts with the prompt. -/
theorem prefix_cache_synced {r : Runner κ ν} (h : Reaches (serve m) Prompted (· = {}) r) :
    (∀ entry, r.cache = some entry → Shows m entry.caches entry.tokens) ∧
    ∀ q : Request, q.inputs ≠ [] →
      let found := r.findNearestCache q.inputs
      let reused := q.inputs.take (q.inputs.length - found.2.2.length)
      (reused ++ found.2.2 = q.inputs ∧
        (found.2.1 = [] ∧ reused = [] ∨ Shows m found.2.1 reused)) ∧
      ∃ r' calls responses, m.textGenerationPipeline r q = some (r', calls, responses) ∧
        (((∀ call ∈ calls, call ≠ []) ∧ found.2.2 ≠ [] ∧ found.2.2 <+: calls.flatten) ↔
          ¬ q.inputs <+: r.cachedTokens) := by
  have hsync := synced_of_reaches h
  refine ⟨fun entry hentry => shows_of_caching (hsync entry hentry).2 (hsync entry hentry).1, fun q hq => ?_⟩
  obtain ⟨k, hk, hrest, hcaches, hnil⟩ := findNearestCache_spec hsync q.inputs
  obtain ⟨outputs, caches, calls, responses, hrun, -, hflat, hsome⟩ := request_spec hsync q
  simp only
  have hlen : q.inputs.length - (r.findNearestCache q.inputs).2.2.length = k := by
    rw [hrest, List.length_drop]
    omega
  rw [hlen]
  refine ⟨⟨by rw [hrest, List.take_append_drop], ?_⟩, _, calls, responses, hrun, ?_⟩
  · rcases hcaches with ⟨hmiss, rfl⟩ | ⟨hpos, hhit⟩
    · exact Or.inl ⟨hmiss, List.take_zero⟩
    · refine Or.inr (shows_of_caching hhit fun he => ?_)
      rcases List.take_eq_nil_iff.mp he with h0 | h0
      · omega
      · exact hq h0
  · rw [← hnil hq, ← hrest, hsome]
    constructor
    · exact fun hgood => hgood.1
    · exact fun hgood => ⟨hgood, hgood, hflat ▸ List.prefix_append ..⟩

/-- Two layers, rows that name their token, and a text that ends at 0. -/
def plainModel : Model (Nat × Nat × Int) Int :=
  ⟨2, fun layer i t => (layer, i, t), fun _ _ t => t, (0, 0, 0), 0, (· == 0)⟩

/-- A prompt, and a second one that goes on differently after the first token. -/
def branchedRun : List Request :=
  [⟨[5, 6, 7], fun i => if i = 1 then 0 else 9, 4⟩, ⟨[5, 8], fun _ => 3, 2⟩]

theorem branchedRun_synced : ∃ r : Runner (Nat × Nat × Int) Int,
    Reaches (serve plainModel) Prompted (· = {}) r ∧ r.cachedTokens = [5, 8, 3, 3] ∧
    (∀ entry, r.cache = some entry → Shows plainModel entry.caches entry.tokens) ∧
    ∃ r' calls responses, plainModel.textGenerationPipeline r ⟨[5, 8, 4], fun _ => 0, 1⟩ =
        some (r', calls, responses) ∧ ∀ call ∈ calls, call ≠ [] := by
  let r := (exec (serve plainModel) {} branchedRun).get (by decide +kernel)
  have hr : Reaches (serve plainModel) Prompted (· = {}) r :=
    reaches_of_exec (Reaches.init rfl) (by decide +kernel : Checked _ _ _ branchedRun) (Option.some_get _).symm
  obtain ⟨hshows, hnext⟩ := prefix_cache_synced hr
  obtain ⟨-, r', calls, responses, hrun, hiff⟩ := hnext ⟨[5, 8, 4], fun _ => 0, 1⟩ (by decide)
  exact ⟨r, hr, by decide +kernel, hshows, r', calls, responses, hrun, (hiff.mpr (by decide +kernel)).1⟩

/-- The same prompt twice: nothing is left to evaluate, and the model is called without a token. -/
theorem repeatedPrompt_empty : ¬ ∀ (r : Runner (Nat × Nat × Int) Int),
    Reaches (serve plainModel) Prompted (· = {}) r → ∀ q : Request, q.inputs ≠ [] →
      (r.findNearestCache q.inputs).2.2 ≠ [] := by
  intro hall
  let r := (exec (serve plainModel) {} [⟨[5], fun _ => 0, 1⟩]).get (by decide +kernel)
  have hr : Reaches (serve plainModel) Prompted (· = {}) r :=
    reaches_of_exec (Reaches.init rfl) (by decide +kernel : Checked _ _ _ [⟨[5], fun _ => 0, 1⟩])
      (Option.some_get _).symm
  exact hall r hr ⟨[5], fun _ => 0, 1⟩ (by decide) (by decide +kernel)

end Runner

end Xdragon.Mlx
