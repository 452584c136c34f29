import Mathlib.Data.List.Infix
import Xdragon.Ggml.Decode

/-!
# The types of quantised tensors

`newType` of `server/quantization.go`.
-/

namespace Xdragon.Server.Quantization

open Xdragon.Lib Xdragon.Gguf Xdragon.Ggml Xdragon.Ggml.TensorType

/-- The file types that `ParseFileType` accepts. -/
inductive FileType
  | f32
  | f16
  | q8_0
  | q4_K_S
  | q4_K_M
  | bf16
deriving DecidableEq

def FileType.toTensorType : FileType → UInt32
  | f32 => TensorType.f32
  | f16 => TensorType.f16
  | q8_0 => TensorType.q8_0
  | q4_K_S => q4_K
  | q4_K_M => q4_K
  | bf16 => TensorType.bf16

def isQuantized (t : UInt32) : Bool := decide (t ∉ [f32, f16, bf16])

structure QuantizeState where
  nAttnV : Nat
  nFfnDown : Nat
  iAttnV : Nat := 0
  iFfnDown : Nat := 0
  hasOutput : Bool := false

def useMoreBits (iLayer nLayers : Nat) : Bool :=
  iLayer < nLayers / 8 || iLayer ≥ 7 * nLayers / 8 || (iLayer - nLayers / 8) % 3 == 2

/-- The suffixes of `qwen3nextQuantType`. -/
def qwen3nextTypes : List (String × UInt32) :=
  [(".attn_q.weight", q4_K), (".attn_k.weight", q4_K), (".attn_v.weight", q6_K), (".attn_output.weight", q4_K),
    (".attn_qkv.weight", q4_K), (".attn_gate.weight", q4_K), (".ssm_ba.weight", q4_K), (".ssm_out.weight", q4_K),
    (".ffn_down_exps.weight", q6_K), (".ffn_down_shexp.weight", q6_K), (".ffn_gate_exps.weight", q4_K),
    (".ffn_gate_shexp.weight", q4_K), (".ffn_up_exps.weight", q4_K), (".ffn_up_shexp.weight", q4_K)]

def qwen3nextQuantType (name : Bytes) : Option UInt32 :=
  (qwen3nextTypes.find? fun s => decide (ascii s.1 <:+ name)).map Prod.snd

def contains (name : Bytes) (s : String) : Bool := decide (ascii s <:+: name)

/-- The chain of `getTensorNewType` over the name. -/
def adjust (nExperts : UInt32) (qs : QuantizeState) (newType : UInt32) (name : Bytes) (nx : UInt64) (ftype : FileType) :
    UInt32 × QuantizeState :=
  if name = ascii "output.weight" ∨ name = ascii "output_norm.weight" ∨ !qs.hasOutput ∧ name = ascii "token_embd.weight" then
    (if nx % blockSize newType ≠ 0 then q8_0 else if newType ≠ q8_0 then q6_K else newType, qs)
  else if contains name "attn_v.weight" then
    let moreBits :=
      if ftype = .q4_K_M ∧ useMoreBits qs.iAttnV qs.nAttnV then q6_K
      else if ftype = .q4_K_S ∧ qs.iAttnV < 4 then q5_K
      else newType
    (if nExperts = 8 then q8_0 else moreBits, { qs with iAttnV := qs.iAttnV + 1 })
  else if contains name "attn_k.weight" then (if nExperts = 8 then q8_0 else newType, qs)
  else if ["attn_k_b.weight", "attn_v_b.weight", "attn_kv_a_mqa.weight", "attn_q_a.weight", "attn_q_b.weight"].any
      (contains name) then (q8_0, qs)
  else if contains name "ffn_down" then
    (if ftype = .q4_K_M then if useMoreBits qs.iFfnDown qs.nFfnDown then q6_K else newType
      else if ftype = .q4_K_S ∧ qs.iFfnDown < qs.nFfnDown / 8 then q5_K
      else newType, { qs with iFfnDown := qs.iFfnDown + 1 })
  else if contains name "attn_output.weight" then
    (if nExperts = 8 ∧ (ftype = .q4_K_S ∨ ftype = .q4_K_M) then q5_K else newType, qs)
  else if contains name "attn_qkv.weight" then (if ftype = .q4_K_M then q5_K else newType, qs)
  else (newType, qs)

/-- What is taken for a type whose blocks do not fit. -/
def fallbackType (newType : UInt32) : UInt32 :=
  if newType = q4_K then q5_0 else if newType = q5_K then q5_1 else if newType = q6_K then q8_0 else newType

/-- The end of `getTensorNewType`, where the first dimension decides. -/
def fallback (newType : UInt32) (nx : UInt64) : UInt32 :=
  if isQuantized newType ∧ nx % blockSize newType ≠ 0 then
    if nx % blockSize (fallbackType newType) ≠ 0 then f16 else fallbackType newType
  else newType

/-- `shape[0]`, which is only read of shapes that have two dimensions. -/
def firstDim (shape : List UInt64) : UInt64 := shape.headD 0

def getTensorNewType (kv : KV) (qs : QuantizeState) (newType : UInt32) (name : Bytes) (shape : List UInt64)
    (ftype : FileType) : UInt32 × QuantizeState :=
  let r := adjust (max 1 (kv.uint (ascii "expert_count") 0)) qs newType name (firstDim shape) ftype
  (fallback r.1 (firstDim shape), r.2)

/-- Parts of the names of weights that are not quantised. -/
def keptParts : List String :=
  ["mm.", "_norm.weight", "ffn_gate_inp.weight", "ffn_gate_inp_shexp.weight", "ssm_conv1d.weight", "shortconv.conv.weight",
    "time_mix_first.weight", "time_mix_w1.weight", "time_mix_w2.weight", "time_mix_decay_w1.weight",
    "time_mix_decay_w2.weight", "time_mix_lerp_fused.weight", "attn_rel_b.weight", "per_layer_token_embd.weight"]

/-- `quantize` in `newType`. -/
def quantizes (t : TensorInfo) : Bool :=
  decide (ascii "weight" <:+ t.name ∧ ¬ ascii "v." <+: t.name ∧ t.shape.length ≥ 2 ∧ t.name ≠ ascii "position_embd.weight" ∧
    t.name ≠ ascii "token_types.weight") && !keptParts.any (contains t.name)

/-- The type that is taken for a tensor of qwen3next. -/
def earlyType (t : TensorInfo) (kv : KV) (ftype : FileType) : Option UInt32 :=
  if kv.architecture = ascii "qwen3next" ∧ (ftype = .q4_K_M ∨ ftype = .q4_K_S) then qwen3nextQuantType t.name else none

def newType (t : TensorInfo) (kv : KV) (qs : QuantizeState) (ftype : FileType) : UInt32 × QuantizeState :=
  if quantizes t then
    match earlyType t kv ftype with
    | some qt => (qt, qs)
    | none => getTensorNewType kv qs ftype.toTensorType t.name t.shape ftype
  else (t.kind, qs)

/-! ## Whole blocks -/

/-- A row is a whole number of blocks. -/
def WholeBlocks (nx : UInt64) (type : UInt32) : Prop :=
  type = f32 ∨ type = f16 ∨ type = bf16 ∨ isQuantized type ∧ nx % blockSize type = 0

/-- The type is the tensor's own, or one that fits its first dimension. -/
def Fits (t : TensorInfo) (type : UInt32) : Prop := type = t.kind ∨ WholeBlocks (firstDim t.shape) type

theorem wholeBlocks_of_mod {nx : UInt64} {type : UInt32} (h : isQuantized type → nx % blockSize type = 0) :
    WholeBlocks nx type := by
  by_cases hq : isQuantized type
  · exact .inr (.inr (.inr ⟨hq, h hq⟩))
  · simp only [isQuantized, decide_eq_true_eq, not_not, List.mem_cons, List.not_mem_nil, or_false] at hq
    rcases hq with h | h | h
    · exact .inl h
    · exact .inr (.inl h)
    · exact .inr (.inr (.inl h))

theorem fallback_fits (type : UInt32) (nx : UInt64) : WholeBlocks nx (fallback type nx) := by
  unfold fallback
  by_cases h : isQuantized type ∧ nx % blockSize type ≠ 0
  · rw [if_pos h]
    by_cases hlower : nx % blockSize (fallbackType type) ≠ 0
    · rw [if_pos hlower]
      exact .inr (.inl rfl)
    · rw [if_neg hlower]
      exact wholeBlocks_of_mod fun _ => not_not.mp hlower
  · rw [if_neg h]
    exact wholeBlocks_of_mod fun hq => by_contra fun hmod => h ⟨hq, hmod⟩

/-- The types of the list come in blocks of 256. -/
theorem qwen3next_fits_iff {name : Bytes} {qt : UInt32} (h : qwen3nextQuantType name = some qt) (nx : UInt64) :
    WholeBlocks nx qt ↔ nx % 256 = 0 := by
  obtain ⟨s, hs, rfl⟩ := Option.map_eq_some_iff.mp h
  have hlist : ∀ s ∈ qwen3nextTypes, s.2 ≠ f32 ∧ s.2 ≠ f16 ∧ s.2 ≠ bf16 ∧ isQuantized s.2 = true ∧ blockSize s.2 = 256 := by
    decide
  obtain ⟨h32, h16, hbf16, hq, hsize⟩ := hlist s (List.mem_of_find?_eq_some hs)
  simp only [WholeBlocks, h32, h16, hbf16, hq, hsize, false_or, true_and]

/-- The type that is chosen fits, unless it is one of qwen3next and the first dimension is not a multiple of 256. -/
theorem newType_fits_iff (t : TensorInfo) (kv : KV) (qs : QuantizeState) (ftype : FileType) :
    Fits t (newType t kv qs ftype).1 ↔ ¬ (quantizes t ∧ kv.architecture = ascii "qwen3next" ∧
      (ftype = .q4_K_M ∨ ftype = .q4_K_S) ∧ ∃ qt, qwen3nextQuantType t.name = some qt ∧ qt ≠ t.kind ∧
        firstDim t.shape % 256 ≠ 0) := by
  unfold newType
  by_cases hq : quantizes t
  · rw [if_pos hq]
    cases he : earlyType t kv ftype with
    | none =>
      refine iff_of_true (.inr (fallback_fits _ _)) ?_
      rintro ⟨-, harch, hftype, qt, hqt, -⟩
      rw [earlyType, if_pos ⟨harch, hftype⟩, hqt] at he
      cases he
    | some qt =>
      unfold earlyType at he
      split_ifs at he with hqwen
      simp only [Fits, qwen3next_fits_iff he, hq, hqwen, he, true_and, Option.some.injEq, exists_eq_left', not_and_or, not_not]
  · rw [if_neg hq]
    exact iff_of_true (.inl rfl) fun h => hq h.1

def qwen3next : KV := AList.insert (ascii "general.architecture") (.datum (.string (ascii "qwen3next"))) ∅

def narrowQuery : TensorInfo := ⟨ascii "blk.0.attn_q.weight", [128, 4], f16, 0⟩

/-- Rows of 128 elements in blocks of 256. -/
theorem narrowQuery_misfit : ¬ Fits narrowQuery (newType narrowQuery qwen3next ⟨1, 1, 0, 0, true⟩ .q4_K_M).1 := by
  have hq : quantizes narrowQuery := by decide +kernel
  have he : earlyType narrowQuery qwen3next .q4_K_M = some q4_K := by decide +kernel
  rw [newType, if_pos hq, he]
  unfold Fits WholeBlocks
  decide

end Xdragon.Server.Quantization
