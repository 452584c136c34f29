import Xdragon.Lib.Replace
import Xdragon.Lib.Shards
import Xdragon.XTokenizer.Chunks

/-!
# Encoding in parallel

`Tokenizer.Encode` of `x/tokenizer/tokenizer_encode.go`. The goroutines share nothing but the slots of their results, so a run of
them is an order in which they write these.
-/

namespace Xdragon.XTokenizer

open Xdragon.Lib

def encodeParallelMinInputBytes : Nat := 4 * 1024
def encodeParallelMinChunksPerWorker : Nat := 8

/-- The rune for a byte. -/
def byteToRune (b : UInt8) : Char :=
  let r := b.toNat
  if r = 0x00ad then Char.ofNat 0x0143
  else if r ≤ 0x0020 then Char.ofNat (r + 0x0100)
  else if r ≥ 0x007f ∧ r ≤ 0x00a0 then Char.ofNat (r + 0x00a2)
  else Char.ofNat r

namespace Tokenizer

section
variable (t : Tokenizer) (heap : Heap BpePair lessBpePair)

def encodeChunkInto (s : Bytes) (ids : List Int) : List Int :=
  if s = [] then ids
  else
    let encoded := match t.typ with
      | .sentencePiece => replaceAll s (ascii " ") (ofRunes ['\u2581'])
      | .bpe => ofRunes (s.map byteToRune)
    match t.vocab.reverse encoded with
    | some id => ids ++ [id]
    | none => encodeBPEMerge t.vocab heap t.typ encoded ids

def appendEncodedChunk (ids : List Int) (c : EncodeChunk) : List Int :=
  if c.isSpecial then
    match t.specialTokens.lookup c.text with
    | some id => ids ++ [id]
    | none => ids
  else t.encodeChunkInto heap c.text ids

/-- The calls of `forEachPartChunk` for the parts, one after another. -/
def forEachPart {σ : Type} (fn : σ → EncodeChunk → σ) : List Bytes → σ → Option σ
  | [], st => some st
  | part :: parts, st => (t.forEachPartChunk part fn st).bind (forEachPart fn parts)

/-- The results of the workers, which finish in the order that `schedule` gives for their number. -/
def encodeParallel (schedule : Nat → List Nat) (numWorkers : Nat) (allChunks : List EncodeChunk) : List Int :=
  let chunksPer := (allChunks.length + numWorkers - 1) / numWorkers
  let first (i : Nat) := i * chunksPer
  let last (i : Nat) := if first i + chunksPer > allChunks.length then allChunks.length else first i + chunksPer
  let results := writeSlots (fun i => decide (first i ≥ last i))
    (fun i => ((allChunks.drop (first i)).take (last i - first i)).foldl (t.appendEncodedChunk heap) [])
    (schedule numWorkers) (List.replicate numWorkers [])
  results.foldl (fun ids r => ids ++ r) []

/-- The id of the start of a sequence comes first, if there is one. -/
def withBOS (addBOS : Bool) (ids : List Int) : List Int := if addBOS ∧ t.bos ≥ 0 then t.bos :: ids else ids

def encode (arrange : List Bytes → List Bytes) (maxProcs : Nat) (schedule : Nat → List Nat) (s : Bytes) (addBOS : Bool) :
    Option (List Int) := do
  let parts ← t.splitBySpecialTokens arrange s
  if s.length < encodeParallelMinInputBytes then
    let ids ← t.forEachPart (t.appendEncodedChunk heap) parts []
    return t.withBOS addBOS ids
  let allChunks ← t.forEachPart (fun chunks c => chunks ++ [c]) parts []
  let numWorkers := if maxProcs > allChunks.length then allChunks.length else maxProcs
  let useParallel := ¬ (numWorkers < 2 ∨ allChunks.length < numWorkers * encodeParallelMinChunksPerWorker)
  let ids := if useParallel then t.encodeParallel heap schedule numWorkers allChunks
    else allChunks.foldl (t.appendEncodedChunk heap) []
  return t.withBOS addBOS ids

end

/-! ## Encodings of chunks -/

section
variable (t : Tokenizer) (heap : Heap BpePair lessBpePair)

/-- A loop that only appends. -/
theorem foldl_append_of {α β : Type} {f : List β → α → List β} (hf : ∀ ids x, f ids x = ids ++ f [] x) (xs : List α) (ids : List β) :
    xs.foldl f ids = ids ++ xs.flatMap (f []) := by
  induction xs generalizing ids with
  | nil => exact (List.append_nil ids).symm
  | cons x xs ih => rw [List.foldl_cons, ih, hf, List.flatMap_cons, List.append_assoc]

theorem encodeBPEMerge_append (vocab : Vocabulary) (typ : TokenizerType) (encoded : Bytes) (ids : List Int) :
    encodeBPEMerge vocab heap typ encoded ids = ids ++ encodeBPEMerge vocab heap typ encoded [] := by
  unfold encodeBPEMerge
  rw [foldl_append_of, foldl_append_of _ _ [], List.nil_append]
  all_goals
    intro ids node
    split_ifs
    · exact (List.append_nil ids).symm
    · cases vocab.reverse node.token with
      | some id => rfl
      | none => rfl

theorem appendEncodedChunk_append (ids : List Int) (c : EncodeChunk) :
    t.appendEncodedChunk heap ids c = ids ++ t.appendEncodedChunk heap [] c := by
  unfold appendEncodedChunk encodeChunkInto
  split_ifs
  · cases t.specialTokens.lookup c.text with
    | some id => rfl
    | none => exact (List.append_nil ids).symm
  · exact (List.append_nil ids).symm
  · dsimp only
    split
    · rfl
    · exact encodeBPEMerge_append heap ..

/-- The ids of a list of chunks. -/
def encodings (chunks : List EncodeChunk) : List Int := chunks.flatMap (t.appendEncodedChunk heap [])

theorem foldl_appendEncodedChunk (chunks : List EncodeChunk) :
    chunks.foldl (t.appendEncodedChunk heap) [] = t.encodings heap chunks := by
  rw [foldl_append_of (t.appendEncodedChunk_append heap), List.nil_append]
  rfl

/-- The workers put the ids of the chunks together, whatever their number and their order. -/
theorem encodeParallel_eq {schedule : Nat → List Nat} {numWorkers : Nat}
    (hschedule : (schedule numWorkers).Perm (List.range numWorkers)) (hworkers : 0 < numWorkers) (allChunks : List EncodeChunk) :
    t.encodeParallel heap schedule numWorkers allChunks = t.encodings heap allChunks := by
  have hper : allChunks.length ≤ numWorkers * ((allChunks.length + numWorkers - 1) / numWorkers) := by
    have hdiv := Nat.div_add_mod (allChunks.length + numWorkers - 1) numWorkers
    have hmod := Nat.mod_lt (allChunks.length + numWorkers - 1) hworkers
    omega
  unfold encodeParallel
  dsimp only
  generalize (allChunks.length + numWorkers - 1) / numWorkers = per at hper ⊢
  have hresult : ∀ i, (if (decide (i * per ≥ if i * per + per > allChunks.length then allChunks.length else i * per + per)) = true
      then [] else ((allChunks.drop (i * per)).take ((if i * per + per > allChunks.length then allChunks.length else i * per + per) -
        i * per)).foldl (t.appendEncodedChunk heap) []) = t.encodings heap (shard per allChunks i) := by
    intro i
    have hlen : (allChunks.drop (i * per)).length = allChunks.length - i * per := List.length_drop
    have hshard : (allChunks.drop (i * per)).take
        ((if i * per + per > allChunks.length then allChunks.length else i * per + per) - i * per) = shard per allChunks i := by
      unfold shard
      split_ifs
      · rw [List.take_of_length_le (by omega), List.take_of_length_le (by omega)]
      · rw [Nat.add_sub_cancel_left]
    rw [hshard, foldl_appendEncodedChunk]
    by_cases hidle : i * per ≥ if i * per + per > allChunks.length then allChunks.length else i * per + per
    · -- a worker without chunks is not started
      rw [if_pos (decide_eq_true hidle)]
      have hnil : shard per allChunks i = [] := by
        apply List.eq_nil_of_length_eq_zero
        rw [shard, List.length_take, hlen]
        split_ifs at hidle <;> omega
      rw [hnil]
      rfl
    · rw [if_neg fun h => hidle (of_decide_eq_true h)]
  rw [writeSlots_eq hschedule, foldl_append_of (f := fun ids r => ids ++ r) fun ids r => by rw [List.nil_append], List.nil_append,
    List.map_congr_left fun i _ => hresult i, List.flatMap_map]
  have hcut : (List.range numWorkers).flatMap (fun i => [] ++ t.encodings heap (shard per allChunks i)) =
      t.encodings heap ((List.range numWorkers).flatMap (shard per allChunks)) := by
    rw [encodings, List.flatMap_assoc]
    rfl
  rw [hcut, flatMap_shards hper]

/-! ## The three paths -/

theorem forEachPart_spec {parts : List Bytes} (htile : ∀ re ∈ t.pretokenizer, ∀ part ∈ parts, Tiles re.find part) :
    ∃ chunks : List EncodeChunk, (chunks.map (·.text)).flatten = parts.flatten ∧
      ∀ {σ : Type} (fn : σ → EncodeChunk → σ) (st : σ), t.forEachPart fn parts st = some (chunks.foldl fn st) := by
  induction parts with
  | nil => exact ⟨[], rfl, fun fn st => rfl⟩
  | cons part parts ih =>
    obtain ⟨chunks, hchunks, hcalls⟩ := t.forEachPartChunk_spec fun re hre => htile re hre part (List.mem_cons_self ..)
    obtain ⟨rest, hrest, hcalls'⟩ := ih fun re hre p hp => htile re hre p (List.mem_cons_of_mem _ hp)
    refine ⟨chunks ++ rest, ?_, fun fn st => ?_⟩
    · rw [List.map_append, List.flatten_append, hchunks, hrest, List.flatten_cons]
    · rw [forEachPart, hcalls, Option.bind_some, hcalls', List.foldl_append]

/-- The chunks of a text. -/
def chunks (arrange : List Bytes → List Bytes) (s : Bytes) : Option (List EncodeChunk) :=
  (t.splitBySpecialTokens arrange s).bind fun parts => t.forEachPart (fun chunks c => chunks ++ [c]) parts []

/-- The three paths encode the same chunks, and these make up the text. -/
theorem encode_eq (hspecial : ∀ tok ∈ t.specialTokens.map Prod.fst, tok ≠ []) {arrange : List Bytes → List Bytes}
    (harrange : ∀ keys, (arrange keys).Perm keys) (maxProcs : Nat) {schedule : Nat → List Nat}
    (hschedule : ∀ n, (schedule n).Perm (List.range n)) (s : Bytes)
    (htile : ∀ re ∈ t.pretokenizer, ∀ parts ∈ t.splitBySpecialTokens arrange s, ∀ part ∈ parts, Tiles re.find part) (addBOS : Bool) :
    ∃ chunks, t.chunks arrange s = some chunks ∧
      t.encode heap arrange maxProcs schedule s addBOS = some (t.withBOS addBOS (t.encodings heap chunks)) ∧
      (chunks.map (·.text)).flatten = s := by
  obtain ⟨parts, hparts, hflat⟩ := t.splitBySpecialTokens_spec hspecial harrange s
  obtain ⟨chunks, hchunks, hcalls⟩ := t.forEachPart_spec fun re hre => htile re hre parts hparts
  have hcollect : chunks.foldl (fun chunks c => chunks ++ [c]) [] = chunks := by
    rw [foldl_append_of (f := fun chunks (c : EncodeChunk) => chunks ++ [c]) fun chunks c => rfl, List.nil_append]
    exact List.flatMap_singleton' chunks
  refine ⟨chunks, ?_, ?_, by rw [hchunks, hflat]⟩
  · rw [Tokenizer.chunks, hparts, Option.bind_some, hcalls, hcollect]
  · have hfold := t.foldl_appendEncodedChunk heap chunks
    have hids : ∀ numWorkers, (if ¬ (numWorkers < 2 ∨ chunks.length < numWorkers * encodeParallelMinChunksPerWorker) then
        t.encodeParallel heap schedule numWorkers chunks else t.encodings heap chunks) = t.encodings heap chunks := by
      intro numWorkers
      split_ifs
      · rfl
      · exact t.encodeParallel_eq heap (hschedule _) (by omega) chunks
    unfold encode
    simp only [hparts, hcalls, hcollect, hfold, hids, Option.bind_eq_bind, Option.bind_some, Option.pure_def, ite_self]

end

end Tokenizer

/-- The pattern ` +|[^ ]+`, and the letters of ASCII. -/
def spacesOrWord : Pretokenizer where
  find
    | [] => none
    | x :: s => some (0, (s.takeWhile fun y => (y = 0x20) = (x = 0x20)).length + 1)
  isLetter := Char.isAlpha

theorem tiles_spacesOrWord (s : Bytes) : Tiles spacesOrWord.find s := by
  induction hn : s.length using Nat.strongRecOn generalizing s with
  | _ n ih =>
    cases s with
    | nil => exact .done rfl
    | cons x s =>
      have hle := (List.takeWhile_prefix (l := s) fun y => decide ((y = 0x20) = (x = 0x20))).length_le
      refine .more rfl (Nat.succ_pos _) (Nat.succ_le_succ hle) (ih _ ?_ _ rfl)
      rw [← hn, List.length_drop, List.length_cons]
      omega

/-- A tokenizer with one special token. -/
def wordTokenizer : Tokenizer where
  vocab         := noTokens
  pretokenizer  := some spacesOrWord
  specialTokens := [(ascii "<s>", 1)]

/-- A text that is long enough for several workers. -/
theorem encode_long : ∃ chunks, wordTokenizer.chunks id (ascii "<s>" ++ (List.replicate 2000 (ascii "ab  c")).flatten) = some chunks ∧
    wordTokenizer.encode (listHeap _) id 4 (fun n => (List.range n).reverse)
      (ascii "<s>" ++ (List.replicate 2000 (ascii "ab  c")).flatten) true =
        some (wordTokenizer.withBOS true (wordTokenizer.encodings (listHeap _) chunks)) ∧
    (chunks.map (·.text)).flatten = ascii "<s>" ++ (List.replicate 2000 (ascii "ab  c")).flatten :=
  wordTokenizer.encode_eq (listHeap _) (by decide) (fun keys => .refl keys) 4 (fun n => List.reverse_perm _) _
    (fun re hre _ _ part _ => by
      obtain rfl := Option.some.inj hre
      exact tiles_spacesOrWord part) true

end Xdragon.XTokenizer
