import Xdragon.Lib.Tags
import Xdragon.XTokenizer.BpeMerge

/-!
# The chunks of a text

`splitBySpecialTokens` and `forEachPartChunk` of `x/tokenizer/tokenizer_encode.go`. A loop is given a number of turns, and `none`
is a loop that needs more.
-/

namespace Xdragon.XTokenizer

open Xdragon.Lib

/-- `FindStringIndex` of a pattern, and `unicode.IsLetter`. -/
structure Pretokenizer where
  find : Bytes → Option (Nat × Nat)
  isLetter : Char → Bool

/-- A map from special tokens to ids, and the order of its keys that is cached. -/
structure Tokenizer where
  vocab : Vocabulary
  bos : Int := -1
  pretokenizer : Option Pretokenizer := none
  specialTokens : List (Bytes × Int) := []
  sortedSpecialTokens : List Bytes := []
  typ : TokenizerType := .bpe
  sorted_special : ∀ tok ∈ sortedSpecialTokens, tok ∈ specialTokens.map Prod.fst := by decide

structure TokenMatch where
  start : Nat
  stop : Nat

structure EncodeChunk where
  text : Bytes
  isSpecial : Bool
  deriving DecidableEq

def TokenMatch.text (m : TokenMatch) (part : Bytes) : Bytes := (part.drop m.start).take (m.stop - m.start)

def isNewline (r : Rune) : Bool := r.char = some '\n' || r.char = some '\r'

def isNonNewlineWhitespace (s : Bytes) : Bool := s ≠ [] && (runes s).all fun r => !isNewline r && r.isSpace

/-- The start of the last white space of the runes that end at `j`, given from the last one on. -/
def lastSpaceStart (stop : Nat) : Nat → List Rune → Nat
  | _, [] => stop
  | j, r :: rs => if r.isSpace then j - r.bytes.length else lastSpaceStart stop (j - r.bytes.length) rs

def adjustWhitespaceBoundary (isLetter : Char → Bool) (part : Bytes) (curr next : TokenMatch) : TokenMatch × TokenMatch :=
  let m := curr.text part
  let nextText := next.text part
  if isNonNewlineWhitespace m = false ∨ nextText.length = 0 then (curr, next)
  else if (runes nextText).head?.any (fun r => r.char.any isLetter) = false then (curr, next)
  else
    let last := lastSpaceStart curr.stop curr.stop (runes m).reverse
    if last > curr.start then ({ curr with stop := last }, { next with start := last })
    else ({ curr with stop := curr.start }, { next with start := curr.start })

/-- The call of `fn` for a match, unless it is empty. -/
def yieldMatch {σ : Type} (fn : σ → EncodeChunk → σ) (part : Bytes) (curr : TokenMatch) (st : σ) : σ :=
  if curr.stop > curr.start then fn st { text := curr.text part, isSpecial := false } else st

/-- The loop over the matches, `offset` being the end of the last one. -/
def matchLoop {σ : Type} (re : Pretokenizer) (fn : σ → EncodeChunk → σ) (part : Bytes) : Nat → Nat → TokenMatch → σ → Option σ
  | 0, _, _, _ => none
  | n + 1, offset, curr, st =>
    match re.find (part.drop offset) with
    | none => some (yieldMatch fn part curr st)
    | some (start, stop) =>
      let next : TokenMatch := { start := offset + start, stop := offset + stop }
      let (curr, next) := adjustWhitespaceBoundary re.isLetter part curr next
      matchLoop re fn part n (offset + stop) next (yieldMatch fn part curr st)

/-- The next place of a special token, or the length of the text. -/
def nextPos (tokens : List Bytes) (remaining : Bytes) : Nat :=
  tokens.foldl (fun pos tok =>
    match cut tok remaining with
    | some (before, _) => if before.length < pos then before.length else pos
    | none => pos) remaining.length

def splitLoop (tokens : List Bytes) : Nat → Bytes → Option (List Bytes)
  | _, [] => some []
  | 0, _ => none
  | n + 1, remaining =>
    match tokens.find? fun tok => tok <+: remaining with
    | some tok => (splitLoop tokens n (remaining.drop tok.length)).map (tok :: ·)
    | none =>
      let pos := nextPos tokens remaining
      (splitLoop tokens n (remaining.drop pos)).map fun parts => if pos > 0 then remaining.take pos :: parts else parts

namespace Tokenizer

variable (t : Tokenizer)

/-- The state of `fn` after its calls for the chunks of a part. -/
def forEachPartChunk {σ : Type} (part : Bytes) (fn : σ → EncodeChunk → σ) (st : σ) : Option σ :=
  if (t.specialTokens.lookup part).isSome then some (fn st { text := part, isSpecial := true })
  else
    match t.pretokenizer with
    | none => some (fn st { text := part, isSpecial := false })
    | some re =>
      match re.find part with
      | none => some st
      | some (start, stop) => matchLoop re fn part (part.length + 1) stop { start, stop } st

/-- The parts of a text. `arrange` is the order in which the keys of a map are visited, and sorted by their length. -/
def splitBySpecialTokens (arrange : List Bytes → List Bytes) (s : Bytes) : Option (List Bytes) :=
  if t.specialTokens.length = 0 then some [s]
  else
    let tokens := if t.sortedSpecialTokens.length = 0 then arrange (t.specialTokens.map Prod.fst) else t.sortedSpecialTokens
    splitLoop tokens s.length s

end Tokenizer

/-! ## Parts -/

/-- Where no special token starts, the next one is some bytes away. -/
theorem nextPos_pos {tokens : List Bytes} {remaining : Bytes} (hne : remaining ≠ []) (hnone : ∀ tok ∈ tokens, ¬ tok <+: remaining) :
    0 < nextPos tokens remaining := by
  have hfold : ∀ (toks : List Bytes) (pos : Nat), (∀ tok ∈ toks, ¬ tok <+: remaining) → 0 < pos →
      0 < toks.foldl (fun pos tok =>
        match cut tok remaining with
        | some (before, _) => if before.length < pos then before.length else pos
        | none => pos) pos := by
    intro toks
    induction toks with
    | nil => exact fun pos _ hpos => hpos
    | cons tok toks ih =>
      intro pos hnone hpos
      rw [List.foldl_cons]
      apply ih _ fun tok htok => hnone tok (List.mem_cons_of_mem _ htok)
      cases hcut : cut tok remaining with
      | none => exact hpos
      | some q =>
        obtain ⟨before, after⟩ := q
        have hbefore : before ≠ [] := by
          rintro rfl
          apply hnone tok (List.mem_cons_self ..)
          exact ⟨after, (cut_eq_some hcut).1.symm⟩
        have hlength := List.length_pos_iff.mpr hbefore
        dsimp only
        split_ifs
        · exact hlength
        · exact hpos
  exact hfold tokens remaining.length hnone (List.length_pos_iff.mpr hne)

/-- Special tokens that are not empty are cut out without loss, in as many turns as the text has bytes. -/
theorem splitLoop_spec {tokens : List Bytes} (htokens : ∀ tok ∈ tokens, tok ≠ []) {n : Nat} {remaining : Bytes}
    (hn : remaining.length ≤ n) : ∃ parts, splitLoop tokens n remaining = some parts ∧ parts.flatten = remaining := by
  induction n generalizing remaining with
  | zero =>
    obtain rfl := List.length_eq_zero_iff.mp (Nat.le_zero.mp hn)
    exact ⟨[], rfl, rfl⟩
  | succ n ih =>
    cases remaining with
    | nil => exact ⟨[], rfl, rfl⟩
    | cons x rest =>
      rw [splitLoop.eq_3 _ _ _ (List.cons_ne_nil x rest)]
      cases hfind : tokens.find? fun tok => tok <+: x :: rest with
      | some tok =>
        have hpos := List.length_pos_iff.mpr (htokens tok (List.mem_of_find?_eq_some hfind))
        have htok : tok <+: x :: rest := by simpa using List.find?_some hfind
        obtain ⟨parts, hparts, hflat⟩ := @ih ((x :: rest).drop tok.length) (by rw [List.length_drop]; omega)
        refine ⟨tok :: parts, ?_, ?_⟩
        · dsimp only
          rw [hparts]
          rfl
        · rw [List.flatten_cons, hflat, ← List.prefix_iff_eq_append.mp htok]
          simp
      | none =>
        have hnone : ∀ tok ∈ tokens, ¬ tok <+: x :: rest := fun tok htok h =>
          List.find?_eq_none.mp hfind tok htok (decide_eq_true h)
        have hpos := nextPos_pos (List.cons_ne_nil x rest) hnone
        obtain ⟨parts, hparts, hflat⟩ := @ih ((x :: rest).drop (nextPos tokens (x :: rest))) (by rw [List.length_drop]; omega)
        refine ⟨(x :: rest).take (nextPos tokens (x :: rest)) :: parts, ?_, ?_⟩
        · dsimp only
          rw [hparts, Option.map_some, if_pos hpos]
        · rw [List.flatten_cons, hflat, List.take_append_drop]

theorem Tokenizer.splitBySpecialTokens_spec (t : Tokenizer) (hspecial : ∀ tok ∈ t.specialTokens.map Prod.fst, tok ≠ [])
    {arrange : List Bytes → List Bytes} (harrange : ∀ keys, (arrange keys).Perm keys) (s : Bytes) :
    ∃ parts, t.splitBySpecialTokens arrange s = some parts ∧ parts.flatten = s := by
  unfold splitBySpecialTokens
  split_ifs
  · exact ⟨[s], rfl, List.flatten_singleton⟩
  · apply splitLoop_spec _ (Nat.le_refl _)
    exact fun tok htok => hspecial tok ((harrange _).mem_iff.mp htok)
  · apply splitLoop_spec _ (Nat.le_refl _)
    exact fun tok htok => hspecial tok (t.sorted_special tok htok)

/-! ## Chunks -/

/-- Matches that are not empty tile the text, and nothing matches behind them. -/
inductive Tiles (find : Bytes → Option (Nat × Nat)) : Bytes → Prop
  | done : find [] = none → Tiles find []
  | more {s : Bytes} {n : Nat} : find s = some (0, n) → 0 < n → n ≤ s.length → Tiles find (s.drop n) → Tiles find s

theorem lastSpaceStart_le (stop : Nat) (rs : List Rune) {j : Nat} (hj : j ≤ stop) : lastSpaceStart stop j rs ≤ stop := by
  induction rs generalizing j with
  | nil => exact Nat.le_refl _
  | cons r rs ih =>
    rw [lastSpaceStart]
    split_ifs
    · omega
    · exact ih (by omega)

/-- A boundary between two matches that follow one another is moved to some place in the first one. -/
theorem adjust_spec (isLetter : Char → Bool) (part : Bytes) {curr next : TokenMatch} (hnext : next.start = curr.stop)
    (hle : curr.start ≤ curr.stop) : ∃ i, curr.start ≤ i ∧ i ≤ curr.stop ∧
      adjustWhitespaceBoundary isLetter part curr next = ({ curr with stop := i }, { next with start := i }) := by
  have hsame : (curr, next) = ({ curr with stop := curr.stop }, { next with start := curr.stop }) := by rw [← hnext]
  unfold adjustWhitespaceBoundary
  dsimp only
  split_ifs with hspace hletter hlast
  · exact ⟨curr.stop, hle, Nat.le_refl _, hsame⟩
  · exact ⟨curr.stop, hle, Nat.le_refl _, hsame⟩
  · exact ⟨_, Nat.le_of_lt hlast, lastSpaceStart_le _ _ (Nat.le_refl _), rfl⟩
  · exact ⟨curr.start, Nat.le_refl _, hle, rfl⟩

/-- The chunk of a match. -/
def matchChunks (part : Bytes) (curr : TokenMatch) : List EncodeChunk :=
  if curr.stop > curr.start then [{ text := curr.text part, isSpecial := false }] else []

theorem yieldMatch_eq {σ : Type} (fn : σ → EncodeChunk → σ) (part : Bytes) (curr : TokenMatch) (st : σ) :
    yieldMatch fn part curr st = (matchChunks part curr).foldl fn st := by
  unfold yieldMatch matchChunks
  split_ifs <;> rfl

theorem text_matchChunks (part : Bytes) (curr : TokenMatch) : ((matchChunks part curr).map (·.text)).flatten = curr.text part := by
  unfold matchChunks
  split_ifs with hlt
  · exact List.flatten_singleton
  · rw [TokenMatch.text, Nat.sub_eq_zero_of_le (by omega), List.take_zero]
    rfl

/-- The calls of `fn` are those for the chunks of a list, which is the rest of the part from the start of the current match on. -/
theorem matchLoop_spec {re : Pretokenizer} {part : Bytes} {n offset : Nat} {curr : TokenMatch} (htile : Tiles re.find (part.drop offset))
    (hstop : curr.stop = offset) (hle : curr.start ≤ curr.stop) (hoffset : offset ≤ part.length) (hn : part.length - offset < n) :
    ∃ chunks : List EncodeChunk, (chunks.map (·.text)).flatten = part.drop curr.start ∧
      ∀ {σ : Type} (fn : σ → EncodeChunk → σ) (st : σ), matchLoop re fn part n offset curr st = some (chunks.foldl fn st) := by
  induction n generalizing offset curr with
  | zero => omega
  | succ n ih =>
    obtain ⟨u, hu⟩ : ∃ u, u = part.drop offset := ⟨_, rfl⟩
    rw [← hu] at htile
    cases htile with
    | done hnone =>
      refine ⟨matchChunks part curr, ?_, fun fn st => ?_⟩
      · have hlen := congrArg List.length hu
        rw [List.length_nil, List.length_drop] at hlen
        rw [text_matchChunks, TokenMatch.text, List.take_of_length_le]
        rw [List.length_drop]
        omega
      · rw [matchLoop, ← hu, hnone]
        dsimp only
        rw [yieldMatch_eq]
    | @more _ len hfind hpos hlen hrest =>
      have hnext : (TokenMatch.mk (offset + 0) (offset + len)).start = curr.stop := by
        rw [hstop]
        rfl
      obtain ⟨i, hi, hi', hadjust⟩ := adjust_spec re.isLetter part hnext hle
      rw [hu, List.length_drop] at hlen
      rw [hu, List.drop_drop] at hrest
      obtain ⟨chunks, hchunks, hcalls⟩ := @ih (offset + len) { start := i, stop := offset + len } hrest rfl
        (by dsimp only; omega) (by omega) (by omega)
      refine ⟨matchChunks part { curr with stop := i } ++ chunks, ?_, fun fn st => ?_⟩
      · rw [List.map_append, List.flatten_append, text_matchChunks, hchunks]
        have hdrop : (part.drop curr.start).drop (i - curr.start) = part.drop i := by
          rw [List.drop_drop]
          congr 1
          omega
        rw [TokenMatch.text, ← hdrop, List.take_append_drop]
      · rw [matchLoop, ← hu, hfind]
        dsimp only
        rw [hadjust]
        dsimp only
        rw [hcalls, List.foldl_append, yieldMatch_eq]

/-- The calls of `fn` for a part are those for the chunks of a list, whose texts make up the part. -/
theorem Tokenizer.forEachPartChunk_spec (t : Tokenizer) {part : Bytes} (htile : ∀ re ∈ t.pretokenizer, Tiles re.find part) :
    ∃ chunks : List EncodeChunk, (chunks.map (·.text)).flatten = part ∧
      ∀ {σ : Type} (fn : σ → EncodeChunk → σ) (st : σ), t.forEachPartChunk part fn st = some (chunks.foldl fn st) := by
  by_cases hspecial : (t.specialTokens.lookup part).isSome
  · refine ⟨[{ text := part, isSpecial := true }], List.flatten_singleton, fun fn st => ?_⟩
    rw [forEachPartChunk, if_pos hspecial]
    rfl
  · cases hpre : t.pretokenizer with
    | none =>
      refine ⟨[{ text := part, isSpecial := false }], List.flatten_singleton, fun fn st => ?_⟩
      rw [forEachPartChunk, if_neg hspecial, hpre]
      rfl
    | some re =>
      have htile := htile re hpre
      have hunfold : ∀ {σ : Type} (fn : σ → EncodeChunk → σ) (st : σ), t.forEachPartChunk part fn st =
          match re.find part with
          | none => some st
          | some (start, stop) => matchLoop re fn part (part.length + 1) stop { start, stop } st := by
        intro σ fn st
        rw [forEachPartChunk, if_neg hspecial, hpre]
      cases htile with
      | done hnone =>
        refine ⟨[], rfl, fun fn st => ?_⟩
        rw [hunfold, hnone]
        rfl
      | @more _ len hfind hpos hlen hrest =>
        obtain ⟨chunks, hchunks, hcalls⟩ := @matchLoop_spec re part (part.length + 1) len { start := 0, stop := len } hrest rfl
          (Nat.zero_le _) hlen (by omega)
        refine ⟨chunks, hchunks, fun fn st => ?_⟩
        rw [hunfold, hfind]
        exact hcalls fn st

end Xdragon.XTokenizer
