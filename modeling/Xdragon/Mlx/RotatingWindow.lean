import Xdragon.Mlx.Rotating

/-!
# What a rotating cache returns

The arrays that `Update` returns are the entries of the last tokens, as many as the window takes. That holds while no call comes
on rows that the ring pointer no longer tells apart.
-/

open Xdragon.Lib

namespace Xdragon.Mlx

universe u

/-! ## Slices that are in range -/

section
variable {ρ : Type u}

theorem sliceIn_eq {rows : List ρ} {a b : Nat} (hab : a ≤ b) (hb : b ≤ rows.length) (hpos : 0 < b) :
    sliceIn rows a b = some ((rows.take b).drop a) := by
  have hne : (b : Int) ≠ 0 := by omega
  unfold sliceIn
  rw [if_neg hne]
  dsimp only
  rw [if_pos (by omega), Int.toNat_natCast, Int.toNat_natCast]

theorem sliceUpdateIn_one {rows : List ρ} {i : Nat} (hi : i < rows.length) (x : ρ) :
    sliceUpdateIn rows [x] i (i + 1) = some (replaceAt rows i x) := by
  have hne : ((i : Int) + 1) ≠ 0 := by omega
  unfold sliceUpdateIn
  rw [if_neg hne]
  dsimp only
  rw [if_pos ⟨by omega, rfl, by omega⟩, Int.toNat_natCast, show ((i : Int) + 1).toNat = i + 1 by omega, replaceAt, List.append_assoc]
  rfl

theorem zeros_eq (zero : ρ) (n : Nat) : zeros zero n = some (List.replicate n zero) := by
  rw [zeros, if_pos (by omega), Int.toNat_natCast]

end

namespace RotatingKVCache

variable {κ ν : Type u}

/-- The arrays of these entries. -/
def Arrays.of (entries : List (κ × ν)) (idx : Int) : Arrays κ ν := ⟨entries.map Prod.fst, entries.map Prod.snd, idx⟩

/-- The cache holds the arrays of these entries. -/
structure Holding (c : RotatingKVCache κ ν) (rows : List (κ × ν)) : Prop where
  keys : c.keys = some (rows.map Prod.fst)
  values : c.values = some (rows.map Prod.snd)

theorem concat_spec {c : RotatingKVCache κ ν} {rows : List (κ × ν)} (h : Holding c rows) {i : Nat} (hsize : 0 < c.maxSize) (hidx : c.idx = i)
    (hpos : 0 < i) (hi : i ≤ rows.length) (new : List (κ × ν)) {out : List (κ × ν)} (hout : out = (rows.take i).drop (i + 1 - c.maxSize) ++ new) :
    c.concat (new.map Prod.fst) (new.map Prod.snd) = some ({ c with
      keys := some (out.map Prod.fst)
      values := some (out.map Prod.snd)
      offset := c.offset + new.length
      idx := out.length }, out.map Prod.fst, out.map Prod.snd) := by
  have hlen : (rows.take i).length = i := List.length_take_of_le hi
  have hcut : ∀ {ρ : Type u} (f : κ × ν → ρ),
      sliceWhen ((i : Int) < (rows.map Prod.fst).length) (rows.map f) 0 i = some ((rows.take i).map f) := by
    intro ρ f
    unfold sliceWhen
    split_ifs with hlt
    · have := sliceIn_eq (Nat.zero_le i) (hi.trans_eq (List.length_map f).symm) hpos
      rw [List.drop_zero] at this
      rw [List.map_take]
      exact this
    · rw [List.length_map] at hlt
      rw [List.take_of_length_le (by omega)]
  have htrim : ∀ {ρ : Type u} (f : κ × ν → ρ), sliceWhen (0 < (i : Int) - c.maxSize + 1) ((rows.take i).map f)
      ((i : Int) - c.maxSize + 1) ((rows.take i).map f).length = some (((rows.take i).drop (i + 1 - c.maxSize)).map f) := by
    intro ρ f
    unfold sliceWhen
    split_ifs with hlt
    · have hcast : (i : Int) - c.maxSize + 1 = ((i + 1 - c.maxSize : Nat) : Int) := by omega
      have hmap : ((rows.take i).map f).length = i := by rw [List.length_map, hlen]
      rw [hmap, hcast, sliceIn_eq (by omega) hmap.ge hpos, List.take_of_length_le hmap.le, List.map_drop]
    · rw [show i + 1 - c.maxSize = 0 by omega, List.drop_zero]
  unfold concat
  rw [h.keys, h.values, hidx]
  simp only [Option.getD_some, hcut, htrim, Option.bind_eq_bind, Option.bind_some, Option.pure_def, hout, List.map_append]
  simp only [← List.map_append, List.length_map]

/-! ## One token -/

theorem grow_none {c : RotatingKVCache κ ν} (hkeys : c.keys = none) (hoffset : c.offset = 0) (zeroKey : κ) (zeroValue : ν) :
    grow zeroKey zeroValue c = some (.of (List.replicate (min c.step c.maxSize) (zeroKey, zeroValue)) 0) := by
  unfold grow
  dsimp only
  have hsize : min (c.step : Int) (c.maxSize - c.offset) = ((min c.step c.maxSize : Nat) : Int) := by omega
  rw [hkeys, hsize, zeros_eq, zeros_eq, hoffset]
  simp [Arrays.of]

theorem grow_full {c : RotatingKVCache κ ν} {rows : List (κ × ν)} (h : Holding c rows) (hfull : rows.length ≤ c.offset)
    (hroom : c.offset < c.maxSize) (zeroKey : κ) (zeroValue : ν) : grow zeroKey zeroValue c =
      some (.of (rows ++ List.replicate (min c.step (c.maxSize - c.offset)) (zeroKey, zeroValue)) c.offset) := by
  unfold grow
  dsimp only
  have hsize : min (c.step : Int) (c.maxSize - c.offset) = ((min c.step (c.maxSize - c.offset) : Nat) : Int) := by omega
  rw [h.keys, h.values, hsize, zeros_eq, zeros_eq]
  dsimp only [Option.getD_some]
  rw [List.length_map, if_pos ⟨hfull, hfull.trans_lt hroom⟩]
  simp [Arrays.of]

theorem grow_keep {c : RotatingKVCache κ ν} {rows : List (κ × ν)} (h : Holding c rows)
    (hkeep : ¬ (rows.length ≤ c.offset ∧ rows.length < c.maxSize)) (zeroKey : κ) (zeroValue : ν) :
    grow zeroKey zeroValue c = some (.of rows c.idx) := by
  unfold grow
  dsimp only
  rw [h.keys, h.values]
  dsimp only [Option.getD_some]
  rw [List.length_map, if_neg hkeep]
  rfl

theorem trimToMax_short {maxSize : Nat} {rows : List (κ × ν)} (h : rows.length ≤ maxSize) (idx : Int) :
    trimToMax maxSize (.of rows idx) = some (.of rows idx) := by
  unfold trimToMax Arrays.of
  dsimp only
  rw [List.length_map, if_neg (by omega)]

theorem trimToMax_long {maxSize : Nat} (hpos : 0 < maxSize) {rows : List (κ × ν)} (h : maxSize < rows.length) (idx : Int) :
    trimToMax maxSize (.of rows idx) = some (.of (rows.drop (rows.length - maxSize)) maxSize) := by
  have hcast : (rows.length : Int) - maxSize = ((rows.length - maxSize : Nat) : Int) := by omega
  have hslice : ∀ {ρ : Type u} (f : κ × ν → ρ),
      sliceIn (rows.map f) ((rows.length - maxSize : Nat) : Int) rows.length = some ((rows.drop (rows.length - maxSize)).map f) := by
    intro ρ f
    rw [sliceIn_eq (by omega) (List.length_map f).ge (by omega), List.take_of_length_le (List.length_map f).le, List.map_drop]
  unfold trimToMax Arrays.of
  simp only [List.length_map]
  rw [if_pos (by omega), hcast, hslice, hslice]
  rfl

/-- A token is written at the ring pointer of arrays that are no longer than the window. -/
theorem update_spec {zeroKey : κ} {zeroValue : ν} {c : RotatingKVCache κ ν} {rows : List (κ × ν)} {idx : Int} {i : Nat}
    (hrows : (grow zeroKey zeroValue c).bind (trimToMax c.maxSize) = some (.of rows idx))
    (hidx : (if (c.maxSize : Int) ≤ idx then 0 else idx) = i) (hi : i < rows.length) (hpos : 0 < c.maxSize)
    (hlen : min (c.offset + 1) c.maxSize ≤ rows.length) (x : κ × ν) {out : List (κ × ν)}
    (hout : out = (replaceAt rows i x).take (min (c.offset + 1) c.maxSize)) :
    c.update zeroKey zeroValue [x.1] [x.2] = some ({ c with
      keys := some ((replaceAt rows i x).map Prod.fst)
      values := some ((replaceAt rows i x).map Prod.snd)
      offset := c.offset + 1
      idx := i + 1 }, out.map Prod.fst, out.map Prod.snd) := by
  have hwrite : ∀ {ρ : Type u} (f : κ × ν → ρ), sliceUpdateIn (rows.map f) [f x] i (i + 1) = some ((replaceAt rows i x).map f) := by
    intro ρ f
    rw [sliceUpdateIn_one (hi.trans_eq (List.length_map f).symm), replaceAt, replaceAt, List.map_append, List.map_cons, List.map_take, List.map_drop]
  have hslice : ∀ {ρ : Type u} (f : κ × ν → ρ),
      sliceIn ((replaceAt rows i x).map f) 0 ((min (c.offset + 1) c.maxSize : Nat) : Int) = some (out.map f) := by
    intro ρ f
    have hle : min (c.offset + 1) c.maxSize ≤ ((replaceAt rows i x).map f).length := by
      rw [List.length_map, length_replaceAt hi]
      exact hlen
    have := sliceIn_eq (Nat.zero_le _) hle (by omega)
    rw [hout, List.map_take]
    exact this
  have hone : ((1 : Nat) : Int) = 1 := rfl
  unfold update
  simp only [hrows, Option.bind_eq_bind, Option.bind_some, Arrays.of, hidx, List.length_singleton, hone, hwrite, hslice, Option.pure_def]

/-! ## A cache and its calls -/

/-- A cache, the entries of the tokens that it was given and that were not trimmed, and how many were trimmed since the last
`Update`. -/
structure Session (κ ν : Type u) where
  cache : RotatingKVCache κ ν
  entries : List (κ × ν)
  trimmed : Nat

inductive Call (κ ν : Type u) where
  | update (new : List (κ × ν))
  | trim (n : Nat)

def start (maxSize : Nat) : Session κ ν :=
  { cache := newRotatingKVCache maxSize
    entries := []
    trimmed := 0 }

def Session.step (zeroKey : κ) (zeroValue : ν) (s : Session κ ν) : Call κ ν → Option (Session κ ν)
  | .update new => (s.cache.Update zeroKey zeroValue (new.map Prod.fst) (new.map Prod.snd)).map fun r =>
    { cache := r.1
      entries := s.entries ++ new
      trimmed := 0 }
  | .trim n => some
    { cache := (s.cache.trim n).1
      entries := s.entries.take (s.entries.length - n)
      trimmed := s.trimmed + (s.cache.trim n).2 }

/-- `Update` returns the entries of the last tokens, as many as the window takes, in some order. -/
def Lawful (zeroKey : κ) (zeroValue : ν) (s : Session κ ν) (new : List (κ × ν)) : Prop :=
  ∃ (c : RotatingKVCache κ ν) (returned window : List (κ × ν)),
    s.cache.Update zeroKey zeroValue (new.map Prod.fst) (new.map Prod.snd) =
      some (c, returned.map Prod.fst, returned.map Prod.snd) ∧
    c.offset = (s.entries ++ new).length ∧ window <:+ s.entries ++ new ∧ min c.offset s.cache.maxSize ≤ window.length ∧
    returned.Perm window

/-- The number of rows of the array of keys. -/
def dim (c : RotatingKVCache κ ν) : Nat := (c.keys.getD []).length

/-- When the ring pointer tells which rows to keep. Several tokens come behind the rows in front of it, so these have to be enough
for the window. One token is written at it, so no row of a trimmed token may be left beside. -/
def Ready (s : Session κ ν) (L : Nat) : Prop :=
  if 1 < L then
    s.cache.keys.isNone ∨ (0 < s.cache.idx ∧ (s.cache.idx = s.cache.offset ∨ s.cache.maxSize ≤ s.cache.idx + L))
  else
    s.trimmed = 0 ∨ (s.cache.dim ≤ s.cache.maxSize ∧ (s.trimmed = 1 ∨ s.cache.idx = s.cache.offset)) ∨
      (s.cache.maxSize < s.cache.dim ∧ (s.cache.offset = 0 ∨ s.cache.maxSize = 1))

instance (s : Session κ ν) (L : Nat) : Decidable (Ready s L) := by
  unfold Ready
  infer_instance

/-- The calls that meet it. Any number of tokens may be trimmed. -/
def Meets (s : Session κ ν) : Call κ ν → Prop
  | .update new => new ≠ [] ∧ Ready s new.length
  | .trim _ => True

/-- What a cache holds: nothing yet, or rows that show the entries at the time of the last `Update`, of which some were trimmed. -/
structure Tracks (maxSize : Nat) (s : Session κ ν) : Prop where
  maxSize_eq : s.cache.maxSize = maxSize
  step_pos : 0 < s.cache.step
  offset_eq : s.cache.offset = s.entries.length
  held : (s.cache.keys = none ∧ s.entries = [] ∧ s.trimmed = 0) ∨
    ∃ (rows : List (κ × ν)) (idx : Nat) (entries : List (κ × ν)), Holding s.cache rows ∧ Shows maxSize rows idx entries ∧
      s.trimmed ≤ entries.length ∧ s.entries = entries.take (entries.length - s.trimmed) ∧ s.cache.idx = (idx : Int) - s.trimmed

theorem tracks_start (maxSize : Nat) : Tracks maxSize (start maxSize : Session κ ν) :=
  ⟨rfl, Nat.succ_pos 255, rfl, .inl ⟨rfl, rfl, rfl⟩⟩

theorem Tracks.trim {maxSize : Nat} {s s' : Session κ ν} (h : Tracks maxSize s) {n : Nat} {zeroKey : κ} {zeroValue : ν}
    (hstep : s.step zeroKey zeroValue (.trim n) = some s') : Tracks maxSize s' := by
  obtain rfl := Option.some.inj hstep
  have hoffset := h.offset_eq
  refine ⟨h.maxSize_eq, h.step_pos, ?_, ?_⟩
  · simp only [RotatingKVCache.trim, List.length_take]
    omega
  · rcases h.held with ⟨hkeys, hentries, htrimmed⟩ | ⟨rows, idx, entries, hholding, hshows, hle, hentries, hidx⟩
    · rw [hentries, List.length_nil] at hoffset
      refine .inl ⟨hkeys, by rw [hentries, List.take_nil], ?_⟩
      simp only [RotatingKVCache.trim, htrimmed, hoffset]
      omega
    · have hlen : s.entries.length = entries.length - s.trimmed := by
        rw [hentries, List.length_take]
        omega
      refine .inr ⟨rows, idx, entries, ⟨hholding.keys, hholding.values⟩, hshows, ?_, ?_, ?_⟩
      · simp only [RotatingKVCache.trim]
        omega
      · simp only [RotatingKVCache.trim]
        rw [hlen, hentries, List.take_take]
        congr 1
        omega
      · simp only [RotatingKVCache.trim]
        omega

/-! ## What a call of `Update` does -/

/-- `Update` went well: the new rows show the new entries, and what it returned are the last ones. -/
structure Served (zeroKey : κ) (zeroValue : ν) (maxSize : Nat) (s : Session κ ν) (new : List (κ × ν)) (c : RotatingKVCache κ ν)
    (rows : List (κ × ν)) (idx : Nat) (returned window : List (κ × ν)) : Prop where
  call : s.cache.Update zeroKey zeroValue (new.map Prod.fst) (new.map Prod.snd) =
    some (c, returned.map Prod.fst, returned.map Prod.snd)
  maxSize_eq : c.maxSize = maxSize
  step_eq : c.step = s.cache.step
  offset_eq : c.offset = (s.entries ++ new).length
  idx_eq : c.idx = idx
  holding : Holding c rows
  shows : Shows maxSize rows idx (s.entries ++ new)
  suffix : window <:+ s.entries ++ new
  length_le : min c.offset maxSize ≤ window.length
  perm : returned.Perm window

/-- Several tokens. -/
theorem Tracks.several {maxSize : Nat} (hpos : 0 < maxSize) {s : Session κ ν} (h : Tracks maxSize s) {new : List (κ × ν)}
    (hlen : 1 < new.length) (hready : Ready s new.length) (zeroKey : κ) (zeroValue : ν) :
    ∃ c rows idx returned window, Served zeroKey zeroValue maxSize s new c rows idx returned window := by
  have hnew : new ≠ [] := by
    rintro rfl
    exact absurd hlen (Nat.not_lt_zero 1)
  have hsize := h.maxSize_eq
  have hoffset := h.offset_eq
  have hcall : s.cache.Update zeroKey zeroValue (new.map Prod.fst) (new.map Prod.snd) = s.cache.concat (new.map Prod.fst) (new.map Prod.snd) := by
    rw [Update, List.length_map, if_pos hlen]
  rw [Ready, if_pos hlen] at hready
  rcases h.held with ⟨hkeys, hentries, htrimmed⟩ | ⟨rows, idx, entries, hholding, hshows, hle, hentries, hidx⟩
  · have hempty : s.entries ++ new = new := by rw [hentries, List.nil_append]
    rw [hentries, List.length_nil] at hoffset
    refine ⟨{ s.cache with
      keys := some (new.map Prod.fst)
      values := some (new.map Prod.snd)
      offset := s.cache.offset + (new.map Prod.fst).length
      idx := (new.map Prod.fst).length }, new, new.length, new, new, ?_⟩
    constructor
    case call =>
      rw [hcall, concat, hkeys]
    case maxSize_eq => exact hsize
    case step_eq => rfl
    case offset_eq =>
      rw [hempty, List.length_map, hoffset, Nat.zero_add]
    case idx_eq => rw [List.length_map]
    case holding => exact ⟨rfl, rfl⟩
    case shows =>
      rw [hempty]
      exact .of_suffix hnew List.suffix_rfl (.inl rfl)
    case suffix =>
      rw [hempty]
    case length_le =>
      rw [List.length_map, hoffset, Nat.zero_add]
      exact Nat.min_le_left ..
    case perm => exact .refl _
  · have hentriesLength : s.entries.length = entries.length - s.trimmed := by
      rw [hentries, List.length_take]
      omega
    obtain ⟨hidxPos, hroom⟩ : 0 < s.cache.idx ∧ (s.cache.idx = s.cache.offset ∨ s.cache.maxSize ≤ s.cache.idx + new.length) := by
      rw [hholding.keys] at hready
      simpa using hready
    have happend := hshows.append (p := s.trimmed) (by omega) hnew (by omega)
    have hconcat := concat_spec hholding (i := idx - s.trimmed) (by omega) (by omega) (by omega)
      ((Nat.sub_le ..).trans hshows.idx_le) new rfl
    rw [← hentries, ← hsize] at happend
    generalize (rows.take (idx - s.trimmed)).drop (idx - s.trimmed + 1 - s.cache.maxSize) ++ new = out at happend hconcat
    refine ⟨_, out, out.length, out, out, ⟨hcall.trans hconcat, hsize, rfl, ?_, rfl, ⟨rfl, rfl⟩, ?_, ?_, ?_, .refl _⟩⟩
    · rw [List.length_append, hoffset]
    · rw [← hsize]
      exact happend
    · have := happend.take_suffix
      rwa [List.take_length] at this
    · have := happend.le_length
      rw [List.length_append] at this
      dsimp only
      omega

/-- One token, where the arrays are ready for it and show the new entries once it is written. -/
theorem served_of_shows {maxSize : Nat} (hpos : 0 < maxSize) {s : Session κ ν} (h : Tracks maxSize s) {zeroKey : κ} {zeroValue : ν}
    {rows : List (κ × ν)} {idx : Int} {i : Nat} {x : κ × ν}
    (hrows : (grow zeroKey zeroValue s.cache).bind (trimToMax maxSize) = some (.of rows idx))
    (hidx : (if (maxSize : Int) ≤ idx then 0 else idx) = i) (hi : i < rows.length) (hlen : rows.length ≤ maxSize)
    (hshows : Shows maxSize (replaceAt rows i x) (i + 1) (s.entries ++ [x])) :
    ∃ c rows idx returned window, Served zeroKey zeroValue maxSize s [x] c rows idx returned window := by
  have hsize := h.maxSize_eq
  have hcount : s.cache.offset + 1 = (s.entries ++ [x]).length := by rw [h.offset_eq, List.length_append, List.length_singleton]
  have hwritten := length_replaceAt hi x
  obtain ⟨window, hsuffix, hwindow, hperm⟩ := hshows.window (by rw [hwritten]; exact hlen)
  rw [← hcount, ← hsize] at hperm hwindow
  have hvalid : min (s.cache.offset + 1) s.cache.maxSize ≤ rows.length := by
    have := hperm.length_eq
    rw [hwindow, List.length_take, hwritten] at this
    omega
  rw [← hsize] at hrows hidx hpos
  have hupdate := update_spec hrows hidx hi hpos hvalid x rfl
  have hcall : s.cache.Update zeroKey zeroValue ([x].map Prod.fst) ([x].map Prod.snd) = s.cache.update zeroKey zeroValue [x.1] [x.2] := by
    rw [Update, if_neg (by simp)]
    rfl
  refine ⟨_, replaceAt rows i x, i + 1, _, window, ⟨hcall.trans hupdate, hsize, rfl, hcount, rfl, ⟨rfl, rfl⟩, hshows, hsuffix, ?_, hperm⟩⟩
  rw [hwindow, hsize]

/-- A cache with more rows than the window takes is cut to its end first. -/
theorem Tracks.single_long {maxSize : Nat} (hpos : 0 < maxSize) {s : Session κ ν} (h : Tracks maxSize s) {rows entries : List (κ × ν)}
    {idx : Nat} (hholding : Holding s.cache rows) (hshows : Shows maxSize rows idx entries) (hlong : maxSize < rows.length)
    (hready : s.entries = entries ∨ s.entries = [] ∨ maxSize = 1) (x : κ × ν) (zeroKey : κ) (zeroValue : ν) :
    ∃ c rows idx returned window, Served zeroKey zeroValue maxSize s [x] c rows idx returned window := by
  have hsuffix : rows <:+ entries := by
    cases hshows with
    | lined hle hsize htake => omega
    | turned hpos hle hsize hturn hsuffix =>
      have hidx : idx = rows.length := by
        by_contra hne
        have := hturn (by omega)
        omega
      rwa [hidx, List.drop_length, List.nil_append, List.take_length] at hsuffix
  have hkeep : ¬ (rows.length ≤ s.cache.offset ∧ rows.length < s.cache.maxSize) := by
    rw [h.maxSize_eq]
    omega
  have hrows : (grow zeroKey zeroValue s.cache).bind (trimToMax maxSize) = some (.of (rows.drop (rows.length - maxSize)) maxSize) := by
    rw [grow_keep hholding hkeep, Option.bind_some, trimToMax_long hpos hlong]
  have hlen : (rows.drop (rows.length - maxSize)).length = maxSize := by
    rw [List.length_drop]
    omega
  apply served_of_shows hpos h hrows (i := 0) (if_pos (Int.le_refl _)) (by omega) hlen.le
  rcases hready with hsame | hnil | hone
  · apply Shows.write_turned (by omega) hlen
    rw [hsame, List.take_zero, List.append_nil, List.drop_drop]
    exact (List.drop_suffix ..).trans hsuffix
  · exact Shows.write_lined (by omega) hlen.le (by rw [hnil, List.take_zero]) x
  · apply Shows.write_turned (by omega) hlen
    rw [List.drop_eq_nil_of_le (by omega), List.take_zero, List.append_nil]
    exact List.nil_suffix

/-- As long as the entries lie in line the next one comes behind them. -/
theorem Tracks.single_lined {maxSize : Nat} (hpos : 0 < maxSize) {s : Session κ ν} (h : Tracks maxSize s) {rows : List (κ × ν)} {i : Nat}
    (hholding : Holding s.cache rows) (hi : i ≤ rows.length) (hlen : rows.length ≤ maxSize) (hentries : s.entries = rows.take i)
    (hidx : s.cache.idx = i) (x : κ × ν) (zeroKey : κ) (zeroValue : ν) :
    ∃ c rows idx returned window, Served zeroKey zeroValue maxSize s [x] c rows idx returned window := by
  have hsize := h.maxSize_eq
  have hstep := h.step_pos
  have hoffset : s.cache.offset = i := by rw [h.offset_eq, hentries, List.length_take_of_le hi]
  by_cases hgrow : rows.length ≤ i ∧ rows.length < maxSize
  · -- the array grows
    have hfull := grow_full hholding (by omega) (by omega) zeroKey zeroValue
    generalize hzeros : List.replicate (min s.cache.step (s.cache.maxSize - s.cache.offset)) (zeroKey, zeroValue) = new at hfull
    have hnew : new.length = min s.cache.step (s.cache.maxSize - s.cache.offset) := by rw [← hzeros, List.length_replicate]
    have hshort : (rows ++ new).length ≤ maxSize := by
      rw [List.length_append]
      omega
    have hrows : (grow zeroKey zeroValue s.cache).bind (trimToMax maxSize) = some (.of (rows ++ new) s.cache.offset) := by
      rw [hfull, Option.bind_some, trimToMax_short hshort]
    have hroom : i < (rows ++ new).length := by
      rw [List.length_append]
      omega
    apply served_of_shows hpos h hrows (i := i) (by rw [if_neg (by omega), hoffset]) hroom hshort
    apply Shows.write_lined hroom hshort
    rw [List.take_append_of_le_length hi, hentries]
  · have hkeep : ¬ (rows.length ≤ s.cache.offset ∧ rows.length < s.cache.maxSize) := by
      rw [hsize, hoffset]
      exact hgrow
    have hrows : (grow zeroKey zeroValue s.cache).bind (trimToMax maxSize) = some (.of rows s.cache.idx) := by
      rw [grow_keep hholding hkeep, Option.bind_some, trimToMax_short hlen]
    by_cases hend : i = maxSize
    · -- the ring begins
      apply served_of_shows hpos h hrows (i := 0) (if_pos (by omega)) (by omega) hlen
      apply Shows.write_turned (by omega) (by omega)
      rw [hentries, List.take_zero, List.append_nil, List.take_of_length_le (by omega)]
      exact List.drop_suffix ..
    · apply served_of_shows hpos h hrows (i := i) (by rw [if_neg (by omega), hidx]) (by omega) hlen
      exact Shows.write_lined (by omega) hlen hentries.symm x

/-- In the ring the next entry takes the place of the oldest one, or of the only one that was trimmed. -/
theorem Tracks.single_turned {maxSize : Nat} (hpos : 0 < maxSize) {s : Session κ ν} (h : Tracks maxSize s) {rows entries : List (κ × ν)}
    {idx : Nat} (hholding : Holding s.cache rows) (hidxPos : 0 < idx) (hle : idx ≤ rows.length) (hlen : rows.length = maxSize)
    (hsuffix : rows.drop idx ++ rows.take idx <:+ entries) (hentries : s.entries = entries.take (entries.length - s.trimmed))
    (hidx : s.cache.idx = (idx : Int) - s.trimmed) (hready : s.trimmed ≤ 1) (x : κ × ν) (zeroKey : κ) (zeroValue : ν) :
    ∃ c rows idx returned window, Served zeroKey zeroValue maxSize s [x] c rows idx returned window := by
  have hkeep : ¬ (rows.length ≤ s.cache.offset ∧ rows.length < s.cache.maxSize) := by
    rw [h.maxSize_eq]
    omega
  have hrows : (grow zeroKey zeroValue s.cache).bind (trimToMax maxSize) = some (.of rows s.cache.idx) := by
    rw [grow_keep hholding hkeep, Option.bind_some, trimToMax_short hlen.le]
  have htake : (rows.take idx).length = idx := List.length_take_of_le hle
  obtain htrimmed | htrimmed : s.trimmed = 0 ∨ s.trimmed = 1 := by omega
  · rw [htrimmed, Nat.sub_zero, List.take_length] at hentries
    by_cases hend : idx = maxSize
    · apply served_of_shows hpos h hrows (i := 0) (if_pos (by omega)) (by omega) hlen.le
      apply Shows.write_turned (by omega) hlen
      rw [hend, ← hlen, List.drop_length, List.take_length, List.nil_append] at hsuffix
      rw [hentries, List.take_zero, List.append_nil]
      exact (List.drop_suffix ..).trans hsuffix
    · apply served_of_shows hpos h hrows (i := idx) (by rw [if_neg (by omega)]; omega) (by omega) hlen.le
      apply Shows.write_turned (by omega) hlen
      rw [hentries, ← List.drop_drop]
      exact (List.suffix_append_self_iff.mpr (List.drop_suffix ..)).trans hsuffix
  · apply served_of_shows hpos h hrows (i := idx - 1) (by rw [if_neg (by omega)]; omega) (by omega) hlen.le
    apply Shows.write_turned (by omega) hlen
    obtain ⟨older, rfl⟩ := hsuffix
    rw [hentries, htrimmed, take_append_sub _ _ (by rw [List.length_append]; omega), take_append_sub _ _ (by omega), htake, List.take_take,
      Nat.min_eq_left (Nat.sub_le ..), Nat.sub_add_cancel hidxPos]
    exact List.suffix_append ..

/-- One token. -/
theorem Tracks.single {maxSize : Nat} (hpos : 0 < maxSize) {s : Session κ ν} (h : Tracks maxSize s) (x : κ × ν)
    (hready : Ready s 1) (zeroKey : κ) (zeroValue : ν) :
    ∃ c rows idx returned window, Served zeroKey zeroValue maxSize s [x] c rows idx returned window := by
  have hsize := h.maxSize_eq
  have hstep := h.step_pos
  have hoffset := h.offset_eq
  rw [Ready, if_neg (Nat.lt_irrefl 1)] at hready
  rcases h.held with ⟨hkeys, hentries, htrimmed⟩ | ⟨rows, idx, entries, hholding, hshows, hle, hentries, hidx⟩
  · -- the first token
    rw [hentries, List.length_nil] at hoffset
    have hgrow := grow_none hkeys hoffset zeroKey zeroValue
    rw [hsize] at hgrow
    have hshort : (List.replicate (min s.cache.step maxSize) (zeroKey, zeroValue)).length ≤ maxSize := by
      rw [List.length_replicate]
      omega
    have hroom : 0 < (List.replicate (min s.cache.step maxSize) (zeroKey, zeroValue)).length := by
      rw [List.length_replicate]
      omega
    have hrows : (grow zeroKey zeroValue s.cache).bind (trimToMax maxSize) = some (.of (List.replicate (min s.cache.step maxSize) (zeroKey, zeroValue)) 0) := by
      rw [hgrow, Option.bind_some, trimToMax_short hshort]
    apply served_of_shows hpos h hrows (i := 0) (if_neg (by omega)) hroom hshort
    rw [hentries]
    exact .write_lined hroom hshort rfl x
  · have hdim : s.cache.dim = rows.length := by rw [dim, hholding.keys, Option.getD_some, List.length_map]
    have hentriesLength : s.entries.length = entries.length - s.trimmed := by
      rw [hentries, List.length_take]
      omega
    rw [hdim, hsize] at hready
    by_cases hlong : maxSize < rows.length
    · apply h.single_long hpos hholding hshows hlong
      rcases hready with hzero | ⟨hshort, -⟩ | ⟨-, hempty | hone⟩
      · left
        rw [hentries, hzero, Nat.sub_zero, List.take_length]
      · omega
      · right; left
        apply List.length_eq_zero_iff.mp
        omega
      · exact .inr (.inr hone)
    · have hidxEntries := hshows.idx_le_entries
      -- the entries lie in line, or the ring is as it was up to one token
      obtain ⟨hle', htake⟩ | ⟨hidxPos, hidxLe, hfull, hsuffix, hone⟩ : (s.trimmed ≤ idx ∧ s.entries = rows.take (idx - s.trimmed)) ∨
          (0 < idx ∧ idx ≤ rows.length ∧ rows.length = maxSize ∧ rows.drop idx ++ rows.take idx <:+ entries ∧ s.trimmed ≤ 1) := by
        cases hshows with
        | lined hidxLe hsize' htake =>
          left
          have hlen : (rows.take idx).length = idx := List.length_take_of_le hidxLe
          rw [← htake, hlen] at hle
          refine ⟨hle, ?_⟩
          rw [hentries, ← htake, hlen, List.take_take, Nat.min_eq_left (Nat.sub_le ..)]
        | turned hidxPos hidxLe hsize' hturn hsuffix =>
          by_cases hone : s.trimmed ≤ 1
          · exact .inr ⟨hidxPos, hidxLe, by omega, hsuffix, hone⟩
          · left
            -- then nothing was ever overwritten
            have hwhole : s.cache.idx = s.cache.offset := by omega
            have hidxWhole : idx = rows.length := by
              have := hsuffix.length_le
              rw [List.length_append, List.length_drop, List.length_take] at this
              omega
            rw [hidxWhole, List.drop_length, List.take_length, List.nil_append] at hsuffix
            obtain rfl := hsuffix.eq_of_length (by omega)
            exact ⟨by omega, by rw [hentries, hidxWhole]⟩
      · exact h.single_lined hpos hholding ((Nat.sub_le ..).trans hshows.idx_le) (by omega) htake (by omega) x zeroKey zeroValue
      · exact h.single_turned hpos hholding hidxPos hidxLe hfull hsuffix hentries hidx hone x zeroKey zeroValue

/-! ## Runs -/

theorem Tracks.served {maxSize : Nat} (hpos : 0 < maxSize) {s : Session κ ν} (h : Tracks maxSize s) {new : List (κ × ν)}
    (hmeets : Meets s (.update new)) (zeroKey : κ) (zeroValue : ν) :
    ∃ c rows idx returned window, Served zeroKey zeroValue maxSize s new c rows idx returned window := by
  obtain ⟨hne, hready⟩ := hmeets
  by_cases hlen : 1 < new.length
  · exact h.several hpos hlen hready zeroKey zeroValue
  · have hone : new.length = 1 := by
      have := List.length_pos_iff.mpr hne
      omega
    obtain ⟨x, rfl⟩ := List.length_eq_one_iff.mp hone
    exact h.single hpos x hready zeroKey zeroValue

theorem Tracks.step {maxSize : Nat} (hpos : 0 < maxSize) {zeroKey : κ} {zeroValue : ν} {s s' : Session κ ν} (h : Tracks maxSize s)
    {call : Call κ ν} (hmeets : Meets s call) (hstep : s.step zeroKey zeroValue call = some s') : Tracks maxSize s' := by
  cases call with
  | trim n => exact h.trim hstep
  | update new =>
    obtain ⟨c, rows, idx, returned, window, hserved⟩ := h.served hpos hmeets zeroKey zeroValue
    rw [Session.step, hserved.call] at hstep
    obtain rfl := Option.some.inj hstep
    refine ⟨hserved.maxSize_eq, ?_, hserved.offset_eq, .inr ⟨rows, idx, s.entries ++ new, hserved.holding, hserved.shows, Nat.zero_le _, ?_, ?_⟩⟩
    · rw [hserved.step_eq]
      exact h.step_pos
    · rw [Nat.sub_zero, List.take_length]
    · rw [hserved.idx_eq]
      exact (Int.sub_zero _).symm

theorem tracks_of_reaches {maxSize : Nat} (hpos : 0 < maxSize) {zeroKey : κ} {zeroValue : ν} {s : Session κ ν}
    (h : Reaches (Session.step zeroKey zeroValue) Meets (· = start maxSize) s) : Tracks maxSize s := by
  apply h.invariant
  · rintro s rfl
    exact tracks_start maxSize
  · intro s call s' hs hmeets hstep
    exact hs.step hpos hmeets hstep

/-- The next call of `Update` returns the last entries, each once. -/
theorem lawful_of_reaches {maxSize : Nat} (hpos : 0 < maxSize) {zeroKey : κ} {zeroValue : ν} {s : Session κ ν}
    (h : Reaches (Session.step zeroKey zeroValue) Meets (· = start maxSize) s) {new : List (κ × ν)} (hmeets : Meets s (.update new)) :
    Lawful zeroKey zeroValue s new := by
  have htracks := tracks_of_reaches hpos h
  obtain ⟨c, rows, idx, returned, window, hserved⟩ := htracks.served hpos hmeets zeroKey zeroValue
  refine ⟨c, returned, window, hserved.call, hserved.offset_eq, hserved.suffix, ?_, hserved.perm⟩
  rw [htracks.maxSize_eq]
  exact hserved.length_le

instance (s : Session κ ν) (call : Call κ ν) : Decidable (Meets s call) := by
  cases call with
  | update new => exact inferInstanceAs (Decidable (new ≠ [] ∧ Ready s new.length))
  | trim n => exact .isTrue trivial

/-- A prompt, two tokens that turn the ring, one of them taken back, and a second prompt. -/
def turnedRun : List (Call Nat Nat) :=
  [.update ((List.range 6).map fun i => (i, i)), .update [(6, 6)], .update [(7, 7)], .trim 1, .update [(8, 8)],
    .update [(9, 9), (10, 10), (11, 11)]]

theorem turnedRun_lawful : ∃ s : Session Nat Nat, s.cache.offset = 11 ∧ Lawful 0 0 s [(12, 12)] := by
  let s := (exec (Session.step 0 0) (start 4) turnedRun).get (by decide)
  have hreach : Reaches (Session.step 0 0) Meets (· = start 4) s :=
    reaches_of_exec (Reaches.init rfl) (by decide : Checked _ _ _ turnedRun) (Option.some_get _).symm
  exact ⟨s, by decide, lawful_of_reaches (by decide) hreach (by decide)⟩

/-- The calls that take tokens, and that trim no more tokens than the window has. -/
def Inside (s : Session κ ν) : Call κ ν → Prop
  | .update new => new ≠ []
  | .trim n => n ≤ min s.cache.offset s.cache.maxSize

instance (s : Session κ ν) (call : Call κ ν) : Decidable (Inside s call) := by
  cases call with
  | update new => exact inferInstanceAs (Decidable (new ≠ []))
  | trim n => exact inferInstanceAs (Decidable (n ≤ min s.cache.offset s.cache.maxSize))

/-- A prompt of two tokens on a ring of four that has turned by one: the three older tokens in it are lost. -/
theorem olderTokens_lost : ¬ ∀ s : Session Nat Nat, Reaches (Session.step 0 0) Inside (· = start 4) s →
    ∀ new, new ≠ [] → Lawful 0 0 s new := by
  intro h
  let run : List (Call Nat Nat) := (List.range 5).map fun i => .update [(i, i)]
  obtain ⟨s, hreach, hsize, hentries, hthree⟩ : ∃ s : Session Nat Nat, Reaches (Session.step 0 0) Inside (· = start 4) s ∧
      s.cache.maxSize = 4 ∧ (s.entries ++ [(5, 5), (6, 6)]).length = 7 ∧
      (s.cache.Update 0 0 ([(5, 5), (6, 6)].map Prod.fst) ([(5, 5), (6, 6)].map Prod.snd)).map (fun r => r.2.1.length) = some 3 := by
    let s := (exec (Session.step 0 0) (start 4) run).get (by decide)
    exact ⟨s, reaches_of_exec (Reaches.init rfl) (by decide : Checked _ _ _ run) (Option.some_get _).symm, by decide,
      by decide, by decide⟩
  obtain ⟨c, returned, window, hcall, hoffset, -, hlen, hperm⟩ := h s hreach [(5, 5), (6, 6)] (by decide)
  rw [hcall, Option.map_some, List.length_map] at hthree
  rw [hoffset, hentries, hsize, ← hperm.length_eq, Option.some.inj hthree] at hlen
  exact absurd hlen (by decide)

end RotatingKVCache

end Xdragon.Mlx
