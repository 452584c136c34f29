import Xdragon.Lib.Utf8

/-!
# Incomplete runes

A text that more bytes could complete to a rune, and `utf8.FullRune`, which tells it from its first bytes.
-/

namespace Xdragon.Lib

/-- How many bytes a rune with this first byte takes. 0 is ASCII, and 1 starts no rune. -/
def firstSize (x : UInt8) : Nat :=
  if x < 0x80 then 0 else if x < 0xc2 then 1 else if x < 0xe0 then 2 else if x < 0xf0 then 3 else if x < 0xf5 then 4 else 1

/-- Which second bytes a rune with this first byte can have. -/
def acceptRange (x : UInt8) : UInt8 × UInt8 :=
  if x = 0xe0 then (0xa0, 0xbf) else if x = 0xed then (0x80, 0x9f) else if x = 0xf0 then (0x90, 0xbf)
  else if x = 0xf4 then (0x80, 0x8f) else (0x80, 0xbf)

/-- `utf8.FullRune`. A text that starts no rune is full too. -/
def fullRune : Bytes → Bool
  | [] => false
  | x :: p =>
    let accept := acceptRange x
    if firstSize x ≤ p.length + 1 then true
    else match p with
      | [] => false
      | y :: p => if y < accept.1 ∨ accept.2 < y then true
        else match p with
          | [] => false
          | z :: _ => decide (z < 0x80 ∨ 0xbf < z)

/-- Some but not all bytes of a rune. -/
def Incomplete (b : Bytes) : Prop := ∃ c, b <+: String.utf8EncodeChar c ∧ b.length < (String.utf8EncodeChar c).length

theorem Incomplete.length_le {b : Bytes} (h : Incomplete b) : b.length ≤ 3 := by
  obtain ⟨c, -, hlt⟩ := h
  rw [String.length_utf8EncodeChar] at hlt
  have := c.utf8Size_le_four
  omega

/-! ## The bytes of a rune -/

/-- The bytes of a rune by its size, as the digits of its number. -/
theorem encode_cases (c : Char) :
    (c.toNat < 0x80 ∧ String.utf8EncodeChar c = [.ofNat c.toNat]) ∨
    (0x80 ≤ c.toNat ∧ c.toNat < 0x800 ∧ String.utf8EncodeChar c = [.ofNat (c.toNat / 64 + 0xc0), .ofNat (c.toNat % 64 + 0x80)]) ∨
    (0x800 ≤ c.toNat ∧ c.toNat < 0x10000 ∧ ¬ (0xd800 ≤ c.toNat ∧ c.toNat < 0xe000) ∧ String.utf8EncodeChar c =
      [.ofNat (c.toNat / 4096 + 0xe0), .ofNat (c.toNat / 64 % 64 + 0x80), .ofNat (c.toNat % 64 + 0x80)]) ∨
    (0x10000 ≤ c.toNat ∧ c.toNat < 0x110000 ∧ String.utf8EncodeChar c =
      [.ofNat (c.toNat / 262144 + 0xf0), .ofNat (c.toNat / 4096 % 64 + 0x80), .ofNat (c.toNat / 64 % 64 + 0x80), .ofNat (c.toNat % 64 + 0x80)]) := by
  have hvalid : c.toNat < 0xd800 ∨ 0xdfff < c.toNat ∧ c.toNat < 0x110000 := c.valid
  have hval : c.val.toNat = c.toNat := rfl
  unfold String.utf8EncodeChar
  dsimp only
  rw [hval]
  generalize c.toNat = v at hvalid
  split_ifs with h1 h2 h3
  · exact .inl ⟨by omega, rfl⟩
  · refine .inr (.inl ⟨by omega, by omega, ?_⟩)
    rw [Nat.mod_eq_of_lt (by omega : v / 64 < 0x20)]
  · refine .inr (.inr (.inl ⟨by omega, by omega, by omega, ?_⟩))
    rw [Nat.mod_eq_of_lt (by omega : v / 4096 < 0x10)]
  · refine .inr (.inr (.inr ⟨by omega, by omega, ?_⟩))
    rw [Nat.mod_eq_of_lt (by omega : v / 262144 < 0x08)]

theorem toNat_ofNat_valid {n : Nat} (h : n < 0xd800 ∨ 0xdfff < n ∧ n < 0x110000) : (Char.ofNat n).toNat = n := by
  rw [Char.ofNat, dif_pos h]
  rfl

/-- A byte is read off its value. -/
theorem ofNat_eq {x : UInt8} {n : Nat} (h : n = x.toNat) : UInt8.ofNat n = x := by
  rw [h, UInt8.ofNat_toNat]

theorem exists_encode₂ {x y : UInt8} (hx : 0xc2 ≤ x.toNat ∧ x.toNat < 0xe0) (hy : 0x80 ≤ y.toNat ∧ y.toNat ≤ 0xbf) :
    ∃ c, String.utf8EncodeChar c = [x, y] := by
  refine ⟨.ofNat ((x.toNat - 0xc0) * 64 + (y.toNat - 0x80)), ?_⟩
  have hchar := toNat_ofNat_valid (n := (x.toNat - 0xc0) * 64 + (y.toNat - 0x80)) (by omega)
  obtain ⟨h, -⟩ | ⟨-, -, h⟩ | ⟨h, -⟩ | ⟨h, -⟩ := encode_cases (.ofNat ((x.toNat - 0xc0) * 64 + (y.toNat - 0x80)))
  · omega
  · rw [h, hchar, ofNat_eq (x := x) (by omega), ofNat_eq (x := y) (by omega)]
  · omega
  · omega

theorem exists_encode₃ {x y z : UInt8} (hx : 0xe0 ≤ x.toNat ∧ x.toNat < 0xf0) (hy : 0x80 ≤ y.toNat ∧ y.toNat ≤ 0xbf)
    (hlow : x.toNat = 0xe0 → 0xa0 ≤ y.toNat) (hsurrogate : x.toNat = 0xed → y.toNat ≤ 0x9f) (hz : 0x80 ≤ z.toNat ∧ z.toNat ≤ 0xbf) :
    ∃ c, String.utf8EncodeChar c = [x, y, z] := by
  refine ⟨.ofNat ((x.toNat - 0xe0) * 4096 + (y.toNat - 0x80) * 64 + (z.toNat - 0x80)), ?_⟩
  have hchar := toNat_ofNat_valid (n := (x.toNat - 0xe0) * 4096 + (y.toNat - 0x80) * 64 + (z.toNat - 0x80)) (by omega)
  obtain ⟨h, -⟩ | ⟨-, h, -⟩ | ⟨-, -, -, h⟩ | ⟨h, -⟩ :=
    encode_cases (.ofNat ((x.toNat - 0xe0) * 4096 + (y.toNat - 0x80) * 64 + (z.toNat - 0x80)))
  · omega
  · omega
  · rw [h, hchar, ofNat_eq (x := x) (by omega), ofNat_eq (x := y) (by omega), ofNat_eq (x := z) (by omega)]
  · omega

theorem exists_encode₄ {x y z w : UInt8} (hx : 0xf0 ≤ x.toNat ∧ x.toNat < 0xf5) (hy : 0x80 ≤ y.toNat ∧ y.toNat ≤ 0xbf)
    (hlow : x.toNat = 0xf0 → 0x90 ≤ y.toNat) (hhigh : x.toNat = 0xf4 → y.toNat ≤ 0x8f) (hz : 0x80 ≤ z.toNat ∧ z.toNat ≤ 0xbf)
    (hw : 0x80 ≤ w.toNat ∧ w.toNat ≤ 0xbf) : ∃ c, String.utf8EncodeChar c = [x, y, z, w] := by
  refine ⟨.ofNat ((x.toNat - 0xf0) * 262144 + (y.toNat - 0x80) * 4096 + (z.toNat - 0x80) * 64 + (w.toNat - 0x80)), ?_⟩
  have hchar := toNat_ofNat_valid
    (n := (x.toNat - 0xf0) * 262144 + (y.toNat - 0x80) * 4096 + (z.toNat - 0x80) * 64 + (w.toNat - 0x80)) (by omega)
  obtain ⟨h, -⟩ | ⟨-, h, -⟩ | ⟨-, h, -⟩ | ⟨-, -, h⟩ :=
    encode_cases (.ofNat ((x.toNat - 0xf0) * 262144 + (y.toNat - 0x80) * 4096 + (z.toNat - 0x80) * 64 + (w.toNat - 0x80)))
  · omega
  · omega
  · omega
  · rw [h, hchar, ofNat_eq (x := x) (by omega), ofNat_eq (x := y) (by omega), ofNat_eq (x := z) (by omega), ofNat_eq (x := w) (by omega)]

/-! ## What `FullRune` tells -/

/-- A second byte that the first one accepts. -/
def Accepts (x y : UInt8) : Prop :=
  0x80 ≤ y.toNat ∧ y.toNat ≤ 0xbf ∧ (x.toNat = 0xe0 → 0xa0 ≤ y.toNat) ∧ (x.toNat = 0xed → y.toNat ≤ 0x9f) ∧
    (x.toNat = 0xf0 → 0x90 ≤ y.toNat) ∧ (x.toNat = 0xf4 → y.toNat ≤ 0x8f)

theorem acceptRange_iff (x y : UInt8) : ¬ (y < (acceptRange x).1 ∨ (acceptRange x).2 < y) ↔ Accepts x y := by
  unfold acceptRange Accepts
  split_ifs with h1 h2 h3 h4
  all_goals
    simp only [UInt8.lt_iff_toNat_lt, ← UInt8.toNat_inj, UInt8.reduceToNat] at *
    omega

theorem firstSize_le_iff (x : UInt8) (n : Nat) : ¬ firstSize x ≤ n + 1 ↔
    0xc2 ≤ x.toNat ∧ x.toNat < 0xf5 ∧ n < 3 ∧ (1 ≤ n → 0xe0 ≤ x.toNat) ∧ (2 ≤ n → 0xf0 ≤ x.toNat) := by
  unfold firstSize
  simp only [UInt8.lt_iff_toNat_lt, UInt8.reduceToNat]
  split_ifs <;> omega

/-- A text that is not full has too few bytes, and the second and the third one are accepted. -/
theorem fullRune_cons {x : UInt8} {p : Bytes} : fullRune (x :: p) = false ↔
    ¬ firstSize x ≤ p.length + 1 ∧ (∀ y ∈ p.head?, Accepts x y) ∧ ∀ z ∈ p[1]?, 0x80 ≤ z.toNat ∧ z.toNat ≤ 0xbf := by
  have htail : ∀ z : UInt8, decide (z < 0x80 ∨ 0xbf < z) = false ↔ 0x80 ≤ z.toNat ∧ z.toNat ≤ 0xbf := by
    intro z
    simp only [decide_eq_false_iff_not, UInt8.lt_iff_toNat_lt, UInt8.reduceToNat]
    omega
  unfold fullRune
  by_cases hle : firstSize x ≤ p.length + 1
  · simp [hle]
  · rcases p with _ | ⟨y, _ | ⟨z, p⟩⟩
    · simp
    · have hy := acceptRange_iff x y
      by_cases hout : y < (acceptRange x).1 ∨ (acceptRange x).2 < y
      · simp [hout, show ¬ Accepts x y from fun h => hy.mpr h hout]
      · simp [hout, hy.mp hout]
    · have hy := acceptRange_iff x y
      by_cases hout : y < (acceptRange x).1 ∨ (acceptRange x).2 < y
      · simp [hout, show ¬ Accepts x y from fun h => hy.mpr h hout]
      · simp only [if_neg hle, if_neg hout, htail]
        have hlong : ¬ firstSize x ≤ p.length + 1 + 1 + 1 := hle
        simp [hlong, hy.mp hout]

/-- The texts that are not full. -/
theorem fullRune_eq_false {b : Bytes} : fullRune b = false ↔ b = [] ∨ (∃ x, b = [x] ∧ 0xc2 ≤ x.toNat ∧ x.toNat < 0xf5) ∨
    (∃ x y, b = [x, y] ∧ 0xe0 ≤ x.toNat ∧ x.toNat < 0xf5 ∧ Accepts x y) ∨
    ∃ x y z, b = [x, y, z] ∧ 0xf0 ≤ x.toNat ∧ x.toNat < 0xf5 ∧ Accepts x y ∧ 0x80 ≤ z.toNat ∧ z.toNat ≤ 0xbf := by
  constructor
  · intro h
    rcases b with _ | ⟨x, _ | ⟨y, _ | ⟨z, _ | ⟨w, p⟩⟩⟩⟩
    · exact .inl rfl
    · obtain ⟨hsize, -, -⟩ := fullRune_cons.mp h
      have hx := (firstSize_le_iff x 0).mp hsize
      exact .inr (.inl ⟨x, rfl, hx.1, hx.2.1⟩)
    · obtain ⟨hsize, hy, -⟩ := fullRune_cons.mp h
      have hx := (firstSize_le_iff x 1).mp hsize
      exact .inr (.inr (.inl ⟨x, y, rfl, hx.2.2.2.1 (by omega), hx.2.1, hy y rfl⟩))
    · obtain ⟨hsize, hy, hz⟩ := fullRune_cons.mp h
      have hx := (firstSize_le_iff x 2).mp hsize
      exact .inr (.inr (.inr ⟨x, y, z, rfl, hx.2.2.2.2 (by omega), hx.2.1, hy y rfl, hz z rfl⟩))
    · obtain ⟨hsize, -, -⟩ := fullRune_cons.mp h
      have hx := (firstSize_le_iff x (p.length + 3)).mp hsize
      omega
  · rintro (rfl | ⟨x, rfl, hx⟩ | ⟨x, y, rfl, hx, hx', hy⟩ | ⟨x, y, z, rfl, hx, hx', hy, hz⟩)
    · rfl
    · exact fullRune_cons.mpr ⟨(firstSize_le_iff x 0).mpr (by omega), by simp, by simp⟩
    · exact fullRune_cons.mpr ⟨(firstSize_le_iff x 1).mpr (by omega), by simpa using hy, by simp⟩
    · exact fullRune_cons.mpr ⟨(firstSize_le_iff x 2).mpr (by omega), by simpa using hy, by simpa using hz⟩

theorem Accepts.low {x : UInt8} (hx : x.toNat ≠ 0xe0) (hx' : x.toNat ≠ 0xf0) : Accepts x 0x80 := by
  exact ⟨by decide, by decide, fun h => absurd h hx, fun _ => by decide, fun h => absurd h hx', fun _ => by decide⟩

/-- Some second byte is accepted. -/
theorem exists_accepts (x : UInt8) : ∃ y, Accepts x y := by
  by_cases h1 : x.toNat = 0xe0
  · exact ⟨0xa0, by decide, by decide, fun _ => by decide, by omega, by omega, by omega⟩
  · by_cases h2 : x.toNat = 0xf0
    · exact ⟨0x90, by decide, by decide, by omega, by omega, fun _ => by decide, by omega⟩
    · exact ⟨0x80, .low h1 h2⟩

/-- A text is not full if and only if it is some but not all bytes of a rune. -/
theorem fullRune_iff {b : Bytes} : fullRune b = false ↔ Incomplete b := by
  have hthree : ∀ {x y : UInt8}, 0xe0 ≤ x.toNat → x.toNat < 0xf5 → Accepts x y → Incomplete [x, y] := by
    intro x y hx hx' hy
    by_cases hfour : 0xf0 ≤ x.toNat
    · obtain ⟨c, hc⟩ := exists_encode₄ (z := 0x80) (w := 0x80) ⟨hfour, hx'⟩ ⟨hy.1, hy.2.1⟩ hy.2.2.2.2.1 hy.2.2.2.2.2 (by decide) (by decide)
      exact ⟨c, by rw [hc]; exact ⟨[0x80, 0x80], rfl⟩, by rw [hc]; simp⟩
    · obtain ⟨c, hc⟩ := exists_encode₃ (z := 0x80) ⟨hx, by omega⟩ ⟨hy.1, hy.2.1⟩ hy.2.2.1 hy.2.2.2.1 (by decide)
      exact ⟨c, by rw [hc]; exact ⟨[0x80], rfl⟩, by rw [hc]; simp⟩
  rw [fullRune_eq_false]
  constructor
  · rintro (rfl | ⟨x, rfl, hx, hx'⟩ | ⟨x, y, rfl, hx, hx', hy⟩ | ⟨x, y, z, rfl, hx, hx', hy, hz⟩)
    · exact ⟨'a', List.nil_prefix, by decide⟩
    · by_cases hmore : 0xe0 ≤ x.toNat
      · obtain ⟨y, hy⟩ := exists_accepts x
        obtain ⟨c, hpre, hlt⟩ := hthree hmore hx' hy
        exact ⟨c, (List.prefix_append [x] [y]).trans hpre, (Nat.lt_succ_self 1).trans hlt⟩
      · obtain ⟨c, hc⟩ := exists_encode₂ (x := x) (y := 0x80) ⟨hx, by omega⟩ (by decide)
        exact ⟨c, by rw [hc]; exact ⟨[0x80], rfl⟩, by rw [hc]; simp⟩
    · exact hthree hx hx' hy
    · obtain ⟨c, hc⟩ := exists_encode₄ (w := 0x80) ⟨hx, hx'⟩ ⟨hy.1, hy.2.1⟩ hy.2.2.2.2.1 hy.2.2.2.2.2 hz (by decide)
      exact ⟨c, by rw [hc]; exact ⟨[0x80], rfl⟩, by rw [hc]; simp⟩
  · rintro ⟨c, hpre, hlt⟩
    have hbyte : ∀ {n : Nat}, n < 256 → (UInt8.ofNat n).toNat = n := fun h => by rw [UInt8.toNat_ofNat', Nat.mod_eq_of_lt h]
    obtain ⟨hc, hencode⟩ | ⟨hc, hc', hencode⟩ | ⟨hc, hc', hsurrogate, hencode⟩ | ⟨hc, hc', hencode⟩ := encode_cases c
    all_goals
      rw [hencode] at hpre hlt
      simp only [List.prefix_cons_iff, List.prefix_nil] at hpre
    · rcases hpre with rfl | ⟨_, rfl, rfl⟩
      · exact .inl rfl
      · cases Nat.lt_irrefl _ hlt
    · rcases hpre with rfl | ⟨_, rfl, rfl | ⟨_, rfl, rfl⟩⟩
      · exact .inl rfl
      · exact .inr (.inl ⟨_, rfl, by rw [hbyte (by omega)]; omega⟩)
      · cases Nat.lt_irrefl _ hlt
    · rcases hpre with rfl | ⟨_, rfl, rfl | ⟨_, rfl, rfl | ⟨_, rfl, rfl⟩⟩⟩
      · exact .inl rfl
      · exact .inr (.inl ⟨_, rfl, by rw [hbyte (by omega)]; omega⟩)
      · refine .inr (.inr (.inl ⟨_, _, rfl, ?_⟩))
        unfold Accepts
        rw [hbyte (by omega), hbyte (by omega)]
        omega
      · cases Nat.lt_irrefl _ hlt
    · rcases hpre with rfl | ⟨_, rfl, rfl | ⟨_, rfl, rfl | ⟨_, rfl, rfl | ⟨_, rfl, rfl⟩⟩⟩⟩
      · exact .inl rfl
      · exact .inr (.inl ⟨_, rfl, by rw [hbyte (by omega)]; omega⟩)
      · refine .inr (.inr (.inl ⟨_, _, rfl, ?_⟩))
        unfold Accepts
        rw [hbyte (by omega), hbyte (by omega)]
        omega
      · refine .inr (.inr (.inr ⟨_, _, _, rfl, ?_⟩))
        unfold Accepts
        rw [hbyte (by omega), hbyte (by omega), hbyte (by omega)]
        omega
      · cases Nat.lt_irrefl _ hlt

end Xdragon.Lib
