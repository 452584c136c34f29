import Xdragon.Runner.Stop

/-!
# Where a response is cut

The text that is sent to the client ends before the first stop string, when the stop that the runner
finds first is also the one that occurs first, and the limit on the tokens is not reached with it.

A piece is sent when no stop can begin in it. So no stop begins in what was sent, and a search in
the pieces that are held back finds what a search in the whole text finds.
-/

namespace Xdragon.Runner

open Xdragon.Lib

/-- The text up to the first place at which a stop occurs. -/
def beforeStop (stops : List Bytes) (text : Bytes) : Bytes :=
  match firstIndex stops text with
  | none => text
  | some i => text.take i

/-- The number of pieces after which a stop occurs in the text for the first time. -/
def stopPiece (stops pieces : List Bytes) : Option Nat :=
  (List.range (pieces.length + 1)).find? fun k => (firstIndex stops (pieces.take k).flatten).isSome

/-- No stop is completed, or the limit comes before it, or the limit does not come with it and the
first stop of the list that occurs in the text occurs at the first place. -/
def CutsRight (stops : List Bytes) (numPredict : Int) (pieces : List Bytes) : Prop :=
  match stopPiece stops pieces with
  | none => True
  | some k =>
    let text := (pieces.take k).flatten
    0 < numPredict ∧ numPredict < k ∨
      ¬ (0 < numPredict ∧ numPredict = k) ∧ (findStop text stops).bind (index text) = firstIndex stops text

instance (stops : List Bytes) (numPredict : Int) (pieces : List Bytes) : Decidable (CutsRight stops numPredict pieces) := by
  unfold CutsRight; split <;> infer_instance

/-! ## Valid text is complete -/

/-- The marks that the code builds and tests, for every byte. -/
theorem marks (x : BitVec 8) :
    (⟨x⟩ &&& 0x3f ||| 0x80 : UInt8) &&& 0xc0 = 0x80 ∧
    (¬ (⟨x⟩ &&& 0x1f ||| 0xc0 : UInt8) &&& 0xc0 = 0x80 ∧ (⟨x⟩ &&& 0x1f ||| 0xc0 : UInt8) &&& 0xe0 = 0xc0) ∧
    (¬ (⟨x⟩ &&& 0x0f ||| 0xe0 : UInt8) &&& 0xc0 = 0x80 ∧ ¬ (⟨x⟩ &&& 0x0f ||| 0xe0 : UInt8) &&& 0xe0 = 0xc0 ∧
      (⟨x⟩ &&& 0x0f ||| 0xe0 : UInt8) &&& 0xf0 = 0xe0) ∧
    (¬ (⟨x⟩ &&& 0x07 ||| 0xf0 : UInt8) &&& 0xc0 = 0x80 ∧ ¬ (⟨x⟩ &&& 0x07 ||| 0xf0 : UInt8) &&& 0xe0 = 0xc0 ∧
      ¬ (⟨x⟩ &&& 0x07 ||| 0xf0 : UInt8) &&& 0xf0 = 0xe0) ∧
    ((⟨x⟩ : UInt8) < 0x80 → ¬ (⟨x⟩ : UInt8) &&& 0xc0 = 0x80 ∧ ¬ (⟨x⟩ : UInt8) &&& 0xe0 = 0xc0 ∧
      ¬ (⟨x⟩ : UInt8) &&& 0xf0 = 0xe0 ∧ ¬ (⟨x⟩ : UInt8) &&& 0xf8 = 0xf0) := by
  revert x
  decide +kernel

theorem continuation_byte (u : UInt8) : (u &&& 0x3f ||| 0x80) &&& 0xc0 = 0x80 := (marks u.toBitVec).1

theorem lead_byte_two (u : UInt8) :
    ¬ (u &&& 0x1f ||| 0xc0) &&& 0xc0 = 0x80 ∧ (u &&& 0x1f ||| 0xc0) &&& 0xe0 = 0xc0 := (marks u.toBitVec).2.1

theorem lead_byte_three (u : UInt8) :
    ¬ (u &&& 0x0f ||| 0xe0) &&& 0xc0 = 0x80 ∧ ¬ (u &&& 0x0f ||| 0xe0) &&& 0xe0 = 0xc0 ∧
      (u &&& 0x0f ||| 0xe0) &&& 0xf0 = 0xe0 := (marks u.toBitVec).2.2.1

theorem lead_byte_four (u : UInt8) :
    ¬ (u &&& 0x07 ||| 0xf0) &&& 0xc0 = 0x80 ∧ ¬ (u &&& 0x07 ||| 0xf0) &&& 0xe0 = 0xc0 ∧
      ¬ (u &&& 0x07 ||| 0xf0) &&& 0xf0 = 0xe0 := (marks u.toBitVec).2.2.2.1

theorem single_byte {u : UInt8} (h : u < 0x80) : ¬ u &&& 0xc0 = 0x80 ∧ ¬ u &&& 0xe0 = 0xc0 ∧ ¬ u &&& 0xf0 = 0xe0 ∧
    ¬ u &&& 0xf8 = 0xf0 := (marks u.toBitVec).2.2.2.2 h

theorem incompleteUnicode_valid {b : Bytes} (h : validString b = true) : incompleteUnicode b = false := by
  obtain ⟨m, rfl⟩ := validString_iff.mp h
  rcases List.eq_nil_or_concat' m with rfl | ⟨m, c, rfl⟩
  · rfl
  unfold incompleteUnicode
  simp only [List.flatMap_append, List.flatMap_singleton, List.reverse_append]
  generalize (List.flatMap String.utf8EncodeChar m).reverse = rest
  match hs : c.utf8Size, c.utf8Size_pos, c.utf8Size_le_four with
  | 1, _, _ =>
    have hlt : c.val.toUInt8 < 0x80 := by
      unfold Char.utf8Size at hs
      simp only at hs
      split_ifs at hs with h1
      · have h1 : c.val.toNat ≤ 127 := UInt32.le_iff_toNat_le.mp h1
        have h2 : (0x80 : UInt8).toNat = 128 := rfl
        rw [UInt8.lt_iff_toNat_lt, UInt32.toNat_toUInt8]
        omega
      all_goals omega
    obtain ⟨h1, h2, h3, h4⟩ := single_byte hlt
    rw [String.utf8EncodeChar_eq_singleton hs]
    generalize c.val.toUInt8 = u at h1 h2 h3 h4
    simp [incompleteFrom, h1, h2, h3, h4]
  | 2, _, _ =>
    rw [String.utf8EncodeChar_eq_cons_cons hs]
    simp [incompleteFrom, continuation_byte, lead_byte_two]
  | 3, _, _ =>
    rw [String.utf8EncodeChar_eq_cons_cons_cons hs]
    simp [incompleteFrom, continuation_byte, lead_byte_three]
  | 4, _, _ =>
    rw [String.utf8EncodeChar_eq_cons_cons_cons_cons hs]
    simp [incompleteFrom, continuation_byte, lead_byte_four]

/-! ## Searching the pieces that are held back -/

/-- The state of the response after the pieces `c`, when the sequence goes on. -/
structure Held (stops : List Bytes) (numPredict : Int) (c : List Bytes) (r : Response) : Prop where
  text : r.sent ++ r.pending.flatten = c.flatten
  valid : ∀ p ∈ r.pending, validString p = true
  unstopped : firstIndex stops c.flatten = none
  /-- No stop begins in what was sent, whatever comes. -/
  sent : ∀ z, ∀ i < r.sent.length, ∀ stop ∈ stops, ¬ stop <+: (c.flatten ++ z).drop i
  count : r.numPredicted = c.length
  limit : ¬ (0 < numPredict ∧ numPredict ≤ c.length)
  removed : r.removed = false

section
variable {stops : List Bytes} {numPredict : Int} {c : List Bytes} {r : Response} {p : Bytes}

theorem Held.text_append (h : Held stops numPredict c r) (p : Bytes) :
    (c ++ [p]).flatten = r.sent ++ (r.pending ++ [p]).flatten := by
  simp [← h.text]

/-- A search for stops in the whole text is one in the pieces that are held back. -/
theorem Held.firstIndex_eq (h : Held stops numPredict c r) (p : Bytes) {ss : List Bytes} (hss : ∀ s ∈ ss, s ∈ stops) :
    firstIndex ss (c ++ [p]).flatten = (firstIndex ss (r.pending ++ [p]).flatten).map (r.sent.length + ·) := by
  rw [h.text_append p]
  apply firstIndex_append
  intro i hi s hs
  have := h.sent p i hi s (hss s hs)
  rwa [show c.flatten ++ p = (c ++ [p]).flatten by simp, h.text_append p] at this

theorem Held.findStop_eq (h : Held stops numPredict c r) (p : Bytes) :
    findStop (c ++ [p]).flatten stops = findStop (r.pending ++ [p]).flatten stops := by
  unfold findStop
  rw [← List.head?_filter, ← List.head?_filter]
  congr 1
  apply List.filter_congr
  intro s hs
  unfold contains
  rw [h.firstIndex_eq p (by simpa using hs), Option.isSome_map]

theorem findStop_eq_none_iff {text : Bytes} : findStop text stops = none ↔ firstIndex stops text = none := by
  unfold findStop
  rw [List.find?_eq_none, firstIndex_eq_none]
  simp only [contains_iff]
  constructor
  · exact fun h i hi s hs hpre => h s hs ⟨i, hi, hpre⟩
  · exact fun h s hs ⟨i, hi, hpre⟩ => h i hi s hs hpre

/-- A text that ends with the start of no stop, and has none in it, can be sent. -/
theorem no_stop_straddles {text z : Bytes} (hnone : firstIndex stops text = none)
    (hsuffix : containsStopSuffix text stops = false) {i : Nat} (hi : i < text.length) {s : Bytes} (hs : s ∈ stops) :
    ¬ s <+: (text ++ z).drop i := by
  intro hpre
  rw [List.drop_append_of_le_length (by omega)] at hpre
  obtain hle | hlt := Nat.lt_or_ge (text.drop i).length s.length |>.symm
  · -- the stop is in the text
    rw [firstIndex_eq_none] at hnone
    exact hnone i (by omega) s hs (List.prefix_of_prefix_length_le hpre (List.prefix_append _ _) hle)
  · -- the end of the text is a start of the stop
    have hstart : text.drop i <+: s := List.prefix_of_prefix_length_le (List.prefix_append _ _) hpre (by omega)
    have hlen : 0 < (text.drop i).length := by
      rw [List.length_drop]
      omega
    have htrue : containsStopSuffix text stops = true := by
      unfold containsStopSuffix
      rw [List.any_eq_true]
      refine ⟨s, hs, List.any_eq_true.mpr ⟨(text.drop i).length, ?_, ?_⟩⟩
      · rw [List.mem_range'_1]
        omega
      · rw [List.isSuffixOf_iff_suffix, ← List.prefix_iff_eq_take.mp hstart]
        exact List.drop_suffix i text
    rw [hsuffix] at htrue
    exact absurd htrue (by decide)

theorem Held.keep (h : Held stops numPredict c r) (hp : validString p = true) (hnone : firstIndex stops (c ++ [p]).flatten = none)
    (hlimit : ¬ (0 < numPredict ∧ numPredict ≤ (c ++ [p]).length)) :
    Held stops numPredict (c ++ [p]) { r with pending := r.pending ++ [p], numPredicted := r.numPredicted + 1 } where
  text := (h.text_append p).symm
  valid q hq := by
    obtain hq | hq := List.mem_append.mp hq
    · exact h.valid q hq
    · rw [List.mem_singleton.mp hq]
      exact hp
  unstopped := hnone
  sent z i hi s hs := by
    have := h.sent (p ++ z) i hi s hs
    rwa [← List.append_assoc, show c.flatten ++ p = (c ++ [p]).flatten by simp] at this
  count := by simp [h.count]
  limit := hlimit
  removed := h.removed

theorem Held.flush (h : Held stops numPredict c r) (hsuffix : containsStopSuffix r.pending.flatten stops = false) :
    Held stops numPredict c r.flushPending := by
  have hvalid := validString_flatten h.valid
  have hsent := Response.flushPending_sent hvalid
  have hpending : r.flushPending.pending = [] := rfl
  refine ⟨by rw [hsent, hpending, h.text]; simp, by simp [hpending], h.unstopped, ?_, h.count, h.limit, h.removed⟩
  intro z i hi s hs hpre
  by_cases hlt : i < r.sent.length
  · exact h.sent z i hlt s hs hpre
  · rw [hsent, List.length_append] at hi
    rw [← h.text, List.append_assoc, List.drop_append, List.drop_eq_nil_of_le (by omega), List.nil_append] at hpre
    have hnone : firstIndex stops r.pending.flatten = none := by
      rw [firstIndex_eq_none]
      intro j hj q hq hqre
      have := firstIndex_eq_none.mp h.unstopped (r.sent.length + j) (by rw [← h.text, List.length_append]; omega) q hq
      rw [← h.text, List.drop_append, Nat.add_sub_cancel_left, List.drop_eq_nil_of_le (by omega), List.nil_append] at this
      exact this hqre
    exact no_stop_straddles hnone hsuffix (by omega) hs hpre

/-! ## The number of the piece that completes a stop -/

theorem take_length_succ (c : List Bytes) (p : Bytes) (ps : List Bytes) :
    (c ++ p :: ps).take (c.length + 1) = c ++ [p] := by
  simp [List.take_append]

theorem firstIndex_take_none {pieces : List Bytes} (h : firstIndex stops pieces.flatten = none) (k : Nat) :
    firstIndex stops (pieces.take k).flatten = none := by
  apply firstIndex_append_none (b := (pieces.drop k).flatten)
  rwa [← List.flatten_append, List.take_append_drop]

theorem stopPiece_eq (ps : List Bytes) (hnone : firstIndex stops c.flatten = none)
    (hsome : firstIndex stops (c ++ [p]).flatten ≠ none) : stopPiece stops (c ++ p :: ps) = some (c.length + 1) := by
  unfold stopPiece
  rw [List.find?_range_eq_some]
  refine ⟨?_, ?_, ?_⟩
  · rw [take_length_succ]
    exact Option.isSome_iff_ne_none.mpr hsome
  · simp
  · intro j hj
    have hle : j ≤ c.length := by omega
    rw [List.take_append_of_le_length hle, firstIndex_take_none hnone]
    rfl

theorem lt_stopPiece {ps : List Bytes} (hnone : firstIndex stops (c ++ [p]).flatten = none) {k : Nat}
    (hk : stopPiece stops (c ++ p :: ps) = some k) : c.length + 1 < k := by
  unfold stopPiece at hk
  rw [List.find?_range_eq_some] at hk
  by_contra hle
  have htake : (c ++ p :: ps).take k = (c ++ [p]).take k := by
    rw [← take_length_succ c p ps, List.take_take, Nat.min_eq_left (by omega)]
  rw [htake, firstIndex_take_none hnone] at hk
  exact absurd hk.1 (by decide)

theorem stopPiece_eq_none {pieces : List Bytes} (h : firstIndex stops pieces.flatten = none) :
    stopPiece stops pieces = none := by
  unfold stopPiece
  rw [List.find?_eq_none]
  intro k _
  rw [firstIndex_take_none h]
  decide

/-! ## The response -/

theorem Held.remove (h : Held stops numPredict c r) : r.remove.sent = c.flatten := by
  unfold Response.remove
  rw [Response.flushPending_sent (validString_flatten h.valid), h.text]

/-- The text before a stop is valid, so all of it is sent. -/
theorem Held.stop (h : Held stops numPredict c r) (hp : validString p = true) {s : Bytes} (hs : s ∈ stops) (hne : s ≠ [])
    (hvalid : validString s = true) {i : Nat} (hi : index (c ++ [p]).flatten s = some i) :
    (Response.remove { r with pending := (truncateStop (r.pending ++ [p]) s).1, numPredicted := r.numPredicted + 1 }).sent =
      (c ++ [p]).flatten.take i := by
  have hpieces : ∀ q ∈ r.pending ++ [p], validString q = true := by
    intro q hq
    obtain hq | hq := List.mem_append.mp hq
    · exact h.valid q hq
    · rw [List.mem_singleton.mp hq]
      exact hp
  unfold index at hi
  rw [h.firstIndex_eq p (by simpa using hs)] at hi
  obtain ⟨j, hj, rfl⟩ := Option.map_eq_some_iff.mp hi
  have hflat := flatten_truncateStop hj
  have htake : validString ((r.pending ++ [p]).flatten.take j) = true := by
    obtain ⟨-, ⟨q, hq, y, hy⟩, -⟩ := firstIndex_eq_some.mp hj
    obtain rfl := List.mem_singleton.mp hq
    apply validString_left hvalid hne (y := y)
    rw [hy, List.take_append_drop]
    exact validString_flatten hpieces
  unfold Response.remove
  rw [Response.flushPending_sent (by rw [hflat]; exact htake), hflat, h.text_append p]
  simp [List.take_append]

/-- The three things that can happen with a piece. -/
theorem Held.piece (hstops : ∀ s ∈ stops, s ≠ [] ∧ validString s = true) (h : Held stops numPredict c r)
    (hp : validString p = true) :
    (0 < numPredict ∧ numPredict = (c.length + 1 : Nat)) ∧ (r.piece stops numPredict p).removed = true ∧
        (r.piece stops numPredict p).sent = (c ++ [p]).flatten ∨
    ¬ (0 < numPredict ∧ numPredict ≤ (c.length + 1 : Nat)) ∧ (r.piece stops numPredict p).removed = true ∧
      (∃ s i, findStop (c ++ [p]).flatten stops = some s ∧ index (c ++ [p]).flatten s = some i ∧
        (r.piece stops numPredict p).sent = (c ++ [p]).flatten.take i) ∨
    firstIndex stops (c ++ [p]).flatten = none ∧ Held stops numPredict (c ++ [p]) (r.piece stops numPredict p) := by
  have hcount := h.count
  have hlimit := h.limit
  have hpieces : ∀ q ∈ r.pending ++ [p], validString q = true := by
    intro q hq
    obtain hq | hq := List.mem_append.mp hq
    · exact h.valid q hq
    · rw [List.mem_singleton.mp hq]
      exact hp
  unfold Response.piece
  by_cases hlim : numPredict > 0 ∧ ((r.numPredicted + 1 : Nat) : Int) ≥ numPredict
  · left
    simp only [if_pos hlim]
    refine ⟨by omega, rfl, ?_⟩
    unfold Response.remove
    rw [Response.flushPending_sent (validString_flatten hpieces), h.text_append p]
  have hlim' : ¬ (0 < numPredict ∧ numPredict ≤ (c.length + 1 : Nat)) := by omega
  right
  simp only [if_neg hlim]
  cases hfind : findStop (c ++ [p]).flatten stops with
  | some s =>
    left
    have hs := List.mem_of_find?_eq_some hfind
    have hcontains : contains (c ++ [p]).flatten s = true := List.find?_some hfind
    obtain ⟨i, hi⟩ := Option.isSome_iff_exists.mp hcontains
    rw [h.findStop_eq p] at hfind
    simp only [hfind]
    exact ⟨hlim', rfl, s, i, rfl, hi, h.stop hp hs (hstops s hs).1 (hstops s hs).2 hi⟩
  | none =>
    right
    have hnone := findStop_eq_none_iff.mp hfind
    have hkeep := h.keep hp hnone (by rw [List.length_append]; exact hlim')
    rw [h.findStop_eq p] at hfind
    simp only [hfind, incompleteUnicode_valid (validString_flatten hpieces), Bool.false_eq_true, if_false]
    refine ⟨hnone, ?_⟩
    split_ifs with hsuffix
    · exact hkeep
    · exact hkeep.flush (by simpa using hsuffix)

theorem beforeStop_eq {text : Bytes} {i : Nat} (h : firstIndex stops text = some i) : beforeStop stops text = text.take i := by
  rw [beforeStop, h]

end

/-- What is sent ends before the first stop exactly when `CutsRight` holds. -/
theorem Held.pieces {stops : List Bytes} (hstops : ∀ s ∈ stops, s ≠ [] ∧ validString s = true) {numPredict : Int}
    {c : List Bytes} {r : Response} (h : Held stops numPredict c r) {ps : List Bytes} (hps : ∀ p ∈ ps, validString p = true) :
    (r.pieces stops numPredict ps).1.sent = beforeStop stops (c ++ (r.pieces stops numPredict ps).2).flatten ↔
      CutsRight stops numPredict (c ++ ps) := by
  induction ps generalizing c r with
  | nil =>
    have hcut : CutsRight stops numPredict c := by
      unfold CutsRight
      rw [stopPiece_eq_none h.unstopped]
      trivial
    rw [Response.pieces, List.append_nil, beforeStop, h.unstopped]
    exact iff_of_true h.remove hcut
  | cons p ps ih =>
    have hp := hps p List.mem_cons_self
    obtain ⟨⟨hpos, hlim⟩, hremoved, hsent⟩ | ⟨hlim, hremoved, s, i, hfind, hindex, hsent⟩ | ⟨hnone, hheld⟩ :=
      h.piece hstops hp
    · -- the limit: everything is sent
      rw [Response.pieces, if_pos hremoved, hsent]
      unfold CutsRight
      cases hfirst : firstIndex stops (c ++ [p]).flatten with
      | none =>
        rw [beforeStop, hfirst]
        refine iff_of_true rfl ?_
        split
        · trivial
        · rename_i k hk
          have := lt_stopPiece hfirst hk
          exact .inl ⟨hpos, by omega⟩
      | some i =>
        rw [beforeStop_eq hfirst, stopPiece_eq ps h.unstopped (by rw [hfirst]; exact Option.some_ne_none _)]
        refine iff_of_false (fun heq => ?_) ?_
        · obtain ⟨-, ⟨s, hs, hpre⟩, -⟩ := firstIndex_eq_some.mp hfirst
          have hlt := lt_of_prefix_drop (hstops s hs).1 hpre
          have := congrArg List.length heq
          rw [List.length_take] at this
          omega
        · simp only
          omega
    · -- a stop: what is before it is sent
      rw [Response.pieces, if_pos hremoved, hsent]
      unfold CutsRight
      cases hfirst : firstIndex stops (c ++ [p]).flatten with
      | none =>
        rw [findStop_eq_none_iff.mpr hfirst] at hfind
        simp at hfind
      | some j =>
        rw [beforeStop_eq hfirst, stopPiece_eq ps h.unstopped (by rw [hfirst]; exact Option.some_ne_none _)]
        have hi := (firstIndex_eq_some.mp hindex).1
        have hj := (firstIndex_eq_some.mp hfirst).1
        simp only [take_length_succ, hfind, hfirst, Option.bind_some, hindex, Option.some.injEq]
        constructor
        · intro heq
          have := congrArg List.length heq
          rw [List.length_take, List.length_take] at this
          exact .inr ⟨by omega, by omega⟩
        · rintro (hlt | ⟨-, rfl⟩)
          · omega
          · rfl
    · -- the sequence goes on
      rw [Response.pieces, if_neg (by simp [hheld.removed])]
      have := ih hheld fun q hq => hps q (List.mem_cons_of_mem _ hq)
      simpa using this

/-- For all stops and pieces of valid UTF-8, and pieces that are followed by the end of the sequence:
the contents that are sent are the sampled pieces up to the first stop exactly when `CutsRight`. -/
theorem sent_eq_beforeStop_iff (stops : List Bytes) (hstops : ∀ s ∈ stops, s ≠ [] ∧ validString s = true)
    (numPredict : Int) (pieces : List Bytes) (hpieces : ∀ p ∈ pieces, validString p = true) :
    (Response.start.pieces stops numPredict pieces).1.sent =
        beforeStop stops (Response.start.pieces stops numPredict pieces).2.flatten ↔
      CutsRight stops numPredict pieces := by
  have hstart : Held stops numPredict [] Response.start := by
    refine ⟨rfl, by simp [Response.start], ?_, by simp [Response.start], rfl, by simp, rfl⟩
    rw [firstIndex_eq_none]
    intro i _ s hs hpre
    have := lt_of_prefix_drop (hstops s hs).1 hpre
    simp at this
  exact hstart.pieces hstops hpieces

/-! ## Two responses -/

/-- The stop `"lo"` and the pieces `"hel"` and `"lo!"`: the first piece is held back, and `"hel"` is sent. -/
theorem hello_cut :
    CutsRight [[108, 111]] 0 [[104, 101, 108], [108, 111, 33]] ∧
      (Response.start.pieces [[108, 111]] 0 [[104, 101, 108], [108, 111, 33]]).1.sent =
        beforeStop [[108, 111]] (Response.start.pieces [[108, 111]] 0 [[104, 101, 108], [108, 111, 33]]).2.flatten := by
  have hcut : CutsRight [[108, 111]] 0 [[104, 101, 108], [108, 111, 33]] := by decide
  refine ⟨hcut, ?_⟩
  exact (sent_eq_beforeStop_iff [[108, 111]] (by decide) 0 [[104, 101, 108], [108, 111, 33]]
    (by decide)).mpr hcut

/-- The stops `"b"` and `"a"`, in this order, and the piece `"ab"`: `"a"` is sent. And the stop `"a"`
with a limit of one token, and the piece `"a"`: `"a"` is sent. -/
theorem later_stop_first :
    (Response.start.pieces [[98], [97]] 0 [[97, 98]]).1.sent = [97] ∧
      beforeStop [[98], [97]] (Response.start.pieces [[98], [97]] 0 [[97, 98]]).2.flatten = [] ∧
    (Response.start.pieces [[97]] 1 [[97]]).1.sent = [97] ∧
      beforeStop [[97]] (Response.start.pieces [[97]] 1 [[97]]).2.flatten = [] := by
  decide

end Xdragon.Runner
