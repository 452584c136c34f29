import Xdragon.Lib.Utf8
import Xdragon.Runner.Cut

/-!
# The contents that are sent

A text is held back while it ends in the middle of a character. So nothing is dropped when it is sent, wherever the
pieces split the characters.
-/

namespace Xdragon.Runner

open Xdragon.Lib

/-- What is sent between two states. `flushPending` is called once at most, and it sends no empty text. -/
def Response.content (before after : Response) : List Bytes :=
  if after.sent.drop before.sent.length = [] then [] else [after.sent.drop before.sent.length]

/-- The contents of the response to pieces that are followed by the end of the sequence. -/
def Response.contents (stops : List Bytes) (numPredict : Int) : Response → List Bytes → List Bytes
  | r, [] => r.content r.remove
  | r, p :: ps =>
    r.content (r.piece stops numPredict p) ++
      if (r.piece stops numPredict p).removed then []
      else Response.contents stops numPredict (r.piece stops numPredict p) ps

/-! ## Cuts inside a character -/

theorem lead_byte_last (u : UInt8) : (u &&& 0x07 ||| 0xf0) &&& 0xf8 = 0xf0 := by
  rcases u with ⟨x⟩
  revert x
  decide

theorem incompleteUnicode_cut {c : Char} {x y : Bytes} (hc : String.utf8EncodeChar c = x ++ y) (hx : x ≠ [])
    (hy : y ≠ []) (a : Bytes) : incompleteUnicode (a ++ x) = true := by
  have htake : x = (String.utf8EncodeChar c).take x.length := by rw [hc, List.take_left]
  have hpos : 0 < x.length := List.length_pos_iff.mpr hx
  have hlt : x.length < c.utf8Size := by
    have hlen := congrArg List.length hc
    have := List.length_pos_iff.mpr hy
    rw [String.length_utf8EncodeChar, List.length_append] at hlen
    omega
  unfold incompleteUnicode
  rw [List.reverse_append, htake]
  generalize a.reverse = rest
  generalize x.length = k at hpos hlt
  match hs : c.utf8Size, c.utf8Size_pos, c.utf8Size_le_four with
  | 1, _, _ => omega
  | 2, _, _ =>
    rw [String.utf8EncodeChar_eq_cons_cons hs]
    obtain rfl : k = 1 := by omega
    simp [incompleteFrom, lead_byte_two]
  | 3, _, _ =>
    rw [String.utf8EncodeChar_eq_cons_cons_cons hs]
    obtain rfl | rfl : k = 1 ∨ k = 2 := by omega
    · simp [incompleteFrom, lead_byte_three]
    · simp [incompleteFrom, continuation_byte, lead_byte_three]
  | 4, _, _ =>
    rw [String.utf8EncodeChar_eq_cons_cons_cons_cons hs]
    obtain rfl | rfl | rfl : k = 1 ∨ k = 2 ∨ k = 3 := by omega
    · simp [incompleteFrom, lead_byte_four, lead_byte_last]
    · simp [incompleteFrom, continuation_byte, lead_byte_four, lead_byte_last]
    · simp [incompleteFrom, continuation_byte, lead_byte_four, lead_byte_last]

/-- The beginning of a valid text is valid, or it ends inside a character. -/
theorem valid_of_complete {a b : Bytes} (h : validString (a ++ b) = true) (ha : incompleteUnicode a = false) :
    validString a = true := by
  obtain ⟨m, hm⟩ := validString_iff.mp h
  clear h
  -- the characters that are already passed
  suffices hgen : ∀ (pre : List Char) (x : Bytes), a = pre.flatMap String.utf8EncodeChar ++ x →
      m.flatMap String.utf8EncodeChar = x ++ b → validString a = true from hgen [] a rfl hm
  clear hm
  induction m with
  | nil =>
    intro pre x hx hm
    obtain ⟨rfl, -⟩ := List.append_eq_nil_iff.mp hm.symm
    exact validString_iff.mpr ⟨pre, by rw [hx, List.append_nil]⟩
  | cons c m ih =>
    intro pre x hx hm
    rw [List.flatMap_cons, List.append_eq_append_iff] at hm
    obtain ⟨x', rfl, hrest⟩ | ⟨c', hc, -⟩ := hm
    · exact ih (pre ++ [c]) x' (by rw [hx]; simp) hrest
    · by_cases hx0 : x = []
      · exact validString_iff.mpr ⟨pre, by rw [hx, hx0, List.append_nil]⟩
      · by_cases hc0 : c' = []
        · rw [hc0, List.append_nil] at hc
          exact validString_iff.mpr ⟨pre ++ [c], by rw [hx, ← hc]; simp⟩
        · have := incompleteUnicode_cut hc hx0 hc0 (pre.flatMap String.utf8EncodeChar)
          rw [← hx, ha] at this
          cases this

/-! ## The stops -/

theorem contains_of_append {x s y stop : Bytes} (h : contains s stop = true) : contains (x ++ (s ++ y)) stop = true := by
  obtain ⟨i, hi, hpre⟩ := contains_iff.mp h
  refine contains_iff.mpr ⟨x.length + i, by simp only [List.length_append]; omega, ?_⟩
  rw [← List.drop_drop, List.drop_left, List.drop_append_of_le_length hi]
  exact hpre.trans (List.prefix_append _ _)

/-! ## What a step sends -/

theorem content_of_append {before after : Response} {text : Bytes} (h : after.sent = before.sent ++ text)
    (hvalid : validString text = true) :
    (∀ content ∈ before.content after, validString content = true) ∧
      before.sent ++ (before.content after).flatten = after.sent := by
  unfold Response.content
  rw [h, List.drop_left]
  split
  · rename_i hnil
    exact ⟨nofun, by rw [hnil]; rfl⟩
  · exact ⟨by simpa using hvalid, by simp⟩

/-- The state of a sequence that goes on, after the pieces `c`. -/
structure Streamed (c : List Bytes) (r : Response) : Prop where
  text : r.sent ++ r.pending.flatten = c.flatten
  valid : validString r.sent = true
  count : r.numPredicted = c.length
  removed : r.removed = false

section
variable {stops : List Bytes} {numPredict : Int} {c : List Bytes} {r : Response}

/-- All that is held back can be sent at the end of a valid text. -/
theorem Streamed.remove (h : Streamed c r) (hvalid : validString c.flatten = true) :
    ∃ text, r.remove.sent = r.sent ++ text ∧ validString text = true ∧ r.remove.sent = c.flatten := by
  have hpending : validString r.pending.flatten = true := by
    apply validString_right h.valid
    rwa [h.text]
  refine ⟨r.pending.flatten, Response.flushPending_sent hpending, hpending, ?_⟩
  rw [← h.text]
  exact Response.flushPending_sent hpending

/-- A piece is held back, or a valid text is sent with it. -/
theorem Streamed.piece (h : Streamed c r) {p : Bytes} {ps : List Bytes}
    (hvalid : validString (c ++ p :: ps).flatten = true)
    (hstops : ∀ stop ∈ stops, contains (c ++ p :: ps).flatten stop = false)
    (hlimit : numPredict ≤ 0 ∨ ((c ++ p :: ps).length : Int) ≤ numPredict) :
    ∃ text, (r.piece stops numPredict p).sent = r.sent ++ text ∧ validString text = true ∧
      (Streamed (c ++ [p]) (r.piece stops numPredict p) ∨
        ps = [] ∧ (r.piece stops numPredict p).removed = true ∧ (r.piece stops numPredict p).sent = (c ++ [p]).flatten) := by
  have hcount := h.count
  have hflat : (c ++ p :: ps).flatten = r.sent ++ ((r.pending ++ [p]).flatten ++ ps.flatten) := by
    rw [List.flatten_append, ← h.text]
    simp
  have hkeep : Streamed (c ++ [p]) { r with pending := r.pending ++ [p], numPredicted := r.numPredicted + 1 } :=
    ⟨by simp [← h.text], h.valid, by simp [hcount], h.removed⟩
  have hrest : validString ((r.pending ++ [p]).flatten ++ ps.flatten) = true := by
    apply validString_right h.valid
    rwa [← hflat]
  have hnone : findStop (r.pending ++ [p]).flatten stops = none := by
    unfold findStop
    rw [List.find?_eq_none]
    intro stop hstop hcontains
    have := contains_of_append (x := r.sent) (y := ps.flatten) hcontains
    rw [← hflat, hstops stop hstop] at this
    cases this
  unfold Response.piece
  by_cases hlim : numPredict > 0 ∧ ((r.numPredicted + 1 : Nat) : Int) ≥ numPredict
  · -- the limit comes with the last piece
    have hps : ps = [] := by
      rw [List.length_append, List.length_cons] at hlimit
      apply List.eq_nil_of_length_eq_zero
      omega
    rw [hps] at hvalid
    simp only [if_pos hlim]
    obtain ⟨text, h1, h2, h3⟩ := hkeep.remove hvalid
    exact ⟨text, h1, h2, .inr ⟨hps, rfl, h3⟩⟩
  · simp only [if_neg hlim, hnone]
    split
    · exact ⟨[], (List.append_nil _).symm, validString_nil, .inl hkeep⟩
    · split
      · exact ⟨[], (List.append_nil _).symm, validString_nil, .inl hkeep⟩
      · rename_i hcomplete
        have hpending := valid_of_complete hrest (by simpa using hcomplete)
        have hsent := Response.flushPending_sent (r := { r with
          pending := r.pending ++ [p], numPredicted := r.numPredicted + 1 }) hpending
        refine ⟨(r.pending ++ [p]).flatten, hsent, hpending, .inl ⟨?_, ?_, hkeep.count, hkeep.removed⟩⟩
        · rw [hsent, ← hkeep.text]
          exact List.append_nil _
        · rw [hsent]
          exact validString_append h.valid hpending

theorem Streamed.contents {ps : List Bytes} (h : Streamed c r) (hvalid : validString (c ++ ps).flatten = true)
    (hstops : ∀ stop ∈ stops, contains (c ++ ps).flatten stop = false)
    (hlimit : numPredict ≤ 0 ∨ ((c ++ ps).length : Int) ≤ numPredict) :
    (∀ content ∈ r.contents stops numPredict ps, validString content = true) ∧
      r.sent ++ (r.contents stops numPredict ps).flatten = (c ++ ps).flatten := by
  induction ps generalizing c r with
  | nil =>
    rw [List.append_nil] at hvalid ⊢
    obtain ⟨text, htext, hok, hall⟩ := h.remove hvalid
    rw [Response.contents, ← hall]
    exact content_of_append htext hok
  | cons p ps ih =>
    obtain ⟨text, htext, hok, hnext⟩ := h.piece hvalid hstops hlimit
    obtain ⟨hcontent, hsent⟩ := content_of_append htext hok
    rw [Response.contents]
    rcases hnext with hnext | ⟨rfl, hremoved, hall⟩
    · have hcons : c ++ p :: ps = c ++ [p] ++ ps := by simp
      rw [hcons] at hvalid hstops hlimit ⊢
      obtain ⟨hvalids, hflat⟩ := ih hnext hvalid hstops hlimit
      rw [if_neg (by rw [hnext.removed]; decide)]
      refine ⟨fun content hmem => ?_, ?_⟩
      · rcases List.mem_append.mp hmem with hmem | hmem
        · exact hcontent content hmem
        · exact hvalids content hmem
      · rw [List.flatten_append, ← List.append_assoc, hsent, hflat]
    · rw [if_pos hremoved, List.append_nil, hsent, hall]
      exact ⟨hcontent, rfl⟩

end

/-- For all pieces of a valid text without a stop, and a limit that does not cut it: each content is valid, and
together they are the text. -/
theorem contents_lossless {stops : List Bytes} {numPredict : Int} {pieces : List Bytes}
    (hvalid : validString pieces.flatten = true) (hstops : ∀ stop ∈ stops, contains pieces.flatten stop = false)
    (hlimit : numPredict ≤ 0 ∨ (pieces.length : Int) ≤ numPredict) :
    (∀ content ∈ Response.start.contents stops numPredict pieces, validString content = true) ∧
      (Response.start.contents stops numPredict pieces).flatten = pieces.flatten := by
  have hstart : Streamed [] Response.start := ⟨rfl, validString_nil, rfl, rfl⟩
  exact hstart.contents (by simpa using hvalid) (by simpa using hstops) (by simpa using hlimit)

/-- The euro sign comes in three pieces, and it is the start of the stop `"€!"`, which does not come. -/
theorem euro_lossless :
    Response.start.contents [[0xe2, 0x82, 0xac, 33]] 0 [[97, 0xe2], [0x82], [0xac], [98], [99]] =
        [[97, 0xe2, 0x82, 0xac, 98], [99]] ∧
      (∀ content ∈ Response.start.contents [[0xe2, 0x82, 0xac, 33]] 0 [[97, 0xe2], [0x82], [0xac], [98], [99]],
        validString content = true) := by
  refine ⟨by decide, ?_⟩
  exact (contents_lossless (by decide) (by decide) (.inl (Int.le_refl 0))).1

end Xdragon.Runner
