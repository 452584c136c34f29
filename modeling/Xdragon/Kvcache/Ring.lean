import Mathlib.Data.List.Rotate
import Xdragon.Kvcache.Checkpoints
import Xdragon.Lib.Run

/-!
# The checkpoints as a ring

`record` takes the next entry around the ring, and does not look at what is in it. So the ring has to be in order: the
free entries come next, and then the others from the oldest one on. A removal starts the ring again at the first free
entry of the array, or at the oldest entry if none is free. After that it is in order only if all free entries follow
the first one, and the others follow them in order.
-/

open Xdragon.Lib

namespace Xdragon.Kvcache

namespace SlotCheckpointStore

variable {α : Type}

/-! ## What is claimed -/

structure RecordsRight (s : SlotCheckpointStore α) : Prop where
  /-- `size` counts the entries with a checkpoint. -/
  size : s.size = s.entries.countP fun e => 0 ≤ e.pos
  /-- A checkpoint is overwritten if all entries have one, and it is the oldest one. -/
  oldest : ∀ pos idx, (s.record pos).1 = some idx → ∃ e, s.entries[idx]? = some e ∧
    (0 ≤ e.pos → ∀ x ∈ s.entries, 0 ≤ x.pos ∧ e.pos ≤ x.pos)

inductive Op where
  | record (pos : Int)
  | pruneAfter (pos : Int)
  | shiftRange (beginIndex endIndex : Int)
  | reset

def apply (s : SlotCheckpointStore α) : Op → Option (SlotCheckpointStore α)
  | .record pos => some (s.record pos).2
  | .pruneAfter pos => some (s.pruneAfter pos)
  | .shiftRange beginIndex endIndex => some (s.shiftRange beginIndex endIndex)
  | .reset => some s.reset

/-- A recorded position is larger than all others. Positions are in the range of an `int32`. -/
def Valid (s : SlotCheckpointStore α) : Op → Prop
  | .record pos => 0 ≤ pos ∧ pos ≤ maxInt32 ∧ ∀ e ∈ s.entries, e.pos < pos
  | .shiftRange beginIndex endIndex => ∀ e ∈ s.entries, endIndex ≤ e.pos → e.pos + (beginIndex - endIndex) ≤ maxInt32
  | _ => True

instance (s : SlotCheckpointStore α) : DecidablePred (Valid s)
  | .record pos => inferInstanceAs (Decidable (0 ≤ pos ∧ pos ≤ maxInt32 ∧ ∀ e ∈ s.entries, e.pos < pos))
  | .shiftRange beginIndex endIndex => inferInstanceAs (Decidable (∀ e ∈ s.entries, endIndex ≤ e.pos →
      e.pos + (beginIndex - endIndex) ≤ maxInt32))
  | .pruneAfter _ => inferInstanceAs (Decidable True)
  | .reset => inferInstanceAs (Decidable True)

/-! ## When it holds -/

def positions (s : SlotCheckpointStore α) : List Int := s.entries.map (·.pos)

/-- The positions that an operation leaves. -/
def Keeps : Op → Int → Prop
  | .pruneAfter pos, p => 0 ≤ p ∧ p ≤ pos
  | .shiftRange beginIndex endIndex, p =>
    0 ≤ p ∧ ¬ (beginIndex ≤ p ∧ p < endIndex) ∧ ¬ (endIndex ≤ p ∧ p + (beginIndex - endIndex) < 0)
  | _, p => 0 ≤ p

instance : ∀ op, DecidablePred (Keeps op)
  | .pruneAfter pos => fun p => inferInstanceAs (Decidable (0 ≤ p ∧ p ≤ pos))
  | .shiftRange beginIndex endIndex => fun p => inferInstanceAs (Decidable (0 ≤ p ∧
      ¬ (beginIndex ≤ p ∧ p < endIndex) ∧ ¬ (endIndex ≤ p ∧ p + (beginIndex - endIndex) < 0)))
  | .record _ => fun p => inferInstanceAs (Decidable (0 ≤ p))
  | .reset => fun p => inferInstanceAs (Decidable (0 ≤ p))

/-- Around the ring from the first entry that is not kept on: the entries that are not kept come first, and the others
in the order of their positions. -/
def RestOrdered (kept : Int → Prop) [DecidablePred kept] (ps : List Int) : Prop :=
  (∀ p ∈ ps, kept p) ∨ (ps.rotate (ps.findIdx fun p => ¬ kept p)).Pairwise fun p q => kept p → kept q ∧ p < q

instance (kept : Int → Prop) [DecidablePred kept] (ps : List Int) : Decidable (RestOrdered kept ps) :=
  inferInstanceAs (Decidable (_ ∨ _))

/-- A removal leaves the ring in order. -/
def LeavesRing (s : SlotCheckpointStore α) : Op → Prop
  | .pruneAfter pos => RestOrdered (Keeps (.pruneAfter pos)) s.positions
  | .shiftRange beginIndex endIndex => RestOrdered (Keeps (.shiftRange beginIndex endIndex)) s.positions
  | _ => True

instance (s : SlotCheckpointStore α) : DecidablePred (LeavesRing s)
  | .pruneAfter pos => inferInstanceAs (Decidable (RestOrdered (Keeps (.pruneAfter pos)) s.positions))
  | .shiftRange beginIndex endIndex =>
    inferInstanceAs (Decidable (RestOrdered (Keeps (.shiftRange beginIndex endIndex)) s.positions))
  | .record _ => inferInstanceAs (Decidable True)
  | .reset => inferInstanceAs (Decidable True)

/-! ## The ring -/

/-- The positions in the order in which records overwrite them. -/
def ring (s : SlotCheckpointStore α) : List Int := s.positions.rotate s.next

/-- A free entry comes before all others, and a checkpoint before the later ones. -/
def Follows (p q : Int) : Prop := 0 ≤ p → p < q

structure Ringed (s : SlotCheckpointStore α) : Prop where
  next : s.next < s.entries.length
  size : s.size = s.positions.countP (0 ≤ ·)
  order : s.ring.Pairwise Follows
  range : ∀ p ∈ s.positions, p ≤ maxInt32

theorem mem_positions {s : SlotCheckpointStore α} {e : CheckpointEntry α} (h : e ∈ s.entries) : e.pos ∈ s.positions :=
  List.mem_map_of_mem h

theorem length_positions (s : SlotCheckpointStore α) : s.positions.length = s.entries.length := List.length_map _

theorem positions_split {s : SlotCheckpointStore α} (h : s.next < s.entries.length) :
    ∃ p, s.positions[s.next]? = some p ∧
      s.positions = s.positions.take s.next ++ p :: s.positions.drop (s.next + 1) := by
  have hlt : s.next < s.positions.length := by rwa [length_positions]
  refine ⟨s.positions[s.next], List.getElem?_eq_getElem hlt, ?_⟩
  rw [← List.drop_eq_getElem_cons hlt, List.take_append_drop]

/-- The ring begins with the next entry. -/
theorem ring_eq {s : SlotCheckpointStore α} {p : Int} {a b : List Int} (hs : s.positions = a ++ p :: b)
    (ha : a.length = s.next) : s.ring = p :: (b ++ a) := by
  rw [ring, hs, ← ha, List.rotate_append_length_eq]
  rfl

theorem record_fst {s : SlotCheckpointStore α} (h : s.next < s.entries.length) (pos : Int) :
    (s.record pos).1 = some s.next := by
  unfold record
  rw [if_neg (List.ne_nil_of_length_pos (by omega))]

theorem Ringed.right {s : SlotCheckpointStore α} (h : Ringed s) : RecordsRight s := by
  refine ⟨?_, fun pos idx hidx => ?_⟩
  · rw [h.size, positions, List.countP_map]
    rfl
  · have hnext := h.next
    rw [record_fst hnext] at hidx
    obtain rfl := Option.some.inj hidx
    refine ⟨s.entries[s.next], List.getElem?_eq_getElem h.next, fun h0 x hx => ?_⟩
    obtain ⟨p, hp, hs⟩ := positions_split h.next
    have hpos : s.entries[s.next].pos = p := by
      rw [positions, List.getElem?_map, List.getElem?_eq_getElem h.next] at hp
      exact Option.some.inj hp
    have hring := ring_eq hs (by rw [List.length_take, length_positions]; have := h.next; omega)
    have horder := h.order
    rw [hring, List.pairwise_cons] at horder
    have hx' : x.pos ∈ s.ring := List.mem_rotate.mpr (mem_positions hx)
    rw [hring, List.mem_cons] at hx'
    rw [hpos] at h0 ⊢
    rcases hx' with heq | hmem
    · omega
    · have := horder.1 x.pos hmem h0
      omega

/-! ## Records -/

theorem record_positions {s : SlotCheckpointStore α} (h : s.next < s.entries.length) (pos : Int) :
    (s.record pos).2.positions = s.positions.take s.next ++ pos :: s.positions.drop (s.next + 1) := by
  unfold record
  rw [if_neg (List.ne_nil_of_length_pos (by omega))]
  simp only [positions, setPos, List.modify_eq_take_cons_drop h, List.map_append, List.map_cons, List.map_take,
    List.map_drop]

theorem record_length {s : SlotCheckpointStore α} (h : s.next < s.entries.length) (pos : Int) :
    (s.record pos).2.entries.length = s.entries.length := by
  unfold record
  rw [if_neg (List.ne_nil_of_length_pos (by omega))]
  simp only [setPos, List.length_modify]

theorem record_next {s : SlotCheckpointStore α} (h : s.next < s.entries.length) (pos : Int) :
    (s.record pos).2.next = (s.next + 1) % s.entries.length := by
  unfold record
  rw [if_neg (List.ne_nil_of_length_pos (by omega))]

/-- The new position comes last around the ring. -/
theorem record_ring {s : SlotCheckpointStore α} (h : s.next < s.entries.length) (pos : Int) {p : Int} {r : List Int}
    (hring : s.ring = p :: r) : (s.record pos).2.ring = r ++ [pos] := by
  obtain ⟨q, -, hs⟩ := positions_split h
  have hlen : (s.positions.take s.next).length = s.next := by
    rw [List.length_take, length_positions]
    omega
  have hr := ring_eq hs hlen
  rw [hring, List.cons.injEq] at hr
  have hn : s.entries.length = (s.record pos).2.positions.length := by rw [length_positions, record_length h]
  rw [ring, record_next h, hn, List.rotate_mod, record_positions h, hr.2, List.append_cons]
  have hlen' : (s.positions.take s.next ++ [pos]).length = s.next + 1 := by
    rw [List.length_append, hlen, List.length_singleton]
  rw [← hlen', List.rotate_append_length_eq, List.append_assoc]

theorem Ringed.record {s : SlotCheckpointStore α} (h : Ringed s) {pos : Int} (hpos : Valid s (.record pos)) :
    Ringed (s.record pos).2 := by
  obtain ⟨h0, hmax, hgrows⟩ := hpos
  have hgrows' : ∀ p ∈ s.positions, p < pos := by
    intro p hp
    obtain ⟨e, he, rfl⟩ := List.mem_map.mp hp
    exact hgrows e he
  have hnext := h.next
  obtain ⟨p, hp, hs⟩ := positions_split hnext
  have hlen : (s.positions.take s.next).length = s.next := by
    rw [List.length_take, length_positions]
    omega
  have hring := ring_eq hs hlen
  have horder := h.order
  rw [hring, List.pairwise_cons] at horder
  refine ⟨?_, ?_, ?_, ?_⟩
  · rw [record_length hnext, record_next hnext]
    exact Nat.mod_lt _ (by omega)
  · have hcount := h.size
    rw [record_positions hnext, List.countP_append, List.countP_cons_of_pos (by simpa using h0)]
    rw [hs, List.countP_append] at hcount
    have hsize : (s.record pos).2.size = if s.size < s.entries.length then s.size + 1 else s.size := by
      unfold SlotCheckpointStore.record
      rw [if_neg (List.ne_nil_of_length_pos (by omega))]
    rw [hsize]
    have hle₁ := List.countP_le_length (p := fun p : Int => decide (0 ≤ p)) (l := s.positions.take s.next)
    have hle₂ := List.countP_le_length (p := fun p : Int => decide (0 ≤ p)) (l := s.positions.drop (s.next + 1))
    have hall := congrArg List.length hs
    rw [List.length_append, List.length_cons, length_positions] at hall
    by_cases hlive : 0 ≤ p
    · -- the oldest checkpoint: no entry is free
      rw [List.countP_cons_of_pos (by simpa using hlive)] at hcount
      have hfull : ∀ l : List Int, (∀ q ∈ l, q ∈ s.positions.drop (s.next + 1) ++ s.positions.take s.next) →
          l.countP (fun p => decide (0 ≤ p)) = l.length := by
        intro l hl
        rw [List.countP_eq_length]
        intro q hq
        have := horder.1 q (hl q hq) hlive
        rw [decide_eq_true_eq]
        omega
      rw [hfull _ fun q hq => List.mem_append_right _ hq, hfull _ fun q hq => List.mem_append_left _ hq] at hcount ⊢
      rw [if_neg (by omega)]
      omega
    · rw [List.countP_cons_of_neg (by simpa using hlive)] at hcount
      rw [if_pos (by omega)]
      omega
  · rw [record_ring hnext pos hring, List.pairwise_append]
    refine ⟨horder.2, List.pairwise_singleton _ _, fun q hq x hx _ => ?_⟩
    obtain rfl := List.mem_singleton.mp hx
    apply hgrows'
    rw [hs]
    rcases List.mem_append.mp hq with hq | hq
    · exact List.mem_append_right _ (List.mem_cons_of_mem _ hq)
    · exact List.mem_append_left _ hq
  · rw [record_positions hnext]
    intro q hq
    rcases List.mem_append.mp hq with hq | hq
    · exact h.range q (List.mem_of_mem_take hq)
    · rcases List.mem_cons.mp hq with rfl | hq
      · exact hmax
      · exact h.range q (List.mem_of_mem_drop hq)

/-! ## Removals -/

theorem recount_size (entries : List (CheckpointEntry α)) (lastPos : Int) :
    (recount entries lastPos).size = entries.countP fun e => 0 ≤ e.pos := by
  unfold recount
  dsimp only
  split
  · rename_i h
    exact h.symm
  · rfl

theorem minIdx_eq {a b : List (CheckpointEntry α)} {x : CheckpointEntry α} (h0 : 0 ≤ x.pos)
    (hlow : ∀ e ∈ a ++ b, x.pos < e.pos) (hmax : ∀ e ∈ a ++ b, e.pos ≤ maxInt32) : minIdx (a ++ x :: b) = a.length := by
  have hkeep : ∀ (es : List (CheckpointEntry α)) (k : Nat) (best : Int × Nat), (∀ e ∈ es, best.1 ≤ e.pos) →
      (es.zipIdx k).foldl (fun (best : Int × Nat) e =>
        if 0 ≤ e.1.pos ∧ e.1.pos < best.1 then (e.1.pos, e.2) else best) best = best := by
    intro es
    induction es with
    | nil => exact fun _ _ _ => rfl
    | cons e es ih =>
      intro k best hes
      have := hes e (List.mem_cons_self ..)
      rw [List.zipIdx_cons, List.foldl_cons, if_neg fun hlt => Int.not_lt.mpr this hlt.2]
      exact ih (k + 1) best fun e he => hes e (List.mem_cons_of_mem _ he)
  have hlarger : ∀ (es : List (CheckpointEntry α)) (k : Nat) (best : Int × Nat), x.pos < best.1 →
      (∀ e ∈ es, x.pos < e.pos) → x.pos < ((es.zipIdx k).foldl (fun (best : Int × Nat) e =>
        if 0 ≤ e.1.pos ∧ e.1.pos < best.1 then (e.1.pos, e.2) else best) best).1 := by
    intro es
    induction es with
    | nil => exact fun _ _ h _ => h
    | cons e es ih =>
      intro k best hbest hes
      rw [List.zipIdx_cons, List.foldl_cons]
      refine ih (k + 1) _ ?_ fun e he => hes e (List.mem_cons_of_mem _ he)
      split
      · exact hes e (List.mem_cons_self ..)
      · exact hbest
  unfold minIdx
  by_cases hx : x.pos < maxInt32
  · have ha := hlarger a 0 (maxInt32, 0) hx fun e he => hlow e (List.mem_append_left _ he)
    rw [List.zipIdx_append, List.foldl_append, List.zipIdx_cons, List.foldl_cons, if_pos ⟨h0, ha⟩, hkeep]
    · simp
    · exact fun e he => Int.le_of_lt (hlow e (List.mem_append_right _ he))
  · -- it is the only entry
    have hnil : a ++ b = [] := by
      rw [List.eq_nil_iff_forall_not_mem]
      intro e he
      have h1 := hlow e he
      have h2 := hmax e he
      omega
    obtain ⟨rfl, rfl⟩ := List.append_eq_nil_iff.mp hnil
    simp only [List.nil_append, List.zipIdx_singleton, List.foldl_cons, List.foldl_nil, List.length_nil]
    rw [if_neg (by omega)]

/-- What a removal does with a position. The positions that are not kept become negative. -/
structure Removes (kept : Int → Prop) (moved : Int → Int) : Prop where
  nonneg : ∀ p, kept p → 0 ≤ p
  live : ∀ p, 0 ≤ moved p ↔ kept p
  mono : ∀ p q, kept p → kept q → (moved p < moved q ↔ p < q)

theorem Removes.follows {kept : Int → Prop} {moved : Int → Int} (h : Removes kept moved) (p q : Int) :
    Follows (moved p) (moved q) ↔ (kept p → kept q ∧ p < q) := by
  unfold Follows
  rw [h.live]
  refine forall_congr' fun hp => ?_
  have hp' := (h.live p).mpr hp
  constructor
  · intro hlt
    have hq : kept q := (h.live q).mp (by omega)
    exact ⟨hq, (h.mono p q hp hq).mp hlt⟩
  · rintro ⟨hq, hlt⟩
    exact (h.mono p q hp hq).mpr hlt

section
variable {s : SlotCheckpointStore α} {entries : List (CheckpointEntry α)} {kept : Int → Prop}
  {moved : Int → Int} {lastPos : Int}

/-- If all entries are kept the ring goes on at the oldest one. -/
theorem recount_next_full (h : Ringed s) (hm : Removes kept moved) (hpos : entries.map (·.pos) = s.positions.map moved)
    (hrange : ∀ e ∈ entries, e.pos ≤ maxInt32) (hall : ∀ p ∈ s.positions, kept p) :
    (recount entries lastPos).next = s.next := by
  have hlen : entries.length = s.entries.length := by
    have := congrArg List.length hpos
    rwa [List.length_map, List.length_map, length_positions] at this
  have hlive : ∀ e ∈ entries, 0 ≤ e.pos := by
    intro e he
    have hmem : e.pos ∈ s.positions.map moved := hpos ▸ List.mem_map_of_mem he
    obtain ⟨p, hp, heq⟩ := List.mem_map.mp hmem
    rw [← heq, hm.live]
    exact hall p hp
  have hnext : s.next < entries.length := by
    rw [hlen]
    exact h.next
  have hcount : entries.countP (fun e => 0 ≤ e.pos) = entries.length := by
    rw [List.countP_eq_length]
    simpa using hlive
  have hnone : entries.findIdx? (fun e => e.pos < 0) = none := by
    rw [List.findIdx?_eq_none_iff]
    intro e he
    have := hlive e he
    simpa using this
  unfold recount
  simp only [hcount]
  rw [if_neg (by omega), hnone, Option.getD_none]
  -- the oldest entry is the next one
  obtain ⟨a, x, b, rfl, ha⟩ : ∃ a x b, entries = a ++ x :: b ∧ a.length = s.next := by
    refine ⟨entries.take s.next, entries[s.next], entries.drop (s.next + 1), ?_, ?_⟩
    · rw [← List.drop_eq_getElem_cons hnext, List.take_append_drop]
    · rw [List.length_take]
      omega
  have hring : ((a ++ x :: b).map (·.pos)).rotate s.next = x.pos :: (b.map (·.pos) ++ a.map (·.pos)) := by
    rw [List.map_append, ← ha, ← List.length_map (·.pos), List.rotate_append_length_eq]
    rfl
  have horder : (((a ++ x :: b).map (·.pos)).rotate s.next).Pairwise Follows := by
    rw [hpos, ← List.map_rotate, List.pairwise_map]
    refine h.order.imp_of_mem fun {p q} hp hq hpq => (hm.follows p q).mpr fun hk => ?_
    exact ⟨hall q (List.mem_rotate.mp hq), hpq (hm.nonneg p hk)⟩
  rw [hring, List.pairwise_cons, ← List.map_append] at horder
  have h0 : 0 ≤ x.pos := hlive x (by simp)
  rw [minIdx_eq h0, ha]
  · intro e he
    refine horder.1 e.pos (List.mem_map_of_mem ?_) h0
    rw [List.mem_append] at he ⊢
    exact he.symm
  · intro e he
    refine hrange e ?_
    rcases List.mem_append.mp he with he | he
    · exact List.mem_append_left _ he
    · exact List.mem_append_right _ (List.mem_cons_of_mem _ he)

/-- Else it goes on at the first free entry. -/
theorem recount_next_free [DecidablePred kept] (hm : Removes kept moved) (hpos : entries.map (·.pos) = s.positions.map moved)
    (hfree : ∃ p ∈ s.positions, ¬ kept p) : (recount entries lastPos).next = s.positions.findIdx fun p => ¬ kept p := by
  have hidx : entries.findIdx (fun e => e.pos < 0) = s.positions.findIdx fun p => ¬ kept p := by
    have h1 : (entries.map (·.pos)).findIdx (fun p => decide (p < 0)) = entries.findIdx fun e => e.pos < 0 :=
      List.findIdx_map ..
    have h2 : (s.positions.map moved).findIdx (fun p => decide (p < 0)) = s.positions.findIdx fun p => ¬ kept p := by
      rw [List.findIdx_map]
      congr 1
      funext p
      have := hm.live p
      rw [Function.comp_apply, decide_eq_decide, ← this]
      omega
    rw [← h1, hpos, h2]
  have hlt : (s.positions.findIdx fun p => ¬ kept p) < entries.length := by
    have hlen := congrArg List.length hpos
    rw [List.length_map, List.length_map] at hlen
    rw [hlen, List.findIdx_lt_length]
    simpa using hfree
  unfold recount
  dsimp only
  split
  · -- all entries are free
    rename_i hnone
    rw [← hidx]
    cases entries with
    | nil => rfl
    | cons e es =>
      rw [List.countP_eq_zero] at hnone
      have := hnone e (List.mem_cons_self ..)
      rw [List.findIdx_cons, show decide (e.pos < 0) = true by simpa using this]
      rfl
  · rw [List.findIdx?_eq_guard_findIdx_lt, hidx]
    simp only [Option.guard, hlt, decide_true, if_true, Option.getD_some]

/-- A removal leaves the ring in order if and only if the rest is ordered. -/
theorem recount_ringed_iff [DecidablePred kept] (h : Ringed s) (hm : Removes kept moved)
    (hpos : entries.map (·.pos) = s.positions.map moved) (hrange : ∀ e ∈ entries, e.pos ≤ maxInt32) : Ringed (recount entries lastPos) ↔ RestOrdered kept s.positions := by
  have hpositions : (recount entries lastPos).positions = s.positions.map moved := by
    rw [positions, recount_entries, hpos]
  have hlen : (recount entries lastPos).entries.length = s.positions.length := by
    rw [← length_positions, hpositions, List.length_map]
  have hsize : (recount entries lastPos).size = (recount entries lastPos).positions.countP (0 ≤ ·) := by
    rw [recount_size, positions, recount_entries, List.countP_map]
    rfl
  have hring : ∀ i, (recount entries lastPos).next = i → (recount entries lastPos).ring = (s.positions.rotate i).map moved := by
    rintro i rfl
    rw [ring, hpositions, List.map_rotate]
  have hmax : ∀ p ∈ (recount entries lastPos).positions, p ≤ maxInt32 := by
    intro p hp
    rw [positions, recount_entries] at hp
    obtain ⟨e, he, rfl⟩ := List.mem_map.mp hp
    exact hrange e he
  by_cases hall : ∀ p ∈ s.positions, kept p
  · have hnext : (recount entries lastPos).next = s.next := recount_next_full h hm hpos hrange hall
    refine iff_of_true ⟨?_, hsize, ?_, hmax⟩ (.inl hall)
    · rw [hnext, hlen, length_positions]
      exact h.next
    · rw [hring _ hnext, List.pairwise_map]
      refine h.order.imp_of_mem fun {p q} hp hq hpq => (hm.follows p q).mpr fun hk => ?_
      exact ⟨hall q (List.mem_rotate.mp hq), hpq (hm.nonneg p hk)⟩
  · have hfree : ∃ p ∈ s.positions, ¬ kept p := by
      simpa using hall
    have hnext : (recount entries lastPos).next = s.positions.findIdx fun p => ¬ kept p :=
      recount_next_free hm hpos hfree
    have horder : (recount entries lastPos).ring.Pairwise Follows ↔
        (s.positions.rotate (s.positions.findIdx fun p => ¬ kept p)).Pairwise fun p q => kept p → kept q ∧ p < q := by
      rw [hring _ hnext, List.pairwise_map]
      exact ⟨fun hp => hp.imp fun {p q} => (hm.follows p q).mp, fun hp => hp.imp fun {p q} => (hm.follows p q).mpr⟩
    constructor
    · exact fun hr => .inr (horder.mp hr.order)
    · rintro (hno | hp)
      · exact absurd hno hall
      · refine ⟨?_, hsize, horder.mpr hp, hmax⟩
        rw [hnext, hlen, List.findIdx_lt_length]
        simpa using hfree

end

theorem removes_pruneAfter (pos : Int) : Removes (Keeps (.pruneAfter pos)) fun p => if pos < p then -1 else p := by
  refine ⟨fun p hp => hp.1, fun p => ?_, fun p q hp hq => ?_⟩
  · simp only [Keeps]
    split <;> omega
  · simp only [Keeps] at hp hq
    rw [if_neg (by omega), if_neg (by omega)]

/-- `shiftEntry` of a position. -/
def shiftPos (beginIndex endIndex p : Int) : Int :=
  if p < 0 then p
  else if beginIndex ≤ p ∧ p < endIndex then -1
  else if endIndex ≤ p then p + (beginIndex - endIndex)
  else p

theorem shiftEntry_pos (beginIndex endIndex : Int) (e : CheckpointEntry α) :
    (shiftEntry beginIndex endIndex e).pos = shiftPos beginIndex endIndex e.pos := by
  unfold shiftEntry shiftPos
  repeat' split
  all_goals rfl

theorem removes_shiftRange (beginIndex endIndex : Int) :
    Removes (Keeps (.shiftRange beginIndex endIndex)) (shiftPos beginIndex endIndex) := by
  refine ⟨fun p hp => hp.1, fun p => ?_, fun p q hp hq => ?_⟩
  · simp only [Keeps]
    unfold shiftPos
    repeat' split
    all_goals omega
  · simp only [Keeps] at hp hq
    unfold shiftPos
    repeat' split
    all_goals omega

/-! ## Runs -/

theorem ringed_free {s : SlotCheckpointStore α} (hlen : 0 < s.entries.length) (hnext : s.next = 0) (hsize : s.size = 0)
    (hfree : ∀ e ∈ s.entries, e.pos = -1) : Ringed s := by
  have hneg : ∀ p ∈ s.positions, p = -1 := by
    intro p hp
    obtain ⟨e, he, rfl⟩ := List.mem_map.mp hp
    exact hfree e he
  refine ⟨hnext ▸ hlen, ?_, ?_, fun p hp => ?_⟩
  · rw [hsize, eq_comm, List.countP_eq_zero]
    intro p hp
    rw [hneg p hp]
    decide
  · refine List.pairwise_of_forall_mem_list fun p hp q _ h0 => ?_
    have := hneg p (List.mem_rotate.mp hp)
    omega
  · rw [hneg p hp]
    decide

theorem ringed_new {n : Nat} (hn : 1 ≤ n) : Ringed (newSlotCheckpointStore α n) := by
  refine ringed_free ?_ rfl rfl fun e he => ?_
  · rw [newSlotCheckpointStore, List.length_replicate]
    exact hn
  · rw [List.eq_of_mem_replicate he]

theorem Ringed.reset {s : SlotCheckpointStore α} (h : Ringed s) : Ringed s.reset := by
  refine ringed_free ?_ rfl rfl fun e he => ?_
  · have := h.next
    rw [SlotCheckpointStore.reset, List.length_map]
    omega
  · obtain ⟨e', -, rfl⟩ := List.mem_map.mp he
    rfl

/-- The ring stays in order if and only if a removal leaves it so. -/
theorem apply_ringed_iff {s s' : SlotCheckpointStore α} {op : Op} (h : Ringed s) (hok : Valid s op)
    (hs : s.apply op = some s') : Ringed s' ↔ LeavesRing s op := by
  cases op with
  | record pos =>
    obtain rfl := Option.some.inj hs
    exact iff_of_true (h.record hok) trivial
  | reset =>
    obtain rfl := Option.some.inj hs
    exact iff_of_true h.reset trivial
  | pruneAfter pos =>
    obtain rfl := Option.some.inj hs
    refine recount_ringed_iff h (removes_pruneAfter pos) ?_ fun e he => ?_
    · rw [positions, List.map_map, List.map_map]
      apply List.map_congr_left
      intro e _
      simp only [Function.comp_apply]
      split <;> rfl
    · obtain ⟨x, hx, rfl⟩ := List.mem_map.mp he
      split
      · exact (by decide : (-1 : Int) ≤ maxInt32)
      · exact h.range _ (mem_positions hx)
  | shiftRange beginIndex endIndex =>
    obtain rfl := Option.some.inj hs
    refine recount_ringed_iff h (removes_shiftRange beginIndex endIndex) ?_ fun e he => ?_
    · rw [positions, List.map_map, List.map_map]
      exact List.map_congr_left fun e _ => shiftEntry_pos beginIndex endIndex e
    · obtain ⟨x, hx, rfl⟩ := List.mem_map.mp he
      have hx' := h.range _ (mem_positions hx)
      have hshift := hok x hx
      have hmax : (-1 : Int) ≤ maxInt32 := by decide
      rw [shiftEntry_pos]
      unfold shiftPos
      repeat' split
      all_goals omega

/-! ## Records after a removal -/

/-- A record of a run that goes on with records only. -/
def Records (s : SlotCheckpointStore α) (op : Op) : Prop := (∃ pos, op = .record pos) ∧ Valid s op

theorem RecordsRight.head {s : SlotCheckpointStore α} (h : RecordsRight s) (hnext : s.next < s.entries.length) {p : Int}
    {r : List Int} (hring : s.ring = p :: r) (hp : 0 ≤ p) : ∀ q ∈ s.ring, 0 ≤ q ∧ p ≤ q := by
  obtain ⟨e, he, hall⟩ := h.oldest 0 s.next (record_fst hnext 0)
  obtain ⟨p', hp', hs⟩ := positions_split hnext
  have hring' := ring_eq hs (by rw [List.length_take, length_positions]; omega)
  rw [hring, List.cons.injEq] at hring'
  have hpos : e.pos = p := by
    rw [positions, List.getElem?_map, he] at hp'
    rw [hring'.1]
    exact Option.some.inj hp'
  intro q hq
  obtain ⟨x, hx, rfl⟩ := List.mem_map.mp (List.mem_rotate.mp hq)
  rw [← hpos]
  exact hall (by omega) x hx

/-- If all records that follow are right, the ring is in order. -/
theorem ring_of_records {r news : List Int} {s : SlotCheckpointStore α} {top : Int} (hnext : s.next < s.entries.length)
    (hring : s.ring = r ++ news) (htop : ∀ p ∈ s.positions, p ≤ top) (hroom : -1 ≤ top ∧ top + r.length ≤ maxInt32)
    (hne : r.Pairwise fun p q => 0 ≤ p → 0 ≤ q → p ≠ q)
    (hright : ∀ s', Reaches apply Records (· = s) s' → RecordsRight s') : r.Pairwise Follows := by
  induction r generalizing s news top with
  | nil => exact .nil
  | cons p r ih =>
    rw [List.length_cons] at hroom
    rw [List.pairwise_cons] at hne
    rw [List.cons_append] at hring
    have hhead := (hright s (.init rfl)).head hnext hring
    have hvalid : Valid s (.record (top + 1)) := by
      refine ⟨by omega, by omega, fun e he => ?_⟩
      have := htop e.pos (mem_positions he)
      omega
    refine List.pairwise_cons.mpr ⟨fun q hq h0 => ?_, ?_⟩
    · obtain ⟨hq0, hle⟩ := hhead h0 q (by rw [hring]; exact List.mem_cons_of_mem _ (List.mem_append_left _ hq))
      have := hne.1 q hq h0 hq0
      omega
    · refine @ih (news ++ [top + 1]) (s.record (top + 1)).2 (top + 1) ?_ ?_ ?_ (by omega) hne.2 ?_
      · rw [record_length hnext, record_next hnext]
        exact Nat.mod_lt _ (by omega)
      · rw [record_ring hnext _ hring, List.append_assoc]
      · rw [record_positions hnext]
        intro q hq
        rcases List.mem_append.mp hq with hq | hq
        · have := htop q (List.mem_of_mem_take hq)
          omega
        · rcases List.mem_cons.mp hq with rfl | hq
          · exact Int.le_refl _
          · have := htop q (List.mem_of_mem_drop hq)
            omega
      · intro s' hs'
        refine hright s' (hs'.trans ?_)
        rintro _ rfl
        exact .step (.record (top + 1)) (.init rfl) ⟨⟨_, rfl⟩, hvalid⟩ rfl

theorem apply_length {s s' : SlotCheckpointStore α} {op : Op} (h : s.next < s.entries.length)
    (hs : s.apply op = some s') : s'.entries.length = s.entries.length := by
  cases op with
  | record pos =>
    obtain rfl := Option.some.inj hs
    exact record_length h pos
  | reset =>
    obtain rfl := Option.some.inj hs
    exact List.length_map _
  | pruneAfter pos =>
    obtain rfl := Option.some.inj hs
    rw [pruneAfter, recount_entries, List.length_map]
  | shiftRange beginIndex endIndex =>
    obtain rfl := Option.some.inj hs
    rw [shiftRange, recount_entries, List.length_map]

/-- The positions of the checkpoints are different after a removal as well. -/
theorem Ringed.distinct {s s' : SlotCheckpointStore α} {op : Op} (h : Ringed s) (hok : Valid s op)
    (hs : s.apply op = some s') : s'.ring.Pairwise fun p q => 0 ≤ p → 0 ≤ q → p ≠ q := by
  have hsym : ∀ {p q : Int}, (0 ≤ p → 0 ≤ q → p ≠ q) → 0 ≤ q → 0 ≤ p → q ≠ p := fun h hq hp => (h hp hq).symm
  have hringed : ∀ {t : SlotCheckpointStore α}, Ringed t → t.ring.Pairwise fun p q => 0 ≤ p → 0 ≤ q → p ≠ q :=
    fun ht => ht.order.imp fun hpq hp _ => Int.ne_of_lt (hpq hp)
  have hremoves : ∀ {kept : Int → Prop} {moved : Int → Int}, Removes kept moved →
      s'.positions = s.positions.map moved → s'.ring.Pairwise fun p q => 0 ≤ p → 0 ≤ q → p ≠ q := by
    intro kept moved hm hpos
    have hold : s.positions.Pairwise fun p q => 0 ≤ p → 0 ≤ q → p ≠ q :=
      ((List.rotate_perm s.positions s.next).pairwise_iff hsym).mp (hringed h)
    refine ((List.rotate_perm s'.positions s'.next).pairwise_iff hsym).mpr ?_
    rw [hpos, List.pairwise_map]
    refine hold.imp fun {p q} hpq hp hq => ?_
    have hp := (hm.live p).mp hp
    have hq := (hm.live q).mp hq
    have hne := hpq (hm.nonneg p hp) (hm.nonneg q hq)
    have h1 := hm.mono p q hp hq
    have h2 := hm.mono q p hq hp
    omega
  cases op with
  | record pos => exact hringed ((apply_ringed_iff h hok hs).mpr trivial)
  | reset => exact hringed ((apply_ringed_iff h hok hs).mpr trivial)
  | pruneAfter pos =>
    obtain rfl := Option.some.inj hs
    refine hremoves (removes_pruneAfter pos) ?_
    rw [positions, pruneAfter, recount_entries, positions, List.map_map, List.map_map]
    apply List.map_congr_left
    intro e _
    simp only [Function.comp_apply]
    split <;> rfl
  | shiftRange beginIndex endIndex =>
    obtain rfl := Option.some.inj hs
    refine hremoves (removes_shiftRange beginIndex endIndex) ?_
    rw [positions, shiftRange, recount_entries, positions, List.map_map, List.map_map]
    exact List.map_congr_left fun e _ => shiftEntry_pos beginIndex endIndex e

/-- In every run whose removals leave the ring in order, `size` is right and records overwrite the oldest checkpoint.
After a removal that does not, records alone get it wrong, if there are enough positions left for them. -/
theorem ring_right {n : Nat} (hn : 1 ≤ n) {s : SlotCheckpointStore α}
    (h : Reaches apply (fun s op => Valid s op ∧ LeavesRing s op) (· = newSlotCheckpointStore α n) s) :
    RecordsRight s ∧
    ∀ op s', Valid s op → s.apply op = some s' → ¬ LeavesRing s op →
      (n : Int) ≤ maxInt32 → (∀ e ∈ s'.entries, e.pos + n ≤ maxInt32) →
      ∃ s'', Reaches apply Records (· = s') s'' ∧ ¬ RecordsRight s'' := by
  have hinv : Ringed s ∧ s.entries.length = n := by
    refine h.invariant (I := fun s => Ringed s ∧ s.entries.length = n) ?_ ?_
    · rintro _ rfl
      exact ⟨ringed_new hn, List.length_replicate⟩
    · rintro s op s' ⟨hr, hlen⟩ ⟨hok, hleaves⟩ hs
      exact ⟨(apply_ringed_iff hr hok hs).mpr hleaves, (apply_length hr.next hs).trans hlen⟩
  refine ⟨hinv.1.right, fun op s' hok hs hno hroom hmax => ?_⟩
  apply Classical.byContradiction
  intro hnone
  have hright : ∀ s'', Reaches apply Records (· = s') s'' → RecordsRight s'' := by
    intro s'' hs''
    exact Classical.byContradiction fun hwrong => hnone ⟨s'', hs'', hwrong⟩
  have hlen := (apply_length hinv.1.next hs).trans hinv.2
  have hfirst := hright s' (.init rfl)
  have hnext : s'.next < s'.entries.length := by
    obtain ⟨e, he, -⟩ := hfirst.oldest 0 s'.next (by
      unfold record
      rw [if_neg (List.ne_nil_of_length_pos (by omega))])
    exact (List.getElem?_eq_some_iff.mp he).1
  have hpos : ∀ p ∈ s'.positions, p ≤ maxInt32 - n := by
    intro p hp
    obtain ⟨e, he, rfl⟩ := List.mem_map.mp hp
    have := hmax e he
    omega
  have hring : s'.ring.length = n := by
    rw [ring, List.length_rotate, length_positions, hlen]
  have horder := ring_of_records hnext (List.append_nil _).symm hpos (by rw [hring]; omega) (hinv.1.distinct hok hs) hright
  refine hno ((apply_ringed_iff hinv.1 hok hs).mp ⟨hnext, ?_, horder, fun p hp => ?_⟩)
  · rw [hfirst.size, positions, List.countP_map]
    rfl
  · have := hpos p hp
    omega

/-- The oldest checkpoints and the last ones are removed. -/
def orderlyRun : List Op :=
  [.record 10, .record 20, .record 30, .record 40, .pruneAfter 30, .record 50, .shiftRange 20 30]

theorem orderlyRun_right : ∃ s : SlotCheckpointStore Nat,
    Reaches apply (fun s op => Valid s op ∧ LeavesRing s op) (· = newSlotCheckpointStore Nat 3) s ∧
    s.positions = [40, -1, 20] ∧ s.next = 1 ∧ RecordsRight s := by
  let s := (exec apply (newSlotCheckpointStore Nat 3) orderlyRun).get (by decide)
  have hs : Reaches apply (fun s op => Valid s op ∧ LeavesRing s op) (· = newSlotCheckpointStore Nat 3) s :=
    reaches_of_exec (Reaches.init rfl) (by decide) (Option.some_get _).symm
  exact ⟨s, hs, by decide, by decide, (ring_right (by decide) hs).1⟩

/-- After a restore of the checkpoint 20 the entries around it are free. The second record overwrites it, and `size`
counts the free entry. -/
theorem prunedRun_wrong : ∃ s s' : SlotCheckpointStore Nat,
    Reaches apply Valid (· = newSlotCheckpointStore Nat 3) s ∧ s.positions = [50, 20, -1] ∧ s.next = 1 ∧
    ¬ RecordsRight s ∧ s.apply (.record 60) = some s' ∧ Valid s (.record 60) ∧ s'.size = 3 ∧ s'.positions = [50, 60, -1] := by
  let run : List Op := [.record 10, .record 20, .record 30, .record 40, .pruneAfter 20, .record 50]
  let s := (exec apply (newSlotCheckpointStore Nat 3) run).get (by decide)
  have hs : Reaches apply Valid (· = newSlotCheckpointStore Nat 3) s :=
    reaches_of_exec (Reaches.init rfl) (by decide) (Option.some_get _).symm
  have hpos : s.positions = [50, 20, -1] := by decide
  have hnext : s.next = 1 := by decide
  refine ⟨s, (s.record 60).2, hs, hpos, hnext, fun h => ?_, rfl, by decide, by decide, by decide⟩
  have hring : s.ring = [20, -1, 50] := by rw [ring, hpos, hnext]; rfl
  have := h.head (by decide) hring (by decide) (-1) (by rw [hring]; decide)
  omega

end SlotCheckpointStore

end Xdragon.Kvcache
