import Xdragon.Blob.Copy
import Xdragon.Registry.Pull

/-!
# Writes that fail

`Put` and `Chunked` look at the size of a file only. A file with another size than the one that is asked for is written
in place: it is truncated first if it is too long, and again after an error of `Put`. A chunk is verified with its last
write. So a failing write leaves a blob as it was if nothing was written, or nothing but what was there.
-/

namespace Xdragon.Blob

open Xdragon.Lib
open Xdragon.Registry (Chunk)

variable {δ : Type} [DecidableEq δ] (sum : Bytes → δ)

/-! ## Chunks -/

/-- `Chunked` of a file: the file, and whether the chunker is validated already. -/
def chunked (file : Option Bytes) (size : Int) (openErr : Bool) : Option Bytes × Except Error Bool :=
  if file.map (fun f => (f.length : Int)) = some size then (file, .ok true)
  else if openErr then (file, .error .openFile)
  else (some (file.getD []), .ok false)

/-- A call of `Chunker.Put`. -/
structure ChunkPut (δ : Type) where
  chunk : Chunk
  digest : δ
  reader : Reader

/-- `io.LimitReader` over the pieces. -/
def limitPieces : Nat → List (Bytes × Nat) → List (Bytes × Nat)
  | _, [] => []
  | n, (p, k) :: ps => if n = 0 then [] else (p.take n, k) :: limitPieces (n - p.length) ps

/-- A reader that gives more than the limit does not fail, and not with its last piece if that ends at the limit. -/
def Reader.limit (r : Reader) (n : Nat) : Reader :=
  { pieces := limitPieces n r.pieces,
    failed := r.failed && (decide (r.text.length < n) || r.together && decide (0 < n ∧ r.text.length = n)) }

namespace ChunkPut

def writer (c : ChunkPut δ) : CheckWriter δ := ⟨c.chunk.size, c.digest, [], 0, none⟩

def limited (c : ChunkPut δ) : Reader := c.reader.limit c.chunk.size.toNat

/-- `Put` of a chunker that is not validated: the file after it, and the error. -/
def put (f : Bytes) (c : ChunkPut δ) : Bytes × Option Error :=
  match copyLoop sum c.chunk.start c.limited.failed c.limited.pieces c.writer f with
  | (_, f, some e) => (f, some e)
  | (n, f, none) => (f, if (n : Int) < c.chunk.size then some .unexpectedEOF else none)

/-- Calls of `Put` one after another: the file and the error after each. -/
def puts (validated : Bool) : Bytes → List (ChunkPut δ) → List (Bytes × Option Error)
  | _, [] => []
  | f, c :: cs =>
    if validated then (f, none) :: puts validated f cs
    else c.put sum f :: puts validated (c.put sum f).1 cs

end ChunkPut

/-! ## When a file is left as it was -/

/-- The reader ends at once. -/
def Reader.Empty (r : Reader) : Prop := r.text = [] ∧ r.failed = false

instance (r : Reader) : Decidable r.Empty := inferInstanceAs (Decidable (_ ∧ _))

/-- `Put` returns no error, does not open the file, or leaves nothing where nothing was. If the file cannot be truncated
after an error, the bytes that were written are the first ones of the file. -/
def PutKeeps (f : Bytes) (r : Reader) (size : Int) (o : CopyFaults) : Prop :=
  size = f.length ∨ size = 0 ∨ o.openErr = true ∨
    if size < 0 ∧ r.Empty then o.closeErr = true → f = [] ∧ o.removed = false
    else if o.truncated = true ∨ size < 0 then f = []
    else f.length < size ∧ accepted sum 0 r.pieces ⟨size, sum f, [], 0, none⟩ <+: f

instance (f : Bytes) (r : Reader) (size : Int) (o : CopyFaults) : Decidable (PutKeeps sum f r size o) :=
  inferInstanceAs (Decidable (_ ∨ _))

namespace ChunkPut

/-- The bytes that are written are those of the file at this place. -/
def Agrees (f : Bytes) (c : ChunkPut δ) : Prop :=
  accepted sum c.chunk.start c.limited.pieces c.writer <+: f.drop c.chunk.start.toNat

/-- The reader gives the whole chunk, the file takes it, and it has its digest. -/
def Delivers (c : ChunkPut δ) : Prop :=
  c.chunk.size ≤ 0 ∨ 0 ≤ c.chunk.start ∧ c.chunk.size ≤ c.reader.text.length ∧ c.limited.failed = false ∧
    (∀ e ∈ c.limited.pieces, e.1.length ≤ e.2) ∧ sum (c.reader.text.take c.chunk.size.toNat) = c.digest

instance (f : Bytes) (c : ChunkPut δ) : Decidable (c.Agrees sum f) := inferInstanceAs (Decidable (_ <+: _))

instance (c : ChunkPut δ) : Decidable (c.Delivers sum) := inferInstanceAs (Decidable (_ ∨ _))

end ChunkPut

variable {sum}

/-! ## Put -/

/-- A write leaves the file as it was if it writes what is there. -/
theorem writeAt_eq_self_iff {f p : Bytes} {off : Nat} : writeAt f off p = f ↔ p <+: f.drop off := by
  by_cases hp : p = []
  · simp [hp]
  constructor
  · intro h
    have hlen := congrArg List.length h
    rw [length_writeAt hp] at hlen
    have hpos := List.length_pos_iff.mpr hp
    have htake := take_writeAt_add p (by omega : off ≤ f.length)
    rw [h, List.take_add] at htake
    rw [← List.append_cancel_left htake]
    exact List.take_prefix _ _
  · rintro ⟨rest, hrest⟩
    have hlen := congrArg List.length hrest
    rw [List.length_append, List.length_drop] at hlen
    have hpos := List.length_pos_iff.mpr hp
    rw [writeAt, if_neg hp, Nat.sub_eq_zero_of_le (by omega), List.replicate_zero, List.append_nil, ← List.drop_drop,
      ← hrest, List.drop_left, List.append_assoc, hrest, List.take_append_drop]

/-- What is left after an error. -/
theorem failed_eq_iff {f a : Bytes} {size : Int} {o : CopyFaults} (hstat : size ≠ f.length) (hsize : size ≠ 0)
    (hbound : a = [] ∨ (a.length : Int) ≤ size) :
    (if o.truncated then [] else writeAt (DiskCache.opened size (some f)) 0 a) = f ↔
      if o.truncated = true ∨ size < 0 then f = [] else f.length < size ∧ a <+: f := by
  by_cases htrunc : o.truncated = true
  · simp only [htrunc, true_or, if_true]
    exact eq_comm
  · simp only [htrunc, false_or, Bool.false_eq_true, if_false]
    by_cases hneg : size < 0
    · have ha : a = [] := by
        rcases hbound with ha | hle
        · exact ha
        · omega
      have hopened : DiskCache.opened size (some f) = [] := if_pos (by omega)
      rw [if_pos hneg, ha, writeAt_nil, hopened]
      exact eq_comm
    · rw [if_neg hneg]
      by_cases hlt : (f.length : Int) < size
      · have hopened : DiskCache.opened size (some f) = f := if_neg (by omega)
        rw [hopened, writeAt_eq_self_iff, List.drop_zero]
        exact (and_iff_right hlt).symm
      · -- the file was too long, and what is written is shorter
        have hopened : DiskCache.opened size (some f) = [] := if_pos (by omega)
        refine iff_of_false (fun heq => ?_) fun h => hlt h.1
        rw [hopened] at heq
        have hlen := congrArg List.length heq
        by_cases ha : a = []
        · rw [ha, writeAt_nil, List.length_nil] at hlen
          omega
        · rw [length_writeAt ha, List.length_nil] at hlen
          rcases hbound with hnil | hle
          · exact ha hnil
          · omega

/-- A call of `Put` that fails leaves the blob if and only if the condition holds. -/
theorem copyNamedFile_keeps_iff {f : Bytes} (hf : ∀ g, sum g = sum f → g = f) (r : Reader) (size : Int) (o : CopyFaults) :
    ((copyNamedFile sum (some f) r (sum f) size o).2 ≠ none →
      (copyNamedFile sum (some f) r (sum f) size o).1.map sum = some (sum f)) ↔ PutKeeps sum f r size o := by
  have hleft : ∀ g : Bytes, (some g).map sum = some (sum f) ↔ g = f := fun g => by
    rw [Option.map_some, Option.some.injEq]
    exact ⟨hf g, congrArg sum⟩
  unfold PutKeeps copyNamedFile
  by_cases hstat : size = f.length
  · rw [if_pos (by rw [hstat]; rfl)]
    exact iff_of_true (fun h => absurd rfl h) (.inl hstat)
  have hstat' : ¬ (some f).map (fun f => (f.length : Int)) = some size := fun h => hstat (Option.some.inj h).symm
  rw [if_neg hstat']
  by_cases hopen : o.openErr = true
  · rw [if_pos hopen]
    exact iff_of_true (fun _ => rfl) (.inr (.inr (.inl hopen)))
  rw [if_neg hopen]
  by_cases hsize : size = 0
  · rw [if_pos hsize]
    exact iff_of_true (fun h => absurd rfl h) (.inr (.inl hsize))
  rw [if_neg hsize]
  simp only [hstat, hsize, hopen, false_or, Bool.false_eq_true]
  obtain ⟨hfile, hn⟩ := @copyLoop_file _ _ sum 0 r.failed r.pieces ⟨size, sum f, [], 0, none⟩
    (DiskCache.opened size (some f))
  have hok := @copyLoop_ok _ _ sum 0 r.failed r.pieces ⟨size, sum f, [], 0, none⟩ (DiskCache.opened size (some f))
  have hbound := @accepted_length _ _ sum 0 r.pieces ⟨size, sum f, [], 0, none⟩
  have hempty : r.Empty → (copyLoop sum 0 r.failed r.pieces ⟨size, sum f, [], 0, none⟩
      (DiskCache.opened size (some f))).2.2 = none := fun h => by
    rw [copyLoop_nil h.1, h.2]
    rfl
  generalize copyLoop sum 0 r.failed r.pieces ⟨size, sum f, [], 0, none⟩ (DiskCache.opened size (some f)) = res
    at hfile hn hok hempty
  generalize accepted sum 0 r.pieces ⟨size, sum f, [], 0, none⟩ = a at hfile hn hok hbound
  obtain ⟨n, g, err⟩ := res
  simp only [Int.toNat_zero, Nat.zero_add, Int.ofNat_zero, Int.zero_add] at hfile hn hok hbound hempty
  subst hfile hn
  have hfailed := failed_eq_iff (o := o) hstat hsize hbound
  cases err with
  | some e =>
    have hno : ¬ (size < 0 ∧ r.Empty) := fun h => by
      cases hempty h.2
    rw [if_neg hno, ← hfailed, ← hleft]
    exact ⟨fun h => h (Option.some_ne_none _), fun h _ => h⟩
  | none =>
    dsimp only
    obtain ⟨hread, ha, hmore⟩ := hok rfl
    by_cases hn : (a.length : Int) < size
    · have hno : ¬ (size < 0 ∧ r.Empty) := fun h => by omega
      rw [if_pos hn, if_neg hno, ← hfailed, ← hleft]
      exact ⟨fun h => h (Option.some_ne_none _), fun h _ => h⟩
    · rw [if_neg hn]
      -- all is copied, so nothing was read and the size is negative
      have hnil : r.text = [] := by
        apply Classical.byContradiction
        intro hne
        obtain ⟨h1, h2⟩ := hmore hne
        rw [ha] at hn
        have hfull : (((r.pieces.map (·.1)).flatten).length : Int) = size := by omega
        have heq : (r.pieces.map (·.1)).flatten = f := hf _ (h2 hfull)
        exact hstat (by rw [← hfull, heq])
      have ha' : a = [] := ha.trans hnil
      have hneg : size < 0 := by
        rw [ha', List.length_nil] at hn
        omega
      have hopened : DiskCache.opened size (some f) = [] := if_pos (by omega)
      have hyes : size < 0 ∧ r.Empty := ⟨hneg, hnil, hread⟩
      rw [if_pos hyes, ha', writeAt_nil, hopened]
      by_cases hclose : o.closeErr = true
      · by_cases hremoved : o.removed = true
        · rw [if_pos hclose, if_pos hremoved]
          refine iff_of_false (fun h => ?_) fun h => ?_
          · cases h (Option.some_ne_none _)
          · exact absurd (h hclose).2 (by simp [hremoved])
        · rw [if_pos hclose, if_neg hremoved, hleft]
          exact ⟨fun h _ => ⟨(h (Option.some_ne_none _)).symm, by simpa using hremoved⟩, fun h _ => (h hclose).1.symm⟩
      · rw [if_neg hclose]
        exact iff_of_true (fun h => absurd rfl h) fun h => absurd h hclose

/-! ## Puts of a chunker -/

theorem limitPieces_flatten (n : Nat) (ps : List (Bytes × Nat)) :
    ((limitPieces n ps).map (·.1)).flatten = ((ps.map (·.1)).flatten).take n := by
  induction ps generalizing n with
  | nil => simp [limitPieces]
  | cons e ps ih =>
    obtain ⟨p, k⟩ := e
    unfold limitPieces
    split
    · rename_i hn
      simp [hn]
    · simp [ih, List.take_append]

namespace ChunkPut

omit [DecidableEq δ] in
theorem limited_text (c : ChunkPut δ) : c.limited.text = c.reader.text.take c.chunk.size.toNat :=
  limitPieces_flatten _ _

/-- The bytes that a `Put` writes lie in its chunk. -/
theorem put_file (f : Bytes) (c : ChunkPut δ) :
    (c.put sum f).1 = writeAt f c.chunk.start.toNat (accepted sum c.chunk.start c.limited.pieces c.writer) := by
  have hfile := (@copyLoop_file _ _ sum c.chunk.start c.limited.failed c.limited.pieces c.writer f).1
  rw [show c.writer.n = 0 from rfl, Nat.add_zero] at hfile
  rw [← hfile, put]
  generalize copyLoop sum c.chunk.start c.limited.failed c.limited.pieces c.writer f = res
  obtain ⟨n, g, err⟩ := res
  cases err <;> rfl

omit [DecidableEq δ] in
theorem limited_nil {c : ChunkPut δ} (h : c.chunk.size ≤ 0) : c.limited = ⟨[], false, c.limited.together⟩ := by
  have hzero : c.chunk.size.toNat = 0 := by omega
  unfold limited Reader.limit
  rw [hzero]
  cases c.reader.pieces <;> simp [limitPieces]

/-- `Put` returns no error if and only if the chunk is there. -/
theorem put_none_iff (f : Bytes) (c : ChunkPut δ) : (c.put sum f).2 = none ↔ c.Delivers sum := by
  have hlen : c.limited.text.length = min c.chunk.size.toNat c.reader.text.length := by
    rw [limited_text, List.length_take]
  unfold put Delivers
  constructor
  · intro h
    have hok := @copyLoop_ok _ _ sum c.chunk.start c.limited.failed c.limited.pieces c.writer f
    have htaken := @copyLoop_taken _ _ sum c.chunk.start c.limited.failed c.limited.pieces c.writer f
    have hn := (@copyLoop_file _ _ sum c.chunk.start c.limited.failed c.limited.pieces c.writer f).2
    generalize copyLoop sum c.chunk.start c.limited.failed c.limited.pieces c.writer f = res at h hok htaken hn
    obtain ⟨n, g, err⟩ := res
    cases err with
    | some e => cases h
    | none =>
      obtain ⟨hread, hacc, hmore⟩ := hok rfl
      have hall : ¬ (n : Int) < c.chunk.size := fun hlt => by
        dsimp only at h
        rw [if_pos hlt] at h
        cases h
      replace hn : n = c.limited.text.length := by
        rw [show n = _ from hn, hacc, show c.writer.n = 0 from rfl, Nat.zero_add]
        rfl
      by_cases hsize : c.chunk.size ≤ 0
      · exact .inl hsize
      · right
        have hne : c.limited.text ≠ [] := List.ne_nil_of_length_pos (by omega)
        obtain ⟨-, hsum⟩ := hmore hne
        obtain ⟨e, he, hpiece⟩ : ∃ e ∈ c.limited.pieces, e.1 ≠ [] := by
          apply Classical.byContradiction
          intro hno
          refine hne (List.flatten_eq_nil_iff.mpr fun p hp => ?_)
          obtain ⟨e, he, rfl⟩ := List.mem_map.mp hp
          exact Classical.byContradiction fun h => hno ⟨e, he, h⟩
        refine ⟨(htaken rfl e he hpiece).1, by omega, hread, fun e he => ?_, ?_⟩
        · by_cases hp : e.1 = []
          · rw [hp]
            exact Nat.zero_le _
          · exact (htaken rfl e he hp).2
        · rw [← limited_text]
          exact hsum (by
            have h1 : ((c.limited.pieces.map (·.1)).flatten).length = c.limited.text.length := rfl
            have h2 : c.writer.n = 0 := rfl
            have h3 : c.writer.size = c.chunk.size := rfl
            omega)
  · intro h
    by_cases hpos : c.chunk.size ≤ 0
    · have hno : ¬ ((0 : Nat) : Int) < c.chunk.size := by omega
      rw [limited_nil hpos]
      exact if_neg hno
    · obtain ⟨hstart, hsize, hread, htaken, hsum⟩ := h.resolve_left hpos
      have h1 : ((c.limited.pieces.map (·.1)).flatten).length = c.limited.text.length := rfl
      have h2 : c.writer.n = 0 := rfl
      have h3 : c.writer.size = c.chunk.size := rfl
      have hle : (c.writer.n + ((c.limited.pieces.map (·.1)).flatten).length : Int) ≤ c.writer.size := by omega
      rw [← limited_text] at hsum
      have htotal : (copyLoop sum c.chunk.start false c.limited.pieces c.writer f).2.2 = none :=
        copyLoop_total hstart rfl htaken hle fun _ => hsum
      rw [hread]
      have hn := (@copyLoop_file _ _ sum c.chunk.start false c.limited.pieces c.writer f).2
      have hacc := (copyLoop_ok htotal).2.1
      generalize copyLoop sum c.chunk.start false c.limited.pieces c.writer f = res at htotal hn
      obtain ⟨n, g, err⟩ := res
      subst htotal
      rw [show n = _ from hn, hacc]
      exact if_neg (by omega)

/-- A `Put` of a chunk that fails leaves the blob if and only if it delivers, so that it does not fail, or writes what
is there. -/
theorem put_keeps_iff {f : Bytes} (hf : ∀ g, sum g = sum f → g = f) (c : ChunkPut δ) :
    ((c.put sum f).2 ≠ none → sum (c.put sum f).1 = sum f) ↔ c.Delivers sum ∨ c.Agrees sum f := by
  have hfile : sum (c.put sum f).1 = sum f ↔ c.Agrees sum f := by
    unfold Agrees
    rw [← writeAt_eq_self_iff, ← put_file]
    exact ⟨hf _, congrArg sum⟩
  rw [← put_none_iff f, hfile]
  exact Decidable.imp_iff_not_or.trans (or_congr_left Decidable.not_not)

/-- A chunker whose puts all write what is there leaves the blob, whatever they return. -/
theorem puts_keep {f : Bytes} {validated : Bool} {cs : List (ChunkPut δ)}
    (h : validated = true ∨ ∀ c ∈ cs, c.Agrees sum f) : ∀ r ∈ puts sum validated f cs, r.1 = f := by
  induction cs with
  | nil => simp [puts]
  | cons c cs ih =>
    have hrest := ih (h.imp_right fun h c hc => h c (List.mem_cons_of_mem _ hc))
    unfold puts
    cases validated with
    | true =>
      rw [if_pos rfl, List.forall_mem_cons]
      exact ⟨rfl, hrest⟩
    | false =>
      have hc : (c.put sum f).1 = f := by
        rw [put_file, writeAt_eq_self_iff]
        rcases h with h | h
        · cases h
        · exact h c (List.mem_cons_self ..)
      rw [if_neg nofun, List.forall_mem_cons, hc]
      exact ⟨rfl, hrest⟩

end ChunkPut

omit [DecidableEq δ] in
/-- `Chunked` does not touch the file, and skips all writes if it has the right size. -/
theorem chunked_file (f : Bytes) (size : Int) (openErr : Bool) :
    (chunked (some f) size openErr).1 = some f ∧
      (size = f.length → (chunked (some f) size openErr).2 = .ok true) := by
  unfold chunked
  split
  · exact ⟨rfl, fun _ => rfl⟩
  · rename_i hstat
    refine ⟨by split <;> rfl, ?_⟩
    rintro rfl
    exact absurd rfl hstat

end Xdragon.Blob
