import Mathlib.Algebra.BigOperators.Ring.Finset
import Xdragon.Server.Download
import Xdragon.Lib.Tiling

/-!
# A download loses no byte

Every part that is on disk or in memory is one of the plan of its blob. When `Prepare` takes over
part files of the size of the blob, it has all of them. The parts then tile the blob, and the file
that is renamed has every byte of it.
-/

namespace Xdragon.Server.Download

open Xdragon.Lib

/-! ## What is claimed -/

/-- The parts fill the blob without a gap and without an overlap. -/
structure Tiles (length : Nat) (ps : List Part) : Prop where
  inside : ∀ p ∈ ps, p.offset + p.size ≤ length
  apart : ps.Pairwise fun p q => p.offset + p.size ≤ q.offset ∨ q.offset + q.size ≤ p.offset
  covers : ∀ x < length, ∃ p ∈ ps, p.offset ≤ x ∧ x < p.offset + p.size

/-- `Completed` counts bytes of the blob that are in the file from the start of the part on. -/
def Counted (blob : Nat → UInt8) (data : Nat → Option UInt8) (p : Part) : Prop :=
  p.completed ≤ p.size ∧ ∀ x < p.completed, data (p.offset + x) = some (blob (p.offset + x))

/-- The parts in memory. -/
def Phase.parts : Phase → List Part
  | .idle => []
  | .preparing _ _ _ ps => ps
  | .prepared _ ps => ps
  | .running ws => ws.map (·.part)
  | .removing ps _ => ps

/-- `run` is at work. -/
def Phase.inRun : Phase → Prop
  | .running _ | .removing _ _ => True
  | _ => False

structure Sound (blob : Nat → UInt8) (length : Nat) (s : State) : Prop where
  tiles : s.phase.inRun → Tiles length s.phase.parts
  counted : ∀ p ∈ s.phase.parts, Counted blob s.data p
  renamed : ∀ f, s.blobFile = some f → ∀ x < length, f x = some (blob x)

/-- `Prepare` does not find some of the part files and miss others, and every response carries the
range that was asked for. -/
def Whole (length : Nat) (s : State) : Event → Prop
  | .prepare _ =>
    match readParts (glob s.files) with
    | some [] | none => True
    | some ps => totalSize ps = length
  | .copy _ _ .range => True
  | .copy _ _ (.other _) => False
  | _ => True

instance (length : Nat) (s : State) (e : Event) : Decidable (Whole length s e) := by
  unfold Whole
  repeat' split
  all_goals infer_instance

/-! ## The invariant -/

/-- One of the parts that `Prepare` plans for the blob. -/
structure Planned (length : Nat) (p : Part) : Prop where
  offset : p.offset = p.n * partSize length
  start : p.offset < length
  size : p.size = min (partSize length) (length - p.offset)

theorem Planned.inside {length : Nat} {p : Part} (h : Planned length p) : p.offset + p.size ≤ length := by
  have := h.start
  have := h.size
  omega

theorem Planned.apart {length : Nat} {p q : Part} (hp : Planned length p) (hq : Planned length q) (hne : p.n ≠ q.n) :
    p.offset + p.size ≤ q.offset ∨ q.offset + q.size ≤ p.offset := by
  have hps := hp.size
  have hqs := hq.size
  obtain hlt | hlt := Nat.lt_or_gt_of_ne hne
  · left
    have := Nat.mul_le_mul_right (partSize length) (Nat.succ_le_of_lt hlt)
    rw [hq.offset, hp.offset]
    rw [Nat.succ_mul] at this
    omega
  · right
    have := Nat.mul_le_mul_right (partSize length) (Nat.succ_le_of_lt hlt)
    rw [hq.offset, hp.offset]
    rw [Nat.succ_mul] at this
    omega

/-- The whole set of parts of the plan. -/
structure Complete (length : Nat) (ps : List Part) : Prop where
  planned : ∀ p ∈ ps, Planned length p
  nodup : (ps.map (·.n)).Nodup
  total : totalSize ps = length

theorem Complete.tiles {length : Nat} {ps : List Part} (h : Complete length ps) : Tiles length ps := by
  have hapart : ps.Pairwise fun p q => p.offset + p.size ≤ q.offset ∨ q.offset + q.size ≤ p.offset := by
    have hnd := List.pairwise_map.mp h.nodup
    apply hnd.imp_of_mem
    intro p q hp hq hne
    exact (h.planned p hp).apart (h.planned q hq) hne
  refine ⟨fun p hp => (h.planned p hp).inside, hapart, ?_⟩
  have hsum : (ps.map fun p => ((p.offset + p.size : Nat) : Int) - (p.offset : Int)).sum = (length : Int) := by
    have hsizes : (ps.map fun p => ((p.offset + p.size : Nat) : Int) - (p.offset : Int)) =
        (ps.map (·.size)).map (fun n : Nat => (n : Int)) := by
      rw [List.map_map]
      apply List.map_congr_left
      intro p _
      simp
    rw [hsizes, ← h.total, totalSize]
    exact (Nat.cast_list_sum (R := Int) (ps.map (·.size))).symm
  intro x hx
  obtain ⟨p, hp, h1, h2⟩ := exists_mem_of_sum_eq (fun p : Part => (p.offset : Int)) (fun p => ((p.offset + p.size : Nat) : Int))
    (Int.natCast_nonneg length) (fun p hp => by have := (h.planned p hp).inside; omega)
    (hapart.imp (by omega)) hsum (Int.natCast_nonneg x) (by omega)
  exact ⟨p, hp, by omega, by omega⟩

/-! ### Bytes in the file -/

/-- The bytes of the blob that are in the file stay there. -/
def Kept (blob : Nat → UInt8) (length : Nat) (data data' : Nat → Option UInt8) : Prop :=
  ∀ x < length, data x = some (blob x) → data' x = some (blob x)

theorem Counted.mono {blob : Nat → UInt8} {length : Nat} {data data' : Nat → Option UInt8} {p : Part}
    (h : Counted blob data p) (hkept : Kept blob length data data') (hp : Planned length p) : Counted blob data' p := by
  refine ⟨h.1, fun x hx => hkept _ ?_ (h.2 x hx)⟩
  have := h.1
  have := hp.inside
  omega

structure FilesSound (blob : Nat → UInt8) (length : Nat) (data : Nat → Option UInt8) (files : List (Nat × PartFile)) :
    Prop where
  nodup : (files.map (·.1)).Nodup
  json : ∀ n p, (n, PartFile.json p) ∈ files → p.n = n ∧ Planned length p ∧ Counted blob data p

theorem FilesSound.mono {blob : Nat → UInt8} {length : Nat} {data data' : Nat → Option UInt8}
    {files : List (Nat × PartFile)} (h : FilesSound blob length data files) (hkept : Kept blob length data data') :
    FilesSound blob length data' files :=
  ⟨h.nodup, fun n p hp => ⟨(h.json n p hp).1, (h.json n p hp).2.1, (h.json n p hp).2.2.mono hkept (h.json n p hp).2.1⟩⟩

theorem FilesSound.writePart {blob : Nat → UInt8} {length : Nat} {data : Nat → Option UInt8}
    {files : List (Nat × PartFile)} (h : FilesSound blob length data files) {p : Part} (hp : Planned length p)
    (hc : Counted blob data p) (out : WriteEnd) : FilesSound blob length data (writePart files p out) := by
  have hnodup : ∀ f, (((p.n, f) :: files.filter (·.1 ≠ p.n)).map (·.1)).Nodup := by
    intro f
    rw [List.map_cons, List.nodup_cons]
    constructor
    · simp
    · exact h.nodup.sublist (List.filter_sublist.map _)
  cases out with
  | stored =>
    refine ⟨hnodup _, fun n q hq => ?_⟩
    obtain heq | hq := List.mem_cons.mp hq
    · obtain ⟨rfl, rfl⟩ : n = p.n ∧ q = p := by simpa using heq
      exact ⟨rfl, hp, hc⟩
    · exact h.json n q (List.mem_of_mem_filter hq)
  | torn =>
    refine ⟨hnodup _, fun n q hq => ?_⟩
    obtain heq | hq := List.mem_cons.mp hq
    · simp at heq
    · exact h.json n q (List.mem_of_mem_filter hq)
  | unopened => exact h

theorem FilesSound.filter {blob : Nat → UInt8} {length : Nat} {data : Nat → Option UInt8}
    {files : List (Nat × PartFile)} (h : FilesSound blob length data files) (i : Nat) :
    FilesSound blob length data (files.filter (·.1 ≠ i)) :=
  ⟨h.nodup.sublist (List.filter_sublist.map _), fun n p hp => h.json n p (List.mem_of_mem_filter hp)⟩

/-- The parts that `Prepare` reads back. -/
theorem readParts_eq {files : List (Nat × PartFile)} {ps : List Part} (h : readParts files = some ps)
    (hn : ∀ n p, (n, PartFile.json p) ∈ files → p.n = n) : files = ps.map fun p => (p.n, .json p) := by
  induction files generalizing ps with
  | nil =>
    obtain rfl : [] = ps := by simpa [readParts] using h
    rfl
  | cons f files ih =>
    obtain ⟨n, f⟩ := f
    cases f with
    | torn => simp [readParts] at h
    | json p =>
      simp only [readParts, Option.map_eq_some_iff] at h
      obtain ⟨qs, hqs, rfl⟩ := h
      have hrest := ih hqs fun n q hq => hn n q (List.mem_cons_of_mem _ hq)
      rw [List.map_cons, ← hrest, hn n p List.mem_cons_self]

/-! ### The phases -/

structure WorkSound (blob : Nat → UInt8) (data : Nat → Option UInt8) (w : Work) : Prop where
  counted : Counted blob data w.part
  done : w.attempt = .done → w.part.completed = w.part.size
  copying : ∀ start remaining copied, w.attempt = .copying start remaining copied →
    start = w.part.offset + w.part.completed ∧ remaining = w.part.size - w.part.completed ∧ copied ≤ remaining ∧
      ∀ x < copied, data (start + x) = some (blob (start + x))

/-- The loop of `Prepare`: the parts so far reach up to `offset`. -/
structure Preparing (length total offset size : Nat) (parts : List Part) : Prop where
  total_eq : total = length
  planned : ∀ p ∈ parts, Planned length p ∧ p.completed = 0
  numbers : parts.map (·.n) = List.range parts.length
  sum : totalSize parts = offset
  le : offset ≤ length
  next : offset < length → offset = parts.length * partSize length ∧ size = partSize length

def PhaseSound (blob : Nat → UInt8) (length : Nat) (data : Nat → Option UInt8) : Phase → Prop
  | .idle => True
  | .preparing total offset size parts => Preparing length total offset size parts
  | .prepared total parts => total = length ∧ Complete length parts ∧ ∀ p ∈ parts, Counted blob data p
  | .running works => Complete length (works.map (·.part)) ∧ ∀ w ∈ works, WorkSound blob data w
  | .removing parts _ => Complete length parts ∧ ∀ p ∈ parts, Counted blob data p ∧ p.completed = p.size

/-- Part files matter as long as the blob is not there: `Prepare` is called for no other. -/
structure Inv (blob : Nat → UInt8) (length : Nat) (s : State) : Prop where
  files : s.blobFile = none → FilesSound blob length s.data s.files
  phase : PhaseSound blob length s.data s.phase
  renamed : ∀ f, s.blobFile = some f → ∀ x < length, f x = some (blob x)

theorem Inv.sound {blob : Nat → UInt8} {length : Nat} {s : State} (h : Inv blob length s) : Sound blob length s := by
  obtain ⟨-, hphase, hrenamed⟩ := h
  cases hs : s.phase with
  | idle => exact ⟨by simp [hs, Phase.inRun], by simp [hs, Phase.parts], hrenamed⟩
  | preparing total offset size parts =>
    rw [hs] at hphase
    refine ⟨by simp [hs, Phase.inRun], fun p hp => ?_, hrenamed⟩
    have h0 := (hphase.planned p (by simpa [hs, Phase.parts] using hp)).2
    exact ⟨by omega, by simp [h0]⟩
  | prepared total parts =>
    rw [hs] at hphase
    exact ⟨by simp [hs, Phase.inRun], by simpa [hs, Phase.parts] using hphase.2.2, hrenamed⟩
  | running works =>
    rw [hs] at hphase
    refine ⟨fun _ => by simpa [hs, Phase.parts] using hphase.1.tiles, fun p hp => ?_, hrenamed⟩
    obtain ⟨w, hw, rfl⟩ : ∃ w ∈ works, w.part = p := by simpa [hs, Phase.parts] using hp
    exact (hphase.2 w hw).counted
  | removing parts i =>
    rw [hs] at hphase
    refine ⟨fun _ => by simpa [hs, Phase.parts] using hphase.1.tiles, fun p hp => ?_, hrenamed⟩
    exact (hphase.2 p (by simpa [hs, Phase.parts] using hp)).1

/-! ## The steps -/

section
variable {blob : Nat → UInt8} {length : Nat} {s : State}

theorem Inv.prepare (h : Inv blob length s) (hnone : s.blobFile = none) {headErr : Bool} (hok : Whole length s (.prepare headErr)) :
    Inv blob length (s.prepare length headErr) := by
  have hfs := h.files hnone
  unfold State.prepare
  split
  · exact h
  · split_ifs
    · exact h
    · exact ⟨h.files, ⟨rfl, by simp, by simp, by simp [totalSize], Nat.zero_le _, by simp⟩, h.renamed⟩
  · rename_i ps hne hread
    have htotal : totalSize ps = length := by
      unfold Whole at hok
      rw [hread] at hok
      cases ps with
      | nil => exact absurd rfl hne
      | cons p ps => simpa using hok
    have hperm : (glob s.files).Perm s.files := List.perm_insertionSort _ _
    have hfiles := readParts_eq hread fun n p hp => (hfs.json n p (hperm.mem_iff.mp hp)).1
    have hmem : ∀ p ∈ ps, (p.n, PartFile.json p) ∈ s.files := by
      intro p hp
      apply hperm.mem_iff.mp
      rw [hfiles]
      exact List.mem_map_of_mem hp
    refine ⟨h.files, ⟨htotal, ⟨?_, ?_, htotal⟩, ?_⟩, h.renamed⟩
    · exact fun p hp => (hfs.json _ _ (hmem p hp)).2.1
    · have hnd := (hperm.map (·.1)).nodup_iff.mpr hfs.nodup
      rw [hfiles, List.map_map] at hnd
      exact hnd
    · exact fun p hp => (hfs.json _ _ (hmem p hp)).2.2

theorem Inv.newPart (h : Inv blob length s) {total offset size : Nat} {parts : List Part}
    (hs : s.phase = .preparing total offset size parts) (hlt : offset < total) (out : WriteEnd) :
    Inv blob length (s.newPart total offset size parts out) := by
  have hphase := h.phase
  rw [hs] at hphase
  obtain ⟨rfl, hplanned, hnumbers, hsum, hle, hnext⟩ := hphase
  obtain ⟨hoff, rfl⟩ := hnext hlt
  have hsize : (if offset + partSize total > total then total - offset else partSize total) =
      min (partSize total) (total - offset) := by
    split_ifs <;> omega
  have hpart : Planned total ⟨parts.length, offset, min (partSize total) (total - offset), 0⟩ := ⟨hoff, hlt, rfl⟩
  have hfiles := fun hb => (h.files hb).writePart hpart ⟨Nat.zero_le _, by simp⟩ out
  unfold State.newPart
  simp only [hsize]
  cases out with
  | torn => exact ⟨hfiles, trivial, h.renamed⟩
  | unopened => exact ⟨hfiles, trivial, h.renamed⟩
  | stored =>
    refine ⟨hfiles, ⟨rfl, ?_, ?_, ?_, ?_, ?_⟩, h.renamed⟩
    · intro p hp
      obtain hp | hp := List.mem_append.mp hp
      · exact hplanned p hp
      · obtain rfl := List.mem_singleton.mp hp
        exact ⟨hpart, rfl⟩
    · rw [List.map_append, hnumbers, List.length_append, List.length_singleton, List.range_succ]
      rfl
    · unfold totalSize at hsum ⊢
      rw [List.map_append, List.sum_append, hsum]
      simp
    · omega
    · -- a part that is not the last one has the full size
      intro hmore
      have hfull : min (partSize total) (total - offset) = partSize total := by omega
      rw [hfull, List.length_append, List.length_singleton, Nat.succ_mul, hoff]
      exact ⟨rfl, rfl⟩

theorem Inv.prepareEnd (h : Inv blob length s) {total offset size : Nat} {parts : List Part}
    (hs : s.phase = .preparing total offset size parts) (hend : ¬ offset < total) :
    Inv blob length { s with phase := .prepared total parts } := by
  have hphase := h.phase
  rw [hs] at hphase
  obtain ⟨rfl, hplanned, hnumbers, hsum, hle, -⟩ := hphase
  refine ⟨h.files, ⟨rfl, ⟨fun p hp => (hplanned p hp).1, ?_, by omega⟩, fun p hp => ?_⟩, h.renamed⟩
  · rw [hnumbers]
    exact List.nodup_range
  · have h0 := (hplanned p hp).2
    exact ⟨by omega, by simp [h0]⟩

theorem Inv.run (h : Inv blob length s) {total : Nat} {parts : List Part} (hs : s.phase = .prepared total parts)
    (truncated : Bool) : Inv blob length (s.run total parts truncated) := by
  have hphase := h.phase
  rw [hs] at hphase
  obtain ⟨rfl, hcomplete, hcounted⟩ := hphase
  have hkept : Kept blob total s.data fun x => if truncated && total ≤ x then none else s.data x := by
    intro x hx hdata
    simp [hx, hdata]
  refine ⟨fun hb => (h.files hb).mono hkept, ⟨?_, ?_⟩, h.renamed⟩
  · simpa [Function.comp_def] using hcomplete
  · intro w hw
    obtain ⟨p, hp, rfl⟩ := List.mem_map.mp hw
    refine ⟨(hcounted p hp).mono hkept (hcomplete.planned p hp), ?_, ?_⟩
    · simp only
      split_ifs with heq <;> simp [heq]
    · simp only
      split_ifs <;> simp

theorem PhaseSound.setWork {data data' : Nat → Option UInt8} {works : List Work} {k : Nat} {w w' : Work}
    (h : PhaseSound blob length data (.running works)) (hk : works[k]? = some w) (hkept : Kept blob length data data')
    (hpart : w'.part.n = w.part.n ∧ w'.part.offset = w.part.offset ∧ w'.part.size = w.part.size)
    (hw : WorkSound blob data' w') : PhaseSound blob length data' (.running (works.set k w')) := by
  obtain ⟨hcomplete, hworks⟩ := h
  obtain ⟨hlt, rfl⟩ := List.getElem?_eq_some_iff.mp hk
  obtain ⟨hn, hoff, hsize⟩ := hpart
  have hmem : works[k].part ∈ works.map (·.part) := List.mem_map_of_mem (List.getElem_mem hlt)
  have hplan := hcomplete.planned _ hmem
  -- the plan does not depend on the progress
  have hmap : ∀ f : Part → Nat, f w'.part = f works[k].part →
      ((works.set k w').map (·.part)).map f = (works.map (·.part)).map f := by
    intro f hf
    apply List.ext_getElem (by simp)
    intro j hj _
    by_cases hkj : k = j
    · subst hkj
      simpa using hf
    · simp [hkj]
  refine ⟨⟨?_, ?_, ?_⟩, ?_⟩
  · intro p hp
    obtain ⟨v, hv, rfl⟩ := List.mem_map.mp hp
    obtain hv | rfl := List.mem_or_eq_of_mem_set hv
    · exact hcomplete.planned _ (List.mem_map_of_mem hv)
    · exact ⟨by rw [hoff, hn, hplan.offset], by rw [hoff]; exact hplan.start, by rw [hsize, hoff]; exact hplan.size⟩
  · rw [hmap _ hn]
    exact hcomplete.nodup
  · rw [totalSize, hmap _ hsize]
    exact hcomplete.total
  · intro v hv
    obtain hv | rfl := List.mem_or_eq_of_mem_set hv
    · have hvp := hcomplete.planned _ (List.mem_map_of_mem hv)
      refine ⟨(hworks v hv).counted.mono hkept hvp, (hworks v hv).done, fun start remaining copied hc => ?_⟩
      obtain ⟨h1, h2, h3, h4⟩ := (hworks v hv).copying start remaining copied hc
      refine ⟨h1, h2, h3, fun x hx => hkept _ ?_ (h4 x hx)⟩
      have := hvp.inside
      have := (hworks v hv).counted.1
      omega
    · exact hw

theorem Kept.refl (blob : Nat → UInt8) (length : Nat) (data : Nat → Option UInt8) : Kept blob length data data :=
  fun _ _ h => h

section
variable {works : List Work} {k : Nat} {w : Work} (h : Inv blob length s) (hs : s.phase = .running works)
  (hk : works[k]? = some w)
include h hs hk

theorem Inv.work : WorkSound blob s.data w ∧ Planned length w.part := by
  have hphase := h.phase
  rw [hs] at hphase
  have hmem := List.mem_of_getElem? hk
  exact ⟨hphase.2 w hmem, hphase.1.planned _ (List.mem_map_of_mem hmem)⟩

/-- A step of a goroutine that leaves the disk alone. -/
theorem Inv.setAttempt {a : Try} (hw : WorkSound blob s.data ⟨w.part, a⟩) :
    Inv blob length (s.setWork works k ⟨w.part, a⟩) := by
  have hphase := h.phase
  rw [hs] at hphase
  exact ⟨h.files, hphase.setWork hk (Kept.refl blob length s.data) ⟨rfl, rfl, rfl⟩ hw, h.renamed⟩

theorem Inv.copy {start remaining copied n : Nat} (hw : w.attempt = .copying start remaining copied)
    (hn : copied + n ≤ remaining) : Inv blob length (s.copy blob works k w start remaining copied n .range) := by
  obtain ⟨hws, hplan⟩ := h.work hs hk
  obtain ⟨rfl, rfl, -, hbytes⟩ := hws.copying _ _ _ hw
  have hphase := h.phase
  rw [hs] at hphase
  unfold State.copy
  have hkept : Kept blob length s.data fun x => if w.part.offset + w.part.completed + copied ≤ x ∧
      x < w.part.offset + w.part.completed + copied + n then some (blob x) else s.data x := by
    intro x _ hdata
    simp only
    split_ifs
    · rfl
    · exact hdata
  refine ⟨fun hb => (h.files hb).mono hkept, hphase.setWork hk hkept ⟨rfl, rfl, rfl⟩ ⟨hws.counted.mono hkept hplan, by simp, ?_⟩, h.renamed⟩
  intro start remaining copied' hc
  obtain ⟨rfl, rfl, rfl⟩ : w.part.offset + w.part.completed = start ∧ w.part.size - w.part.completed = remaining ∧
      copied + n = copied' := by simpa using hc
  refine ⟨rfl, rfl, hn, fun x hx => ?_⟩
  simp only [State.setWork, Body.byte]
  split_ifs with hin
  · rfl
  · exact hbytes x (by omega)

theorem Inv.endCopy {start remaining copied : Nat} (hw : w.attempt = .copying start remaining copied) {e : CopyEnd}
    (he : e = .full → copied = remaining) (out : WriteEnd) (stalled : Bool) :
    Inv blob length (s.endCopy works k w copied e out stalled) := by
  obtain ⟨hws, hplan⟩ := h.work hs hk
  obtain ⟨rfl, rfl, hle, hbytes⟩ := hws.copying _ _ _ hw
  have hphase := h.phase
  rw [hs] at hphase
  -- what was copied follows what was counted
  have hcounted : Counted blob s.data { w.part with completed := w.part.completed + copied } := by
    have := hws.counted.1
    refine ⟨by simp only; omega, fun x hx => ?_⟩
    by_cases hlt : x < w.part.completed
    · exact hws.counted.2 x hlt
    · have := hbytes (x - w.part.completed) (by simp only at hx; omega)
      rwa [show w.part.offset + w.part.completed + (x - w.part.completed) = w.part.offset + x by omega] at this
  have hfiles := fun hb => (h.files hb).writePart (p := { w.part with completed := w.part.completed + copied })
    ⟨hplan.offset, hplan.start, hplan.size⟩ hcounted out
  unfold State.endCopy
  cases e with
  | rolledBack => exact h.setAttempt hs hk ⟨hws.counted, by simp, by simp⟩
  | resumable =>
    exact ⟨hfiles, hphase.setWork hk (Kept.refl blob length s.data) ⟨rfl, rfl, rfl⟩ ⟨hcounted, by simp, by simp⟩, h.renamed⟩
  | full =>
    refine ⟨hfiles, hphase.setWork hk (Kept.refl blob length s.data) ⟨rfl, rfl, rfl⟩ ⟨hcounted, ?_, ?_⟩, h.renamed⟩
    · have := he rfl
      have := hws.counted.1
      intro _
      simp only
      omega
    · simp only
      split_ifs <;> simp

end

theorem Inv.wait (h : Inv blob length s) {works : List Work} (hs : s.phase = .running works)
    (hdone : ∀ w ∈ works, w.attempt = .done) : Inv blob length { s with phase := .removing (works.map (·.part)) 0 } := by
  have hphase := h.phase
  rw [hs] at hphase
  refine ⟨h.files, ⟨hphase.1, fun p hp => ?_⟩, h.renamed⟩
  obtain ⟨w, hw, rfl⟩ := List.mem_map.mp hp
  exact ⟨(hphase.2 w hw).counted, (hphase.2 w hw).done (hdone w hw)⟩

theorem Inv.idle (h : Inv blob length s) : Inv blob length { s with phase := .idle } := ⟨h.files, trivial, h.renamed⟩

/-- The parts are complete and tile the blob, so the file has every byte. -/
theorem Inv.rename (h : Inv blob length s) {parts : List Part} {i : Nat} (hs : s.phase = .removing parts i) :
    ∀ x < length, s.data x = some (blob x) := by
  have hphase := h.phase
  rw [hs] at hphase
  obtain ⟨hcomplete, hparts⟩ := hphase
  intro x hx
  obtain ⟨p, hp, h1, h2⟩ := hcomplete.tiles.covers x hx
  obtain ⟨hcounted, hfull⟩ := hparts p hp
  have := hcounted.2 (x - p.offset) (by omega)
  rwa [Nat.add_sub_cancel' h1] at this

theorem Inv.step {s' : State} {e : Event} (h : Inv blob length s) (hok : Whole length s e)
    (hs : s.step blob length e = some s') : Inv blob length s' := by
  cases e with
  | prepare headErr =>
    simp only [State.step] at hs
    split at hs
    · rename_i hnone
      obtain rfl := Option.some.inj hs
      exact h.prepare hnone hok
    · simp at hs
  | newPart out =>
    simp only [State.step] at hs
    split at hs
    · rename_i total offset size parts hphase
      split_ifs at hs with hlt
      obtain rfl := Option.some.inj hs
      exact h.newPart hphase hlt out
    · simp at hs
  | prepareEnd =>
    simp only [State.step] at hs
    split at hs
    · rename_i total offset size parts hphase
      split_ifs at hs with hlt
      obtain rfl := Option.some.inj hs
      exact h.prepareEnd hphase hlt
    · simp at hs
  | run truncated =>
    simp only [State.step] at hs
    split at hs
    · rename_i total parts hphase
      obtain rfl := Option.some.inj hs
      exact h.run hphase truncated
    · simp at hs
  | runErr =>
    simp only [State.step] at hs
    split at hs
    · obtain rfl := Option.some.inj hs
      exact h.idle
    · simp at hs
  | attempt k =>
    simp only [State.step] at hs
    split at hs
    · rename_i works hphase
      split at hs
      · rename_i p hk
        obtain rfl := Option.some.inj hs
        obtain ⟨hws, -⟩ := h.work hphase hk
        refine h.setAttempt hphase hk ⟨hws.counted, by simp, fun start remaining copied hc => ?_⟩
        obtain ⟨rfl, rfl, rfl⟩ : p.startsAt = start ∧ p.size - p.completed = remaining ∧ 0 = copied := by simpa using hc
        exact ⟨rfl, rfl, Nat.zero_le _, by simp⟩
      · simp at hs
    · simp at hs
  | copy k n body =>
    simp only [State.step] at hs
    split at hs
    · rename_i works hphase
      split at hs
      · rename_i p start remaining copied hk
        split_ifs at hs with hn
        obtain rfl := Option.some.inj hs
        cases body with
        | range => exact h.copy hphase hk rfl hn
        | other f => exact absurd hok (by simp [Whole])
      · simp at hs
    · simp at hs
  | endCopy k e out stalled =>
    simp only [State.step] at hs
    split at hs
    · rename_i works hphase
      split at hs
      · rename_i p start remaining copied hk
        split_ifs at hs with he
        obtain rfl := Option.some.inj hs
        exact h.endCopy hphase hk rfl (fun hfull => by simp [hfull] at he; exact he) out stalled
      · simp at hs
    · simp at hs
  | giveUp k =>
    simp only [State.step] at hs
    split at hs
    · rename_i works hphase
      split at hs
      · rename_i p hk
        obtain rfl := Option.some.inj hs
        exact h.setAttempt hphase hk ⟨(h.work hphase hk).1.counted, by simp, by simp⟩
      · simp at hs
    · simp at hs
  | wait closeErr =>
    simp only [State.step] at hs
    split at hs
    · rename_i works hphase
      split_ifs at hs with hdone
      · obtain rfl := Option.some.inj hs
        exact h.wait hphase (by simpa using hdone.1)
      · obtain rfl := Option.some.inj hs
        exact h.idle
    · simp at hs
  | remove err =>
    simp only [State.step] at hs
    split at hs
    · rename_i parts i hphase
      split_ifs at hs
      · obtain rfl := Option.some.inj hs
        exact h.idle
      · obtain rfl := Option.some.inj hs
        have hparts := h.phase
        rw [hphase] at hparts
        exact ⟨fun hb => (h.files hb).filter i, hparts, h.renamed⟩
    · simp at hs
  | rename err =>
    simp only [State.step] at hs
    split at hs
    · rename_i parts i hphase
      split_ifs at hs
      · obtain rfl := Option.some.inj hs
        exact h.idle
      · obtain rfl := Option.some.inj hs
        refine ⟨by simp, trivial, fun f hf => ?_⟩
        obtain rfl : s.data = f := by simpa using hf
        exact h.rename hphase
    · simp at hs
  | crash =>
    obtain rfl := Option.some.inj hs
    exact h.idle

/-- In every run of downloads of a blob, over any number of restarts, in which `Prepare` does not find
some of the part files and miss others, and every response carries the range that was asked for:
the parts in use tile the blob, `Completed` counts bytes that are in the file, and the file that is
renamed has every byte of the blob. -/
theorem download_sound (blob : Nat → UInt8) (length : Nat) {s : State}
    (h : Reaches (State.step · blob length) (Whole length) (· = State.init) s) : Sound blob length s := by
  have hinv : Inv blob length s := by
    refine h.invariant ?_ ?_
    · rintro _ rfl
      exact ⟨fun _ => ⟨by simp [State.init], by simp [State.init]⟩, trivial, by simp [State.init]⟩
    · intro s e s' hs hok hstep
      exact hs.step hok hstep
  exact hinv.sound

end

/-! ## Two runs -/

/-- Two parts, one of 100 and one of 50 megabytes. -/
def bigLength : Nat := 150 * 1000 * 1000

def zeros (_ : Nat) : UInt8 := 0

/-- The body of the second part breaks off, and the process is killed. The next one goes on there. -/
def resumedRun : List Event :=
  [.prepare false, .newPart .stored, .newPart .stored, .prepareEnd, .run true, .attempt 1, .copy 1 1000 .range,
    .endCopy 1 .resumable .stored false, .crash, .prepare false, .run true, .attempt 0, .attempt 1,
    .copy 1 49999000 .range, .copy 0 100000000 .range, .endCopy 1 .full .stored false,
    .endCopy 0 .full .stored false, .wait false, .remove false, .remove false, .rename false]

theorem resumedRun_sound :
    let s := (exec (State.step · zeros bigLength) State.init resumedRun).get (by decide)
    s.blobFile.isSome = true ∧ Sound zeros bigLength s := by
  refine ⟨by decide, download_sound zeros bigLength ?_⟩
  exact reaches_of_exec (Reaches.init rfl) (by decide) (Option.some_get _).symm

/-- The process is killed after it has written the file of the first part. -/
def killedInPrepare : List Event :=
  [.prepare false, .newPart .stored, .crash, .prepare false, .run true, .attempt 0, .copy 0 100000000 .range,
    .endCopy 0 .full .stored false, .wait false, .remove false, .rename false]

theorem killedInPrepare_unsound :
    let s := (exec (State.step · zeros bigLength) State.init killedInPrepare).get (by decide)
    Reaches (State.step · zeros bigLength) (fun _ _ => True) (· = State.init) s ∧ ¬ Sound zeros bigLength s := by
  constructor
  · exact reaches_of_exec (Reaches.init rfl) (by decide) (Option.some_get _).symm
  · intro h
    have hfile : ((exec (State.step · zeros bigLength) State.init killedInPrepare).get (by decide)).blobFile.map
        (· 100000000) = some none := by decide
    obtain ⟨f, hf, hnone⟩ := Option.map_eq_some_iff.mp hfile
    have := h.renamed f hf 100000000 (by decide)
    simp [hnone] at this

end Xdragon.Server.Download
