import Xdragon.Blob.Cache

/-!
# Whole calls of `copyNamedFile`

A call from its start to its return, over one file. The reader gives its content in pieces of any size. What the
system refuses is given with the call. The call is a run of the steps of the disk cache.
-/

namespace Xdragon.Lib

theorem writeAt_writeAt (f : Bytes) (off : Nat) (p q : Bytes) :
    writeAt (writeAt f off p) (off + p.length) q = writeAt f off (p ++ q) := by
  by_cases hp : p = []
  · simp [hp]
  by_cases hq : q = []
  · simp [hq]
  have hlen : (f.take off ++ List.replicate (off - f.length) (0 : UInt8)).length = off := by
    simp
    omega
  generalize ha : f.take off ++ List.replicate (off - f.length) (0 : UInt8) = a at hlen
  have hfirst : writeAt f off p = a ++ p ++ f.drop (off + p.length) := by rw [writeAt, if_neg hp, ha]
  have hap : (a ++ p).length = off + p.length := by rw [List.length_append, hlen]
  have hgap : (a ++ p).length - (a ++ p ++ f.drop (a ++ p).length).length = 0 :=
    Nat.sub_eq_zero_of_le (List.prefix_append _ _).length_le
  rw [hfirst, writeAt, if_neg hq, writeAt, if_neg (by simp [hp]), ha, ← hap, List.take_left, hgap, List.drop_append,
    List.drop_eq_nil_of_le (Nat.le_add_right _ _), Nat.add_sub_cancel_left, List.drop_drop, hap]
  simp [Nat.add_assoc]

end Xdragon.Lib

namespace Xdragon.Blob

open Xdragon.Lib

/-! ## The copy -/

/-- With each piece comes how many bytes of it the file takes. After the last piece the reader ends, or fails. The
error may come `together` with the last piece. -/
structure Reader where
  pieces : List (Bytes × Nat)
  failed : Bool := false
  together : Bool := false

def Reader.text (r : Reader) : Bytes := (r.pieces.map (·.1)).flatten

/-- What the system does with the calls on a file. `truncated` and `removed` say that it does what is asked. -/
structure CopyFaults where
  openErr : Bool := false
  truncated : Bool := true
  closeErr : Bool := false
  removed : Bool := true

section
variable {δ : Type} [DecidableEq δ] (sum : Bytes → δ)

/-- How many bytes of a piece the file takes. It takes none at a negative offset. -/
def taken (start : Int) (p : Bytes) (k : Nat) : Nat := if start < 0 then 0 else min k p.length

/-- `io.Copy` to the file from `start` on: the number of bytes, the file and the error. An empty piece is not
written. -/
def copyLoop (start : Int) (failed : Bool) : List (Bytes × Nat) → CheckWriter δ → Bytes → Nat × Bytes × Option Error
  | [], w, f => (w.n, f, if failed then some .read else none)
  | (p, k) :: ps, w, f =>
    if p = [] then copyLoop start failed ps w f
    else match w.verify sum p with
    | .error e => (w.n, f, some e)
    | .ok () =>
      let k := taken start p k
      let f := writeAt f (start.toNat + w.n) (p.take k)
      if k < p.length then (w.n + k, f, some .write) else copyLoop start failed ps (w.wrote p k) f

/-- The bytes that the copy writes. -/
def accepted (start : Int) : List (Bytes × Nat) → CheckWriter δ → Bytes
  | [], _ => []
  | (p, k) :: ps, w =>
    if p = [] then accepted start ps w
    else match w.verify sum p with
    | .error _ => []
    | .ok () =>
      p.take (taken start p k) ++ if taken start p k < p.length then [] else accepted start ps (w.wrote p (taken start p k))

/-- `copyNamedFile`: the file after it, and the error. -/
def copyNamedFile (file : Option Bytes) (r : Reader) (d : δ) (size : Int) (o : CopyFaults) : Option Bytes × Option Error :=
  if file.map (fun f => (f.length : Int)) = some size then (file, none)
  else if o.openErr then (file, some .openFile)
  else if size = 0 then (some (DiskCache.opened size file), none)
  else match copyLoop sum 0 r.failed r.pieces ⟨size, d, [], 0, none⟩ (DiskCache.opened size file) with
    | (_, f, some e) => (some (if o.truncated then [] else f), some e)
    | (n, f, none) =>
      if (n : Int) < size then (some (if o.truncated then [] else f), some .unexpectedEOF)
      else if o.closeErr then (if o.removed then none else some f, some .close)
      else (some f, none)

/-! ## What is written -/

variable {sum}

theorem taken_le (start : Int) (p : Bytes) (k : Nat) : taken start p k ≤ p.length := by
  unfold taken
  split
  · exact Nat.zero_le _
  · exact Nat.min_le_right ..

theorem copyLoop_file (start : Int) (failed : Bool) (ps : List (Bytes × Nat)) (w : CheckWriter δ) (f : Bytes) :
    (copyLoop sum start failed ps w f).2.1 = writeAt f (start.toNat + w.n) (accepted sum start ps w) ∧
      (copyLoop sum start failed ps w f).1 = w.n + (accepted sum start ps w).length := by
  induction ps generalizing w f with
  | nil => exact ⟨rfl, rfl⟩
  | cons e ps ih =>
    obtain ⟨p, k⟩ := e
    unfold copyLoop accepted
    split
    · exact ih w f
    · have hle := taken_le start p k
      have htake : (p.take (taken start p k)).length = taken start p k := by
        rw [List.length_take]
        omega
      split
      · exact ⟨rfl, rfl⟩
      · dsimp only
        split
        · rw [List.append_nil, htake]
          exact ⟨rfl, rfl⟩
        · obtain ⟨h1, h2⟩ := ih (w.wrote p (taken start p k)) (writeAt f (start.toNat + w.n) (p.take (taken start p k)))
          have hn : (w.wrote p (taken start p k)).n = w.n + taken start p k := rfl
          rw [h1, h2, List.length_append, htake, hn]
          refine ⟨?_, by omega⟩
          rw [← writeAt_writeAt, htake, Nat.add_assoc]

/-- Nothing is written if nothing is read. -/
theorem copyLoop_nil {start : Int} {failed : Bool} {ps : List (Bytes × Nat)} (h : (ps.map (·.1)).flatten = [])
    (w : CheckWriter δ) (f : Bytes) :
    copyLoop sum start failed ps w f = (w.n, f, if failed then some .read else none) := by
  induction ps with
  | nil => rfl
  | cons e ps ih =>
    obtain ⟨p, k⟩ := e
    rw [List.map_cons, List.flatten_cons, List.append_eq_nil_iff] at h
    unfold copyLoop
    rw [if_pos h.1]
    exact ih h.2

/-- No more than the size is written. -/
theorem accepted_length (start : Int) (ps : List (Bytes × Nat)) (w : CheckWriter δ) :
    accepted sum start ps w = [] ∨ (w.n + (accepted sum start ps w).length : Int) ≤ w.size := by
  induction ps generalizing w with
  | nil => exact .inl rfl
  | cons e ps ih =>
    obtain ⟨p, k⟩ := e
    unfold accepted
    split
    · exact ih w
    · have hle := taken_le start p k
      have htake : (p.take (taken start p k)).length = taken start p k := by
        rw [List.length_take]
        omega
      split
      · exact .inl rfl
      · rename_i hok
        obtain ⟨-, hsize, -⟩ := CheckWriter.verify_ok hok
        right
        rw [List.length_append, htake]
        split
        · rw [List.length_nil]
          omega
        · have hn : (w.wrote p (taken start p k)).n = w.n + taken start p k := rfl
          have hs : (w.wrote p (taken start p k)).size = w.size := rfl
          rcases ih (w.wrote p (taken start p k)) with hnil | hmore
          · rw [hnil, List.length_nil]
            omega
          · rw [hn, hs] at hmore
            omega

/-- A copy without an error writes all that the reader gives. The last write of a full copy is verified. -/
theorem copyLoop_ok {start : Int} {failed : Bool} {ps : List (Bytes × Nat)} {w : CheckWriter δ} {f : Bytes}
    (h : (copyLoop sum start failed ps w f).2.2 = none) :
    failed = false ∧ accepted sum start ps w = (ps.map (·.1)).flatten ∧
      ((ps.map (·.1)).flatten ≠ [] → (w.n + ((ps.map (·.1)).flatten).length : Int) ≤ w.size ∧
        ((w.n + ((ps.map (·.1)).flatten).length : Int) = w.size → sum (w.h ++ (ps.map (·.1)).flatten) = w.d)) := by
  induction ps generalizing w f with
  | nil =>
    unfold copyLoop at h
    refine ⟨?_, rfl, fun hne => absurd rfl hne⟩
    cases failed with
    | false => rfl
    | true => cases h
  | cons e ps ih =>
    obtain ⟨p, k⟩ := e
    unfold copyLoop at h
    unfold accepted
    rw [List.map_cons, List.flatten_cons]
    by_cases hp : p = []
    · rw [if_pos hp] at h ⊢
      rw [hp, List.nil_append]
      exact ih h
    · rw [if_neg hp] at h ⊢
      cases hv : w.verify sum p with
      | error e =>
        rw [hv] at h
        cases h
      | ok u =>
        rw [hv] at h
        dsimp only at h ⊢
        by_cases hk : taken start p k < p.length
        · rw [if_pos hk] at h
          cases h
        · rw [if_neg hk] at h ⊢
          have hle := taken_le start p k
          obtain ⟨-, hsize, hsum⟩ := CheckWriter.verify_ok hv
          obtain ⟨hfailed, hacc, hmore⟩ := ih h
          have hn : (w.wrote p (taken start p k)).n = w.n + taken start p k := rfl
          have hh : (w.wrote p (taken start p k)).h = w.h ++ p := rfl
          refine ⟨hfailed, ?_, fun _ => ?_⟩
          · rw [hacc, List.take_of_length_le (by omega)]
          · by_cases hnil : (ps.map (·.1)).flatten = []
            · rw [hnil, List.append_nil]
              exact ⟨hsize, hsum⟩
            · obtain ⟨h1, h2⟩ := hmore hnil
              rw [hn, hh, List.append_assoc] at h2
              rw [hn] at h1
              have hs : (w.wrote p (taken start p k)).size = w.size := rfl
              have hd : (w.wrote p (taken start p k)).d = w.d := rfl
              rw [hs] at h1 h2
              rw [hd] at h2
              rw [List.length_append]
              exact ⟨by omega, fun heq => h2 (by omega)⟩

/-- In a copy without an error the file takes every piece. -/
theorem copyLoop_taken {start : Int} {failed : Bool} {ps : List (Bytes × Nat)} {w : CheckWriter δ} {f : Bytes}
    (h : (copyLoop sum start failed ps w f).2.2 = none) : ∀ e ∈ ps, e.1 ≠ [] → 0 ≤ start ∧ e.1.length ≤ e.2 := by
  induction ps generalizing w f with
  | nil => simp
  | cons e ps ih =>
    obtain ⟨p, k⟩ := e
    unfold copyLoop at h
    rw [List.forall_mem_cons]
    by_cases hp : p = []
    · rw [if_pos hp] at h
      exact ⟨fun hne => absurd hp hne, ih h⟩
    · rw [if_neg hp] at h
      cases hv : w.verify sum p with
      | error e =>
        rw [hv] at h
        cases h
      | ok u =>
        rw [hv] at h
        dsimp only at h
        by_cases hk : taken start p k < p.length
        · rw [if_pos hk] at h
          cases h
        · rw [if_neg hk] at h
          refine ⟨fun _ => ?_, ih h⟩
          have hpos := List.length_pos_iff.mpr hp
          unfold taken at hk
          split at hk
          · omega
          · exact ⟨by omega, by dsimp only; omega⟩

/-- All that is read is written, if it is not too long, its hash is right and the file takes it. -/
theorem copyLoop_total {start : Int} (hstart : 0 ≤ start) {ps : List (Bytes × Nat)} {w : CheckWriter δ} {f : Bytes}
    (herr : w.err = none) (htaken : ∀ e ∈ ps, e.1.length ≤ e.2)
    (hsize : (w.n + ((ps.map (·.1)).flatten).length : Int) ≤ w.size)
    (hsum : (w.n + ((ps.map (·.1)).flatten).length : Int) = w.size → sum (w.h ++ (ps.map (·.1)).flatten) = w.d) :
    (copyLoop sum start false ps w f).2.2 = none := by
  induction ps generalizing w f with
  | nil => rfl
  | cons e ps ih =>
    obtain ⟨p, k⟩ := e
    simp only [List.map_cons, List.flatten_cons] at hsize hsum
    have hrest := fun e he => htaken e (List.mem_cons_of_mem _ he)
    unfold copyLoop
    by_cases hp : p = []
    · rw [if_pos hp]
      rw [hp, List.nil_append] at hsize hsum
      exact ih herr hrest hsize hsum
    · have hk : taken start p k = p.length := by
        have : p.length ≤ k := htaken (p, k) (List.mem_cons_self ..)
        unfold taken
        rw [if_neg (by omega), Nat.min_eq_right this]
      rw [List.length_append] at hsize hsum
      have hv : w.verify sum p = .ok () := by
        unfold CheckWriter.verify
        rw [herr]
        dsimp only
        rw [if_neg, if_neg (by omega)]
        rintro ⟨heq, hne⟩
        -- nothing comes after a piece that fills the file
        have hnil : (ps.map (·.1)).flatten = [] := List.eq_nil_of_length_eq_zero (by omega)
        refine hne ?_
        have := hsum (by omega)
        rwa [hnil, List.append_nil] at this
      rw [if_neg hp, hv]
      dsimp only
      rw [hk, if_neg (Nat.lt_irrefl _)]
      have hn : (w.wrote p p.length).n = w.n + p.length := rfl
      refine ih ?_ hrest ?_ fun heq => ?_
      · simp [CheckWriter.wrote]
      · rw [hn]
        exact (by omega : ((w.n + p.length : Nat) + ((ps.map (·.1)).flatten).length : Int) ≤ w.size)
      · rw [hn] at heq
        have := hsum (by have hs : (w.wrote p p.length).size = w.size := rfl; omega)
        rw [← List.append_assoc] at this
        exact this

/-! ## The steps of a call -/

/-- Where a call stands after the copy. -/
def phaseAfter (size : Int) : Nat × Bytes × Option Error → Phase
  | (_, _, some e) => .failing e
  | (n, _, none) => if (n : Int) < size then .failing .unexpectedEOF else .closing

theorem copyLoop_exec (failed : Bool) (ps : List (Bytes × Nat)) (w : CheckWriter δ) (files : δ → Option Bytes) (f : Bytes)
    (returned : Option (δ × Option Error)) : ∃ es w', w'.d = w.d ∧
    exec (DiskCache.step · sum) ⟨Function.update files w.d (some f), [⟨w, .copying⟩], returned⟩ es =
      some ⟨Function.update files w.d (some (copyLoop sum 0 failed ps w f).2.1),
        [⟨w', phaseAfter w.size (copyLoop sum 0 failed ps w f)⟩], none⟩ := by
  induction ps generalizing w f returned with
  | nil =>
    cases failed with
    | true => exact ⟨[.readErr 0], w, rfl, rfl⟩
    | false => exact ⟨[.eof 0], w, rfl, by simp [exec, DiskCache.step, DiskCache.eof, copyLoop, phaseAfter]⟩
  | cons e ps ih =>
    obtain ⟨p, k⟩ := e
    unfold copyLoop
    by_cases hp : p = []
    · rw [if_pos hp]
      exact ih w f returned
    · rw [if_neg hp]
      have hle := taken_le 0 p k
      have hstep : (DiskCache.mk (Function.update files w.d (some f)) [⟨w, .copying⟩] returned).step sum
          (.write 0 p (taken 0 p k)) = some (DiskCache.write ⟨Function.update files w.d (some f), [⟨w, .copying⟩], returned⟩
            sum 0 ⟨w, .copying⟩ p (taken 0 p k)) := by
        simp [DiskCache.step, hle]
      cases hv : w.verify sum p with
      | error e =>
        refine ⟨[.write 0 p (taken 0 p k)], w, rfl, ?_⟩
        simp only [exec, hstep, DiskCache.write, hv]
        rfl
      | ok u =>
        have hwrite : DiskCache.write ⟨Function.update files w.d (some f), [⟨w, .copying⟩], returned⟩ sum 0
            ⟨w, .copying⟩ p (taken 0 p k) = ⟨Function.update files w.d
              (some (writeAt f w.n (p.take (taken 0 p k)))), [⟨w.wrote p (taken 0 p k),
                if taken 0 p k < p.length then .failing .write else .copying⟩], none⟩ := by
          simp only [DiskCache.write, hv, Function.update_self, Option.map_some, Function.update_idem]
          rfl
        dsimp only
        rw [Int.toNat_zero, Nat.zero_add]
        by_cases hk : taken 0 p k < p.length
        · refine ⟨[.write 0 p (taken 0 p k)], w.wrote p (taken 0 p k), rfl, ?_⟩
          simp only [exec, hstep, hwrite, if_pos hk]
          rfl
        · rw [if_neg hk]
          rw [if_neg hk] at hwrite
          obtain ⟨es, w', hd, hes⟩ := ih (w.wrote p (taken 0 p k)) (writeAt f w.n (p.take (taken 0 p k))) none
          refine ⟨.write 0 p (taken 0 p k) :: es, w', hd, ?_⟩
          rw [exec, hstep, hwrite]
          exact hes

/-- A call without another one between its steps is a run of the disk cache. -/
theorem copyNamedFile_exec (files : δ → Option Bytes) (r : Reader) (d : δ) (size : Int) (o : CopyFaults) :
    ∃ es, exec (DiskCache.step · sum) ⟨files, [], none⟩ es =
      some ⟨Function.update files d (copyNamedFile sum (files d) r d size o).1, [],
        some (d, (copyNamedFile sum (files d) r d size o).2)⟩ := by
  unfold copyNamedFile
  by_cases hstat : (files d).map (fun f => (f.length : Int)) = some size
  · refine ⟨[.put d size false], ?_⟩
    rw [if_pos hstat]
    simp [exec, DiskCache.step, DiskCache.put, hstat]
  rw [if_neg hstat]
  by_cases hopen : o.openErr = true
  · refine ⟨[.put d size true], ?_⟩
    rw [if_pos hopen]
    simp [exec, DiskCache.step, DiskCache.put, hstat]
  rw [if_neg hopen]
  by_cases hsize : size = 0
  · refine ⟨[.put d size false], ?_⟩
    rw [if_pos hsize]
    simp only [exec, DiskCache.step, DiskCache.put, if_neg hstat, if_pos hsize]
    rfl
  rw [if_neg hsize]
  obtain ⟨es, w', hd, hes⟩ := @copyLoop_exec _ _ sum r.failed r.pieces ⟨size, d, [], 0, none⟩ files
    (DiskCache.opened size (files d)) none
  have hput : (DiskCache.mk files [] none).step sum (.put d size false) = some
      ⟨Function.update files d (some (DiskCache.opened size (files d))), [⟨⟨size, d, [], 0, none⟩, .copying⟩], none⟩ := by
    simp only [DiskCache.step, DiskCache.put, if_neg hstat, if_neg hsize]
    rfl
  -- the end of the call
  have hend : ∀ e s', DiskCache.step ⟨Function.update files d (some (copyLoop sum 0 r.failed r.pieces
      ⟨size, d, [], 0, none⟩ (DiskCache.opened size (files d))).2.1), [⟨w', phaseAfter size (copyLoop sum 0 r.failed r.pieces
        ⟨size, d, [], 0, none⟩ (DiskCache.opened size (files d)))⟩], none⟩ sum e = some s' →
      exec (DiskCache.step · sum) ⟨files, [], none⟩ (.put d size false :: (es ++ [e])) = some s' := by
    intro e s' hs
    rw [exec, hput]
    exact exec_append hes (by rw [exec, hs]; rfl)
  generalize copyLoop sum 0 r.failed r.pieces ⟨size, d, [], 0, none⟩ (DiskCache.opened size (files d)) = res at hend
  obtain ⟨n, f, err⟩ := res
  replace hd : w'.d = d := hd
  cases err with
  | some e =>
    refine ⟨_, hend (.truncate 0 o.truncated) _ ?_⟩
    cases o.truncated <;> simp [DiskCache.step, DiskCache.truncate, phaseAfter, hd]
  | none =>
    dsimp only
    by_cases hn : (n : Int) < size
    · rw [if_pos hn]
      refine ⟨_, hend (.truncate 0 o.truncated) _ ?_⟩
      cases o.truncated <;> simp [DiskCache.step, DiskCache.truncate, phaseAfter, hn, hd]
    · rw [if_neg hn]
      refine ⟨_, hend (.close 0 o.closeErr o.removed) _ ?_⟩
      cases o.closeErr <;> cases o.removed <;> simp [DiskCache.step, DiskCache.close, phaseAfter, hn, hd]

end

end Xdragon.Blob
