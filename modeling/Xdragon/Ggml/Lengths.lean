import Xdragon.Ggml.Decoded

/-!
# The lengths that a file declares

`Decode` trusts the lengths in a file. A scan of the file gives those that it comes to, without the values between them.
`Decode` panics at the first one that is not fine, and if all of them are, only for an alignment of 0.
-/

namespace Xdragon.Ggml

open Xdragon.Lib Xdragon.Gguf

/-! ## Scans -/

/-- A length in the file. -/
inductive Declared where
  /-- Of a string of version 1, with its null. -/
  | terminated (n : Int)
  | string (n : Int)
  /-- Of an array whose elements take `width` bytes in memory. -/
  | array (width : Nat) (n : Int)
  | shape (dims : Nat)

/-- A slice of this size can be made. -/
def Fits (limit : Option Nat) (size : Nat) : Prop := ∀ m ∈ limit, size ≤ m

def Declared.Fine (limit : Option Nat) : Declared → Prop
  | terminated n => 0 < n
  | string n => 0 ≤ n ∧ (16 <<< 10 < n → Fits limit n.toNat)
  | array width n => 0 ≤ n ∧ Fits limit (width * n.toNat)
  | shape dims => Fits limit (8 * dims)

instance (limit : Option Nat) (size : Nat) : Decidable (Fits limit size) := inferInstanceAs (Decidable (∀ _, _))

instance (limit : Option Nat) (l : Declared) : Decidable (l.Fine limit) :=
  match l with
  | .terminated _ => inferInstanceAs (Decidable (_ < _))
  | .string _ => inferInstanceAs (Decidable (_ ∧ (_ → _)))
  | .array _ _ => inferInstanceAs (Decidable (_ ∧ _))
  | .shape _ => inferInstanceAs (Decidable (Fits _ _))

/-- The lengths that were found, and what stands behind them, if the scan does not stop. -/
def Scan (α : Type) := Bytes → List Declared × Option (α × Bytes)

namespace Scan

variable {α β : Type}

instance : Monad Scan where
  pure a := fun input => ([], some (a, input))
  bind q h := fun input => match q input with
    | (ls, none) => (ls, none)
    | (ls, some (a, rest)) => (ls ++ (h a rest).1, (h a rest).2)

def stop : Scan α := fun _ => ([], none)

/-- A scan goes on behind a length that is fine. -/
def declare (limit : Option Nat) (l : Declared) : Scan Unit := fun input =>
  ([l], if l.Fine limit then some ((), input) else none)

def bytes (n : Nat) : Scan Bytes := fun input =>
  ([], if n ≤ input.length then some (input.take n, input.drop n) else none)

def number (order : ByteOrder) (width : Nat) : Scan Nat := do
  let bs ← bytes width
  return order.number bs

def skip (n : Nat) : Scan Unit := do
  let _ ← bytes n

def times (q : Scan α) : Nat → Scan (List α)
  | 0 => pure []
  | n + 1 => do
    let a ← q
    let as ← times q n
    return a :: as

end Scan

section
variable (c : ContainerGGUF)

def scanString : Scan Bytes := do
  let n ← Scan.number c.byteOrder 8
  if c.version = 1 then
    Scan.declare c.maxAlloc (.terminated (toInt64 n))
    let b ← Scan.bytes (toInt64 n).toNat
    return b.dropLast
  else
    Scan.declare c.maxAlloc (.string (toInt64 n))
    Scan.bytes (toInt64 n).toNat

/-- A string of an array that is not kept may be cut short by the end of the file. -/
def scanDiscarded : Scan Unit := fun input =>
  ([], some ((), (input.drop 8).drop (toInt64 (c.byteOrder.number (input.take 8))).toNat))

def scanNewArray (width : Nat) (n : Int) : Scan Unit :=
  if keepsArray c n then Scan.declare c.maxAlloc (.array width n) else pure ()

def scanArrayData (t : ScalarType) (size : Nat) : Scan Unit := do
  let _ ← (Scan.skip t.size).times size

def scanStrings (size : Nat) : Scan Unit :=
  if keepsArray c size then do
    let _ ← (scanString c).times size
  else do
    let _ ← (scanDiscarded c).times size

/-- An array is no `uint32`. -/
def scanArray : Scan (Option UInt32) := do
  let t ← Scan.number c.byteOrder 4
  let n ← Scan.number c.byteOrder 8
  match ggufType t with
  | some t =>
    scanNewArray c t.size (toInt64 n)
    scanArrayData t (toInt64 n).toNat
    return none
  | none =>
    if t = ggufTypeString then
      scanNewArray c 16 (toInt64 n)
      scanStrings c (toInt64 n).toNat
      return none
    else Scan.stop

/-- The key, and the value if it is a `uint32`. -/
def scanKeyValue : Scan (Bytes × Option UInt32) := do
  let k ← scanString c
  let t ← Scan.number c.byteOrder 4
  match ggufType t with
  | some t =>
    let n ← Scan.number c.byteOrder t.size
    return (k, if t = .uint32 then some (UInt32.ofNat n) else none)
  | none =>
    if t = ggufTypeString then
      let _ ← scanString c
      return (k, none)
    else if t = ggufTypeArray then
      let v ← scanArray c
      return (k, v)
    else Scan.stop

def scanTensor : Scan Unit := do
  let _ ← scanString c
  let dims ← Scan.number c.byteOrder 4
  Scan.declare c.maxAlloc (.shape dims)
  let _ ← (Scan.skip 8).times dims
  Scan.skip 4
  Scan.skip 8

/-- The alignment of some key-values. The last one of a key counts. -/
def alignmentOf (kvs : List (Bytes × Option UInt32)) : UInt32 :=
  kvs.foldl (fun a e => if e.1 = ascii "general.alignment" then e.2.getD 32 else a) 32

def scanContents : Scan UInt32 := do
  let kvs ← (scanKeyValue c).times c.numKV
  let _ ← (scanTensor c).times c.numTensor
  return alignmentOf kvs

end

def scanContainer (maxAlloc : Option Nat) (byteOrder : ByteOrder) (maxArraySize : Int) : Scan ContainerGGUF := do
  let version ← Scan.number byteOrder 4
  let width := if version = 1 then 4 else 8
  let counts ← Scan.bytes (width + width)
  return {
    byteOrder := byteOrder
    version := version
    numTensor := byteOrder.number (counts.take width)
    numKV := byteOrder.number (counts.drop width)
    maxArraySize := maxArraySize
    maxAlloc := maxAlloc }

/-- The lengths of a file, and its alignment. -/
def scanFile (maxAlloc : Option Nat) (maxArraySize : Int) : Scan UInt32 := do
  let magic ← Scan.number .little 4
  if magic = FILE_MAGIC_GGUF_LE then
    let c ← scanContainer maxAlloc .little maxArraySize
    scanContents c
  else if magic = FILE_MAGIC_GGUF_BE then
    let c ← scanContainer maxAlloc .big maxArraySize
    scanContents c
  else Scan.stop

/-- All lengths that decoding comes to are fine, and the alignment is not 0. -/
def Harmless (maxAlloc : Option Nat) (file : Bytes) (maxArraySize : Int) : Prop :=
  (∀ l ∈ (scanFile maxAlloc maxArraySize file).1, l.Fine maxAlloc) ∧
    ∀ e ∈ (scanFile maxAlloc maxArraySize file).2, e.1 ≠ 0

/-! ## Readers and scans -/

section
variable {α β α' β' ε : Type} (limit : Option Nat)

/-- The reader panics where the scan finds a length that is not fine, and else both stop or go on together. -/
def Follows (p : Reader ε α) (q : Scan β) (f : α → β) : Prop := ∀ input, match p input with
  | none => ∃ l ∈ (q input).1, ¬ l.Fine limit
  | some (.error _, _) => (∀ l ∈ (q input).1, l.Fine limit) ∧ (q input).2 = none
  | some (.ok a, rest) => (∀ l ∈ (q input).1, l.Fine limit) ∧ (q input).2 = some (f a, rest)

variable {limit}

namespace Follows

theorem pure (a : α) (f : α → β) : Follows limit (Pure.pure a : Reader ε α) (Pure.pure (f a)) f :=
  fun _ => ⟨nofun, rfl⟩

theorem fail (e : ε) (f : α → β) : Follows limit (Reader.fail e : Reader ε α) Scan.stop f :=
  fun _ => ⟨nofun, rfl⟩

theorem bytes (short : Bytes → ε) (n : Nat) : Follows limit (Reader.bytes short n) (Scan.bytes n) id := by
  intro input
  unfold Reader.bytes Scan.bytes
  by_cases hn : n ≤ input.length
  · rw [if_pos hn, if_pos hn]
    exact ⟨nofun, rfl⟩
  · rw [if_neg hn, if_neg hn]
    exact ⟨nofun, rfl⟩

theorem bind_of {p : Reader ε α} {q : Scan β} {f : α → β} {g : α → Reader ε α'} {h : β → Scan β'} {f' : α' → β'}
    (hp : Follows limit p q f)
    (hg : ∀ a, (∃ input rest, p input = some (.ok a, rest)) → Follows limit (g a) (h (f a)) f') :
    Follows limit (p >>= g) (q >>= h) f' := by
  intro input
  have hscan : (q >>= h) input = match q input with
    | (ls, none) => (ls, none)
    | (ls, some (a, rest)) => (ls ++ (h a rest).1, (h a rest).2) := rfl
  have hfirst := hp input
  rw [hscan]
  generalize q input = res at hfirst
  obtain ⟨ls, out⟩ := res
  cases hpi : p input with
  | none =>
    rw [hpi] at hfirst
    rw [Reader.bind_none hpi]
    obtain ⟨l, hl, hbad⟩ := hfirst
    cases out with
    | none => exact ⟨l, hl, hbad⟩
    | some e => exact ⟨l, List.mem_append_left _ hl, hbad⟩
  | some e =>
    obtain ⟨r, rest⟩ := e
    rw [hpi] at hfirst
    cases r with
    | error e =>
      obtain ⟨hfine, hout⟩ := hfirst
      dsimp only at hout
      rw [Reader.bind_error hpi]
      subst hout
      exact ⟨hfine, rfl⟩
    | ok a =>
      obtain ⟨hfine, hout⟩ := hfirst
      dsimp only at hout
      rw [Reader.bind_ok hpi]
      subst hout
      dsimp only
      have hrest := hg a ⟨input, rest, hpi⟩ rest
      cases hga : g a rest with
      | none =>
        rw [hga] at hrest
        obtain ⟨l, hl, hbad⟩ := hrest
        exact ⟨l, List.mem_append_right _ hl, hbad⟩
      | some e' =>
        obtain ⟨r', rest'⟩ := e'
        rw [hga] at hrest
        have happend : ∀ l ∈ ls ++ (h (f a) rest).1, l.Fine limit := by
          cases r' <;> exact fun l hl => (List.mem_append.mp hl).elim (hfine l) (hrest.1 l)
        cases r' <;> exact ⟨happend, hrest.2⟩

theorem bind {p : Reader ε α} {q : Scan β} {f : α → β} {g : α → Reader ε α'} {h : β → Scan β'} {f' : α' → β'}
    (hp : Follows limit p q f) (hg : ∀ a, Follows limit (g a) (h (f a)) f') :
    Follows limit (p >>= g) (q >>= h) f' := hp.bind_of fun a _ => hg a

/-- The last step gives the result. -/
theorem bind_pure {p : Reader ε α} {q : Scan β} {f : α → β} (hp : Follows limit p q f) {g : α → α'} {h : β → β'}
    {f' : α' → β'} (heq : ∀ a, f' (g a) = h (f a)) :
    Follows limit (p >>= fun a => Pure.pure (g a)) (q >>= fun b => Pure.pure (h b)) f' := by
  refine hp.bind fun a => ?_
  rw [← heq a]
  exact pure _ _

/-- What the reader makes of its result is nothing to the scan. -/
theorem map {p : Reader ε α} {q : Scan β} {f : α → β} (hp : Follows limit p q f) (g : α → α') {f' : α' → β}
    (heq : ∀ a, f' (g a) = f a) : Follows limit (p >>= fun a => Pure.pure (g a)) q f' := by
  intro input
  have hfirst := hp input
  cases hpi : p input with
  | none =>
    rw [hpi] at hfirst
    rw [Reader.bind_none hpi]
    exact hfirst
  | some e =>
    obtain ⟨r, rest⟩ := e
    rw [hpi] at hfirst
    cases r with
    | error e =>
      rw [Reader.bind_error hpi]
      exact hfirst
    | ok a =>
      rw [Reader.bind_ok hpi]
      exact ⟨hfirst.1, by rw [heq]; exact hfirst.2⟩

theorem number (short : Bytes → ε) (order : ByteOrder) (width : Nat) :
    Follows limit (Reader.number short order width) (Scan.number order width) id :=
  (bytes short width).bind_pure fun _ => rfl

theorem wrap {p : Reader ε α} {q : Scan β} {f : α → β} (hp : Follows limit p q f) (g : ε → ε) :
    Follows limit (p.wrap g) q f := by
  intro input
  have hfirst := hp input
  unfold Reader.wrap
  cases hpi : p input with
  | none =>
    rw [hpi] at hfirst
    exact hfirst
  | some e =>
    obtain ⟨r, rest⟩ := e
    rw [hpi] at hfirst
    cases r <;> exact hfirst

theorem times {p : Reader ε α} {q : Scan β} {f : α → β} (hp : Follows limit p q f) (n : Nat) :
    Follows limit (p.times n) (q.times n) (List.map f) := by
  induction n with
  | zero => exact pure [] (List.map f)
  | succ n ih => exact hp.bind fun a => ih.bind_pure fun _ => rfl

theorem declare {l : Declared} {p : Reader ε Unit} (hfine : l.Fine limit → p = Pure.pure ())
    (hbad : ¬ l.Fine limit → p = .crash) : Follows limit p (Scan.declare limit l) id := by
  intro input
  unfold Scan.declare
  by_cases hl : l.Fine limit
  · rw [hfine hl, if_pos hl]
    exact ⟨fun l' hl' => by rwa [List.mem_singleton.mp hl'], rfl⟩
  · rw [hbad hl, if_neg hl]
    exact ⟨l, List.mem_singleton_self l, hl⟩

end Follows

end

/-! ## The fields -/

section
variable (c : ContainerGGUF)

theorem follows_make {width : Nat} {n : Int} {l : Declared}
    (hl : l.Fine c.maxAlloc ↔ 0 ≤ n ∧ Fits c.maxAlloc (width * n.toNat)) :
    Follows c.maxAlloc (make c width n) (Scan.declare c.maxAlloc l) id := by
  have hmake : (n < 0 ∨ c.maxAlloc.any (· < width * n.toNat) = true) ↔ ¬ l.Fine c.maxAlloc := by
    rw [hl]
    unfold Fits
    cases c.maxAlloc with
    | none => simp
    | some m =>
      simp only [Option.any_some, decide_eq_true_eq, Option.mem_some_iff, forall_eq']
      omega
  unfold make
  exact Follows.declare (fun hfine => if_neg fun h => hmake.mp h hfine) fun hbad => if_pos (hmake.mpr hbad)

theorem follows_newArray (width : Nat) (n : Int) :
    Follows c.maxAlloc (newArray c width n) (scanNewArray c width n) id := by
  unfold newArray scanNewArray
  split
  · exact follows_make c Iff.rfl
  · exact Follows.pure () id

theorem follows_number (width : Nat) : Follows c.maxAlloc (readNumber c width) (Scan.number c.byteOrder width) id :=
  Follows.number _ _ _

theorem follows_GGUF (t : ScalarType) : Follows c.maxAlloc (readGGUF c t) (Scan.skip t.size) fun _ => () := by
  have hnumber : Follows c.maxAlloc (readNumber c t.size) (Scan.skip t.size) fun _ => () :=
    (Follows.bytes _ _).bind_pure fun _ => rfl
  exact hnumber.map t.ofNumber fun _ => rfl

/-- A string of version 1 is empty only if its length is not positive. -/
theorem terminated_eq (n : Int) :
    (Reader.bytes (fun _ => DecodeError.eof) n.toNat >>= fun b => if b = [] then .crash else pure b.dropLast) =
      (if 0 < n then pure () else .crash) >>= fun _ =>
        Reader.bytes (fun _ => DecodeError.eof) n.toNat >>= fun b => pure b.dropLast := by
  funext input
  by_cases hn : 0 < n
  · rw [if_pos hn, Reader.bind_ok (show (pure () : Reader DecodeError Unit) input = some (.ok (), input) from rfl)]
    by_cases hlen : n.toNat ≤ input.length
    · have hne : input.take n.toNat ≠ [] := List.ne_nil_of_length_pos (by rw [List.length_take]; omega)
      rw [Reader.bind_ok (Reader.bytes_ok hlen), Reader.bind_ok (Reader.bytes_ok hlen), if_neg hne]
    · rw [Reader.bind_error (Reader.bytes_error hlen), Reader.bind_error (Reader.bytes_error hlen)]
  · have hzero : n.toNat = 0 := by omega
    rw [if_neg hn, hzero, Reader.bind_ok (Reader.bytes_ok (Nat.zero_le _)), if_pos (List.take_zero ..)]
    rfl

theorem follows_string : Follows c.maxAlloc (readGGUFString c) (scanString c) id := by
  unfold readGGUFString scanString
  by_cases hversion : c.version = 1
  · rw [if_pos hversion]
    unfold readGGUFV1String
    refine (follows_number c 8).bind fun n => ?_
    dsimp only [id]
    rw [if_pos hversion, terminated_eq]
    refine Follows.bind (Follows.declare (fun hfine => if_pos hfine) fun hbad => if_neg hbad) fun _ => ?_
    exact (Follows.bytes _ _).bind_pure fun _ => rfl
  · rw [if_neg hversion]
    refine (follows_number c 8).bind fun n => ?_
    dsimp only [id]
    rw [if_neg hversion]
    refine Follows.bind (f := id) ?_ fun _ => Follows.bytes _ _
    unfold stringBuffer
    split
    · rename_i hlarge
      refine follows_make c ?_
      have hfits : (1 * (toInt64 n).toNat) = (toInt64 n).toNat := Nat.one_mul _
      rw [hfits]
      exact ⟨fun h => ⟨h.1, h.2 hlarge⟩, fun h => ⟨h.1, fun _ => h.2⟩⟩
    · rename_i hsmall
      refine Follows.declare (fun hfine => if_neg ?_) fun hbad => if_pos ?_
      · have := hfine.1
        omega
      · apply Classical.byContradiction
        intro hneg
        exact hbad ⟨by omega, fun h => absurd h hsmall⟩

/-- What is skipped for a string. At the end of the file there may be less of it. -/
theorem ignore_discarded (input : Bytes) : Reader.ignore (discardGGUFString c) input = some (.ok (),
    (input.drop 8).drop (toInt64 (c.byteOrder.number (input.take 8))).toNat) := by
  unfold Reader.ignore discardGGUFString
  by_cases hlen : 8 ≤ input.length
  · have hnumber : readNumber c 8 input = some (.ok (c.byteOrder.number (input.take 8)), input.drop 8) :=
      Reader.bind_ok (Reader.bytes_ok hlen)
    rw [Reader.bind_ok hnumber]
    by_cases hrest : (toInt64 (c.byteOrder.number (input.take 8))).toNat ≤ (input.drop 8).length
    · rw [Reader.bind_ok (Reader.bytes_ok hrest)]
      rfl
    · rw [Reader.bind_error (Reader.bytes_error hrest), List.drop_eq_nil_of_le (by omega)]
      rfl
  · have hnumber : readNumber c 8 input = some (.error (shortError input), []) :=
      Reader.bind_error (Reader.bytes_error hlen)
    have hnil : input.drop 8 = [] := List.drop_eq_nil_of_le (by omega)
    rw [Reader.bind_error hnumber, hnil, List.drop_nil]
    rfl

theorem follows_discarded : Follows c.maxAlloc (Reader.ignore (discardGGUFString c)) (scanDiscarded c) id := by
  intro input
  rw [ignore_discarded]
  exact ⟨nofun, rfl⟩

theorem follows_stringsData (size : Nat) :
    Follows c.maxAlloc (readGGUFStringsData c size) (scanStrings c size) fun _ => () := by
  unfold readGGUFStringsData scanStrings
  split
  · exact ((follows_string c).times size).bind_pure fun _ => rfl
  · exact ((follows_discarded c).times size).bind_pure fun _ => rfl

/-- The value, if it is a `uint32`. -/
def uint32Of : Value → Option UInt32
  | .datum (.scalar .uint32 v) => some v
  | _ => none

theorem follows_array : Follows c.maxAlloc (readGGUFArray c) (scanArray c) uint32Of := by
  unfold readGGUFArray scanArray
  refine (follows_number c 4).bind fun t => (follows_number c 8).bind fun n => ?_
  dsimp only [id]
  cases ggufType t with
  | some t =>
    refine (follows_newArray c t.size (toInt64 n)).bind fun _ => ?_
    have hdata : Follows c.maxAlloc (readGGUFArrayData c t (toInt64 n).toNat) (scanArrayData t (toInt64 n).toNat)
        fun _ => () := ((follows_GGUF c t).times _).bind_pure fun _ => rfl
    exact hdata.bind_pure fun _ => rfl
  | none =>
    dsimp only
    split
    · refine (follows_newArray c 16 (toInt64 n)).bind fun _ => ?_
      exact (follows_stringsData c _).bind_pure fun _ => rfl
    · exact Follows.fail _ _

theorem follows_keyValue : Follows c.maxAlloc (readKeyValue c) (scanKeyValue c) fun e => (e.1, uint32Of e.2) := by
  unfold readKeyValue scanKeyValue
  refine (follows_string c).bind fun k => (follows_number c 4).bind fun t => ?_
  dsimp only [id]
  cases ggufType t with
  | some t =>
    refine Follows.map (f := fun v => (k, uint32Of (.datum (.scalar t v)))) ?_ _ fun _ => rfl
    refine (follows_number c t.size).bind_pure fun n => ?_
    cases t <;> rfl
  | none =>
    dsimp only
    split
    · exact (follows_string c).bind_pure fun _ => rfl
    · split
      · exact (follows_array c).bind_pure fun _ => rfl
      · exact Follows.fail _ _

theorem follows_tensor : Follows c.maxAlloc (readTensor c) (scanTensor c) fun _ => () := by
  unfold readTensor scanTensor
  refine ((follows_string c).wrap _).bind fun name => ((follows_number c 4).wrap _).bind fun dims => ?_
  refine (follows_make c (by simp [Declared.Fine])).bind fun _ => ?_
  refine (((follows_GGUF c .uint64).wrap _).times _).bind fun shape => ?_
  refine ((follows_GGUF c .uint32).wrap _).bind fun kind => ?_
  exact ((follows_GGUF c .uint64).wrap _).map _ fun _ => rfl

omit c in
theorem uint_alignment_of (kv : KV) : KV.uint kv (ascii "general.alignment") 32 =
    ((kv.lookup (ascii "general.alignment")).bind uint32Of).getD 32 := by
  rw [uint_alignment]
  cases kv.lookup (ascii "general.alignment") with
  | none => rfl
  | some v =>
    cases v with
    | datum d =>
      cases d with
      | scalar t v => cases t <;> rfl
      | string _ => rfl
      | array _ _ => rfl
      | strings _ => rfl
    | fileType _ => rfl
    | array _ _ => rfl
    | stringArray _ => rfl

omit c in
/-- The alignment after some key-values. -/
theorem uint_foldl (kvs : List (Bytes × Value)) (kv : KV) :
    KV.uint (kvs.foldl (fun kv e => kv.insert e.1 e.2) kv) (ascii "general.alignment") 32 =
      (kvs.map fun e => (e.1, uint32Of e.2)).foldl
        (fun a e => if e.1 = ascii "general.alignment" then e.2.getD 32 else a)
        (KV.uint kv (ascii "general.alignment") 32) := by
  induction kvs generalizing kv with
  | nil => rfl
  | cons e kvs ih =>
    rw [List.foldl_cons, List.map_cons, List.foldl_cons, ih]
    congr 1
    rw [uint_alignment_of, uint_alignment_of]
    by_cases he : e.1 = ascii "general.alignment"
    · rw [if_pos he, ← he, AList.lookup_insert]
      rfl
    · rw [if_neg he, AList.lookup_insert_ne (Ne.symm he)]

theorem follows_contents : Follows c.maxAlloc (readContents c) (scanContents c)
    fun e => KV.uint e.1 (ascii "general.alignment") 32 := by
  unfold readContents scanContents
  refine ((follows_keyValue c).times _).bind fun kvs => ((follows_tensor c).times _).bind_pure fun _ => ?_
  exact uint_foldl kvs ∅

end

theorem follows_container (maxAlloc : Option Nat) (byteOrder : ByteOrder) (maxArraySize : Int) :
    Follows maxAlloc (readContainer maxAlloc byteOrder maxArraySize) (scanContainer maxAlloc byteOrder maxArraySize) id :=
  (Follows.number _ _ _).bind fun _ => (Follows.bytes _ _).bind_pure fun _ => rfl

theorem container_maxAlloc {maxAlloc : Option Nat} {byteOrder : ByteOrder} {maxArraySize : Int} {c : ContainerGGUF}
    (h : ∃ input rest, readContainer maxAlloc byteOrder maxArraySize input = some (.ok c, rest)) :
    c.maxAlloc = maxAlloc := by
  obtain ⟨input, rest, h⟩ := h
  obtain ⟨version, mid, -, h⟩ := Reader.of_bind_ok h
  obtain ⟨counts, mid', -, h⟩ := Reader.of_bind_ok h
  cases h
  rfl

theorem follows_file (maxAlloc : Option Nat) (maxArraySize : Int) :
    Follows maxAlloc (readFile maxAlloc maxArraySize) (scanFile maxAlloc maxArraySize)
      fun e => KV.uint e.1 (ascii "general.alignment") 32 := by
  unfold readFile scanFile
  refine (Follows.number _ _ _).bind fun magic => ?_
  dsimp only [id]
  have hbody (byteOrder : ByteOrder) : Follows maxAlloc (readContainer maxAlloc byteOrder maxArraySize >>= readContents)
      (scanContainer maxAlloc byteOrder maxArraySize >>= scanContents)
      fun e => KV.uint e.1 (ascii "general.alignment") 32 := by
    refine (follows_container maxAlloc byteOrder maxArraySize).bind_of fun c hc => ?_
    have hlimit := container_maxAlloc hc
    subst hlimit
    exact follows_contents c
  split
  · exact hbody .little
  · split
    · exact hbody .big
    · exact Follows.fail _ _

/-! ## Decoding -/

theorem ggufPadding_none (offset align : Int) : ggufPadding offset align = none ↔ align = 0 := by
  unfold ggufPadding
  split <;> simp [*]

theorem skipTensors_some {alignment : Int} (h : alignment ≠ 0) (pos : Int) (ts : List TensorInfo) :
    skipTensors alignment pos ts ≠ none := by
  induction ts generalizing pos with
  | nil => nofun
  | cons t ts ih =>
    unfold skipTensors
    cases hpad : ggufPadding pos alignment with
    | none => exact absurd ((ggufPadding_none _ _).mp hpad) h
    | some padding =>
      dsimp only
      split
      · nofun
      · split
        · nofun
        · exact ih _

theorem finishDecode_none (kv : KV) (tensors : List TensorInfo) (offset : Int) :
    finishDecode kv tensors offset = none ↔ KV.uint kv (ascii "general.alignment") 32 = 0 := by
  unfold finishDecode
  dsimp only
  rw [uint_alignment_insert]
  generalize KV.uint kv (ascii "general.alignment") 32 = alignment
  by_cases halign : alignment = 0
  · subst halign
    exact iff_of_true rfl rfl
  · have hne : (alignment.toNat : Int) ≠ 0 := fun h => halign (UInt32.toNat_inj.mp (by simpa using h))
    refine iff_of_false (fun h => ?_) halign
    cases hpad : ggufPadding offset alignment.toNat with
    | none => exact hne ((ggufPadding_none _ _).mp hpad)
    | some padding =>
      rw [hpad] at h
      dsimp only at h
      cases hskip : skipTensors alignment.toNat offset tensors with
      | none => exact skipTensors_some hne _ _ hskip
      | some res =>
        rw [hskip] at h
        cases res <;> cases h

/-- `Decode` returns if and only if all lengths that it comes to are fine, and the alignment is not 0. -/
theorem decode_returns_iff (maxAlloc : Option Nat) (file : Bytes) (maxArraySize : Int) :
    decodeWithin maxAlloc file maxArraySize ≠ none ↔ Harmless maxAlloc file maxArraySize := by
  have hfile := follows_file maxAlloc maxArraySize file
  unfold Harmless decodeWithin
  cases hread : readFile maxAlloc maxArraySize file with
  | none =>
    rw [hread] at hfile
    obtain ⟨l, hl, hbad⟩ := hfile
    exact iff_of_false (fun h => h rfl) fun h => hbad (h.1 l hl)
  | some e =>
    obtain ⟨r, rest⟩ := e
    rw [hread] at hfile
    cases r with
    | error e =>
      obtain ⟨hfine, hout⟩ := hfile
      rw [hout]
      exact iff_of_true nofun ⟨hfine, nofun⟩
    | ok e =>
      obtain ⟨kv, tensors⟩ := e
      obtain ⟨hfine, hout⟩ := hfile
      rw [hout]
      dsimp only
      rw [ne_eq, finishDecode_none]
      exact ⟨fun h => ⟨hfine, fun e he => by rw [← Option.some.inj he]; exact h⟩, fun h => h.2 _ rfl⟩

/-- A key of length -1, a key without its null, and an alignment of 0. -/
theorem decode_panics :
    decodeWithin none ([0x47, 0x47, 0x55, 0x46, 3, 0, 0, 0] ++ toLittle 8 0 ++ toLittle 8 1 ++
      List.replicate 8 0xff) 0 = none ∧
    decodeWithin none ([0x47, 0x47, 0x55, 0x46, 1, 0, 0, 0] ++ toLittle 4 0 ++ toLittle 4 1 ++ toLittle 8 0) 0 = none ∧
    decodeWithin none ([0x47, 0x47, 0x55, 0x46, 3, 0, 0, 0] ++ toLittle 8 0 ++ toLittle 8 1 ++
      encodeKeyValue (ascii "general.alignment", .scalar .uint32 (0 : UInt32))) 0 = none := by
  decide

end Xdragon.Ggml
