import Mathlib.Tactic.Ring
import Xdragon.Lib.File

/-!
# Binary formats

Numbers as bytes, and readers that take bytes from the front of an input. A reader may fail and may crash. An
encoding is read back when the reader takes exactly its bytes, whatever follows them.
-/

namespace Xdragon.Lib

/-! ## Numbers -/

/-- The number with the lowest byte first. -/
def ofLittle : Bytes → Nat
  | [] => 0
  | b :: bs => b.toNat + 256 * ofLittle bs

/-- The lowest bytes of a number. -/
def toLittle : Nat → Nat → Bytes
  | 0, _ => []
  | width + 1, n => UInt8.ofNat n :: toLittle width (n / 256)

@[simp] theorem length_toLittle (width n : Nat) : (toLittle width n).length = width := by
  induction width generalizing n with
  | zero => rfl
  | succ width ih => simp [toLittle, ih]

theorem ofLittle_toLittle (width n : Nat) : ofLittle (toLittle width n) = n % 256 ^ width := by
  induction width generalizing n with
  | zero => simp [toLittle, ofLittle, Nat.mod_one]
  | succ width ih =>
    have hbyte : (UInt8.ofNat n).toNat = n % 256 := by simp
    rw [toLittle, ofLittle, ih, hbyte, pow_succ', Nat.mod_mul]

inductive ByteOrder where
  | little
  | big

def ByteOrder.number : ByteOrder → Bytes → Nat
  | .little, bs => ofLittle bs
  | .big, bs => ofLittle bs.reverse

/-- The bytes of an ASCII text. -/
def ascii (s : String) : Bytes := s.toList.map fun c => c.toNat.toUInt8

/-! ## Readers -/

/-- What is read, or why not, and what is left of the input. `none` is a crash. -/
def Reader (ε α : Type) : Type := Bytes → Option (Except ε α × Bytes)

namespace Reader

variable {ε α β : Type}

instance : Monad (Reader ε) where
  pure a := fun input => some (.ok a, input)
  bind p f := fun input => match p input with
    | none => none
    | some (.error e, rest) => some (.error e, rest)
    | some (.ok a, rest) => f a rest

def fail (e : ε) : Reader ε α := fun input => some (.error e, input)

def crash : Reader ε α := fun _ => none

/-- The next `n` bytes. A short input is used up. -/
def bytes (short : Bytes → ε) (n : Nat) : Reader ε Bytes := fun input =>
  if n ≤ input.length then some (.ok (input.take n), input.drop n) else some (.error (short input), [])

/-- A number of `width` bytes. -/
def number (short : Bytes → ε) (order : ByteOrder) (width : Nat) : Reader ε Nat := do
  let bs ← bytes short width
  return order.number bs

/-- The error of a reader, changed. -/
def wrap (f : ε → ε) (p : Reader ε α) : Reader ε α := fun input => match p input with
  | some (.error e, rest) => some (.error (f e), rest)
  | out => out

/-- Goes on after an error. -/
def ignore (p : Reader ε α) : Reader ε Unit := fun input => (p input).map fun out => (.ok (), out.2)

/-- Reads `n` times. -/
def times (p : Reader ε α) : Nat → Reader ε (List α)
  | 0 => pure []
  | n + 1 => do
    let a ← p
    let as ← times p n
    return a :: as

end Reader

section
variable {ε α β : Type} {p : Reader ε α} {f : α → Reader ε β} {input rest : Bytes}

theorem Reader.bind_ok {a : α} (h : p input = some (.ok a, rest)) : (p >>= f) input = f a rest := by
  simp only [Bind.bind, h]

theorem Reader.bind_error {e : ε} (h : p input = some (.error e, rest)) : (p >>= f) input = some (.error e, rest) := by
  simp only [Bind.bind, h]

theorem Reader.bind_none (h : p input = none) : (p >>= f) input = none := by
  simp only [Bind.bind, h]

theorem Reader.of_bind_ok {b : β} (h : (p >>= f) input = some (.ok b, rest)) :
    ∃ a mid, p input = some (.ok a, mid) ∧ f a mid = some (.ok b, rest) := by
  cases hp : p input with
  | none =>
    rw [bind_none hp] at h
    cases h
  | some e =>
    obtain ⟨r, mid⟩ := e
    cases r with
    | error e =>
      rw [bind_error hp] at h
      cases h
    | ok a =>
      rw [bind_ok hp] at h
      exact ⟨a, mid, rfl, h⟩

theorem Reader.bytes_ok {short : Bytes → ε} {n : Nat} (h : n ≤ input.length) :
    Reader.bytes short n input = some (.ok (input.take n), input.drop n) := if_pos h

theorem Reader.bytes_error {short : Bytes → ε} {n : Nat} (h : ¬ n ≤ input.length) :
    Reader.bytes short n input = some (.error (short input), []) := if_neg h

theorem Reader.bytes_iff {short : Bytes → ε} {n : Nat} {bs : Bytes} :
    Reader.bytes short n input = some (.ok bs, rest) ↔ n ≤ input.length ∧ input.take n = bs ∧ input.drop n = rest := by
  by_cases h : n ≤ input.length
  · rw [Reader.bytes_ok h]
    simp [h]
  · rw [Reader.bytes_error h]
    simp [h]

end

/-! ## Encodings that are read back -/

/-- The reader takes these bytes, and gives this. -/
def Reads {ε α : Type} (p : Reader ε α) (bs : Bytes) (a : α) : Prop := ∀ rest, p (bs ++ rest) = some (.ok a, rest)

namespace Reads

variable {ε α β : Type}

theorem pure (a : α) : Reads (Pure.pure a : Reader ε α) [] a := fun _ => rfl

theorem bind {p : Reader ε α} {f : α → Reader ε β} {bs cs : Bytes} {a : α} {b : β} (hp : Reads p bs a)
    (hf : Reads (f a) cs b) : Reads (p >>= f) (bs ++ cs) b := by
  intro rest
  have hbind : (p >>= f) (bs ++ (cs ++ rest)) = match p (bs ++ (cs ++ rest)) with
    | none => none
    | some (.error e, rest) => some (.error e, rest)
    | some (.ok a, rest) => f a rest := rfl
  rw [List.append_assoc, hbind, hp]
  exact hf rest

/-- The last step gives the result. -/
theorem bind_pure {p : Reader ε α} {f : α → β} {bs : Bytes} {a : α} (hp : Reads p bs a) :
    Reads (p >>= fun a => Pure.pure (f a)) bs (f a) := by
  have := hp.bind (f := fun a => Pure.pure (f a)) (pure (f a))
  rwa [List.append_nil] at this

theorem bytes (short : Bytes → ε) (bs : Bytes) : Reads (Reader.bytes short bs.length) bs bs := by
  intro rest
  unfold Reader.bytes
  rw [if_pos (by simp), List.take_left, List.drop_left]

theorem number (short : Bytes → ε) (width : Nat) {n : Nat} (hn : n < 256 ^ width) :
    Reads (Reader.number short .little width) (toLittle width n) n := by
  have hbytes := bytes short (toLittle width n)
  rw [length_toLittle] at hbytes
  have := hbytes.bind_pure (f := ByteOrder.number .little)
  rwa [ByteOrder.number, ofLittle_toLittle, Nat.mod_eq_of_lt hn] at this

theorem wrap {p : Reader ε α} {bs : Bytes} {a : α} (hp : Reads p bs a) (f : ε → ε) : Reads (Reader.wrap f p) bs a := by
  intro rest
  unfold Reader.wrap
  rw [hp]

theorem times_map {γ : Type} {p : Reader ε α} (enc : γ → Bytes) (f : γ → α) {cs : List γ}
    (hp : ∀ c ∈ cs, Reads p (enc c) (f c)) : Reads (p.times cs.length) (cs.flatMap enc) (cs.map f) := by
  induction cs with
  | nil => exact pure []
  | cons c cs ih =>
    rw [List.flatMap_cons]
    exact (hp c (by simp)).bind ((ih fun b hb => hp b (List.mem_cons_of_mem _ hb)).bind_pure (f := (f c :: ·)))

theorem times {p : Reader ε α} (enc : α → Bytes) {as : List α} (hp : ∀ a ∈ as, Reads p (enc a) a) :
    Reads (p.times as.length) (as.flatMap enc) as := by
  have := times_map enc id hp
  rwa [List.map_id] at this

end Reads

end Xdragon.Lib
