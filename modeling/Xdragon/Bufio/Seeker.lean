import Mathlib.Data.List.TakeDrop
import Xdragon.Lib.File

/-!
# Reading ahead of a seeker

`BufferedSeeker` of `fs/util/bufioutil/buffer_seeker.go`, with the parts of `bufio.Reader` that it uses.
-/

namespace Xdragon.Bufio

open Xdragon.Lib (Bytes)

inductive ReadError
  | eof
  | failed (text : String)

/-- An `io.ReadSeeker` over a file, which refuses to go to some positions. -/
structure Source where
  content : Bytes
  allowed : Int → Bool
  pos : Nat := 0

/-- What a source makes of one read: how many bytes more than one it has at most, whether it says with the last of them
that the file ends, or how many it has before it fails. -/
inductive Answer
  | bytes (more : Nat)
  | last (more : Nat)
  | fail (n : Nat) (text : String)

/-- The 64 bits of an offset. -/
def wrap (offset : Int) : Int := offset.bmod 18446744073709551616

def seekStart : Int := 0
def seekCurrent : Int := 1
def seekEnd : Int := 2

namespace Source

/-- `Read` of as many bytes as there is room for. -/
def read (s : Source) (len : Nat) : Answer → Bytes × Option ReadError × Source
  | .bytes more =>
    let given := (s.content.drop s.pos).take (min len (more + 1))
    (given, if given = [] ∧ 0 < len then some .eof else none, { s with pos := s.pos + given.length })
  | .last more =>
    let given := (s.content.drop s.pos).take (min len (more + 1))
    (given, if s.content.length ≤ s.pos + given.length then some .eof else none, { s with pos := s.pos + given.length })
  | .fail n text =>
    let given := (s.content.drop s.pos).take (min len n)
    (given, some (.failed text), { s with pos := s.pos + given.length })

/-- `Seek`, and none for an error. -/
def seek (s : Source) (offset whence : Int) : Option (Nat × Source) :=
  let base : Option Int :=
    if whence = seekStart then some 0
    else if whence = seekCurrent then some s.pos
    else if whence = seekEnd then some s.content.length
    else none
  base.bind fun base =>
    let abs := wrap (base + offset)
    if abs < 0 ∨ s.allowed abs = false then none else some (abs.toNat, { s with pos := abs.toNat })

end Source

/-- A `bufio.Reader` on a source: the bytes that it has read ahead, and the error that came with them. -/
structure BufferedSeeker where
  rs : Source
  size : Nat
  ahead : Bytes := []
  err : Option ReadError := none

def minReadBufferSize : Nat := 16

def newBufferedSeeker (rs : Source) (size : Nat) : BufferedSeeker where
  rs := rs
  size := max size minReadBufferSize

namespace BufferedSeeker

/-- How many bytes are read ahead. -/
def buffered (b : BufferedSeeker) : Nat := b.ahead.length

def read (b : BufferedSeeker) (len : Nat) (a : Answer) : Bytes × Option ReadError × BufferedSeeker :=
  if len = 0 then
    if 0 < b.buffered then ([], none, b) else ([], b.err, { b with err := none })
  else if b.ahead ≠ [] then (b.ahead.take len, none, { b with ahead := b.ahead.drop len })
  else if b.err ≠ none then ([], b.err, { b with err := none })
  else if b.size ≤ len then
    -- a large read goes past the buffer
    let (given, err, rs) := b.rs.read len a
    (given, err, { b with rs })
  else
    let (given, err, rs) := b.rs.read b.size a
    if given = [] then ([], err, { b with rs })
    else (given.take len, none, { b with rs, ahead := given.drop len, err })

/-- `Seek`, and none for an error. -/
def seek (b : BufferedSeeker) (offset whence : Int) : Option (Nat × BufferedSeeker) :=
  let offset := if whence = seekCurrent then wrap (offset - b.buffered) else offset
  (b.rs.seek offset whence).map fun (n, rs) => (n, { b with rs, ahead := [], err := none })

/-- Where the next byte comes from. -/
def position (b : BufferedSeeker) : Nat := b.rs.pos - b.buffered

end BufferedSeeker

/-! ## Calls -/

inductive Call
  | read (len : Nat)
  | seek (offset whence : Int)

inductive Reply
  | read (given : Bytes) (err : Option ReadError)
  | seek (n : Option Nat)

def Source.call (s : Source) (c : Call) (a : Answer) : Reply × Source :=
  match c with
  | .read len =>
    let (given, err, s') := s.read len a
    (.read given err, s')
  | .seek offset whence =>
    match s.seek offset whence with
    | some (n, s') => (.seek (some n), s')
    | none => (.seek none, s)

def BufferedSeeker.call (b : BufferedSeeker) (c : Call) (a : Answer) : Reply × BufferedSeeker :=
  match c with
  | .read len =>
    let (given, err, b') := b.read len a
    (.read given err, b')
  | .seek offset whence =>
    match b.seek offset whence with
    | some (n, b') => (.seek (some n), b')
    | none => (.seek none, b)

/-- The replies to calls one after another, and the state after them. -/
def replies {σ : Type} (call : σ → Call → Answer → Reply × σ) : σ → List (Call × Answer) → List Reply × σ
  | s, [] => ([], s)
  | s, (c, a) :: cs =>
    let (reply, s') := call s c a
    let (rest, last) := replies call s' cs
    (reply :: rest, last)

/-! ## What a source can give -/

/-- The bytes stand in the file from the position on. -/
def Source.Holds (s : Source) (given : Bytes) : Prop := given <+: s.content.drop s.pos

/-- The error may come with the bytes. -/
def Source.Ends (s : Source) (given : Bytes) : Option ReadError → Prop
  | some .eof => s.content.length ≤ s.pos + given.length
  | _ => True

/-- A read that a source may answer like this. -/
structure Source.Gives (s : Source) (len : Nat) (given : Bytes) (err : Option ReadError) : Prop where
  holds : s.Holds given
  length_le : given.length ≤ len
  ends : s.Ends given err
  progress : 0 < len → given = [] → err ≠ none

namespace Source

variable {s : Source} {len : Nat} {given : Bytes} {err : Option ReadError}

theorem length_given_le (n : Nat) : ((s.content.drop s.pos).take (min len n)).length ≤ len :=
  Nat.le_trans (List.length_take_le _ _) (Nat.min_le_left _ _)

theorem length_le_of_take {m : Nat} (hm : 0 < m) (h : (s.content.drop s.pos).take m = []) : s.content.length ≤ s.pos := by
  rcases List.take_eq_nil_iff.mp h with hzero | hdrop
  · omega
  · exact List.drop_eq_nil_iff.mp hdrop

theorem read_gives (s : Source) (len : Nat) (a : Answer) : ∃ given err,
    s.read len a = (given, err, { s with pos := s.pos + given.length }) ∧ s.Gives len given err := by
  cases a with
  | bytes more =>
    refine ⟨_, _, rfl, List.take_prefix _ _, length_given_le _, ?_, fun hlen hnil => ?_⟩
    · split_ifs with h
      · rw [Ends, h.1]
        exact length_le_of_take (by omega) h.1
      · trivial
    · rw [if_pos ⟨hnil, hlen⟩]
      simp
  | last more =>
    refine ⟨_, _, rfl, List.take_prefix _ _, length_given_le _, ?_, fun hlen hnil => ?_⟩
    · split_ifs with h
      · exact h
      · trivial
    · rw [if_pos (Nat.le_trans (length_le_of_take (by omega) hnil) (Nat.le_add_right _ _))]
      simp
  | fail n text =>
    exact ⟨_, _, rfl, List.take_prefix _ _, length_given_le _, trivial, by simp⟩

theorem Gives.exists_answer (h : s.Gives len given err) :
    ∃ a, s.read len a = (given, err, { s with pos := s.pos + given.length }) := by
  obtain ⟨hholds, hle, hends, hprogress⟩ := h
  have htake : ∀ n, min len n = given.length → (s.content.drop s.pos).take (min len n) = given := by
    intro n hn
    rw [hn]
    exact (List.prefix_iff_eq_take.mp hholds).symm
  rcases err with _ | (_ | text)
  · refine ⟨.bytes (given.length - 1), ?_⟩
    by_cases hlen : len = 0
    · have hnil : given = [] := List.length_eq_zero_iff.mp (by omega)
      simp [read, hnil, hlen]
    · have hne : given ≠ [] := fun hnil => hprogress (by omega) hnil rfl
      have hpos := List.length_pos_iff.mpr hne
      rw [read, htake _ (by omega)]
      simp [hne]
  · refine ⟨.last (given.length - 1), ?_⟩
    have hgiven : (s.content.drop s.pos).take (min len (given.length - 1 + 1)) = given := by
      by_cases hnil : given = []
      · have hle : s.content.length ≤ s.pos := by
          rw [hnil] at hends
          exact hends
        rw [hnil, List.drop_eq_nil_of_le hle, List.take_nil]
      · have hpos := List.length_pos_iff.mpr hnil
        exact htake _ (by omega)
    rw [read, hgiven]
    simp only [Ends] at hends
    simp [hends]
  · refine ⟨.fail given.length text, ?_⟩
    rw [read, htake _ (by omega)]

theorem gives_take (h : s.Holds given) (hne : given ≠ []) : s.Gives len (given.take len) none where
  holds := (List.take_prefix _ _).trans h
  length_le := List.length_take_le _ _
  ends := trivial
  progress hlen hnil := absurd ((List.take_eq_nil_iff.mp hnil).resolve_left (by omega)) hne

/-- Behind the first of the bytes, the source stands before the others. -/
theorem Holds.drop (h : s.Holds given) : Holds { s with pos := s.pos + (given.take len).length } (given.drop len) := by
  obtain ⟨after, hafter⟩ := h
  have hsplit : given ++ after = given.take len ++ (given.drop len ++ after) := by
    rw [← List.append_assoc, List.take_append_drop]
  refine ⟨after, ?_⟩
  rw [← List.drop_drop, ← hafter, hsplit, List.drop_left]

end Source

/-! ## The seeker and its source -/

/-- The source alone is where the seeker is, and the seeker has read ahead what comes next. -/
structure Mirrors (b : BufferedSeeker) (s : Source) : Prop where
  content : b.rs.content = s.content
  allowed : b.rs.allowed = s.allowed
  pos : b.rs.pos = s.pos + b.ahead.length
  ahead : s.Holds b.ahead
  ends : b.err = some .eof → s.content.length ≤ b.rs.pos
  size : 0 < b.size

theorem mirrors_new (s : Source) (size : Nat) : Mirrors (newBufferedSeeker s size) s where
  content := rfl
  allowed := rfl
  pos := rfl
  ahead := List.nil_prefix
  ends := by simp [newBufferedSeeker]
  size := Nat.lt_of_lt_of_le (by decide) (Nat.le_max_right size minReadBufferSize)

namespace Mirrors

variable {b : BufferedSeeker} {s : Source}

theorem position (h : Mirrors b s) : b.position = s.pos := by
  rw [BufferedSeeker.position, h.pos, BufferedSeeker.buffered, Nat.add_sub_cancel]

/-- With nothing read ahead, the source of the seeker is the source alone. -/
theorem source (h : Mirrors b s) (hnil : b.ahead = []) : b.rs = s := by
  have hpos := h.pos
  rw [hnil] at hpos
  have hcontent := h.content
  have hallowed := h.allowed
  generalize b.rs = rs at hpos hcontent hallowed
  cases rs
  cases s
  simp_all

theorem ends_nil (h : Mirrors b s) (hnil : b.ahead = []) : s.Ends [] b.err := by
  unfold Source.Ends
  split
  · rename_i heof
    have hends := h.ends heof
    rwa [h.source hnil] at hends
  · trivial

/-- The error that came with the last bytes is given by itself. -/
theorem clear (h : Mirrors b s) : Mirrors { b with err := none } s where
  content := h.content
  allowed := h.allowed
  pos := h.pos
  ahead := h.ahead
  ends := by simp
  size := h.size

theorem read (h : Mirrors b s) (len : Nat) (a : Answer) : ∃ given err b', b.read len a = (given, err, b') ∧
    s.Gives len given err ∧ Mirrors b' { s with pos := s.pos + given.length } := by
  unfold BufferedSeeker.read
  split_ifs with hlen hbuffered hahead herr hlarge
  · exact ⟨_, _, _, rfl, ⟨List.nil_prefix, Nat.zero_le _, trivial, fun hpos => absurd hlen (by omega)⟩, h⟩
  · have hnil := List.length_eq_zero_iff.mp (Nat.eq_zero_of_not_pos hbuffered)
    exact ⟨_, _, _, rfl, ⟨List.nil_prefix, Nat.zero_le _, h.ends_nil hnil, fun hpos => absurd hlen (by omega)⟩,
      h.clear⟩
  · refine ⟨_, _, _, rfl, Source.gives_take h.ahead hahead, h.content, h.allowed, ?_, h.ahead.drop, h.ends, h.size⟩
    have hsplit := congrArg List.length (List.take_append_drop len b.ahead)
    rw [List.length_append] at hsplit
    have hpos := h.pos
    dsimp only
    omega
  · have hnil := not_not.mp hahead
    exact ⟨_, _, _, rfl, ⟨List.nil_prefix, Nat.zero_le _, h.ends_nil hnil, fun _ _ => herr⟩, h.clear⟩
  · have hnil := not_not.mp hahead
    obtain ⟨given, err, hread, hgives⟩ := s.read_gives len a
    rw [h.source hnil, hread]
    refine ⟨_, _, _, rfl, hgives, rfl, rfl, ?_, ?_, ?_, h.size⟩
    · simp [hnil]
    · simp [hnil, Source.Holds]
    · simp [not_not.mp herr]
  · have hnil := not_not.mp hahead
    obtain ⟨given, err, hread, hgives⟩ := s.read_gives b.size a
    rw [h.source hnil, hread]
    dsimp only
    split_ifs with hempty
    · subst hempty
      refine ⟨_, _, _, rfl, ⟨List.nil_prefix, Nat.zero_le _, hgives.ends, fun _ hne => hgives.progress h.size hne⟩, rfl,
        rfl, ?_, ?_, ?_, h.size⟩
      · simp [hnil]
      · simp [hnil, Source.Holds]
      · simp [not_not.mp herr]
    · refine ⟨_, _, _, rfl, Source.gives_take hgives.holds hempty, rfl, rfl, ?_, hgives.holds.drop, ?_, h.size⟩
      · have hsplit := congrArg List.length (List.take_append_drop len given)
        rw [List.length_append] at hsplit
        dsimp only
        omega
      · rintro rfl
        exact hgives.ends

theorem seek (h : Mirrors b s) (offset whence : Int) :
    (b.seek offset whence = none ∧ s.seek offset whence = none) ∨
      ∃ n b' s', b.seek offset whence = some (n, b') ∧ s.seek offset whence = some (n, s') ∧ Mirrors b' s' := by
  have hsame : b.rs.seek (if whence = seekCurrent then wrap (offset - b.buffered) else offset) whence =
      s.seek offset whence := by
    unfold Source.seek
    rw [h.content, h.allowed]
    by_cases hcurrent : whence = seekCurrent
    · have hpos := h.pos
      have hwrap : wrap (b.rs.pos + wrap (offset - b.buffered)) = wrap (s.pos + offset) := by
        rw [wrap, wrap, wrap, Int.add_bmod_bmod, BufferedSeeker.buffered]
        congr 1
        omega
      simp [hcurrent, seekStart, seekCurrent, hwrap]
    · simp [hcurrent]
  unfold BufferedSeeker.seek
  dsimp only
  rw [hsame]
  cases hseek : s.seek offset whence with
  | none => exact .inl ⟨rfl, rfl⟩
  | some q => exact .inr ⟨q.1, _, q.2, rfl, rfl, rfl, rfl, rfl, List.nil_prefix, by simp, h.size⟩

/-- Each call is one that the source alone may answer in the same way. -/
theorem call (h : Mirrors b s) (c : Call) (a : Answer) :
    ∃ a', (s.call c a').1 = (b.call c a).1 ∧ Mirrors (b.call c a).2 (s.call c a').2 := by
  cases c with
  | read len =>
    obtain ⟨given, err, b', hread, hgives, hb'⟩ := h.read len a
    obtain ⟨a', ha'⟩ := hgives.exists_answer
    refine ⟨a', ?_⟩
    rw [BufferedSeeker.call, Source.call, hread, ha']
    exact ⟨rfl, hb'⟩
  | seek offset whence =>
    refine ⟨a, ?_⟩
    rw [BufferedSeeker.call, Source.call]
    rcases h.seek offset whence with ⟨hb, hs⟩ | ⟨n, b', s', hb, hs, hb'⟩
    · rw [hb, hs]
      exact ⟨rfl, h⟩
    · rw [hb, hs]
      exact ⟨rfl, hb'⟩

theorem replies (h : Mirrors b s) (cs : List (Call × Answer)) : ∃ alone : List (Call × Answer),
    alone.map Prod.fst = cs.map Prod.fst ∧
    (Bufio.replies Source.call s alone).1 = (Bufio.replies BufferedSeeker.call b cs).1 ∧
    Mirrors (Bufio.replies BufferedSeeker.call b cs).2 (Bufio.replies Source.call s alone).2 := by
  induction cs generalizing b s with
  | nil => exact ⟨[], rfl, rfl, h⟩
  | cons c cs ih =>
    obtain ⟨a, hreply, hnext⟩ := h.call c.1 c.2
    obtain ⟨alone, hcalls, hreplies, hlast⟩ := ih hnext
    refine ⟨(c.1, a) :: alone, ?_, ?_, hlast⟩
    · rw [List.map_cons, List.map_cons, hcalls]
    · exact congrArg₂ List.cons hreply hreplies

end Mirrors

end Xdragon.Bufio
