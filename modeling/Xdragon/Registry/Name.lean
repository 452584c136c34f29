import Xdragon.Names.RoundTrip

/-!
# The names of the registry client

The package `names` of the registry client has its own parser. It cuts a text from the right at the last slash or colon,
until it finds the model.
-/

namespace Xdragon.Registry

open Xdragon.Lib (Bytes ascii runes slash)
open Xdragon.Names (PartKind isAlphanumericOrUnderscore isValidByte colon)

def maxNameLength : Nat := 350 + 1 + 80 + 1 + 80 + 1 + 80

structure Name where
  h : Bytes := []
  n : Bytes := []
  m : Bytes := []
  t : Bytes := []

/-- The text before the last of the characters, the text after it, and the character. -/
def cutLastAny (s chars : Bytes) : Bytes × Bytes × UInt8 :=
  match s.reverse.dropWhile (· ∉ chars) with
  | [] => ([], s, 0)
  | c :: before => (before.reverse, (s.reverse.takeWhile (· ∉ chars)).reverse, c)

theorem cutLastAny_length {s chars before after : Bytes} {c : UInt8} (h : cutLastAny s chars = (before, after, c))
    (hc : c ≠ 0) : before.length < s.length := by
  unfold cutLastAny at h
  split at h
  · simp only [Prod.mk.injEq] at h
    exact absurd h.2.2.symm hc
  · rename_i c before' hcut
    simp only [Prod.mk.injEq] at h
    have hle := (List.dropWhile_suffix (l := s.reverse) (· ∉ chars)).length_le
    rw [hcut, List.length_cons, List.length_reverse] at hle
    rw [← h.1, List.length_reverse]
    omega

/-- The loop of `Parse`. -/
def parseLoop (s : Bytes) (n : Name) : Name :=
  match _hcut : cutLastAny s (ascii "/:") with
  | (before, tail, c) =>
    if _hc : c = colon then parseLoop before { n with t := tail }
    else if c = slash then
      let (h, ns, _) := cutLastAny before (ascii "/")
      { n with h, n := ns, m := tail }
    else { n with m := tail }
termination_by s.length
decreasing_by exact cutLastAny_length _hcut (by rw [_hc]; decide)

def parse (s : Bytes) : Name := if s.length > maxNameLength then {} else parseLoop s {}

/-- There is no least length. -/
def isValidPart (kind : PartKind) (s : Bytes) : Bool :=
  s.length ≤ (if kind = .kindHost then 350 else 80) &&
    match (runes s).map fun r => r.bytes.headD 0 with
    | [] => true
    | c :: cs => isAlphanumericOrUnderscore c && cs.all (isValidByte kind)

namespace Name

variable (n : Name)

def isValid : Bool :=
  if n.h ≠ [] && !isValidPart .kindHost n.h then false
  else if n.n ≠ [] && !isValidPart .kindNamespace n.n then false
  else if n.t ≠ [] && !isValidPart .kindTag n.t then false
  else n.m ≠ [] && isValidPart .kindModel n.m

def isFullyQualified : Bool := n.isValid && n.h ≠ [] && n.n ≠ [] && n.m ≠ [] && n.t ≠ []

end Name

/-! ## Cuts -/

theorem cutLastAny_append {chars : Bytes} (before : Bytes) {c : UInt8} {after : Bytes} (hc : c ∈ chars)
    (hafter : ∀ x ∈ after, x ∉ chars) : cutLastAny (before ++ c :: after) chars = (before, after, c) := by
  have hrest : ∀ x ∈ after.reverse, decide (x ∉ chars) = true := fun x hx =>
    decide_eq_true (hafter x (List.mem_reverse.mp hx))
  have hdrop : (c :: before.reverse).dropWhile (· ∉ chars) = c :: before.reverse := by simp [hc]
  have htake : (c :: before.reverse).takeWhile (· ∉ chars) = [] := by simp [hc]
  have hrev : (before ++ c :: after).reverse = after.reverse ++ c :: before.reverse := by simp
  unfold cutLastAny
  rw [hrev, List.dropWhile_append_of_pos hrest, hdrop]
  dsimp only
  rw [List.takeWhile_append_of_pos hrest, htake]
  simp

theorem cutLastAny_none {s chars : Bytes} (h : ∀ x ∈ s, x ∉ chars) : cutLastAny s chars = ([], s, 0) := by
  have hnil : s.reverse.dropWhile (· ∉ chars) = [] :=
    List.dropWhile_eq_nil_iff.mpr fun x hx => decide_eq_true (h x (List.mem_reverse.mp hx))
  unfold cutLastAny
  rw [hnil]

/-- The last of the characters, if there is one. -/
theorem last_cases (s chars : Bytes) : (∀ x ∈ s, x ∉ chars) ∨
    ∃ before c after, s = before ++ c :: after ∧ c ∈ chars ∧ ∀ x ∈ after, x ∉ chars := by
  induction s using List.reverseRecOn with
  | nil => simp
  | append_singleton s x ih =>
    by_cases hx : x ∈ chars
    · exact .inr ⟨s, x, [], rfl, hx, by simp⟩
    · rcases ih with hnone | ⟨before, c, after, rfl, hc, hafter⟩
      · left
        simpa [or_imp, forall_and] using ⟨hnone, hx⟩
      · refine .inr ⟨before, c, after ++ [x], by simp, hc, ?_⟩
        simpa [or_imp, forall_and] using ⟨hafter, hx⟩

/-! ## The loop -/

section
variable {before after : Bytes} (hafter : ∀ x ∈ after, x ∉ ascii "/:") (n : Name)
include hafter

theorem parseLoop_none : parseLoop after n = { n with m := after } := by
  rw [parseLoop, cutLastAny_none hafter]
  rfl

theorem parseLoop_colon : parseLoop (before ++ colon :: after) n = parseLoop before { n with t := after } := by
  rw [parseLoop, cutLastAny_append before (by decide) hafter]
  rfl

theorem parseLoop_slash : parseLoop (before ++ slash :: after) n =
    { n with h := (cutLastAny before (ascii "/")).1, n := (cutLastAny before (ascii "/")).2.1, m := after } := by
  rw [parseLoop, cutLastAny_append before (by decide) hafter]
  rfl

end

/-- The loop overwrites the tag, or keeps it. -/
theorem parseLoop_tag (s : Bytes) : (∀ t t', parseLoop s { t := t } = parseLoop s { t := t' }) ∨
    ∀ t, (parseLoop s { t := t }).t = t := by
  rcases last_cases s (ascii "/:") with hnone | ⟨before, c, after, rfl, hc, hafter⟩
  · right
    intro t
    rw [parseLoop_none hnone]
  · obtain rfl | rfl : c = slash ∨ c = colon := by simpa [ascii, slash, colon] using hc
    · right
      intro t
      rw [parseLoop_slash hafter]
    · left
      intro t t'
      rw [parseLoop_colon hafter, parseLoop_colon hafter]

/-! ## Valid parts -/

theorem validPart {kind : PartKind} {s : Bytes} (h : isValidPart kind s = true) (hne : s ≠ []) :
    Names.ValidPart kind s := by
  apply Names.validPart_of
  have hpos := List.length_pos_iff.mpr hne
  unfold isValidPart at h
  unfold Names.isValidPart
  rw [Bool.and_eq_true] at h ⊢
  refine ⟨?_, h.2⟩
  cases kind <;> simpa [Names.isValidLen, Nat.succ_le_iff, hpos] using h.1

/-- An `@` stands in no part. -/
theorem at_not_mem {kind : PartKind} {s : Bytes} (h : Names.ValidPart kind s) : (0x40 : UInt8) ∉ s := by
  intro hmem
  obtain hc | hc := h.bytes _ hmem
  · revert hc
    decide
  · revert hc
    cases kind <;> decide

namespace Name

/-- The parts of a fully qualified name. -/
structure Full (n : Name) : Prop where
  host : Names.ValidPart .kindHost n.h
  nameSpace : Names.ValidPart .kindNamespace n.n
  model : Names.ValidPart .kindModel n.m
  tag : Names.ValidPart .kindTag n.t

theorem full {n : Name} (h : n.isFullyQualified = true) : n.Full := by
  unfold isFullyQualified isValid at h
  simp only [Bool.and_eq_true, decide_eq_true_eq, ne_eq] at h
  obtain ⟨⟨⟨⟨hvalid, hh⟩, hn⟩, hm⟩, ht⟩ := h
  split_ifs at hvalid with h1 h2 h3
  exact ⟨validPart (by simpa [hh] using h1) hh, validPart (by simpa [hn] using h2) hn,
    validPart (by simpa [hm] using hvalid) hm, validPart (by simpa [ht] using h3) ht⟩

end Name

/-! ## Whole names -/

def written (n : Name) : Bytes := n.h ++ slash :: (n.n ++ slash :: (n.m ++ colon :: n.t))

theorem parse_written {n : Name} (h : n.Full) (hlen : (written n).length ≤ maxNameLength) : parse (written n) = n := by
  have hfree : ∀ {kind s}, Names.ValidPart kind s → kind ≠ .kindHost → kind ≠ .kindDigest → ∀ x ∈ s, x ∉ ascii "/:" := by
    intro kind s hs hhost hdigest x hx
    have h1 : x ≠ slash := fun heq => hs.slash_not_mem (heq ▸ hx)
    have h2 : x ≠ colon := fun heq => hs.colon_not_mem hhost hdigest (heq ▸ hx)
    simpa [ascii, slash, colon] using And.intro h1 h2
  have hhost : ∀ x ∈ n.n, x ∉ ascii "/" := fun x hx hmem => by
    obtain rfl : x = slash := by simpa [ascii, slash] using hmem
    exact h.nameSpace.slash_not_mem hx
  have hwritten : written n = (n.h ++ slash :: (n.n ++ slash :: n.m)) ++ colon :: n.t := by simp [written]
  have hfirst : n.h ++ slash :: (n.n ++ slash :: n.m) = (n.h ++ slash :: n.n) ++ slash :: n.m := by simp
  unfold parse
  rw [if_neg (by omega), hwritten, parseLoop_colon (hfree h.tag (by decide) (by decide)), hfirst,
    parseLoop_slash (hfree h.model (by decide) (by decide)), cutLastAny_append n.h (by decide) hhost]

/-- A name with an `@` at its end is the name without it. -/
theorem parse_at {s : Bytes} (h : (parse (s ++ ascii "@")).isFullyQualified = true) :
    parse s = parse (s ++ ascii "@") := by
  have hfull := Name.full h
  have hat : ∀ {kind a}, ¬ Names.ValidPart kind (a ++ ascii "@") := fun hv =>
    at_not_mem hv (List.mem_append_right _ (by decide))
  have hafter' : ∀ {after}, (∀ x ∈ after, x ∉ ascii "/:") → ∀ x ∈ after ++ ascii "@", x ∉ ascii "/:" := by
    intro after hafter x hx
    rcases List.mem_append.mp hx with hx | hx
    · exact hafter x hx
    · obtain rfl : x = 0x40 := by simpa [ascii] using hx
      decide
  unfold parse at hfull ⊢
  split_ifs at hfull with hlong
  · exact absurd rfl hfull.host.ne_nil
  rw [List.length_append] at hlong
  rw [if_neg (by omega), if_neg (by rw [List.length_append]; omega)]
  rcases last_cases s (ascii "/:") with hnone | ⟨before, c, after, rfl, hc, hafter⟩
  · rw [parseLoop_none (hafter' hnone)] at hfull
    exact absurd hfull.model hat
  · rw [List.append_assoc, List.cons_append] at hfull ⊢
    obtain rfl | rfl : c = slash ∨ c = colon := by simpa [ascii, slash, colon] using hc
    · rw [parseLoop_slash (hafter' hafter)] at hfull
      exact absurd hfull.model hat
    · rw [parseLoop_colon (hafter' hafter)] at hfull ⊢
      rw [parseLoop_colon hafter]
      rcases parseLoop_tag before with hover | hkeep
      · exact hover _ _
      · have htag := hfull.tag
        rw [hkeep] at htag
        exact absurd htag hat

end Xdragon.Registry
