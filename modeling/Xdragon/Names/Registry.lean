import Xdragon.Names.RoundTrip

/-!
# Names of the registry client

`Parse` of `server/internal/internal/names/name.go`, the second parser of names. It takes a slash in front of a name as if it were
not there, and keeps the first of several tags.
-/

namespace Xdragon.Names.Registry

open Xdragon.Lib (Bytes ascii runes slash cutLast_singleton)

/-- `<host>/<namespace>/<model>:<tag>`. -/
def maxNameLength : Nat := 350 + 1 + 80 + 1 + 80 + 1 + 80

/-- `h`, `n`, `m` and `t` are host, namespace, model and tag. -/
structure Name where
  h : Bytes := []
  n : Bytes := []
  m : Bytes := []
  t : Bytes := []

inductive Part where
  | host
  | nameSpace
  | model
  | tag
  deriving DecidableEq

/-- The text before the last of some characters and the text behind it, and the character, which is 0 if there is none. -/
def cutLastAny (s chars : Bytes) : Bytes × Bytes × UInt8 :=
  match (s.rdropWhile (· ∉ chars)).getLast? with
  | some c => ((s.rdropWhile (· ∉ chars)).dropLast, s.rtakeWhile (· ∉ chars), c)
  | none => ([], s, 0)

theorem cutLastAny_length {s chars before tail : Bytes} {c : UInt8} (h : cutLastAny s chars = (before, tail, c)) (hc : c ≠ 0) :
    before.length < s.length := by
  unfold cutLastAny at h
  have hle : (s.rdropWhile (· ∉ chars)).length ≤ s.length := (List.rdropWhile_prefix (· ∉ chars) s).length_le
  split at h
  · rename_i heq
    obtain rfl := (Prod.mk.inj h).1
    have hpos := List.length_pos_of_mem (List.mem_of_getLast? heq)
    rw [List.length_dropLast]
    omega
  · exact absurd (Prod.mk.inj (Prod.mk.inj h).2).2.symm hc

/-- The loop that looks for the model. -/
def parseFrom (s : Bytes) (name : Name) : Name :=
  match _h : cutLastAny s (ascii "/:") with
  | (before, tail, c) =>
    if _hcolon : c = colon then parseFrom before { name with t := tail }
    else if c = slash then
      let (host, nameSpace, _) := cutLastAny before (ascii "/")
      { name with h := host, n := nameSpace, m := tail }
    else { name with m := tail }
termination_by s.length
decreasing_by exact cutLastAny_length _h (_hcolon ▸ by decide)

def parse (s : Bytes) : Name := if s.length > maxNameLength then {} else parseFrom s {}

/-- The check of a byte that is not the first one. -/
def isValidByte (kind : Part) (c : UInt8) : Bool :=
  if c = 0x5f ∨ c = 0x2d then true
  else if c = 0x2e then kind ≠ .nameSpace
  else if c = 0x3a then kind = .host
  else isAlphanumericOrUnderscore c

/-- The loop visits the first byte of each rune. -/
def isValidPart (kind : Part) (s : Bytes) : Bool :=
  if s.length > (if kind = .host then 350 else 80) then false
  else
    match (runes s).map fun r => r.bytes.headD 0 with
    | [] => true
    | c :: cs => isAlphanumericOrUnderscore c && cs.all (isValidByte kind)

namespace Name

variable (name : Name)

def isValid : Bool :=
  (name.h = [] || isValidPart .host name.h) && (name.n = [] || isValidPart .nameSpace name.n) &&
    (name.t = [] || isValidPart .tag name.t) && (name.m ≠ [] && isValidPart .model name.m)

def isFullyQualified : Bool := name.isValid && name.h ≠ [] && name.n ≠ [] && name.m ≠ [] && name.t ≠ []

def string : Bytes :=
  (if name.h ≠ [] then name.h ++ ascii "/" else []) ++ (if name.n ≠ [] then name.n ++ ascii "/" else []) ++
    name.m ++ if name.t ≠ [] then ascii ":" ++ name.t else []

end Name

/-! ## Valid parts -/

def Part.kind : Part → PartKind
  | .host => .kindHost
  | .nameSpace => .kindNamespace
  | .model => .kindModel
  | .tag => .kindTag

/-- Both packages check a part that is not empty in the same way. -/
theorem isValidPart_eq (kind : Part) {s : Bytes} (hs : s ≠ []) : isValidPart kind s = Names.isValidPart kind.kind s := by
  have hbyte : isValidByte kind = Names.isValidByte kind.kind := by
    funext c
    unfold isValidByte Names.isValidByte
    cases kind <;> rfl
  have hpos := List.length_pos_iff.mpr hs
  have hlen : Names.isValidLen kind.kind s = decide (s.length ≤ if kind = .host then 350 else 80) := by
    cases kind <;> simp [Part.kind, Names.isValidLen] <;> omega
  unfold isValidPart Names.isValidPart
  rw [hbyte, hlen]
  by_cases hle : s.length ≤ if kind = .host then 350 else 80
  · rw [if_neg (by omega), decide_eq_true hle]
    exact (Bool.true_and _).symm
  · rw [if_pos (by omega), decide_eq_false hle, Bool.false_and]

theorem validPart_of {kind : Part} {s : Bytes} (hs : s ≠ []) (h : isValidPart kind s = true) : ValidPart kind.kind s :=
  Names.validPart_of (isValidPart_eq kind hs ▸ h)

/-! ## Separators -/

theorem cutLastAny_some {chars a b : Bytes} {c : UInt8} (hc : c ∈ chars) (hb : ∀ x ∈ b, x ∉ chars) :
    cutLastAny (a ++ c :: b) chars = (a, b, c) := by
  have hnot : ∀ x ∈ b.reverse, decide (x ∉ chars) = true := fun x hx => decide_eq_true (hb x (List.mem_reverse.mp hx))
  have hrev : (a ++ c :: b).reverse = b.reverse ++ c :: a.reverse := by simp
  have hdrop : (a ++ c :: b).rdropWhile (· ∉ chars) = a ++ [c] := by
    rw [List.rdropWhile, hrev, List.dropWhile_append_of_pos hnot, List.dropWhile_cons_of_neg (by simpa using hc)]
    simp
  have htake : (a ++ c :: b).rtakeWhile (· ∉ chars) = b := by
    rw [List.rtakeWhile, hrev, List.takeWhile_append_of_pos hnot, List.takeWhile_cons_of_neg (by simpa using hc)]
    simp
  unfold cutLastAny
  rw [hdrop, htake]
  simp

theorem cutLastAny_none {chars s : Bytes} (hs : ∀ x ∈ s, x ∉ chars) : cutLastAny s chars = ([], s, 0) := by
  have hdrop : s.rdropWhile (· ∉ chars) = [] := List.rdropWhile_eq_nil_iff.mpr fun x hx => decide_eq_true (hs x hx)
  unfold cutLastAny
  rw [hdrop]
  rfl

/-- The last of two separators. -/
theorem last_separator (chars s : Bytes) : (∀ x ∈ s, x ∉ chars) ∨ ∃ a b, ∃ c ∈ chars, s = a ++ c :: b ∧ ∀ x ∈ b, x ∉ chars := by
  induction s with
  | nil => exact .inl (List.forall_mem_nil _)
  | cons x s ih =>
    obtain hnone | ⟨a, b, c, hc, rfl, hb⟩ := ih
    · by_cases hx : x ∈ chars
      · exact .inr ⟨[], s, x, hx, rfl, hnone⟩
      · exact .inl (List.forall_mem_cons.mpr ⟨hx, hnone⟩)
    · exact .inr ⟨x :: a, b, c, hc, rfl, hb⟩

/-! ## What is parsed -/

/-- No tag is empty, and none is followed by another one. -/
def OneTag (s : Bytes) : Prop := ∀ a b, s = a ++ colon :: b → slash ∉ b → b ≠ [] ∧ colon ∉ b

/-- No namespace in front of a model is empty, unless nothing is in front of it. -/
def NoEmptyNamespace (s : Bytes) : Prop := ∀ a b, s = a ++ slash :: b → slash ∉ b → a.getLast? ≠ some slash

/-- `strings.TrimPrefix(s, "/")`. -/
def trimSlash (s : Bytes) : Bytes := if s.head? = some slash then s.tail else s

theorem separators {x : UInt8} : x ∈ ascii "/:" ↔ x = slash ∨ x = colon := by
  rw [show ascii "/:" = [slash, colon] from rfl]
  simp

/-- What is in front of the tag, or all there is. -/
theorem parseFrom_untagged {s : Bytes} (hs : ∀ a b, s = a ++ colon :: b → slash ∈ b) (name : Name) :
    (slash ∉ s ∧ parseFrom s name = { name with m := s }) ∨
    ∃ pre m, s = pre ++ slash :: m ∧ slash ∉ m ∧ parseFrom s name =
      { name with h := (cutLastAny pre (ascii "/")).1, n := (cutLastAny pre (ascii "/")).2.1, m := m } := by
  obtain hnone | ⟨a, b, c, hc, rfl, hb⟩ := last_separator (ascii "/:") s
  · refine .inl ⟨fun h => hnone slash h (by decide), ?_⟩
    rw [parseFrom, cutLastAny_none hnone]
    rfl
  · have hslash : slash ∉ b := fun h => hb slash h (by decide)
    obtain rfl | rfl := separators.mp hc
    · refine .inr ⟨a, b, rfl, hslash, ?_⟩
      rw [parseFrom, cutLastAny_some hc hb]
      rfl
    · exact absurd (hs a b rfl) hslash

/-- A name with at most one tag is parsed to its tag and to what is parsed from the rest. -/
theorem parseFrom_oneTag {s : Bytes} (hs : OneTag s) : ∃ front t, (∀ a b, front = a ++ colon :: b → slash ∈ b) ∧
    (s = front ∧ t = [] ∨ s = front ++ colon :: t ∧ t ≠ [] ∧ slash ∉ t) ∧ parseFrom s {} = parseFrom front { t } := by
  obtain hnone | ⟨a, b, c, hc, rfl, hb⟩ := last_separator (ascii "/:") s
  · refine ⟨s, [], fun a b h => ?_, .inl ⟨rfl, rfl⟩, rfl⟩
    exact absurd (by decide) (hnone colon (h ▸ List.mem_append_right _ (List.mem_cons_self ..)))
  · have hslash : slash ∉ b := fun h => hb slash h (by decide)
    obtain rfl | rfl := separators.mp hc
    · refine ⟨_, [], fun a' b' h => ?_, .inl ⟨rfl, rfl⟩, rfl⟩
      obtain ⟨u, -, hu⟩ | ⟨u, -, hu⟩ := List.append_eq_append_iff.mp h
      · -- no colon is behind the last slash
        cases u with
        | nil => exact absurd (List.cons.inj hu).1 (by decide)
        | cons x u =>
          have hcolon : colon ∈ b := (List.cons.inj hu).2 ▸ List.mem_append_right _ (List.mem_cons_self ..)
          exact absurd (by decide) (hb colon hcolon)
      · cases u with
        | nil => exact absurd (List.cons.inj hu).1 (by decide)
        | cons x u =>
          rw [(List.cons.inj hu).2]
          exact List.mem_append_right _ (List.mem_cons_self ..)
    · obtain ⟨hne, hcolon⟩ := hs a b rfl hslash
      refine ⟨a, b, fun a' b' h => ?_, .inr ⟨rfl, hne, hslash⟩, ?_⟩
      · by_contra hnot
        have heq : a ++ colon :: b = a' ++ colon :: (b' ++ colon :: b) := by rw [h]; simp
        have hmem : slash ∉ b' ++ colon :: b := by
          simp [hnot, hslash, show slash ≠ colon by decide]
        exact (hs a' _ heq hmem).2 (List.mem_append_right _ (List.mem_cons_self ..))
      · conv_lhs => rw [parseFrom, cutLastAny_some hc hb]
        rfl

/-- What is parsed from a text, up to its host. -/
inductive Parsed : Bytes → Name → Prop
  | model {m : Bytes} : slash ∉ m → Parsed m { m }
  | nameSpace {n m : Bytes} : slash ∉ n → Parsed (n ++ slash :: m) { n, m }
  | host {h n m : Bytes} : n ≠ [] → Parsed (h ++ slash :: n ++ slash :: m) { h, n, m }

theorem parsed_front {front : Bytes} (hcolon : ∀ a b, front = a ++ colon :: b → slash ∈ b) {rest t : Bytes} (hrest : slash ∉ rest)
    (hspace : NoEmptyNamespace (front ++ rest)) : ∃ name, Parsed front name ∧ parseFrom front { t } = { name with t } := by
  obtain ⟨hslash, hparse⟩ | ⟨pre, m, rfl, hslash, hparse⟩ := parseFrom_untagged hcolon { t }
  · exact ⟨{ m := front }, .model hslash, hparse⟩
  · obtain hnone | ⟨h, n, c, hc, rfl, hn⟩ := last_separator (ascii "/") pre
    · refine ⟨{ n := pre, m }, .nameSpace fun hmem => hnone slash hmem (by decide), ?_⟩
      rw [hparse, cutLastAny_none hnone]
    · obtain rfl : c = slash := List.mem_singleton.mp hc
      have hne : n ≠ [] := by
        rintro rfl
        apply hspace (h ++ [slash]) (m ++ rest) (by simp) (by simp [hslash, hrest])
        exact List.getLast?_concat ..
      refine ⟨{ h, n, m }, ?_, ?_⟩
      · have heq : h ++ slash :: n ++ slash :: m = (h ++ slash :: n) ++ slash :: m := rfl
        exact .host hne
      · rw [hparse, cutLastAny_some hc hn]

theorem trimSlash_of_head {s : Bytes} (h : s.head? ≠ some slash) : trimSlash s = s := if_neg h

theorem head_ne_slash {a : Bytes} (ha : a ≠ []) (hno : slash ∉ a) (b : Bytes) : (a ++ b).head? ≠ some slash := by
  obtain ⟨x, a, rfl⟩ := List.exists_cons_of_ne_nil ha
  intro h
  exact hno (Option.some.inj h ▸ List.mem_cons_self ..)

/-- What holds of the parts of a valid name. -/
structure Name.Valid (name : Name) : Prop where
  host : name.h = [] ∨ ValidPart .kindHost name.h
  nameSpace : name.n = [] ∨ ValidPart .kindNamespace name.n
  tag : name.t = [] ∨ ValidPart .kindTag name.t
  model : ValidPart .kindModel name.m

theorem Name.valid {name : Name} (h : name.isValid = true) : name.Valid := by
  have hpart : ∀ (kind : Part) (s : Bytes), s = [] ∨ isValidPart kind s = true → s = [] ∨ ValidPart kind.kind s := by
    intro kind s hs
    by_cases hnil : s = []
    · exact .inl hnil
    · exact .inr (validPart_of hnil (hs.resolve_left hnil))
  simp only [isValid, Bool.and_eq_true, Bool.or_eq_true, decide_eq_true_eq] at h
  obtain ⟨⟨⟨hhost, hns⟩, htag⟩, hne, hmodel⟩ := h
  exact ⟨hpart .host _ hhost, hpart .nameSpace _ hns, hpart .tag _ htag, validPart_of hne hmodel⟩

/-- A name without its tag is printed as it was written, but for a slash in front. -/
theorem Parsed.string_eq {front : Bytes} {name : Name} (h : Parsed front name) (hvalid : name.Valid) :
    front ≠ [] ∧ name.string = trimSlash front := by
  have hslash : ascii "/" = [slash] := rfl
  cases h with
  | @model m hm =>
    have hne := hvalid.model.ne_nil
    have hhead := head_ne_slash hne hm []
    rw [List.append_nil] at hhead
    exact ⟨hne, by rw [trimSlash_of_head hhead]; simp [Name.string]⟩
  | @nameSpace n m hn =>
    refine ⟨by simp, ?_⟩
    by_cases hnil : n = []
    · simp [hnil, Name.string, trimSlash]
    · rw [trimSlash_of_head (head_ne_slash hnil hn _)]
      simp [Name.string, hnil, hslash]
  | @host h n m hn =>
    refine ⟨by simp, ?_⟩
    by_cases hnil : h = []
    · simp [hnil, Name.string, trimSlash, hn, hslash]
    · have hhost : ValidPart .kindHost h := hvalid.host.resolve_left hnil
      rw [List.append_assoc, trimSlash_of_head (head_ne_slash hnil hhost.slash_not_mem _)]
      simp [Name.string, hnil, hn, hslash]

theorem Name.string_tag (name : Name) (ht : name.t = []) (t : Bytes) :
    ({ name with t } : Name).string = name.string ++ if t ≠ [] then colon :: t else [] := by
  have hcolon : ascii ":" = [colon] := rfl
  rw [string, string, ht, hcolon]
  simp

theorem trimSlash_append {a : Bytes} (ha : a ≠ []) (b : Bytes) : trimSlash (a ++ b) = trimSlash a ++ b := by
  obtain ⟨x, a, rfl⟩ := List.exists_cons_of_ne_nil ha
  unfold trimSlash
  rw [List.cons_append, List.head?_cons, List.head?_cons]
  split_ifs <;> rfl

/-- A name that is valid is printed as it was written, without a slash in front, and one that is fully qualified is parsed to the
same parts by the other parser. -/
theorem parse_string {s : Bytes} (htag : OneTag s) (hspace : NoEmptyNamespace s) :
    ((parse s).isValid = true → (parse s).string = trimSlash s) ∧
    ((parse s).isFullyQualified = true → parseNameBare s =
      { host := (parse s).h, nameSpace := (parse s).n, model := (parse s).m, tag := (parse s).t }) := by
  by_cases hlen : s.length > maxNameLength
  · have hempty : parse s = {} := if_pos hlen
    rw [hempty]
    exact ⟨fun h => absurd h (by decide), fun h => absurd h (by decide)⟩
  · have hparse : parse s = parseFrom s {} := if_neg hlen
    obtain ⟨front, t, hcolon, hfront, hfrom⟩ := parseFrom_oneTag htag
    -- the text behind the front has no slash
    obtain ⟨rest, rfl, hrest, ht⟩ : ∃ rest, s = front ++ rest ∧ slash ∉ rest ∧ rest = if t ≠ [] then colon :: t else [] := by
      obtain ⟨rfl, rfl⟩ | ⟨rfl, hne, hno⟩ := hfront
      · exact ⟨[], (List.append_nil _).symm, by simp, by simp⟩
      · exact ⟨colon :: t, rfl, by simp [hno, show slash ≠ colon by decide], by simp [hne]⟩
    obtain ⟨name, hname, heq⟩ := parsed_front hcolon (t := t) hrest hspace
    have hnot : name.t = [] := by
      cases hname <;> rfl
    rw [hparse, hfrom, heq]
    constructor
    · intro hvalid
      obtain ⟨hhost, hns, -, hmodel⟩ := Name.valid hvalid
      obtain ⟨hne, hstring⟩ := hname.string_eq ⟨hhost, hns, .inl hnot, hmodel⟩
      rw [Name.string_tag name hnot, hstring, trimSlash_append hne, ht]
    · intro hfull
      simp only [Name.isFullyQualified, Bool.and_eq_true, decide_eq_true_eq] at hfull
      obtain ⟨⟨⟨⟨hvalid, hh⟩, hn⟩, -⟩, htne⟩ := hfull
      obtain ⟨hhost, hns, htag, hmodel⟩ := Name.valid hvalid
      have htag := htag.resolve_left htne
      rw [ht, if_pos htne]
      cases hname with
      | model => exact absurd rfl hh
      | nameSpace => exact absurd rfl hh
      | host => exact parse_host (hhost.resolve_left hh) (hns.resolve_left hn) hmodel htag

theorem oneTag_of_tails {s : Bytes}
    (h : ∀ u ∈ s.tails, u.head? = some colon → slash ∉ u.tail → u.tail ≠ [] ∧ colon ∉ u.tail) : OneTag s :=
  fun a b hs hb => h (colon :: b) ((List.mem_tails _ _).mpr ⟨a, hs.symm⟩) rfl hb

theorem noEmptyNamespace_of_tails {s : Bytes}
    (h : ∀ u ∈ s.tails, u.head? = some slash → u.tail.head? = some slash → slash ∈ u.tail.tail) : NoEmptyNamespace s := by
  intro a b hs hb hlast
  obtain ⟨a, rfl⟩ := List.getLast?_eq_some_iff.mp hlast
  refine hb (h (slash :: slash :: b) ((List.mem_tails _ _).mpr ⟨a, ?_⟩) rfl rfl)
  rw [hs, List.append_assoc]
  rfl

/-- A name with a port in its host. -/
theorem parse_string_port : ((parse (ascii "example.com:5000/library/llama3:8b")).isValid = true →
      (parse (ascii "example.com:5000/library/llama3:8b")).string = trimSlash (ascii "example.com:5000/library/llama3:8b")) ∧
    ((parse (ascii "example.com:5000/library/llama3:8b")).isFullyQualified = true →
      parseNameBare (ascii "example.com:5000/library/llama3:8b") = {
        host      := (parse (ascii "example.com:5000/library/llama3:8b")).h
        nameSpace := (parse (ascii "example.com:5000/library/llama3:8b")).n
        model     := (parse (ascii "example.com:5000/library/llama3:8b")).m
        tag       := (parse (ascii "example.com:5000/library/llama3:8b")).t }) :=
  parse_string (oneTag_of_tails (by decide)) (noEmptyNamespace_of_tails (by decide))

/-- A slash in front of a name is dropped. -/
theorem leadingSlash_dropped : (parse (ascii "/m")).isValid = true ∧ (parse (ascii "/m")).string = ascii "m" ∧
    (parse (ascii "/m")).string ≠ ascii "/m" := by
  decide +kernel

end Xdragon.Names.Registry
