import Xdragon.Lib.Runes
import Xdragon.Names.Name

/-!
# Round trips of model names

The parts of a fully qualified name have no slash, and only its host has a colon, so the separators of the
written name are found again.
-/

namespace Xdragon.Names

open Xdragon.Lib (Bytes ascii cut cutLast runes slash joinPath PlainPart clean cleanParts rooted cutLast_singleton
  cutLast_singleton_none)

def colon : UInt8 := 0x3a

/-! ## Valid parts -/

/-- What holds of a part that is valid. -/
structure ValidPart (kind : PartKind) (s : Bytes) : Prop where
  ne_nil : s ≠ []
  head : ∀ c, s.head? = some c → isAlphanumericOrUnderscore c = true
  bytes : ∀ c ∈ s, isAlphanumericOrUnderscore c = true ∨ isValidByte kind c = true

theorem lt_of_alphanumeric {c : UInt8} (h : isAlphanumericOrUnderscore c = true) : c.toNat < 128 := by
  simp only [isAlphanumericOrUnderscore, Bool.or_eq_true, Bool.and_eq_true, decide_eq_true_eq, beq_iff_eq] at h
  omega

theorem lt_of_validByte {kind : PartKind} {c : UInt8} (h : isValidByte kind c = true) : c.toNat < 128 := by
  unfold isValidByte at h
  split_ifs at h with h1 h2 h3
  · obtain rfl | rfl := h1 <;> decide
  · rw [h2]
    decide
  · rw [h3]
    decide
  · exact lt_of_alphanumeric h

theorem validPart_of {kind : PartKind} {s : Bytes} (h : isValidPart kind s = true) : ValidPart kind s := by
  unfold isValidPart at h
  rw [Bool.and_eq_true] at h
  obtain ⟨hlen, h⟩ := h
  have hne : s ≠ [] := by
    rintro rfl
    cases kind <;> cases hlen
  cases hs : (runes s).map (fun r => r.bytes.headD 0) with
  | nil =>
    have hnil := List.map_eq_nil_iff.mp hs
    have hflat := Lib.flatMap_runes s
    rw [hnil] at hflat
    exact absurd hflat.symm hne
  | cons c cs =>
    rw [hs] at h
    dsimp only at h
    rw [Bool.and_eq_true, List.all_eq_true] at h
    obtain ⟨hc, hcs⟩ := h
    have hbytes : s = c :: cs := by
      rw [← hs]
      refine (Lib.heads_runes fun r hr => ?_).symm
      have hmem : r.bytes.headD 0 ∈ c :: cs := hs ▸ List.mem_map_of_mem hr
      obtain heq | hmem := List.mem_cons.mp hmem
      · rw [heq]
        exact lt_of_alphanumeric hc
      · exact lt_of_validByte (hcs _ hmem)
    refine ⟨hne, ?_, ?_⟩
    · intro d hd
      rw [hbytes] at hd
      obtain rfl := Option.some.inj hd
      exact hc
    · intro d hd
      rw [hbytes] at hd
      obtain rfl | hd := List.mem_cons.mp hd
      · exact .inl hc
      · exact .inr (hcs d hd)

namespace ValidPart

variable {kind : PartKind} {s : Bytes}

theorem slash_not_mem (h : ValidPart kind s) : slash ∉ s := by
  intro hmem
  obtain hc | hc := h.bytes slash hmem
  · revert hc
    decide
  · revert hc
    cases kind <;> decide

theorem colon_not_mem (h : ValidPart kind s) (hhost : kind ≠ .kindHost) (hdigest : kind ≠ .kindDigest) : colon ∉ s := by
  intro hmem
  obtain hc | hc := h.bytes colon hmem
  · revert hc
    decide
  · revert hc hhost hdigest
    cases kind <;> decide

/-- A valid part starts with a letter, a digit or an underscore, so it is no dot. -/
theorem plain (h : ValidPart kind s) : PlainPart s where
  ne_nil := h.ne_nil
  ne_dot := by
    rintro rfl
    exact absurd (h.head 0x2e rfl) (by decide)
  ne_dots := by
    rintro rfl
    exact absurd (h.head 0x2e rfl) (by decide)
  not_mem := h.slash_not_mem

end ValidPart

/-- The parts of a fully qualified name. -/
structure Name.Valid (n : Name) : Prop where
  host : ValidPart .kindHost n.host
  nameSpace : ValidPart .kindNamespace n.nameSpace
  model : ValidPart .kindModel n.model
  tag : ValidPart .kindTag n.tag

theorem Name.valid {n : Name} (h : n.isFullyQualified = true) : n.Valid := by
  unfold isFullyQualified at h
  simp only [Bool.and_eq_true] at h
  obtain ⟨⟨⟨hhost, hns⟩, hmodel⟩, htag⟩ := h
  exact ⟨validPart_of hhost, validPart_of hns, validPart_of hmodel, validPart_of htag⟩

/-! ## Parsing from the right -/

theorem cutPromised_some {x : UInt8} {before after : Bytes} (h : x ∉ after) (hbefore : before ≠ []) (hafter : after ≠ []) :
    cutPromised (before ++ x :: after) [x] = (before, after, true) := by
  rw [cutPromised, cutLast_singleton before h]
  simp [cmpOr, hbefore, hafter]

theorem cutPromised_none {x : UInt8} {s : Bytes} (h : x ∉ s) : cutPromised s [x] = (s, [], false) := by
  rw [cutPromised, cutLast_singleton_none h]

theorem lastIndex_some {x : UInt8} (before : Bytes) {after : Bytes} (h : x ∉ after) :
    lastIndex (before ++ x :: after) [x] = before.length := by
  rw [lastIndex, cutLast_singleton before h]

theorem lastIndex_none {x : UInt8} {s : Bytes} (h : x ∉ s) : lastIndex s [x] = -1 := by
  rw [lastIndex, cutLast_singleton_none h]

/-- The tag behind a part without slash is cut off first. -/
theorem parse_tag {before model tag : Bytes} (hbefore : slash ∉ model ∧ (before = [] ∨ ∃ b, before = b ++ [slash]))
    (hmodel : model ≠ []) (htag : ValidPart .kindTag tag) :
    lastIndex (before ++ model ++ colon :: tag) (ascii ":") > lastIndex (before ++ model ++ colon :: tag) (ascii "/") ∧
      cutPromised (before ++ model ++ colon :: tag) (ascii ":") = (before ++ model, tag, true) := by
  have hcolon := htag.colon_not_mem (by decide) (by decide)
  have hslash : slash ∉ model ++ colon :: tag := by
    have hne : slash ≠ colon := by decide
    simp [hbefore.1, htag.slash_not_mem, hne]
  constructor
  · have hlast : lastIndex (before ++ model ++ colon :: tag) (ascii ":") = (before ++ model).length :=
      lastIndex_some _ hcolon
    rw [hlast]
    obtain rfl | ⟨b, rfl⟩ := hbefore.2
    · have hnone : lastIndex ([] ++ model ++ colon :: tag) (ascii "/") = -1 := lastIndex_none hslash
      rw [hnone]
      omega
    · have hsome : lastIndex (b ++ [slash] ++ model ++ colon :: tag) (ascii "/") = b.length := by
        have heq : b ++ [slash] ++ model ++ colon :: tag = b ++ slash :: (model ++ colon :: tag) := by simp
        rw [heq]
        exact lastIndex_some b hslash
      rw [hsome]
      simp only [List.length_append, List.length_singleton]
      omega
  · exact cutPromised_some hcolon (by simp [hmodel]) htag.ne_nil

variable {host nameSpace model tag : Bytes}

theorem parse_model (hmodel : ValidPart .kindModel model) (htag : ValidPart .kindTag tag) :
    parseNameBare (model ++ colon :: tag) = { model, tag } := by
  obtain ⟨hlt, hcut⟩ := @parse_tag [] _ _ ⟨hmodel.slash_not_mem, .inl rfl⟩ hmodel.ne_nil htag
  rw [List.nil_append] at hlt hcut
  have hnone : cutPromised model (ascii "/") = (model, [], false) := cutPromised_none hmodel.slash_not_mem
  unfold parseNameBare
  rw [if_pos hlt, hcut]
  dsimp only
  rw [hnone]
  rfl

theorem parse_nameSpace (hns : ValidPart .kindNamespace nameSpace) (hmodel : ValidPart .kindModel model)
    (htag : ValidPart .kindTag tag) :
    parseNameBare (nameSpace ++ slash :: model ++ colon :: tag) = { nameSpace, model, tag } := by
  obtain ⟨hlt, hcut⟩ := @parse_tag (nameSpace ++ [slash]) _ _ ⟨hmodel.slash_not_mem, .inr ⟨_, rfl⟩⟩ hmodel.ne_nil htag
  have heq : nameSpace ++ [slash] ++ model = nameSpace ++ slash :: model := by simp
  rw [heq] at hlt hcut
  have hsome : cutPromised (nameSpace ++ slash :: model) (ascii "/") = (nameSpace, model, true) :=
    cutPromised_some hmodel.slash_not_mem hns.ne_nil hmodel.ne_nil
  have hnone : cutPromised nameSpace (ascii "/") = (nameSpace, [], false) := cutPromised_none hns.slash_not_mem
  unfold parseNameBare
  rw [if_pos hlt, hcut]
  dsimp only
  rw [hsome]
  dsimp only
  rw [hnone]
  rfl

theorem parse_host (hhost : ValidPart .kindHost host) (hns : ValidPart .kindNamespace nameSpace)
    (hmodel : ValidPart .kindModel model) (htag : ValidPart .kindTag tag) :
    parseNameBare (host ++ slash :: nameSpace ++ slash :: model ++ colon :: tag) = { host, nameSpace, model, tag } := by
  obtain ⟨hlt, hcut⟩ := @parse_tag (host ++ slash :: nameSpace ++ [slash]) _ _ ⟨hmodel.slash_not_mem, .inr ⟨_, rfl⟩⟩
    hmodel.ne_nil htag
  have heq : host ++ slash :: nameSpace ++ [slash] ++ model = host ++ slash :: nameSpace ++ slash :: model := by simp
  rw [heq] at hlt hcut
  have hsome : cutPromised (host ++ slash :: nameSpace ++ slash :: model) (ascii "/") = (host ++ slash :: nameSpace, model, true) :=
    cutPromised_some hmodel.slash_not_mem (by simp) hmodel.ne_nil
  have hsome' : cutPromised (host ++ slash :: nameSpace) (ascii "/") = (host, nameSpace, true) :=
    cutPromised_some hns.slash_not_mem hhost.ne_nil hns.ne_nil
  -- the host has no slash, so no scheme
  have hscheme : cut (ascii "://") host = none := by
    rw [Lib.cut_eq_none_iff_absent]
    exact fun hin => hhost.slash_not_mem (hin.subset (by decide))
  unfold parseNameBare
  rw [if_pos hlt, hcut]
  dsimp only
  rw [hsome]
  dsimp only
  rw [hsome']
  dsimp only
  rw [hscheme]
  rfl

/-! ## Round trips -/

namespace Name

variable {n : Name} (fold : Char → Char)

theorem string_eq (h : n.Valid) : n.string = n.host ++ slash :: n.nameSpace ++ slash :: n.model ++ colon :: n.tag := by
  have hslash : ascii "/" = [slash] := rfl
  have hcolon : ascii ":" = [colon] := rfl
  rw [string, if_pos h.host.ne_nil, if_pos h.nameSpace.ne_nil, if_pos h.tag.ne_nil, hslash, hcolon]
  simp

theorem parseNameBare_string (h : n.Valid) (hscheme : n.protocolScheme = []) : parseNameBare n.string = n := by
  rw [string_eq h, parse_host h.host h.nameSpace h.model h.tag, ← hscheme]

theorem filepath_eq (h : n.isFullyQualified = true) :
    n.filepath = some ([slash].intercalate [n.host, n.nameSpace, n.model, n.tag]) := by
  have hv := valid h
  rw [filepath, if_pos h, Lib.joinPath_plain _ (List.cons_ne_nil _ _)]
  simp [hv.host.plain, hv.nameSpace.plain, hv.model.plain, hv.tag.plain]

theorem parseNameFromFilepath_filepath (h : n.isFullyQualified = true) (hscheme : n.protocolScheme = []) :
    parseNameFromFilepath ([slash].intercalate [n.host, n.nameSpace, n.model, n.tag]) = n := by
  have hv := valid h
  have hsplit : ([slash].intercalate [n.host, n.nameSpace, n.model, n.tag]).splitOn slash =
      [n.host, n.nameSpace, n.model, n.tag] := by
    refine Lib.splitOn_plain ?_ (List.cons_ne_nil _ _)
    simp [hv.host.plain, hv.nameSpace.plain, hv.model.plain, hv.tag.plain]
  have heq : ({ host := n.host, nameSpace := n.nameSpace, model := n.model, tag := n.tag } : Name) = n := by rw [← hscheme]
  rw [parseNameFromFilepath, hsplit]
  dsimp only
  rw [heq, h]
  rfl

theorem equalFold_refl (s : Bytes) : Names.equalFold fold s s = true := decide_eq_true rfl

theorem equalFold_symm {s t : Bytes} (h : Names.equalFold fold s t = true) : Names.equalFold fold t s = true :=
  decide_eq_true (of_decide_eq_true h).symm

/-- The parts that are left out are the defaults, but for case. -/
theorem parseName_displayShortest (h : n.Valid) : (parseName (n.displayShortest fold)).equalFold fold n = true := by
  have hslash : ascii "/" = [slash] := rfl
  have hcolon : ascii ":" = [colon] := rfl
  unfold parseName displayShortest
  cases hhost : Names.equalFold fold n.host defaultHost with
  | false =>
    have hparse := parse_host h.host h.nameSpace h.model h.tag
    have heq : n.host ++ ascii "/" ++ n.nameSpace ++ ascii "/" ++ n.model ++ ascii ":" ++ n.tag =
        n.host ++ slash :: n.nameSpace ++ slash :: n.model ++ colon :: n.tag := by simp [hslash, hcolon]
    rw [if_pos Bool.not_false, heq, hparse]
    simp [merge, equalFold, cmpOr, h.host.ne_nil, h.nameSpace.ne_nil, h.tag.ne_nil, equalFold_refl]
  | true =>
    have hdefault := equalFold_symm fold hhost
    cases hns : Names.equalFold fold n.nameSpace defaultNamespace with
    | false =>
      have hparse := parse_nameSpace h.nameSpace h.model h.tag
      have heq : n.nameSpace ++ ascii "/" ++ n.model ++ ascii ":" ++ n.tag =
          n.nameSpace ++ slash :: n.model ++ colon :: n.tag := by simp [hslash, hcolon]
      rw [if_neg (by decide), if_pos Bool.not_false, heq, hparse]
      simp [merge, equalFold, cmpOr, h.nameSpace.ne_nil, h.tag.ne_nil, equalFold_refl, hdefault, defaultName]
    | true =>
      have hparse := parse_model h.model h.tag
      have heq : [] ++ n.model ++ ascii ":" ++ n.tag = n.model ++ colon :: n.tag := by simp [hcolon]
      rw [if_neg (by decide), if_neg (by decide), heq, hparse]
      simp [merge, equalFold, cmpOr, h.tag.ne_nil, equalFold_refl, hdefault, equalFold_symm fold hns, defaultName]

/-- The path of a name, joined to a directory. -/
def Inside (dir path : Bytes) (parts : List Bytes) : Prop :=
  ∃ joined, joinPath [dir, path] = clean joined ∧ rooted joined = rooted dir ∧ cleanParts joined = cleanParts dir ++ parts

theorem inside_of_plain {dir : Bytes} (hdir : dir ≠ []) {ps : List Bytes} (h : ∀ p ∈ ps, PlainPart p) (hne : ps ≠ []) :
    Inside dir ([slash].intercalate ps) ps := by
  obtain ⟨x, rest, hhead, -⟩ := Lib.head_intercalate h hne
  refine ⟨dir ++ slash :: [slash].intercalate ps, ?_, ?_, Lib.joinPath_inside hdir h hne⟩
  · unfold joinPath
    rw [List.dropWhile_cons, if_neg (by simpa using hdir)]
    simp [List.intercalate]
  · obtain ⟨y, ys, rfl⟩ := List.exists_cons_of_ne_nil hdir
    rfl

/-- A name is parsed again from its string, its shortest form and its path, which is its own and stays in the directory
it is joined to. -/
theorem round_trips (hfull : n.isFullyQualified = true) (hscheme : n.protocolScheme = []) :
    parseNameBare n.string = n ∧ (parseName (n.displayShortest fold)).equalFold fold n = true ∧
      (∃ path parts, n.filepath = some path ∧ path.splitOn slash = parts ∧ parts.length = 4 ∧ (∀ p ∈ parts, PlainPart p) ∧
        (∀ dir, dir ≠ [] → Inside dir path parts) ∧ parseNameFromFilepath path = n) ∧
      ∀ m : Name, m.isFullyQualified = true → m.protocolScheme = [] → m ≠ n → m.string ≠ n.string ∧ m.filepath ≠ n.filepath := by
  have hv := valid hfull
  have hplain : ∀ p ∈ [n.host, n.nameSpace, n.model, n.tag], PlainPart p := by
    simp [hv.host.plain, hv.nameSpace.plain, hv.model.plain, hv.tag.plain]
  refine ⟨parseNameBare_string hv hscheme, parseName_displayShortest fold hv, ?_, ?_⟩
  · refine ⟨_, _, filepath_eq hfull, Lib.splitOn_plain hplain (List.cons_ne_nil _ _), rfl, hplain, ?_,
      parseNameFromFilepath_filepath hfull hscheme⟩
    exact fun dir hdir => inside_of_plain hdir hplain (List.cons_ne_nil _ _)
  · intro m hm hmscheme hne
    constructor
    · intro hstring
      apply hne
      rw [← parseNameBare_string (valid hm) hmscheme, hstring, parseNameBare_string hv hscheme]
    · intro hpath
      rw [filepath_eq hm, filepath_eq hfull, Option.some.injEq] at hpath
      apply hne
      rw [← parseNameFromFilepath_filepath hm hmscheme, hpath, parseNameFromFilepath_filepath hfull hscheme]

/-- A name with a port in its host. -/
def ported : Name where
  host := ascii "example.com:5000"
  nameSpace := ascii "library"
  model := ascii "llama3.2"
  tag := ascii "8b-q4_0"

theorem ported_round_trips :
    parseNameBare ported.string = ported ∧ (parseName (ported.displayShortest Char.toLower)).equalFold Char.toLower ported = true ∧
      (∃ path parts, ported.filepath = some path ∧ path.splitOn slash = parts ∧ parts.length = 4 ∧ (∀ p ∈ parts, PlainPart p) ∧
        (∀ dir, dir ≠ [] → Inside dir path parts) ∧ parseNameFromFilepath path = ported) ∧
      ∀ m : Name, m.isFullyQualified = true → m.protocolScheme = [] → m ≠ ported →
        m.string ≠ ported.string ∧ m.filepath ≠ ported.filepath :=
  round_trips Char.toLower (by decide) rfl

end Name

end Xdragon.Names
