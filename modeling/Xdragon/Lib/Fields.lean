import Xdragon.Lib.Runes
import Xdragon.Lib.Tags

/-!
# White space and fields

The runes of a text without the white space around it, and its first word.
-/

namespace Xdragon.Lib

/-! ## White space around a text -/

theorem trimLeft_cons_space {c : Char} (hc : isSpace c = true) (b : Bytes) : trimLeft (String.utf8EncodeChar c ++ b) = trimLeft b := by
  have hspace : (Rune.ofChar c).isSpace = true := hc
  rw [trimLeft, runes_encode, List.dropWhile_cons_of_pos hspace]
  rfl

theorem trimLeft_spaces {ws : List Char} (hws : ∀ c ∈ ws, isSpace c = true) (b : Bytes) : trimLeft (ofRunes ws ++ b) = trimLeft b := by
  induction ws with
  | nil => rfl
  | cons c ws ih =>
    rw [ofRunes, List.flatMap_cons, List.append_assoc, trimLeft_cons_space (hws c (List.mem_cons_self ..))]
    exact ih fun d hd => hws d (List.mem_cons_of_mem _ hd)

/-- A text is its leading white space and the rest. -/
theorem exists_spaces (b : Bytes) : ∃ ws : List Char, (∀ c ∈ ws, isSpace c = true) ∧ b = ofRunes ws ++ trimLeft b := by
  induction hn : b.length using Nat.strongRecOn generalizing b with
  | _ n ih =>
    have hself : ∀ {r : Rune} {rest : Bytes}, r.isSpace = false → runes b = r :: runes rest → trimLeft b = b := by
      intro r rest hr hruns
      rw [trimLeft, hruns, List.dropWhile_cons_of_neg (by simp [hr]), ← hruns, flatMap_runes]
    obtain rfl | ⟨c, rest, rfl, hruns⟩ | ⟨x, rest, rfl, -, hruns⟩ := runes_cases b
    · exact ⟨[], List.forall_mem_nil _, rfl⟩
    · by_cases hc : isSpace c = true
      · have hpos := c.utf8Size_pos
        rw [List.length_append, String.length_utf8EncodeChar] at hn
        obtain ⟨ws, hws, hrest⟩ := ih rest.length (by omega) rest rfl
        refine ⟨c :: ws, List.forall_mem_cons.mpr ⟨hc, hws⟩, ?_⟩
        rw [trimLeft_cons_space hc, ofRunes, List.flatMap_cons, List.append_assoc, ← ofRunes, ← hrest]
      · exact ⟨[], List.forall_mem_nil _, (hself (r := .ofChar c) (Bool.eq_false_iff.mpr hc) hruns).symm⟩
    · exact ⟨[], List.forall_mem_nil _, (hself rfl hruns).symm⟩

theorem trimLeft_solid {x : UInt8} (hx : Solid x) (s : Bytes) : trimLeft (x :: s) = x :: s := by
  obtain ⟨hencode, hspace⟩ := encode_solid hx
  have := trimLeft_encode hspace s
  rwa [hencode] at this

theorem runes_trimLeft (b : Bytes) : runes (trimLeft b) = (runes b).dropWhile Rune.isSpace := by
  induction hn : b.length using Nat.strongRecOn generalizing b with
  | _ n ih =>
    have hself : ∀ {r : Rune} {rest : Bytes}, r.isSpace = false → runes b = r :: runes rest →
        runes (trimLeft b) = (runes b).dropWhile Rune.isSpace := by
      intro r rest hr hruns
      have hdrop : (runes b).dropWhile Rune.isSpace = runes b := by
        rw [hruns]
        exact List.dropWhile_cons_of_neg (by simp [hr])
      rw [trimLeft, hdrop, flatMap_runes]
    obtain rfl | ⟨c, rest, rfl, hruns⟩ | ⟨x, rest, rfl, -, hruns⟩ := runes_cases b
    · rfl
    · by_cases hc : isSpace c = true
      · have hpos := c.utf8Size_pos
        rw [List.length_append, String.length_utf8EncodeChar] at hn
        rw [trimLeft_cons_space hc, ih rest.length (by omega) rest rfl, hruns]
        exact (List.dropWhile_cons_of_pos (show (Rune.ofChar c).isSpace = true from hc)).symm
      · exact hself (r := .ofChar c) (Bool.eq_false_iff.mpr hc) hruns
    · exact hself rfl hruns

theorem rune_of_space {b : Bytes} {r : Rune} (hr : r ∈ runes b) (hspace : r.isSpace = true) :
    ∃ c, isSpace c = true ∧ r = .ofChar c := by
  induction hn : b.length using Nat.strongRecOn generalizing b with
  | _ n ih =>
    obtain rfl | ⟨c, rest, rfl, hruns⟩ | ⟨x, rest, rfl, -, hruns⟩ := runes_cases b
    · cases hr
    · have hpos := c.utf8Size_pos
      rw [List.length_append, String.length_utf8EncodeChar] at hn
      obtain rfl | hr := List.mem_cons.mp (hruns ▸ hr)
      · exact ⟨c, hspace, rfl⟩
      · exact ih rest.length (by omega) hr rfl
    · obtain rfl | hr := List.mem_cons.mp (hruns ▸ hr)
      · cases hspace
      · exact ih rest.length (by rw [← hn, List.length_cons]; omega) hr rfl

/-- A text that starts with no other character than white space. -/
def AtBoundary (u : Bytes) : Prop := u = [] ∨ ∃ c rest, isSpace c = true ∧ u = String.utf8EncodeChar c ++ rest

theorem runes_trimRight (b : Bytes) : runes (trimRight b) = (runes b).rdropWhile Rune.isSpace := by
  obtain ⟨ws, hws⟩ : ∃ ws : List Char, (runes b).rtakeWhile Rune.isSpace = ws.map Rune.ofChar := by
    have hall : ∀ r ∈ (runes b).rtakeWhile Rune.isSpace, ∃ c, r = .ofChar c := by
      intro r hr
      have hmem := (List.rtakeWhile_suffix Rune.isSpace (runes b)).subset hr
      obtain ⟨c, -, hc⟩ := rune_of_space hmem (List.mem_rtakeWhile_imp hr)
      exact ⟨c, hc⟩
    generalize (runes b).rtakeWhile Rune.isSpace = rs at hall
    induction rs with
    | nil => exact ⟨[], rfl⟩
    | cons r rs ih =>
      obtain ⟨c, rfl⟩ := hall r (List.mem_cons_self ..)
      obtain ⟨ws, rfl⟩ := ih fun q hq => hall q (List.mem_cons_of_mem _ hq)
      exact ⟨c :: ws, rfl⟩
  have hb : b = trimRight b ++ ofRunes ws := by
    conv_lhs => rw [← flatMap_runes b, ← @List.rdropWhile_append_rtakeWhile _ Rune.isSpace (runes b), List.flatMap_append, hws]
    rw [trimRight, List.flatMap_map]
    rfl
  have hruns : runes (trimRight b) ++ ws.map Rune.ofChar = (runes b).rdropWhile Rune.isSpace ++ ws.map Rune.ofChar := by
    rw [← hws, List.rdropWhile_append_rtakeWhile, hws, ← runes_ofRunes, ← runes_append, ← hb]
    intro x hx
    cases ws with
    | nil => cases hx
    | cons c ws => exact first_encode c _ x hx
  exact List.append_cancel_right hruns

theorem runes_trimSpace (b : Bytes) : runes (trimSpace b) = ((runes b).dropWhile Rune.isSpace).rdropWhile Rune.isSpace := by
  rw [trimSpace, runes_trimRight, runes_trimLeft]

/-! ## First words -/

theorem head_fieldsFrom {field : Bytes} (hfield : field ≠ []) (rs : List Rune) :
    (fieldsFrom field rs).head? = some (field ++ (rs.takeWhile fun r => !r.isSpace).flatMap Rune.bytes) := by
  induction rs generalizing field with
  | nil => simp [fieldsFrom, hfield]
  | cons r rs ih =>
    rw [fieldsFrom]
    cases hr : r.isSpace with
    | true => simp [hfield, hr]
    | false =>
      have hne : field ++ r.bytes ≠ [] := fun h => hfield (List.append_eq_nil_iff.mp h).1
      rw [if_neg (by decide), ih hne, List.takeWhile_cons_of_pos (by simp [hr]), List.flatMap_cons, List.append_assoc]

/-- The first field of a text is what comes before the next white space behind its leading white space. -/
theorem head_fields (b : Bytes) : (fields b).head? =
    if trimLeft b = [] then none
    else some ((((runes b).dropWhile Rune.isSpace).takeWhile fun r => !r.isSpace).flatMap Rune.bytes) := by
  have hbytes : ∀ r ∈ runes b, r.bytes ≠ [] := fun r hr => bytes_ne_nil hr
  unfold fields trimLeft
  generalize runes b = rs at hbytes
  induction rs with
  | nil => rfl
  | cons r rs ih =>
    rw [fieldsFrom]
    cases hr : r.isSpace with
    | true =>
      rw [if_pos rfl, if_pos rfl, List.dropWhile_cons_of_pos hr]
      exact ih fun q hq => hbytes q (List.mem_cons_of_mem _ hq)
    | false =>
      have hne := hbytes r (List.mem_cons_self ..)
      have hnot : ¬ r.isSpace = true := by simp [hr]
      have hne' : (r :: rs).flatMap Rune.bytes ≠ [] := by
        rw [List.flatMap_cons]
        exact fun h => hne (List.append_eq_nil_iff.mp h).1
      rw [if_neg (by decide), List.nil_append, head_fieldsFrom hne, List.dropWhile_cons_of_neg hnot, if_neg hne',
        List.takeWhile_cons_of_pos (by simp [hr]), List.flatMap_cons]

theorem atBoundary_iff {u : Bytes} : AtBoundary u ↔ ∀ r ∈ (runes u).head?, r.isSpace = true := by
  constructor
  · rintro (rfl | ⟨c, rest, hc, rfl⟩) r hr
    · cases hr
    · rw [runes_encode] at hr
      obtain rfl := Option.some.inj hr
      exact hc
  · intro h
    obtain rfl | ⟨c, rest, rfl, hruns⟩ | ⟨x, rest, rfl, -, hruns⟩ := runes_cases u
    · exact .inl rfl
    · exact .inr ⟨c, rest, h (.ofChar c) (by rw [hruns]; rfl), rfl⟩
    · have hspace := h ⟨none, [x]⟩ (by rw [hruns]; rfl)
      cases hspace

/-! ## ASCII text at the start -/

theorem runes_ascii_append {p : Bytes} (hp : ∀ x ∈ p, x.toNat < 0x80) (u : Bytes) : runes (p ++ u) = runes p ++ runes u := by
  induction p with
  | nil => rfl
  | cons x p ih =>
    have hx := hp x (List.mem_cons_self ..)
    have hchar : (Char.ofNat x.toNat).toNat = x.toNat := toNat_ofNat (by omega)
    have hencode : String.utf8EncodeChar (Char.ofNat x.toNat) = [x] := by
      rw [utf8EncodeChar_ascii (by omega), hchar, UInt8.ofNat_toNat]
    have hcons : ∀ s, runes (x :: s) = .ofChar (Char.ofNat x.toNat) :: runes s := by
      intro s
      have := runes_encode (Char.ofNat x.toNat) s
      rwa [hencode] at this
    rw [List.cons_append, hcons, hcons, ih fun y hy => hp y (List.mem_cons_of_mem _ hy), List.cons_append]

theorem runes_solid {p : Bytes} (hp : ∀ x ∈ p, Solid x) : ∀ r ∈ runes p, r.isSpace = false := by
  induction p with
  | nil => exact List.forall_mem_nil _
  | cons x p ih =>
    obtain ⟨hencode, hspace⟩ := encode_solid (hp x (List.mem_cons_self ..))
    have hcons := runes_encode (Char.ofNat x.toNat) p
    rw [hencode] at hcons
    rw [show x :: p = [x] ++ p from rfl, hcons]
    exact List.forall_mem_cons.mpr ⟨hspace, ih fun y hy => hp y (List.mem_cons_of_mem _ hy)⟩

theorem trimRight_ascii_append {p : Bytes} (hp : ∀ x ∈ p, x.toNat < 0x80) (hlast : ∃ x ∈ p.getLast?, Solid x) (u : Bytes) :
    trimRight (p ++ u) = p ++ trimRight u := by
  have hp' : (runes p).rdropWhile Rune.isSpace = runes p := by
    obtain ⟨x, hx, hsolid⟩ := hlast
    obtain ⟨front, rfl⟩ := List.getLast?_eq_some_iff.mp hx
    have hfront : ∀ y ∈ front, y.toNat < 0x80 := fun y hy => hp y (List.mem_append_left _ hy)
    obtain ⟨hencode, hspace⟩ := encode_solid hsolid
    have hone := runes_encode (Char.ofNat x.toNat) []
    rw [hencode] at hone
    rw [runes_ascii_append hfront, show [x] = [x] ++ [] from rfl, hone]
    exact List.rdropWhile_concat_neg _ _ _ (by simp [Rune.isSpace, Rune.ofChar, hspace])
  rw [trimRight, runes_ascii_append hp, rdropWhile_append, hp']
  split_ifs with hnil
  · rw [flatMap_runes, trimRight, hnil, List.flatMap_nil, List.append_nil]
  · rw [List.flatMap_append, flatMap_runes]
    rfl

/-- White space at the end does not change what a text starts with. -/
theorem prefix_trimSpace {p b : Bytes} (hp : ∀ x ∈ p, x.toNat < 0x80) (hlast : ∃ x ∈ p.getLast?, Solid x) :
    p <+: trimSpace b ↔ p <+: trimLeft b := by
  constructor
  · exact fun h => h.trans (trimRight_isPrefix _)
  · rintro ⟨u, hu⟩
    rw [trimSpace, ← hu, trimRight_ascii_append hp hlast]
    exact List.prefix_append ..

theorem atBoundary_trimRight {u : Bytes} : AtBoundary (trimRight u) ↔ AtBoundary u := by
  rw [atBoundary_iff, atBoundary_iff, runes_trimRight]
  by_cases hnil : (runes u).rdropWhile Rune.isSpace = []
  · rw [hnil]
    refine iff_of_true (fun r hr => by cases hr) fun r hr => ?_
    exact List.rdropWhile_eq_nil_iff.mp hnil r (List.mem_of_mem_head? hr)
  · obtain ⟨t, ht⟩ := List.rdropWhile_prefix Rune.isSpace (runes u)
    rw [← List.head?_append_of_ne_nil _ hnil, ht]

/-- The first word of a text is one that stands at its start, up to white space. -/
theorem head_fields_iff {w b : Bytes} (hne : w ≠ []) (hw : ∀ x ∈ w, Solid x) :
    (fields b).head? = some w ↔ ∃ u, trimLeft b = w ++ u ∧ AtBoundary u := by
  have hruns : ∀ u, runes (w ++ u) = runes w ++ runes u := runes_ascii_append fun x hx => (hw x hx).2
  have hwords : ∀ r ∈ runes w, (!r.isSpace) = true := fun r hr => by rw [runes_solid hw r hr]; rfl
  rw [head_fields, ← runes_trimLeft]
  constructor
  · intro h
    split_ifs at h
    have hcut := congrArg (List.flatMap Rune.bytes) (@List.takeWhile_append_dropWhile _ (fun r => !r.isSpace) (runes (trimLeft b)))
    rw [List.flatMap_append, Option.some.inj h, flatMap_runes] at hcut
    refine ⟨_, hcut.symm, ?_⟩
    cases hdrop : (runes (trimLeft b)).dropWhile fun r => !r.isSpace with
    | nil => exact .inl rfl
    | cons r rs =>
      have hhead := List.head?_dropWhile_not (fun r : Rune => !r.isSpace) (runes (trimLeft b))
      rw [hdrop] at hhead
      have hmem : r ∈ runes (trimLeft b) := (List.dropWhile_suffix _).subset (hdrop ▸ List.mem_cons_self ..)
      obtain ⟨c, hc, rfl⟩ := rune_of_space hmem (by simpa using hhead)
      exact .inr ⟨c, _, hc, rfl⟩
  · rintro ⟨u, hu, hboundary⟩
    have hnil : w ++ u ≠ [] := fun h => hne (List.append_eq_nil_iff.mp h).1
    have htake : (runes u).takeWhile (fun r => !r.isSpace) = [] := by
      cases hu : runes u with
      | nil => rfl
      | cons r rs =>
        have := atBoundary_iff.mp hboundary r (by rw [hu]; rfl)
        exact List.takeWhile_cons_of_neg (by simp [this])
    rw [hu, if_neg hnil, hruns, List.takeWhile_append_of_pos hwords, htake, List.append_nil, flatMap_runes]

theorem trimLeft_trimSpace (b : Bytes) : trimLeft (trimSpace b) = trimSpace b := by
  have hdrop : (runes (trimSpace b)).dropWhile Rune.isSpace = runes (trimSpace b) := by
    rw [runes_trimSpace]
    obtain ⟨t, ht⟩ := List.rdropWhile_prefix Rune.isSpace ((runes b).dropWhile Rune.isSpace)
    cases hl : ((runes b).dropWhile Rune.isSpace).rdropWhile Rune.isSpace with
    | nil => rfl
    | cons r rs =>
      have hhead := List.head?_dropWhile_not Rune.isSpace (runes b)
      rw [← ht, hl] at hhead
      exact List.dropWhile_cons_of_neg (by simpa using hhead)
  rw [trimLeft, hdrop, flatMap_runes]

/-- White space at the end does not change the first word either. -/
theorem head_fields_trimSpace {w b : Bytes} (hne : w ≠ []) (hw : ∀ x ∈ w, Solid x) :
    (fields (trimSpace b)).head? = some w ↔ (fields b).head? = some w := by
  have hascii : ∀ x ∈ w, x.toNat < 0x80 := fun x hx => (hw x hx).2
  have hlast : ∃ x ∈ w.getLast?, Solid x :=
    ⟨w.getLast hne, List.getLast?_eq_some_getLast hne, hw _ (List.getLast_mem hne)⟩
  rw [head_fields_iff hne hw, head_fields_iff hne hw, trimLeft_trimSpace]
  constructor
  · rintro ⟨u, hu, hboundary⟩
    obtain ⟨u', hu'⟩ := (prefix_trimSpace hascii hlast).mp ⟨u, hu.symm⟩
    refine ⟨u', hu'.symm, atBoundary_trimRight.mp ?_⟩
    rw [trimSpace, ← hu', trimRight_ascii_append hascii hlast] at hu
    rwa [List.append_cancel_left hu]
  · rintro ⟨u, hu, hboundary⟩
    refine ⟨trimRight u, ?_, atBoundary_trimRight.mpr hboundary⟩
    rw [trimSpace, hu, trimRight_ascii_append hascii hlast]

end Xdragon.Lib
