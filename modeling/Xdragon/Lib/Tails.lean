import Xdragon.Lib.Marks

/-!
# The beginning of a tag at the end of a text

A reader that waits for a tag keeps the beginning of one at the end of its text, and nothing else but space. What it keeps is
in no span if the tag is unlike the others.
-/

namespace Xdragon.Lib

variable {α : Type*} [DecidableEq α] {tag before buffer : List α}

/-- The text ends with the beginning of the tag. -/
def EndsInside (tag text : List α) : Prop := ∃ k, 0 < k ∧ k < tag.length ∧ tag.take k <:+ text

instance (tag text : List α) : Decidable (EndsInside tag text) :=
  decidable_of_iff (∃ k < tag.length, 0 < k ∧ tag.take k <:+ text)
    ⟨fun ⟨k, hk, hpos, h⟩ => ⟨k, hpos, hk, h⟩, fun ⟨k, hpos, hk, h⟩ => ⟨k, hk, hpos, h⟩⟩

/-- The beginning of the tag at the end of the text is in the buffer. -/
def KeepsTail (tag before buffer : List α) : Prop :=
  ∀ k, k < tag.length → tag.take k <:+ before ++ buffer → tag.take k <:+ buffer

omit [DecidableEq α] in
theorem keepsTail_nil : KeepsTail tag [] buffer := fun _ _ h => h

omit [DecidableEq α] in
theorem KeepsTail.append (h : KeepsTail tag before buffer) (c : List α) : KeepsTail tag before (buffer ++ c) := by
  intro k hk hsuffix
  rw [← List.append_assoc] at hsuffix
  obtain hle | hlt := Nat.le_total (tag.take k).length c.length
  · exact (List.suffix_of_suffix_length_le hsuffix (List.suffix_append _ _) hle).trans (List.suffix_append _ _)
  · obtain ⟨e, he⟩ := List.suffix_of_suffix_length_le (List.suffix_append _ c) hsuffix hlt
    have hfront : e = tag.take e.length := by
      have := congrArg (List.take e.length) he
      rw [List.take_left, List.take_take] at this
      have hlen := congrArg List.length he
      rw [List.length_append, List.length_take] at hlen
      rwa [Nat.min_eq_left (by omega)] at this
    rw [← he] at hsuffix ⊢
    have hshort : e <:+ before ++ buffer := by
      obtain ⟨t, ht⟩ := hsuffix
      exact ⟨t, List.append_cancel_right (by rwa [List.append_assoc])⟩
    have hlen := congrArg List.length he
    rw [List.length_append, List.length_take] at hlen
    rw [hfront] at hshort
    have := h e.length (by omega) hshort
    rw [← hfront] at this
    obtain ⟨t, ht⟩ := this
    exact ⟨t, by rw [← ht, List.append_assoc]⟩

omit [DecidableEq α] in
/-- Behind an element that is not in the tag, but at its end, no tag has begun. -/
theorem keepsTail_of_last (h : ∀ x ∈ before.getLast?, x ∉ tag.dropLast) : KeepsTail tag before buffer := by
  intro k hk hsuffix
  obtain hle | hlt := Nat.lt_or_ge buffer.length (tag.take k).length |>.symm
  · exact List.suffix_of_suffix_length_le hsuffix (List.suffix_append _ _) hle
  · obtain ⟨e, he⟩ := List.suffix_of_suffix_length_le (List.suffix_append before buffer) hsuffix hlt.le
    obtain ⟨t, ht⟩ := hsuffix
    rw [← he, ← List.append_assoc] at ht
    have hbefore := List.append_cancel_right ht
    have hne : e ≠ [] := by
      rintro rfl
      rw [← he] at hlt
      exact absurd hlt (by simp)
    obtain ⟨x, hx⟩ : ∃ x, e.getLast? = some x := ⟨_, List.getLast?_eq_some_getLast hne⟩
    have hmem : x ∈ tag.dropLast := by
      have : x ∈ tag.take k := he ▸ List.mem_append_left _ (List.mem_of_getLast? hx)
      rw [List.dropLast_eq_take]
      exact (List.take_subset_take_left tag (by omega)) this
    exact absurd hmem (h x (by rw [← hbefore, List.getLast?_append_of_ne_nil _ hne]; exact hx))

/-- Whatever space comes behind the text, and whatever text behind it, no tag has begun. -/
def Clean (space : α → Bool) (tag before : List α) : Prop :=
  ∀ w buffer, (∀ x ∈ w, space x = true) → KeepsTail tag (before ++ w) buffer

omit [DecidableEq α] in
theorem Clean.space {space : α → Bool} {w : List α} (h : Clean space tag before) (hw : ∀ x ∈ w, space x = true) :
    Clean space tag (before ++ w) := by
  intro w' buffer hw'
  rw [List.append_assoc]
  exact h _ _ fun x hx => (List.mem_append.mp hx).elim (hw x) (hw' x)

omit [DecidableEq α] in
theorem Clean.keepsTail {space : α → Bool} (h : Clean space tag before) : KeepsTail tag before buffer := by
  have := h [] buffer nofun
  rwa [List.append_nil] at this

omit [DecidableEq α] in
theorem clean_nil {space : α → Bool} (htag : ∀ x ∈ tag, space x = false) : Clean space tag [] := by
  intro w buffer hw
  refine keepsTail_of_last fun x hx hmem => ?_
  have := hw x (List.mem_of_getLast? hx)
  rw [htag x (List.mem_of_mem_dropLast hmem)] at this
  cases this

omit [DecidableEq α] in
/-- Behind another tag no tag has begun. -/
theorem clean_behind {space : α → Bool} {e closing : List α} (hne : closing ≠ [])
    (hlast : ∀ x ∈ closing.getLast?, x ∉ tag.dropLast) (htag : ∀ x ∈ tag, space x = false) :
    Clean space tag (e ++ closing) := by
  intro w buffer hw
  rw [List.append_assoc]
  refine keepsTail_of_last fun x hx => ?_
  rw [List.getLast?_append_of_ne_nil _ (List.append_ne_nil_of_left_ne_nil hne w)] at hx
  by_cases hempty : w = []
  · rw [hempty, List.append_nil] at hx
    exact hlast x hx
  · rw [List.getLast?_append_of_ne_nil _ hempty] at hx
    intro hmem
    exact absurd (hw x (List.mem_of_getLast? hx)) (by simp [htag x (List.mem_of_mem_dropLast hmem)])

/-- What is longer than the overlap keeps the beginning of the tag. -/
theorem KeepsTail.release {e : List α} (h : KeepsTail tag before (e ++ buffer))
    (hover : overlap (e ++ buffer) tag ≤ buffer.length) : KeepsTail tag (before ++ e) buffer := by
  intro k hk hsuffix
  rw [List.append_assoc] at hsuffix
  have hsuffix := h k hk hsuffix
  have hle := le_overlap hk.le hsuffix
  refine List.suffix_of_suffix_length_le hsuffix (List.suffix_append _ _) ?_
  rw [List.length_take]
  omega

/-! ## Spans -/

/-- No span with the property covers the beginning of the tag at the end of a text. -/
def Uncovered (P : List α → List α → List α → Prop) (tag : List α) : Prop :=
  ∀ a w b e k, a ++ (w ++ b) = e ++ tag.take k → 0 < k → k < tag.length → P a w b → a.length ≤ e.length →
    ¬ e.length < a.length + w.length

omit [DecidableEq α] in
theorem split_at {a w b e s : List α} (h : a ++ (w ++ b) = e ++ s) (hle : a.length ≤ e.length)
    (hlt : e.length < a.length + w.length) : ∃ u v, w = u ++ v ∧ e = a ++ u ∧ s = v ++ b ∧ v ≠ [] := by
  obtain ⟨u, rfl, hu⟩ | ⟨u, rfl, hu⟩ := List.append_eq_append_iff.mp h
  · obtain ⟨v, rfl, hv⟩ | ⟨v, rfl, hv⟩ := List.append_eq_append_iff.mp hu
    · simp only [List.length_append] at hlt
      omega
    · refine ⟨u, v, rfl, rfl, hv, ?_⟩
      rintro rfl
      simp at hlt
  · obtain rfl : u = [] := by
      rw [List.length_append] at hle
      exact List.length_eq_zero_iff.mp (by omega)
    refine ⟨[], w, rfl, by simp, by simpa using hu, ?_⟩
    rintro rfl
    simp at hlt

omit [DecidableEq α] in
theorem uncovered_tags {tags : List (List α)} {P : List α → List α → List α → Prop} (hP : ∀ {a w b}, P a w b → w ∈ tags)
    (h : ∀ t ∈ tags, ¬ t <+: tag.dropLast ∧ ∀ x ∈ tag.head?, x ∉ t.tail) : Uncovered P tag := by
  intro a w b e k htext hpos hk hspan hle hlt
  obtain ⟨u, v, rfl, rfl, hs, hv⟩ := split_at htext hle hlt
  obtain ⟨hfront, hhead⟩ := h _ (hP hspan)
  obtain ⟨x, v, rfl⟩ := List.exists_cons_of_ne_nil hv
  cases u with
  | nil =>
    refine hfront ?_
    rw [List.dropLast_eq_take]
    have hle : tag.take k <+: tag.take (tag.length - 1) := List.take_prefix_take_left (by omega)
    have hstart : [] ++ x :: v <+: tag.take k := ⟨b, by rw [hs]; simp⟩
    exact hstart.trans hle
  | cons y u =>
    obtain ⟨k, rfl⟩ := Nat.exists_eq_succ_of_ne_zero (Nat.ne_of_gt hpos)
    cases tag with
    | nil => cases hs
    | cons z tag =>
      rw [List.take_succ_cons] at hs
      obtain ⟨rfl, -⟩ := List.cons.inj hs
      exact hhead z rfl (by simp)

omit [DecidableEq α] in
/-- Spans with text behind them that is in the tag at its beginning only. -/
theorem uncovered_behind {P : List α → List α → List α → Prop} (hP : ∀ {a w b}, P a w b → ∃ x ∈ b.head?, x ∉ tag.tail) :
    Uncovered P tag := by
  intro a w b e k htext hpos hk hspan hle hlt
  obtain ⟨u, v, rfl, rfl, hs, hv⟩ := split_at htext hle hlt
  obtain ⟨x, hx, hnot⟩ := hP hspan
  obtain ⟨y, v, rfl⟩ := List.exists_cons_of_ne_nil hv
  obtain ⟨k, rfl⟩ := Nat.exists_eq_succ_of_ne_zero (Nat.ne_of_gt hpos)
  cases tag with
  | nil => cases hs
  | cons z tag =>
    rw [List.take_succ_cons] at hs
    obtain ⟨-, hs⟩ := List.cons.inj hs
    have hmem : x ∈ tag.take k := hs ▸ List.mem_append_right _ (List.mem_of_head? hx)
    exact hnot (List.mem_of_mem_take hmem)

omit [DecidableEq α] in
/-- Spans with an end that is in the tag at its end only. -/
theorem uncovered_last {P : List α → List α → List α → Prop} (hP : ∀ {a w b}, P a w b → ∀ x ∈ w.getLast?, x ∉ tag.dropLast) :
    Uncovered P tag := by
  intro a w b e k htext hpos hk hspan hle hlt
  obtain ⟨u, v, rfl, rfl, hs, hv⟩ := split_at htext hle hlt
  have hlast := hP hspan (v.getLast hv) (by rw [List.getLast?_append_of_ne_nil _ hv]; exact List.getLast?_eq_some_getLast hv)
  refine hlast ?_
  have hmem : v.getLast hv ∈ tag.take k := hs ▸ List.mem_append_left _ (List.getLast_mem hv)
  rw [List.dropLast_eq_take]
  exact (List.take_subset_take_left tag (by omega)) hmem

omit [DecidableEq α] in
theorem Uncovered.or {P Q : List α → List α → List α → Prop} (hP : Uncovered P tag) (hQ : Uncovered Q tag) :
    Uncovered (fun a w b => P a w b ∨ Q a w b) tag := by
  intro a w b e k htext hpos hk hspan hle
  exact hspan.elim (fun h => hP a w b e k htext hpos hk h hle) fun h => hQ a w b e k htext hpos hk h hle

/-- A buffer that has space, and behind it the beginning of a tag that the reader waits for. -/
def Waits (space : α → Bool) (tags : List (List α)) (buffer : List α) : Prop :=
  ∃ w s, buffer = w ++ s ∧ (∀ x ∈ w, space x = true) ∧ (s = [] ∨ ∃ tag ∈ tags, ∃ k < tag.length, s = tag.take k)

omit [DecidableEq α] in
/-- The buffer has only space if and only if the text does not end with the beginning of a tag. -/
theorem skipped_buffer_iff {P : List α → List α → List α → Prop} {space : α → Bool} {tags : List (List α)}
    (hwaits : Waits space tags buffer) (hkeeps : ∀ tag ∈ tags, KeepsTail tag before buffer)
    (hspace : ∀ tag ∈ tags, ∀ x ∈ tag, space x = false) (hfree : ∀ tag ∈ tags, Uncovered P tag) :
    Skipped P space before buffer ↔ ∀ tag ∈ tags, ¬ EndsInside tag (before ++ buffer) := by
  constructor
  · rintro h tag htag ⟨k, hpos, hk, hsuffix⟩
    obtain ⟨u, hu⟩ := hkeeps tag htag k hk hsuffix
    obtain ⟨x, t, rfl⟩ := List.exists_cons_of_length_pos (Nat.zero_lt_of_lt hk)
    obtain ⟨j, rfl⟩ := Nat.exists_eq_succ_of_ne_zero (Nat.ne_of_gt hpos)
    have hx : buffer[u.length]? = some x := by
      rw [← hu, List.getElem?_append_right (Nat.le_refl _), Nat.sub_self]
      rfl
    obtain hx | ⟨a, w, b, htext, hspan, hlo, hhi⟩ := h _ x hx
    · rw [hspace _ htag x (List.mem_cons_self ..)] at hx
      cases hx
    · rw [← List.length_append] at hlo hhi
      refine hfree _ htag a w b (before ++ u) _ ?_ hpos hk hspan hlo hhi
      rw [← htext, ← hu, List.append_assoc]
  · intro h
    obtain ⟨w, s, rfl, hw, hs⟩ := hwaits
    obtain rfl | ⟨tag, htag, k, hk, rfl⟩ := hs
    · rw [List.append_nil]
      exact skipped_space hw
    · obtain rfl | hpos := Nat.eq_zero_or_pos k
      · rw [List.take_zero, List.append_nil]
        exact skipped_space hw
      · refine absurd ⟨k, hpos, hk, ?_⟩ (h tag htag)
        rw [← List.append_assoc]
        exact List.suffix_append _ _

theorem overlap_lt {s : List α} (h : cut tag s = none) : overlap s tag < tag.length := by
  refine Nat.lt_of_le_of_ne (overlap_le_delim s tag) fun heq => cut_eq_none_iff_absent.mp h ?_
  have hsuffix := overlap_suffix s tag
  rw [heq, List.take_length] at hsuffix
  exact hsuffix.isInfix

theorem withheld_eq (tag s : List α) : withheld tag s = tag.take (overlap s tag) := by
  obtain ⟨t, ht⟩ := overlap_suffix s tag
  have hlen := congrArg List.length ht
  rw [List.length_append, List.length_take, Nat.min_eq_left (overlap_le_delim s tag)] at hlen
  rw [withheld, show s.length - overlap s tag = t.length by omega]
  nth_rewrite 1 [← ht]
  exact List.drop_left

theorem waits_withheld {space : α → Bool} {tags : List (List α)} (htag : tag ∈ tags) {w s : List α} (h : cut tag s = none)
    (hw : ∀ x ∈ w, space x = true) : Waits space tags (w ++ withheld tag s) :=
  ⟨w, _, rfl, hw, .inr ⟨tag, htag, overlap s tag, overlap_lt h, withheld_eq tag s⟩⟩

/-- Without the tag in the text, what may be the beginning of the tag waits for it. -/
theorem waits_pending {space : α → Bool} {tags : List (List α)} (htag : tag ∈ tags) {s : List α} (h : cut tag s = none) :
    Waits space tags (pending space tag s) := waits_withheld htag h fun _ hx => List.mem_rtakeWhile_imp hx

theorem KeepsTail.pending {space : α → Bool} {s : List α} (h : KeepsTail tag before s) :
    KeepsTail tag (before ++ settled space tag s) (pending space tag s) := by
  refine KeepsTail.release ?_ (overlap_le_pending space tag s)
  rwa [settled_append_pending]

end Xdragon.Lib
