import Xdragon.Parser.Modelfile

/-!
# Values

What the parser reads as the value of a command, and which texts it reads back as they are.
-/

namespace Xdragon.Parser

open Xdragon.Lib (Bytes cut)
open Xdragon.Parsers (Str trimLeft trimRight)

/-! ## White space around a text -/

/-- White space only. -/
def White (s : Str) : Prop := ∀ x ∈ s, Lib.isSpace x = true

/-- A text with no white space at its ends. -/
def Trimmed (s : Str) : Prop := trimLeft s = s ∧ trimRight s = s

theorem trimLeft_white {w : Str} (hw : White w) (s : Str) : trimLeft (w ++ s) = trimLeft s := by
  unfold trimLeft
  rw [List.dropWhile_append_of_pos hw]

theorem trimRight_white {w : Str} (hw : White w) (s : Str) : trimRight (s ++ w) = trimRight s := by
  unfold trimRight List.rdropWhile
  rw [List.reverse_append, List.dropWhile_append_of_pos fun x hx => hw x (List.mem_reverse.mp hx)]

theorem trimLeft_cons {x : Char} (hx : Lib.isSpace x = false) (s : Str) : trimLeft (x :: s) = x :: s :=
  List.dropWhile_cons_of_neg (by simp [hx])

theorem trimRight_concat {x : Char} (hx : Lib.isSpace x = false) (s : Str) : trimRight (s ++ [x]) = s ++ [x] :=
  List.rdropWhile_concat_neg _ _ _ (by simp [hx])

theorem trimLeft_trimLeft (s : Str) : trimLeft (trimLeft s) = trimLeft s := List.dropWhile_idempotent _ _

theorem head_trimLeft {x : Char} {s t : Str} (h : trimLeft s = x :: t) : Lib.isSpace x = false := by
  by_contra hx
  rw [Bool.not_eq_false] at hx
  have hagain := trimLeft_trimLeft s
  rw [h, trimLeft, List.dropWhile_cons_of_pos hx] at hagain
  have := (List.dropWhile_suffix (l := t) Lib.isSpace).length_le
  rw [hagain, List.length_cons] at this
  omega

/-- A trimmed text keeps what is in front of it. -/
theorem trimRight_append {s t : Str} (hne : t ≠ []) (ht : trimRight t = t) : trimRight (s ++ t) = s ++ t := by
  obtain ⟨t, x, rfl⟩ := (List.eq_nil_or_concat' t).resolve_left hne
  have hx : Lib.isSpace x = false := by
    have h := List.rdropWhile_eq_self_iff.mp ht (by simp)
    simpa using h
  rw [← List.append_assoc, trimRight_concat hx]

theorem trimSpace_around {w s z : Str} (hw : White w) (hz : White z) (hs : Trimmed s) : trimSpace (w ++ s ++ z) = s := by
  unfold trimSpace
  rw [List.append_assoc, trimLeft_white hw]
  cases s with
  | nil =>
    have hnone : trimLeft z = [] := List.dropWhile_eq_nil_iff.mpr hz
    rw [List.nil_append, hnone]
    rfl
  | cons x s => rw [List.cons_append, trimLeft_cons (head_trimLeft hs.1), ← List.cons_append, trimRight_white hz, hs.2]

theorem trimSpace_white {w : Str} (hw : White w) : trimSpace w = [] := by
  have h := trimSpace_around (s := []) (z := []) hw nofun ⟨rfl, rfl⟩
  rwa [List.append_nil, List.append_nil] at h

theorem trimSpace_of_trimmed {s : Str} (hs : Trimmed s) : trimSpace s = s := by
  have h := trimSpace_around (w := []) (z := []) nofun nofun hs
  rwa [List.append_nil] at h

/-- A text is a trimmed text with white space around it. -/
theorem exists_around (s : Str) : ∃ w z, White w ∧ White z ∧ s = w ++ trimSpace s ++ z := by
  refine ⟨s.takeWhile Lib.isSpace, (trimLeft s).rtakeWhile Lib.isSpace, fun x hx => List.mem_takeWhile_imp hx,
    fun x hx => List.mem_rtakeWhile_imp hx, ?_⟩
  have hright : trimSpace s ++ (trimLeft s).rtakeWhile Lib.isSpace = trimLeft s := List.rdropWhile_append_rtakeWhile
  rw [List.append_assoc, hright]
  exact List.takeWhile_append_dropWhile.symm

theorem trimmed_trimSpace (s : Str) : Trimmed (trimSpace s) := by
  refine ⟨?_, List.rdropWhile_idempotent _ _⟩
  cases h : trimSpace s with
  | nil => rfl
  | cons x t =>
    obtain ⟨z, hz⟩ := List.rdropWhile_prefix (l := trimLeft s) Lib.isSpace
    have hhead : trimLeft s = x :: (t ++ z) := by
      rw [← hz, ← List.cons_append, ← h]
      rfl
    exact trimLeft_cons (head_trimLeft hhead) t

theorem quote_trimSpace {s : Str} : ['"'] <+: trimSpace s ↔ ∃ w t, White w ∧ s = w ++ '"' :: t := by
  constructor
  · rintro ⟨t, ht⟩
    obtain ⟨w, z, hw, -, hs⟩ := exists_around s
    refine ⟨w, t ++ z, hw, ?_⟩
    rw [hs, ← ht]
    simp
  · rintro ⟨w, t, hw, rfl⟩
    have hleft : trimLeft (w ++ '"' :: t) = '"' :: t := by rw [trimLeft_white hw, trimLeft_cons (by decide)]
    obtain ⟨z, hz⟩ := List.rdropWhile_prefix (l := '"' :: t) Lib.isSpace
    rw [trimSpace, hleft]
    cases hright : trimRight ('"' :: t) with
    | nil =>
      have hwhite := List.rdropWhile_eq_nil_iff.mp hright '"' (List.mem_cons_self ..)
      cases hwhite
    | cons x m =>
      rw [show ('"' :: t).rdropWhile Lib.isSpace = x :: m from hright, List.cons_append, List.cons.injEq] at hz
      rw [hz.1]
      exact ⟨m, rfl⟩

theorem quote_trimSpace_append {s : Str} (h : ['"'] <+: trimSpace s) (t : Str) : ['"'] <+: trimSpace (s ++ t) := by
  obtain ⟨w, r, hw, rfl⟩ := quote_trimSpace.mp h
  exact quote_trimSpace.mpr ⟨w, r ++ t, hw, by simp⟩

/-! ## Quotes -/

theorem quotes_eq : quotes = ['"', '"', '"'] := rfl

theorem quotes_opened {s : Str} : s.length ≥ 3 ∧ s.take 3 = quotes ↔ quotes <+: s := by
  rw [List.prefix_iff_eq_take]
  constructor
  · rintro ⟨-, h⟩
    exact h.symm
  · intro h
    have hlen := congrArg List.length h
    rw [List.length_take] at hlen
    have h3 : quotes.length = 3 := rfl
    exact ⟨by omega, h.symm⟩

theorem quotes_closed {s : Str} : s.length ≥ 6 ∧ s.drop (s.length - 3) = quotes ↔ s.length ≥ 6 ∧ quotes <:+ s := by
  rw [List.suffix_iff_eq_drop, eq_comm (a := quotes)]
  rfl

theorem quote_opened {s : Str} : s.length ≥ 1 ∧ s.head? = some '"' ↔ ['"'] <+: s := by
  cases s <;> simp [List.cons_prefix_cons, eq_comm]

theorem quote_closed {s : Str} : s.length ≥ 2 ∧ s.getLast? = some '"' ↔ s.length ≥ 2 ∧ ['"'] <:+ s := by
  obtain rfl | ⟨s, x, rfl⟩ := List.eq_nil_or_concat' s
  · simp
  · have hlast : ['"'] <:+ s ++ [x] ↔ x = '"' := by
      constructor
      · rintro ⟨t, ht⟩
        exact (List.cons.inj (List.append_inj' ht rfl).2).1.symm
      · rintro rfl
        exact List.suffix_append ..
    simp [hlast]

theorem unquote_eq (s : Str) : unquote s =
    if quotes <+: s then if s.length ≥ 6 ∧ quotes <:+ s then some ((s.drop 3).take (s.length - 6)) else none
    else if ['"'] <+: s then if s.length ≥ 2 ∧ ['"'] <:+ s then some ((s.drop 1).take (s.length - 2)) else none
    else some s := by
  unfold unquote
  simp only [quotes_opened, quotes_closed, quote_opened, quote_closed]

theorem quotes_of_not_quote {s : Str} (h : ¬ ['"'] <+: s) : ¬ quotes <+: s := fun hs =>
  h (List.IsPrefix.trans ⟨['"', '"'], rfl⟩ hs)

theorem unquote_plain {s : Str} (h : ¬ ['"'] <+: s) : unquote s = some s := by
  rw [unquote_eq, if_neg (quotes_of_not_quote h), if_neg h]

theorem unquote_triple (s : Str) : unquote (quotes ++ s ++ quotes) = some s := by
  have hlen : (quotes ++ s ++ quotes).length = s.length + 6 := by simp [quotes_eq]
  have hdrop : (quotes ++ s ++ quotes).drop 3 = s ++ quotes := rfl
  rw [unquote_eq, if_pos ⟨s ++ quotes, by rw [List.append_assoc]⟩, if_pos ⟨by omega, List.suffix_append ..⟩, hdrop, hlen,
    Nat.add_sub_cancel, List.take_left]

theorem unquote_single {s : Str} (h : ¬ quotes <+: '"' :: s ++ ['"']) : unquote ('"' :: s ++ ['"']) = some s := by
  have hlen : ('"' :: s ++ ['"']).length = s.length + 2 := by simp
  have hdrop : ('"' :: s ++ ['"']).drop 1 = s ++ ['"'] := rfl
  rw [unquote_eq, if_neg h, if_pos ⟨s ++ ['"'], rfl⟩, if_pos ⟨by omega, List.suffix_append ..⟩, hdrop, hlen,
    Nat.add_sub_cancel, List.take_left]

theorem unquote_triple_none {s : Str} (h : ¬ quotes <:+ s) : unquote (quotes ++ s) = none := by
  rw [unquote_eq, if_pos (List.prefix_append ..), if_neg]
  rintro ⟨hlen, hsuf⟩
  rw [List.length_append] at hlen
  have h3 : quotes.length = 3 := rfl
  exact h (List.suffix_of_suffix_length_le hsuf (List.suffix_append ..) (by omega))

theorem unquote_single_none {s : Str} (h : '"' ∉ s) : unquote ('"' :: s) = none := by
  have hquotes : ¬ quotes <+: '"' :: s := by
    rw [quotes_eq, List.cons_prefix_cons]
    rintro ⟨-, hs⟩
    exact h (hs.mem (by simp))
  rw [unquote_eq, if_neg hquotes, if_pos ⟨s, rfl⟩, if_neg]
  rintro ⟨hlen, hsuf⟩
  rw [List.length_cons] at hlen
  have hs : ['"'] <:+ s := List.suffix_of_suffix_length_le hsuf (List.suffix_cons ..) (by simpa using hlen)
  exact h (hs.mem (by simp))

/-- What is read is the text itself or what is in one pair of quotes or in three. -/
theorem unquote_cases {s a : Str} (h : unquote s = some a) :
    (¬ ['"'] <+: s ∧ s = a) ∨ s = quotes ++ a ++ quotes ∨ (¬ quotes <+: s ∧ s = '"' :: a ++ ['"']) := by
  have h3 : quotes.length = 3 := rfl
  rw [unquote_eq] at h
  split_ifs at h with hpre hsuf hpre' hsuf'
  · obtain ⟨t, rfl⟩ := hpre
    have hlen := hsuf.1
    rw [List.length_append] at hlen
    obtain ⟨m, rfl⟩ : quotes <:+ t := List.suffix_of_suffix_length_le hsuf.2 (List.suffix_append ..) (by omega)
    rw [← List.append_assoc] at h ⊢
    have hm := unquote_triple m
    rw [unquote_eq, if_pos ⟨m ++ quotes, by rw [List.append_assoc]⟩, if_pos (by rwa [List.append_assoc]), h] at hm
    rw [Option.some.inj hm]
    exact .inr (.inl rfl)
  · obtain ⟨t, rfl⟩ := hpre'
    have hlen := hsuf'.1
    rw [List.length_append, List.length_singleton] at hlen
    obtain ⟨m, rfl⟩ : ['"'] <:+ t :=
      List.suffix_of_suffix_length_le hsuf'.2 (List.suffix_append ..) (by rw [List.length_singleton]; omega)
    change ¬ quotes <+: '"' :: m ++ ['"'] at hpre
    change ('"' :: m ++ ['"']).length ≥ 2 ∧ ['"'] <:+ '"' :: m ++ ['"'] at hsuf'
    have hm := unquote_single hpre
    rw [unquote_eq, if_neg hpre, if_pos ⟨m ++ ['"'], rfl⟩, if_pos hsuf'] at hm
    rw [← Option.some.inj (hm.symm.trans h)]
    exact .inr (.inr ⟨hpre, rfl⟩)
  · exact .inl ⟨hpre', Option.some.inj h⟩

/-! ## Values -/

variable (u : Unicode)

/-- The runes that a value keeps. -/
def kept (r : Char) : Bool := isNewline r || isSpace r || u.isPrint r

/-- The argument that is read from the rest of a value, and the text after it. -/
@[grind =]
def valueFrom : Str → Str → Option (Str × Str)
  | b, [] => (unquote (trimSpace b)).map fun s => (s, [])
  | b, r :: text =>
    if isNewline r then
      match unquote (trimSpace b) with
      | none => valueFrom (b ++ [r]) text
      | some s => some (s, text)
    else valueFrom (if isSpace r ∨ u.isPrint r then b ++ [r] else b) text

/-- A value that is not complete at any of its newlines. -/
def Open (b : Str) : Prop := ∀ p n q, b = p ++ n :: q → isNewline n = true → unquote (trimSpace p) = none

theorem Open.concat {b : Str} {r : Char} (h : Open b) (hr : isNewline r = true → unquote (trimSpace b) = none) :
    Open (b ++ [r]) := by
  intro p n q hb hn
  obtain rfl | ⟨q, x, rfl⟩ := List.eq_nil_or_concat' q
  · obtain ⟨rfl, hx⟩ := List.append_inj' hb rfl
    cases hx
    exact hr hn
  · rw [← List.cons_append, ← List.append_assoc] at hb
    exact h p n q (List.append_inj' hb rfl).1 hn

theorem valueFrom_newline_none {b : Str} {r : Char} (hr : isNewline r = true) (h : unquote (trimSpace b) = none) (text : Str) :
    valueFrom u b (r :: text) = valueFrom u (b ++ [r]) text := by
  rw [valueFrom, if_pos hr, h]

theorem valueFrom_newline_some {b s : Str} {r : Char} (hr : isNewline r = true) (h : unquote (trimSpace b) = some s)
    (text : Str) : valueFrom u b (r :: text) = some (s, text) := by
  rw [valueFrom, if_pos hr, h]

theorem valueFrom_other {b : Str} {r : Char} (hr : isNewline r = false) (text : Str) :
    valueFrom u b (r :: text) = valueFrom u (if kept u r then b ++ [r] else b) text := by
  rw [valueFrom, if_neg (by simp [hr])]
  simp [kept, hr]

/-- An open value is read into the buffer. -/
theorem valueFrom_open {b v : Str} (hopen : Open (b ++ v)) (hv : ∀ r ∈ v, kept u r = true) (text : Str) :
    valueFrom u b (v ++ text) = valueFrom u (b ++ v) text := by
  induction v generalizing b with
  | nil => rw [List.append_nil, List.nil_append]
  | cons r v ih =>
    have hnext := ih (b := b ++ [r]) (by rwa [List.append_cons] at hopen) fun x hx => hv x (List.mem_cons_of_mem _ hx)
    rw [← List.append_cons] at hnext
    rw [← hnext, List.cons_append]
    cases hr : isNewline r with
    | true => exact valueFrom_newline_none u hr (hopen b r v rfl hr) _
    | false => rw [valueFrom_other u hr, if_pos (hv r (List.mem_cons_self ..))]

/-- The buffer at the end of a value. -/
theorem valueFrom_eq_some {b text s t : Str} (h : valueFrom u b text = some (s, t)) (hb : Open b) :
    ∃ p, p <+: text.filter (kept u) ∧ Open (b ++ p) ∧ unquote (trimSpace (b ++ p)) = some s := by
  induction text generalizing b with
  | nil =>
    rw [valueFrom] at h
    obtain ⟨s', hs, heq⟩ := Option.map_eq_some_iff.mp h
    cases heq
    exact ⟨[], List.nil_prefix, by rwa [List.append_nil], by rwa [List.append_nil]⟩
  | cons r text ih =>
    have hpush : kept u r = true → valueFrom u (b ++ [r]) text = some (s, t) →
        (isNewline r = true → unquote (trimSpace b) = none) →
        ∃ p, p <+: (r :: text).filter (kept u) ∧ Open (b ++ p) ∧ unquote (trimSpace (b ++ p)) = some s := by
      intro hr h hnone
      obtain ⟨p, hp, hopen, hs⟩ := ih h (hb.concat hnone)
      rw [← List.append_cons] at hopen hs
      refine ⟨r :: p, ?_, hopen, hs⟩
      rw [List.filter_cons_of_pos hr]
      exact List.cons_prefix_cons.mpr ⟨rfl, hp⟩
    cases hr : isNewline r with
    | true =>
      cases hs : unquote (trimSpace b) with
      | none =>
        rw [valueFrom_newline_none u hr hs] at h
        exact hpush (by simp [kept, hr]) h fun _ => hs
      | some s' =>
        rw [valueFrom_newline_some u hr hs] at h
        cases h
        exact ⟨[], List.nil_prefix, by rwa [List.append_nil], by rwa [List.append_nil]⟩
    | false =>
      rw [valueFrom_other u hr] at h
      split_ifs at h with hk
      · exact hpush hk h (by simp [hr])
      · rw [List.filter_cons_of_neg hk]
        exact ih h hb

/-! ## Values that are read back -/

/-- A text that is read back as it is without quotes. -/
def Bare (s : Str) : Prop := (∀ r ∈ s, isNewline r = false) ∧ trimSpace s = s ∧ ¬ ['"'] <+: s

instance : DecidablePred Bare := fun s =>
  inferInstanceAs (Decidable ((∀ r ∈ s, isNewline r = false) ∧ trimSpace s = s ∧ ¬ ['"'] <+: s))

/-- Three quotes never end a line of the text. -/
def Unclosed (s : Str) : Prop := ∀ w n, White w → isNewline n = true → ¬ quotes ++ w ++ [n] <:+: s

theorem Unclosed.infix {s t : Str} (h : Unclosed s) (ht : t <:+: s) : Unclosed t := fun w n hw hn hi => h w n hw hn (hi.trans ht)

theorem isNewline_newline : isNewline '\n' = true := rfl

theorem kept_quote : kept u '"' = true := by
  have h := u.isPrint_ascii '"' (by decide)
  simp [kept, h]

theorem valueFrom_line {v s : Str} (hopen : Open v) (hv : ∀ r ∈ v, kept u r = true) (hs : unquote (trimSpace v) = some s)
    (text : Str) : valueFrom u [] (v ++ '\n' :: text) = some (s, text) := by
  rw [valueFrom_open u (b := []) hopen hv, List.nil_append]
  exact valueFrom_newline_some u isNewline_newline hs text

/-- A text that is read back as it is when it is written as it is. -/
theorem valueFrom_bare {s : Str} (h : Bare s) (hkept : ∀ r ∈ s, kept u r = true) (text : Str) :
    valueFrom u [] (s ++ '\n' :: text) = some (s, text) := by
  obtain ⟨hline, htrim, hquote⟩ := h
  refine valueFrom_line u ?_ hkept (by rw [htrim, unquote_plain hquote]) text
  intro p n q hs hn
  have := hline n (by rw [hs]; simp)
  rw [this] at hn
  cases hn

/-- A line is not in a text that repeats without one. -/
theorem not_prefix_shift {v s t : Str} (hv : '\n' ∉ v) (hne : v ≠ []) : ¬ s ++ ['\n'] <+: v ++ s ++ t := by
  induction hn : s.length using Nat.strong_induction_on generalizing s t with
  | _ n ih =>
    subst hn
    intro h
    rw [List.append_assoc] at h
    by_cases hlen : s.length < v.length
    · have hpre := List.prefix_of_prefix_length_le h (List.prefix_append ..) (by simp; omega)
      exact hv (hpre.mem (by simp))
    · obtain ⟨r, rfl⟩ := List.prefix_of_prefix_length_le (List.prefix_append v (s ++ t))
        ((List.prefix_append s ['\n']).trans h) (by omega)
      have hpos := List.length_pos_iff.mpr hne
      refine ih r.length (by rw [List.length_append]; omega) rfl (t := t) ?_
      rw [List.append_assoc, List.prefix_append_right_inj] at h
      exact h

/-- Where a text that is written as it is is read back, no quotes were needed. -/
theorem bare_of_valueFrom {s rest t : Str} (hkept : ∀ r ∈ s, kept u r = true)
    (h : valueFrom u [] (s ++ '\n' :: rest) = some (s, t)) : Bare s := by
  obtain ⟨p, hp, hopen, hs⟩ := valueFrom_eq_some u h (by intro p n q hb; simp at hb)
  rw [List.nil_append] at hopen hs
  have hfilter : (s ++ '\n' :: rest).filter (kept u) = s ++ '\n' :: rest.filter (kept u) := by
    rw [List.filter_append, List.filter_eq_self.mpr hkept, List.filter_cons_of_pos (by simp [kept, isNewline_newline])]
  rw [hfilter] at hp
  obtain ⟨w, z, hw, hz, haround⟩ := exists_around p
  have hquoted : ∀ q : Str, q ≠ [] → '\n' ∉ q → trimSpace p ≠ q ++ s ++ q := by
    intro q hne hq heq
    rw [heq] at haround
    have hnl : '\n' ∉ w := by
      intro hmem
      obtain ⟨w1, w2, rfl⟩ := List.append_of_mem hmem
      have hnone := hopen w1 '\n' (w2 ++ (q ++ s ++ q) ++ z) (by rw [haround]; simp) isNewline_newline
      rw [trimSpace_white fun x hx => hw x (by simp [hx])] at hnone
      cases hnone
    refine not_prefix_shift (v := w ++ q) (s := s) (t := q) (by simp [hnl, hq]) (by simp [hne]) ?_
    have hlong : w ++ q ++ s ++ q <+: s ++ '\n' :: rest.filter (kept u) := by
      refine List.IsPrefix.trans ⟨z, ?_⟩ hp
      rw [haround]
      simp
    refine List.prefix_of_prefix_length_le ⟨rest.filter (kept u), by simp⟩ hlong ?_
    have := List.length_pos_iff.mpr hne
    simp only [List.length_append, List.length_singleton]
    omega
  obtain ⟨hplain, htrim⟩ | htriple | ⟨-, hsingle⟩ := unquote_cases hs
  · have hline : ∀ n ∈ p, isNewline n = false := by
      intro n hn
      by_contra hnl
      rw [Bool.not_eq_false] at hnl
      obtain ⟨p1, p2, rfl⟩ := List.append_of_mem hn
      have hnone := hopen p1 n p2 rfl hnl
      rw [unquote_plain fun hq => hplain (quote_trimSpace_append hq _)] at hnone
      cases hnone
    have hps : p <+: s := by
      by_contra hnot
      have hlong : s ++ ['\n'] <+: p := by
        refine List.prefix_of_prefix_length_le ⟨rest.filter (kept u), by simp⟩ hp ?_
        by_contra hlen
        rw [List.length_append, List.length_singleton] at hlen
        exact hnot (List.prefix_of_prefix_length_le hp (List.prefix_append ..) (by omega))
      have := hline '\n' (hlong.mem (by simp))
      rw [isNewline_newline] at this
      cases this
    have hlen := congrArg List.length haround
    rw [htrim] at hlen haround
    simp only [List.length_append] at hlen
    have hle := hps.length_le
    have heq := hps.eq_of_length (by omega)
    subst heq
    exact ⟨hline, htrim, by rwa [htrim] at hplain⟩
  · exact absurd htriple (hquoted quotes (by decide) (by decide))
  · exact absurd hsingle (hquoted ['"'] (by decide) (by decide))

/-! ## Values in quotes -/

theorem trimLeft_opened {s t : Str} (ht : trimLeft t = t) (h : s <+: t) : trimLeft s = s := by
  cases s with
  | nil => rfl
  | cons x s =>
    obtain ⟨r, rfl⟩ := h
    exact trimLeft_cons (head_trimLeft ht) s

/-- What is read from a buffer that was open has no line that ends in three quotes. -/
theorem unclosed_of_open {b s : Str} (hb : Open b) (h : unquote (trimSpace b) = some s) : Unclosed s := by
  rintro w n hw hn ⟨front, back, hs⟩
  obtain ⟨v, z, hv, -, haround⟩ := exists_around b
  have hclosed : ∀ q, trimSpace b = q ++ s ++ q →
      q ++ front ++ quotes <+: trimSpace b ∧ unquote (q ++ front ++ quotes) = none := by
    intro q heq
    have hpre : q ++ front ++ quotes <+: trimSpace b := ⟨w ++ [n] ++ back ++ q, by rw [heq, ← hs]; simp⟩
    have hnone := hb (v ++ (q ++ front ++ quotes) ++ w) n (back ++ q ++ z) (by rw [haround, heq, ← hs]; simp) hn
    have htrimmed : Trimmed (q ++ front ++ quotes) :=
      ⟨trimLeft_opened (trimmed_trimSpace b).1 hpre, trimRight_append (by decide) (by decide)⟩
    rw [trimSpace_around hv hw htrimmed] at hnone
    exact ⟨hpre, hnone⟩
  obtain ⟨hplain, heq⟩ | htriple | ⟨hpair, hsingle⟩ := unquote_cases h
  · obtain ⟨hpre, hnone⟩ := hclosed [] (by simpa using heq)
    rw [unquote_plain fun hq => hplain (hq.trans hpre)] at hnone
    cases hnone
  · obtain ⟨-, hnone⟩ := hclosed quotes htriple
    rw [unquote_triple] at hnone
    cases hnone
  · obtain ⟨hpre, hnone⟩ := hclosed ['"'] hsingle
    have hsplit : ['"'] ++ front ++ quotes = '"' :: (front ++ ['"', '"']) ++ ['"'] := by simp [quotes_eq]
    rw [hsplit] at hpre hnone
    rw [unquote_single fun hq => hpair (hq.trans hpre)] at hnone
    cases hnone

section
variable {q s : Str} (hne : q ≠ []) (hq : ∀ x ∈ q, x = '"')
include hne hq

theorem trimLeft_quoted (t : Str) : trimLeft (q ++ t) = q ++ t := by
  obtain ⟨x, q, rfl⟩ := List.exists_cons_of_ne_nil hne
  rw [List.cons_append]
  refine trimLeft_cons ?_ _
  rw [hq x (List.mem_cons_self ..)]
  rfl

omit hne in
theorem trimRight_quotes : trimRight q = q := by
  refine List.rdropWhile_eq_self_iff.mpr fun h => ?_
  rw [hq _ (List.getLast_mem h)]
  decide

theorem trimSpace_quoted (t : Str) : trimSpace (q ++ t) = q ++ trimRight t := by
  have hsplit : trimRight t ++ t.rtakeWhile Lib.isSpace = t := List.rdropWhile_append_rtakeWhile
  rw [trimSpace, trimLeft_quoted hne hq]
  nth_rewrite 1 [← hsplit]
  rw [← List.append_assoc, trimRight_white fun x hx => List.mem_rtakeWhile_imp hx]
  cases hright : trimRight t with
  | nil => rw [List.append_nil, trimRight_quotes hq]
  | cons x r => exact trimRight_append nofun (hright ▸ List.rdropWhile_idempotent _ t)

/-- The newlines of a quoted text are in the text. -/
theorem open_quoted (h : ∀ p n r, s = p ++ n :: r → isNewline n = true → unquote (q ++ trimRight p) = none) :
    Open (q ++ s ++ q) := by
  intro p n r hb hn
  have hnot : n ∉ q := by
    intro hmem
    rw [hq n hmem] at hn
    cases hn
  have hinside : ∃ r', q ++ s = p ++ n :: r' := by
    obtain ⟨m, -, hm⟩ | ⟨m, hm, hr⟩ := List.append_eq_append_iff.mp hb
    · exact absurd (by rw [hm]; simp) hnot
    · cases m with
      | nil => exact absurd (by rw [show q = n :: r from hr.symm]; simp) hnot
      | cons x m =>
        cases hr
        exact ⟨m, hm⟩
  obtain ⟨r', hr'⟩ := hinside
  have hbehind : ∃ p', p = q ++ p' ∧ s = p' ++ n :: r' := by
    obtain ⟨m, hp, hs⟩ | ⟨m, hm, hs⟩ := List.append_eq_append_iff.mp hr'
    · exact ⟨m, hp, hs⟩
    · cases m with
      | nil => exact ⟨[], by rw [hm]; simp, hs.symm⟩
      | cons x m =>
        cases hs
        exact absurd (by rw [hm]; simp) hnot
  obtain ⟨p', rfl, hs⟩ := hbehind
  rw [trimSpace_quoted hne hq]
  exact h p' n r' hs hn

end

/-- A text in quotes is read back as it is, if none of its lines ends the value. -/
theorem valueFrom_quoted {q s : Str} (hne : q ≠ []) (hq : ∀ x ∈ q, x = '"')
    (hlines : ∀ p n r, s = p ++ n :: r → isNewline n = true → unquote (q ++ trimRight p) = none)
    (hread : unquote (q ++ s ++ q) = some s) (hkept : ∀ r ∈ s, kept u r = true) (text : Str) :
    valueFrom u [] (q ++ s ++ q ++ '\n' :: text) = some (s, text) := by
  refine valueFrom_line u (open_quoted hne hq hlines) ?_ ?_ text
  · intro r hr
    simp only [List.mem_append] at hr
    obtain (hr | hr) | hr := hr
    · exact hq r hr ▸ kept_quote u
    · exact hkept r hr
    · exact hq r hr ▸ kept_quote u
  · rwa [trimSpace_of_trimmed]
    exact ⟨by rw [List.append_assoc]; exact trimLeft_quoted hne hq _,
      trimRight_append hne (trimRight_quotes hq)⟩

/-- A text that the printer puts in quotes is read back as it is. -/
theorem valueFrom_quote {s : Str} (hneeds : needsQuotes s = true) (hkept : ∀ r ∈ s, kept u r = true) (hs : Unclosed s)
    (text : Str) : valueFrom u [] (quote s ++ '\n' :: text) = some (s, text) := by
  have hquoted : ∀ q : Str, q ≠ [] → (∀ x ∈ q, x = '"') →
      (∀ p n r, s = p ++ n :: r → isNewline n = true → unquote (q ++ trimRight p) = none) →
      unquote (q ++ s ++ q) = some s → quote s = q ++ s ++ q →
      valueFrom u [] (quote s ++ '\n' :: text) = some (s, text) := by
    intro q hne hq hlines hread heq
    rw [heq]
    exact valueFrom_quoted u hne hq hlines hread hkept text
  have hnonempty : s ≠ [] := by
    rintro rfl
    cases hneeds
  cases hmem : s.contains '"' with
  | true =>
    refine hquoted quotes (by decide) (by simp [quotes_eq]) ?_ (unquote_triple s) (by rw [quote, if_pos hneeds, if_pos hmem])
    intro p n r hp hn
    refine unquote_triple_none ?_
    rintro ⟨m, hm⟩
    have hsplit : trimRight p ++ p.rtakeWhile Lib.isSpace = p := List.rdropWhile_append_rtakeWhile
    refine hs (p.rtakeWhile Lib.isSpace) n (fun x hx => List.mem_rtakeWhile_imp hx) hn ⟨m, r, ?_⟩
    rw [hp]
    nth_rewrite 2 [← hsplit]
    rw [← hm]
    simp
  | false =>
    have hnot : '"' ∉ s := by simpa using hmem
    refine hquoted ['"'] (by decide) (by simp) ?_ (unquote_single ?_) (by rw [quote, if_pos hneeds, if_neg (by simp [hnot])]; rfl)
    · intro p n r hp hn
      refine unquote_single_none fun hq => hnot ?_
      rw [hp]
      exact List.mem_append_left _ ((List.rdropWhile_prefix _ _).mem hq)
    · obtain ⟨x, t, rfl⟩ := List.exists_cons_of_ne_nil hnonempty
      change ¬ ['"', '"', '"'] <+: '"' :: x :: (t ++ ['"'])
      rw [List.cons_prefix_cons, List.cons_prefix_cons]
      rintro ⟨-, hx, -⟩
      exact hnot (List.mem_cons.mpr (.inl hx))

end Xdragon.Parser
