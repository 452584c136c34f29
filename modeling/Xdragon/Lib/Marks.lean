import Xdragon.Lib.Rounds
import Xdragon.Lib.Tags

/-!
# What becomes of a text

A reader writes a text to its buffer in pieces and takes it from the start of the buffer in rounds. What an event returns stands
first in a round, and the rest of what the round takes is dropped. Every element of the text is marked with what became of it.
-/

namespace Xdragon.Lib

/-- An element that was not returned was lost with an error, dropped, or is still in the buffer. -/
inductive Mark where
  | returned
  | lost
  | dropped
  | kept
  deriving DecidableEq

structure TextReader (σ ε α : Type*) where
  buffer : σ → List α
  write : σ → List α → σ
  eat : σ → List ε × σ × Bool
  /-- As many rounds as the text in the buffer and a piece need. -/
  bound : σ → List α → Nat
  /-- The part of the text that is in an event. -/
  text : ε → List α
  /-- The number of the events of a piece that are returned. -/
  answered : List ε → Nat

/-! ## Spans -/

section
variable {α : Type*}

/-- The place is in a span with the property, which looks at the text before the span, the span and the text behind it. -/
def Covered (P : List α → List α → List α → Prop) (text : List α) (i : Nat) : Prop :=
  ∃ a w b, text = a ++ (w ++ b) ∧ P a w b ∧ a.length ≤ i ∧ i < a.length + w.length

variable {P : List α → List α → List α → Prop} {space : α → Bool}

/-- A text behind other text has only space and spans. -/
def Skipped (P : List α → List α → List α → Prop) (space : α → Bool) (before text : List α) : Prop :=
  ∀ i x, text[i]? = some x → space x = true ∨ Covered P (before ++ text) (before.length + i)

/-- Marks behind a text: what was dropped are spaces and spans. -/
def Accounted (P : List α → List α → List α → Prop) (space : α → Bool) (before : List α) (marks : List (α × Mark)) : Prop :=
  (∀ i x, marks[i]? = some (x, .dropped) → space x = true ∨ Covered P (before ++ marks.map Prod.fst) (before.length + i)) ∧
    ∀ m ∈ marks, m.2 ≠ .kept

/-- Every element but space and those of spans has been returned. -/
def Drained (P : List α → List α → List α → Prop) (space : α → Bool) (marks : List (α × Mark)) : Prop :=
  ∀ i x mark, marks[i]? = some (x, mark) → space x = false → ¬ Covered P (marks.map Prod.fst) i → mark = .returned

theorem skipped_space {before text : List α} (h : ∀ x ∈ text, space x = true) : Skipped P space before text :=
  fun _ x hx => .inl (h x (List.mem_of_getElem? hx))

theorem skipped_span {before text : List α} (h : P before text []) : Skipped P space before text := by
  intro i x hx
  obtain ⟨hlt, -⟩ := List.getElem?_eq_some_iff.mp hx
  exact .inr ⟨before, text, [], by simp, h, by omega, by omega⟩

/-- The rest of a span that began earlier, and what comes behind it. -/
theorem skipped_rest {a before rest text : List α} (h : P a (before ++ rest) text)
    (htext : Skipped P space (a ++ (before ++ rest)) text) : Skipped P space (a ++ before) (rest ++ text) := by
  intro i x hx
  obtain hlt | hle := Nat.lt_or_ge i rest.length
  · refine .inr ⟨a, before ++ rest, text, by simp, h, ?_, ?_⟩
    · rw [List.length_append]
      omega
    · simp only [List.length_append]
      omega
  · rw [List.getElem?_append_right hle] at hx
    have := htext _ x hx
    rwa [show (a ++ (before ++ rest)).length + (i - rest.length) = (a ++ before).length + i by
      simp only [List.length_append]
      omega, show a ++ (before ++ rest) ++ text = a ++ before ++ (rest ++ text) by simp] at this

section
variable (hmore : ∀ {a w b : List α} (c), P a w b → P a w (b ++ c))
include hmore

theorem Covered.append {text : List α} {i : Nat} (h : Covered P text i) (c : List α) : Covered P (text ++ c) i := by
  obtain ⟨a, w, b, rfl, hspan, hlo, hhi⟩ := h
  exact ⟨a, w, b ++ c, by simp, hmore c hspan, hlo, hhi⟩

theorem Skipped.append {before a b : List α} (ha : Skipped P space before a) (hb : Skipped P space (before ++ a) b) :
    Skipped P space before (a ++ b) := by
  intro i x hx
  obtain hlt | hle := Nat.lt_or_ge i a.length
  · rw [List.getElem?_append_left hlt] at hx
    refine (ha i x hx).imp_right fun h => ?_
    rw [← List.append_assoc]
    exact h.append hmore b
  · rw [List.getElem?_append_right hle] at hx
    have := hb _ x hx
    rwa [List.length_append, List.append_assoc, show before.length + a.length + (i - a.length) = before.length + i by omega]
      at this

theorem Accounted.append {before : List α} {m m' : List (α × Mark)} (h : Accounted P space before m)
    (h' : Accounted P space (before ++ m.map Prod.fst) m') : Accounted P space before (m ++ m') := by
  refine ⟨fun i x hx => ?_, fun x hx => (List.mem_append.mp hx).elim (h.2 x) (h'.2 x)⟩
  rw [List.map_append]
  obtain hlt | hle := Nat.lt_or_ge i m.length
  · rw [List.getElem?_append_left hlt] at hx
    refine (h.1 i x hx).imp_right fun h => ?_
    rw [← List.append_assoc]
    exact h.append hmore _
  · rw [List.getElem?_append_right hle] at hx
    have := h'.1 _ x hx
    rwa [List.length_append, List.length_map, List.append_assoc,
      show before.length + m.length + (i - m.length) = before.length + i by omega] at this

end

end

namespace TextReader

variable {σ ε α : Type*} (R : TextReader σ ε α)

/-- What the events return. -/
def said (es : List ε) : List α := es.flatMap R.text

/-- What a round takes from the buffer behind the text of its events. -/
def skipped (p : σ) : List α :=
  let rest := (R.buffer p).drop (R.said (R.eat p).1).length
  rest.take (rest.length - (R.buffer (R.eat p).2.1).length)

/-- A round, with what it skips. -/
def take (p : σ) : (List ε × List α) × σ × Bool := (((R.eat p).1, R.skipped p), (R.eat p).2)

/-- The marks of what a round takes, when a number of its events are returned. -/
def roundMarks (n : Nat) (es : List ε) (skipped : List α) : List (α × Mark) :=
  (R.said (es.take n)).map (·, .returned) ++ ((R.said (es.drop n)).map (·, .lost) ++ skipped.map (·, .dropped))

@[grind =]
def marks : Nat → List (List ε × List α) → List (α × Mark)
  | _, [] => []
  | n, (es, skipped) :: rest => R.roundMarks n es skipped ++ marks (n - es.length) rest

/-- A piece of text, and the marks of what is taken. -/
def add (p : σ) (s : List α) : Option (List (α × Mark) × σ) :=
  (rounds R.take (R.bound p s) (R.write p s)).map fun r => (R.marks (R.answered (r.1.flatMap Prod.fst)) r.1, r.2)

/-- All pieces. What is left in the buffer then is kept. -/
def run (p : σ) (chunks : List (List α)) : Option (List (α × Mark) × σ) :=
  (feed (· ++ ·) [] R.add p chunks).map fun r => (r.1 ++ (R.buffer r.2).map (·, .kept), r.2)

/-- A round skips only space and spans. It keeps an invariant of the text that was taken and the state, and the last round ends
in a state with a property. -/
def Step (P : List α → List α → List α → Prop) (space : α → Bool) (I : List α → σ → Prop) (D : σ → Prop) (t : List α) (p : σ) :
    Prop :=
  ∃ es p' more skipped, R.eat p = (es, p', more) ∧ R.buffer p = R.said es ++ (skipped ++ R.buffer p') ∧
    Skipped P space (t ++ R.said es) skipped ∧ I (t ++ R.said es ++ skipped) p' ∧ (more = false → D p')

structure Keeps (P : List α → List α → List α → Prop) (space : α → Bool) (I : List α → σ → Prop) (D : σ → Prop) : Prop where
  more : ∀ {a w b : List α} (c), P a w b → P a w (b ++ c)
  write : ∀ {t p} (s), I t p → R.buffer (R.write p s) = R.buffer p ++ s ∧ I t (R.write p s)
  enough : ∀ {t p} (s), I t p → rounds R.eat (R.bound p s) (R.write p s) ≠ none
  step : ∀ {t p}, I t p → R.Step P space I D t p

variable {R} {P : List α → List α → List α → Prop} {space : α → Bool} {I : List α → σ → Prop} {D : σ → Prop}

theorem rounds_take {n : Nat} {p : σ} (h : rounds R.eat n p ≠ none) : ∃ outs p', rounds R.take n p = some (outs, p') := by
  induction n generalizing p with
  | zero => exact absurd rfl h
  | succ n ih =>
    rw [rounds] at h ⊢
    rw [show (R.take p).2 = (R.eat p).2 from rfl]
    split_ifs at h ⊢ with hmore
    · obtain ⟨outs, p', houts⟩ := ih (p := (R.eat p).2.1) fun hnone => h (by rw [hnone, Option.map_none])
      exact ⟨_, p', by rw [houts, Option.map_some]⟩
    · exact ⟨_, _, rfl⟩

theorem texts_roundMarks (n : Nat) (es : List ε) (skipped : List α) :
    (R.roundMarks n es skipped).map Prod.fst = R.said es ++ skipped := by
  have hsaid : R.said (es.take n) ++ R.said (es.drop n) = R.said es := by
    unfold said
    rw [← List.flatMap_append, List.take_append_drop]
  rw [← hsaid]
  simp [roundMarks, Function.comp_def]

theorem accounted_said {before text : List α} {mark : Mark} (hdropped : mark ≠ .dropped) (hkept : mark ≠ .kept) :
    Accounted P space before (text.map (·, mark)) := by
  refine ⟨fun i x hx => ?_, fun m hm => ?_⟩
  · obtain ⟨y, -, hy⟩ := List.mem_map.mp (List.mem_of_getElem? hx)
    exact absurd (congrArg Prod.snd hy) hdropped
  · obtain ⟨y, -, rfl⟩ := List.mem_map.mp hm
    exact hkept

theorem accounted_skipped {before text : List α} (h : Skipped P space before text) :
    Accounted P space before (text.map (·, Mark.dropped)) := by
  refine ⟨fun i x hx => ?_, fun m hm => ?_⟩
  · rw [List.getElem?_map] at hx
    obtain ⟨y, hy, heq⟩ := Option.map_eq_some_iff.mp hx
    cases heq
    simpa [Function.comp_def] using h i x hy
  · obtain ⟨y, -, rfl⟩ := List.mem_map.mp hm
    nofun

theorem step_of {t : List α} {p p' : σ} {es : List ε} {more : Bool} (said skipped : List α) (heat : R.eat p = (es, p', more))
    (hsaid : R.said es = said) (hbuffer : R.buffer p = said ++ (skipped ++ R.buffer p'))
    (hskipped : Skipped P space (t ++ said) skipped) (hI : I (t ++ said ++ skipped) p') (hD : more = false → D p') :
    R.Step P space I D t p := by
  subst hsaid
  exact ⟨es, p', more, skipped, heat, hbuffer, hskipped, hI, hD⟩

variable (K : R.Keeps P space I D)
include K

theorem accounted_roundMarks {t skipped : List α} {es : List ε} (h : Skipped P space (t ++ R.said es) skipped) (n : Nat) :
    Accounted P space t (R.roundMarks n es skipped) := by
  refine (accounted_said (by decide) (by decide)).append K.more
    ((accounted_said (by decide) (by decide)).append K.more (accounted_skipped ?_))
  have htexts := R.texts_roundMarks n es []
  rw [roundMarks, List.map_nil, List.append_nil, List.append_nil, List.map_append] at htexts
  rwa [List.append_assoc, htexts]

theorem skipped_eq {t : List α} {p : σ} (hI : I t p) :
    R.buffer p = R.said (R.eat p).1 ++ (R.skipped p ++ R.buffer (R.eat p).2.1) ∧
      Skipped P space (t ++ R.said (R.eat p).1) (R.skipped p) ∧ I (t ++ R.said (R.eat p).1 ++ R.skipped p) (R.eat p).2.1 ∧
      ((R.eat p).2.2 = false → D (R.eat p).2.1) := by
  obtain ⟨es, p', more, skipped, heat, hbuffer, hskipped, hI', hD⟩ := K.step hI
  have heq : R.skipped p = skipped := by
    rw [TextReader.skipped, heat, hbuffer, List.drop_left, List.length_append, Nat.add_sub_cancel, List.take_left]
  rw [heq, heat]
  exact ⟨hbuffer, hskipped, hI', hD⟩

theorem rounds_marks {n : Nat} {p p' : σ} {t : List α} {outs : List (List ε × List α)} (hI : I t p)
    (h : rounds R.take n p = some (outs, p')) (k : Nat) :
    R.buffer p = (R.marks k outs).map Prod.fst ++ R.buffer p' ∧ I (t ++ (R.marks k outs).map Prod.fst) p' ∧
      Accounted P space t (R.marks k outs) ∧ D p' := by
  induction n generalizing p t outs k with
  | zero => cases h
  | succ n ih =>
    obtain ⟨hbuffer, hskipped, hI', hD⟩ := skipped_eq K hI
    have htexts := R.texts_roundMarks k (R.eat p).1 (R.skipped p)
    have haccounted := accounted_roundMarks K hskipped k
    rw [List.append_assoc, ← htexts] at hI'
    rw [← List.append_assoc, ← htexts] at hbuffer
    rw [rounds, show (R.take p).2 = (R.eat p).2 from rfl] at h
    split_ifs at h with hmore
    · obtain ⟨⟨outs', p''⟩, houts, heq⟩ := Option.map_eq_some_iff.mp h
      cases heq
      obtain ⟨hbuffer', hI'', haccounted', hD'⟩ := ih hI' houts (k - (R.eat p).1.length)
      rw [show R.marks k ((R.take p).1 :: outs') =
        R.roundMarks k (R.eat p).1 (R.skipped p) ++ R.marks (k - (R.eat p).1.length) outs' from rfl, List.map_append]
      refine ⟨by rw [hbuffer, hbuffer', List.append_assoc], by rwa [← List.append_assoc], haccounted.append K.more haccounted', hD'⟩
    · cases h
      rw [show R.marks k [(R.take p).1] = R.roundMarks k (R.eat p).1 (R.skipped p) ++ [] from rfl, List.append_nil]
      exact ⟨hbuffer, hI', haccounted, hD (Bool.eq_false_iff.mpr hmore)⟩

/-- What holds when all pieces were read. -/
theorem run_spec {p : σ} {t : List α} (hI : I t p) (hD : D p) (chunks : List (List α)) :
    ∃ m p', R.run p chunks = some (m ++ (R.buffer p').map (·, .kept), p') ∧
      R.buffer p ++ chunks.flatten = m.map Prod.fst ++ R.buffer p' ∧ I (t ++ m.map Prod.fst) p' ∧ D p' ∧
      Accounted P space t m := by
  suffices h : ∃ m p', feed (· ++ ·) [] R.add p chunks = some (m, p') ∧
      R.buffer p ++ chunks.flatten = m.map Prod.fst ++ R.buffer p' ∧ I (t ++ m.map Prod.fst) p' ∧ D p' ∧
      Accounted P space t m by
    obtain ⟨m, p', hfeed, hrest⟩ := h
    exact ⟨m, p', by rw [run, hfeed, Option.map_some], hrest⟩
  induction chunks generalizing p t with
  | nil => exact ⟨[], p, rfl, by simp, by simpa using hI, hD, fun i x hx => (nomatch hx), fun m hm => (nomatch hm)⟩
  | cons c cs ih =>
    obtain ⟨hwrite, hIw⟩ := K.write c hI
    obtain ⟨outs, p₁, houts⟩ := rounds_take (K.enough c hI)
    obtain ⟨hbuffer, hI₁, haccounted, hD₁⟩ := rounds_marks K hIw houts (R.answered (outs.flatMap Prod.fst))
    obtain ⟨m, p', hfeed, htext, hI', hD', haccounted'⟩ := ih hI₁ hD₁
    have hadd : R.add p c = some (R.marks (R.answered (outs.flatMap Prod.fst)) outs, p₁) := by
      rw [add, houts, Option.map_some]
    refine ⟨R.marks (R.answered (outs.flatMap Prod.fst)) outs ++ m, p', ?_, ?_, ?_, hD', haccounted.append K.more haccounted'⟩
    · rw [feed, hadd, Option.bind_some, hfeed, Option.map_some]
    · rw [List.flatten_cons, ← List.append_assoc, ← hwrite, hbuffer, List.append_assoc, htext, List.map_append, List.append_assoc]
    · rwa [List.map_append, ← List.append_assoc]

/-- A run returns everything if and only if no error loses any of it and nothing is left in the buffer. -/
theorem run_drained_iff {p p' : σ} (hI : I [] p) (hD : D p) (hbuffer : R.buffer p = []) {chunks : List (List α)}
    {marks : List (α × Mark)} (hrun : R.run p chunks = some (marks, p')) : Drained P space marks ↔
      (∀ i x, marks[i]? = some (x, .lost) → space x = true ∨ Covered P chunks.flatten i) ∧
      ∀ before, chunks.flatten = before ++ R.buffer p' → Skipped P space before (R.buffer p') := by
  obtain ⟨m, q, hrun', htext, -, -, haccounted⟩ := run_spec K hI hD chunks
  obtain ⟨rfl, rfl⟩ := Prod.mk.inj (Option.some.inj (hrun.symm.trans hrun'))
  rw [hbuffer, List.nil_append] at htext
  have htexts : (m ++ (R.buffer p').map (·, Mark.kept)).map Prod.fst = chunks.flatten := by
    rw [htext]
    simp [Function.comp_def]
  have hkept : ∀ i x, (m ++ (R.buffer p').map (·, Mark.kept))[m.length + i]? = some (x, .kept) ↔ (R.buffer p')[i]? = some x := by
    intro i x
    rw [List.getElem?_append_right (Nat.le_add_right _ _), Nat.add_sub_cancel_left, List.getElem?_map, Option.map_eq_some_iff]
    simp
  constructor
  · refine fun h => ⟨fun i x hx => ?_, fun before hbefore i x hx => ?_⟩
    · rw [← htexts, or_iff_not_imp_left, Bool.not_eq_true]
      intro hspace
      by_contra hnot
      cases h i x _ hx hspace hnot
    · obtain rfl : before = m.map Prod.fst := List.append_cancel_right (hbefore.symm.trans htext)
      rw [or_iff_not_imp_left, Bool.not_eq_true, ← htext, ← htexts, List.length_map]
      intro hspace
      by_contra hnot
      cases h _ x _ ((hkept i x).mpr hx) hspace hnot
  · rintro ⟨hlost, hbuffer'⟩ i x mark hx hspace hnot
    rw [htexts] at hnot
    cases mark with
    | returned => rfl
    | lost => exact absurd (hlost i x hx) (by simp [hspace, hnot])
    | dropped =>
      obtain hlt | hle := Nat.lt_or_ge i m.length
      · rw [List.getElem?_append_left hlt] at hx
        refine (haccounted.1 i x hx).elim (by simp [hspace]) fun h => absurd ?_ hnot
        rw [List.nil_append, List.length_nil, Nat.zero_add] at h
        exact htext ▸ h.append K.more _
      · rw [List.getElem?_append_right hle] at hx
        obtain ⟨y, -, hy⟩ := List.mem_map.mp (List.mem_of_getElem? hx)
        cases hy
    | kept =>
      obtain hlt | hle := Nat.lt_or_ge i m.length
      · rw [List.getElem?_append_left hlt] at hx
        exact absurd rfl (haccounted.2 _ (List.mem_of_getElem? hx))
      · obtain ⟨k, rfl⟩ := Nat.exists_eq_add_of_le hle
        have := hbuffer' _ htext k x ((hkept k x).mp hx)
        rw [List.length_map, ← htext] at this
        exact absurd this (by simp [hspace, hnot])

end TextReader

end Xdragon.Lib
