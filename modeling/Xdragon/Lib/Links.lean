import Xdragon.Lib.Neighbours

/-!
# Linked texts

Texts in a row keep the indices of their neighbours, and one that was merged into another one is empty.
Pairs of neighbours wait in a queue, and some are no neighbours any more when they are taken out of it.
-/

namespace Xdragon.Lib

structure Links (α : Type) where
  tok : Nat → List α
  next : Nat → Nat
  prev : Nat → Int

namespace Links

variable {α : Type}

/-- The text at `b` is merged into the one at `a`. -/
def merge (c : Links α) (a b : Nat) : Links α where
  tok i := if b = i then [] else if a = i then c.tok a ++ c.tok b else c.tok i
  next i := if a = i then c.next b else c.next i
  prev i := if c.next b = i then a else c.prev i

/-- The texts at `i` and the indices behind it that are not empty. -/
def texts (c : Links α) (i k : Nat) : List (List α) := ((List.range' i k).map c.tok).filter (· ≠ [])

/-- The text from one index to another one. -/
def span (ts : List (List α)) (i j : Nat) : List α := ((ts.drop i).take (j - i)).flatten

/-- Each text that is not empty reaches to the next one. -/
structure Sound (c : Links α) (ts : List (List α)) : Prop where
  next_le : ∀ i, c.tok i ≠ [] → i < c.next i ∧ c.next i ≤ ts.length
  tok_eq : ∀ i, c.tok i ≠ [] → c.tok i = span ts i (c.next i)
  between : ∀ i, c.tok i ≠ [] → ∀ j, i < j → j < c.next i → c.tok j = []
  next_tok : ∀ i, c.tok i ≠ [] → c.next i < ts.length → c.tok (c.next i) ≠ []
  prev_next : ∀ i, c.tok i ≠ [] → c.next i < ts.length → c.prev (c.next i) = i
  next_prev : ∀ i, c.tok i ≠ [] → 0 ≤ c.prev i → c.tok (c.prev i).toNat ≠ [] ∧ c.next (c.prev i).toNat = i

theorem span_append (ts : List (List α)) {i j k : Nat} (hij : i ≤ j) (hjk : j ≤ k) :
    span ts i j ++ span ts j k = span ts i k := by
  unfold span
  rw [← List.flatten_append, show k - i = (j - i) + (k - j) by omega, List.take_add, List.drop_drop,
    show i + (j - i) = j by omega]

/-- The same links for the first `n` texts, and no other texts. -/
structure Same (c d : Links α) (n : Nat) : Prop where
  tok : ∀ i, c.tok i = d.tok i
  next : ∀ i, c.next i = d.next i
  prev : ∀ i < n, c.prev i = d.prev i

theorem Sound.same {c d : Links α} {ts : List (List α)} (h : c.Sound ts) (hsame : c.Same d ts.length) : d.Sound ts := by
  obtain ⟨tok, next, prev⟩ := c
  obtain ⟨tok', next', prev'⟩ := d
  obtain ⟨htok, hnext, hprev⟩ := hsame
  obtain rfl := funext htok
  obtain rfl := funext hnext
  dsimp only at hprev
  refine ⟨h.next_le, h.tok_eq, h.between, h.next_tok, ?_, ?_⟩
  · intro i hi hn
    exact (hprev _ hn).symm.trans (h.prev_next i hi hn)
  · intro i hi hp
    have hlt : i < ts.length := by
      have := h.next_le i hi
      omega
    dsimp only at hp ⊢
    rw [← hprev i hlt] at hp ⊢
    exact h.next_prev i hi hp

/-! ## One merge -/

section
variable {c : Links α} {ts : List (List α)} {a b : Nat}

theorem merge_dead (ha : c.tok a ≠ []) {i : Nat} (h : c.tok i = []) : (c.merge a b).tok i = [] := by
  simp only [merge]
  split_ifs with hb hai
  · rfl
  · exact absurd (hai ▸ h) ha
  · exact h

theorem merge_live (ha : c.tok a ≠ []) {i : Nat} : (c.merge a b).tok i ≠ [] ↔ i ≠ b ∧ c.tok i ≠ [] := by
  simp only [merge]
  split_ifs with hb hai
  · simp [hb]
  · subst hai
    simp [ha, Ne.symm hb]
  · simp [Ne.symm hb]

/-- The links are sound after neighbours were merged. -/
theorem Sound.merge (h : c.Sound ts) (ha : c.tok a ≠ []) (hb : c.next a = b) (hlt : b < ts.length) : (c.merge a b).Sound ts := by
  have hbtok : c.tok b ≠ [] := hb ▸ h.next_tok a ha (hb ▸ hlt)
  obtain ⟨hab, -⟩ := h.next_le a ha
  obtain ⟨hbn, hle⟩ := h.next_le b hbtok
  have hback : c.prev b = a := hb ▸ h.prev_next a ha (hb ▸ hlt)
  constructor
  · intro i hi
    obtain ⟨-, hlive⟩ := (merge_live ha).mp hi
    simp only [Links.merge]
    split_ifs with hai
    · exact ⟨by omega, hle⟩
    · exact h.next_le i hlive
  · intro i hi
    obtain ⟨hib, hlive⟩ := (merge_live ha).mp hi
    simp only [Links.merge, if_neg (Ne.symm hib)]
    split_ifs with hai
    · subst hai
      rw [h.tok_eq a ha, h.tok_eq b hbtok, hb, span_append ts (by omega) (by omega)]
    · exact h.tok_eq i hlive
  · intro i hi j hij hj
    obtain ⟨hib, hlive⟩ := (merge_live ha).mp hi
    simp only [Links.merge] at hj
    split_ifs at hj with hai
    · subst hai
      rcases Nat.lt_trichotomy j b with hjb | rfl | hjb
      · exact merge_dead ha (h.between a ha j hij (hb ▸ hjb))
      · simp [Links.merge]
      · exact merge_dead ha (h.between b hbtok j hjb hj)
    · exact merge_dead ha (h.between i hlive j hij hj)
  · intro i hi hn
    obtain ⟨hib, hlive⟩ := (merge_live ha).mp hi
    rw [merge_live ha]
    simp only [Links.merge] at hn ⊢
    split_ifs at hn ⊢ with hai
    · exact ⟨by omega, h.next_tok b hbtok hn⟩
    · refine ⟨?_, h.next_tok i hlive hn⟩
      intro hnb
      have hprev := h.prev_next i hlive hn
      rw [hnb, hback] at hprev
      exact hai (by omega)
  · intro i hi hn
    obtain ⟨hib, hlive⟩ := (merge_live ha).mp hi
    simp only [Links.merge] at hn ⊢
    split_ifs at hn with hai
    · simp [hai]
    · rw [if_neg hai, if_neg]
      · exact h.prev_next i hlive hn
      · intro hnb
        have hprev := h.prev_next i hlive hn
        rw [← hnb, h.prev_next b hbtok (by omega)] at hprev
        omega
  · intro i hi hp
    obtain ⟨hib, hlive⟩ := (merge_live ha).mp hi
    rw [merge_live ha]
    simp only [Links.merge] at hp ⊢
    split_ifs at hp ⊢ with hnb hai hai
    · exact ⟨⟨by omega, by simpa using ha⟩, hnb⟩
    · exact absurd (Int.toNat_natCast a).symm hai
    · obtain ⟨-, hnext⟩ := h.next_prev i hlive hp
      rw [← hai, hb] at hnext
      exact absurd hnext.symm hib
    · obtain ⟨hptok, hnext⟩ := h.next_prev i hlive hp
      exact ⟨⟨fun hpb => hnb (hpb ▸ hnext), hptok⟩, hnext⟩

end

/-! ## The texts in a row -/

section
variable (c : Links α)

theorem texts_append (i k m : Nat) : c.texts i (k + m) = c.texts i k ++ c.texts (i + k) m := by
  unfold texts
  rw [← List.range'_append_1, List.map_append, List.filter_append]

theorem texts_succ (i k : Nat) : c.texts i (k + 1) = c.texts i k ++ if c.tok (i + k) = [] then [] else [c.tok (i + k)] := by
  rw [texts_append]
  congr 1
  simp only [texts, List.range'_one, List.map_cons, List.map_nil]
  split_ifs with h <;> simp [h]

variable {c} {ts : List (List α)} {a b : Nat}

theorem texts_dead {i k : Nat} (h : ∀ j, i ≤ j → j < i + k → c.tok j = []) : c.texts i k = [] := by
  unfold texts
  rw [List.filter_eq_nil_iff]
  intro t ht
  obtain ⟨j, hj, rfl⟩ := List.mem_map.mp ht
  rw [List.mem_range'_1] at hj
  simp [h j hj.1 hj.2]

theorem texts_congr {d : Links α} {i k : Nat} (h : ∀ j, i ≤ j → j < i + k → c.tok j = d.tok j) : c.texts i k = d.texts i k := by
  unfold texts
  congr 1
  refine List.map_congr_left fun j hj => ?_
  rw [List.mem_range'_1] at hj
  exact h j hj.1 hj.2

/-- Two neighbours with what is before and behind them, whatever their texts are. -/
theorem texts_place {n : Nat} (hab : a < b) (hb : b < n) (hdead : ∀ j, a < j → j < b → c.tok j = []) : c.texts 0 n =
    c.texts 0 a ++ ((if c.tok a = [] then [] else [c.tok a]) ++
      ((if c.tok b = [] then [] else [c.tok b]) ++ c.texts (b + 1) (n - (b + 1)))) := by
  have hsplit : n = ((a + 1 + (b - (a + 1))) + 1) + (n - (b + 1)) := by omega
  have hmiddle : c.texts (a + 1) (b - (a + 1)) = [] := texts_dead fun j hj hjb => hdead j (by omega) (by omega)
  conv_lhs => rw [hsplit]
  rw [texts_append, texts_succ, texts_append c 0 (a + 1), texts_succ]
  simp only [Nat.zero_add, hmiddle, show a + 1 + (b - (a + 1)) = b by omega, List.append_nil, List.append_assoc]

/-- Two neighbours in the row, and the row after they were merged. -/
theorem texts_merge (h : c.Sound ts) (ha : c.tok a ≠ []) (hb : c.next a = b) (hlt : b < ts.length) :
    c.texts 0 ts.length = c.texts 0 a ++ c.tok a :: c.tok b :: c.texts (b + 1) (ts.length - (b + 1)) ∧
      (c.merge a b).texts 0 ts.length = c.texts 0 a ++ (c.tok a ++ c.tok b) :: c.texts (b + 1) (ts.length - (b + 1)) := by
  have hbtok : c.tok b ≠ [] := hb ▸ h.next_tok a ha (hb ▸ hlt)
  obtain ⟨hab, -⟩ := h.next_le a ha
  rw [hb] at hab
  have hdead : ∀ j, a < j → j < b → c.tok j = [] := fun j hj hjb => h.between a ha j hj (hb ▸ hjb)
  constructor
  · rw [texts_place hab hlt hdead, if_neg ha, if_neg hbtok]
    rfl
  · have hbefore : (c.merge a b).texts 0 a = c.texts 0 a := texts_congr fun j _ hj => by
      simp [Links.merge, show b ≠ j by omega, show a ≠ j by omega]
    have hbehind : (c.merge a b).texts (b + 1) (ts.length - (b + 1)) = c.texts (b + 1) (ts.length - (b + 1)) :=
      texts_congr fun j hj _ => by simp [Links.merge, show b ≠ j by omega, show a ≠ j by omega]
    have hmerged : (c.merge a b).tok a = c.tok a ++ c.tok b := by simp [Links.merge, show b ≠ a by omega]
    have hnone : (c.merge a b).tok b = [] := by simp [Links.merge]
    rw [texts_place hab hlt fun j hj hjb => merge_dead ha (hdead j hj hjb), hbefore, hbehind, hmerged, hnone,
      if_neg (by simp [ha]), if_pos rfl]
    rfl

theorem last_text {m : Nat} {before : List (List α)} {t : List α} (h : c.texts 0 m = before ++ [t]) :
    ∃ i < m, c.tok i = t ∧ c.tok i ≠ [] ∧ c.texts 0 i = before ∧ ∀ j, i < j → j < m → c.tok j = [] := by
  induction m with
  | zero => simp [texts] at h
  | succ m ih =>
    rw [texts_succ, Nat.zero_add] at h
    split_ifs at h with hm
    · rw [List.append_nil] at h
      obtain ⟨i, hi, htok, hne, hbefore, hdead⟩ := ih h
      refine ⟨i, by omega, htok, hne, hbefore, ?_⟩
      intro j hij hj
      rcases Nat.lt_succ_iff_lt_or_eq.mp hj with hj | rfl
      · exact hdead j hij hj
      · exact hm
    · obtain ⟨hbefore, ht⟩ := List.append_inj' h rfl
      exact ⟨m, by omega, List.head_eq_of_cons_eq ht, hm, hbefore, fun j hj hjm => by omega⟩

/-- Neighbours in the row are linked. -/
theorem Sound.place (h : c.Sound ts) {m : Nat} (hm : m ≤ ts.length) {before behind : List (List α)} {l r : List α}
    (hrow : c.texts 0 m = before ++ l :: r :: behind) :
    ∃ i, c.tok i ≠ [] ∧ c.next i < m ∧ c.tok i = l ∧ c.tok (c.next i) = r ∧ c.texts 0 i = before := by
  induction m generalizing behind with
  | zero => simp [texts] at hrow
  | succ m ih =>
    rw [texts_succ, Nat.zero_add] at hrow
    split_ifs at hrow with hmtok
    · rw [List.append_nil] at hrow
      obtain ⟨i, hi, hlt, hplace⟩ := ih (by omega) hrow
      exact ⟨i, hi, by omega, hplace⟩
    · rcases List.eq_nil_or_concat behind with rfl | ⟨behind, z, rfl⟩
      · have hcut : c.texts 0 m ++ [c.tok m] = (before ++ [l]) ++ [r] := by rw [hrow, List.append_assoc]; rfl
        obtain ⟨hl, hr⟩ := List.append_inj' hcut rfl
        obtain ⟨i, hi, rfl, hne, hbefore, hdead⟩ := last_text hl
        have hr' : c.tok m = r := List.head_eq_of_cons_eq hr
        -- the next text is the last one, as there is none between them
        obtain ⟨hin, hnle⟩ := h.next_le i hne
        have hnext : c.next i = m := by
          rcases Nat.lt_trichotomy (c.next i) m with hlt | heq | hgt
          · exact absurd (hdead _ hin hlt) (h.next_tok i hne (by omega))
          · exact heq
          · exact absurd (h.between i hne m hi hgt) hmtok
        exact ⟨i, hne, by omega, rfl, by rw [hnext, hr'], hbefore⟩
      · have hcut : c.texts 0 m ++ [c.tok m] = (before ++ l :: r :: behind) ++ [z] := by rw [hrow]; simp
        obtain ⟨i, hi, hlt, hplace⟩ := ih (by omega) (List.append_inj' hcut rfl).1
        exact ⟨i, hi, by omega, hplace⟩

theorem Sound.neighbours (h : c.Sound ts) {m : Nat} (hm : m ≤ ts.length) {l r : List α} (hin : [l, r] <:+: c.texts 0 m) :
    ∃ i, c.tok i ≠ [] ∧ c.next i < m ∧ c.tok i = l ∧ c.tok (c.next i) = r := by
  obtain ⟨before, behind, hrow⟩ := hin
  obtain ⟨i, hi, hlt, hl, hr, -⟩ := h.place hm (show c.texts 0 m = before ++ l :: r :: behind by simp [← hrow])
  exact ⟨i, hi, hlt, hl, hr⟩

/-! ## The links at first -/

/-- Each text is linked to the next one. -/
structure Initial (c : Links α) (ts : List (List α)) : Prop where
  tok : ∀ i (hi : i < ts.length), c.tok i = ts[i]
  next : ∀ i < ts.length, c.next i = i + 1
  prev : ∀ i < ts.length, c.prev i = (i : Int) - 1
  none : ∀ i, ts.length ≤ i → c.tok i = []

theorem Initial.sound (h : c.Initial ts) (hts : ∀ t ∈ ts, t ≠ []) : c.Sound ts := by
  have hlt : ∀ i, c.tok i ≠ [] → i < ts.length := by
    intro i hi
    by_contra hge
    exact hi (h.none i (by omega))
  have hlive : ∀ i < ts.length, c.tok i ≠ [] := by
    intro i hi
    rw [h.tok i hi]
    exact hts _ (List.getElem_mem hi)
  constructor
  · intro i hi
    have := hlt i hi
    rw [h.next i this]
    omega
  · intro i hi
    have hin := hlt i hi
    rw [h.tok i hin, h.next i hin, span, List.drop_eq_getElem_cons hin, Nat.add_sub_cancel_left,
      List.take_succ_cons, List.take_zero, List.flatten_singleton]
  · intro i hi j hij hj
    rw [h.next i (hlt i hi)] at hj
    omega
  · intro i hi hn
    exact hlive _ hn
  · intro i hi hn
    rw [h.prev _ hn, h.next i (hlt i hi)]
    omega
  · intro i hi hp
    have hin := hlt i hi
    rw [h.prev i hin] at hp ⊢
    have hback : ((i : Int) - 1).toNat = i - 1 := by omega
    rw [hback]
    exact ⟨hlive _ (by omega), by rw [h.next _ (by omega)]; omega⟩

theorem Initial.texts (h : c.Initial ts) (hts : ∀ t ∈ ts, t ≠ []) : c.texts 0 ts.length = ts := by
  have hmap : (List.range' 0 ts.length).map c.tok = ts := by
    apply List.ext_getElem
    · simp
    · intro i hi hi'
      rw [List.getElem_map, List.getElem_range', Nat.zero_add, Nat.one_mul]
      exact h.tok i hi'
  rw [Links.texts, hmap, List.filter_eq_self]
  intro t ht
  simpa using hts t ht

end

end Links

/-! ## Pairs that wait -/

/-- Where a pair is and what its key is, what it was found for, and when its texts count as what they were. -/
structure Waiting (α K π : Type) where
  a : π → Nat
  b : π → Nat
  rank : π → K
  Found : π → List α → List α → Prop
  Current : π → List α → List α → Prop

variable {α K π : Type} {w : Waiting α K π} {key : List α → List α → Option K} {c : Links α} {ts : List (List α)}

/-- A pair counts as what it was exactly if its second text has not grown, and its key is the one of its texts. -/
def Waiting.Lawful (w : Waiting α K π) (key : List α → List α → Option K) : Prop :=
  ∀ e l r x, w.Found e l r → (w.Current e l (r ++ x) ↔ x = [] ∧ key l r = some (w.rank e))

namespace Links

/-- A pair that was found for neighbours, the second one reaching up to `d` then. -/
def WasPair (w : Waiting α K π) (c : Links α) (ts : List (List α)) (e : π) : Prop :=
  ∃ d, w.a e < w.b e ∧ w.b e < d ∧ d ≤ ts.length ∧ (∀ j, w.a e < j → j < w.b e → c.tok j = []) ∧
    (∀ j, w.b e < j → j < d → c.tok j = []) ∧ w.Found e (span ts (w.a e) (w.b e)) (span ts (w.b e) d)

/-- A pair of neighbours. -/
def IsPair (w : Waiting α K π) (c : Links α) (ts : List (List α)) (e : π) : Prop :=
  c.tok (w.a e) ≠ [] ∧ c.next (w.a e) = w.b e ∧ w.b e < ts.length ∧ w.Found e (c.tok (w.a e)) (c.tok (w.b e))

/-- A pair that is merged when it is taken out of the queue. -/
def Accepts (w : Waiting α K π) (c : Links α) (e : π) : Prop :=
  c.tok (w.a e) ≠ [] ∧ c.tok (w.b e) ≠ [] ∧ w.Current e (c.tok (w.a e)) (c.tok (w.b e))

/-- The pairs of the queue were neighbours, and all neighbours with a key are in the queue. -/
structure Queued (w : Waiting α K π) (key : List α → List α → Option K) (c : Links α) (ts : List (List α))
    (items : List π) : Prop where
  sound : c.Sound ts
  pairs : ∀ e ∈ items, WasPair w c ts e
  complete : ∀ i, c.tok i ≠ [] → c.next i < ts.length → ∀ x ∈ key (c.tok i) (c.tok (c.next i)),
    ∃ e ∈ items, w.a e = i ∧ IsPair w c ts e ∧ w.rank e = x

/-- Finds the pair of a text and the one behind it. -/
structure Finds (w : Waiting α K π) (key : List α → List α → Option K) (c : Links α) (ts : List (List α))
    (find : Int → Nat → Option π) : Prop where
  negative : ∀ i j, i < 0 → find i j = none
  pair : ∀ i : Nat, c.tok i ≠ [] → ∀ q, find i (c.next i) = some q → w.a q = i ∧ IsPair w c ts q
  complete : ∀ i : Nat, c.tok i ≠ [] → c.next i < ts.length → ∀ x ∈ key (c.tok i) (c.tok (c.next i)),
    ∃ q, find i (c.next i) = some q ∧ w.rank q = x

theorem IsPair.wasPair {e : π} (h : c.Sound ts) (hpair : IsPair w c ts e) : WasPair w c ts e := by
  obtain ⟨ha, hab, hlt, hfound⟩ := hpair
  have hb : c.tok (w.b e) ≠ [] := hab ▸ h.next_tok _ ha (hab ▸ hlt)
  obtain ⟨hbn, hle⟩ := h.next_le _ hb
  rw [h.tok_eq _ ha, h.tok_eq _ hb, hab] at hfound
  exact ⟨c.next (w.b e), hab ▸ (h.next_le _ ha).1, hbn, hle, fun j hj hjb => h.between _ ha j hj (hab ▸ hjb),
    h.between _ hb, hfound⟩

theorem WasPair.merge {e : π} {a b : Nat} (h : WasPair w c ts e) (ha : c.tok a ≠ []) : WasPair w (c.merge a b) ts e := by
  obtain ⟨d, hab, hbd, hd, hmiddle, hbehind, hfound⟩ := h
  exact ⟨d, hab, hbd, hd, fun j hj hjb => merge_dead ha (hmiddle j hj hjb), fun j hj hjd => merge_dead ha (hbehind j hj hjd),
    hfound⟩

theorem WasPair.same {e : π} {d : Links α} (h : WasPair w c ts e) (hsame : c.Same d ts.length) : WasPair w d ts e := by
  obtain ⟨k, hab, hbk, hk, hmiddle, hbehind, hfound⟩ := h
  exact ⟨k, hab, hbk, hk, fun j hj hjb => hsame.tok j ▸ hmiddle j hj hjb, fun j hj hjk => hsame.tok j ▸ hbehind j hj hjk,
    hfound⟩

/-- What is accepted is a pair of neighbours with its key. -/
theorem WasPair.accepts_iff {e : π} (hw : w.Lawful key) (h : c.Sound ts) (hpair : WasPair w c ts e) :
    Accepts w c e ↔ IsPair w c ts e ∧ key (c.tok (w.a e)) (c.tok (w.b e)) = some (w.rank e) := by
  obtain ⟨d, hab, hbd, hd, hmiddle, hbehind, hfound⟩ := hpair
  have hlt : w.b e < ts.length := by omega
  have hreach (ha : c.tok (w.a e) ≠ []) (hb : c.tok (w.b e) ≠ []) : c.next (w.a e) = w.b e ∧
      c.tok (w.a e) = span ts (w.a e) (w.b e) ∧ d ≤ c.next (w.b e) ∧
      c.tok (w.b e) = span ts (w.b e) d ++ span ts d (c.next (w.b e)) := by
    obtain ⟨han, hanle⟩ := h.next_le _ ha
    obtain ⟨hbn, hbnle⟩ := h.next_le _ hb
    have hnext : c.next (w.a e) = w.b e := by
      rcases Nat.lt_trichotomy (c.next (w.a e)) (w.b e) with hlt' | heq | hgt
      · exact absurd (hmiddle _ han hlt') (h.next_tok _ ha (by omega))
      · exact heq
      · exact absurd (h.between _ ha _ hab hgt) hb
    have hdn : d ≤ c.next (w.b e) := by
      by_contra hlt'
      exact h.next_tok _ hb (by omega) (hbehind _ hbn (by omega))
    exact ⟨hnext, hnext ▸ h.tok_eq _ ha, hdn, by rw [span_append ts (by omega) hdn, h.tok_eq _ hb]⟩
  constructor
  · rintro ⟨ha, hb, hcurrent⟩
    obtain ⟨hnext, hl, hdn, hr⟩ := hreach ha hb
    rw [hl, hr] at hcurrent
    obtain ⟨hnil, hkey⟩ := (hw e _ _ _ hfound).mp hcurrent
    rw [hnil, List.append_nil] at hr
    exact ⟨⟨ha, hnext, hlt, by rw [hl, hr]; exact hfound⟩, by rw [hl, hr]; exact hkey⟩
  · rintro ⟨⟨ha, hnext, -, hfound'⟩, hkey⟩
    have hb : c.tok (w.b e) ≠ [] := hnext ▸ h.next_tok _ ha (hnext ▸ hlt)
    have hcurrent := (hw e _ _ [] hfound').mpr ⟨rfl, hkey⟩
    rw [List.append_nil] at hcurrent
    exact ⟨ha, hb, hcurrent⟩

namespace Queued

variable {items rest : List π} {e : π}

/-- Nothing waits any more: no neighbours have a key. -/
theorem merged (h : Queued w key c ts []) : Merged key (c.texts 0 ts.length) := by
  intro l r hin
  obtain ⟨i, hi, hlt, rfl, rfl⟩ := h.sound.neighbours (Nat.le_refl _) hin
  rw [Option.eq_none_iff_forall_not_mem]
  intro x hx
  obtain ⟨e, he, -⟩ := h.complete i hi hlt x hx
  cases he

/-- A pair that is not accepted is no pair of neighbours with a key. -/
theorem skip (hw : w.Lawful key) (h : Queued w key c ts items) (hitems : ∀ e', e' ∈ items ↔ e' = e ∨ e' ∈ rest)
    (hskip : ¬ Accepts w c e) : Queued w key c ts rest := by
  refine ⟨h.sound, fun e' he' => h.pairs e' ((hitems e').mpr (.inr he')), ?_⟩
  intro i hi hlt x hx
  obtain ⟨e', he', ha, hpair, hrank⟩ := h.complete i hi hlt x hx
  rcases (hitems e').mp he' with rfl | he'
  · subst ha
    have hkey : key (c.tok (w.a e')) (c.tok (w.b e')) = some (w.rank e') := by rw [← hpair.2.1, hrank]; exact hx
    exact absurd (((h.pairs e' he').accepts_iff hw h.sound).mpr ⟨hpair, hkey⟩) hskip
  · exact ⟨e', he', ha, hpair, hrank⟩

/-- All pairs of neighbours are in the queue at first. -/
theorem initial (h : c.Initial ts) (hts : ∀ t ∈ ts, t ≠ []) {find : Int → Nat → Option π} (hfind : Finds w key c ts find)
    (hitems : ∀ q, q ∈ items ↔ ∃ i < ts.length - 1, find (i : Nat) (i + 1) = some q) : Queued w key c ts items := by
  have hsound := h.sound hts
  refine ⟨hsound, ?_, ?_⟩
  · intro q hq
    obtain ⟨i, hi, hfound⟩ := (hitems q).mp hq
    rw [← h.next i (by omega)] at hfound
    have hlive : c.tok i ≠ [] := by
      rw [h.tok i (by omega)]
      exact hts _ (List.getElem_mem _)
    exact (hfind.pair i hlive q hfound).2.wasPair hsound
  · intro i hi hn x hx
    have hlt := (hsound.next_le i hi).1
    obtain ⟨q, hfound, hrank⟩ := hfind.complete i hi hn x hx
    obtain ⟨ha, hpair⟩ := hfind.pair i hi q hfound
    rw [h.next i (by omega)] at hn hfound
    exact ⟨q, (hitems q).mpr ⟨i, by omega, hfound⟩, ha, hpair, hrank⟩

/-- After a merge, the pairs of the merged text with its neighbours are looked for. -/
theorem merge (h : Queued w key c ts items) (hitems : ∀ q, q ∈ items ↔ q = e ∨ q ∈ rest) (hpair : IsPair w c ts e)
    {c' : Links α} (hmerge : (c.merge (w.a e) (w.b e)).Same c' ts.length) {find : Int → Nat → Option π}
    (hfind : Finds w key c' ts find) {items' : List π} (hitems' : ∀ q, q ∈ items' ↔
      q ∈ rest ∨ find (c'.prev (w.a e)) (w.a e) = some q ∨ find (w.a e) (c'.next (w.a e)) = some q) :
    Queued w key c' ts items' := by
  obtain ⟨ha, hab, hlt, -⟩ := hpair
  have hsound := (h.sound.merge ha hab hlt).same hmerge
  have hmtok : ∀ i, c'.tok i = if w.b e = i then [] else if w.a e = i then c.tok (w.a e) ++ c.tok (w.b e) else c.tok i :=
    fun i => (hmerge.tok i).symm
  have hmnext : ∀ i, c'.next i = if w.a e = i then c.next (w.b e) else c.next i := fun i => (hmerge.next i).symm
  have hlive : ∀ i, c'.tok i ≠ [] ↔ i ≠ w.b e ∧ c.tok i ≠ [] := fun i => hmerge.tok i ▸ merge_live ha
  have halive : c'.tok (w.a e) ≠ [] := by
    have := (h.sound.next_le _ ha).1
    exact (hlive _).mpr ⟨by omega, ha⟩
  refine ⟨hsound, ?_, ?_⟩
  · intro q hq
    rcases (hitems' q).mp hq with hrest | hprev | hnext
    · exact ((h.pairs q ((hitems q).mpr (.inr hrest))).merge ha).same hmerge
    · -- the text before the merged one
      have hnonneg : 0 ≤ c'.prev (w.a e) := by
        by_contra hneg
        rw [hfind.negative _ _ (by omega)] at hprev
        cases hprev
      obtain ⟨hptok, hpnext⟩ := hsound.next_prev _ halive hnonneg
      obtain ⟨p, hp⟩ := Int.eq_ofNat_of_zero_le hnonneg
      rw [hp, Int.toNat_natCast] at hptok hpnext
      rw [hp, ← hpnext] at hprev
      exact (hfind.pair p hptok q hprev).2.wasPair hsound
    · exact (hfind.pair _ halive q hnext).2.wasPair hsound
  · intro i hi hn x hx
    by_cases hi' : i = w.a e ∨ c'.next i = w.a e
    · obtain ⟨q, hfound, hrank⟩ := hfind.complete i hi hn x hx
      obtain ⟨hqa, hneighbours⟩ := hfind.pair i hi q hfound
      refine ⟨q, (hitems' q).mpr (.inr ?_), hqa, hneighbours, hrank⟩
      rcases hi' with rfl | hnext
      · exact .inr hfound
      · have hprev := hsound.prev_next i hi hn
        rw [hnext] at hprev hfound
        exact .inl (hprev ▸ hfound)
    -- other neighbours are what they were
    rw [not_or] at hi'
    obtain ⟨hia, hna⟩ := hi'
    obtain ⟨hib, hold⟩ := (hlive i).mp hi
    have hnext : c'.next i = c.next i := by rw [hmnext, if_neg (Ne.symm hia)]
    have hnb := ((hlive _).mp (hsound.next_tok i hi hn)).1
    rw [hnext] at hn hx hna hnb
    have htok : c'.tok i = c.tok i := by rw [hmtok, if_neg (Ne.symm hib), if_neg (Ne.symm hia)]
    have hnexttok : c'.tok (c.next i) = c.tok (c.next i) := by rw [hmtok, if_neg (Ne.symm hnb), if_neg (Ne.symm hna)]
    rw [htok, hnexttok] at hx
    obtain ⟨q, hq, rfl, ⟨-, hb', hlt', hfound⟩, hrank⟩ := h.complete i hold hn x hx
    rcases (hitems q).mp hq with rfl | hrest
    · exact absurd rfl hia
    · refine ⟨q, (hitems' q).mpr (.inl hrest), rfl, ⟨hi, by rw [hnext, hb'], hlt', ?_⟩, hrank⟩
      rw [htok, ← hb', hnexttok, hb']
      exact hfound

variable {less : K → K → Bool}

theorem least (h : Queued w key c ts items) (hleast : ∀ e' ∈ items, less (w.rank e') (w.rank e) = false) :
    LeastKey key less (c.texts 0 ts.length) (w.rank e) := by
  intro l r hin x hx
  obtain ⟨i, hi, hlt, rfl, rfl⟩ := h.sound.neighbours (Nat.le_refl _) hin
  obtain ⟨e', he', -, -, rfl⟩ := h.complete i hi hlt x hx
  exact hleast e' he'

/-- A pair of a least rank is merged in a round. -/
theorem round (h : Queued w key c ts items) (hleast : ∀ e' ∈ items, less (w.rank e') (w.rank e) = false)
    (hpair : IsPair w c ts e) (hkey : key (c.tok (w.a e)) (c.tok (w.b e)) = some (w.rank e)) :
    Round key less (c.texts 0 ts.length) ((c.merge (w.a e) (w.b e)).texts 0 ts.length) := by
  obtain ⟨ha, hab, hlt, -⟩ := hpair
  obtain ⟨hrow, hrow'⟩ := texts_merge h.sound ha hab hlt
  have hle := h.least hleast
  rw [hrow] at hle
  rw [hrow, hrow']
  exact .merge hkey hle

/-- The first pair of a least rank is merged like the first neighbours of a least key. -/
theorem leftmost (h : Queued w key c ts items) (hleast : ∀ e' ∈ items, less (w.rank e') (w.rank e) = false)
    (hleft : ∀ e' ∈ items, w.a e' < w.a e → less (w.rank e) (w.rank e') = true) (hpair : IsPair w c ts e)
    (hkey : key (c.tok (w.a e)) (c.tok (w.b e)) = some (w.rank e)) :
    mergeNeighbours key less (c.texts 0 ts.length) =
      mergeNeighbours key less ((c.merge (w.a e) (w.b e)).texts 0 ts.length) := by
  obtain ⟨ha, hab, hlt, -⟩ := hpair
  obtain ⟨hrow, hrow'⟩ := texts_merge h.sound ha hab hlt
  have hle := h.least hleast
  rw [hrow] at hle
  have hfirst := @firstLeast_eq _ _ _ _ _ (c.texts (w.b e + 1) (ts.length - (w.b e + 1))) _ _ _ hkey hle ?_
  · rw [hrow, hrow', mergeNeighbours_step hfirst, mergeAt_length]
  · intro l r hin x hx
    have hupto : c.texts 0 (w.a e + 1) = c.texts 0 (w.a e) ++ [c.tok (w.a e)] := by
      rw [texts_succ, Nat.zero_add, if_neg ha]
    have han := (h.sound.next_le _ ha).1
    rw [← hupto] at hin
    obtain ⟨i, hi, hin, rfl, rfl⟩ := h.sound.neighbours (by omega) hin
    obtain ⟨e', he', rfl, -, rfl⟩ := h.complete i hi (by omega) x hx
    have := (h.sound.next_le _ hi).1
    exact hleft e' he' (by omega)

end Queued

end Links

end Xdragon.Lib
