import Xdragon.Tokenizer.Vocabulary

/-!
# What the special tokens cut out of a text

One special token after another is cut out of the fragments that are still text. This ends unless an
empty special token meets a text that is not empty.
-/

namespace Xdragon.Tokenizer

open Xdragon.Lib (Bytes cut cut_eq_some cut_eq_none_iff_absent length_of_cut split splitUpTo validString validString_left
  validString_right)

/-! ## One special token -/

/-- The fragments of a text around a special token, up to a number of places. -/
@[grind =]
def around (special : Bytes) (id : Int) : Nat → Bytes → List Fragment
  | 0, s => [{ value := s }]
  | n + 1, s =>
    match cut special s with
    | none => [{ value := s }]
    | some (before, rest) =>
      (if before ≠ [] then [{ value := before }] else []) ++
        { value := special, ids := [id] } :: if rest ≠ [] then around special id n rest else []

def Fragment.cutBy (special : Bytes) (id : Int) (frag : Fragment) : List Fragment :=
  if frag.ids.length > 0 then [frag]
  else if special = [] then [{ value := special, ids := [id] }]
  else around special id frag.value.length frag.value

section
variable {special : Bytes} {id : Int}

theorem cut_nil (hspecial : special ≠ []) : cut special [] = none := by
  rw [cut_eq_none_iff_absent]
  exact fun hin => hspecial (List.infix_nil.mp hin)

theorem cutSpecial_mono {n : Nat} {frags out : List Fragment} (h : cutSpecial special id n frags = some out) :
    cutSpecial special id (n + 1) frags = some out := by
  induction n generalizing frags out with
  | zero =>
    cases frags with
    | nil => exact h
    | cons frag frags => cases h
  | succ n ih =>
    cases frags with
    | nil => exact h
    | cons frag frags =>
      have hmap : ∀ f frags', (cutSpecial special id n frags').map (f :: ·) = some out →
          (cutSpecial special id (n + 1) frags').map (f :: ·) = some out := by
        intro f frags' h'
        obtain ⟨out', hout, rfl⟩ := Option.map_eq_some_iff.mp h'
        rw [ih hout]
        rfl
      rw [cutSpecial] at h ⊢
      split_ifs at h ⊢ with hids
      · exact hmap _ _ h
      · cases hcut : cut special frag.value with
        | none =>
          rw [hcut] at h
          exact hmap _ _ h
        | some p =>
          rw [hcut] at h
          dsimp only at h ⊢
          split_ifs at h ⊢ <;> exact hmap _ _ h

theorem cutSpecial_le {n m : Nat} (hle : n ≤ m) {frags out : List Fragment} (h : cutSpecial special id n frags = some out) :
    cutSpecial special id m frags = some out := by
  induction hle with
  | refl => exact h
  | step _ ih => exact cutSpecial_mono ih

/-- The loop over the fragments around the places of a special token in a text. -/
theorem cutSpecial_around (hspecial : special ≠ []) {k n : Nat} {s : Bytes} (hs : s.length ≤ k) {frags out : List Fragment}
    (h : cutSpecial special id n frags = some out) :
    ∃ m, cutSpecial special id m ({ value := s } :: frags) = some (around special id k s ++ out) := by
  induction k generalizing s with
  | zero =>
    obtain rfl := List.length_eq_zero_iff.mp (Nat.le_zero.mp hs)
    refine ⟨n + 1, ?_⟩
    rw [cutSpecial, if_neg (by simp), cut_nil hspecial]
    dsimp only
    rw [h]
    rfl
  | succ k ih =>
    cases hcut : cut special s with
    | none =>
      refine ⟨n + 1, ?_⟩
      rw [cutSpecial, if_neg (by simp), hcut, around, hcut]
      dsimp only
      rw [h]
      rfl
    | some p =>
      obtain ⟨before, rest⟩ := p
      have hlen := length_of_cut hcut
      have hpos := List.length_pos_iff.mpr hspecial
      -- the loop over the rest of the text and the fragments that follow
      obtain ⟨m, hm⟩ : ∃ m, cutSpecial special id m (if rest ≠ [] then { value := rest } :: frags else frags) =
          some ((if rest ≠ [] then around special id k rest else []) ++ out) := by
        split_ifs with hrest
        · exact ih (by omega)
        · exact ⟨n, h⟩
      refine ⟨m + 2, ?_⟩
      rw [cutSpecial, if_neg (by simp), hcut, around, hcut]
      dsimp only
      by_cases hbefore : before = []
      · rw [if_neg (not_not_intro hbefore), if_neg (not_not_intro hbefore), cutSpecial_le (Nat.le_succ m) hm]
        rfl
      · rw [if_pos hbefore, if_pos hbefore, cutSpecial, if_pos (by simp), hm]
        rfl

theorem cutSpecial_ends {frags : List Fragment}
    (h : ∀ frag ∈ frags, special = [] → frag.ids = [] → frag.value = []) :
    ∃ n, cutSpecial special id n frags = some (frags.flatMap (·.cutBy special id)) := by
  induction frags with
  | nil => exact ⟨0, rfl⟩
  | cons frag frags ih =>
    obtain ⟨n, hn⟩ := ih fun f hf => h f (List.mem_cons_of_mem _ hf)
    rw [List.flatMap_cons, Fragment.cutBy]
    split_ifs with hids hspecial
    · refine ⟨n + 1, ?_⟩
      rw [cutSpecial, if_pos hids, hn]
      rfl
    · have hnil : frag.ids = [] := List.length_eq_zero_iff.mp (by omega)
      have hvalue := h frag (List.mem_cons_self ..) hspecial hnil
      refine ⟨n + 1, ?_⟩
      rw [cutSpecial, if_neg hids, hvalue, hspecial]
      dsimp only [cut]
      rw [hspecial] at hn
      simp [hn]
    · obtain ⟨m, hm⟩ := cutSpecial_around (s := frag.value) hspecial (Nat.le_refl _) hn
      have hnil : frag.ids = [] := List.length_eq_zero_iff.mp (by omega)
      exact ⟨m, by rw [← hm, ← hnil]⟩

/-- An empty special token is found in the same text for ever. -/
theorem cutSpecial_forever {n : Nat} {frags : List Fragment} (h : ∃ frag ∈ frags, frag.ids = [] ∧ frag.value ≠ []) :
    cutSpecial [] id n frags = none := by
  induction n generalizing frags with
  | zero =>
    cases frags with
    | nil => simp at h
    | cons frag frags => rfl
  | succ n ih =>
    obtain ⟨f, hf, hids, hvalue⟩ := h
    cases frags with
    | nil => cases hf
    | cons frag frags =>
      have hcut : cut [] frag.value = some ([], frag.value) := Lib.cut_at_start (List.nil_prefix)
      have htail : f ∈ frags → cutSpecial [] id n frags = none := fun hf => ih ⟨f, hf, hids, hvalue⟩
      have hrest : frag.value ≠ [] → cutSpecial [] id n ({ value := frag.value } :: frags) = none :=
        fun hne => ih ⟨_, List.mem_cons_self .., rfl, hne⟩
      rw [cutSpecial, hcut]
      obtain rfl | hf := List.mem_cons.mp hf
      · simp [hids, hvalue, hrest hvalue]
      · by_cases hne : frag.value = []
        · simp [hne, htail hf]
        · simp [hne, htail hf, hrest hne]

theorem cutSpecial_iff {frags out : List Fragment} : (∃ n, cutSpecial special id n frags = some out) ↔
    (∀ frag ∈ frags, special = [] → frag.ids = [] → frag.value = []) ∧ out = frags.flatMap (·.cutBy special id) := by
  constructor
  · rintro ⟨n, hn⟩
    have hends : ∀ frag ∈ frags, special = [] → frag.ids = [] → frag.value = [] := by
      rintro frag hfrag rfl hids
      by_contra hvalue
      rw [cutSpecial_forever ⟨frag, hfrag, hids, hvalue⟩] at hn
      cases hn
    obtain ⟨m, hm⟩ := @cutSpecial_ends _ id _ hends
    have hmax := cutSpecial_le (Nat.le_max_left n m) hn
    rw [cutSpecial_le (Nat.le_max_right n m) hm] at hmax
    exact ⟨hends, (Option.some.inj hmax).symm⟩
  · rintro ⟨hends, rfl⟩
    exact cutSpecial_ends hends

end

/-! ## All special tokens -/

section
variable {S : Type} (v : Vocabulary S)

/-- The fragments that a fragment is cut into. -/
@[grind =]
def cutAll : List Bytes → Fragment → List Fragment
  | [], frag => [frag]
  | special :: specials, frag => (frag.cutBy special (v.encode special)).flatMap (cutAll specials)

/-- No empty special token meets a text that is not empty. -/
def Ends : List Bytes → Fragment → Prop
  | [], _ => True
  | special :: specials, frag => (special = [] → frag.ids = [] → frag.value = []) ∧
      ∀ f ∈ frag.cutBy special (v.encode special), Ends specials f

theorem foldlM_cutSpecial_iff {specials : List Bytes} {frags out : List Fragment} :
    (∃ n, specials.foldlM (fun frags special => cutSpecial special (v.encode special) n frags) frags = some out) ↔
      (∀ frag ∈ frags, Ends v specials frag) ∧ out = frags.flatMap (cutAll v specials) := by
  induction specials generalizing frags with
  | nil => simp [Ends, cutAll, eq_comm]
  | cons special specials ih =>
    have hflat : (frags.flatMap (·.cutBy special (v.encode special))).flatMap (cutAll v specials) =
        frags.flatMap (cutAll v (special :: specials)) := List.flatMap_assoc
    have hends : (∀ frag ∈ frags, Ends v (special :: specials) frag) ↔
        (∀ frag ∈ frags, special = [] → frag.ids = [] → frag.value = []) ∧
          ∀ f ∈ frags.flatMap (·.cutBy special (v.encode special)), Ends v specials f := by
      simp only [Ends, List.mem_flatMap, forall_exists_index, and_imp]
      exact ⟨fun h => ⟨fun f hf => (h f hf).1, fun f g hg hf => (h g hg).2 f hf⟩,
        fun h f hf => ⟨h.1 f hf, fun g hg => h.2 g f hf hg⟩⟩
    rw [hends, ← hflat, and_assoc, ← ih]
    constructor
    · rintro ⟨n, hn⟩
      rw [List.foldlM_cons, Option.bind_eq_bind, Option.bind_eq_some_iff] at hn
      obtain ⟨mid, hmid, hn⟩ := hn
      obtain ⟨hvalue, rfl⟩ := cutSpecial_iff.mp ⟨n, hmid⟩
      exact ⟨hvalue, n, hn⟩
    · rintro ⟨hvalue, n, hn⟩
      obtain ⟨m, hm⟩ := cutSpecial_iff.mpr ⟨hvalue, rfl⟩
      refine ⟨max m n, ?_⟩
      rw [List.foldlM_cons, cutSpecial_le (Nat.le_max_left m n) hm]
      -- more turns do not change what the other special tokens cut out
      have hle : ∀ {specials : List Bytes} {frags : List Fragment},
          specials.foldlM (fun frags special => cutSpecial special (v.encode special) n frags) frags = some out →
            specials.foldlM (fun frags special => cutSpecial special (v.encode special) (max m n) frags) frags = some out := by
        intro specials
        induction specials with
        | nil => exact fun h => h
        | cons special specials ih =>
          intro frags h
          rw [List.foldlM_cons, Option.bind_eq_bind, Option.bind_eq_some_iff] at h ⊢
          obtain ⟨mid, hmid, h⟩ := h
          exact ⟨mid, cutSpecial_le (Nat.le_max_right m n) hmid, ih h⟩
      exact hle hn

/-- The fragments of a text, if the loop ends. -/
theorem fragments_iff {s : Bytes} {out : List Fragment} : (∃ n, fragments v n s = some out) ↔
    Ends v v.specialVocabulary { value := s } ∧ out = cutAll v v.specialVocabulary { value := s } := by
  unfold fragments
  rw [foldlM_cutSpecial_iff]
  simp

/-- What holds of the stretches that stay text, and of the special tokens that are cut out. -/
def Stretches (P Q : Bytes → Prop) : List Bytes → Bytes → Prop
  | [], s => P s
  | special :: specials, s => (special = [] → s = []) ∧ (special <:+: s → Q special) ∧
      ∀ t ∈ split s special, Stretches P Q specials t

end

section
variable {special : Bytes} {id : Int}

theorem around_ids {n : Nat} {s : Bytes} {frag : Fragment} (h : frag ∈ around special id n s) :
    frag = { value := special, ids := [id] } ∨ frag.ids = [] := by
  induction n generalizing s with
  | zero =>
    obtain rfl := List.mem_singleton.mp h
    exact .inr rfl
  | succ n ih =>
    rw [around] at h
    cases hcut : cut special s with
    | none =>
      rw [hcut] at h
      obtain rfl := List.mem_singleton.mp h
      exact .inr rfl
    | some p =>
      rw [hcut] at h
      obtain h | h := List.mem_append.mp h
      · split_ifs at h
        · obtain rfl := List.mem_singleton.mp h
          exact .inr rfl
        · cases h
      · obtain rfl | h := List.mem_cons.mp h
        · exact .inl rfl
        · split_ifs at h
          · exact ih h
          · cases h

theorem splitUpTo_nil (hspecial : special ≠ []) (n : Nat) : splitUpTo special n [] = [[]] := by
  cases n with
  | zero => rfl
  | succ n => rw [splitUpTo, cut_nil hspecial]

theorem mem_split_of_around {n : Nat} {s t : Bytes}
    (h : ({ value := t } : Fragment) ∈ around special id n s) : t ∈ splitUpTo special n s := by
  induction n generalizing s with
  | zero => simpa [around, splitUpTo] using h
  | succ n ih =>
    rw [around] at h
    rw [splitUpTo]
    cases hcut : cut special s with
    | none => simpa [hcut] using h
    | some p =>
      rw [hcut] at h
      obtain h | h := List.mem_append.mp h
      · split_ifs at h
        · simp_all
        · cases h
      · obtain h | h := List.mem_cons.mp h
        · cases h
        · split_ifs at h
          · exact List.mem_cons_of_mem _ (ih h)
          · cases h

theorem mem_around_of_split (hspecial : special ≠ []) {n : Nat} {s t : Bytes} (ht : t ≠ []) (h : t ∈ splitUpTo special n s) :
    ({ value := t } : Fragment) ∈ around special id n s := by
  induction n generalizing s with
  | zero => simpa [around, splitUpTo] using h
  | succ n ih =>
    rw [splitUpTo] at h
    rw [around]
    cases hcut : cut special s with
    | none => simpa [hcut] using h
    | some p =>
      rw [hcut] at h
      obtain rfl | h := List.mem_cons.mp h
      · simp [ht]
      · have hrest : p.2 ≠ [] := by
          intro hnil
          rw [hnil, splitUpTo_nil hspecial, List.mem_singleton] at h
          exact ht h
        simp [hrest, ih h]

theorem mem_around_special (hspecial : special ≠ []) {n : Nat} {s : Bytes} (hs : s.length ≤ n) :
    { value := special, ids := [id] } ∈ around special id n s ↔ special <:+: s := by
  cases n with
  | zero =>
    obtain rfl := List.length_eq_zero_iff.mp (Nat.le_zero.mp hs)
    simp [around, hspecial]
  | succ n =>
    rw [around]
    cases hcut : cut special s with
    | none => simpa using cut_eq_none_iff_absent.mp hcut
    | some p =>
      have hin : special <:+: s := ⟨p.1, p.2, by rw [(cut_eq_some hcut).1, List.append_assoc]⟩
      simp [hin]

end

section
variable {S : Type} {v : Vocabulary S} {P Q : Bytes → Prop}

theorem stretches_nil (hP : P []) (hQ : Q []) (specials : List Bytes) : Stretches P Q specials [] := by
  induction specials with
  | nil => exact hP
  | cons special specials ih =>
    refine ⟨fun _ => rfl, ?_, ?_⟩
    · intro hin
      rw [List.infix_nil.mp hin]
      exact hQ
    · intro t ht
      rw [List.mem_singleton.mp ht]
      exact ih

/-- What a fragment has to satisfy. -/
def Fragment.Meets (P Q : Bytes → Prop) (frag : Fragment) : Prop := if frag.ids = [] then P frag.value else Q frag.value

theorem cutAll_special {frag : Fragment} (h : frag.ids ≠ []) (specials : List Bytes) :
    Ends v specials frag ∧ cutAll v specials frag = [frag] := by
  induction specials with
  | nil => exact ⟨trivial, rfl⟩
  | cons special specials ih =>
    have hby : frag.cutBy special (v.encode special) = [frag] := if_pos (List.length_pos_iff.mpr h)
    rw [Ends, cutAll, hby]
    exact ⟨⟨fun _ hids => absurd hids h, by simpa using ih.1⟩, by simpa using ih.2⟩

/-- The stretches of a text are as they should be if the loop ends and its fragments are so. -/
theorem stretches_iff (hP : P []) (hQ : Q []) {specials : List Bytes} {s : Bytes} : Stretches P Q specials s ↔
    Ends v specials { value := s } ∧ ∀ frag ∈ cutAll v specials { value := s }, frag.Meets P Q := by
  induction specials generalizing s with
  | nil => simp [Stretches, Ends, cutAll, Fragment.Meets]
  | cons special specials ih =>
    by_cases hspecial : special = []
    · subst hspecial
      by_cases hs : s = []
      · subst hs
        have hby : Fragment.cutBy [] (v.encode []) { value := [] } = [{ value := [], ids := [v.encode []] }] := rfl
        obtain ⟨hends, hcut⟩ := @cutAll_special _ v { value := [], ids := [v.encode []] } (by simp) specials
        have hall := stretches_nil hP hQ ([] :: specials)
        rw [Ends, cutAll, hby, List.flatMap_singleton, hcut]
        simp [hall, hends, Fragment.Meets, hQ]
      · rw [Stretches, Ends]
        simp [hs]
    · have hby : Fragment.cutBy special (v.encode special) { value := s } =
          around special (v.encode special) s.length s := by
        rw [Fragment.cutBy, if_neg (by simp), if_neg hspecial]
      obtain ⟨hends, hcut⟩ := @cutAll_special _ v { value := special, ids := [v.encode special] } (by simp) specials
      rw [Stretches, Ends, cutAll, hby]
      constructor
      · rintro ⟨-, hQs, hall⟩
        have heach : ∀ f ∈ around special (v.encode special) s.length s,
            Ends v specials f ∧ ∀ g ∈ cutAll v specials f, g.Meets P Q := by
          intro f hf
          obtain rfl | hids := around_ids hf
          · rw [hcut]
            have hin := (mem_around_special hspecial (Nat.le_refl _)).mp hf
            exact ⟨hends, by simpa [Fragment.Meets] using hQs hin⟩
          · obtain ⟨t, ids⟩ := f
            obtain rfl : ids = [] := hids
            exact ih.mp (hall t (mem_split_of_around hf))
        refine ⟨⟨fun h => absurd h hspecial, fun f hf => (heach f hf).1⟩, ?_⟩
        intro g hg
        obtain ⟨f, hf, hg⟩ := List.mem_flatMap.mp hg
        exact (heach f hf).2 g hg
      · rintro ⟨⟨-, hall⟩, hmeets⟩
        refine ⟨fun h => absurd h hspecial, ?_, ?_⟩
        · intro hin
          have hf := (@mem_around_special _ (v.encode special) hspecial _ _ (Nat.le_refl _)).mpr hin
          have hmeet := hmeets _ (List.mem_flatMap.mpr ⟨_, hf, by rw [hcut]; exact List.mem_singleton_self _⟩)
          simpa [Fragment.Meets] using hmeet
        · intro t ht
          by_cases hne : t = []
          · rw [hne]
            exact stretches_nil hP hQ specials
          · have hf := @mem_around_of_split _ (v.encode special) hspecial _ _ _ hne ht
            exact ih.mpr ⟨hall _ hf, fun g hg => hmeets g (List.mem_flatMap.mpr ⟨_, hf, hg⟩)⟩

end

/-! ## The fragments of a text -/

section
variable {S : Type} {v : Vocabulary S}

theorem values_around (special : Bytes) (id : Int) (n : Nat) (s : Bytes) : (around special id n s).flatMap (·.value) = s := by
  induction n generalizing s with
  | zero => simp [around]
  | succ n ih =>
    rw [around]
    cases hcut : cut special s with
    | none => simp
    | some p =>
      have hbefore : (if p.1 ≠ [] then [({ value := p.1 } : Fragment)] else []).flatMap (·.value) = p.1 := by
        split_ifs with h
        · simp
        · simp [not_not.mp h]
      have hrest : (if p.2 ≠ [] then around special id n p.2 else []).flatMap (·.value) = p.2 := by
        split_ifs with h
        · exact ih p.2
        · simp [not_not.mp h]
      dsimp only
      rw [List.flatMap_append, hbefore, List.flatMap_cons, hrest]
      exact (cut_eq_some hcut).1.symm

/-- Nothing of a text is lost when it is cut. -/
theorem values_cutAll {specials : List Bytes} {frag : Fragment} (h : Ends v specials frag) :
    (cutAll v specials frag).flatMap (·.value) = frag.value := by
  induction specials generalizing frag with
  | nil => simp [cutAll]
  | cons special specials ih =>
    obtain ⟨hvalue, hrest⟩ := h
    rw [cutAll, List.flatMap_assoc]
    have heach : (frag.cutBy special (v.encode special)).flatMap (fun f => (cutAll v specials f).flatMap (·.value)) =
        (frag.cutBy special (v.encode special)).flatMap (·.value) := by
      rw [List.flatMap_def, List.flatMap_def]
      exact congrArg _ (List.map_congr_left fun f hf => ih (hrest f hf))
    rw [heach, Fragment.cutBy]
    split_ifs with hids hspecial
    · simp
    · have hnil : frag.ids = [] := List.length_eq_zero_iff.mp (by omega)
      simp [hspecial, hvalue hspecial hnil]
    · exact values_around ..

/-- A fragment is text, or a special token with its id. -/
def Fragment.Sound (v : Vocabulary S) (frag : Fragment) : Prop :=
  frag.ids = [] ∨ (frag.ids = [v.encode frag.value] ∧ frag.value ∈ v.values)

theorem sound_cutAll {specials : List Bytes} (hspecials : ∀ special ∈ specials, special ∈ v.values) {frag : Fragment}
    (h : frag.Sound v) : ∀ f ∈ cutAll v specials frag, f.Sound v := by
  induction specials generalizing frag with
  | nil =>
    intro f hf
    rwa [List.mem_singleton.mp hf]
  | cons special specials ih =>
    intro f hf
    obtain ⟨g, hg, hf⟩ := List.mem_flatMap.mp hf
    have hvalue := hspecials special (List.mem_cons_self ..)
    refine ih (fun sp hsp => hspecials sp (List.mem_cons_of_mem _ hsp)) ?_ f hf
    rw [Fragment.cutBy] at hg
    split_ifs at hg
    · rwa [List.mem_singleton.mp hg]
    · rw [List.mem_singleton.mp hg]
      exact .inr ⟨rfl, hvalue⟩
    · obtain rfl | hids := around_ids hg
      · exact .inr ⟨rfl, hvalue⟩
      · exact .inl hids

theorem valid_around {special : Bytes} (hspecial : special ≠ []) {id : Int} {n : Nat} {s : Bytes}
    (hs : validString s = true) (h : special <:+: s → validString special = true) :
    ∀ f ∈ around special id n s, validString f.value = true := by
  induction n generalizing s with
  | zero =>
    intro f hf
    rwa [List.mem_singleton.mp hf]
  | succ n ih =>
    intro f hf
    rw [around] at hf
    cases hcut : cut special s with
    | none =>
      rw [hcut] at hf
      rwa [List.mem_singleton.mp hf]
    | some p =>
      have hsplit := (cut_eq_some hcut).1
      have hin : special <:+: s := ⟨p.1, p.2, by rw [hsplit, List.append_assoc]⟩
      have hvalid := h hin
      rw [hsplit] at hs
      have hbefore : validString p.1 = true := validString_left hvalid hspecial hs
      have hrest : validString p.2 = true := validString_right hvalid (validString_right hbefore hs)
      rw [hcut] at hf
      obtain hf | hf := List.mem_append.mp hf
      · split_ifs at hf
        · rwa [List.mem_singleton.mp hf]
        · cases hf
      · obtain rfl | hf := List.mem_cons.mp hf
        · exact hvalid
        · split_ifs at hf
          · exact ih hrest (fun _ => hvalid) f hf
          · cases hf

/-- If all special tokens that are cut out are valid strings, the stretches between them are. -/
theorem valid_cutAll {specials : List Bytes} {frag : Fragment} (hends : Ends v specials frag)
    (hs : validString frag.value = true)
    (h : ∀ f ∈ cutAll v specials frag, f.ids ≠ [] → validString f.value = true) :
    ∀ f ∈ cutAll v specials frag, validString f.value = true := by
  induction specials generalizing frag with
  | nil =>
    intro f hf
    rwa [List.mem_singleton.mp hf]
  | cons special specials ih =>
    have hby : ∀ f ∈ frag.cutBy special (v.encode special), validString f.value = true := by
      have hin : ∀ f ∈ frag.cutBy special (v.encode special), f.ids ≠ [] → validString f.value = true := by
        intro f hf hids
        refine h f (List.mem_flatMap.mpr ⟨f, hf, ?_⟩) hids
        rw [(cutAll_special hids specials).2]
        exact List.mem_singleton_self f
      intro f hf
      by_cases hids : f.ids = []
      · rw [Fragment.cutBy] at hf hin
        split_ifs at hf hin with hlen hspecial
        · rwa [List.mem_singleton.mp hf]
        · rw [List.mem_singleton.mp hf] at hids
          cases hids
        · refine valid_around hspecial hs ?_ f hf
          intro hinfix
          have hmem := (@mem_around_special _ (v.encode special) hspecial _ _ (Nat.le_refl _)).mpr hinfix
          exact hin _ hmem (by simp)
      · exact hin f hf hids
    intro f hf
    obtain ⟨g, hg, hf⟩ := List.mem_flatMap.mp hf
    exact ih (hends.2 g hg) (hby g hg) (fun f' hf' => h f' (List.mem_flatMap.mpr ⟨g, hg, hf'⟩)) f hf

end

end Xdragon.Tokenizer
