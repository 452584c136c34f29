import Xdragon.Harmony.Parser

/-!
# Harmony messages in pieces

The events of the parser, with adjacent contents put together, are those of the uncut text, and so
is all that the handler makes of them.
-/

namespace Xdragon.Harmony

open Xdragon.Lib

/-! ## Merged events -/

/-- Puts an event in front, and a content together with a content there. -/
def addEvent : HarmonyEvent → List HarmonyEvent → List HarmonyEvent
  | .contentEmitted a, .contentEmitted b :: es => .contentEmitted (a ++ b) :: es
  | e, es => e :: es

def merged (es : List HarmonyEvent) : List HarmonyEvent := es.foldr addEvent []

theorem merged_append (es es' : List HarmonyEvent) : merged (es ++ es') = es.foldr addEvent (merged es') := by
  rw [merged, List.foldr_append]
  rfl

theorem merged_congr {es es' : List HarmonyEvent} (h : merged es = merged es') (front : List HarmonyEvent) :
    merged (front ++ es) = merged (front ++ es') := by
  rw [merged_append, merged_append, h]

theorem addEvent_content (a b : Bytes) (es : List HarmonyEvent) :
    addEvent (.contentEmitted (a ++ b)) es = addEvent (.contentEmitted a) (addEvent (.contentEmitted b) es) := by
  cases es with
  | nil => rfl
  | cons e es => cases e <;> simp [addEvent]

theorem merged_emit (a b : Bytes) (es : List HarmonyEvent) :
    merged (emit (a ++ b) ++ es) = merged (emit a ++ (emit b ++ es)) := by
  by_cases ha : a = []
  · simp [ha, emit]
  by_cases hb : b = []
  · simp [hb, emit]
  · simp only [emit, ha, hb, List.append_eq_nil_iff, and_self, if_false, List.cons_append, List.nil_append]
    exact addEvent_content a b _

/-- A content is part of a content of the merged events. -/
theorem exists_mem_merged {es : List HarmonyEvent} {b : Bytes} (h : .contentEmitted b ∈ es) :
    ∃ b', .contentEmitted b' ∈ merged es ∧ b <:+: b' := by
  induction es with
  | nil => cases h
  | cons e es ih =>
    have hcons : ∀ b', .contentEmitted b' ∈ merged es → ∃ b'', .contentEmitted b'' ∈ merged (e :: es) ∧ b' <:+: b'' := by
      intro b' hb'
      rw [merged, List.foldr_cons, ← merged]
      unfold addEvent
      split
      · rename_i a b₁ rest hrest
        rw [hrest, List.mem_cons] at hb'
        obtain heq | hb' := hb'
        · cases heq
          exact ⟨a ++ b', List.mem_cons_self .., (List.suffix_append _ _).isInfix⟩
        · exact ⟨b', List.mem_cons_of_mem _ hb', List.infix_rfl⟩
      · exact ⟨b', List.mem_cons_of_mem _ hb', List.infix_rfl⟩
    rw [List.mem_cons] at h
    obtain rfl | h := h
    · rw [merged, List.foldr_cons, ← merged]
      unfold addEvent
      split
      · rename_i a b₁ rest heq hrest
        cases heq
        exact ⟨_, List.mem_cons_self .., (List.prefix_append _ _).isInfix⟩
      · exact ⟨b, List.mem_cons_self .., List.infix_rfl⟩
    · obtain ⟨b', hb', hin⟩ := ih h
      obtain ⟨b'', hb'', hin'⟩ := hcons b' hb'
      exact ⟨b'', hb'', hin.trans hin'⟩

/-- Taking contents one after another as one does not change what a fold makes of them. -/
theorem foldl_merged {β : Type*} {f : β → HarmonyEvent → β}
    (hf : ∀ x a b, f (f x (.contentEmitted a)) (.contentEmitted b) = f x (.contentEmitted (a ++ b))) (x : β)
    (es : List HarmonyEvent) : (merged es).foldl f x = es.foldl f x := by
  induction es generalizing x with
  | nil => rfl
  | cons e es ih =>
    rw [merged, List.foldr_cons, ← merged, List.foldl_cons, ← ih]
    unfold addEvent
    split
    · rename_i a b rest hrest
      rw [hrest, List.foldl_cons, List.foldl_cons, hf]
    · rfl

/-! ## What a text is parsed to -/

/-- The events of a parser that works until it needs more text, and the parser then. -/
inductive Parses : HarmonyParser → List HarmonyEvent → HarmonyParser → Prop
  | search {s : HarmonyParser} : s.state = .lookingForMessageStart → cut s.messageStartTag s.acc = none → Parses s [] s
  | start {s s' : HarmonyParser} {before after : Bytes} {es : List HarmonyEvent} : s.state = .lookingForMessageStart →
      cut s.messageStartTag s.acc = some (before, after) → Parses { s with acc := after, state := .parsingHeader } es s' →
      Parses s (.messageStart :: es) s'
  | wait {s : HarmonyParser} : s.state = .parsingHeader → cut s.headerEndTag s.acc = none → Parses s [] s
  | header {s s' : HarmonyParser} {before after : Bytes} {es : List HarmonyEvent} : s.state = .parsingHeader →
      cut s.headerEndTag s.acc = some (before, after) → Parses { s with acc := after, state := .parsingContent } es s' →
      Parses s (.headerComplete (parseHeader before) :: es) s'
  | content {s : HarmonyParser} : s.state = .parsingContent → cut s.messageEndTag s.acc = none →
      Parses s (emit (released s.messageEndTag s.acc)) { s with acc := withheld s.messageEndTag s.acc }
  | finish {s s' : HarmonyParser} {before after : Bytes} {es : List HarmonyEvent} : s.state = .parsingContent →
      cut s.messageEndTag s.acc = some (before, after) →
      Parses { s with acc := after, state := .lookingForMessageStart } es s' →
      Parses s (emit before ++ .messageEnd :: es) s'

/-- The tags of a parser are not empty. -/
structure HarmonyParser.Tagged (s : HarmonyParser) : Prop where
  start : s.messageStartTag ≠ []
  header : s.headerEndTag ≠ []
  finish : s.messageEndTag ≠ []

theorem HarmonyParser.Tagged.exists_parses {s : HarmonyParser} (hs : s.Tagged) : ∃ es s', Parses s es s' := by
  have hpos := List.length_pos_iff.mpr hs.start
  have hpos' := List.length_pos_iff.mpr hs.header
  have hpos'' := List.length_pos_iff.mpr hs.finish
  induction hn : s.acc.length using Nat.strong_induction_on generalizing s with
  | _ n ih =>
    cases hstate : s.state with
    | lookingForMessageStart =>
      cases hcut : cut s.messageStartTag s.acc with
      | none => exact ⟨_, _, .search hstate hcut⟩
      | some p =>
        have hlen := length_of_cut hcut
        obtain ⟨es, s', h⟩ := ih p.2.length (by omega) (s := { s with acc := p.2, state := .parsingHeader })
          ⟨hs.start, hs.header, hs.finish⟩ hpos hpos' hpos'' rfl
        exact ⟨_, _, .start hstate hcut h⟩
    | parsingHeader =>
      cases hcut : cut s.headerEndTag s.acc with
      | none => exact ⟨_, _, .wait hstate hcut⟩
      | some p =>
        have hlen := length_of_cut hcut
        obtain ⟨es, s', h⟩ := ih p.2.length (by omega) (s := { s with acc := p.2, state := .parsingContent })
          ⟨hs.start, hs.header, hs.finish⟩ hpos hpos' hpos'' rfl
        exact ⟨_, _, .header hstate hcut h⟩
    | parsingContent =>
      cases hcut : cut s.messageEndTag s.acc with
      | none => exact ⟨_, _, .content hstate hcut⟩
      | some p =>
        have hlen := length_of_cut hcut
        obtain ⟨es, s', h⟩ := ih p.2.length (by omega) (s := { s with acc := p.2, state := .lookingForMessageStart })
          ⟨hs.start, hs.header, hs.finish⟩ hpos hpos' hpos'' rfl
        exact ⟨_, _, .finish hstate hcut h⟩

theorem eat_content {s : HarmonyParser} (hs : s.state = .parsingContent) (hcut : cut s.messageEndTag s.acc = none) :
    s.eat = (emit (released s.messageEndTag s.acc), { s with acc := withheld s.messageEndTag s.acc }, false) := by
  unfold HarmonyParser.eat released withheld
  rw [hs, hcut]
  dsimp only
  split_ifs with h
  · rw [← hs]
  · obtain h0 : overlap s.acc s.messageEndTag = 0 := by omega
    rw [h0, Nat.sub_zero, List.take_length, List.drop_length, ← hs]

/-- The rounds of a call give the events, and there are enough of them. -/
theorem rounds_of_parses {s s' : HarmonyParser} {es : List HarmonyEvent} (h : Parses s es s') (hs : s.Tagged) {n : Nat}
    (hn : s.acc.length < n) : ∃ outs, rounds HarmonyParser.eat n s = some (outs, s') ∧ outs.flatten = es := by
  induction h generalizing n with
  | @search s hstate hcut =>
    obtain ⟨n, rfl⟩ : ∃ m, n = m + 1 := ⟨n - 1, by omega⟩
    have heat : s.eat = ([], s, false) := by
      rw [HarmonyParser.eat, hstate]
      dsimp only
      rw [hcut]
    exact ⟨_, rounds_stop heat, rfl⟩
  | @wait s hstate hcut =>
    obtain ⟨n, rfl⟩ : ∃ m, n = m + 1 := ⟨n - 1, by omega⟩
    have heat : s.eat = ([], s, false) := by
      rw [HarmonyParser.eat, hstate]
      dsimp only
      rw [hcut]
    exact ⟨_, rounds_stop heat, rfl⟩
  | @content s hstate hcut =>
    obtain ⟨n, rfl⟩ : ∃ m, n = m + 1 := ⟨n - 1, by omega⟩
    exact ⟨_, rounds_stop (eat_content hstate hcut), by simp⟩
  | @start s s' before after es hstate hcut _ ih =>
    obtain ⟨n, rfl⟩ : ∃ m, n = m + 1 := ⟨n - 1, by omega⟩
    have heat : s.eat = ([.messageStart], { s with acc := after, state := .parsingHeader }, true) := by
      rw [HarmonyParser.eat, hstate]
      dsimp only
      rw [hcut]
    have hlen := length_of_cut hcut
    have hpos := List.length_pos_iff.mpr hs.start
    obtain ⟨outs, hrounds, houts⟩ := ih ⟨hs.start, hs.header, hs.finish⟩ (n := n) (by dsimp only; omega)
    rw [rounds_more heat, hrounds]
    exact ⟨_, rfl, by rw [List.flatten_cons, houts, List.singleton_append]⟩
  | @header s s' before after es hstate hcut _ ih =>
    obtain ⟨n, rfl⟩ : ∃ m, n = m + 1 := ⟨n - 1, by omega⟩
    have heat : s.eat = ([.headerComplete (parseHeader before)], { s with acc := after, state := .parsingContent }, true) := by
      rw [HarmonyParser.eat, hstate]
      dsimp only
      rw [hcut]
    have hlen := length_of_cut hcut
    have hpos := List.length_pos_iff.mpr hs.header
    obtain ⟨outs, hrounds, houts⟩ := ih ⟨hs.start, hs.header, hs.finish⟩ (n := n) (by dsimp only; omega)
    rw [rounds_more heat, hrounds]
    exact ⟨_, rfl, by rw [List.flatten_cons, houts, List.singleton_append]⟩
  | @finish s s' before after es hstate hcut _ ih =>
    obtain ⟨n, rfl⟩ : ∃ m, n = m + 1 := ⟨n - 1, by omega⟩
    have heat : s.eat = (emit before ++ [.messageEnd], { s with acc := after, state := .lookingForMessageStart }, true) := by
      rw [HarmonyParser.eat, hstate]
      dsimp only
      rw [hcut]
    have hlen := length_of_cut hcut
    have hpos := List.length_pos_iff.mpr hs.finish
    obtain ⟨outs, hrounds, houts⟩ := ih ⟨hs.start, hs.header, hs.finish⟩ (n := n) (by dsimp only; omega)
    rw [rounds_more heat, hrounds]
    exact ⟨_, rfl, by rw [List.flatten_cons, houts, List.append_assoc, List.singleton_append]⟩

theorem addContent_of_parses {s s' : HarmonyParser} {es : List HarmonyEvent} (hs : s.Tagged) (content : Bytes)
    (h : Parses { s with acc := s.acc ++ content } es s') : s.addContent content = some (es, s') := by
  obtain ⟨outs, hrounds, houts⟩ := rounds_of_parses h ⟨hs.start, hs.header, hs.finish⟩
    (n := s.acc.length + content.length + 1) (by dsimp only; rw [List.length_append]; omega)
  rw [HarmonyParser.addContent, hrounds, Option.map_some, houts]

theorem Parses.tagged {s s' : HarmonyParser} {es : List HarmonyEvent} (h : Parses s es s') (hs : s.Tagged) : s'.Tagged := by
  induction h with
  | search => exact hs
  | wait => exact hs
  | content => exact ⟨hs.start, hs.header, hs.finish⟩
  | start _ _ _ ih => exact ih ⟨hs.start, hs.header, hs.finish⟩
  | header _ _ _ ih => exact ih ⟨hs.start, hs.header, hs.finish⟩
  | finish _ _ _ ih => exact ih ⟨hs.start, hs.header, hs.finish⟩

/-- A text that is parsed in two parts. -/
theorem Parses.append {s s' s'' : HarmonyParser} {es es' : List HarmonyEvent} (h : Parses s es s') {c : Bytes}
    (h' : Parses { s' with acc := s'.acc ++ c } es' s'') :
    ∃ es'', Parses { s with acc := s.acc ++ c } es'' s'' ∧ merged (es ++ es') = merged es'' := by
  induction h with
  | search => exact ⟨es', h', rfl⟩
  | wait => exact ⟨es', h', rfl⟩
  | start hstate hcut _ ih =>
    obtain ⟨es'', h'', hmerged⟩ := ih h'
    exact ⟨_, .start hstate (cut_append_some hcut c) h'', merged_congr hmerged [.messageStart]⟩
  | header hstate hcut _ ih =>
    obtain ⟨es'', h'', hmerged⟩ := ih h'
    exact ⟨_, .header hstate (cut_append_some hcut c) h'', merged_congr hmerged [.headerComplete _]⟩
  | @finish s _ before _ _ hstate hcut _ ih =>
    obtain ⟨es'', h'', hmerged⟩ := ih h'
    refine ⟨_, .finish hstate (cut_append_some hcut c) h'', ?_⟩
    rw [List.append_assoc]
    exact merged_congr (merged_congr hmerged [.messageEnd]) (emit before)
  | @content s hstate hcut =>
    have happend := cut_append_withheld hcut c
    cases h' with
    | search hstate' => rw [hstate] at hstate'; cases hstate'
    | wait hstate' => rw [hstate] at hstate'; cases hstate'
    | start hstate' => rw [hstate] at hstate'; cases hstate'
    | header hstate' => rw [hstate] at hstate'; cases hstate'
    | content _ hcut' =>
      dsimp only at hcut'
      rw [hcut'] at happend
      have hcontent : Parses { s with acc := s.acc ++ c } (emit (released s.messageEndTag (s.acc ++ c)))
        { s with acc := withheld s.messageEndTag (s.acc ++ c) } := .content hstate happend
      rw [withheld_append_withheld, released_append_withheld_append] at hcontent
      refine ⟨_, hcontent, ?_⟩
      have hemit := merged_emit (released s.messageEndTag s.acc)
        (released s.messageEndTag (withheld s.messageEndTag s.acc ++ c)) []
      rw [List.append_nil, List.append_nil] at hemit
      exact hemit.symm
    | finish _ hcut' hrest =>
      dsimp only at hcut'
      rw [hcut'] at happend
      refine ⟨_, .finish hstate happend hrest, ?_⟩
      exact (merged_emit _ _ _).symm

theorem mem_emit {b c : Bytes} (h : .contentEmitted b ∈ emit c) : b = c := by
  unfold emit at h
  split_ifs at h
  · cases h
  · simpa using h

theorem emit_or (c : Bytes) : emit c = [] ∨ emit c = [.contentEmitted c] := by
  unfold emit
  split_ifs
  · exact .inl rfl
  · exact .inr rfl

/-- The events of one call are merged, and no content has the tag. -/
theorem Parses.events {s s' : HarmonyParser} {es : List HarmonyEvent} (h : Parses s es s') (hs : s.Tagged) :
    merged es = es ∧ ∀ b, .contentEmitted b ∈ es → ¬ s.messageEndTag <:+: b := by
  induction h with
  | search => exact ⟨rfl, fun b hb => (nomatch hb)⟩
  | wait => exact ⟨rfl, fun b hb => (nomatch hb)⟩
  | start _ _ _ ih =>
    replace ih := ih ⟨hs.start, hs.header, hs.finish⟩
    refine ⟨congrArg (addEvent .messageStart) ih.1, fun b hb => ?_⟩
    obtain hb | hb := List.mem_cons.mp hb
    · cases hb
    · exact ih.2 b hb
  | @header _ _ before _ _ _ _ _ ih =>
    replace ih := ih ⟨hs.start, hs.header, hs.finish⟩
    refine ⟨congrArg (addEvent (.headerComplete (parseHeader before))) ih.1, fun b hb => ?_⟩
    obtain hb | hb := List.mem_cons.mp hb
    · cases hb
    · exact ih.2 b hb
  | @content s _ hcut =>
    constructor
    · obtain h | h := emit_or (released s.messageEndTag s.acc) <;> rw [h] <;> rfl
    · intro b hb
      rw [mem_emit hb, ← cut_eq_none_iff_absent]
      rw [← released_append_withheld s.messageEndTag s.acc] at hcut
      exact cut_none_of_append hcut
  | @finish s _ before after es _ hcut _ ih =>
    replace ih := ih ⟨hs.start, hs.header, hs.finish⟩
    constructor
    · have hend : merged (.messageEnd :: es) = .messageEnd :: es := congrArg (addEvent .messageEnd) ih.1
      obtain h | h := emit_or before
      · rw [h]
        exact hend
      · rw [h, List.singleton_append, merged, List.foldr_cons, ← merged, hend]
        rfl
    · intro b hb
      obtain hb | hb := List.mem_append.mp hb
      · rw [mem_emit hb, ← cut_eq_none_iff_absent]
        exact cut_before hs.finish hcut
      · obtain hb | hb := List.mem_cons.mp hb
        · cases hb
        · exact ih.2 b hb

/-! ## Inside a message -/

/-- A text, read from some state, ends inside of a message whose header ends before the body. -/
inductive Inside (p : HarmonyParser) : HarmonyParserState → Bytes → Bytes → Prop
  | body {text : Bytes} : cut p.messageEndTag text = none → Inside p .parsingContent text text
  | start {text before after body : Bytes} : cut p.messageStartTag text = some (before, after) →
      Inside p .parsingHeader after body → Inside p .lookingForMessageStart text body
  | header {text before after body : Bytes} : cut p.headerEndTag text = some (before, after) →
      Inside p .parsingContent after body → Inside p .parsingHeader text body
  | finish {text before after body : Bytes} : cut p.messageEndTag text = some (before, after) →
      Inside p .lookingForMessageStart after body → Inside p .parsingContent text body

/-- The content since the last header. -/
def since (x : Bytes) : HarmonyEvent → Bytes
  | .headerComplete _ => []
  | .contentEmitted b => x ++ b
  | _ => x

def sinceHeader (es : List HarmonyEvent) : Bytes := es.foldl since []

theorem sinceHeader_merged (es : List HarmonyEvent) : sinceHeader (merged es) = sinceHeader es :=
  foldl_merged (fun x a b => by simp [since]) [] es

theorem foldl_since_emit (x b : Bytes) : (emit b).foldl since x = x ++ b := by
  obtain h | h := emit_or b
  · rw [h]
    unfold emit at h
    split_ifs at h with hb
    simp [hb]
  · rw [h]
    rfl

theorem Inside.congr {p : HarmonyParser} {q : HarmonyParserState} {text body : Bytes} (h : Inside p q text body)
    (p' : HarmonyParser) (h1 : p.messageStartTag = p'.messageStartTag) (h2 : p.headerEndTag = p'.headerEndTag)
    (h3 : p.messageEndTag = p'.messageEndTag) : Inside p' q text body := by
  induction h with
  | body hcut => exact .body (h3 ▸ hcut)
  | start hcut _ ih => exact .start (h1 ▸ hcut) ih
  | header hcut _ ih => exact .header (h2 ▸ hcut) ih
  | finish hcut _ ih => exact .finish (h3 ▸ hcut) ih

theorem Parses.inside {s s' : HarmonyParser} {es : List HarmonyEvent} (h : Parses s es s') (hs' : s'.state = .parsingContent) :
    ∃ body, Inside s s.state s.acc body ∧
      ∀ x, (s.state = .parsingContent → x = []) → es.foldl since x ++ s'.acc = body := by
  induction h with
  | search hstate =>
    rw [hstate] at hs'
    cases hs'
  | wait hstate =>
    rw [hstate] at hs'
    cases hs'
  | @content s hstate hcut =>
    rw [hstate]
    refine ⟨s.acc, .body hcut, fun x hx => ?_⟩
    rw [foldl_since_emit, hx rfl, List.nil_append, released_append_withheld]
  | @start s _ _ _ _ hstate hcut _ ih =>
    obtain ⟨body, hin, hbody⟩ := ih hs'
    rw [hstate]
    exact ⟨body, .start hcut (hin.congr s rfl rfl rfl), fun x _ => hbody x fun h => (nomatch h)⟩
  | @header s _ _ _ _ hstate hcut _ ih =>
    obtain ⟨body, hin, hbody⟩ := ih hs'
    rw [hstate]
    exact ⟨body, .header hcut (hin.congr s rfl rfl rfl), fun x _ => hbody [] fun _ => rfl⟩
  | @finish s _ before _ es hstate hcut _ ih =>
    obtain ⟨body, hin, hbody⟩ := ih hs'
    rw [hstate]
    refine ⟨body, .finish hcut (hin.congr s rfl rfl rfl), fun x _ => ?_⟩
    rw [List.foldl_append, List.foldl_cons]
    exact hbody _ fun h => (nomatch h)

/-! ## The handler -/

theorem Texts.append_assoc (a b c : Texts) : (a.append b).append c = a.append (b.append c) := by
  simp [Texts.append]

theorem handleAll_append (q : HarmonyMessageState × Option Bytes) (es es' : List HarmonyEvent) :
    handleAll q (es ++ es') = ((handleAll (handleAll q es).1 es').1, (handleAll q es).2.append (handleAll (handleAll q es).1 es').2) := by
  induction es generalizing q with
  | nil => simp [handleAll, Texts.append]
  | cons e es ih =>
    rw [List.cons_append, handleAll, ih, handleAll]
    simp only [Texts.append_assoc]

theorem handleAll_merged (q : HarmonyMessageState × Option Bytes) (es : List HarmonyEvent) :
    handleAll q (merged es) = handleAll q es := by
  induction es generalizing q with
  | nil => rfl
  | cons e es ih =>
    have hcons : handleAll q (addEvent e (merged es)) = handleAll q (e :: merged es) := by
      unfold addEvent
      split
      · rename_i a b rest hrest
        obtain ⟨state, toolName⟩ := q
        cases state <;> simp [handleAll, handle, hrest, Texts.append]
      · rfl
    rw [merged, List.foldr_cons, ← merged, hcons, handleAll, handleAll, ih]

/-! ## Chunks -/

theorem addContent_append (s : HarmonyParser) (a : Bytes) (hs : s.Tagged) :
    ∃ r, s.addContent a = some r ∧ r.2.Tagged ∧ Parses { s with acc := s.acc ++ a } r.1 r.2 ∧ ∀ b, ∃ t u,
      r.2.addContent b = some t ∧ s.addContent (a ++ b) = some u ∧ t.2 = u.2 ∧ merged (r.1 ++ t.1) = merged u.1 := by
  have hs₁ : HarmonyParser.Tagged { s with acc := s.acc ++ a } := ⟨hs.start, hs.header, hs.finish⟩
  obtain ⟨es, s', h⟩ := hs₁.exists_parses
  have hs' := h.tagged hs₁
  refine ⟨(es, s'), addContent_of_parses hs a h, hs', h, fun b => ?_⟩
  have hs₂ : HarmonyParser.Tagged { s' with acc := s'.acc ++ b } := ⟨hs'.start, hs'.header, hs'.finish⟩
  obtain ⟨es', s'', h'⟩ := hs₂.exists_parses
  obtain ⟨es'', h'', hmerged⟩ := h.append h'
  rw [List.append_assoc] at h''
  exact ⟨(es', s''), (es'', s''), addContent_of_parses hs' b h', addContent_of_parses hs (a ++ b) h'', rfl, hmerged⟩

/-- The handler makes of the events of all calls what it makes of each. -/
theorem feed_handler {s s' : HarmonyParser} {cs : List Bytes} {es : List HarmonyEvent}
    (h : feed (· ++ ·) [] HarmonyParser.addContent s cs = some (es, s')) (state : HarmonyMessageState) (toolName : Option Bytes) :
    feed Texts.append {} HarmonyMessageHandler.addContent ⟨state, s, toolName⟩ cs =
      some ((handleAll (state, toolName) es).2,
        ⟨(handleAll (state, toolName) es).1.1, s', (handleAll (state, toolName) es).1.2⟩) := by
  induction cs generalizing s es state toolName with
  | nil =>
    simp only [feed, Option.some.injEq, Prod.mk.injEq] at h
    obtain ⟨rfl, rfl⟩ := h
    rfl
  | cons c cs ih =>
    simp only [feed, Option.bind_eq_some_iff, Option.map_eq_some_iff, Prod.mk.injEq] at h
    obtain ⟨r, hr, t, ht, rfl, rfl⟩ := h
    have hrest := ih ht (handleAll (state, toolName) r.1).1.1 (handleAll (state, toolName) r.1).1.2
    simp only [feed, HarmonyMessageHandler.addContent, hr, Option.map_some, Option.bind_some]
    rw [hrest, Option.map_some, handleAll_append]

/-- The parser of a handler. -/
def HarmonyParser.new : HarmonyParser :=
  { messageStartTag := ascii "<|start|>", messageEndTag := ascii "<|end|>", headerEndTag := ascii "<|message|>" }

end Xdragon.Harmony
