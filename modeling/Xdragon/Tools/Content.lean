import Xdragon.Tools.Chunks

/-!
# Content of bare templates

For a tag that is only a brace or a bracket the text is content until a tool call is found. White space
in front of the tag, and text in front of it in its own chunk, take a way of their own.
-/

namespace Xdragon.Tools

open Xdragon.Lib

variable {unmarshal : Bytes → Option Map}

/-- A closed pair from the start of the text, for a bare tag. -/
def closedPair (tag text : Bytes) : Bool :=
  if tag = [openBrace] then closes openBrace closeBrace text 0
  else if tag = [openBracket] then closes openBracket closeBracket text 0
  else false

theorem done_eq (p : Parser) : p.done = closedPair p.tag p.buffer := rfl

variable (unmarshal) in
theorem parseCalls_drains (p : Parser) (content : Bytes) : ∃ calls q, Drains unmarshal p calls q ∧
    p.parseCalls unmarshal content = some (if q.done then ((calls, q.buffer), { q with state := .done, buffer := [] })
      else ((calls, content), q)) := by
  obtain ⟨outs, q, hrounds, hdrains⟩ := rounds_drain unmarshal p (Nat.lt_succ_self _)
  refine ⟨_, q, hdrains, ?_⟩
  rw [Parser.parseCalls, hrounds]
  rfl

/-- Where no call is found the buffer is kept, or given back if a pair is closed. -/
theorem parseCalls_none {p q : Parser} {content content' : Bytes}
    (h : p.parseCalls unmarshal content = some (([], content'), q)) :
    (p.done = true ∧ content' = p.buffer ∧ q = { p with state := .done, buffer := [] }) ∨
      (p.done = false ∧ content' = content ∧ q = p) := by
  obtain ⟨calls, r, hdrains, hparse⟩ := parseCalls_drains unmarshal p content
  rw [hparse] at h
  split_ifs at h with hdone
  · cases h
    obtain rfl := hdrains.stays
    exact .inl ⟨hdone, rfl, rfl⟩
  · cases h
    obtain rfl := hdrains.stays
    exact .inr ⟨by simpa using hdone, rfl, rfl⟩

theorem content_of_bare {p : Parser} (hn : p.n = 0) (hbare : bare p.tag = true) : p.content = p.buffer := by
  rw [Parser.content, if_neg (by omega), if_pos hbare]

/-! ## Behind the tag -/

theorem feed_cons_eq {p q : Parser} {c : Bytes} {cs : List Bytes} {content : Bytes}
    (h : Lib.feed together ([], []) (Parser.add unmarshal) p (c :: cs) = some (([], content), q)) :
    ∃ first rest p', p.add unmarshal c = some (([], first), p') ∧
      Lib.feed together ([], []) (Parser.add unmarshal) p' cs = some (([], rest), q) ∧ content = first ++ rest := by
  rw [Lib.feed, Option.bind_eq_some_iff] at h
  obtain ⟨⟨⟨calls, first⟩, p'⟩, hadd, h⟩ := h
  obtain ⟨⟨⟨calls', rest⟩, q'⟩, hfeed, h⟩ := Option.map_eq_some_iff.mp h
  rw [together, Prod.mk.injEq, Prod.mk.injEq, List.append_eq_nil_iff] at h
  obtain ⟨⟨⟨rfl, rfl⟩, hcontent⟩, rfl⟩ := h
  exact ⟨first, rest, p', hadd, hfeed, hcontent.symm⟩

theorem feed_done {p q : Parser} (hstate : p.state = .done) {cs : List Bytes} {content : Bytes}
    (h : Lib.feed together ([], []) (Parser.add unmarshal) p cs = some (([], content), q)) :
    content = cs.flatten ∧ q = p := by
  induction cs generalizing content with
  | nil =>
    cases h
    exact ⟨rfl, rfl⟩
  | cons c cs ih =>
    obtain ⟨first, rest, p', hadd, hfeed, rfl⟩ := feed_cons_eq h
    rw [Parser.add, hstate] at hadd
    cases hadd
    obtain ⟨rfl, rfl⟩ := ih hfeed
    exact ⟨rfl, rfl⟩

/-- Behind the tag all text is given back, or is still there. -/
theorem feed_calling {p q : Parser} (hstate : p.state = .toolCalling) (hn : p.n = 0) (hbare : bare p.tag = true)
    {cs : List Bytes} {content : Bytes}
    (h : Lib.feed together ([], []) (Parser.add unmarshal) p cs = some (([], content), q)) :
    content ++ q.content = p.buffer ++ cs.flatten := by
  induction cs generalizing p content with
  | nil =>
    cases h
    rw [content_of_bare hn hbare, List.flatten_nil, List.append_nil, List.nil_append]
  | cons c cs ih =>
    obtain ⟨first, rest, p', hadd, hfeed, rfl⟩ := feed_cons_eq h
    rw [Parser.add, hstate] at hadd
    obtain ⟨-, rfl, rfl⟩ | ⟨-, rfl, rfl⟩ := parseCalls_none hadd
    · obtain ⟨rfl, rfl⟩ := feed_done (by rfl) hfeed
      have hcontent := content_of_bare (p := { p with state := .done, buffer := [] }) hn hbare
      dsimp only at hcontent ⊢
      rw [hcontent, List.append_nil, List.flatten_cons, List.append_assoc]
    · have hrest := ih (p := { p with state := .toolCalling, buffer := p.buffer ++ c }) rfl hn hbare hfeed
      rw [List.nil_append, hrest, List.flatten_cons, List.append_assoc]

/-! ## In front of the tag -/

/-- A parser that has given back all that it had. -/
def emptied (tools : List Tool) (tag : Bytes) : Parser := { tag, tools }

theorem overlap_bare {b : UInt8} {text : Bytes} (h : cut [b] text = none) : overlap text [b] = 0 := by
  by_contra hne
  have hle := overlap_le_delim text [b]
  have hsuf := overlap_suffix text [b]
  rw [show overlap text [b] = 1 by rw [List.length_singleton] at hle; omega] at hsuf
  exact cut_eq_none_iff_absent.mp h hsuf.isInfix

theorem add_emptied {tools : List Tool} {tag : Bytes} (hbare : bare tag = true) (c : Bytes) :
    (emptied tools tag).add unmarshal c = match cut tag c with
      | none => some (([], c), { emptied tools tag with state := if trimSpace c ≠ [] then .done else .lookingForTag })
      | some (before, after) =>
        if trimSpace before ≠ [] then some (([], c), { emptied tools tag with state := .done, buffer := tag ++ after })
        else Parser.parseCalls unmarshal { emptied tools tag with state := .toolCalling, buffer := tag ++ after } before := by
  rw [Parser.add, emptied]
  dsimp only
  cases hcut : cut tag c with
  | none =>
    have hfind : Parser.findTag { tag, tools, buffer := [] ++ c } = (none, false) := by
      have hoverlap : overlap c tag = 0 := by
        simp only [bare, Bool.or_eq_true, decide_eq_true_eq] at hbare
        obtain rfl | rfl := hbare
        · exact overlap_bare hcut
        · exact overlap_bare hcut
      rw [Parser.findTag, index, List.nil_append, hcut]
      dsimp only [Option.map_none]
      rw [if_neg (by omega)]
    rw [hfind]
    dsimp only
    rw [Option.getD_none, List.nil_append, List.take_length, List.drop_length]
    by_cases hspace : trimSpace c ≠ []
    · rw [if_pos ⟨hbare, hspace⟩, if_pos hspace, List.append_nil]
    · rw [if_neg fun h => hspace h.2, if_neg hspace, if_neg Bool.false_ne_true]
  | some r =>
    obtain ⟨hc, -⟩ := cut_eq_some hcut
    have hfind : Parser.findTag { tag, tools, buffer := [] ++ c } = (some r.1.length, true) := by
      rw [Parser.findTag, index, List.nil_append, hcut]
      rfl
    have hbuffer : c = r.1 ++ (tag ++ r.2) := hc
    rw [hfind]
    dsimp only
    rw [Option.getD_some, List.nil_append]
    conv_lhs => rw [hbuffer, List.take_left, List.drop_left]
    by_cases hspace : trimSpace r.1 ≠ []
    · rw [if_pos ⟨hbare, hspace⟩, if_pos hspace, ← hbuffer]
    · rw [if_neg fun h => hspace h.2, if_neg hspace, if_pos rfl]

/-- The chunk that brings the tag brings nothing in front of it, or white space only and no closed pair. -/
def TagAlone (tag : Bytes) (chunks : List Bytes) : Prop :=
  ∀ c₁ c c₂ before after, chunks = c₁ ++ c :: c₂ → (∀ d ∈ c₁, cut tag d = none ∧ trimSpace d = []) →
    cut tag c = some (before, after) → before = [] ∨ (trimSpace before = [] ∧ closedPair tag (tag ++ after) = false)

theorem tagAlone_cons {tag c : Bytes} {cs : List Bytes} (hcut : cut tag c = none) :
    TagAlone tag (c :: cs) ↔ (trimSpace c = [] → TagAlone tag cs) := by
  constructor
  · intro h hspace c₁ d c₂ before after hcs hall hd
    refine h (c :: c₁) d c₂ before after (by rw [hcs, List.cons_append]) (fun e he => ?_) hd
    obtain rfl | he := List.mem_cons.mp he
    · exact ⟨hcut, hspace⟩
    · exact hall e he
  · intro h c₁ d c₂ before after hcs hall hd
    cases c₁ with
    | nil =>
      obtain ⟨rfl, rfl⟩ := List.cons.inj hcs
      rw [hcut] at hd
      cases hd
    | cons e c₁ =>
      obtain ⟨rfl, htail⟩ := List.cons.inj hcs
      exact h (hall _ (List.mem_cons_self ..)).2 c₁ d c₂ before after htail
        (fun x hx => hall x (List.mem_cons_of_mem _ hx)) hd

theorem tagAlone_tagged {tag c before after : Bytes} {cs : List Bytes} (hcut : cut tag c = some (before, after)) :
    TagAlone tag (c :: cs) ↔ before = [] ∨ (trimSpace before = [] ∧ closedPair tag (tag ++ after) = false) := by
  constructor
  · exact fun h => h [] c cs before after rfl nofun hcut
  · intro h c₁ d c₂ before' after' hcs hall hd
    cases c₁ with
    | nil =>
      obtain ⟨rfl, rfl⟩ := List.cons.inj hcs
      rw [hcut] at hd
      cases hd
      exact h
    | cons e c₁ =>
      obtain ⟨rfl, -⟩ := List.cons.inj hcs
      have := (hall _ (List.mem_cons_self ..)).1
      rw [hcut] at this
      cases this

/-- Without a tool call all text is given back exactly once if and only if the tag comes alone. -/
theorem content_conserved_iff {tools : List Tool} {tag : Bytes} (hbare : bare tag = true) {chunks : List Bytes}
    {content : Bytes} {q : Parser} (h : Lib.feed together ([], []) (Parser.add unmarshal) (newParserWithTag tools tag) chunks =
      some (([], content), q)) :
    content ++ q.content = chunks.flatten ↔ TagAlone tag chunks := by
  change Lib.feed together ([], []) (Parser.add unmarshal) (emptied tools tag) chunks = some (([], content), q) at h
  have hempty : trimSpace [] = [] := rfl
  induction chunks generalizing content with
  | nil =>
    cases h
    refine iff_of_true ?_ fun c₁ c c₂ before after hcs => ?_
    · rw [content_of_bare rfl hbare]
      rfl
    · simp at hcs
  | cons c cs ih =>
    obtain ⟨first, rest, p', hadd, hfeed, rfl⟩ := feed_cons_eq h
    rw [add_emptied hbare] at hadd
    rw [List.flatten_cons]
    cases hcut : cut tag c with
    | none =>
      rw [hcut] at hadd
      rw [tagAlone_cons hcut]
      dsimp only at hadd
      cases hadd
      by_cases hspace : trimSpace c = []
      · rw [if_neg (by simp [hspace])] at hfeed
        have hrest := ih hfeed
        rw [List.append_assoc, List.append_right_inj]
        exact ⟨fun h _ => hrest.mp h, fun h => hrest.mpr (h hspace)⟩
      · rw [if_pos hspace] at hfeed
        obtain ⟨rfl, rfl⟩ := feed_done rfl hfeed
        refine iff_of_true ?_ fun h => absurd h hspace
        rw [content_of_bare rfl hbare]
        exact List.append_nil _
    | some r =>
      obtain ⟨hc, -⟩ := cut_eq_some hcut
      have htag : tag ≠ [] := by
        rintro rfl
        cases hbare
      have hpos := List.length_pos_iff_ne_nil.mpr htag
      rw [hcut] at hadd
      rw [tagAlone_tagged hcut]
      dsimp only at hadd
      split_ifs at hadd with hspace
      · -- the text is given back, and is still there
        cases hadd
        obtain ⟨rfl, rfl⟩ := feed_done rfl hfeed
        refine iff_of_false ?_ ?_
        · intro hall
          have hlen := congrArg List.length hall
          rw [content_of_bare rfl hbare] at hlen
          simp only [List.length_append] at hlen
          omega
        · rintro (hnil | ⟨hnil, -⟩)
          · rw [hnil] at hspace
            exact hspace hempty
          · exact hspace hnil
      · rw [not_not] at hspace
        obtain ⟨hdone, rfl, rfl⟩ | ⟨hdone, rfl, rfl⟩ := parseCalls_none hadd
        · -- the text from the tag on is given back without the white space in front
          obtain ⟨rfl, rfl⟩ := feed_done rfl hfeed
          rw [done_eq] at hdone
          rw [content_of_bare rfl hbare]
          dsimp only [emptied] at hdone ⊢
          rw [List.append_nil, List.append_left_inj, hc, hdone]
          constructor
          · intro hall
            have hlen := congrArg List.length hall
            simp only [List.length_append] at hlen
            exact .inl (List.eq_nil_of_length_eq_zero (by omega))
          · rintro (hnil | ⟨-, hno⟩)
            · rw [hnil]
              rfl
            · cases hno
        · have hall := feed_calling (by rfl) rfl hbare hfeed
          rw [done_eq] at hdone
          refine iff_of_true ?_ (.inr ⟨hspace, hdone⟩)
          rw [List.append_assoc, hall, hc]
          simp

/-- Text in front of the tag in the same chunk: what follows comes twice. -/
theorem codeText_twice : ∃ content q,
    Lib.feed together ([], []) (Parser.add decodeWeather) (newParserWithTag [] [openBrace])
      [ascii "hello \x7bx"] = some (([], content), q) ∧
    content ++ q.content = ascii "hello \x7bx\x7bx" ∧ content ++ q.content ≠ [ascii "hello \x7bx"].flatten := by
  refine ⟨ascii "hello \x7bx", { tag := [openBrace], tools := [], state := .done, buffer := ascii "\x7bx" }, by rfl, ?_, ?_⟩
  · decide
  · decide

/-- An object that calls no tool, after white space in a chunk of its own. -/
theorem spacedObject_conserved : ∃ content q,
    Lib.feed together ([], []) (Parser.add decodeWeather) (newParserWithTag [] [openBrace])
      [ascii " ", ascii "\x7b\x7d"] = some (([], content), q) ∧
    content ++ q.content = [ascii " ", ascii "\x7b\x7d"].flatten := by
  obtain ⟨q, hfeed⟩ : ∃ q, Lib.feed together ([], []) (Parser.add decodeWeather) (newParserWithTag [] [openBrace])
      [ascii " ", ascii "\x7b\x7d"] = some (([], ascii " \x7b\x7d"), q) := ⟨_, by rfl⟩
  refine ⟨_, q, hfeed, (content_conserved_iff (by decide) hfeed).mpr ?_⟩
  have hcut : cut [openBrace] (ascii "\x7b\x7d") = some ([], ascii "\x7d") := by decide
  rw [tagAlone_cons (by decide), tagAlone_tagged hcut]
  exact fun _ => .inl rfl

end Xdragon.Tools
