import Xdragon.Parsers.Qwen3Rounds

/-!
# Qwen3 output in pieces

The chunks give what the uncut text gives, unless a chunk ends behind a tool call or behind the opening
tag of the thinking and what follows shows it.
-/

namespace Xdragon.Parsers.Qwen3

open Xdragon.Lib

/-! ## Text that comes later -/

/-- What the parser makes of later text, where the white space behind a tool call is dropped. -/
def Parts.resume (a : Parts) (c : Str) : Parts :=
  if a.behindCall then
    { contentParts (trimLeft c) with behindCall := trimLeft c = [] || (contentParts (trimLeft c)).behindCall }
  else Qwen3Parser.parts { state := a.state, maybeThinkingOpenAtBOL := a.maybeThinkingOpenAtBOL } (a.buffer ++ c)

/-- The parts of a text whose second half is read later. -/
def Parts.append (a b : Parts) : Parts :=
  { b with
    content := a.content ++ b.content
    thinking := a.thinking ++ b.thinking
    toolCalls := a.toolCalls ++ b.toolCalls }

def Resumes (f : Str → Parts) (text : Str) : Prop := ∀ c, f (text ++ c) = (f text).append ((f text).resume c)

theorem nil_append (b : Parts) (state : Qwen3ParserState) (flag : Bool) (buffer : Str) :
    Parts.append { state, maybeThinkingOpenAtBOL := flag, buffer } b = b := by
  simp [Parts.append]

theorem resumes_eaten {state : Qwen3ParserState} {parts : Str → Parts}
    (hstate : Qwen3Parser.parts { state := state } = eatenParts state parts) {text : Str}
    (h : Resumes parts (trimLeft text)) : Resumes (eatenParts state parts) text := by
  intro c
  by_cases hempty : trimLeft text = []
  · have happend : eatenParts state parts (text ++ c) = eatenParts state parts c := by
      unfold eatenParts
      rw [trimLeft_append, if_pos hempty]
    rw [happend, eatenParts_empty hempty, nil_append, Parts.resume, if_neg (by simp), hstate]
    rfl
  · have hne : trimLeft (text ++ c) ≠ [] := by
      rw [trimLeft_append, if_neg hempty]
      simp [hempty]
    rw [eatenParts_ne hempty, eatenParts_ne hne, trimLeft_append, if_neg hempty]
    exact h c

theorem resumes_tool {text : Str} (h : ∀ raw rest, cut toolCloseTag text = some (raw, rest) →
    Resumes contentParts (trimLeft rest)) : Resumes toolParts text := by
  intro c
  cases hcut : cut toolCloseTag text with
  | none =>
    rw [toolParts_none hcut, nil_append, Parts.resume, if_neg (by simp)]
    rfl
  | some q =>
    rw [toolParts_some hcut, toolParts_some (cut_append_some hcut c), trimLeft_append]
    by_cases hempty : trimLeft q.2 = []
    · simp [hempty, contentParts_nil, Parts.append, Parts.resume, (contentParts_plain _).thinking]
    · have hrest := h q.1 q.2 hcut c
      rw [if_neg hempty, hrest]
      simp [Parts.append, Parts.resume, hempty]

theorem resumes_content (text : Str) : Resumes contentParts text := by
  induction hn : text.length using Nat.strong_induction_on generalizing text with
  | _ n ih =>
    intro c
    cases hcut : cut toolOpenTag text with
    | none =>
      have happend := cut_append_pending isSpace c hcut
      have hresume : Parts.resume (contentParts text) c = contentParts (pending isSpace toolOpenTag text ++ c) := by
        rw [contentParts_none hcut, Parts.resume, if_neg (by simp)]
        rfl
      rw [hresume, contentParts_none hcut]
      cases hc : cut toolOpenTag (pending isSpace toolOpenTag text ++ c) with
      | none =>
        rw [hc] at happend
        rw [contentParts_none happend, contentParts_none hc, settled_append, pending_append]
        simp [Parts.append]
      | some q =>
        rw [hc] at happend
        rw [contentParts_some happend, contentParts_some hc, trimRight, rdropWhile_settled]
        unfold eatenParts
        split_ifs <;> simp [Parts.append, trimRight]
    | some q =>
      have htool : Resumes (eatenParts .toolStartedEatingWhitespace toolParts) q.2 := by
        refine resumes_eaten rfl (resumes_tool fun raw rest hrest => ih _ ?_ _ rfl)
        have h1 := length_of_cut hcut
        have h2 := length_of_cut hrest
        have h3 := length_trimLeft rest
        have h4 := length_trimLeft q.2
        have h5 : toolOpenTag.length = 11 := rfl
        omega
      rw [contentParts_some (cut_append_some hcut c), contentParts_some hcut, htool c]
      simp [Parts.append, Parts.resume]

theorem resumes_toolParts (text : Str) : Resumes toolParts text := resumes_tool fun _ _ _ => resumes_content _

theorem resumes_thinking (text : Str) : Resumes thinkingParts text := by
  intro c
  cases hcut : cut thinkingCloseTag text with
  | none =>
    have happend := cut_append_pending isSpace c hcut
    have hresume : Parts.resume (thinkingParts text) c = thinkingParts (pending isSpace thinkingCloseTag text ++ c) := by
      rw [thinkingParts_none hcut, Parts.resume, if_neg (by simp)]
      exact parts_thinking rfl rfl _
    rw [hresume, thinkingParts_none hcut]
    cases hc : cut thinkingCloseTag (pending isSpace thinkingCloseTag text ++ c) with
    | none =>
      rw [hc] at happend
      rw [thinkingParts_none happend, thinkingParts_none hc, settled_append, pending_append]
      simp [Parts.append]
    | some q =>
      rw [hc] at happend
      rw [thinkingParts_some happend, thinkingParts_some hc, trimRight, rdropWhile_settled]
      simp [Parts.append, trimRight]
  | some q =>
    have hrest : Resumes (eatenParts .thinkingDoneEatingWhitespace contentParts) q.2 := resumes_eaten rfl (resumes_content _)
    have hplain : ∀ t, (eatenParts .thinkingDoneEatingWhitespace contentParts t).thinking = [] := by
      intro t
      unfold eatenParts
      split_ifs
      · rfl
      · exact (contentParts_plain _).thinking
    have hnone := congrArg Parts.thinking (hrest c)
    rw [hplain, Parts.append] at hnone
    dsimp only at hnone
    rw [hplain, List.nil_append] at hnone
    have hresume : Parts.resume { eatenParts .thinkingDoneEatingWhitespace contentParts q.2 with thinking := trimRight q.1 } c =
        Parts.resume (eatenParts .thinkingDoneEatingWhitespace contentParts q.2) c := rfl
    rw [thinkingParts_some (cut_append_some hcut c), thinkingParts_some hcut, hrest c, hresume]
    simp [Parts.append, ← hnone]

/-- The text so far ends behind an opening tag that the parser drops, so that the flag stays. -/
def BehindOpening (text : Str) : Prop :=
  thinkingOpenTag <+: trimLeft text ∧ trimLeft ((trimLeft text).drop thinkingOpenTag.length) = []

instance (text : Str) : Decidable (BehindOpening text) := inferInstanceAs (Decidable (_ ∧ _))

theorem openedParts_behind {text : Str} (h : BehindOpening text) :
    openedParts text = { state := .collectingThinking, maybeThinkingOpenAtBOL := true } := by
  unfold openedParts
  dsimp only
  rw [if_pos h.1, if_pos h.2]

theorem openedParts_tag {text : Str} (h : thinkingOpenTag <+: trimLeft text) (hne : ¬ BehindOpening text) :
    openedParts text = thinkingParts (trimLeft ((trimLeft text).drop thinkingOpenTag.length)) := by
  unfold openedParts
  dsimp only
  rw [if_pos h, if_neg fun hempty => hne ⟨h, hempty⟩]

theorem openedParts_waiting {text : Str} (h : ¬ thinkingOpenTag <+: trimLeft text) (hpre : trimLeft text <+: thinkingOpenTag) :
    openedParts text = { state := .collectingThinking, maybeThinkingOpenAtBOL := true, buffer := text } := by
  unfold openedParts
  dsimp only
  rw [if_neg h, if_pos hpre]

theorem openedParts_plain {text : Str} (h : ¬ thinkingOpenTag <+: trimLeft text) (hpre : ¬ trimLeft text <+: thinkingOpenTag) :
    openedParts text = thinkingParts text := by
  unfold openedParts
  dsimp only
  rw [if_neg h, if_neg hpre]

theorem trimLeft_append_tag {tag s : Str} (htag : tag ≠ []) (h : tag <+: trimLeft s) (c : Str) :
    trimLeft (s ++ c) = trimLeft s ++ c := by
  rw [trimLeft_append, if_neg]
  intro hnil
  rw [hnil, List.prefix_nil] at h
  exact htag h

/-- Before the flag goes, later text is read as if it had come at once, except behind an opening tag. -/
theorem resumes_opened {text : Str} (h : ¬ BehindOpening text) : Resumes openedParts text := by
  intro c
  by_cases hopen : thinkingOpenTag <+: trimLeft text
  · have htrim := trimLeft_append_tag (by decide) hopen c
    have hdrop : (trimLeft text ++ c).drop thinkingOpenTag.length = (trimLeft text).drop thinkingOpenTag.length ++ c :=
      List.drop_append_of_le_length hopen.length_le
    have hne : trimLeft ((trimLeft text).drop thinkingOpenTag.length) ≠ [] := fun hempty => h ⟨hopen, hempty⟩
    have hbehind : ¬ BehindOpening (text ++ c) := by
      rintro ⟨-, hempty⟩
      rw [htrim, hdrop, trimLeft_append, if_neg hne, List.append_eq_nil_iff] at hempty
      exact hne hempty.1
    rw [openedParts_tag hopen h, openedParts_tag (htrim ▸ hopen.trans (List.prefix_append _ _)) hbehind, htrim, hdrop,
      trimLeft_append, if_neg hne]
    exact resumes_thinking _ c
  · by_cases hpre : trimLeft text <+: thinkingOpenTag
    · rw [openedParts_waiting hopen hpre, nil_append, Parts.resume, if_neg (by simp)]
      rfl
    · have hne : trimLeft text ≠ [] := fun hnil => hpre (hnil ▸ List.nil_prefix)
      have htrim : trimLeft (text ++ c) = trimLeft text ++ c := by rw [trimLeft_append, if_neg hne]
      rw [openedParts_plain hopen hpre, openedParts_plain, resumes_thinking text c]
      · rw [htrim]
        intro hopen'
        obtain h | h := List.prefix_or_prefix_of_prefix hopen' (List.prefix_append _ _)
        · exact hopen h
        · exact hpre h
      · rw [htrim]
        exact fun hpre' => hpre ((List.prefix_append _ _).trans hpre')

/-! ## Content and tool calls -/

/-- The content, the tool calls and the place behind them are the same. -/
def Same (a b : Parts) : Prop := a.content = b.content ∧ a.toolCalls = b.toolCalls ∧ a.behindCall = b.behindCall

theorem thinkingParts_nil : thinkingParts [] = { state := .collectingThinking } := by decide

/-- Text that is clear of the closing tag changes the thinking only. -/
theorem thinkingParts_clear {e : Str} (h : Clear thinkingCloseTag e) (text : Str) :
    Same (thinkingParts (e ++ text)) (thinkingParts text) := by
  cases hcut : cut thinkingCloseTag text with
  | none =>
    rw [thinkingParts_none hcut, thinkingParts_none (by rw [cut_clear h, hcut]; rfl)]
    exact ⟨rfl, rfl, rfl⟩
  | some q =>
    rw [thinkingParts_some hcut, thinkingParts_some (by rw [cut_clear h, hcut]; rfl)]
    exact ⟨rfl, rfl, rfl⟩

theorem toolOpenTag_space : ∀ x ∈ toolOpenTag, isSpace x = false := by
  have h : toolOpenTag.all (fun x => !isSpace x) = true := by decide
  simpa using h

theorem thinkingCloseTag_space : ∀ x ∈ thinkingCloseTag, isSpace x = false := by
  have h : thinkingCloseTag.all (fun x => !isSpace x) = true := by decide
  simpa using h

theorem thinkingParts_trimLeft (text : Str) : Same (thinkingParts text) (thinkingParts (trimLeft text)) := by
  have h := thinkingParts_clear (clear_space thinkingCloseTag_space (by decide) text) (trimLeft text)
  rwa [space_append_trimLeft] at h

theorem Same.symm {a b : Parts} (h : Same a b) : Same b a := ⟨h.1.symm, h.2.1.symm, h.2.2.symm⟩

theorem Same.trans {a b c : Parts} (h : Same a b) (h' : Same b c) : Same a c :=
  ⟨h.1.trans h'.1, h.2.1.trans h'.2.1, h.2.2.trans h'.2.2⟩

/-- What comes before an opening tag, the tag, and the white space behind it change the thinking only. -/
theorem thinkingParts_tag {text : Str} (hopen : thinkingOpenTag <+: trimLeft text) :
    Same (thinkingParts text) (thinkingParts (trimLeft ((trimLeft text).drop thinkingOpenTag.length))) := by
  have htag := thinkingParts_clear (e := thinkingOpenTag) (by decide) ((trimLeft text).drop thinkingOpenTag.length)
  rw [List.prefix_iff_eq_append.mp hopen] at htag
  exact (thinkingParts_trimLeft text).trans (htag.trans (thinkingParts_trimLeft _))

theorem openedParts_same (text : Str) : Same (openedParts text) (thinkingParts text) := by
  by_cases hopen : thinkingOpenTag <+: trimLeft text
  · have hrest := thinkingParts_tag hopen
    by_cases hbehind : BehindOpening text
    · rw [hbehind.2, thinkingParts_nil] at hrest
      rw [openedParts_behind hbehind]
      exact hrest.symm
    · rw [openedParts_tag hopen hbehind]
      exact hrest.symm
  · by_cases hpre : trimLeft text <+: thinkingOpenTag
    · -- a part of the opening tag holds no closing tag
      have hnone : cut thinkingCloseTag text = none := by
        have hshort : cut thinkingCloseTag (trimLeft text) = none := by
          cases hcut : cut thinkingCloseTag (trimLeft text) with
          | none => rfl
          | some q =>
            have hlen := length_of_cut hcut
            have hle := hpre.length_le
            have h7 : thinkingOpenTag.length = 7 := rfl
            have h8 : thinkingCloseTag.length = 8 := rfl
            omega
        have hclear := cut_clear (clear_space thinkingCloseTag_space (by decide) text) (trimLeft text)
        rwa [space_append_trimLeft, hshort] at hclear
      rw [openedParts_waiting hopen hpre, thinkingParts_none hnone]
      exact ⟨rfl, rfl, rfl⟩
    · rw [openedParts_plain hopen hpre]
      exact ⟨rfl, rfl, rfl⟩

/-! ## A parser between two calls -/

/-- What a parser that comes from `Init` can be left with. -/
structure Parts.Usual (a : Parts) : Prop where
  started : Qwen3Parser.Started { state := a.state, maybeThinkingOpenAtBOL := a.maybeThinkingOpenAtBOL }
  behind : a.behindCall = true → a.state = .collectingContent ∧ a.buffer = [] ∧ a.maybeThinkingOpenAtBOL = false
  opening : a.maybeThinkingOpenAtBOL = true → ¬ thinkingOpenTag <+: trimLeft a.buffer ∧ trimLeft a.buffer <+: thinkingOpenTag

theorem Parts.Plain.usual {a : Parts} (h : a.Plain) : a.Usual := by
  refine ⟨⟨?_, ?_, by simp [h.flag]⟩, fun hbehind => ⟨(h.behind hbehind).1, (h.behind hbehind).2, h.flag⟩, by simp [h.flag]⟩
  all_goals
    dsimp only
    obtain h | h | h := h.state <;> simp [h]

theorem eatenParts_usual {state : Qwen3ParserState} {parts : Str → Parts} (hstate : state ≠ .lookingForThinkingOpen)
    (hstate' : state ≠ .thinkingStartedEatingWhitespace) (h : ∀ t, (parts t).Usual) (text : Str) :
    (eatenParts state parts text).Usual := by
  unfold eatenParts
  split_ifs
  · exact ⟨⟨hstate, hstate', nofun⟩, nofun, nofun⟩
  · exact h _

theorem thinkingParts_usual (text : Str) : (thinkingParts text).Usual := by
  cases hcut : cut thinkingCloseTag text with
  | none =>
    rw [thinkingParts_none hcut]
    exact ⟨⟨nofun, nofun, nofun⟩, nofun, nofun⟩
  | some q =>
    have h := @eatenParts_usual .thinkingDoneEatingWhitespace _ nofun nofun (fun t => (contentParts_plain t).usual) q.2
    rw [thinkingParts_some hcut]
    exact ⟨h.started, h.behind, h.opening⟩

theorem openedParts_usual (text : Str) : (openedParts text).Usual := by
  unfold openedParts
  dsimp only
  split_ifs with hopen hempty hpre
  · exact ⟨⟨nofun, nofun, fun _ => rfl⟩, nofun, fun _ => ⟨by decide, by decide⟩⟩
  · exact thinkingParts_usual _
  · exact ⟨⟨nofun, nofun, fun _ => rfl⟩, nofun, fun _ => ⟨hopen, hpre⟩⟩
  · exact thinkingParts_usual _

theorem Qwen3Parser.Started.usual {p : Qwen3Parser} (hp : p.Started) (text : Str) : (p.parts text).Usual := by
  rw [Qwen3Parser.parts]
  cases hs : p.state with
  | lookingForThinkingOpen => exact absurd hs hp.looking
  | thinkingStartedEatingWhitespace => exact absurd hs hp.opened
  | collectingThinking =>
    dsimp only
    split_ifs
    · exact openedParts_usual text
    · exact thinkingParts_usual text
  | thinkingDoneEatingWhitespace =>
    exact eatenParts_usual (by simp) (by simp) (fun t => (contentParts_plain t).usual) text
  | collectingContent => exact (contentParts_plain text).usual
  | toolStartedEatingWhitespace =>
    exact eatenParts_usual (by simp) (by simp) (fun t => (toolParts_plain t).usual) text
  | collectingToolContent => exact (toolParts_plain text).usual

/-- Later text is read as if it had come at once, except behind an opening tag. -/
theorem Qwen3Parser.Started.resumes {p : Qwen3Parser} (hp : p.Started) {text : Str}
    (h : p.maybeThinkingOpenAtBOL = true → ¬ BehindOpening text) : Resumes p.parts text := by
  unfold Resumes Qwen3Parser.parts
  cases hs : p.state with
  | lookingForThinkingOpen => exact absurd hs hp.looking
  | thinkingStartedEatingWhitespace => exact absurd hs hp.opened
  | collectingThinking =>
    dsimp only
    split_ifs with hflag
    · exact resumes_opened (h hflag)
    · exact resumes_thinking text
  | thinkingDoneEatingWhitespace => exact resumes_eaten rfl (resumes_content _)
  | collectingContent => exact resumes_content text
  | toolStartedEatingWhitespace => exact resumes_eaten rfl (resumes_toolParts _)
  | collectingToolContent => exact resumes_toolParts text

theorem Parts.Usual.after {a : Parts} (h : a.Usual) (p : Qwen3Parser) : (p.after a).Started :=
  ⟨h.started.looking, h.started.opened, h.started.flag⟩

theorem parts_after {a : Parts} (h : a.behindCall = false) (p : Qwen3Parser) (c : Str) :
    (p.after a).parts ((p.after a).buffer ++ c) = a.resume c := by
  rw [Parts.resume, if_neg (by simp [h])]
  rfl

theorem parts_after_behind {a : Parts} (ha : a.Usual) (h : a.behindCall = true) (p : Qwen3Parser) (c : Str) :
    (p.after a).parts ((p.after a).buffer ++ c) = contentParts c := by
  obtain ⟨hstate, hbuffer, -⟩ := ha.behind h
  rw [Qwen3Parser.after, Qwen3Parser.parts, hstate, hbuffer]
  rfl

/-- Behind an opening tag only the flag counts. -/
theorem parts_after_opening {p : Qwen3Parser} (hp : p.Started) (hflag : p.maybeThinkingOpenAtBOL = true) {text : Str}
    (h : BehindOpening text) (c : Str) :
    (p.after (p.parts text)).parts ((p.after (p.parts text)).buffer ++ c) = openedParts c := by
  rw [parts_opened hp hflag, openedParts_behind h]
  rfl

/-- Content and tool calls of later text are those of the text read at once. -/
theorem Qwen3Parser.Started.same {p : Qwen3Parser} (hp : p.Started) (text c : Str) :
    Same (p.parts (text ++ c)) ((p.parts text).append ((p.parts text).resume c)) := by
  by_cases h : p.maybeThinkingOpenAtBOL = true ∧ BehindOpening text
  · obtain ⟨hflag, hbehind⟩ := h
    have hresume : (openedParts text).resume c = openedParts c := by
      rw [openedParts_behind hbehind, Parts.resume, if_neg (by simp)]
      rfl
    rw [parts_opened hp hflag, parts_opened hp hflag, hresume, openedParts_behind hbehind, nil_append]
    have htrim := trimLeft_append_tag (by decide) hbehind.1 c
    have hdrop : (trimLeft (text ++ c)).drop thinkingOpenTag.length = (trimLeft text).drop thinkingOpenTag.length ++ c := by
      rw [htrim]
      exact List.drop_append_of_le_length hbehind.1.length_le
    have hopen : thinkingOpenTag <+: trimLeft (text ++ c) := htrim ▸ hbehind.1.trans (List.prefix_append _ _)
    have hrest := thinkingParts_tag hopen
    rw [hdrop, trimLeft_append, if_pos hbehind.2] at hrest
    exact (openedParts_same _).trans (hrest.trans ((thinkingParts_trimLeft c).symm.trans (openedParts_same c).symm))
  · rw [hp.resumes fun hflag hbehind => h ⟨hflag, hbehind⟩]
    exact ⟨rfl, rfl, rfl⟩

/-- A parser between two calls has given what it can give. -/
structure Qwen3Parser.Settled (p : Qwen3Parser) : Prop where
  started : p.Started
  content : (p.parts p.buffer).content = []
  thinking : (p.parts p.buffer).thinking = []
  toolCalls : (p.parts p.buffer).toolCalls = []
  behind : (p.parts p.buffer).behindCall = false
  opening : p.maybeThinkingOpenAtBOL = true → ¬ thinkingOpenTag <+: trimLeft p.buffer ∧ trimLeft p.buffer <+: thinkingOpenTag

theorem Qwen3Parser.Started.settled {p : Qwen3Parser} (hp : p.Started) (text : Str) : (p.after (p.parts text)).Settled := by
  have husual := hp.usual text
  have hstarted := husual.after p
  by_cases h : (p.parts text).behindCall = true
  · have hparts : (p.after (p.parts text)).parts (p.after (p.parts text)).buffer = contentParts [] := by
      have := parts_after_behind husual h p []
      rwa [List.append_nil] at this
    rw [contentParts_nil] at hparts
    exact ⟨hstarted, by rw [hparts], by rw [hparts], by rw [hparts], by rw [hparts], husual.opening⟩
  · rw [Bool.not_eq_true] at h
    have hsame := hp.same text []
    rw [List.append_nil, ← parts_after h p, List.append_nil] at hsame
    obtain ⟨hcontent, hcalls, hbehind⟩ := hsame
    have hthinking : ((p.after (p.parts text)).parts (p.after (p.parts text)).buffer).thinking = [] := by
      by_cases hopen : p.maybeThinkingOpenAtBOL = true ∧ BehindOpening text
      · have hparts := parts_after_opening hp hopen.1 hopen.2 []
        rw [List.append_nil] at hparts
        rw [hparts]
        rfl
      · have hthinking := congrArg Parts.thinking (hp.resumes (fun hflag hbehind => hopen ⟨hflag, hbehind⟩) [])
        rw [List.append_nil, ← parts_after h p, List.append_nil] at hthinking
        exact List.self_eq_append_right.mp hthinking
    exact ⟨hstarted, List.self_eq_append_right.mp hcontent, hthinking, List.self_eq_append_right.mp hcalls,
      hbehind.symm.trans h, husual.opening⟩

/-! ## The texts of all chunks -/

/-- A call gives the parts of what the parser has then. -/
theorem parseEvents_eq {p : Qwen3Parser} (hp : p.Started) (s : Str) :
    ∃ events, p.parseEvents s = some (events, p.after (p.parts (p.buffer ++ s))) ∧
      texts events = (p.parts (p.buffer ++ s)).texts := by
  have hp' : Qwen3Parser.Started { p with buffer := p.buffer ++ s } := ⟨hp.looking, hp.opened, hp.flag⟩
  obtain ⟨outs, hrounds, houts⟩ := gives_parts { p with buffer := p.buffer ++ s } hp'
    (n := 2 * (p.buffer.length + s.length) + 2) (by
      rw [Qwen3Parser.work]
      dsimp only
      rw [List.length_append]
      split <;> omega)
  refine ⟨outs.flatten, ?_, houts⟩
  rw [Qwen3Parser.parseEvents, hrounds]
  rfl

/-- The texts of the parts that the chunks give. -/
def Qwen3Parser.chunkTexts : Qwen3Parser → List Str → Str × Str × List Str
  | _, [] => ([], [], [])
  | p, c :: cs => both (p.parts (p.buffer ++ c)).texts ((p.after (p.parts (p.buffer ++ c))).chunkTexts cs)

theorem feed_eq {p : Qwen3Parser} (hp : p.Started) (cs : List Str) :
    ∃ events p', feed (· ++ ·) [] Qwen3Parser.parseEvents p cs = some (events, p') ∧ texts events = p.chunkTexts cs := by
  induction cs generalizing p with
  | nil => exact ⟨[], p, rfl, rfl⟩
  | cons c cs ih =>
    obtain ⟨events, hevents, htexts⟩ := parseEvents_eq hp c
    obtain ⟨events', p', hfeed, htexts'⟩ := ih ((hp.usual (p.buffer ++ c)).after p)
    refine ⟨events ++ events', p', ?_, ?_⟩
    · rw [feed, hevents, Option.bind_some, hfeed, Option.map_some]
    · rw [texts_append, htexts, htexts']
      rfl

end Xdragon.Parsers.Qwen3
