import Xdragon.Lib.Dropping
import Xdragon.Parsers.Qwen3Chunks

/-!
# Where a cut of Qwen3 output shows

A chunk that ends behind a tool call does not drop the white space that comes later, and one that ends
behind the opening tag of the thinking drops a second tag but not the white space.
-/

namespace Xdragon.Parsers.Qwen3

open Xdragon.Lib

/-! ## White space in front of content -/

/-- Text whose white space in front makes no difference: there is none, or a tag swallows it, as far as it has come. -/
def Harmless (tag y : Str) : Prop := trimLeft y = y ∨ trimLeft y <+: tag ∨ tag <+: trimLeft y

instance (tag y : Str) : Decidable (Harmless tag y) := inferInstanceAs (Decidable (_ ∨ _))

theorem firstPiece_trimLeft {tag : Str} (htag : ∀ x ∈ tag, isSpace x = false) (hne : tag ≠ []) (y : Str) :
    firstPiece isSpace tag y = if firstPiece isSpace tag (trimLeft y) = [] then []
      else y.takeWhile isSpace ++ firstPiece isSpace tag (trimLeft y) := by
  have hclear := firstPiece_clear (p := isSpace) (clear_space htag hne y) (trimLeft y)
  have hspace : (y.takeWhile isSpace).rdropWhile isSpace = [] :=
    List.rdropWhile_eq_nil_iff.mpr fun _ hx => List.mem_takeWhile_imp hx
  rwa [space_append_trimLeft, hspace] at hclear

theorem takeWhile_ne_nil {y : Str} (h : trimLeft y ≠ y) : y.takeWhile isSpace ≠ [] := by
  intro hnil
  apply h
  have := space_append_trimLeft y
  rwa [hnil, List.nil_append] at this

theorem firstPiece_harmless {tag : Str} (htag : ∀ x ∈ tag, isSpace x = false) (hne : tag ≠ []) {y : Str} (h : Harmless tag y) :
    firstPiece isSpace tag y = firstPiece isSpace tag (trimLeft y) := by
  obtain h | h := h
  · rw [h]
  · have hnil := (firstPiece_eq_nil (p := isSpace) (trimLeft_trimLeft y)).mpr h
    rw [firstPiece_trimLeft htag hne, if_pos hnil, hnil]

theorem firstPiece_harmful {tag : Str} (htag : ∀ x ∈ tag, isSpace x = false) (hne : tag ≠ []) {y : Str} (h : ¬ Harmless tag y) :
    (firstPiece isSpace tag (trimLeft y)).length < (firstPiece isSpace tag y).length := by
  have hpiece : firstPiece isSpace tag (trimLeft y) ≠ [] :=
    fun hnil => h (.inr ((firstPiece_eq_nil (p := isSpace) (trimLeft_trimLeft y)).mp hnil))
  have hspace := List.length_pos_of_ne_nil (takeWhile_ne_nil fun heq => h (.inl heq))
  rw [firstPiece_trimLeft htag hne y, if_neg hpiece, List.length_append]
  omega

theorem firstPiece_length_trimLeft {tag : Str} (htag : ∀ x ∈ tag, isSpace x = false) (hne : tag ≠ []) (y : Str) :
    (firstPiece isSpace tag (trimLeft y)).length ≤ (firstPiece isSpace tag y).length := by
  by_cases h : Harmless tag y
  · rw [firstPiece_harmless htag hne h]
  · exact (firstPiece_harmful htag hne h).le

/-- What a text gives as content up to the first tool call, and what it gives behind that. -/
theorem contentParts_firstPiece {ws : Str} (h : Clear toolOpenTag ws) (text : Str) : ∃ later,
    (contentParts (ws ++ text)).content = firstPiece isSpace toolOpenTag (ws ++ text) ++ later ∧
    (contentParts text).content = firstPiece isSpace toolOpenTag text ++ later ∧
    (contentParts (ws ++ text)).toolCalls = (contentParts text).toolCalls ∧
    (contentParts (ws ++ text)).behindCall = (contentParts text).behindCall := by
  have hcut := cut_clear h text
  unfold firstPiece
  cases hc : cut toolOpenTag text with
  | none =>
    rw [hc, Option.map_none] at hcut
    rw [hcut, contentParts_none hcut, contentParts_none hc]
    exact ⟨[], by simp, by simp, rfl, rfl⟩
  | some q =>
    rw [hc, Option.map_some] at hcut
    rw [hcut, contentParts_some hcut, contentParts_some hc]
    exact ⟨_, rfl, rfl, rfl, rfl⟩

/-- White space in front of content is all that dropping it changes, and it changes nothing where it is harmless. -/
theorem contentParts_trimLeft (y : Str) :
    (contentParts y).toolCalls = (contentParts (trimLeft y)).toolCalls ∧
    (contentParts y).behindCall = (contentParts (trimLeft y)).behindCall ∧
    (Harmless toolOpenTag y → (contentParts (trimLeft y)).content = (contentParts y).content) ∧
    (¬ Harmless toolOpenTag y → (contentParts (trimLeft y)).content.length < (contentParts y).content.length) := by
  obtain ⟨later, hwhole, htrimmed, hcalls, hbehind⟩ :=
    contentParts_firstPiece (clear_space toolOpenTag_space (by decide) y) (trimLeft y)
  rw [space_append_trimLeft] at hwhole hcalls hbehind
  refine ⟨hcalls, hbehind, fun h => ?_, fun h => ?_⟩
  · rw [hwhole, htrimmed, firstPiece_harmless toolOpenTag_space (by decide) h]
  · have hlt := firstPiece_harmful toolOpenTag_space (by decide) h
    rw [hwhole, htrimmed, List.length_append, List.length_append]
    omega

theorem Harmless.later {tag x y : Str} (h : Harmless tag (x ++ y)) (hx : trimLeft x = []) : Harmless tag y := by
  unfold Harmless at h
  rw [trimLeft_append, if_pos hx] at h
  obtain h | h := h
  · have hlen := congrArg List.length h
    have hle := length_trimLeft y
    rw [List.length_append] at hlen
    obtain rfl : x = [] := List.eq_nil_of_length_eq_zero (by omega)
    exact .inl h
  · exact .inr h

/-! ## Content and tool calls of the chunks -/

/-- White space that follows a tool call across two chunks is harmless. -/
def Qwen3Parser.CallsApart (p : Qwen3Parser) (cs : List Str) : Prop :=
  ∀ c₁ c₂, cs = c₁ ++ c₂ → (p.parts (p.buffer ++ c₁.flatten)).behindCall = true → Harmless toolOpenTag c₂.flatten

/-- The parser as a reader of content and tool calls that drops the white space behind a tool call. -/
def contentReader : Dropping Qwen3Parser Char (Str × List Str) where
  out p x := ((p.parts (p.buffer ++ x)).content, (p.parts (p.buffer ++ x)).toolCalls)
  next p x := p.after (p.parts (p.buffer ++ x))
  behind p x := (p.parts (p.buffer ++ x)).behindCall = true
  trim := trimLeft
  one := ([], [])
  app a b := (a.1 ++ b.1, a.2 ++ b.2)
  size o := o.1.length

/-- Behind a tool call the parser is one that reads content. -/
theorem out_behind {p : Qwen3Parser} (hp : p.Settled) {x : Str} (h : contentReader.behind p x) (y : Str) :
    contentReader.out (contentReader.next p x) y = ((contentParts y).content, (contentParts y).toolCalls) ∧
      (contentReader.behind (contentReader.next p x) y ↔ (contentParts y).behindCall = true) := by
  have hafter := parts_after_behind (hp.started.usual (p.buffer ++ x)) h p y
  dsimp only [contentReader]
  rw [hafter]
  exact ⟨rfl, Iff.rfl⟩

theorem contentReader_lawful : contentReader.Lawful Qwen3Parser.Settled (Harmless toolOpenTag) := by
  refine ⟨fun _ hp => hp.started.settled _, ?_, ?_, ?_, ?_, ?_, ?_, ?_, ?_, .inl rfl, fun h hx => h.later hx, ?_⟩
  · intro p hp
    dsimp only [contentReader]
    rw [List.append_nil]
    exact Prod.ext hp.content hp.toolCalls
  · intro p hp h
    dsimp only [contentReader] at h
    rw [List.append_nil, hp.behind] at h
    cases h
  · intro p x y hp h
    dsimp only [contentReader] at h ⊢
    obtain ⟨hcontent, hcalls, -⟩ := hp.started.same (p.buffer ++ x) y
    rw [parts_after (by simpa using h), ← List.append_assoc]
    exact Prod.ext hcontent hcalls
  · intro p x y hp h
    dsimp only [contentReader] at h ⊢
    rw [parts_after (by simpa using h), ← List.append_assoc, (hp.started.same (p.buffer ++ x) y).2.2]
    rfl
  · intro p x y hp h
    rw [(out_behind hp h _).1]
    dsimp only [contentReader] at h ⊢
    obtain ⟨hcontent, hcalls, -⟩ := hp.started.same (p.buffer ++ x) y
    rw [Parts.resume, if_pos h] at hcontent hcalls
    rw [← List.append_assoc]
    exact Prod.ext hcontent hcalls
  · intro p x y hp h
    rw [(out_behind hp h y).2]
    dsimp only [contentReader] at h ⊢
    rw [← List.append_assoc, (hp.started.same (p.buffer ++ x) y).2.2, Parts.append, Parts.resume, if_pos h,
      (contentParts_trimLeft y).2.1]
    simp
  · intro p x y hp h hy
    obtain ⟨hcalls, -, hcontent, -⟩ := contentParts_trimLeft y
    rw [(out_behind hp h _).1, (out_behind hp h _).1]
    exact Prod.ext (hcontent hy) hcalls.symm
  · intro p x y hp h hy
    rw [(out_behind hp h _).1, (out_behind hp h _).1]
    exact (contentParts_trimLeft y).2.2.2 hy
  · exact fun o o' => List.length_append

theorem chunkTexts_pieces (p : Qwen3Parser) (cs : List Str) :
    contentReader.pieces p cs = ((p.chunkTexts cs).1, (p.chunkTexts cs).2.2) := by
  induction cs generalizing p with
  | nil => rfl
  | cons c cs ih =>
    rw [Dropping.pieces, ih]
    rfl

/-- The tool calls are those of the uncut text, and the content is it or is longer. -/
theorem chunkTexts_content {p : Qwen3Parser} (hp : p.Settled) (cs : List Str) :
    (p.chunkTexts cs).2.2 = (p.parts (p.buffer ++ cs.flatten)).toolCalls ∧
    (p.CallsApart cs → (p.parts (p.buffer ++ cs.flatten)).content = (p.chunkTexts cs).1) ∧
    (¬ p.CallsApart cs → (p.parts (p.buffer ++ cs.flatten)).content.length < (p.chunkTexts cs).1.length) := by
  obtain ⟨hequal, hlonger⟩ := Dropping.pieces_apart contentReader_lawful hp cs
  have hcalls := Dropping.pieces_view (v := Prod.snd) contentReader_lawful (fun a _ _ h => congrArg (a.2 ++ ·) h)
    (fun q x y hq hx => by
      rw [(out_behind hq hx _).1, (out_behind hq hx _).1]
      exact (contentParts_trimLeft y).1.symm) hp cs
  rw [chunkTexts_pieces] at hequal hlonger hcalls
  exact ⟨hcalls, fun h => (congrArg Prod.fst (hequal h)).symm, hlonger⟩

/-! ## Thinking of the chunks -/

theorem thinkingParts_firstPiece (text : Str) : (thinkingParts text).thinking = firstPiece isSpace thinkingCloseTag text := by
  unfold firstPiece
  cases hcut : cut thinkingCloseTag text with
  | none => rw [thinkingParts_none hcut]
  | some q =>
    rw [thinkingParts_some hcut]
    rfl

theorem thinkingParts_flag (text : Str) : (thinkingParts text).maybeThinkingOpenAtBOL = false := by
  cases hcut : cut thinkingCloseTag text with
  | none => rw [thinkingParts_none hcut]
  | some q =>
    rw [thinkingParts_some hcut]
    dsimp only
    unfold eatenParts
    split_ifs
    · rfl
    · exact (contentParts_plain _).flag

theorem parts_unflagged {p : Qwen3Parser} (hp : p.Started) (h : p.maybeThinkingOpenAtBOL = false) (text : Str) :
    (p.parts text).maybeThinkingOpenAtBOL = false := by
  have heaten : ∀ (state : Qwen3ParserState) (parts : Str → Parts), (∀ t, (parts t).Plain) →
      (eatenParts state parts text).maybeThinkingOpenAtBOL = false := by
    intro state parts hplain
    unfold eatenParts
    split_ifs
    · rfl
    · exact (hplain _).flag
  rw [Qwen3Parser.parts]
  cases hs : p.state with
  | lookingForThinkingOpen => exact absurd hs hp.looking
  | thinkingStartedEatingWhitespace => exact absurd hs hp.opened
  | collectingThinking =>
    dsimp only
    rw [if_neg (by simp [h])]
    exact thinkingParts_flag text
  | thinkingDoneEatingWhitespace => exact heaten _ _ contentParts_plain
  | collectingContent => exact (contentParts_plain text).flag
  | toolStartedEatingWhitespace => exact heaten _ _ toolParts_plain
  | collectingToolContent => exact (toolParts_plain text).flag

/-- Dropping the white space behind a tool call changes neither the thinking nor the flag. -/
theorem resume_after {a : Parts} (ha : a.Usual) (p : Qwen3Parser) (c : Str) :
    (a.resume c).thinking = ((p.after a).parts ((p.after a).buffer ++ c)).thinking ∧
    (a.resume c).maybeThinkingOpenAtBOL = ((p.after a).parts ((p.after a).buffer ++ c)).maybeThinkingOpenAtBOL := by
  by_cases h : a.behindCall = true
  · rw [parts_after_behind ha h, Parts.resume, if_pos h]
    dsimp only
    rw [(contentParts_plain _).thinking, (contentParts_plain _).thinking, (contentParts_plain _).flag,
      (contentParts_plain _).flag]
    exact ⟨rfl, rfl⟩
  · rw [Bool.not_eq_true] at h
    rw [parts_after h]
    exact ⟨rfl, rfl⟩

theorem chunkTexts_unflagged {p : Qwen3Parser} (hp : p.Settled) (h : p.maybeThinkingOpenAtBOL = false) (cs : List Str) :
    (p.chunkTexts cs).2.1 = (p.parts (p.buffer ++ cs.flatten)).thinking := by
  induction cs generalizing p with
  | nil =>
    rw [List.flatten_nil, List.append_nil, hp.thinking]
    rfl
  | cons c cs ih =>
    have hnext := ih (hp.started.settled (p.buffer ++ c)) (parts_unflagged hp.started h _)
    have hresumes := (hp.started.resumes (by simp [h]) : Resumes p.parts (p.buffer ++ c)) cs.flatten
    rw [List.flatten_cons, ← List.append_assoc, hresumes, Qwen3Parser.chunkTexts, both]
    dsimp only [Parts.append, Parts.texts]
    rw [(resume_after (hp.started.usual _) p _).1, hnext]

/-- Text behind an opening tag that reads the same while the parser still looks for one. -/
def Unmistaken (y : Str) : Prop :=
  (trimLeft y <+: thinkingCloseTag ∨ thinkingCloseTag <+: trimLeft y) ∨
    (trimLeft y = y ∧ ¬ (y <+: thinkingOpenTag ∨ thinkingOpenTag <+: y))

instance (y : Str) : Decidable (Unmistaken y) := inferInstanceAs (Decidable (_ ∨ _))

theorem Unmistaken.later {x y : Str} (h : Unmistaken (x ++ y)) (hx : trimLeft x = []) : Unmistaken y := by
  unfold Unmistaken at h
  rw [trimLeft_append, if_pos hx] at h
  obtain h | ⟨h, hopen⟩ := h
  · exact .inl h
  · have hlen := congrArg List.length h
    have hle := length_trimLeft y
    rw [List.length_append] at hlen
    obtain rfl : x = [] := List.eq_nil_of_length_eq_zero (by omega)
    exact .inr ⟨h, hopen⟩

/-- What opens like the closing tag does not open like the opening tag. -/
theorem not_open_of_close {y : Str} (h : y <+: thinkingCloseTag ∨ thinkingCloseTag <+: y) : ¬ thinkingOpenTag <+: y := by
  intro hopen
  have hboth : thinkingOpenTag <+: thinkingCloseTag ∨ thinkingCloseTag <+: thinkingOpenTag := by
    obtain h | h := h
    · exact .inl (hopen.trans h)
    · exact List.prefix_or_prefix_of_prefix hopen h
  exact absurd hboth (by decide)

theorem Unmistaken.not_open {y : Str} (h : Unmistaken y) : ¬ thinkingOpenTag <+: trimLeft y := by
  obtain h | ⟨h, hopen⟩ := h
  · exact not_open_of_close h
  · rw [h]
    exact fun h => hopen (.inr h)

theorem Unmistaken.thinking {y : Str} (h : Unmistaken y) :
    (openedParts y).thinking = firstPiece isSpace thinkingCloseTag (trimLeft y) := by
  by_cases hpre : trimLeft y <+: thinkingOpenTag
  · rw [openedParts_waiting h.not_open hpre]
    obtain h | ⟨h, hopen⟩ := h
    · exact ((firstPiece_eq_nil (p := isSpace) (trimLeft_trimLeft y)).mpr h).symm
    · rw [h] at hpre
      exact absurd (.inl hpre) hopen
  · rw [openedParts_plain h.not_open hpre, thinkingParts_firstPiece]
    refine firstPiece_harmless thinkingCloseTag_space (by decide) ?_
    obtain h | ⟨h, -⟩ := h
    · exact .inr h
    · exact .inl h

/-- All that can come of text as thinking: an opening tag in front is dropped at least once. -/
def opened (text : Str) : Str :=
  if thinkingOpenTag <+: trimLeft text then
    firstPiece isSpace thinkingCloseTag ((trimLeft text).drop thinkingOpenTag.length)
  else firstPiece isSpace thinkingCloseTag text

theorem firstPiece_length_clear {tag e : Str} (h : Clear tag e) (s : Str) :
    (firstPiece isSpace tag s).length ≤ (firstPiece isSpace tag (e ++ s)).length := by
  rw [firstPiece_clear h]
  split_ifs with hnil
  · rw [hnil]
    exact Nat.zero_le _
  · rw [List.length_append]
    omega

/-- Dropping an opening tag takes it from the thinking. -/
theorem firstPiece_drop {text : Str} (h : thinkingOpenTag <+: text) :
    (firstPiece isSpace thinkingCloseTag (text.drop thinkingOpenTag.length)).length <
      (firstPiece isSpace thinkingCloseTag text).length := by
  have hpiece := firstPiece_clear (p := isSpace) (by decide : Clear thinkingCloseTag thinkingOpenTag)
    (text.drop thinkingOpenTag.length)
  have hspace : thinkingOpenTag.rdropWhile isSpace = thinkingOpenTag := by decide
  have h7 : thinkingOpenTag.length = 7 := rfl
  rw [List.prefix_iff_eq_append.mp h, hspace] at hpiece
  rw [hpiece]
  split_ifs with hnil
  · rw [hnil]
    exact Nat.zero_lt_succ _
  · rw [List.length_append]
    omega

theorem opened_length (text : Str) : (opened text).length ≤ (firstPiece isSpace thinkingCloseTag text).length := by
  unfold opened
  split_ifs with hopen
  · exact (firstPiece_drop hopen).le.trans (firstPiece_length_trimLeft thinkingCloseTag_space (by decide) text)
  · exact le_rfl

theorem openedParts_length (text : Str) : (openedParts text).thinking.length ≤ (opened text).length := by
  unfold opened
  split_ifs with hopen
  · by_cases hbehind : BehindOpening text
    · rw [openedParts_behind hbehind]
      exact Nat.zero_le _
    · rw [openedParts_tag hopen hbehind, thinkingParts_firstPiece]
      exact firstPiece_length_trimLeft thinkingCloseTag_space (by decide) _
  · by_cases hpre : trimLeft text <+: thinkingOpenTag
    · rw [openedParts_waiting hopen hpre]
      exact Nat.zero_le _
    · rw [openedParts_plain hopen hpre, thinkingParts_firstPiece]

/-- Text behind an opening tag is read the same while the flag stays exactly if it is not mistaken. -/
theorem unmistaken_of_thinking {y : Str} (hopen : ¬ thinkingOpenTag <+: trimLeft y)
    (h : (openedParts y).thinking = firstPiece isSpace thinkingCloseTag (trimLeft y)) : Unmistaken y := by
  by_cases hpre : trimLeft y <+: thinkingOpenTag
  · rw [openedParts_waiting hopen hpre] at h
    exact .inl ((firstPiece_eq_nil (p := isSpace) (trimLeft_trimLeft y)).mp h.symm)
  · rw [openedParts_plain hopen hpre, thinkingParts_firstPiece] at h
    by_cases hharm : Harmless thinkingCloseTag y
    · obtain heq | hclose := hharm
      · rw [heq] at hopen hpre
        exact .inr ⟨heq, fun hor => hor.elim hpre hopen⟩
      · exact .inl hclose
    · have hlt := firstPiece_harmful thinkingCloseTag_space (by decide) hharm
      rw [h] at hlt
      exact absurd hlt (Nat.lt_irrefl _)

theorem behindOpening_append {text : Str} (h : BehindOpening text) (c : Str) :
    thinkingOpenTag <+: trimLeft (text ++ c) ∧
      (trimLeft (text ++ c)).drop thinkingOpenTag.length = (trimLeft text).drop thinkingOpenTag.length ++ c := by
  have htrim := trimLeft_append_tag (by decide) h.1 c
  rw [htrim]
  exact ⟨h.1.trans (List.prefix_append _ _), List.drop_append_of_le_length h.1.length_le⟩

theorem behindOpening_append_iff {text : Str} (h : BehindOpening text) (c : Str) :
    BehindOpening (text ++ c) ↔ trimLeft c = [] := by
  obtain ⟨hopen, hdrop⟩ := behindOpening_append h c
  rw [BehindOpening, hdrop, trimLeft_append ((trimLeft text).drop thinkingOpenTag.length), if_pos h.2]
  exact and_iff_right hopen

theorem openedParts_append_behind {text : Str} (h : BehindOpening text) (c : Str) :
    (openedParts (text ++ c)).thinking = firstPiece isSpace thinkingCloseTag (trimLeft c) := by
  obtain ⟨hopen, hdrop⟩ := behindOpening_append h c
  by_cases hc : trimLeft c = []
  · rw [openedParts_behind ((behindOpening_append_iff h c).mpr hc), hc]
    rfl
  · rw [openedParts_tag hopen (mt (behindOpening_append_iff h c).mp hc), hdrop, trimLeft_append, if_pos h.2,
      thinkingParts_firstPiece]

theorem opened_append_behind {text : Str} (h : BehindOpening text) (c : Str) :
    (firstPiece isSpace thinkingCloseTag c).length ≤ (opened (text ++ c)).length := by
  obtain ⟨hopen, hdrop⟩ := behindOpening_append h c
  rw [opened, if_pos hopen, hdrop]
  refine firstPiece_length_clear (clear_of_space thinkingCloseTag_space (by decide) fun x hx => ?_) c
  exact List.dropWhile_eq_nil_iff.mp h.2 x hx

/-- Behind an opening tag no chunk ends where what follows is mistaken. -/
def Qwen3Parser.OpeningApart (p : Qwen3Parser) (cs : List Str) : Prop :=
  ∀ c₁ c₂, cs = c₁ ++ c₂ → BehindOpening (p.buffer ++ c₁.flatten) → Unmistaken c₂.flatten

theorem openingApart_cons {p : Qwen3Parser} (hopen : ¬ thinkingOpenTag <+: trimLeft p.buffer) {c : Str} {cs : List Str} :
    p.OpeningApart (c :: cs) ↔
      ∀ c₁ c₂, cs = c₁ ++ c₂ → BehindOpening (p.buffer ++ c ++ c₁.flatten) → Unmistaken c₂.flatten := by
  constructor
  · intro h c₁ c₂ hcs hbehind
    refine h (c :: c₁) c₂ (by rw [hcs, List.cons_append]) ?_
    rwa [List.flatten_cons, ← List.append_assoc]
  · intro h c₁ c₂ hcs hbehind
    cases c₁ with
    | nil =>
      rw [List.flatten_nil, List.append_nil] at hbehind
      exact absurd hbehind.1 hopen
    | cons d c₁ =>
      obtain ⟨rfl, htail⟩ := List.cons.inj hcs
      rw [List.flatten_cons, ← List.append_assoc] at hbehind
      exact h c₁ c₂ htail hbehind

/-- Directly behind an opening tag, what the chunks give is what the text gives if and only if it is not mistaken. -/
theorem thinking_behind {θ : Str} {cs : List Str} (hle : θ.length ≤ (opened cs.flatten).length)
    (hiff : θ = (openedParts cs.flatten).thinking ↔ Qwen3Parser.OpeningApart {} cs) :
    θ = firstPiece isSpace thinkingCloseTag (trimLeft cs.flatten) ↔ Unmistaken cs.flatten := by
  have hvacuous : ¬ thinkingOpenTag <+: trimLeft cs.flatten → Qwen3Parser.OpeningApart {} cs := by
    intro hopen c₁ c₂ hcs hbehind
    change BehindOpening c₁.flatten at hbehind
    apply absurd _ hopen
    rw [hcs, List.flatten_append, trimLeft_append_tag (by decide) hbehind.1]
    exact hbehind.1.trans (List.prefix_append _ _)
  constructor
  · intro h
    by_cases hopen : thinkingOpenTag <+: trimLeft cs.flatten
    · have hlt := firstPiece_drop hopen
      rw [opened, if_pos hopen, h] at hle
      omega
    · exact unmistaken_of_thinking hopen ((hiff.mpr (hvacuous hopen)).symm.trans h)
  · intro h
    rw [hiff.mpr (hvacuous h.not_open), h.thinking]

/-- The thinking that the chunks give is that of the uncut text if and only if no cut behind an opening tag shows. -/
theorem chunkTexts_flagged {p : Qwen3Parser} (hp : p.Settled) (hflag : p.maybeThinkingOpenAtBOL = true) (cs : List Str) :
    (p.chunkTexts cs).2.1.length ≤ (opened (p.buffer ++ cs.flatten)).length ∧
    ((p.chunkTexts cs).2.1 = (openedParts (p.buffer ++ cs.flatten)).thinking ↔ p.OpeningApart cs) := by
  induction cs generalizing p with
  | nil =>
    have hthinking := hp.thinking
    rw [parts_opened hp.started hflag] at hthinking
    rw [List.flatten_nil, List.append_nil, hthinking]
    refine ⟨Nat.zero_le _, iff_of_true rfl fun c₁ c₂ hcs hbehind => ?_⟩
    obtain ⟨rfl, rfl⟩ := List.append_eq_nil_iff.mp hcs.symm
    rw [List.flatten_nil, List.append_nil] at hbehind
    exact absurd hbehind.1 (hp.opening hflag).1
  | cons c cs ih =>
    have hsettled := hp.started.settled (p.buffer ++ c)
    have husual := hp.started.usual (p.buffer ++ c)
    rw [openingApart_cons (hp.opening hflag).1, List.flatten_cons, ← List.append_assoc, Qwen3Parser.chunkTexts, both]
    dsimp only [Parts.texts]
    rw [parts_opened hp.started hflag] at hsettled husual ⊢
    by_cases hbehind : BehindOpening (p.buffer ++ c)
    · -- the flag stays, and nothing is left
      rw [openedParts_behind hbehind] at hsettled ⊢
      obtain ⟨hle, hiff⟩ := ih hsettled rfl
      rw [show (p.after { state := .collectingThinking, maybeThinkingOpenAtBOL := true }).buffer = [] from rfl,
        List.nil_append] at hle hiff
      refine ⟨hle.trans ((opened_length _).trans (opened_append_behind hbehind _)), ?_⟩
      rw [openedParts_append_behind hbehind, List.nil_append, thinking_behind hle hiff]
      constructor
      · intro h c₁ c₂ hcs hbehind'
        rw [behindOpening_append_iff hbehind] at hbehind'
        rw [hcs, List.flatten_append] at h
        exact h.later hbehind'
      · intro h
        refine h [] cs rfl ?_
        rwa [List.flatten_nil, List.append_nil]
    · have hresumes := fun x => resumes_opened hbehind x
      by_cases hstays : (openedParts (p.buffer ++ c)).maybeThinkingOpenAtBOL = true
      · -- the parser waits with all that it has
        have hopen : ¬ thinkingOpenTag <+: trimLeft (p.buffer ++ c) := by
          intro hopen
          rw [openedParts_tag hopen hbehind] at hstays
          exact absurd hstays (by rw [thinkingParts_flag]; simp)
        have hpre : trimLeft (p.buffer ++ c) <+: thinkingOpenTag := by
          by_contra hpre
          rw [openedParts_plain hopen hpre] at hstays
          exact absurd hstays (by rw [thinkingParts_flag]; simp)
        rw [openedParts_waiting hopen hpre] at hsettled ⊢
        exact ih hsettled rfl
      · -- the flag is gone
        rw [Bool.not_eq_true] at hstays
        have hthinking := chunkTexts_unflagged hsettled hstays cs
        rw [← (resume_after husual p _).1] at hthinking
        have heq : (openedParts (p.buffer ++ c)).thinking ++ ((p.after (openedParts (p.buffer ++ c))).chunkTexts cs).2.1 =
            (openedParts (p.buffer ++ c ++ cs.flatten)).thinking := by
          rw [hresumes, hthinking]
          rfl
        refine ⟨heq ▸ openedParts_length _, iff_of_true heq fun c₁ c₂ _ hbehind' => ?_⟩
        have hflag' := congrArg Parts.maybeThinkingOpenAtBOL (hresumes c₁.flatten)
        have hgone := parts_unflagged hsettled.started hstays
        rw [openedParts_behind hbehind', Parts.append] at hflag'
        dsimp only at hflag'
        rw [(resume_after husual p c₁.flatten).2, hgone] at hflag'
        cases hflag'

/-! ## All chunks -/

/-- A parser from `Init` gives for the chunks what it gives for the uncut text exactly if no chunk ends behind the
opening tag with mistaken text to come, and none ends behind a tool call with white space to come that shows. -/
theorem parseEvents_chunks_iff (parser : Qwen3Parser) (thinkValue : Option Bool) (chunks : List Str) :
    let p := parser.init thinkValue
    ∃ events uncut p' p'', feed (· ++ ·) [] Qwen3Parser.parseEvents p chunks = some (events, p') ∧
      p.parseEvents chunks.flatten = some (uncut, p'') ∧
      (texts events = texts uncut ↔ ∀ c₁ c₂, chunks = c₁ ++ c₂ →
        (p.maybeThinkingOpenAtBOL = true → BehindOpening c₁.flatten → Unmistaken c₂.flatten) ∧
        ((p.parts c₁.flatten).behindCall = true → Harmless toolOpenTag c₂.flatten)) := by
  intro p
  have hbuffer : p.buffer = [] := by
    unfold p Qwen3Parser.init
    dsimp only
    split_ifs <;> rfl
  have hstart : (p.state = .collectingThinking ∧ p.maybeThinkingOpenAtBOL = true) ∨
      (p.state = .collectingContent ∧ p.maybeThinkingOpenAtBOL = false) := by
    unfold p Qwen3Parser.init
    dsimp only
    split_ifs
    · exact .inl ⟨rfl, rfl⟩
    · exact .inr ⟨rfl, rfl⟩
  have hp : p.Settled := by
    obtain ⟨hstate, hflag⟩ | ⟨hstate, hflag⟩ := hstart
    · have hparts : p.parts p.buffer = openedParts [] := by rw [Qwen3Parser.parts, hstate, hbuffer, hflag]; rfl
      refine ⟨⟨by simp [hstate], by simp [hstate], fun _ => hstate⟩, ?_, ?_, ?_, ?_, fun _ => ?_⟩
      · rw [hparts]
        rfl
      · rw [hparts]
        rfl
      · rw [hparts]
        rfl
      · rw [hparts]
        rfl
      · rw [hbuffer]
        decide
    · have hparts : p.parts p.buffer = contentParts [] := by rw [Qwen3Parser.parts, hstate, hbuffer]
      rw [contentParts_nil] at hparts
      exact ⟨⟨by simp [hstate], by simp [hstate], by simp [hflag]⟩, by rw [hparts], by rw [hparts], by rw [hparts],
        by rw [hparts], by simp [hflag]⟩
  obtain ⟨events, p', hfeed, htexts⟩ := feed_eq hp.started chunks
  obtain ⟨uncut, huncut, htexts'⟩ := parseEvents_eq hp.started chunks.flatten
  refine ⟨events, uncut, p', _, hfeed, huncut, ?_⟩
  obtain ⟨hcalls, hequal, hlonger⟩ := chunkTexts_content hp chunks
  have hthinking : (p.chunkTexts chunks).2.1 = (p.parts (p.buffer ++ chunks.flatten)).thinking ↔
      (p.maybeThinkingOpenAtBOL = true → p.OpeningApart chunks) := by
    cases hflag : p.maybeThinkingOpenAtBOL with
    | false => exact iff_of_true (chunkTexts_unflagged hp hflag chunks) fun h => by cases h
    | true =>
      rw [parts_opened hp.started hflag, (chunkTexts_flagged hp hflag chunks).2]
      exact ⟨fun h _ => h, fun h => h rfl⟩
  have hcontent : (p.chunkTexts chunks).1 = (p.parts (p.buffer ++ chunks.flatten)).content ↔ p.CallsApart chunks := by
    constructor
    · intro h
      by_contra hapart
      have hlt := hlonger hapart
      rw [h] at hlt
      exact absurd hlt (Nat.lt_irrefl _)
    · exact fun h => (hequal h).symm
  have hsplit : texts events = texts uncut ↔ (p.chunkTexts chunks).1 = (p.parts (p.buffer ++ chunks.flatten)).content ∧
      (p.chunkTexts chunks).2.1 = (p.parts (p.buffer ++ chunks.flatten)).thinking := by
    rw [htexts, htexts', Parts.texts, Prod.ext_iff, Prod.ext_iff]
    dsimp only
    rw [hcalls]
    simp
  rw [hsplit, hcontent, hthinking]
  unfold Qwen3Parser.CallsApart Qwen3Parser.OpeningApart
  rw [hbuffer]
  constructor
  · exact fun h c₁ c₂ hcs => ⟨fun hflag => h.2 hflag c₁ c₂ hcs, h.1 c₁ c₂ hcs⟩
  · exact fun h => ⟨fun c₁ c₂ hcs => (h c₁ c₂ hcs).2, fun hflag c₁ c₂ hcs => (h c₁ c₂ hcs).1 hflag⟩

/-- The white space behind a tool call is content if a chunk ends before it, and is dropped otherwise. -/
theorem spaced_chunks_differ :
    let p := Qwen3Parser.init {} none
    (feed (· ++ ·) [] Qwen3Parser.parseEvents p ["<tool_call>{}</tool_call>".toList, "\nHello".toList]).map (texts ·.1) ≠
      (p.parseEvents "<tool_call>{}</tool_call>\nHello".toList).map (texts ·.1) := by
  decide

end Xdragon.Parsers.Qwen3
