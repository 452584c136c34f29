import Xdragon.Tools.Parser

/-!
# Tool calls in pieces

Behind the tag a call that is found stays where it is, whatever comes later. But while the text ends
with a part of the name of a tool nothing is found, so that the end of the text counts.
-/

namespace Xdragon.Tools

open Xdragon.Lib

/-! ## Names -/

theorem length_longest {tools : List Tool} {t : Tool} (ht : t ∈ tools) : t.name.length ≤ (longest tools).length := by
  have hfold : ∀ (ts : List Tool) (l : Bytes),
      l.length ≤ (ts.foldl (fun l t => if t.name.length > l.length then t.name else l) l).length ∧
      ∀ t ∈ ts, t.name.length ≤ (ts.foldl (fun l t => if t.name.length > l.length then t.name else l) l).length := by
    intro ts
    induction ts with
    | nil => exact fun l => ⟨le_rfl, nofun⟩
    | cons u ts ih =>
      intro l
      rw [List.foldl_cons]
      obtain ⟨hle, hall⟩ := ih (if u.name.length > l.length then u.name else l)
      refine ⟨le_trans ?_ hle, fun t ht => ?_⟩
      · split_ifs <;> omega
      · obtain rfl | ht := List.mem_cons.mp ht
        · refine le_trans ?_ hle
          split_ifs <;> omega
        · exact hall t ht
  exact (hfold tools []).2 t ht

/-- A part of a name at the end of the buffer. -/
theorem endsInName_iff {tools : List Tool} {buf : Bytes} : endsInName tools buf = true ↔
    ∃ t ∈ tools, ∃ tail, tail ≠ [] ∧ tail <:+ buf ∧ tail <+: t.name ∧ tail.length < t.name.length := by
  unfold endsInName
  simp only [List.any_eq_true, List.mem_range, Bool.and_eq_true, decide_eq_true_eq, List.isPrefixOf_iff_prefix]
  constructor
  · rintro ⟨i, hi, t, ht, hlt, hpre⟩
    refine ⟨t, ht, _, ?_, List.drop_suffix _ _, hpre, hlt⟩
    rw [← List.length_pos_iff_ne_nil, List.length_drop]
    omega
  · rintro ⟨t, ht, tail, hne, hsuf, hpre, hlt⟩
    have hpos := List.length_pos_iff_ne_nil.mpr hne
    have hle := hsuf.length_le
    have hlong := length_longest ht
    have htail : buf.drop (buf.length - (tail.length - 1 + 1)) = tail := by
      rw [Nat.sub_add_cancel hpos]
      exact (List.suffix_iff_eq_drop.mp hsuf).symm
    refine ⟨tail.length - 1, by omega, t, ht, ?_⟩
    rw [htail]
    exact ⟨hlt, hpre⟩

theorem endsInName_suffix {tools : List Tool} {a b : Bytes} (hsuf : a <:+ b) (h : endsInName tools b = false) :
    endsInName tools a = false := by
  rw [Bool.eq_false_iff] at h ⊢
  intro ha
  obtain ⟨t, ht, tail, hne, htail, hpre, hlt⟩ := endsInName_iff.mp ha
  exact h (endsInName_iff.mpr ⟨t, ht, tail, hne, htail.trans hsuf, hpre, hlt⟩)

theorem index_append {s sep : Bytes} {pos : Nat} (h : index s sep = some pos) (f : Bytes) : index (s ++ f) sep = some pos := by
  obtain ⟨q, hq, rfl⟩ := Option.map_eq_some_iff.mp h
  rw [index, cut_append_some hq]
  rfl

theorem index_le {s sep : Bytes} {pos : Nat} (h : index s sep = some pos) : pos + sep.length ≤ s.length := by
  obtain ⟨q, hq, rfl⟩ := Option.map_eq_some_iff.mp h
  have := length_of_cut hq
  omega

/-- A name that comes later starts later, unless a part of it was there. -/
theorem index_later {tools : List Tool} {t : Tool} (ht : t ∈ tools) {s f : Bytes} (hends : endsInName tools s = false)
    (hnone : index s t.name = none) {pos : Nat} (h : index (s ++ f) t.name = some pos) : s.length ≤ pos := by
  by_contra hlt
  obtain ⟨q, hq, rfl⟩ := Option.map_eq_some_iff.mp h
  obtain ⟨hs, -⟩ := cut_eq_some hq
  have hdrop : (s ++ f).drop q.1.length = t.name ++ q.2 := by rw [hs, List.drop_left]
  rw [List.drop_append_of_le_length (by omega)] at hdrop
  have hpre : s.drop q.1.length <+: t.name ++ q.2 := hdrop ▸ List.prefix_append _ _
  have hno : ¬ t.name <+: s.drop q.1.length := by
    intro hin
    have hcut : cut t.name s = none := Option.map_eq_none_iff.mp hnone
    exact cut_eq_none.mp hcut _ hin
  have hname : s.drop q.1.length <+: t.name := by
    obtain hname | hname := List.prefix_or_prefix_of_prefix hpre (List.prefix_append _ _)
    · exact hname
    · exact absurd hname hno
  rw [Bool.eq_false_iff] at hends
  refine hends (endsInName_iff.mpr ⟨t, ht, _, ?_, List.drop_suffix _ _, hname, ?_⟩)
  · rw [← List.length_pos_iff_ne_nil, List.length_drop]
    omega
  · refine lt_of_le_of_ne hname.length_le fun hlen => hno ?_
    rw [hname.eq_of_length hlen]

theorem betterMatch_none {buf : Bytes} {t : Tool} (h : index buf t.name = none) (found : Option (Tool × Nat)) :
    betterMatch buf found t = found := by
  rw [betterMatch.eq_def, h]

/-- Matches in a buffer and in a longer one: none is there yet, or the same one is in both. -/
def Agree (s : Bytes) (found found' : Option (Tool × Nat)) : Prop :=
  (found = none ∧ ∀ m ∈ found', s.length ≤ m.2) ∨ ∃ m, found = some m ∧ found' = some m ∧ m.2 < s.length

theorem Agree.step {tools : List Tool} {s : Bytes} (hne : s ≠ []) (hends : endsInName tools s = false) (f : Bytes)
    {t : Tool} (ht : t ∈ tools) {found found' : Option (Tool × Nat)} (h : Agree s found found') :
    Agree s (betterMatch s found t) (betterMatch (s ++ f) found' t) := by
  have hpos := List.length_pos_iff_ne_nil.mpr hne
  cases hindex : index s t.name with
  | none =>
    rw [betterMatch_none hindex]
    cases hindex' : index (s ++ f) t.name with
    | none =>
      rw [betterMatch_none hindex']
      exact h
    | some pos =>
      have hlater := index_later ht hends hindex hindex'
      obtain ⟨rfl, hlate⟩ | ⟨m, rfl, rfl, hm⟩ := h
      · refine .inl ⟨rfl, ?_⟩
        rw [betterMatch.eq_def, hindex']
        cases found' with
        | none => simpa using hlater
        | some m' =>
          dsimp only
          split_ifs
          · exact hlate
          · exact hlate
          · simpa using hlater
      · refine .inr ⟨m, rfl, ?_, hm⟩
        rw [betterMatch.eq_def, hindex']
        dsimp only
        rw [if_pos (by omega)]
  | some pos =>
    have hle := index_le hindex
    have hin : pos < s.length := by
      cases hname : t.name with
      | nil =>
        have hzero : index s t.name = some 0 := by
          rw [index, hname, cut_at_start List.nil_prefix]
          rfl
        rw [hindex, Option.some.injEq] at hzero
        omega
      | cons x xs =>
        rw [hname, List.length_cons] at hle
        omega
    have hindex' := index_append hindex f
    obtain ⟨rfl, hlate⟩ | ⟨m, rfl, rfl, hm⟩ := h
    · refine .inr ⟨(t, pos), ?_, ?_, hin⟩
      · rw [betterMatch.eq_def, hindex]
      · rw [betterMatch.eq_def, hindex']
        cases found' with
        | none => rfl
        | some m' =>
          have hm' := hlate m' rfl
          dsimp only
          rw [if_neg (by omega), if_neg (by omega)]
    · refine .inr ?_
      rw [betterMatch.eq_def, hindex, betterMatch.eq_def, hindex']
      dsimp only
      split_ifs
      · exact ⟨m, rfl, rfl, hm⟩
      · exact ⟨m, rfl, rfl, hm⟩
      · exact ⟨(t, pos), rfl, rfl, hin⟩

/-- The best match in a buffer is the best match in a longer one. -/
theorem firstName_append {tools : List Tool} {s : Bytes} (hne : s ≠ []) (hends : endsInName tools s = false)
    {r : Tool × Nat} (h : firstName tools s = some r) (f : Bytes) : firstName tools (s ++ f) = some r := by
  have hfold : ∀ ts : List Tool, (∀ t ∈ ts, t ∈ tools) → ∀ found found', Agree s found found' →
      Agree s (ts.foldl (betterMatch s) found) (ts.foldl (betterMatch (s ++ f)) found') := by
    intro ts
    induction ts with
    | nil => exact fun _ _ _ h => h
    | cons t ts ih =>
      intro hts found found' hagree
      exact ih (fun u hu => hts u (List.mem_cons_of_mem _ hu)) _ _ (hagree.step hne hends f (hts t (List.mem_cons_self ..)))
  have hall := hfold tools (fun _ ht => ht) none none (.inl ⟨rfl, nofun⟩)
  unfold firstName at h ⊢
  obtain ⟨hnone, -⟩ | ⟨m, hm, hm', -⟩ := hall
  · rw [hnone] at h
    cases h
  · rwa [hm', ← hm]

theorem firstName_le {tools : List Tool} {s : Bytes} {r : Tool × Nat} (h : firstName tools s = some r) : r.2 ≤ s.length := by
  have hfold : ∀ ts : List Tool, ∀ found : Option (Tool × Nat), (∀ m ∈ found, m.2 + m.1.name.length ≤ s.length) →
      ∀ m ∈ ts.foldl (betterMatch s) found, m.2 + m.1.name.length ≤ s.length := by
    intro ts
    induction ts with
    | nil => exact fun _ h => h
    | cons t ts ih =>
      intro found hfound
      refine ih _ ?_
      cases hindex : index s t.name with
      | none =>
        rw [betterMatch_none hindex]
        exact hfound
      | some pos =>
        have hle := index_le hindex
        rw [betterMatch.eq_def, hindex]
        cases found with
        | none => simpa using hle
        | some m =>
          dsimp only
          split_ifs
          · exact hfound
          · exact hfound
          · simpa using hle
  obtain ⟨m, hm, rfl⟩ := Option.map_eq_some_iff.mp h
  exact hfold tools none nofun m hm

/-! ## Arguments -/

section
variable {unmarshal : Bytes → Option Map}

theorem findArgumentsFrom_append {tool : Tool} {buffer rest : Bytes} {i : Nat} (hrest : buffer.drop i = rest)
    {start : Option Nat} {braces : Int} {inString escaped : Bool} {args : Members} {j : Nat}
    (h : findArgumentsFrom unmarshal tool buffer rest i start braces inString escaped = (some args, j)) (f : Bytes) :
    findArgumentsFrom unmarshal tool (buffer ++ f) (rest ++ f) i start braces inString escaped = (some args, j) := by
  induction rest generalizing i start braces inString escaped with
  | nil => cases h
  | cons c rest ih =>
    have hnext : buffer.drop (i + 1) = rest := by
      rw [← List.tail_drop, hrest]
      rfl
    have hi : i < buffer.length := by
      by_contra hge
      rw [List.drop_of_length_le (by omega)] at hrest
      cases hrest
    rw [List.cons_append]
    unfold findArgumentsFrom at h ⊢
    split_ifs at h ⊢
    · exact ih hnext h
    · exact ih hnext h
    · exact ih hnext h
    · exact ih hnext h
    · exact ih hnext h
    · exact ih hnext h
    · -- a closing brace: the object lies in the shorter buffer
      cases hdone : completed start (braces - 1) with
      | none =>
        rw [hdone] at h
        exact ih hnext h
      | some first =>
        have hobject : ((buffer ++ f).drop first).take (i + 1 - first) = (buffer.drop first).take (i + 1 - first) := by
          obtain hle | hlt := Nat.le_total first buffer.length
          · rw [List.drop_append_of_le_length hle, List.take_append_of_le_length (by rw [List.length_drop]; omega)]
          · rw [show i + 1 - first = 0 by omega, List.take_zero, List.take_zero]
        rw [hdone] at h
        dsimp only at h ⊢
        rw [hobject]
        cases hdata : unmarshal ((buffer.drop first).take (i + 1 - first)) with
        | none =>
          rw [hdata] at h
          exact ih hnext h
        | some data =>
          rw [hdata] at h
          exact h
    · exact ih hnext h

/-- Arguments end behind their first brace, within the buffer. -/
theorem findArgumentsFrom_bounds {tool : Tool} {buffer rest : Bytes} {i : Nat} {start : Option Nat}
    (hstart : ∀ first ∈ start, first < i) {braces : Int} {inString escaped : Bool} {args : Members} {j : Nat}
    (h : findArgumentsFrom unmarshal tool buffer rest i start braces inString escaped = (some args, j)) :
    0 < j ∧ j < i + rest.length := by
  induction rest generalizing i start braces inString escaped with
  | nil => cases h
  | cons c rest ih =>
    have hlate : ∀ {start' : Option Nat} {braces' : Int} {inString' escaped' : Bool},
        (∀ first ∈ start', first < i + 1) →
        findArgumentsFrom unmarshal tool buffer rest (i + 1) start' braces' inString' escaped' = (some args, j) →
        0 < j ∧ j < i + (c :: rest).length := by
      intro start' braces' inString' escaped' hstart' h
      have := ih hstart' h
      rw [List.length_cons]
      omega
    have hkeep : ∀ first ∈ start, first < i + 1 := fun first hfirst => (hstart first hfirst).trans (Nat.lt_succ_self i)
    unfold findArgumentsFrom at h
    split_ifs at h
    · exact hlate hkeep h
    · exact hlate hkeep h
    · exact hlate hkeep h
    · exact hlate hkeep h
    · exact hlate (by simp) h
    · exact hlate hkeep h
    · cases hdone : completed start (braces - 1) with
      | none =>
        rw [hdone] at h
        exact hlate hkeep h
      | some first =>
        have hfirst : first < i := by
          unfold completed at hdone
          split_ifs at hdone
          exact hstart first hdone
        rw [hdone] at h
        dsimp only at h
        cases hdata : unmarshal ((buffer.drop first).take (i + 1 - first)) with
        | none =>
          rw [hdata] at h
          exact hlate (by simp) h
        | some data =>
          rw [hdata] at h
          dsimp only at h
          rw [List.length_cons]
          cases hobject : findObject unmarshal tool data with
          | none =>
            rw [hobject] at h
            cases h
            omega
          | some a =>
            rw [hobject] at h
            cases h
            omega
    · exact hlate hkeep h

/-! ## Calls -/

/-- The parser with text behind what it has. -/
def Parser.feed (p : Parser) (s : Bytes) : Parser := { p with buffer := p.buffer ++ s }

theorem feed_feed (p : Parser) (s t : Bytes) : (p.feed s).feed t = p.feed (s ++ t) := by
  simp [Parser.feed]

theorem feed_nil (p : Parser) : p.feed [] = p := by
  simp [Parser.feed]

theorem parseToolCall_some {p p' : Parser} {call : ToolCall} (h : p.parseToolCall unmarshal = some (call, p')) :
    endsInName p.tools p.buffer = false ∧ p.buffer ≠ [] ∧ ∃ tool stop args i,
      firstName p.tools p.buffer = some (tool, stop) ∧ findArguments unmarshal tool p.buffer = (some args, i) ∧
      call = { name := tool.name, arguments := args, index := p.n } ∧
      p' = { p with n := p.n + 1, buffer := p.buffer.drop (if i > stop then i else stop) } := by
  unfold Parser.parseToolCall at h
  cases hfind : findTool p.tools p.buffer with
  | none =>
    rw [hfind] at h
    cases h
  | some r =>
    rw [hfind] at h
    dsimp only at h
    unfold findTool at hfind
    split_ifs at hfind with hempty hends
    rw [Bool.not_eq_true] at hends
    refine ⟨hends, hempty, r.1, r.2, ?_⟩
    cases hargs : findArguments unmarshal r.1 p.buffer with
    | mk found i =>
      rw [hargs] at h
      cases found with
      | none => cases h
      | some args =>
        cases h
        exact ⟨args, i, hfind, rfl, rfl, rfl⟩

theorem parseToolCall_shorter {p p' : Parser} {call : ToolCall} (h : p.parseToolCall unmarshal = some (call, p')) :
    p'.buffer.length < p.buffer.length := by
  obtain ⟨-, hne, tool, stop, args, i, hname, hargs, -, rfl⟩ := parseToolCall_some h
  have hbounds := findArgumentsFrom_bounds (nofun : ∀ s, none = some s → _) hargs
  have hpos := List.length_pos_iff_ne_nil.mpr hne
  dsimp only
  rw [List.length_drop]
  split_ifs <;> omega

theorem parseToolCall_append {p p' : Parser} {call : ToolCall} (h : p.parseToolCall unmarshal = some (call, p')) {s : Bytes}
    (hends : endsInName p.tools (p.buffer ++ s) = false) :
    (p.feed s).parseToolCall unmarshal = some (call, p'.feed s) := by
  obtain ⟨hbefore, hne, tool, stop, args, i, hname, hargs, rfl, rfl⟩ := parseToolCall_some h
  have hbounds := findArgumentsFrom_bounds (nofun : ∀ s, none = some s → _) hargs
  have hstop := firstName_le hname
  have hname' := firstName_append hne hbefore hname s
  have hargs' : findArguments unmarshal tool (p.buffer ++ s) = (some args, i) :=
    findArgumentsFrom_append (List.drop_zero ..) hargs s
  have hfind : findTool p.tools (p.buffer ++ s) = some (tool, stop) := by
    rw [findTool, if_neg (by simp [hne]), if_neg (by simp [hends]), hname']
  have hdrop : (p.buffer ++ s).drop (if i > stop then i else stop) = p.buffer.drop (if i > stop then i else stop) ++ s := by
    apply List.drop_append_of_le_length
    dsimp only at hstop
    split_ifs <;> omega
  rw [Parser.parseToolCall, Parser.feed, hfind]
  dsimp only
  rw [hargs']
  dsimp only
  rw [hdrop]
  rfl

/-- The calls that a parser gives, and the parser that is left. -/
inductive Drains (unmarshal : Bytes → Option Map) : Parser → List ToolCall → Parser → Prop where
  | stop {p : Parser} : p.parseToolCall unmarshal = none → Drains unmarshal p [] p
  | more {p p' q : Parser} {call : ToolCall} {calls : List ToolCall} :
    p.parseToolCall unmarshal = some (call, p') → Drains unmarshal p' calls q → Drains unmarshal p (call :: calls) q

theorem Drains.unique {p q q' : Parser} {calls calls' : List ToolCall} (h : Drains unmarshal p calls q)
    (h' : Drains unmarshal p calls' q') : calls = calls' ∧ q = q' := by
  induction h generalizing calls' with
  | stop hnone =>
    cases h' with
    | stop _ => exact ⟨rfl, rfl⟩
    | more hsome _ =>
      rw [hnone] at hsome
      cases hsome
  | more hsome _ ih =>
    cases h' with
    | stop hnone =>
      rw [hsome] at hnone
      cases hnone
    | more hsome' hrest =>
      rw [hsome] at hsome'
      cases hsome'
      obtain ⟨rfl, rfl⟩ := ih hrest
      exact ⟨rfl, rfl⟩

/-- What draining keeps: a later part of the buffer is left, and nothing more is found in it. -/
structure Left (unmarshal : Bytes → Option Map) (p q : Parser) : Prop where
  tag : q.tag = p.tag
  tools : q.tools = p.tools
  state : q.state = p.state
  buffer : q.buffer <:+ p.buffer
  stopped : q.parseToolCall unmarshal = none

theorem Drains.left {p q : Parser} {calls : List ToolCall} (h : Drains unmarshal p calls q) : Left unmarshal p q := by
  induction h with
  | stop hnone => exact ⟨rfl, rfl, rfl, List.suffix_rfl, hnone⟩
  | more hsome _ ih =>
    obtain ⟨-, -, tool, stop, args, i, -, -, -, rfl⟩ := parseToolCall_some hsome
    exact ⟨ih.tag, ih.tools, ih.state, ih.buffer.trans (List.drop_suffix _ _), ih.stopped⟩

theorem Drains.nil_iff {p q : Parser} {calls : List ToolCall} (h : Drains unmarshal p calls q) :
    calls = [] ↔ p.parseToolCall unmarshal = none := by
  cases h with
  | stop hnone => exact iff_of_true rfl hnone
  | more hsome _ =>
    rw [hsome]
    exact iff_of_false nofun nofun

theorem Drains.stays {p q : Parser} (h : Drains unmarshal p [] q) : q = p := by
  cases h
  rfl

/-- Calls found before more text comes are those found in all of the text, unless it ends with a part of a name. -/
theorem Drains.append {p q q' : Parser} {calls calls' : List ToolCall} (h : Drains unmarshal p calls q) {s : Bytes}
    (hends : endsInName p.tools (p.buffer ++ s) = false) (h' : Drains unmarshal (q.feed s) calls' q') :
    Drains unmarshal (p.feed s) (calls ++ calls') q' := by
  induction h with
  | stop _ => exact h'
  | more hsome _ ih =>
    refine .more (parseToolCall_append hsome hends) (ih ?_ h')
    obtain ⟨-, -, tool, stop, args, i, -, -, -, rfl⟩ := parseToolCall_some hsome
    obtain ⟨b, hb⟩ := List.drop_suffix (if i > stop then i else stop) _
    refine endsInName_suffix ⟨b, ?_⟩ hends
    rw [← List.append_assoc, hb]

variable (unmarshal) in
/-- The rounds of `Add` drain the parser. -/
theorem rounds_drain (p : Parser) {n : Nat} (hn : p.buffer.length < n) :
    ∃ outs q, rounds (Parser.eatCall unmarshal) n p = some (outs, q) ∧ Drains unmarshal p outs.flatten q := by
  induction n generalizing p with
  | zero => omega
  | succ n ih =>
    cases hparse : p.parseToolCall unmarshal with
    | none =>
      have heat : p.eatCall unmarshal = ([], p, false) := by rw [Parser.eatCall, hparse]
      exact ⟨[[]], p, rounds_stop heat, .stop hparse⟩
    | some r =>
      have heat : p.eatCall unmarshal = ([r.1], r.2, true) := by rw [Parser.eatCall, hparse]
      have hshorter := parseToolCall_shorter hparse
      obtain ⟨outs, q, hrounds, hdrains⟩ := ih r.2 (by omega)
      refine ⟨[r.1] :: outs, q, ?_, .more hparse hdrains⟩
      rw [rounds_more heat, hrounds]
      rfl

theorem done_of_not_bare {p : Parser} (h : bare p.tag = false) : p.done = false := by
  simp only [bare, Bool.or_eq_false_iff, decide_eq_false_iff_not] at h
  rw [Parser.done, if_neg h.1, if_neg h.2]

variable (unmarshal) in
theorem parseCalls_eq {p : Parser} (htag : bare p.tag = false) (content : Bytes) :
    ∃ calls q, p.parseCalls unmarshal content = some ((calls, content), q) ∧ Drains unmarshal p calls q := by
  obtain ⟨outs, q, hrounds, hdrains⟩ := rounds_drain unmarshal p (Nat.lt_succ_self _)
  refine ⟨_, q, ?_, hdrains⟩
  rw [Parser.parseCalls, hrounds, Option.map_some, if_neg]
  rw [done_of_not_bare (hdrains.left.tag ▸ htag)]
  exact Bool.false_ne_true

/-! ## All chunks -/

/-- Outputs of several calls of `Add`. -/
def together (a b : List ToolCall × Bytes) : List ToolCall × Bytes := (a.1 ++ b.1, a.2 ++ b.2)

variable (unmarshal) in
theorem add_toolCalling {p : Parser} (hstate : p.state = .toolCalling) (htag : bare p.tag = false) (s : Bytes) :
    ∃ calls q, p.add unmarshal s = some ((calls, []), q) ∧ Drains unmarshal (p.feed s) calls q := by
  obtain ⟨calls, q, hparse, hdrains⟩ := parseCalls_eq unmarshal (p := p.feed s) htag []
  refine ⟨calls, q, ?_, hdrains⟩
  rw [Parser.feed, hstate] at hparse
  rw [Parser.add, hstate]
  exact hparse

variable (unmarshal) in
/-- Behind the tag the chunks give the calls of all text behind it if it does not end with a part of a name, and no call
if and only if there is none at the end of a chunk. -/
theorem toolCalling_chunks {p : Parser} (hstate : p.state = .toolCalling) (htag : bare p.tag = false)
    (hstopped : p.parseToolCall unmarshal = none) (cs : List Bytes) :
    ∃ calls q, Lib.feed together ([], []) (Parser.add unmarshal) p cs = some ((calls, []), q) ∧
      (endsInName p.tools (p.buffer ++ cs.flatten) = false → Drains unmarshal (p.feed cs.flatten) calls q) ∧
      (calls = [] ↔ ∀ c₁ c₂, cs = c₁ ++ c₂ → (p.feed c₁.flatten).parseToolCall unmarshal = none) := by
  induction cs generalizing p with
  | nil =>
    refine ⟨[], p, rfl, fun _ => ?_, iff_of_true rfl fun c₁ c₂ hcs => ?_⟩
    · rw [List.flatten_nil, feed_nil]
      exact .stop hstopped
    · obtain ⟨rfl, rfl⟩ := List.append_eq_nil_iff.mp hcs.symm
      rwa [List.flatten_nil, feed_nil]
  | cons c cs ih =>
    obtain ⟨calls, q, hadd, hdrains⟩ := add_toolCalling unmarshal hstate htag c
    have hleft := hdrains.left
    obtain ⟨calls', q', hfeed, hall, hnone⟩ := ih (hleft.state.trans hstate) (hleft.tag ▸ htag) hleft.stopped
    refine ⟨calls ++ calls', q', ?_, fun hends => ?_, ?_⟩
    · rw [Lib.feed, hadd, Option.bind_some, hfeed]
      rfl
    · rw [List.flatten_cons, ← List.append_assoc] at hends
      have hends' : endsInName q.tools (q.buffer ++ cs.flatten) = false := by
        obtain ⟨b, hb⟩ := hleft.buffer
        rw [hleft.tools]
        refine endsInName_suffix ⟨b, ?_⟩ hends
        rw [← List.append_assoc, hb]
        rfl
      have := hdrains.append hends (hall hends')
      rwa [feed_feed, ← List.flatten_cons] at this
    · rw [List.append_eq_nil_iff, hnone]
      constructor
      · rintro ⟨rfl, hrest⟩ c₁ c₂ hcs
        obtain rfl := hdrains.stays
        cases c₁ with
        | nil => rwa [List.flatten_nil, feed_nil]
        | cons d c₁ =>
          obtain ⟨rfl, htail⟩ := List.cons.inj hcs
          rw [List.flatten_cons, ← feed_feed]
          exact hrest c₁ c₂ htail
      · intro h
        have hfirst := h [c] cs rfl
        rw [List.flatten_singleton] at hfirst
        obtain rfl := hdrains.nil_iff.mpr hfirst
        obtain rfl := hdrains.stays
        refine ⟨rfl, fun c₁ c₂ hcs => ?_⟩
        rw [feed_feed, ← List.flatten_cons]
        exact h (c :: c₁) c₂ (by rw [hcs, List.cons_append])

/-- The content of a text: what comes before the tag, or all but a part of the tag at the end. -/
def contentOf (tag text : Bytes) : Bytes :=
  match cut tag text with
  | none => released tag text
  | some (before, _) => before

/-- The text from the tag on. -/
def fromTag (tag text : Bytes) : Bytes :=
  match cut tag text with
  | none => []
  | some (before, _) => text.drop before.length

/-- The parser that looks for the tag, between two calls. -/
def looking (tools : List Tool) (tag text : Bytes) : Parser := { tag, tools, buffer := withheld tag text }

/-- The parser behind the tag. -/
def calling (tools : List Tool) (tag buffer : Bytes) : Parser := { tag, tools, state := .toolCalling, buffer }

/-- No tag was found in a text that was given to a parser that still looks for one. -/
def Untagged (tag text : Bytes) : Prop := text = [] ∨ cut tag text = none

theorem Untagged.cut_append {tag text : Bytes} (h : Untagged tag text) (c : Bytes) : cut tag (text ++ c) =
    (cut tag (withheld tag text ++ c)).map fun q => (released tag text ++ q.1, q.2) := by
  obtain rfl | h := h
  · cases tag <;> simp [withheld, released]
  · exact cut_append_withheld h c

theorem Untagged.fromTag {tag text : Bytes} (h : Untagged tag text) : fromTag tag text = [] := by
  unfold Tools.fromTag
  obtain rfl | h := h
  · cases cut tag [] <;> simp
  · rw [h]

theorem Untagged.contentOf {tag text : Bytes} (h : Untagged tag text) : contentOf tag text = released tag text := by
  unfold Tools.contentOf
  obtain rfl | h := h
  · cases tag <;> simp [cut, released]
  · rw [h]

theorem fromTag_append {tag text before after : Bytes} (h : cut tag text = some (before, after)) (c : Bytes) :
    fromTag tag (text ++ c) = fromTag tag text ++ c := by
  have hle := length_of_cut h
  unfold fromTag
  rw [cut_append_some h, h]
  exact List.drop_append_of_le_length (by omega)

theorem parseToolCall_nil (tools : List Tool) (tag : Bytes) : (calling tools tag []).parseToolCall unmarshal = none := by
  simp [Parser.parseToolCall, calling, findTool]

theorem add_untagged {tools : List Tool} {tag text c : Bytes} (hbare : bare tag = false) (h : Untagged tag text)
    (hnone : cut tag (text ++ c) = none) : (looking tools tag text).add unmarshal c =
      some (([], released tag (withheld tag text ++ c)), looking tools tag (text ++ c)) := by
  have hcut : cut tag (withheld tag text ++ c) = none := by
    rw [h.cut_append, Option.map_eq_none_iff] at hnone
    exact hnone
  have hplace : ∀ b : Bytes, cut tag b = none → ∃ i : Option Nat,
      Parser.findTag { tag, tools, buffer := b } = (i, false) ∧ i.getD b.length = b.length - overlap b tag := by
    intro b hb
    rw [Parser.findTag, index, hb]
    dsimp only [Option.map_none]
    split_ifs with hoverlap
    · exact ⟨_, rfl, rfl⟩
    · exact ⟨none, rfl, by rw [Option.getD_none]; omega⟩
  obtain ⟨i, hfind, hi⟩ := hplace _ hcut
  rw [Parser.add, looking]
  dsimp only
  rw [hfind]
  dsimp only
  rw [hi, if_neg (by simp [hbare]), if_neg (by simp), looking, withheld_append_withheld]
  rfl

theorem add_tagged {tools : List Tool} {tag text c before after : Bytes} (hbare : bare tag = false) (h : Untagged tag text)
    (hsome : cut tag (withheld tag text ++ c) = some (before, after)) : (looking tools tag text).add unmarshal c =
      (calling tools tag (fromTag tag (text ++ c))).parseCalls unmarshal before := by
  have hbuffer : fromTag tag (text ++ c) = (withheld tag text ++ c).drop before.length := by
    have hcut := h.cut_append c
    rw [hsome] at hcut
    rw [fromTag, hcut, Option.map_some]
    dsimp only
    have hsplit : text ++ c = released tag text ++ (withheld tag text ++ c) := by
      rw [← List.append_assoc, released_append_withheld]
    rw [List.length_append, ← List.drop_drop, hsplit, List.drop_left]
  have hfind : Parser.findTag { tag, tools, buffer := withheld tag text ++ c } = (some before.length, true) := by
    rw [Parser.findTag, index, hsome]
    rfl
  have htake : (withheld tag text ++ c).take before.length = before := by
    rw [(cut_eq_some hsome).1, List.take_left]
  rw [Parser.add, looking]
  dsimp only
  rw [hfind]
  dsimp only
  rw [if_neg (by simp [hbare]), if_pos rfl, Option.getD_some, htake, ← hbuffer]
  rfl

variable (unmarshal) in
/-- What the chunks give to a parser that looks for the tag: the content of the text, and the calls behind the tag. -/
theorem looking_chunks {tools : List Tool} {tag text : Bytes} (hbare : bare tag = false) (h : Untagged tag text)
    (cs : List Bytes) : ∃ calls content q,
      Lib.feed together ([], []) (Parser.add unmarshal) (looking tools tag text) cs = some ((calls, content), q) ∧
      released tag text ++ content = contentOf tag (text ++ cs.flatten) ∧
      (endsInName tools (fromTag tag (text ++ cs.flatten)) = false →
        ∃ q', Drains unmarshal (calling tools tag (fromTag tag (text ++ cs.flatten))) calls q') ∧
      (calls = [] ↔ ∀ c₁ c₂, cs = c₁ ++ c₂ →
        (calling tools tag (fromTag tag (text ++ c₁.flatten))).parseToolCall unmarshal = none) := by
  induction cs generalizing text with
  | nil =>
    rw [List.flatten_nil, List.append_nil, h.fromTag, h.contentOf]
    refine ⟨[], [], _, rfl, List.append_nil _, fun _ => ⟨_, .stop (parseToolCall_nil tools tag)⟩,
      iff_of_true rfl fun c₁ c₂ hcs => ?_⟩
    obtain ⟨rfl, rfl⟩ := List.append_eq_nil_iff.mp hcs.symm
    rw [List.flatten_nil, List.append_nil, h.fromTag]
    exact parseToolCall_nil tools tag
  | cons c cs ih =>
    rw [List.flatten_cons, ← List.append_assoc]
    -- an empty rest of the chunks before the first
    have hcons : ∀ P : Bytes → Prop, P text → ((∀ c₁ c₂, c :: cs = c₁ ++ c₂ → P (text ++ c₁.flatten)) ↔
        ∀ c₁ c₂, cs = c₁ ++ c₂ → P (text ++ c ++ c₁.flatten)) := by
      intro P hP
      constructor
      · intro hall c₁ c₂ hcs
        rw [List.append_assoc, ← List.flatten_cons]
        exact hall (c :: c₁) c₂ (by rw [hcs, List.cons_append])
      · intro hall c₁ c₂ hcs
        cases c₁ with
        | nil => rwa [List.flatten_nil, List.append_nil]
        | cons d c₁ =>
          obtain ⟨rfl, htail⟩ := List.cons.inj hcs
          rw [List.flatten_cons, ← List.append_assoc]
          exact hall c₁ c₂ htail
    rw [hcons (fun t => (calling tools tag (fromTag tag t)).parseToolCall unmarshal = none)
      (by rw [h.fromTag]; exact parseToolCall_nil tools tag)]
    cases hcut : cut tag (withheld tag text ++ c) with
    | none =>
      have hnone : cut tag (text ++ c) = none := by rw [h.cut_append, hcut, Option.map_none]
      obtain ⟨calls, content, q, hfeed, hcontent, hcalls, hempty⟩ := ih (.inr hnone)
      refine ⟨calls, released tag (withheld tag text ++ c) ++ content, q, ?_, ?_, hcalls, hempty⟩
      · rw [Lib.feed, add_untagged hbare h hnone, Option.bind_some, hfeed]
        rfl
      · rw [← hcontent, released_append_withheld_append tag text c, List.append_assoc]
    | some r =>
      have hsome : cut tag (text ++ c) = some (released tag text ++ r.1, r.2) := by
        rw [h.cut_append, hcut, Option.map_some]
      obtain ⟨calls, q, hparse, hdrains⟩ := parseCalls_eq unmarshal
        (p := calling tools tag (fromTag tag (text ++ c))) hbare r.1
      have hleft := hdrains.left
      obtain ⟨calls', q', hfeed, hall, hnone⟩ := toolCalling_chunks unmarshal hleft.state
        (hleft.tag ▸ hbare) hleft.stopped cs
      refine ⟨calls ++ calls', r.1, q', ?_, ?_, fun hends => ?_, ?_⟩
      · rw [Lib.feed, add_tagged hbare h hcut, hparse, Option.bind_some, hfeed]
        simp [together]
      · rw [contentOf, cut_append_some hsome]
      · rw [fromTag_append hsome] at hends ⊢
        have hends' : endsInName q.tools (q.buffer ++ cs.flatten) = false := by
          obtain ⟨b, hb⟩ := hleft.buffer
          rw [hleft.tools]
          refine endsInName_suffix ⟨b, ?_⟩ hends
          rw [← List.append_assoc, hb]
          rfl
        exact ⟨q', hdrains.append hends (hall hends')⟩
      · rw [List.append_eq_nil_iff, hnone]
        constructor
        · rintro ⟨rfl, hrest⟩ c₁ c₂ hcs
          obtain rfl := hdrains.stays
          rw [fromTag_append hsome]
          exact hrest c₁ c₂ hcs
        · intro hrest
          have hfirst := hrest [] cs rfl
          rw [List.flatten_nil, List.append_nil] at hfirst
          obtain rfl := hdrains.nil_iff.mpr hfirst
          obtain rfl := hdrains.stays
          refine ⟨rfl, fun c₁ c₂ hcs => ?_⟩
          have := hrest c₁ c₂ hcs
          rwa [fromTag_append hsome] at this

end

/-- A decoder for the objects of the example below. -/
def decodeWeather (object : Bytes) : Option Map :=
  if object = ascii "\x7b\"name\":\"get\",\"arguments\":\x7b\x7d\x7d" then
    some (some [(ascii "name", .string (ascii "get")), (ascii "arguments", .object [])])
  else if object = ascii "\x7b\x7d" then some (some [])
  else none

end Xdragon.Tools
