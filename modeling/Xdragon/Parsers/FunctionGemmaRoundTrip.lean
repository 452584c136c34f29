import Xdragon.Parsers.FunctionGemmaArguments

/-!
# Rendered FunctionGemma calls

Trees of arguments that are written in the format of the calls and parsed again. The pattern of a call ends at a newline.
-/

namespace Xdragon.Parsers.FunctionGemma

open Xdragon.Lib

variable {F : Type}

/-- The text of a tree. It has no null and no float. -/
def render : Value F → Bytes
  | .null | .float _ => []
  | .bool true => ascii "true"
  | .bool false => ascii "false"
  | .int i => decimal i
  | .string s => escapeTag ++ (s ++ escapeTag)
  | .array items => [openBracket] ++ (join (items.map render) [comma] ++ [closeBracket])
  | .object entries => [openBrace] ++ (join (entries.map fun e => e.1 ++ ([colon] ++ render e.2)) [comma] ++ [closeBrace])
termination_by v => sizeOf v
decreasing_by
  · exact Value.sizeOf_item ‹_›
  · exact Value.sizeOf_entry ‹_›

def renderEntry (e : Bytes × Value F) : Bytes := e.1 ++ ([colon] ++ render e.2)

/-- The arguments of a call. -/
def renderArguments (args : Entries F) : Bytes := join (args.map renderEntry) [comma]

/-- `call:name\x7bkey:value,...\x7d`. -/
def renderCall (name : Bytes) (args : Entries F) : Bytes :=
  ascii "call:" ++ (name ++ ([openBrace] ++ (renderArguments args ++ [closeBrace])))

theorem render_object (entries : Entries F) :
    render (.object entries) = [openBrace] ++ (renderArguments entries ++ [closeBrace]) := by
  rw [render]
  rfl

/-- A key that the splitter and the search for the colon do not touch. -/
def IsKey (key : Bytes) : Prop :=
  (∀ b ∈ key, b ∉ [colon, comma, openBrace, closeBrace, openBracket, closeBracket]) ∧ ¬ escapeTag <:+: key

/-- The trees that are rendered. -/
inductive Renderable : Value F → Prop
  | bool (b : Bool) : Renderable (.bool b)
  | int (i : Int) : Renderable (.int i)
  | string {s : Bytes} : ¬ escapeTag <:+: s → Renderable (.string s)
  | array {items : List (Value F)} : items ≠ [] → (∀ v ∈ items, Renderable v) → Renderable (.array items)
  | object {entries : Entries F} : (entries.map Prod.fst).Nodup → (∀ e ∈ entries, IsKey e.1) →
      (∀ e ∈ entries, Renderable e.2) → Renderable (.object entries)

/-- No string and no key has a newline, and every integer has 64 bits. -/
inductive Kept : Value F → Prop
  | null : Kept .null
  | bool (b : Bool) : Kept (.bool b)
  | int {i : Int} : InInt64 i → Kept (.int i)
  | float (f : F) : Kept (.float f)
  | string {s : Bytes} : newline ∉ s → Kept (.string s)
  | array {items : List (Value F)} : (∀ v ∈ items, Kept v) → Kept (.array items)
  | object {entries : Entries F} : (∀ e ∈ entries, newline ∉ e.1) → (∀ e ∈ entries, Kept e.2) → Kept (.object entries)

/-! ## The splitter in a rendered text -/

theorem splitLoop_tag (s : Splitter) (rest : Bytes) :
    splitLoop s (escapeTag ++ rest) = splitLoop ({ s with inEscape := !s.inEscape }.write escapeTag) rest := by
  obtain ⟨ch, tail, htag⟩ := List.exists_cons_of_ne_nil (show escapeTag ≠ [] by decide)
  have hpre : escapeTag <+: ch :: (tail ++ rest) := by rw [← List.cons_append, ← htag]; exact List.prefix_append _ _
  have hdrop : (ch :: (tail ++ rest)).drop escapeTag.length = rest := by rw [← List.cons_append, ← htag, List.drop_left]
  rw [show escapeTag ++ rest = ch :: (tail ++ rest) by rw [htag]; rfl, splitLoop, if_pos hpre, hdrop]

/-- A byte that starts no tag. -/
theorem splitLoop_byte (s : Splitter) {ch : UInt8} {rest : Bytes} (h : ¬ escapeTag <+: ch :: rest) :
    splitLoop s (ch :: rest) = splitLoop (if s.inEscape then s.write [ch] else s.outside ch) rest := by
  rw [splitLoop, if_neg h]

theorem write_write (s : Splitter) (a b : Bytes) : (s.write a).write b = s.write (a ++ b) := by
  unfold Splitter.write
  rw [List.append_assoc]

/-- What stands in front of a byte that is not in the tag has all of a tag that starts there. -/
theorem prefix_of_stop {tag a rest : Bytes} {x : UInt8} (hx : x ∉ tag) (h : tag <+: a ++ x :: rest) : tag <+: a := by
  obtain hle | ⟨t, rfl⟩ := List.prefix_or_prefix_of_prefix h (List.prefix_append a (x :: rest))
  · exact hle
  · cases t with
    | nil => rw [List.append_nil]
    | cons y t =>
      obtain rfl := (List.cons_prefix_cons.mp ((List.prefix_append_right_inj a).mp h)).1
      exact absurd (List.mem_append_right _ (List.mem_cons_self ..)) hx

/-- A string does not reach into the tag behind it. -/
theorem not_tag_of_string {ch : UInt8} {w : Bytes} (h : ¬ escapeTag <:+: ch :: w) (rest : Bytes) :
    ¬ escapeTag <+: ch :: (w ++ (escapeTag ++ rest)) := by
  intro hpre
  have htag : escapeTag = 0x3c :: escapeTag.tail := by decide
  rw [htag, List.cons_prefix_cons] at hpre
  obtain ⟨rfl, hpre⟩ := hpre
  have hstop : escapeTag.tail <+: w := by
    rw [htag, List.cons_append] at hpre
    exact prefix_of_stop (by decide) hpre
  refine h (List.IsPrefix.isInfix ?_)
  rw [htag, List.cons_prefix_cons]
  exact ⟨rfl, hstop⟩

/-- A text that the splitter passes where no comma is a separator. -/
def Inner (w : Bytes) : Prop :=
  ∀ s rest, s.inEscape = false → 0 < s.depth → splitLoop s (w ++ rest) = splitLoop (s.write w) rest

/-- A text that the splitter passes everywhere. -/
def Whole (w : Bytes) : Prop :=
  ∀ s rest, s.inEscape = false → 0 ≤ s.depth → splitLoop s (w ++ rest) = splitLoop (s.write w) rest

theorem Whole.inner {w : Bytes} (h : Whole w) : Inner w := fun s rest hesc hdepth => h s rest hesc hdepth.le

theorem Whole.append {a b : Bytes} (ha : Whole a) (hb : Whole b) : Whole (a ++ b) := by
  intro s rest hesc hdepth
  rw [List.append_assoc, ha s _ hesc hdepth, hb (s.write a) _ hesc hdepth, write_write]

theorem Inner.append {a b : Bytes} (ha : Inner a) (hb : Inner b) : Inner (a ++ b) := by
  intro s rest hesc hdepth
  rw [List.append_assoc, ha s _ hesc hdepth, hb (s.write a) _ hesc hdepth, write_write]

theorem whole_string {w : Bytes} (hw : ¬ escapeTag <:+: w) : Whole (escapeTag ++ (w ++ escapeTag)) := by
  intro s rest hesc _
  have hinside : ∀ (w : Bytes) (s : Splitter), s.inEscape = true → ¬ escapeTag <:+: w →
      splitLoop s (w ++ (escapeTag ++ rest)) = splitLoop (s.write w) (escapeTag ++ rest) := by
    intro w
    induction w with
    | nil =>
      intro s _ _
      rw [Splitter.write, List.append_nil]
      rfl
    | cons ch w ih =>
      intro s hesc hw
      rw [List.cons_append, splitLoop_byte s (not_tag_of_string hw rest), if_pos hesc,
        ih (s.write [ch]) hesc fun hin => hw (hin.trans (List.suffix_cons _ _).isInfix), write_write]
      rfl
  rw [List.append_assoc, List.append_assoc, splitLoop_tag, hinside w _ (by rw [hesc]; rfl) hw, splitLoop_tag]
  simp only [Splitter.write, hesc, Bool.not_false, Bool.not_true, List.append_assoc]

/-- A text without separators, where no tag starts. -/
theorem whole_plain {w : Bytes} (hbytes : ∀ b ∈ w, b ∉ [comma, openBrace, closeBrace, openBracket, closeBracket])
    (htag : ∀ v rest, v <:+ w → v ≠ [] → ¬ escapeTag <+: v ++ rest) : Whole w := by
  induction w with
  | nil =>
    intro s rest _ _
    rw [Splitter.write, List.append_nil]
    rfl
  | cons ch w ih =>
    intro s rest hesc hdepth
    have hout : s.outside ch = s.write [ch] := by
      have hch := hbytes ch (List.mem_cons_self ..)
      simp only [List.mem_cons, List.not_mem_nil, or_false, not_or] at hch
      rw [Splitter.outside, if_neg (by tauto), if_neg (by tauto), if_neg (by tauto)]
    have hrest := ih (fun b hb => hbytes b (List.mem_cons_of_mem _ hb)) fun v rest hv =>
      htag v rest (hv.trans (List.suffix_cons _ _))
    rw [List.cons_append, splitLoop_byte s (show ¬ escapeTag <+: ch :: (w ++ rest) from htag _ rest List.suffix_rfl (List.cons_ne_nil _ _)), hesc,
      if_neg Bool.false_ne_true, hout, hrest (s.write [ch]) rest hesc hdepth, write_write]
    rfl

theorem not_tag_of_head {ch : UInt8} (h : ch ≠ 0x3c) (rest : Bytes) : ¬ escapeTag <+: ch :: rest := fun hpre =>
  h (List.cons_prefix_cons.mp hpre).1.symm

theorem splitLoop_outside {s : Splitter} (hesc : s.inEscape = false) {ch : UInt8} (h : ch ≠ 0x3c) (rest : Bytes) :
    splitLoop s (ch :: rest) = splitLoop (s.outside ch) rest := by
  rw [splitLoop_byte s (not_tag_of_head h rest), hesc, if_neg Bool.false_ne_true]

theorem inner_comma : Inner [comma] := by
  intro s rest hesc hdepth
  rw [List.singleton_append, splitLoop_outside hesc (by decide), Splitter.outside, if_neg (by decide), if_neg (by decide),
    if_neg (by omega)]

theorem inner_join {items : List Bytes} (h : ∀ w ∈ items, Inner w) : Inner (join items [comma]) := by
  induction items with
  | nil =>
    intro s rest _ _
    rw [join, List.intercalate_nil, Splitter.write, List.append_nil]
    rfl
  | cons w items ih =>
    have hw := h w (List.mem_cons_self ..)
    cases items with
    | nil => rwa [join, List.intercalate_singleton]
    | cons w' items =>
      have hrest := ih fun v hv => h v (List.mem_cons_of_mem _ hv)
      rw [join, List.intercalate_cons_cons]
      exact (hw.append inner_comma).append hrest

/-- What stands in brackets or braces, whose depth is more than zero. -/
theorem whole_bracketed {o c : UInt8} (ho : o = openBrace ∨ o = openBracket) (hc : c = closeBrace ∨ c = closeBracket)
    {content : Bytes} (h : Inner content) : Whole ([o] ++ (content ++ [c])) := by
  intro s rest hesc hdepth
  have hopen : s.outside o = { s with depth := s.depth + 1 }.write [o] := if_pos ho
  have hclose : ∀ t : Splitter, t.outside c = { t with depth := t.depth - 1 }.write [c] := fun t => by
    rw [Splitter.outside, if_neg (by rcases hc with rfl | rfl <;> decide), if_pos hc]
  have ho' : o ≠ 0x3c := by rcases ho with rfl | rfl <;> decide
  have hc' : c ≠ 0x3c := by rcases hc with rfl | rfl <;> decide
  have hesc' : (({ s with depth := s.depth + 1 }.write [o]).write content).inEscape = false := hesc
  have hinner := h ({ s with depth := s.depth + 1 }.write [o]) ([c] ++ rest) hesc (Int.lt_add_one_of_le hdepth)
  rw [List.append_assoc, List.append_assoc, List.singleton_append, splitLoop_outside hesc ho', hopen, hinner,
    List.singleton_append, splitLoop_outside hesc' hc', hclose]
  simp only [Splitter.write, Int.add_sub_cancel, List.append_assoc]

/-- The splitter finds the parts that were joined. -/
theorem splitArguments_join {items : List Bytes} (h : ∀ w ∈ items, Whole w ∧ w ≠ []) :
    splitArguments (join items [comma]) = items := by
  have hloop : ∀ parts, splitLoop { parts } (join items [comma]) = parts ++ items := by
    induction items with
    | nil =>
      intro parts
      rw [join, List.intercalate_nil, splitLoop, List.append_nil]
      rfl
    | cons w items ih =>
      intro parts
      obtain ⟨hw, hne⟩ := h w (List.mem_cons_self ..)
      have hflush : ({ parts, current := w : Splitter }).flush = parts ++ [w] :=
        if_pos (List.length_pos_iff.mpr hne)
      have hwrite : ({ parts } : Splitter).write w = { parts, current := w } := by
        simp only [Splitter.write, List.nil_append]
      cases items with
      | nil =>
        rw [join, List.intercalate_singleton]
        have hpass := hw { parts } [] rfl le_rfl
        rw [List.append_nil] at hpass
        rw [hpass, hwrite, splitLoop, hflush]
      | cons w' items =>
        have hrest := ih fun v hv => h v (List.mem_cons_of_mem _ hv)
        rw [join, List.intercalate_cons_cons, List.append_assoc, hw _ _ rfl le_rfl, hwrite, List.singleton_append,
          splitLoop_outside rfl (by decide), Splitter.outside, if_neg (by decide), if_neg (by decide), if_pos ⟨rfl, rfl⟩,
          hflush]
        rw [join] at hrest
        rw [hrest, List.append_assoc, List.singleton_append]
  exact hloop []

/-! ## The texts of trees -/

/-- A text without separators and angle brackets. -/
theorem whole_of_bytes {w : Bytes}
    (h : ∀ b ∈ w, b ∉ [0x3c, comma, openBrace, closeBrace, openBracket, closeBracket]) : Whole w := by
  refine whole_plain (fun b hb hmem => h b hb (List.mem_cons_of_mem _ hmem)) fun v rest hv hne => ?_
  obtain ⟨b, v, rfl⟩ := List.exists_cons_of_ne_nil hne
  refine not_tag_of_head ?_ (v ++ rest)
  rintro rfl
  exact h _ (hv.subset (List.mem_cons_self ..)) (List.mem_cons_self ..)

theorem whole_number (i : Int) : Whole (decimal i) := by
  refine whole_of_bytes fun b hb hmem => ?_
  have hnone : ∀ b ∈ [0x3c, comma, openBrace, closeBrace, openBracket, closeBracket], isDigit b = false ∧ b ≠ minus := by
    decide
  obtain ⟨hdigit, hminus⟩ := hnone b hmem
  obtain h | h := mem_decimal hb
  · exact Bool.false_ne_true (hdigit.symm.trans h)
  · exact hminus h

theorem whole_key {key : Bytes} (h : IsKey key) : Whole (key ++ [colon]) := by
  refine whole_plain (fun b hb => ?_) fun v rest hv hne hpre => ?_
  · obtain hb | hb := List.mem_append.mp hb
    · exact fun hmem => h.1 b hb (List.mem_cons_of_mem _ hmem)
    · obtain rfl := List.mem_singleton.mp hb
      decide
  · -- the tag has no colon, so it would be in the key
    obtain ⟨u, hu⟩ := hv
    obtain rfl | ⟨w, x, rfl⟩ := List.eq_nil_or_concat v
    · exact hne rfl
    rw [List.concat_eq_append, ← List.append_assoc] at hu
    obtain ⟨hkey, hx⟩ := List.append_inj' hu rfl
    obtain rfl := (List.cons.inj hx).1
    rw [List.concat_eq_append, List.append_assoc, List.singleton_append] at hpre
    exact h.2 ((prefix_of_stop (by decide) hpre).isInfix.trans (hkey ▸ (List.suffix_append u w).isInfix))

theorem renderEntry_eq (e : Bytes × Value F) : renderEntry e = (e.1 ++ [colon]) ++ render e.2 := by
  rw [renderEntry, List.append_assoc]

theorem whole_render {v : Value F} (h : Renderable v) : Whole (render v) ∧ render v ≠ [] := by
  induction h with
  | bool b =>
    cases b
    · rw [render]
      exact ⟨whole_of_bytes (by decide), by decide⟩
    · rw [render]
      exact ⟨whole_of_bytes (by decide), by decide⟩
  | int i =>
    rw [render]
    exact ⟨whole_number i, decimal_ne_nil i⟩
  | string hs =>
    rw [render]
    exact ⟨whole_string hs, by simp [escapeTag, ascii]⟩
  | array _ _ ih =>
    rw [render]
    refine ⟨whole_bracketed (.inr rfl) (.inr rfl) (inner_join ?_), List.cons_ne_nil _ _⟩
    simp only [List.mem_map]
    rintro w ⟨v, hv, rfl⟩
    exact (ih v hv).1.inner
  | object _ hkeys _ ih =>
    rw [render_object]
    refine ⟨whole_bracketed (.inl rfl) (.inl rfl) (inner_join ?_), List.cons_ne_nil _ _⟩
    simp only [List.mem_map]
    rintro w ⟨e, he, rfl⟩
    rw [renderEntry_eq]
    exact ((whole_key (hkeys e he)).append (ih e he).1).inner

theorem parts_entries {entries : Entries F} (hkeys : ∀ e ∈ entries, IsKey e.1) (hvals : ∀ e ∈ entries, Renderable e.2) :
    splitArguments (renderArguments entries) = entries.map renderEntry := by
  refine splitArguments_join ?_
  simp only [List.mem_map]
  rintro w ⟨e, he, rfl⟩
  rw [renderEntry_eq]
  exact ⟨(whole_key (hkeys e he)).append (whole_render (hvals e he)).1, by simp⟩

theorem cut_entry {e : Bytes × Value F} (h : IsKey e.1) : cut [colon] (renderEntry e) = some (e.1, render e.2) := by
  refine cut_of_eq fun i hi hpre => ?_
  rw [List.drop_append_of_le_length (by omega), List.drop_eq_getElem_cons hi] at hpre
  have hcolon : colon = e.1[i] := (List.cons_prefix_cons.mp hpre).1
  refine h.1 e.1[i] (List.getElem_mem hi) ?_
  rw [← hcolon]
  exact List.mem_cons_self ..

/-! ## Parsing what was rendered -/

variable {scanFloat : Bytes → Option F}

/-- Entries whose values are parsed come back in their order. -/
theorem parseEntries_render {entries : Entries F} (result : Entries F)
    (hnodup : ((result ++ entries).map Prod.fst).Nodup) (hkeys : ∀ e ∈ entries, IsKey e.1)
    (hvals : ∀ e ∈ entries, parseValue scanFloat (render e.2) = some e.2) :
    parseEntries (parseValue scanFloat) (entries.map renderEntry) result = some (result ++ entries) := by
  induction entries generalizing result with
  | nil => rw [List.append_nil]; rfl
  | cons e entries ih =>
    have hnew : e.1 ∉ result.map Prod.fst := by
      rw [List.map_append, List.map_cons] at hnodup
      intro hmem
      exact (List.nodup_append.mp hnodup).2.2 _ hmem _ (List.mem_cons_self ..) rfl
    have hsnoc : result ++ [e] ++ entries = result ++ e :: entries := by simp
    rw [List.map_cons, parseEntries_entry _ _ (cut_entry (hkeys e (List.mem_cons_self ..))),
      hvals e (List.mem_cons_self ..), Option.bind_some, setEntry_new hnew,
      ih (result ++ [e]) (by rwa [hsnoc]) (fun e' h => hkeys e' (List.mem_cons_of_mem _ h))
        fun e' h => hvals e' (List.mem_cons_of_mem _ h), hsnoc]

theorem parseValue_number {i : Int} (h : InInt64 i) : parseValue scanFloat (decimal i) = some (.int i) := by
  have hno : ∀ b ∈ decimal i, b ≠ 0x3c ∧ b ≠ 0x74 ∧ b ≠ 0x66 := by
    intro b hb
    obtain hdigit | rfl := mem_decimal hb
    · refine ⟨?_, ?_, ?_⟩ <;>
      · rintro rfl
        exact absurd hdigit (by decide)
    · decide
  have hescape : ¬ wrapped escapeTag escapeTag (decimal i) := fun hw =>
    (hno 0x3c (hw.1.subset (by decide))).1 rfl
  have htrue : decimal i ≠ ascii "true" := fun heq => (hno 0x74 (heq ▸ by decide)).2.1 rfl
  have hfalse : decimal i ≠ ascii "false" := fun heq => (hno 0x66 (heq ▸ by decide)).2.2 rfl
  have hnum : parseNumber scanFloat (decimal i) = some (.int i) := by
    rw [parseNumber, scanInt_decimal, if_pos h, Option.filter_some, if_pos (decide_eq_true rfl)]
  rw [parseValue_eq, valueOf, if_neg hescape, if_neg htrue, if_neg hfalse, hnum]

theorem parseValue_render (hscan : LawfulScan scanFloat) {v : Value F} (h : Renderable v) (hkept : Kept v) :
    parseValue scanFloat (render v) = some v := by
  induction h with
  | bool b =>
    cases b
    · rw [render, parseValue_eq]
      rfl
    · rw [render, parseValue_eq]
      rfl
  | int i =>
    cases hkept with
    | int hin => rw [render, parseValue_number hin]
  | string => rw [render, parseValue_escaped]
  | array _ hitems ih =>
    cases hkept with
    | array hkept =>
      rw [render, parseValue_array hscan, parseArray, splitArguments_join, mapM_map fun v hv => ih v hv (hkept v hv)]
      · rfl
      · simp only [List.mem_map]
        rintro w ⟨v, hv, rfl⟩
        exact whole_render (hitems v hv)
  | object hnodup hkeys hvals ih =>
    cases hkept with
    | object _ hkept =>
      rw [render_object, parseValue_object hscan, parseObject, parts_entries hkeys hvals,
        parseEntries_render [] hnodup hkeys fun e he => ih e he (hkept e he)]
      rfl

/-! ## Values of texts without newlines -/

theorem mem_parseEntries {parse : Bytes → Option (Value F)} {parts : List Bytes} {result es : Entries F}
    (h : parseEntries parse parts result = some es) {e : Bytes × Value F} (he : e ∈ es) :
    e ∈ result ∨ ∃ part ∈ parts, ∃ value, cut [colon] part = some (e.1, value) ∧ parse value = some e.2 := by
  induction parts generalizing result with
  | nil =>
    cases h
    exact .inl he
  | cons part parts ih =>
    cases hcut : cut [colon] part with
    | none =>
      rw [parseEntries_skip _ _ hcut] at h
      exact (ih h).imp_right fun ⟨p, hp, hrest⟩ => ⟨p, List.mem_cons_of_mem _ hp, hrest⟩
    | some q =>
      obtain ⟨key, value⟩ := q
      rw [parseEntries_entry _ _ hcut] at h
      obtain ⟨v, hv, h⟩ := Option.bind_eq_some_iff.mp h
      obtain hmem | ⟨p, hp, hrest⟩ := ih h
      · obtain rfl | hmem := mem_setEntry hmem
        · exact .inr ⟨part, List.mem_cons_self .., value, hcut, hv⟩
        · exact .inl hmem
      · exact .inr ⟨p, List.mem_cons_of_mem _ hp, hrest⟩

theorem kept_entries {content : Bytes} (hline : newline ∉ content) {entries : Entries F}
    (h : parseEntries (parseValue scanFloat) (splitArguments content) [] = some entries)
    (hvals : ∀ value : Bytes, value.length < content.length → newline ∉ value → ∀ w, parseValue scanFloat value = some w → Kept w) :
    Kept (.object entries) := by
  have hentry : ∀ e ∈ entries, newline ∉ e.1 ∧ Kept e.2 := by
    intro e he
    obtain hnil | ⟨part, hpart, value, hcut, hvalue⟩ := mem_parseEntries h he
    · cases hnil
    have hin := splitArguments_part hpart
    have hlen := hin.length_le
    have hcutlen := length_of_cut hcut
    obtain ⟨hsplit, -⟩ := cut_eq_some hcut
    rw [List.length_singleton] at hcutlen
    have hpartline : newline ∉ part := fun hmem => hline (hin.subset hmem)
    rw [hsplit, List.mem_append, List.mem_append, not_or, not_or] at hpartline
    exact ⟨hpartline.1, hvals value (by omega) hpartline.2.2 _ hvalue⟩
  exact .object (fun e he => (hentry e he).1) fun e he => (hentry e he).2

theorem kept_parseValue {value : Bytes} (hline : newline ∉ value) {w : Value F} (h : parseValue scanFloat value = some w) :
    Kept w := by
  induction hn : value.length using Nat.strongRecOn generalizing value w with
  | _ n ih =>
    have hshape := parseValue_shape scanFloat value
    generalize hr : parseValue scanFloat value = r at h hshape
    cases hshape with
    | tag => cases h
    | escaped s =>
      obtain rfl := Option.some.inj h
      exact .string fun hmem => hline (by simp [hmem])
    | atom hatom =>
      obtain rfl := Option.some.inj h
      cases hatom with
      | bool b => exact .bool b
      | int hin => exact .int hin
      | float f => exact .float f
      | string => exact .string hline
    | array content =>
      obtain ⟨items, hitems, rfl⟩ := Option.map_eq_some_iff.mp h
      refine .array fun v hv => ?_
      obtain ⟨part, hpart, hvalue⟩ := mem_of_mapM hitems hv
      have hin := splitArguments_part hpart
      have hlen := hin.length_le
      simp only [List.length_append, List.length_singleton] at hn
      exact ih part.length (by omega) (fun hmem => hline (by simp [hin.subset hmem])) hvalue rfl
    | object content =>
      obtain ⟨entries, hentries, rfl⟩ := Option.map_eq_some_iff.mp h
      simp only [List.length_append, List.length_singleton] at hn
      exact kept_entries (fun hmem => hline (by simp [hmem])) hentries fun value hlen hline w hw =>
        ih value.length (by omega) hline hw rfl

/-! ## The pattern of a call -/

theorem findCall_some {s name args : Bytes} (h : findCall s = some (name, args)) : name ≠ [] ∧ newline ∉ args := by
  induction s with
  | nil => cases h
  | cons b s ih =>
    rw [findCall, Option.or_eq_some_iff] at h
    obtain h | ⟨-, h⟩ := h
    · unfold matchCall at h
      split_ifs at h
      dsimp only at h
      split at h
      · cases h
      · rename_i c args' _
        split_ifs at h with hname
        obtain ⟨q, hq, heq⟩ := Option.map_eq_some_iff.mp h
        obtain ⟨rfl, rfl⟩ := Prod.mk.inj heq
        -- the arguments are from the text in front of the first newline
        have hin : q.1 <+: args'.takeWhile (· ≠ newline) := ⟨_, (cutLast_eq_some hq).symm⟩
        refine ⟨hname, fun hmem => ?_⟩
        have := List.mem_takeWhile_imp (hin.subset hmem)
        simp at this
    · exact ih h

theorem renderArguments_eq_nil {args : Entries F} : renderArguments args = [] ↔ args = [] := by
  constructor
  · intro h
    cases args with
    | nil => rfl
    | cons e args =>
      cases args <;> simp [renderArguments, renderEntry, join] at h
  · rintro rfl
    rfl

/-- Without a newline the pattern finds the name and all of the arguments. -/
theorem findCall_renderCall {name : Bytes} (hname : openBrace ∉ name) (hne : name ≠ []) {args : Entries F}
    (hline : newline ∉ renderArguments args) : findCall (renderCall name args) = some (name, renderArguments args) := by
  have hbrace : ∀ b ∈ name, (decide (b ≠ openBrace)) = true := fun b hb => by
    rw [decide_eq_true_eq]
    rintro rfl
    exact hname hb
  have hclose : ∀ b ∈ renderArguments args ++ [closeBrace], (decide (b ≠ newline)) = true := fun b hb => by
    rw [decide_eq_true_eq]
    rintro rfl
    obtain hb | hb := List.mem_append.mp hb
    · exact hline hb
    · exact absurd (List.mem_singleton.mp hb) (by decide)
  have hmatch : matchCall (renderCall name args) = some (name, renderArguments args) := by
    have htake : (name ++ ([openBrace] ++ (renderArguments args ++ [closeBrace]))).takeWhile (· ≠ openBrace) = name := by
      rw [List.takeWhile_append_of_pos hbrace, List.singleton_append, List.takeWhile_cons_of_neg (by simp), List.append_nil]
    have hdrop : (name ++ ([openBrace] ++ (renderArguments args ++ [closeBrace]))).dropWhile (· ≠ openBrace) =
        openBrace :: (renderArguments args ++ [closeBrace]) := by
      rw [List.dropWhile_append_of_pos hbrace, List.singleton_append, List.dropWhile_cons_of_neg (by simp)]
    have hall : (renderArguments args ++ [closeBrace]).takeWhile (· ≠ newline) = renderArguments args ++ [closeBrace] :=
      List.takeWhile_eq_self_iff.mpr hclose
    rw [matchCall, renderCall, if_pos (by simp), List.drop_left]
    dsimp only
    rw [htake, hdrop]
    dsimp only
    rw [if_neg hne, hall, cutLast_singleton _ (by simp)]
    rfl
  obtain ⟨b, s, hs⟩ := List.exists_cons_of_ne_nil (show renderCall name args ≠ [] by simp [renderCall, ascii])
  rw [hs] at hmatch ⊢
  rw [findCall, hmatch, Option.some_or]

theorem newline_join {items : List Bytes} (h : ∀ w ∈ items, newline ∉ w) : newline ∉ join items [comma] := by
  induction items with
  | nil => exact List.not_mem_nil
  | cons w items ih =>
    cases items with
    | nil => rw [join, List.intercalate_singleton]; exact h w (List.mem_cons_self ..)
    | cons w' items =>
      have hrest := ih fun v hv => h v (List.mem_cons_of_mem _ hv)
      rw [join, List.intercalate_cons_cons, List.mem_append, List.mem_append, not_or, not_or]
      exact ⟨⟨h w (List.mem_cons_self ..), by decide⟩, hrest⟩

theorem newline_entries {entries : Entries F} (hkeys : ∀ e ∈ entries, newline ∉ e.1)
    (hvals : ∀ e ∈ entries, newline ∉ render e.2) : newline ∉ renderArguments entries := by
  refine newline_join ?_
  simp only [List.mem_map]
  rintro w ⟨e, he, rfl⟩
  rw [renderEntry, List.mem_append, List.mem_append, not_or, not_or]
  exact ⟨hkeys e he, by decide, hvals e he⟩

theorem newline_render {v : Value F} (h : Kept v) : newline ∉ render v := by
  induction h with
  | null => rw [render]; exact List.not_mem_nil
  | float => rw [render]; exact List.not_mem_nil
  | bool b => cases b <;> rw [render] <;> decide
  | int =>
    rw [render]
    intro hmem
    obtain h | h := mem_decimal hmem
    · exact absurd h (by decide)
    · exact absurd h (by decide)
  | string hs =>
    rw [render, List.mem_append, List.mem_append, not_or, not_or]
    exact ⟨by decide, hs, by decide⟩
  | array _ ih =>
    rw [render, List.mem_append, List.mem_append, not_or, not_or]
    refine ⟨by decide, newline_join ?_, by decide⟩
    simp only [List.mem_map]
    rintro w ⟨v, hv, rfl⟩
    exact ih v hv
  | object hkeys _ ih =>
    rw [render_object, List.mem_append, List.mem_append, not_or, not_or]
    exact ⟨by decide, newline_entries hkeys ih, by decide⟩

/-! ## The round trip -/

/-- The call has the name and the arguments. An empty call has none. -/
def Recovers (call : ToolCall (Option (Entries F))) (name : Bytes) (args : Entries F) : Prop :=
  call.name = name ∧ call.arguments.getD (some []) = some args

theorem parseArguments_render (hscan : LawfulScan scanFloat) {args : Entries F} (h : Renderable (.object args))
    (hkept : Kept (.object args)) : parseArguments scanFloat (renderArguments args) = some args := by
  unfold parseArguments
  split_ifs with hnil
  · rw [renderArguments_eq_nil.mp hnil]
  · cases h with
    | object hnodup hkeys hvals =>
      cases hkept with
      | object _ hkept =>
        rw [parts_entries hkeys hvals]
        exact parseEntries_render [] hnodup hkeys fun e he => parseValue_render hscan (hvals e he) (hkept e he)

theorem kept_parseArguments {argsStr : Bytes} (hline : newline ∉ argsStr) {args : Entries F}
    (h : parseArguments scanFloat argsStr = some args) : Kept (.object args) := by
  unfold parseArguments at h
  split_ifs at h
  · obtain rfl := Option.some.inj h
    exact .object (fun e he => (nomatch he)) (fun e he => (nomatch he))
  · exact kept_entries hline h fun value _ hline w hw => kept_parseValue hline hw

/-- A rendered call comes back if nothing in it has a newline, its integers have 64 bits and it has a name. -/
theorem parseToolCall_renderCall_iff (hscan : LawfulScan scanFloat) {name : Bytes} (hname : openBrace ∉ name)
    {args : Entries F} (h : Renderable (.object args)) :
    Recovers (parseToolCall (parseArguments scanFloat) (renderCall name args)) name args ↔
      Kept (.object args) ∧ (name ≠ [] ∨ args = []) := by
  constructor
  · rintro ⟨hcall, hargs⟩
    unfold parseToolCall at hcall hargs
    split at hcall
    · rename_i hnone
      rw [hnone] at hargs
      obtain rfl : [] = args := Option.some.inj hargs
      exact ⟨.object (fun e he => (nomatch he)) (fun e he => (nomatch he)), .inr rfl⟩
    · rename_i n a hfind
      rw [hfind] at hargs
      obtain rfl : n = name := hcall
      obtain ⟨hne, hline⟩ := findCall_some hfind
      exact ⟨kept_parseArguments hline hargs, .inl hne⟩
  · rintro ⟨hkept, hne⟩
    by_cases hnil : name = []
    · obtain rfl := hne.resolve_left (not_not.mpr hnil)
      obtain rfl := hnil
      exact ⟨rfl, rfl⟩
    · have hline : newline ∉ renderArguments args := by
        cases hkept with
        | object hkeys hvals => exact newline_entries hkeys fun e he => newline_render (hvals e he)
      rw [parseToolCall, findCall_renderCall hname hnil hline]
      exact ⟨rfl, parseArguments_render hscan h hkept⟩

/-- Arguments that are one string. -/
def oneString (s : String) : Entries Unit := [(ascii "a", .string (ascii s))]

theorem renderable_oneString (s : String) (h : ¬ escapeTag <:+: ascii s) : Renderable (.object (oneString s)) := by
  have hkey : IsKey (ascii "a") := ⟨by decide, by decide⟩
  refine .object (List.nodup_singleton _) ?_ ?_
  · intro e he
    obtain rfl := List.mem_singleton.mp he
    exact hkey
  · intro e he
    obtain rfl := List.mem_singleton.mp he
    exact .string h

theorem parseToolCall_renderCall_word :
    Recovers (parseToolCall (parseArguments fun _ => none) (renderCall (ascii "f") (oneString "x"))) (ascii "f")
      (oneString "x") := by
  have hkept : Kept (.object (oneString "x")) := by
    refine .object ?_ ?_
    · decide
    · intro e he
      obtain rfl := List.mem_singleton.mp he
      exact .string (by decide)
  exact (parseToolCall_renderCall_iff (fun _ _ _ => rfl) (by decide) (renderable_oneString "x" (by decide))).mpr
    ⟨hkept, .inl (by decide)⟩

/-- A call with a string of two lines is lost, and its name with it. -/
theorem twoLines_lost : openBrace ∉ ascii "f" ∧ Renderable (.object (oneString "x\ny")) ∧
    ¬ Recovers (parseToolCall (parseArguments fun _ => none) (renderCall (ascii "f") (oneString "x\ny"))) (ascii "f")
      (oneString "x\ny") := by
  have hnone : findCall (renderCall (ascii "f") (oneString "x\ny")) = none := by decide +kernel
  refine ⟨by decide, renderable_oneString "x\ny" (by decide), fun h => ?_⟩
  have hname := h.1
  rw [parseToolCall, hnone] at hname
  exact absurd hname (by decide)

end Xdragon.Parsers.FunctionGemma
