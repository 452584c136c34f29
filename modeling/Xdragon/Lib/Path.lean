import Mathlib.Data.List.DropRight
import Xdragon.Lib.Wire

/-!
# Paths

Paths with slashes, cleaned by their text alone.
-/

namespace Xdragon.Lib

def slash : UInt8 := 0x2f

/-- What a part of a path does to the parts before it: nothing, up, or down. -/
def cleanStep (rooted : Bool) (parts : List Bytes) (part : Bytes) : List Bytes :=
  if part = [] ∨ part = ascii "." then parts
  else if part = ascii ".." then
    match parts.getLast? with
    | some last => if last = ascii ".." then parts ++ [part] else parts.dropLast
    | none => if rooted then [] else [part]
  else parts ++ [part]

def rooted (path : Bytes) : Bool := path.head? = some slash

/-- The parts that are left of a path. -/
def cleanParts (path : Bytes) : List Bytes := (path.splitOn slash).foldl (cleanStep (rooted path)) []

/-- `filepath.Clean`. -/
def clean (path : Bytes) : Bytes :=
  let body := [slash].intercalate (cleanParts path)
  if rooted path then slash :: body else if body = [] then ascii "." else body

/-- `filepath.Join`. -/
def joinPath (elems : List Bytes) : Bytes :=
  match elems.dropWhile (· = []) with
  | [] => []
  | elems => clean ([slash].intercalate elems)

/-- A part that is a name of its own: it has no slash and goes down. -/
structure PlainPart (part : Bytes) : Prop where
  ne_nil : part ≠ []
  ne_dot : part ≠ ascii "."
  ne_dots : part ≠ ascii ".."
  not_mem : slash ∉ part

theorem cleanStep_plain {part : Bytes} (h : PlainPart part) (rooted : Bool) (parts : List Bytes) :
    cleanStep rooted parts part = parts ++ [part] := by
  rw [cleanStep, if_neg (not_or.mpr ⟨h.ne_nil, h.ne_dot⟩), if_neg h.ne_dots]

theorem foldl_cleanStep {ps : List Bytes} (h : ∀ p ∈ ps, PlainPart p) (rooted : Bool) (parts : List Bytes) :
    ps.foldl (cleanStep rooted) parts = parts ++ ps := by
  induction ps generalizing parts with
  | nil => simp
  | cons p ps ih =>
    rw [List.foldl_cons, cleanStep_plain (h p (List.mem_cons_self ..)), ih fun q hq => h q (List.mem_cons_of_mem _ hq),
      List.append_assoc, List.singleton_append]

theorem splitOn_plain {ps : List Bytes} (h : ∀ p ∈ ps, PlainPart p) (hne : ps ≠ []) :
    ([slash].intercalate ps).splitOn slash = ps := List.splitOn_intercalate slash (fun p hp => (h p hp).not_mem) hne

theorem head_intercalate {ps : List Bytes} (h : ∀ p ∈ ps, PlainPart p) (hne : ps ≠ []) :
    ∃ x rest, [slash].intercalate ps = x :: rest ∧ x ≠ slash := by
  obtain ⟨p, ps, rfl⟩ := List.exists_cons_of_ne_nil hne
  have hp := h p (List.mem_cons_self ..)
  obtain ⟨x, xs, rfl⟩ := List.exists_cons_of_ne_nil hp.ne_nil
  have hx : x ≠ slash := by
    rintro rfl
    exact hp.not_mem (List.mem_cons_self ..)
  cases ps with
  | nil => exact ⟨x, xs, by simp [List.intercalate], hx⟩
  | cons q qs => exact ⟨x, xs ++ slash :: [slash].intercalate (q :: qs), by simp [List.intercalate], hx⟩

/-- Plain parts are joined as they are. -/
theorem joinPath_plain {ps : List Bytes} (h : ∀ p ∈ ps, PlainPart p) (hne : ps ≠ []) :
    joinPath ps = [slash].intercalate ps := by
  obtain ⟨x, rest, hhead, hx⟩ := head_intercalate h hne
  have hdrop : ps.dropWhile (· = []) = ps := by
    obtain ⟨p, ps, rfl⟩ := List.exists_cons_of_ne_nil hne
    rw [List.dropWhile_cons, if_neg]
    simpa using (h p (List.mem_cons_self ..)).ne_nil
  have hrooted : rooted ([slash].intercalate ps) = false := by simp [rooted, hhead, hx]
  have hparts : cleanParts ([slash].intercalate ps) = ps := by
    rw [cleanParts, splitOn_plain h hne, foldl_cleanStep h, List.nil_append]
  unfold joinPath
  rw [hdrop]
  obtain ⟨p, ps, rfl⟩ := List.exists_cons_of_ne_nil hne
  dsimp only
  unfold clean
  dsimp only
  rw [hrooted, hparts, if_neg (by simp), if_neg (by rw [hhead]; simp)]

/-- Plain parts that are joined to a directory stay in it. -/
theorem joinPath_inside {dir : Bytes} (hdir : dir ≠ []) {ps : List Bytes} (h : ∀ p ∈ ps, PlainPart p) (hne : ps ≠ []) :
    cleanParts (dir ++ slash :: [slash].intercalate ps) = cleanParts dir ++ ps := by
  have hrooted : rooted (dir ++ slash :: [slash].intercalate ps) = rooted dir := by
    obtain ⟨x, xs, rfl⟩ := List.exists_cons_of_ne_nil hdir
    rfl
  rw [cleanParts, hrooted, List.splitOn_append_cons_self, splitOn_plain h hne, List.foldl_append, foldl_cleanStep h]
  rfl

/-! ## Relative paths -/

theorem not_mem_of_mem_splitOn {path part : Bytes} (h : part ∈ path.splitOn slash) : slash ∉ part := by
  induction path generalizing part with
  | nil =>
    rw [List.splitOn_nil, List.mem_singleton] at h
    simp [h]
  | cons x path ih =>
    rw [List.splitOn_cons_eq_if_modifyHead] at h
    split at h
    · rcases List.mem_cons.mp h with rfl | h
      · simp
      · exact ih h
    · rename_i hx
      obtain ⟨first, rest, hsplit⟩ := List.exists_cons_of_ne_nil (List.splitOn_ne_nil slash path)
      rw [hsplit, List.modifyHead_cons] at h
      rw [hsplit] at ih
      rcases List.mem_cons.mp h with rfl | h
      · rw [List.mem_cons, not_or]
        exact ⟨fun heq => hx (by simp [heq]), ih (List.mem_cons_self ..)⟩
      · exact ih (List.mem_cons_of_mem _ h)

/-- A relative path goes up first and down then. -/
def Tidy (parts : List Bytes) : Prop :=
  ∃ ups names, parts = List.replicate ups (ascii "..") ++ names ∧ ∀ name ∈ names, PlainPart name

theorem cleanStep_tidy {parts : List Bytes} (h : Tidy parts) {part : Bytes} (hpart : slash ∉ part) :
    Tidy (cleanStep false parts part) := by
  obtain ⟨ups, names, rfl, hnames⟩ := h
  unfold cleanStep
  split
  · exact ⟨ups, names, rfl, hnames⟩
  rename_i hdot
  rw [not_or] at hdot
  split
  · rename_i hdots
    subst hdots
    rcases List.eq_nil_or_concat names with rfl | ⟨names, name, rfl⟩
    · -- nothing to go up from
      have hup : Tidy (List.replicate (ups + 1) (ascii "..")) := ⟨ups + 1, [], by simp, by simp⟩
      rw [List.replicate_succ'] at hup
      rw [List.append_nil]
      cases ups with
      | zero => exact hup
      | succ ups =>
        rw [List.replicate_succ', List.getLast?_concat]
        dsimp only
        rw [if_pos rfl, ← List.replicate_succ']
        exact hup
    · rw [List.concat_eq_append, ← List.append_assoc, List.getLast?_concat]
      have hname := hnames name (by simp)
      dsimp only
      rw [if_neg hname.ne_dots, List.dropLast_concat]
      exact ⟨ups, names, rfl, fun n hn => hnames n (by simp [hn])⟩
  · rename_i hdots
    refine ⟨ups, names ++ [part], by rw [List.append_assoc], ?_⟩
    intro name hname
    rcases List.mem_append.mp hname with hname | hname
    · exact hnames name hname
    · rw [List.mem_singleton.mp hname]
      exact ⟨hdot.1, hdot.2, hdots, hpart⟩

theorem cleanParts_tidy {path : Bytes} (h : rooted path = false) : Tidy (cleanParts path) := by
  have hfold : ∀ (ps : List Bytes) (parts : List Bytes), (∀ p ∈ ps, slash ∉ p) → Tidy parts →
      Tidy (ps.foldl (cleanStep false) parts) := by
    intro ps
    induction ps with
    | nil => exact fun parts _ ht => ht
    | cons p ps ih =>
      intro parts hps ht
      exact ih _ (fun q hq => hps q (List.mem_cons_of_mem _ hq)) (cleanStep_tidy ht (hps p (List.mem_cons_self ..)))
  rw [cleanParts, h]
  exact hfold _ [] (fun p hp => not_mem_of_mem_splitOn hp) ⟨0, [], rfl, by simp⟩

/-- The path of names that only go down. -/
def joinNames (names : List Bytes) : Bytes := if names = [] then ascii "." else [slash].intercalate names

section
variable {names : List Bytes} (h : ∀ n ∈ names, PlainPart n)
include h

theorem rooted_joinNames : rooted (joinNames names) = false := by
  unfold joinNames
  split
  · rfl
  · rename_i hne
    obtain ⟨x, rest, hhead, hx⟩ := head_intercalate h hne
    simp [rooted, hhead, hx]

theorem cleanParts_joinNames : cleanParts (joinNames names) = names := by
  rw [cleanParts, rooted_joinNames h]
  unfold joinNames
  split
  · rename_i hnil
    subst hnil
    decide
  · rename_i hne
    rw [splitOn_plain h hne, foldl_cleanStep h, List.nil_append]

end

theorem intercalate_concat {names : List Bytes} (hne : names ≠ []) (name : Bytes) :
    [slash].intercalate (names ++ [name]) = [slash].intercalate names ++ slash :: name := by
  induction names with
  | nil => exact absurd rfl hne
  | cons n names ih =>
    cases names with
    | nil => simp [List.intercalate]
    | cons m names =>
      have hcons : ∀ rest : List Bytes, [slash].intercalate (n :: m :: rest) = n ++ slash :: [slash].intercalate (m :: rest) := by
        intro rest
        simp [List.intercalate]
      rw [List.cons_append, List.cons_append, hcons, ← List.cons_append, ih (by simp), hcons]
      simp

/-- A relative path that does not go up is cleaned to its names. -/
theorem clean_relative {path : Bytes} (hrel : rooted path = false) (hup : ¬ ascii ".." <+: clean path) :
    (∀ n ∈ cleanParts path, PlainPart n) ∧ clean path = joinNames (cleanParts path) := by
  obtain ⟨ups, names, heq, hnames⟩ := cleanParts_tidy hrel
  have hclean : clean path = if [slash].intercalate (cleanParts path) = [] then ascii "." else
      [slash].intercalate (cleanParts path) := by
    unfold clean
    dsimp only
    rw [hrel, if_neg Bool.false_ne_true]
  cases ups with
  | zero =>
    rw [List.replicate_zero, List.nil_append] at heq
    rw [heq] at hclean ⊢
    refine ⟨hnames, ?_⟩
    rw [hclean]
    unfold joinNames
    by_cases hne : names = []
    · rw [hne]
      rfl
    · obtain ⟨x, rest, hhead, -⟩ := head_intercalate hnames hne
      rw [if_neg (by rw [hhead]; simp), if_neg hne]
  | succ ups =>
    exfalso
    apply hup
    have hbody : ∃ rest, [slash].intercalate (cleanParts path) = ascii ".." ++ rest := by
      rw [heq, List.replicate_succ, List.cons_append]
      cases List.replicate ups (ascii "..") ++ names with
      | nil => exact ⟨[], by simp [List.intercalate]⟩
      | cons p ps => exact ⟨slash :: [slash].intercalate (p :: ps), by simp [List.intercalate]⟩
    obtain ⟨rest, hrest⟩ := hbody
    rw [hclean, hrest, if_neg (by simp [ascii])]
    exact List.prefix_append _ _

theorem rdropWhile_name (path : Bytes) {name : Bytes} (h : slash ∉ name) :
    (path ++ slash :: name).rdropWhile (· ≠ slash) = path ++ [slash] := by
  induction name using List.reverseRecOn with
  | nil => exact List.rdropWhile_concat_neg _ _ _ (by simp)
  | append_singleton name x ih =>
    rw [List.mem_append, not_or, List.mem_singleton] at h
    have hx : x ≠ slash := fun hx => h.2 hx.symm
    rw [← List.cons_append, ← List.append_assoc, List.rdropWhile_concat_pos _ _ _ (by simpa using hx)]
    exact ih h.1

/-- What is in front of the last slash. -/
theorem clean_parent {names : List Bytes} (h : ∀ n ∈ names, PlainPart n) :
    clean ((joinNames names).rdropWhile (· ≠ slash)) = joinNames names.dropLast := by
  have hflat : ∀ {n : Bytes}, slash ∉ n → n.rdropWhile (fun x => decide (x ≠ slash)) = [] := by
    intro n hn
    rw [List.rdropWhile_eq_nil_iff]
    intro x hx
    simp only [ne_eq, decide_eq_true_eq]
    rintro rfl
    exact hn hx
  rcases List.eq_nil_or_concat names with rfl | ⟨names, name, rfl⟩
  · decide
  rw [List.concat_eq_append, List.dropLast_concat]
  rw [List.concat_eq_append, List.forall_mem_append] at h
  obtain ⟨hnames, hname⟩ := h
  have hname := (hname name (List.mem_singleton_self _)).not_mem
  by_cases hne : names = []
  · subst hne
    have hjoin : joinNames ([] ++ [name]) = name := by simp [joinNames, List.intercalate]
    rw [hjoin, hflat hname]
    rfl
  · have hdrop : (joinNames (names ++ [name])).rdropWhile (· ≠ slash) = [slash].intercalate names ++ [slash] := by
      unfold joinNames
      rw [if_neg (by simp), intercalate_concat hne, rdropWhile_name _ hname]
    have hrooted : rooted ([slash].intercalate names ++ [slash]) = false := by
      obtain ⟨x, rest, hhead, hx⟩ := head_intercalate hnames hne
      simp [rooted, hhead, hx]
    have hparts : cleanParts ([slash].intercalate names ++ [slash]) = names := by
      rw [cleanParts, hrooted, List.splitOn_append_cons_self, splitOn_plain hnames hne, List.foldl_append,
        foldl_cleanStep hnames, List.splitOn_nil]
      simp [cleanStep]
    rw [hdrop]
    unfold clean joinNames
    dsimp only
    rw [hrooted, hparts, if_neg Bool.false_ne_true, if_neg hne]
    obtain ⟨x, rest, hhead, -⟩ := head_intercalate hnames hne
    rw [if_neg (by rw [hhead]; simp)]

/-- A directory that another one starts with has it inside. -/
theorem names_prefix {ns ms : List Bytes} (hns : ∀ n ∈ ns, PlainPart n) (hms : ∀ m ∈ ms, PlainPart m)
    (h : joinNames ns ++ [slash] <+: joinNames ms ++ [slash]) : ns <+: ms := by
  by_cases hne : ns = []
  · rw [hne]
    exact List.nil_prefix
  obtain ⟨rest, hrest⟩ := h
  have hsplit := congrArg (List.splitOn slash) hrest
  have hleft : joinNames ns = [slash].intercalate ns := if_neg hne
  rw [List.append_assoc, List.singleton_append, List.splitOn_append_cons_self, List.splitOn_append_cons_self, hleft,
    splitOn_plain hns hne, List.splitOn_nil] at hsplit
  obtain ⟨rests, r, hr⟩ := (List.eq_nil_or_concat (rest.splitOn slash)).resolve_left (List.splitOn_ne_nil slash rest)
  rw [hr, List.concat_eq_append, ← List.append_assoc] at hsplit
  obtain ⟨hnames, -⟩ := List.append_inj' hsplit rfl
  have hpre : ns <+: (joinNames ms).splitOn slash := ⟨rests, hnames⟩
  by_cases hms' : ms = []
  · -- the only part is the dot, which is no name
    subst hms'
    have hdot : (joinNames []).splitOn slash = [ascii "."] := by decide
    rw [hdot] at hpre
    obtain ⟨n, ns, rfl⟩ := List.exists_cons_of_ne_nil hne
    have hn := hpre.subset (List.mem_cons_self ..)
    exact absurd (List.mem_singleton.mp hn) (hns n (List.mem_cons_self ..)).ne_dot
  · have hright : joinNames ms = [slash].intercalate ms := if_neg hms'
    rw [hright, splitOn_plain hms hms'] at hpre
    exact hpre

end Xdragon.Lib
