import Xdragon.Parser.RoundTrip

/-!
# Values in triple quotes

The value of a command in triple quotes is what stands between them, but without the runes that are not printable.
-/

namespace Xdragon.Parser

open Xdragon.Lib (Bytes)
open Xdragon.Parsers (Str trimLeft trimRight)

variable (u : Unicode)

/-- A Modelfile with `s` for a system prompt, in triple quotes. -/
def quotedFile (s : Str) : Str := "FROM x\nSYSTEM ".toList ++ (quotes ++ s ++ quotes ++ ['\n'])

open Reader

theorem quotedFile_eq (s : Str) : quotedFile s = "FROM ".toList ++ (['x'] ++ '\n' ::
    ("system".toList.map Char.toUpper ++ ' ' :: (quotes ++ s ++ quotes ++ '\n' :: []))) := rfl

theorem bare_x : Bare ['x'] := ⟨List.forall_mem_singleton.mpr (by decide), by decide, by decide⟩

theorem kept_x : ∀ r ∈ ['x'], kept u r = true := by
  have hprint := u.isPrint_ascii 'x' (by decide)
  simp [kept, hprint]

/-- Three quotes at the end of a line would be in the text. -/
theorem valueFrom_triple {s : Str} (h : ¬ quotes <:+: s) (hkept : ∀ r ∈ s, kept u r = true) :
    valueFrom u [] (quotes ++ s ++ quotes ++ '\n' :: []) = some (s, []) := by
  refine valueFrom_quoted u (by decide) (by simp [quotes_eq]) ?_ (unquote_triple s) hkept []
  intro p n r hs _
  refine unquote_triple_none fun hsuf => h ?_
  have hpre : trimRight p <+: s := (List.rdropWhile_prefix _ _).trans ⟨n :: r, hs.symm⟩
  exact hsuf.isInfix.trans hpre.isInfix

theorem run_quotedFile {s : Str} (h : ¬ quotes <:+: s) (hkept : ∀ r ∈ s, kept u r = true) :
    run u {} (quotedFile s) = .ok [⟨"model".toList, ['x']⟩, ⟨"system".toList, s⟩] := by
  rw [quotedFile_eq]
  obtain ⟨l₁, hawaits, hrun₁⟩ := run_from u (l := {}) ⟨rfl, rfl⟩ (['x'] ++ '\n' ::
    ("system".toList.map Char.toUpper ++ ' ' :: (quotes ++ s ++ quotes ++ '\n' :: [])))
  obtain ⟨l₂, hrests, hcommands, hrun₂⟩ := hawaits.run_line u (valueFrom_bare u bare_x (kept_x u)
    ("system".toList.map Char.toUpper ++ ' ' :: (quotes ++ s ++ quotes ++ '\n' :: [])))
  obtain ⟨l₃, hawaits₃, hrun₃⟩ := @run_quoted u _ hrests "system".toList (by decide)
    (quotes ++ s ++ quotes ++ '\n' :: [])
  obtain ⟨l₄, hrests₄, hcommands₄, hrun₄⟩ := hawaits₃.run_line u (valueFrom_triple u h hkept)
  rw [hrun₁, hrun₂, hrun₃, hrun₄]
  have hflush : run u l₄ [] = .ok l₄.commands := by
    change l₄.flush = _
    rw [flush, hrests₄.curr]
  rw [hflush, hcommands₄, hcommands]
  rfl

theorem decode_quotedFile (s : Str) : u.decode ((quotedFile s).flatMap String.utf8EncodeChar) = quotedFile s := by
  refine u.decode_encode _ ?_
  rw [show (quotedFile s).head? = some 'F' from rfl]
  decide

/-- The prompt is read back if and only if all its runes are white space of the parser or printable. -/
theorem parseFile_quoted_iff {s : Str} (h : ¬ quotes <:+: s) :
    (∃ f, parseFile u ((quotedFile s).flatMap String.utf8EncodeChar) = .ok f ∧
      f.commands.filter (·.name = "system".toList) = [⟨"system".toList, s⟩]) ↔ ∀ r ∈ s, kept u r = true := by
  unfold parseFile
  rw [decode_quotedFile]
  constructor
  · rintro ⟨f, hf, hsystem⟩
    cases hrun : run u {} (quotedFile s) with
    | error e =>
      rw [hrun] at hf
      cases hf
    | ok cs =>
      rw [hrun] at hf
      have hif : (if cs.any (·.name = "model".toList) then .ok ⟨cs⟩ else .error .missingFrom : Except ParseError Modelfile) =
        .ok f := hf
      split_ifs at hif
      cases hif
      have hmem : (⟨"system".toList, s⟩ : Command) ∈ cs := by
        have : (⟨"system".toList, s⟩ : Command) ∈ cs.filter (·.name = "system".toList) := by
          rw [hsystem]
          exact List.mem_singleton_self _
        exact (List.mem_filter.mp this).1
      exact ((sound_initial u).run u hrun _ hmem).args
  · intro hkept
    rw [run_quotedFile u h hkept]
    exact ⟨_, rfl, rfl⟩

theorem greeting_read : (∃ f, parseFile asciiOnly ((quotedFile "Hi \"you\"!\n".toList).flatMap String.utf8EncodeChar) = .ok f ∧
    f.commands.filter (·.name = "system".toList) = [⟨"system".toList, "Hi \"you\"!\n".toList⟩]) :=
  (parseFile_quoted_iff asciiOnly (by decide)).mpr (List.all_eq_true.mp (by decide))

/-- A space that does not break is no printable rune. -/
theorem nonBreaking_lost : ¬ ∃ f, parseFile asciiOnly ((quotedFile "5\u00a0km".toList).flatMap String.utf8EncodeChar) = .ok f ∧
    f.commands.filter (·.name = "system".toList) = [⟨"system".toList, "5\u00a0km".toList⟩] := by
  rintro ⟨f, hf, hsystem⟩
  have hread : parseFile asciiOnly ((quotedFile "5\u00a0km".toList).flatMap String.utf8EncodeChar) =
      .ok ⟨[⟨"model".toList, ['x']⟩, ⟨"system".toList, "5km".toList⟩]⟩ := by decide
  rw [hread, Except.ok.injEq] at hf
  subst hf
  revert hsystem
  decide

end Xdragon.Parser
