import Mathlib.Data.List.AList

/-!
# Association lists

What a loop over the entries of one association list writes into another, and maps that keep the order of their keys.
-/

namespace Xdragon.Lib

variable {κ V : Type*} [DecidableEq κ]

/-- Every key of the entries is overwritten, the others stay. -/
theorem lookup_foldl_insert (f : κ → V → V) {es : List ((_ : κ) × V)} (hnd : es.NodupKeys)
    (m : AList fun _ : κ => V) (a : κ) :
    (es.foldl (fun m e => m.insert e.1 (f e.1 e.2)) m).lookup a = ((es.dlookup a).map (f a)).or (m.lookup a) := by
  induction es generalizing m with
  | nil => simp
  | cons e es ih =>
    obtain ⟨hnot, hnd⟩ := List.nodupKeys_cons.mp hnd
    rw [List.foldl_cons, ih hnd]
    by_cases he : a = e.1
    · subst he
      rw [AList.lookup_insert, List.dlookup_eq_none.mpr hnot, List.dlookup_cons_eq]
      rfl
    · rw [AList.lookup_insert_ne he, List.dlookup_cons_ne _ _ he]

/-! ## Maps in the order of their keys -/

/-- A new key comes last, and a known one keeps its place. -/
@[grind =]
def setEntry (k : κ) (v : V) : List (κ × V) → List (κ × V)
  | [] => [(k, v)]
  | e :: es => if e.1 = k then (k, v) :: es else e :: setEntry k v es

variable {k : κ} {v : V} {es : List (κ × V)}

theorem setEntry_new (h : k ∉ es.map Prod.fst) : setEntry k v es = es ++ [(k, v)] := by
  induction es with
  | nil => rfl
  | cons e es ih =>
    rw [List.map_cons, List.mem_cons, not_or] at h
    rw [setEntry, if_neg (Ne.symm h.1), ih h.2, List.cons_append]

theorem mem_setEntry {e : κ × V} (h : e ∈ setEntry k v es) : e = (k, v) ∨ e ∈ es := by
  induction es with
  | nil => exact .inl (List.mem_singleton.mp h)
  | cons e' es ih =>
    rw [setEntry] at h
    split_ifs at h
    · exact (List.mem_cons.mp h).imp_right (List.mem_cons_of_mem _)
    · obtain rfl | h := List.mem_cons.mp h
      · exact .inr (List.mem_cons_self ..)
      · exact (ih h).imp_right (List.mem_cons_of_mem _)

end Xdragon.Lib
