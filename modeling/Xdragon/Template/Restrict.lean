import Xdragon.Template.Cut

/-!
# What is left of a template

`deleteNode` leaves the part up to the first `.Response`, unless it stumbles over a pipeline, or over an else list behind
the response. A response in a condition or in a call of another template it does not see.
-/

namespace Xdragon.Template

open Xdragon.Lib

/-! ## Nodes -/

mutual

theorem Node.responds_of_seen : ∀ n : Node, n.seen = true → n.responds = true
  | .text _, h => h
  | .action p, h => p.responds_of_seen h
  | .template _ none, h => h
  | .template _ (some _), h => absurd h Bool.false_ne_true
  | .branch _ p list none, h => by
    rw [Node.responds, nodesRespond_of_seen list h, Bool.or_true]
  | .branch _ p list (some elseList), h => by
    rw [Node.seen, Bool.or_eq_true] at h
    rw [Node.responds, Bool.or_assoc, Bool.or_eq_true (nodesRespond list) _ |>.mpr
      (h.imp (nodesRespond_of_seen list) (nodesRespond_of_seen elseList)), Bool.or_true]

theorem nodesRespond_of_seen : ∀ ns : List Node, nodesSeen ns = true → nodesRespond ns = true
  | [], h => h
  | n :: ns, h => by
    rw [nodesSeen, Bool.or_eq_true] at h
    rw [nodesRespond, Bool.or_eq_true]
    exact h.imp n.responds_of_seen (nodesRespond_of_seen ns)

end

mutual

theorem Node.walk_of_not_seen : ∀ n : Node, n.seen = false → n.walk false = some (some n, false)
  | .text _, _ => rfl
  | .action p, h => by rw [Node.walk, if_neg Bool.false_ne_true, p.walk_of_not_seen h]
  | .template _ _, _ => rfl
  | .branch _ p list none, h => by rw [Node.walk, if_neg Bool.false_ne_true, walkNodes_of_not_seen list h]
  | .branch _ p list (some elseList), h => by
    rw [Node.seen, Bool.or_eq_false_iff] at h
    rw [Node.walk, if_neg Bool.false_ne_true, walkNodes_of_not_seen list h.1]
    dsimp only
    rw [if_neg Bool.false_ne_true, walkNodes_of_not_seen elseList h.2]

theorem walkNodes_of_not_seen : ∀ ns : List Node, nodesSeen ns = false → walkNodes false ns = some (ns, false)
  | [], _ => rfl
  | n :: ns, h => by
    rw [nodesSeen, Bool.or_eq_false_iff] at h
    rw [walkNodes, n.walk_of_not_seen h.1]
    dsimp only
    rw [walkNodes_of_not_seen ns h.2]
    rfl

end

theorem Node.walk_true (n : Node) : n.walk true = some (none, true) := by
  cases n with
  | text _ => rfl
  | action _ => rfl
  | template _ _ => rfl
  | branch _ _ _ elseList => cases elseList <;> rfl

theorem walkNodes_true (ns : List Node) : walkNodes true ns = some ([], true) := by
  induction ns with
  | nil => rfl
  | cons n ns ih =>
    rw [walkNodes, n.walk_true]
    dsimp only
    rw [ih]
    rfl

theorem Node.walk_action (p : Pipe) : (Node.action p).walk false = some (p.walk.1.map .action, p.walk.2) := by
  rw [Node.walk, if_neg Bool.false_ne_true]
  split <;> rename_i h <;> rw [h] <;> rfl

theorem Node.walk_branch (kind : BranchKind) (p : Pipe) (list : List Node) : (Node.branch kind p list none).walk false =
    (walkNodes false list).map fun e => (some (.branch kind p e.1 none), e.2) := by
  rw [Node.walk, if_neg Bool.false_ne_true]
  split <;> rename_i h <;> rw [h] <;> rfl

theorem Node.walk_branch_else (kind : BranchKind) (p : Pipe) (list elseList : List Node) :
    (Node.branch kind p list (some elseList)).walk false = (walkNodes false list).bind fun e =>
      if e.2 then none
      else (walkNodes false elseList).map fun e' => (some (.branch kind p e.1 (some e'.1)), e'.2) := by
  rw [Node.walk, if_neg Bool.false_ne_true]
  split
  · rename_i h
    rw [h]
    rfl
  · rename_i h
    rw [h]
    dsimp only [Option.bind_some]
    split
    · rfl
    · split <;> rename_i h' <;> rw [h'] <;> rfl

theorem walkNodes_cons (cut : Bool) (n : Node) (ns : List Node) : walkNodes cut (n :: ns) =
    (n.walk cut).bind fun e => (walkNodes e.2 ns).map fun e' => (e.1.toList ++ e'.1, e'.2) := by
  rw [walkNodes]
  split
  · rename_i h
    rw [h]
    rfl
  · rename_i h
    rw [h]
    dsimp only [Option.bind_some]
    split <;> rename_i h' <;> rw [h'] <;> rfl

mutual

theorem Node.walk_snd : ∀ n : Node, ∀ e ∈ n.walk false, e.2 = n.seen
  | .text _, e, h => by
    cases h
    rfl
  | .action p, e, h => by
    rw [Node.walk_action] at h
    cases h
    exact p.walk_seen
  | .template _ _, e, h => by
    cases h
    rfl
  | .branch kind p list none, e, h => by
    rw [Node.walk_branch] at h
    obtain ⟨e', he', rfl⟩ := Option.map_eq_some_iff.mp h
    exact walkNodes_snd list e' he'
  | .branch kind p list (some elseList), e, h => by
    rw [Node.walk_branch_else] at h
    obtain ⟨e₁, h₁, h⟩ := Option.bind_eq_some_iff.mp h
    split at h
    · cases h
    · rename_i hcut
      obtain ⟨e₂, h₂, rfl⟩ := Option.map_eq_some_iff.mp h
      rw [walkNodes_snd list e₁ h₁] at hcut
      rw [Bool.not_eq_true] at hcut
      rw [Node.seen, hcut, Bool.false_or]
      exact walkNodes_snd elseList e₂ h₂

theorem walkNodes_snd : ∀ ns : List Node, ∀ e ∈ walkNodes false ns, e.2 = nodesSeen ns
  | [], e, h => by
    cases h
    rfl
  | n :: ns, e, h => by
    rw [walkNodes_cons] at h
    obtain ⟨e₁, h₁, h⟩ := Option.bind_eq_some_iff.mp h
    obtain ⟨e₂, h₂, rfl⟩ := Option.map_eq_some_iff.mp h
    have hcut := n.walk_snd e₁ h₁
    rw [nodesSeen]
    cases hseen : n.seen with
    | true =>
      rw [hcut, hseen, walkNodes_true] at h₂
      cases h₂
      rfl
    | false =>
      rw [hcut, hseen] at h₂
      exact walkNodes_snd ns e₂ h₂

end

/-! ## The tree -/

/-- The result of the walk over nodes, if it does not panic. -/
theorem walkNodes_fst_cons (n : Node) (ns : List Node) : (walkNodes false (n :: ns)).map Prod.fst =
    ((n.walk false).map Prod.fst).bind fun r => if n.seen then some r.toList
      else ((walkNodes false ns).map Prod.fst).map (r.toList ++ ·) := by
  rw [walkNodes_cons]
  cases h : n.walk false with
  | none => rfl
  | some e =>
    have hcut := n.walk_snd e h
    rw [Option.bind_some, Option.map_some, Option.bind_some, hcut]
    cases n.seen with
    | true =>
      rw [walkNodes_true, if_pos rfl, Option.map_some, Option.map_some]
      simp
    | false =>
      rw [if_neg Bool.false_ne_true, Option.map_map, Option.map_map]
      rfl

theorem Node.walk_none_iff (n : Node) : (n.walk false).map Prod.fst = some none ↔ n.Vanishes := by
  cases n with
  | text _ => exact iff_of_false nofun id
  | template _ _ => exact iff_of_false nofun id
  | action p =>
    rw [Node.walk_action, Node.Vanishes, ← p.walk_none_iff]
    simp
  | branch kind p list elseList =>
    refine iff_of_false (fun h => ?_) id
    cases elseList with
    | none =>
      rw [Node.walk_branch] at h
      cases hw : walkNodes false list <;> rw [hw] at h <;> cases h
    | some elseList =>
      rw [Node.walk_branch_else] at h
      obtain ⟨e, he, h⟩ := Option.map_eq_some_iff.mp h
      obtain ⟨e₁, h₁, he⟩ := Option.bind_eq_some_iff.mp he
      split at he
      · cases he
      · obtain ⟨e₂, h₂, rfl⟩ := Option.map_eq_some_iff.mp he
        cases h

theorem walkNodes_nil_iff (ns : List Node) : (walkNodes false ns).map Prod.fst = some [] ↔ nodesVanish ns := by
  cases ns with
  | nil => exact iff_of_true rfl trivial
  | cons n ns =>
    rw [walkNodes_fst_cons, nodesVanish, ← n.walk_none_iff]
    cases hseen : n.seen with
    | true =>
      cases (n.walk false).map Prod.fst with
      | none => exact iff_of_false nofun nofun
      | some r => cases r <;> simp
    | false =>
      rw [n.walk_of_not_seen hseen]
      simp

mutual

theorem Node.upTo_of_not_responds : ∀ n : Node, n.responds = false → n.upTo = n
  | .text _, _ => rfl
  | .action p, h => by rw [Node.upTo, p.upTo_of_not_responds h]
  | .template _ none, _ => rfl
  | .template _ (some p), h => by rw [Node.upTo, p.upTo_of_not_responds h]
  | .branch _ p list none, h => by
    rw [Node.responds, Bool.or_eq_false_iff] at h
    rw [Node.upTo, if_neg (by simp [h.1]), nodesUpTo_of_not_respond list h.2]
  | .branch _ p list (some elseList), h => by
    rw [Node.responds, Bool.or_eq_false_iff, Bool.or_eq_false_iff] at h
    rw [Node.upTo, if_neg (by simp [h.1]), if_neg (by simp [h.1]), nodesUpTo_of_not_respond elseList h.2]

theorem nodesUpTo_of_not_respond : ∀ ns : List Node, nodesRespond ns = false → nodesUpTo ns = ns
  | [], _ => rfl
  | n :: ns, h => by
    rw [nodesRespond, Bool.or_eq_false_iff] at h
    rw [nodesUpTo, if_neg (by simp [h.1]), nodesUpTo_of_not_respond ns h.2]

end

theorem nodesSeen_of_not_respond {ns : List Node} (h : nodesRespond ns = false) : nodesSeen ns = false := by
  by_contra hseen
  rw [Bool.not_eq_false] at hseen
  rw [nodesRespond_of_seen ns hseen] at h
  cases h

/-- An else list stays where it was, or is a panic. -/
theorem Node.walk_else {kind : BranchKind} {p : Pipe} {list elseList : List Node} {r : Option Node}
    (h : ((Node.branch kind p list (some elseList)).walk false).map Prod.fst = some r) :
    ∃ l e, r = some (.branch kind p l (some e)) := by
  rw [Node.walk_branch_else] at h
  obtain ⟨e, he, rfl⟩ := Option.map_eq_some_iff.mp h
  obtain ⟨e₁, h₁, he⟩ := Option.bind_eq_some_iff.mp he
  split at he
  · cases he
  · obtain ⟨e₂, h₂, rfl⟩ := Option.map_eq_some_iff.mp he
    exact ⟨_, _, rfl⟩

mutual

theorem Node.walk_upTo_iff : ∀ n : Node, n.seen = true → ((n.walk false).map Prod.fst = some (some n.upTo) ↔ n.Exact)
  | .text _, h => absurd h Bool.false_ne_true
  | .template _ _, h => absurd h Bool.false_ne_true
  | .action p, _ => by
    rw [Node.walk_action, Node.upTo, Node.Exact, ← p.walk_upTo_iff]
    simp
  | .branch kind p list none, _ => by
    have hwalk : ((Node.branch kind p list none).walk false).map Prod.fst =
        ((walkNodes false list).map Prod.fst).map fun l => some (.branch kind p l none) := by
      rw [Node.walk_branch, Option.map_map, Option.map_map]
      rfl
    rw [hwalk, Node.upTo, Node.Exact]
    cases hresponds : p.responds with
    | true =>
      rw [if_pos rfl, if_pos rfl, ← walkNodes_nil_iff]
      cases (walkNodes false list).map Prod.fst with
      | none => exact iff_of_false nofun fun h => nomatch h.2
      | some l =>
        simp only [Option.map_some, Option.some.injEq, Node.branch.injEq, true_and, and_true]
        rw [eq_comm (a := p)]
    | false =>
      rw [if_neg Bool.false_ne_true, if_neg Bool.false_ne_true, ← walkNodes_upTo_iff list]
      cases (walkNodes false list).map Prod.fst <;> simp
  | .branch kind p list (some elseList), _ => by
    have hnone : ∀ q l, ((Node.branch kind p list (some elseList)).walk false).map Prod.fst ≠
        some (some (.branch kind q l none)) := by
      intro q l h
      obtain ⟨l', e', heq⟩ := Node.walk_else h
      cases heq
    rw [Node.upTo, Node.Exact]
    cases hresponds : p.responds with
    | true =>
      rw [if_pos rfl, if_pos (Bool.true_or _)]
      exact iff_of_false (hnone _ _) id
    | false =>
      rw [if_neg Bool.false_ne_true, Bool.false_or]
      cases hlist : nodesRespond list with
      | true =>
        rw [if_pos rfl, if_pos rfl]
        exact iff_of_false (hnone _ _) id
      | false =>
        rw [if_neg Bool.false_ne_true, if_neg Bool.false_ne_true, ← walkNodes_upTo_iff elseList, Node.walk_branch_else,
          walkNodes_of_not_seen list (nodesSeen_of_not_respond hlist), Option.bind_some, if_neg Bool.false_ne_true]
        cases walkNodes false elseList <;> simp

theorem walkNodes_upTo_iff : ∀ ns : List Node, (walkNodes false ns).map Prod.fst = some (nodesUpTo ns) ↔ nodesExact ns
  | [] => iff_of_true rfl trivial
  | n :: ns => by
    rw [walkNodes_fst_cons, nodesUpTo, nodesExact]
    cases hresponds : n.responds with
    | false =>
      have hseen : n.seen = false := by
        by_contra hseen
        rw [Bool.not_eq_false] at hseen
        rw [n.responds_of_seen hseen] at hresponds
        cases hresponds
      rw [n.walk_of_not_seen hseen, hseen, if_neg Bool.false_ne_true, if_neg Bool.false_ne_true,
        ← walkNodes_upTo_iff ns]
      cases (walkNodes false ns).map Prod.fst <;> simp
    | true =>
      rw [if_pos rfl, if_pos rfl]
      cases hseen : n.seen with
      | true =>
        rw [if_pos rfl, ← n.walk_upTo_iff hseen]
        cases (n.walk false).map Prod.fst with
        | none => exact iff_of_false nofun nofun
        | some r => cases r <;> simp
      | false =>
        rw [n.walk_of_not_seen hseen, if_neg Bool.false_ne_true, ← walkNodes_nil_iff]
        cases (walkNodes false ns).map Prod.fst with
        | none => exact iff_of_false nofun fun h => nomatch h.2
        | some l =>
          simp only [Option.map_some, Option.bind_some, Option.toList_some, Option.some.injEq, List.singleton_append,
            List.cons_eq_cons, Bool.false_eq_true, if_false]
          rw [eq_comm (a := n)]

end

/-- The cut template is the part up to the first `.Response` if and only if the walk stops right there. -/
theorem deleteNode_iff (root : List Node) : deleteNode root = some (nodesUpTo root) ↔ nodesExact root :=
  walkNodes_upTo_iff root

/-- `if .Think`, the response, and an else list. -/
def answerOrElse : List Node :=
  [.branch .ifNode (.mk [] (.mk (.field [ascii "Think"]) []) [])
    [.action (.mk [] (.mk (.field [ascii "Response"]) []) [])] (some [.text (ascii "none")])]

/-- The assertion on the else list fails. -/
theorem answerOrElse_panics :
    deleteNode answerOrElse = none ∧ deleteNode answerOrElse ≠ some (nodesUpTo answerOrElse) :=
  ⟨rfl, nofun⟩

end Xdragon.Template
