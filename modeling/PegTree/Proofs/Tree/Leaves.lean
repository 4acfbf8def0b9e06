import Mathlib.Data.List.Basic
import PegTree.Tree.Basic

/-!
# The walk over the leaves

The walk keeps the trees that are still to be visited on a stack.  A leaf on top is met next, a branch
gives way to its children, so what is met of several trees is what is met of each, one after the other
(`Tree.leavesOf_append`).  The texts of the leaves, in this order, are what the trees spell.
-/

namespace PegTree

namespace Tree

theorem leavesOf_of_none {stack : List Tree} (h : nextLeaf? stack = none) : leavesOf stack = [] := by
  rw [leavesOf]
  split
  · rfl
  · next hnext => cases h.symm.trans hnext

theorem leavesOf_of_some {stack pending : List Tree} {t : Tree}
    (h : nextLeaf? stack = some (t, pending)) : leavesOf stack = t :: leavesOf pending := by
  rw [leavesOf]
  split
  · next hnext => cases h.symm.trans hnext
  · next hnext =>
    obtain ⟨rfl, rfl⟩ := Prod.mk.inj (Option.some.inj (h.symm.trans hnext))
    rfl

@[simp]
theorem leavesOf_nil : leavesOf [] = [] :=
  leavesOf_of_none (by rw [nextLeaf?])

@[simp]
theorem leavesOf_leaf (rule : RuleId) (span : Span) (value : String) (pending : List Tree) :
    leavesOf (leaf rule span value :: pending) = leaf rule span value :: leavesOf pending :=
  leavesOf_of_some (by rw [nextLeaf?])

/-- Opening a branch changes nothing about what is met. -/
theorem leavesOf_branch (rule : RuleId) (span : Span) (children pending : List Tree) :
    leavesOf (branch rule span children :: pending) = leavesOf (children ++ pending) := by
  have hnext : nextLeaf? (branch rule span children :: pending) = nextLeaf? (children ++ pending) := by
    rw [nextLeaf?]
  rw [leavesOf, leavesOf, hnext]

/-- The walk meets the leaves of one tree after those of the other. -/
theorem leavesOf_append (ts us : List Tree) : leavesOf (ts ++ us) = leavesOf ts ++ leavesOf us := by
  match ts with
  | [] => rw [List.nil_append, leavesOf_nil, List.nil_append]
  | leaf rule span value :: ts =>
    rw [List.cons_append, leavesOf_leaf, leavesOf_leaf, leavesOf_append ts us, List.cons_append]
  | branch rule span children :: ts =>
    have hopened := leavesOf_append (children ++ ts) us
    rw [List.cons_append, leavesOf_branch, leavesOf_branch, ← List.append_assoc, hopened]
termination_by nodesOf ts
decreasing_by
  · simp only [nodesOf, nodes]
    omega
  · simp only [nodesOf_append, nodesOf, nodes]
    omega

/-! ## What trees spell -/

/-- The texts of all leaves, one behind the other. -/
def spelled (ts : List Tree) : List Char :=
  ((leavesOf ts).filterMap value?).flatMap String.toList

@[simp]
theorem spelled_nil : spelled [] = [] := by
  rw [spelled, leavesOf_nil, List.filterMap_nil, List.flatMap_nil]

theorem spelled_append (ts us : List Tree) : spelled (ts ++ us) = spelled ts ++ spelled us := by
  rw [spelled, leavesOf_append, List.filterMap_append, List.flatMap_append, spelled, spelled]

@[simp]
theorem spelled_leaf (rule : RuleId) (span : Span) (value : String) :
    spelled [leaf rule span value] = value.toList := by
  simp [spelled, value?]

/-- A branch has no text of its own. -/
@[simp]
theorem spelled_branch (rule : RuleId) (span : Span) (children : List Tree) :
    spelled [branch rule span children] = spelled children := by
  rw [spelled, leavesOf_branch, List.append_nil, spelled]

end Tree

end PegTree
