import PegTree.Tree.Basic

/-!
# Equality of trees can be decided

Trees are compared node by node, so that the answer of a parse can be computed and compared.
-/

namespace PegTree

mutual

/-- Whether two trees are built alike. -/
def Tree.same : Tree → Tree → Bool
  | .leaf r s v, .leaf r' s' v' => r == r' && s == s' && v == v'
  | .branch r s ts, .branch r' s' ts' => r == r' && s == s' && sameTrees ts ts'
  | _, _ => false

/-- Whether two lists of trees are built alike. -/
def sameTrees : List Tree → List Tree → Bool
  | [], [] => true
  | t :: ts, t' :: ts' => t.same t' && sameTrees ts ts'
  | _, _ => false

end

mutual

theorem Tree.same_iff : ∀ a b : Tree, a.same b = true ↔ a = b
  | .leaf r s v, b => by cases b <;> simp [Tree.same, and_assoc]
  | .branch r s ts, b => by cases b <;> simp [Tree.same, sameTrees_iff ts, and_assoc]

theorem sameTrees_iff : ∀ a b : List Tree, sameTrees a b = true ↔ a = b
  | [], b => by cases b <;> simp [sameTrees]
  | t :: ts, b => by cases b <;> simp [sameTrees, Tree.same_iff t, sameTrees_iff ts]

end

instance : DecidableEq Tree := fun a b => decidable_of_iff _ (Tree.same_iff a b)

end PegTree
