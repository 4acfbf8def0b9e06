import PegTree.Grammar.Basic

/-!
# Parse trees

A node stands for one captured match: the rule, the range of the match, and either the nodes captured
inside it or, if there are none, the matched text.  The type admits a branch without children; no
parse builds one.

The leaves of a tree are walked with an explicit stack of the trees that are still to be visited, the
next one in front.  The walk ends because opening a branch leaves fewer nodes on the stack.
-/

namespace PegTree

/-- A parse tree. -/
inductive Tree where
  | leaf (rule : RuleId) (span : Span) (value : String)
  | branch (rule : RuleId) (span : Span) (children : List Tree)

namespace Tree

/-- The rule whose match the node is. -/
def rule : Tree → RuleId
  | leaf r _ _ => r
  | branch r _ _ => r

/-- The range of the match. -/
def span : Tree → Span
  | leaf _ s _ => s
  | branch _ s _ => s

/-- The matched text of a leaf. -/
def value? : Tree → Option String
  | leaf _ _ v => some v
  | branch _ _ _ => none

/-- The nodes right below; none for a leaf. -/
def children : Tree → List Tree
  | leaf _ _ _ => []
  | branch _ _ ts => ts

/-- Whether the node is a leaf. -/
def isLeaf : Tree → Bool
  | leaf _ _ _ => true
  | branch _ _ _ => false

/-- The node for a match of `rule` between two places, with the nodes captured in between. -/
def ofMatch (rule : RuleId) (start stop : Cursor) (captures : List Tree) : Tree :=
  match captures with
  | [] => leaf rule (start.spanTo stop) (String.ofList (start.textTo stop))
  | _ :: _ => branch rule (start.spanTo stop) captures

/-- The whole text of the match, uncaptured parts included, in the text that was parsed. -/
def textIn (t : Tree) (text : List Char) : List Char :=
  t.span.select text

/-- The children that are matches of a rule. -/
def tagged (t : Tree) (rule : RuleId) : List Tree :=
  t.children.filter (·.rule == rule)

/-- The node that is reached by going to the child of each index in turn. -/
def descend? (t : Tree) : List Nat → Option Tree
  | [] => some t
  | i :: path =>
    match t.children[i]? with
    | none => none
    | some child => child.descend? path

/-! ## Leaves -/

mutual

/-- The number of nodes of a tree. -/
def nodes : Tree → Nat
  | leaf _ _ _ => 1
  | branch _ _ children => 1 + nodesOf children

/-- The number of nodes of several trees. -/
def nodesOf : List Tree → Nat
  | [] => 0
  | t :: ts => t.nodes + nodesOf ts

end

theorem nodesOf_append (ts us : List Tree) : nodesOf (ts ++ us) = nodesOf ts + nodesOf us := by
  induction ts with
  | nil => simp [nodesOf]
  | cons t ts ih => simp [nodesOf, ih, Nat.add_assoc]

/-- The next leaf of the trees on the stack, and the stack that is left. -/
def nextLeaf? : List Tree → Option (Tree × List Tree)
  | [] => none
  | leaf r s v :: pending => some (leaf r s v, pending)
  | branch _ _ children :: pending => nextLeaf? (children ++ pending)
termination_by stack => nodesOf stack
decreasing_by simp only [nodesOf_append, nodesOf, nodes]; omega

theorem nodesOf_lt_of_nextLeaf? {stack pending : List Tree} {t : Tree}
    (h : nextLeaf? stack = some (t, pending)) : nodesOf pending < nodesOf stack := by
  fun_induction nextLeaf? stack with
  | case1 => simp at h
  | case2 r s v pending => cases h; simp [nodesOf, nodes]
  | case3 r s children pending ih =>
    have := ih h
    simp only [nodesOf_append] at this
    simp only [nodesOf, nodes]
    omega

/-- The leaves of the trees on the stack, in the order in which the walk meets them. -/
def leavesOf (stack : List Tree) : List Tree :=
  match _h : nextLeaf? stack with
  | none => []
  | some (t, pending) => t :: leavesOf pending
termination_by nodesOf stack
decreasing_by exact nodesOf_lt_of_nextLeaf? _h

/-- The leaves of a tree in document order. -/
def leaves (t : Tree) : List Tree :=
  leavesOf [t]

end Tree

end PegTree
