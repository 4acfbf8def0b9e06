import PegTree.Text.Quoted
import PegTree.Tree.Basic

/-!
# Outlines

The outline of a tree has one line for each node in document order, indented by two blanks for each
level: the name of the rule and, for a leaf, the quoted text.
-/

namespace PegTree

/-- The blanks in front of a line at a depth. -/
def indentation (depth : Nat) : String :=
  String.ofList (List.replicate (2 * depth) ' ')

namespace Tree

mutual

/-- The lines of a tree, the first at the given depth. -/
def outlineFrom (name : RuleId → String) (depth : Nat) : Tree → String
  | leaf r _ v => indentation depth ++ name r ++ " " ++ quotedText v ++ "\n"
  | branch r _ children =>
    indentation depth ++ name r ++ "\n" ++ outlineFromEach name (depth + 1) children

/-- The lines of several trees at one depth. -/
def outlineFromEach (name : RuleId → String) (depth : Nat) : List Tree → String
  | [] => ""
  | t :: ts => t.outlineFrom name depth ++ outlineFromEach name depth ts

end

/-- The outline of a tree, given the names of the rules. -/
def outline (name : RuleId → String) (t : Tree) : String :=
  t.outlineFrom name 0

end Tree

end PegTree
