import PegTree.Terminal.Style
import PegTree.Tree.Outline

/-!
# Status lines and coloured outlines

A status line begins with a bold label, aligned to the right in eight columns, and goes on with a
message.  A coloured outline has the lines of the plain one, with the names of the rules and the
quoted texts in colours of their own.
-/

namespace PegTree

/-- A text with blanks in front that fill it up to a number of characters. -/
def alignRight (columns : Nat) (text : String) : String :=
  String.ofList (List.replicate (columns - text.toList.length) ' ') ++ text

/-- A status line. -/
def statusLine (coloring : Coloring) (label : String) (color : Color) (message : String) :
    String :=
  coloring.style true color ++ alignRight 8 label ++ coloring.reset ++ " " ++ message ++ "\n"

namespace Tree

mutual

/-- The lines of a tree, the first at the given depth. -/
def display (coloring : Coloring) (name : RuleId → String) (depth : Nat) : Tree → String
  | leaf r _ v =>
    indentation depth ++ coloring.style false .cyan ++ name r ++ coloring.reset
      ++ coloring.style false .green ++ " " ++ quotedText v ++ coloring.reset ++ "\n"
  | branch r _ children =>
    indentation depth ++ coloring.style false .cyan ++ name r ++ coloring.reset ++ "\n"
      ++ displayEach coloring name (depth + 1) children

/-- The lines of several trees at one depth. -/
def displayEach (coloring : Coloring) (name : RuleId → String) (depth : Nat) :
    List Tree → String
  | [] => ""
  | t :: ts => t.display coloring name depth ++ displayEach coloring name depth ts

end

end Tree

end PegTree
