import PegTree.Text.Cursor

/-!
# Grammars

A grammar is a list of named rules and perhaps one rule without a name, the skip rule, which is run
between the elements of the others.  Bodies are parsing expressions.  A rule is referred to by its
place in the list, so a body never has to be searched for names.

`Expr.rule` runs another rule in place: what that rule captures surfaces in the caller.
`Expr.capture` does the same and wraps the match into a node of the tree.
-/

namespace PegTree

/-- The place of a rule in declaration order. -/
abbrev RuleId :=
  Nat

mutual

/-- A parsing expression. -/
inductive Expr where
  /-- Matches everywhere and consumes nothing. -/
  | empty
  /-- Matches this very text. -/
  | literal (text : String)
  /-- Matches one character between the bounds, both included. -/
  | range (low high : Char)
  /-- Matches where no input is left. -/
  | endOfInput
  /-- Runs another rule. -/
  | rule (id : RuleId)
  /-- Runs another rule and makes its match a node. -/
  | capture (id : RuleId)
  /-- Matches the elements one after the other. -/
  | sequence (terms : List Term)
  /-- Matches the first alternative that matches. -/
  | choice (alternatives : List Expr)
  /-- Matches the body as often as it matches and consumes something. -/
  | repetition (body : Expr)
  /-- Matches the body or nothing. -/
  | optional (body : Expr)
  /-- Matches nothing, and only where the body does not match. -/
  | negation (body : Expr)

/-- An element of a sequence; the skip rule does not run before an adjacent one. -/
structure Term where
  adjacent : Bool
  expr : Expr

end

/-- A named rule and the range of its name in the text that defines it. -/
structure Rule where
  name : String
  body : Expr
  nameSpan : Span

/-- The rules in declaration order and the body of the skip rule. -/
structure Grammar where
  rules : List Rule
  skip : Option Expr

namespace Grammar

/-- The rule of a name. -/
def ruleId? (g : Grammar) (name : String) : Option RuleId :=
  g.rules.findIdx? (·.name == name)

/-- The name of a rule; the empty text for an id that names none. -/
def name (g : Grammar) (id : RuleId) : String :=
  (g.rules[id]?.map Rule.name).getD ""

/-- The number of named rules. -/
def size (g : Grammar) : Nat :=
  g.rules.length

end Grammar

end PegTree
