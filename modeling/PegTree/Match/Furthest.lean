import PegTree.Grammar.Basic
import PegTree.Text.Quoted

/-!
# The furthest failure

Whatever a terminal expects in vain is a `Miss`.  Of all misses of a parse only those at the furthest
offset are kept, as one `Furthest` record: the offset, the wordings of what was expected there, each
once and in ascending order, and the rule of the first of these misses that was inside a rule.
-/

namespace PegTree

/-- What a terminal expects. -/
inductive Expectation where
  | literal (text : String)
  | range (low high : Char)
  | endOfInput
deriving DecidableEq, Repr

/-- The wording of an expectation. -/
def Expectation.describe : Expectation → String
  | .literal text => quotedText text
  | .range low high => quotedChar low ++ ".." ++ quotedChar high
  | .endOfInput => "end of input"

/-- A terminal tried in vain: where, what it expected, and the rule that was being matched. -/
structure Miss where
  offset : Nat
  expected : String
  rule : Option RuleId
deriving DecidableEq, Repr

/-- Puts a text into an ascending list of texts without repeats. -/
def insertSorted (text : String) : List String → List String
  | [] => [text]
  | other :: more =>
    if text < other then text :: other :: more
    else if text = other then other :: more
    else other :: insertSorted text more

/-- The furthest offset at which a terminal was tried in vain, and what is known of the misses
there. -/
structure Furthest where
  offset : Nat
  expected : List String
  rule : Option RuleId
deriving DecidableEq, Repr

namespace Furthest

/-- No miss so far. -/
def nothing : Furthest :=
  ⟨0, [], none⟩

/-- The record after one more miss. -/
def note (f : Furthest) (miss : Miss) : Furthest :=
  if miss.offset < f.offset then f
  else if f.offset < miss.offset then ⟨miss.offset, [miss.expected], miss.rule⟩
  -- as far as ever: one more expectation; the rule is that of the first miss inside one
  else ⟨f.offset, insertSorted miss.expected f.expected, f.rule <|> miss.rule⟩

end Furthest

/-- Where a rule was called although the limit was reached. -/
structure Overflow where
  offset : Nat
  rule : RuleId
deriving DecidableEq, Repr

end PegTree
