import PegTree.Text.Cursor

/-!
# Lines and columns

A `Location` names a byte offset as a reader of the text would: the line, counted from one and ended
by a line feed, and the column, counted from one in characters.  `Location.after` reads it off the
characters that come before the place.
-/

namespace PegTree

/-- A byte offset with its line and column. -/
structure Location where
  offset : Nat
  line : Nat
  column : Nat
deriving DecidableEq, Repr

namespace Location

/-- The beginning of every text. -/
def first : Location :=
  ⟨0, 1, 1⟩

/-- One character further: a line feed begins a line, all else a column. -/
def advance (l : Location) (c : Char) : Location :=
  if c = '\n' then ⟨l.offset + c.utf8Size, l.line + 1, 1⟩
  else ⟨l.offset + c.utf8Size, l.line, l.column + 1⟩

/-- Where a reader stands after the given characters. -/
def after (before : List Char) : Location :=
  before.foldl advance first

/-- The place at a byte offset, moved back to the boundary of the character it lies in. -/
def near (text : List Char) (offset : Nat) : Location :=
  after (takeBytes offset text)

/-- The place at a byte offset.  An offset past the end means the end, one inside a character has no
place. -/
def locate? (text : List Char) (offset : Nat) : Option Location :=
  let here := near text offset
  if here.offset = min offset (utf8Width text) then some here else none

/-- The wording used in messages. -/
def describe (l : Location) : String :=
  s!"line {l.line}, column {l.column}"

end Location

end PegTree
