import PegTree.Text.Cursor

/-!
# Characters of the grammar notation

Between the elements of the notation there may be blanks and comments.  A blank is a space, a tab, a
carriage return or a line feed; a comment runs from `//` to before the next line feed or to the end of
the text.
-/

namespace PegTree

/-- Blanks between elements. -/
def isBlank (c : Char) : Bool :=
  c == ' ' || c == '\t' || c == '\r' || c == '\n'

/-- Characters that begin a name. -/
def beginsName (c : Char) : Bool :=
  c.isAlpha || c == '_'

/-- Characters that continue a name. -/
def continuesName (c : Char) : Bool :=
  c.isAlphanum || c == '_'

/-- Hexadecimal digits, in either case. -/
def isHexDigit (c : Char) : Bool :=
  c.isDigit || ('a' ≤ c && c ≤ 'f') || ('A' ≤ c && c ≤ 'F')

/-- The place behind the blanks and comments from `offset` on; `comment` says that a comment has
begun before. -/
def behindBlanks (comment : Bool) (offset : Nat) : List Char → Cursor
  | [] => ⟨offset, []⟩
  | c :: cs =>
    if comment && c != '\n' then behindBlanks true (offset + c.utf8Size) cs
    else if isBlank c then behindBlanks false (offset + c.utf8Size) cs
    else if c == '/' && cs.head? == some '/' then behindBlanks true (offset + c.utf8Size) cs
    else ⟨offset, c :: cs⟩

/-- The place behind the blanks and comments that come next. -/
def Cursor.skipBlanks (c : Cursor) : Cursor :=
  behindBlanks false c.offset c.rest

end PegTree
