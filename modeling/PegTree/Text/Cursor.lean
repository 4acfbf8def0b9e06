/-!
# Positions in a text

Every offset, span and length of this library counts bytes of the UTF-8 form of a text, while the
text itself is worked on as a list of characters.  The two meet in `Cursor`: an offset together
with the characters that are still ahead of it.  A cursor only moves by whole characters, so a
reader that holds one never stands inside a character, and the text between two cursors is always
a text of its own.

`takeBytes` and `dropBytes` cut a text at a byte offset that arrives from outside.  They stop before
a character that does not fit.
-/

namespace PegTree

/-! ## Bytes of a text -/

/-- Bytes that the characters take in UTF-8. -/
def utf8Width : List Char → Nat
  | [] => 0
  | c :: cs => c.utf8Size + utf8Width cs

/-- The longest beginning that fits into `n` bytes. -/
def takeBytes : Nat → List Char → List Char
  | _, [] => []
  | n, c :: cs => if c.utf8Size ≤ n then c :: takeBytes (n - c.utf8Size) cs else []

/-- What is left after the longest beginning that fits into `n` bytes. -/
def dropBytes : Nat → List Char → List Char
  | _, [] => []
  | n, c :: cs => if c.utf8Size ≤ n then dropBytes (n - c.utf8Size) cs else c :: cs

theorem utf8Width_append (cs ds : List Char) :
    utf8Width (cs ++ ds) = utf8Width cs + utf8Width ds := by
  induction cs with
  | nil => simp [utf8Width]
  | cons c cs ih => simp [utf8Width, ih, Nat.add_assoc]

theorem takeBytes_append_dropBytes (n : Nat) (cs : List Char) :
    takeBytes n cs ++ dropBytes n cs = cs := by
  induction cs generalizing n with
  | nil => simp [takeBytes, dropBytes]
  | cons c cs ih => by_cases h : c.utf8Size ≤ n <;> simp [takeBytes, dropBytes, h, ih]

/-! ## Spans -/

/-- A byte range of a text, `stop` not included. -/
structure Span where
  start : Nat
  stop : Nat
deriving DecidableEq, Repr

namespace Span

/-- Bytes covered. -/
def length (s : Span) : Nat :=
  s.stop - s.start

/-- Whether nothing is covered. -/
def isEmpty (s : Span) : Bool :=
  s.start == s.stop

/-- The characters of a text that a span covers. -/
def select (s : Span) (text : List Char) : List Char :=
  takeBytes s.length (dropBytes s.start text)

end Span

/-! ## Cursors -/

/-- A place in a text: its offset and the characters ahead. -/
structure Cursor where
  offset : Nat
  rest : List Char
deriving DecidableEq, Repr

namespace Cursor

/-- The beginning of a text. -/
def start (text : List Char) : Cursor :=
  ⟨0, text⟩

/-- The place after the next character. -/
def next? (c : Cursor) : Option (Char × Cursor) :=
  match c.rest with
  | [] => none
  | x :: rest => some (x, ⟨c.offset + x.utf8Size, rest⟩)

/-- The place after `text`, if that is what comes next. -/
def dropPrefix? (c : Cursor) (text : List Char) : Option Cursor :=
  if text.isPrefixOf c.rest then
    some ⟨c.offset + utf8Width text, c.rest.drop text.length⟩
  else none

/-- The place after so many characters. -/
def advance (c : Cursor) (n : Nat) : Cursor :=
  ⟨c.offset + utf8Width (c.rest.take n), c.rest.drop n⟩

/-- The characters between a place and a later one. -/
def textTo (c stop : Cursor) : List Char :=
  takeBytes (stop.offset - c.offset) c.rest

/-- The range between a place and a later one. -/
def spanTo (c stop : Cursor) : Span :=
  ⟨c.offset, stop.offset⟩

end Cursor

end PegTree
