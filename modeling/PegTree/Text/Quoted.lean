import PegTree.Text.Printable
import PegTree.Text.Mark

/-!
# Quoted text

Messages and outlines show characters between `'` and texts between `"`.  A character is written as
itself if that is unmistakable and as an escape otherwise, so that every quoted text stays on one
line and can be read back.

* The null character, tab, carriage return, line feed and backslash have escapes of one letter.
* The quote around the text is escaped inside it, the other kind of quote is not.
* A character that cannot be shown, or that would be drawn onto the one before it, is written by its
  code point in hexadecimal.
-/

namespace PegTree

/-- The escape of a character by its code point. -/
def hexEscape (c : Char) : List Char :=
  ['\\', 'u', '\x7b'] ++ Nat.toDigits 16 c.toNat ++ ['\x7d']

/-- How a character is written between two quotes of the given kind. -/
def escaped (quote c : Char) : List Char :=
  if c = '\x00' then ['\\', '0']
  else if c = '\t' then ['\\', 't']
  else if c = '\r' then ['\\', 'r']
  else if c = '\n' then ['\\', 'n']
  else if c = '\\' then ['\\', '\\']
  else if c = quote then ['\\', quote]
  else if isExtendingMark c || !isPrintable c then hexEscape c
  else [c]

/-- A character between single quotes. -/
def quotedChar (c : Char) : String :=
  String.ofList ('\'' :: escaped '\'' c ++ ['\''])

/-- A text between double quotes. -/
def quotedText (text : String) : String :=
  String.ofList ('"' :: text.toList.flatMap (escaped '"') ++ ['"'])

end PegTree
