import PegTree.Text.Cursor

/-!
# Diagnostics

Every failure is reported in one form, whatever its cause: a message, a code by which tools tell the
causes apart, perhaps a word of help, and labels on a named source text.  The causes are types of
their own; each has a function to its `Diagnostic`.
-/

namespace PegTree

/-- A text together with the name by which reports refer to it. -/
structure Source where
  name : String
  text : String
deriving DecidableEq, Repr

/-- A remark on a range of bytes of the source. -/
structure Label where
  text : String
  span : Span
deriving DecidableEq, Repr

/-- A failure as it is reported. -/
structure Diagnostic where
  message : String
  code : String
  help : Option String
  labels : List Label
  source : Option Source
deriving DecidableEq, Repr

end PegTree
