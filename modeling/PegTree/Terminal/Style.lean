/-!
# Coloured output

Colours are switched on by escape sequences: each change of style first resets what was set before.
Where colours are off, nothing is written in their place.
-/

namespace PegTree

/-- The colours in use. -/
inductive Color where
  | red
  | green
  | yellow
  | cyan
deriving DecidableEq, Repr

/-- The digit of a colour. -/
def Color.digit : Color → Char
  | red => '1'
  | green => '2'
  | yellow => '3'
  | cyan => '6'

/-- How the output is coloured. -/
inductive Coloring where
  | plain
  | ansi
deriving DecidableEq, Repr

namespace Coloring

/-- An escape sequence for a change of style. -/
def escape (parameter : List Char) : String :=
  String.ofList ('\x1b' :: '[' :: parameter ++ ['m'])

/-- Back to the style of the terminal. -/
def reset : Coloring → String
  | plain => ""
  | ansi => escape ['0']

/-- The style of a colour, perhaps bold. -/
def style (c : Coloring) (bold : Bool) (color : Color) : String :=
  match c with
  | plain => ""
  | ansi => escape ['0'] ++ (if bold then escape ['1'] else "") ++ escape ['3', color.digit]

end Coloring

end PegTree
