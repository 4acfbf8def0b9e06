import PegTree.Diagnostic
import PegTree.Text.Quoted
import PegTree.Text.Location

/-!
# Why a text is not parsed

A text is refused either because no entry rule matches it, which is reported at the furthest place
that was reached, or because the rules were nested deeper than the parser allows.
-/

namespace PegTree

/-- Where parsing stopped: the location that is told in the message, and the bytes that are marked in
the text. -/
structure Spot extends Location where
  span : Span
deriving DecidableEq, Repr

instance : Coe Spot Location :=
  ⟨Spot.toLocation⟩

/-- Why a text is not parsed. -/
inductive ParseError where
  /-- No entry rule matches.  `found` is the character at the furthest place, none at the end. -/
  | unexpected (source : Source) (found : Option Char) (expected : List String)
      (rule : Option String) (spot : Spot)
  /-- A rule was called inside as many others as the limit allows. -/
  | recursionLimit (source : Source) (limit : Nat) (rule : String) (spot : Spot)
deriving DecidableEq, Repr

namespace ParseError

/-- Where parsing stopped. -/
def location : ParseError → Location
  | unexpected _ _ _ _ spot => spot
  | recursionLimit _ _ _ spot => spot

/-- The wording of what was found. -/
def describeFound : Option Char → String
  | some c => quotedChar c
  | none => "end of input"

/-- The wording of what was expected. -/
def describeExpected : List String → String
  | [] => "different input"
  | [one] => one
  | many => "one of " ++ ", ".intercalate many

/-- The wording of the rule in which parsing stopped. -/
def describeRule : Option String → String
  | none => ""
  | some rule => " in rule `" ++ rule ++ "`"

/-- How an error is reported. -/
def diagnostic : ParseError → Diagnostic
  | unexpected source found expected rule spot =>
    { message := "unexpected " ++ describeFound found ++ " at " ++ spot.describe
        ++ describeRule rule ++ "; expected " ++ describeExpected expected
      code := "rulecraft::parse::unexpected"
      help := none
      labels := [⟨"parsing stopped here", spot.span⟩]
      source := some source }
  | recursionLimit source limit rule spot =>
    { message := s!"rule nesting exceeded {limit} levels at {spot.describe} in rule `{rule}`"
      code := "rulecraft::parse::recursion_limit"
      help := some "raise the limit with `Builder::max_depth`"
      labels := [⟨"limit reached here", spot.span⟩]
      source := some source }

end ParseError

end PegTree
