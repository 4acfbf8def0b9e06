import PegTree.Diagnostic
import PegTree.Notation.Attempts

/-!
# What can be wrong with a grammar

A `GrammarFault` is a cause found in a grammar text and says where it was found.  A `GrammarError` is
what building a parser answers: a fault together with the text it is in, or a complaint about the
entry rules, which have no text to point at.
-/

namespace PegTree

/-- What can be wrong with a character in a grammar. -/
inductive CharacterFault where
  /-- A code that is no Unicode scalar value. -/
  | notScalar
  /-- A quoted bound of a range that is not exactly one character. -/
  | notSingle
  /-- A range whose lower bound lies above its upper one. -/
  | reversed
deriving DecidableEq, Repr

/-- The wording of a character fault. -/
def CharacterFault.describe : CharacterFault → String
  | .notScalar => "not a valid code point"
  | .notSingle => "range bounds must be a single character"
  | .reversed => "range bounds are reversed"

/-- A cause for which a grammar text is refused. -/
inductive GrammarFault where
  /-- The text does not follow the notation. -/
  | unreadable (attempts : Attempts)
  /-- A name is defined again, or the skip rule (no name) is. -/
  | duplicateRule (name : Option String) (again first : Span)
  /-- A name is used that no definition has. -/
  | undefinedRule (name : String) (span : Span)
  /-- A character or a range is not valid. -/
  | invalidCharacter (fault : CharacterFault) (span : Span)
  /-- A rule calls itself before anything is consumed; the last name of the cycle is its first. -/
  | leftRecursion (cycle : List String) (span : Span)
deriving DecidableEq, Repr

namespace GrammarFault

/-- The name by which reports call a rule or the skip rule. -/
def reportedName (name : Option String) : String :=
  name.getD "<skip>"

/-- A cycle of rules as one text. -/
def reportedCycle (cycle : List String) : String :=
  " -> ".intercalate cycle

/-- A faulty character or range as it is written in the source. -/
def reportedLiteral (source : Source) (span : Span) : String :=
  String.ofList (span.select source.text.toList)

/-- How a fault in the source is reported. -/
def diagnostic (source : Source) : GrammarFault → Diagnostic
  | .unreadable attempts =>
    { message := "grammar syntax error: " ++ Part.expectation attempts.parts
      code := "rulecraft::grammar::syntax"
      help := none
      labels := [⟨"invalid syntax", ⟨attempts.offset, attempts.offset⟩⟩]
      source := some source }
  | .duplicateRule name again first =>
    { message := "rule `" ++ reportedName name ++ "` is defined more than once"
      code := "rulecraft::grammar::duplicate_rule"
      help := none
      labels := [⟨"redefined here", again⟩, ⟨"first defined here", first⟩]
      source := some source }
  | .undefinedRule name span =>
    { message := "rule `" ++ name ++ "` is referenced but never defined"
      code := "rulecraft::grammar::undefined_rule"
      help := some ("define it with `" ++ name ++ " = ...;`")
      labels := [⟨"undefined rule", span⟩]
      source := some source }
  | .invalidCharacter fault span =>
    { message := "invalid character literal " ++ reportedLiteral source span ++ ": "
        ++ fault.describe
      code := "rulecraft::grammar::invalid_character"
      help := none
      labels := [⟨"invalid character", span⟩]
      source := some source }
  | .leftRecursion cycle span =>
    { message := "rule `" ++ cycle.headD "" ++ "` is left-recursive: " ++ reportedCycle cycle
      code := "rulecraft::grammar::left_recursion"
      help := some "make the rule consume input before it calls itself again"
      labels := [⟨"recursion starts here", span⟩]
      source := some source }

end GrammarFault

/-- Why no parser can be built. -/
inductive GrammarError where
  /-- The grammar text is refused. -/
  | refused (source : Source) (fault : GrammarFault)
  /-- No entry rule is given. -/
  | noEntry
  /-- An entry rule is not defined. -/
  | unknownEntry (name : String)
deriving DecidableEq, Repr

/-- How an error is reported. -/
def GrammarError.diagnostic : GrammarError → Diagnostic
  | .refused source fault => fault.diagnostic source
  | .noEntry =>
    { message := "no entry rule given"
      code := "rulecraft::grammar::no_entry"
      help := some "name at least one rule with `Builder::entries`"
      labels := []
      source := none }
  | .unknownEntry name =>
    { message := "entry rule `" ++ name ++ "` is not defined"
      code := "rulecraft::grammar::unknown_entry"
      help := none
      labels := []
      source := none }

end PegTree
