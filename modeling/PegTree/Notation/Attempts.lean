/-!
# What could have been read

When a grammar text cannot be read, the report names the parts of the notation that were tried at the
furthest place.  `Attempts` keeps that place and the parts that failed there, and survives
backtracking.

A part that fails speaks for what was tried inside it: it takes the place of the parts that failed
inside it at the same offset, unless that was exactly one part, which says more than the part around
it.  A part that is read leaves standing what failed inside it.
-/

namespace PegTree

/-- The parts of the notation that a report may name. -/
inductive Part where
  | endOfText
  | grammar
  | definition
  | name
  | choice
  | sequence
  | term
  | adjacent
  | prefixed
  | negation
  | capture
  | range
  | group
  | repetition
  | optional
  | finish
  | literal
  | reference
  | quoted
  | charCode
deriving DecidableEq, Repr

namespace Part

/-- All parts in the order in which a report lists them. -/
def all : List Part :=
  [.endOfText, .grammar, .definition, .name, .choice, .sequence, .term, .adjacent, .prefixed,
    .negation, .capture, .range, .group, .repetition, .optional, .finish, .literal, .reference,
    .quoted, .charCode]

/-- The word for a part. -/
def word : Part → String
  | .endOfText => "EOI"
  | .grammar => "grammar"
  | .definition => "definition"
  | .name => "name"
  | .choice => "choice"
  | .sequence => "sequence"
  | .term => "term"
  | .adjacent => "adjacent"
  | .prefixed => "prefixed"
  | .negation => "negation"
  | .capture => "capture"
  | .range => "range"
  | .group => "group"
  | .repetition => "repeat"
  | .optional => "optional"
  | .finish => "end"
  | .literal => "literal"
  | .reference => "reference"
  | .quoted => "quoted"
  | .charCode => "char_code"

/-- The listed parts, each once and in order. -/
def arrange (parts : List Part) : List Part :=
  all.filter parts.contains

/-- The words of several parts as one enumeration. -/
def enumerate : List String → String
  | [] => ""
  | [a] => a
  | [a, b] => a ++ " or " ++ b
  | many => ", ".intercalate many.dropLast ++ ", or " ++ many.getLastD ""

/-- What a report says about the parts that were tried. -/
def expectation (parts : List Part) : String :=
  "expected " ++ enumerate ((arrange parts).map word)

end Part

/-- The furthest offset at which a part was tried in vain, and the parts that failed there. -/
structure Attempts where
  offset : Nat
  parts : List Part
deriving DecidableEq, Repr

namespace Attempts

/-- Nothing tried so far. -/
def none : Attempts :=
  ⟨0, []⟩

/-- The number of parts that failed at an offset. -/
def countAt (a : Attempts) (offset : Nat) : Nat :=
  if offset = a.offset then a.parts.length else 0

/-- Notes that `part` failed at `offset`, where `before` parts had failed when it began. -/
def fail (a : Attempts) (part : Part) (offset before : Nat) : Attempts :=
  -- exactly one part failed inside, and it says more than the part around it
  if a.countAt offset = before + 1 then a
  else if offset = a.offset then ⟨offset, a.parts.take before ++ [part]⟩
  else if a.offset < offset then ⟨offset, [part]⟩
  else a

end Attempts

end PegTree
