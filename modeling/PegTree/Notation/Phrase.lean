import PegTree.Text.Cursor

/-!
# Definitions as they are written

What a grammar text says before any name is looked up: its definitions in text order, each with the
phrases of its body.  Alternatives are lists of sequences and sequences are lists of elements, also
where there is only one.  Whatever a later complaint may have to point at carries its span.
-/

namespace PegTree

/-- A name where it is written. -/
structure WrittenName where
  text : String
  span : Span
deriving DecidableEq, Repr

/-- The two ways to write characters. -/
inductive CharacterForm where
  | quoted (body : List Char)
  | code (digits : List Char)
deriving DecidableEq, Repr

/-- Characters where they are written. -/
structure WrittenCharacter where
  form : CharacterForm
  span : Span
deriving DecidableEq, Repr

mutual

/-- An operand of a sequence. -/
inductive Phrase where
  | negation (operand : Phrase)
  | capture (name : WrittenName)
  /-- A range; without an upper bound it runs to the highest character. -/
  | range (low : WrittenCharacter) (high : Option WrittenCharacter) (span : Span)
  | group (alternatives : List (List Element))
  | repetition (alternatives : List (List Element))
  | optional (alternatives : List (List Element))
  | finish
  | literal (character : WrittenCharacter)
  | reference (name : WrittenName)

/-- An operand, perhaps with the mark of adjacency in front. -/
structure Element where
  adjacent : Bool
  phrase : Phrase

end

/-- The alternatives of a body. -/
abbrev Alternatives :=
  List (List Element)

/-- A definition; one without a name defines the skip rule. -/
structure Definition where
  name : Option WrittenName
  body : Alternatives
  /-- What reading the body has taken, now and then with blanks behind it. -/
  bodySpan : Span

namespace Definition

/-- What may be defined only once: a name, or the skip rule. -/
def key (d : Definition) : Option String :=
  d.name.map WrittenName.text

/-- The place by which a report refers to the definition. -/
def mark (d : Definition) : Span :=
  match d.name with
  | some n => n.span
  | none => d.bodySpan

end Definition

end PegTree
