import PegTree.Tree.Basic

/-!
# Trees as JSON

A node is written as an object with its fields in alphabetical order: the children of a branch, the
name of the rule, the span, and the value of a leaf.  There are no blanks, and a string holds every
character as itself save quotes, backslashes and control characters below U+0020.
-/

namespace PegTree

namespace Json

/-- How a character is written in a string. -/
def escaped (c : Char) : List Char :=
  if c = '"' then ['\\', '"']
  else if c = '\\' then ['\\', '\\']
  else if c = '\x08' then ['\\', 'b']
  else if c = '\x0c' then ['\\', 'f']
  else if c = '\n' then ['\\', 'n']
  else if c = '\r' then ['\\', 'r']
  else if c = '\t' then ['\\', 't']
  else if c.toNat < 0x20 then
    ['\\', 'u', '0', '0', Nat.digitChar (c.toNat / 16), Nat.digitChar (c.toNat % 16)]
  else [c]

/-- A string. -/
def text (s : String) : String :=
  String.ofList ('"' :: s.toList.flatMap escaped ++ ['"'])

/-- A number. -/
def number (n : Nat) : String :=
  toString n

/-- A field of an object. -/
def field (key value : String) : String :=
  text key ++ ":" ++ value

/-- An object of written fields. -/
def object (fields : List String) : String :=
  "\x7b" ++ ",".intercalate fields ++ "\x7d"

/-- An array of written items. -/
def array (items : List String) : String :=
  "[" ++ ",".intercalate items ++ "]"

/-- A span. -/
def span (s : Span) : String :=
  object [field "end" (number s.stop), field "start" (number s.start)]

end Json

namespace Tree

mutual

/-- A tree, given the names of the rules.  A branch without children has no field for them. -/
def toJson (name : RuleId → String) : Tree → String
  | leaf r s v =>
    Json.object [Json.field "rule" (Json.text (name r)), Json.field "span" (Json.span s),
      Json.field "value" (Json.text v)]
  | branch r s children =>
    let own := [Json.field "rule" (Json.text (name r)), Json.field "span" (Json.span s)]
    match toJsonEach name children with
    | [] => Json.object own
    | items => Json.object (Json.field "children" (Json.array items) :: own)

/-- Several trees. -/
def toJsonEach (name : RuleId → String) : List Tree → List String
  | [] => []
  | t :: ts => t.toJson name :: toJsonEach name ts

end

end Tree

end PegTree
