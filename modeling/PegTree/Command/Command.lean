import PegTree.Command.Arguments

/-!
# The commands

`check` compiles a grammar and reports its rules; `parse` parses files with a grammar and prints
their trees.  A command line that names no command, or one whose arguments do not fit, is unusable.
Paths are never empty.
-/

namespace PegTree

/-- What to parse, and how. -/
structure ParseRequest where
  grammar : String
  entries : List String
  /-- Refuse what an entry rule leaves over. -/
  full : Bool
  /-- Print trees as JSON. -/
  json : Bool
  extension : String
  exclude : List String
  paths : List String
deriving DecidableEq, Repr

/-- A command line that makes sense. -/
inductive Command where
  | version
  | check (grammar : String) (entries : List String)
  | parse (request : ParseRequest)
deriving DecidableEq, Repr

namespace Command

/-- The options of `check`. -/
def checkOptions : List OptionSpec :=
  [⟨"entry", some 'e', .repeated⟩]

/-- The options of `parse`. -/
def parseOptions : List OptionSpec :=
  [⟨"grammar", some 'g', .single⟩, ⟨"entry", some 'e', .repeated⟩, ⟨"full", none, .switch⟩,
    ⟨"json", none, .switch⟩, ⟨"ext", none, .single⟩, ⟨"exclude", none, .repeated⟩]

/-- The arguments of `check`: one path. -/
def readCheck (texts : List String) : Option Command := do
  let a ← Arguments.read checkOptions texts
  match a.positionals with
  | [grammar] => if grammar = "" then none else some (check grammar (a.values "entry"))
  | _ => none

/-- The arguments of `parse`: a grammar, an entry rule or more, and a path or more. -/
def readParse (texts : List String) : Option Command := do
  let a ← Arguments.read parseOptions texts
  let grammar ← (a.values "grammar").head?
  let entries := a.values "entry"
  let paths := a.positionals
  if grammar = "" ∨ entries = [] ∨ paths = [] ∨ "" ∈ paths then none
  else
    some (parse ⟨grammar, entries, a.has "full", a.has "json",
      ((a.values "ext").head?).getD "txt", a.values "exclude", paths⟩)

/-- Whether an argument asks for the version. -/
def asksVersion (text : String) : Bool :=
  match Written.ofArgument text with
  | .long name none => name = "version"
  | .short letter _ => letter = 'V'
  | _ => false

/-- The command of a command line. -/
def ofArguments : List String → Option Command
  | [] => none
  | first :: more =>
    if first = "check" then readCheck more
    else if first = "parse" then readParse more
    else if asksVersion first then some version
    else none

/-- The paths that a command asks to see. -/
def paths : Command → List String
  | version => []
  | check grammar _ => [grammar]
  | parse request => request.grammar :: request.paths

end Command

end PegTree
