/-!
# The command line

A command line names one of two commands, followed by options and positional arguments in any order.
An option is written `--name value`, `--name=value`, `-n value`, `-nvalue` or `-n=value`; what begins
with a dash is never taken for the value of the option before it, but for a dash alone.  After `--`
everything is positional.

`Arguments.read` is the result of reading: every option with its value in the order of the command
line, and the positional arguments.  What a command does not allow (an unknown option, a missing or
superfluous value, an option given twice that may be given once) makes the whole command line
unusable.
-/

namespace PegTree

/-! ## Options -/

/-- What an option takes. -/
inductive OptionKind where
  /-- No value, and given at most once. -/
  | switch
  /-- A value, and given at most once. -/
  | single
  /-- A value, and given any number of times. -/
  | repeated
deriving DecidableEq, Repr

/-- An option of a command. -/
structure OptionSpec where
  long : String
  short : Option Char
  kind : OptionKind
deriving DecidableEq, Repr

/-- An argument as it is written. -/
inductive Written where
  /-- The mark behind which no options follow. -/
  | endOfOptions
  /-- A long option, perhaps with a value. -/
  | long (name : String) (value : Option String)
  /-- A short option with what follows its letter. -/
  | short (letter : Char) (rest : List Char)
  /-- Anything else. -/
  | plain (text : String)
deriving DecidableEq, Repr

namespace Written

/-- A long option and the value behind the first equals sign. -/
def ofLong (cs : List Char) : Written :=
  let name := cs.takeWhile (· != '=')
  match cs.drop name.length with
  | [] => long (String.ofList name) none
  | _ :: value => long (String.ofList name) (some (String.ofList value))

/-- The form of an argument. -/
def ofArgument (text : String) : Written :=
  match text.toList with
  | ['-', '-'] => endOfOptions
  | '-' :: '-' :: cs => ofLong cs
  | '-' :: c :: cs => short c cs
  | _ => plain text

/-- The value that stands right behind the letter of a short option, perhaps after an equals
sign. -/
def attachedValue : List Char → Option String
  | [] => none
  | '=' :: cs => some (String.ofList cs)
  | cs => some (String.ofList cs)

end Written

/-! ## Reading -/

/-- The arguments of a command. -/
structure Arguments where
  /-- The options given, by their long names; a switch has no value. -/
  options : List (String × Option String)
  positionals : List String
deriving DecidableEq, Repr

namespace Arguments

/-- No arguments. -/
def none : Arguments :=
  ⟨[], []⟩

/-- With an option in front. -/
def withOption (name : String) (value : Option String) (a : Arguments) : Arguments :=
  { a with options := (name, value) :: a.options }

/-- With a positional argument in front. -/
def withPositional (text : String) (a : Arguments) : Arguments :=
  { a with positionals := text :: a.positionals }

/-- Reads arguments; `pending` is an option that still waits for its value. -/
def readFrom (specs : List OptionSpec) : Option OptionSpec → List String → Option Arguments
  | some _, [] => .none
  | .none, [] => some none
  | some spec, text :: more =>
    -- what looks like an option is never the value of the one before it
    match Written.ofArgument text with
    | .plain value => (readFrom specs .none more).map (withOption spec.long (some value))
    | _ => .none
  | .none, text :: more =>
    let option := fun (spec : OptionSpec) (value : Option String) =>
      match spec.kind, value with
      | .switch, .none => (readFrom specs .none more).map (withOption spec.long .none)
      | .switch, some _ => .none
      | _, .none => readFrom specs (some spec) more
      | _, some value => (readFrom specs .none more).map (withOption spec.long (some value))
    match Written.ofArgument text with
    | .endOfOptions => some ⟨[], more⟩
    | .long name value => (specs.find? (·.long == name)).bind fun spec => option spec value
    | .short letter rest =>
      (specs.find? (·.short == some letter)).bind fun spec =>
        option spec (Written.attachedValue rest)
    | .plain text => (readFrom specs .none more).map (withPositional text)

/-- How often an option is given. -/
def count (a : Arguments) (name : String) : Nat :=
  (a.options.filter (·.1 == name)).length

/-- Reads arguments and holds each option to the number of times it may be given. -/
def read (specs : List OptionSpec) (texts : List String) : Option Arguments := do
  let a ← readFrom specs .none texts
  if specs.all fun spec => spec.kind = .repeated || a.count spec.long ≤ 1 then some a else .none

/-- The values of an option in the order given. -/
def values (a : Arguments) (name : String) : List String :=
  (a.options.filter (·.1 == name)).filterMap Prod.snd

/-- Whether an option is given. -/
def has (a : Arguments) (name : String) : Bool :=
  a.options.any (·.1 == name)

end Arguments

end PegTree
