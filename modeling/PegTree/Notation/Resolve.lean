import PegTree.Grammar.Basic
import PegTree.Grammar.Error
import PegTree.Notation.Phrase

/-!
# From phrases to expressions

Resolving turns the phrases of a body into an expression: names become rule ids, character codes
become characters, and whatever only groups disappears.  Phrases are resolved from left to right and
the first fault is the answer, so of several faults in a text the leftmost one is reported.
-/

namespace PegTree

/-- The value of a hexadecimal digit. -/
def hexValue (c : Char) : Nat :=
  if c.isDigit then c.toNat - '0'.toNat
  else if 'a' ≤ c then c.toNat - 'a'.toNat + 10
  else c.toNat - 'A'.toNat + 10

/-- The number written by hexadecimal digits. -/
def hexNumber (digits : List Char) : Nat :=
  digits.foldl (fun n c => n * 16 + hexValue c) 0

/-- The character of a code point, unless the code point is none of a scalar value. -/
def scalar? (n : Nat) : Option Char :=
  if n.isValidChar then some (Char.ofNat n) else none

/-- The highest character. -/
def highestChar : Char :=
  Char.ofNat 0x10FFFF

namespace WrittenCharacter

/-- The text that a character in a body stands for. -/
def text (c : WrittenCharacter) : Except GrammarFault (List Char) :=
  match c.form with
  | .quoted body => .ok body
  | .code digits =>
    match scalar? (hexNumber digits) with
    | some x => .ok [x]
    | none => .error (.invalidCharacter .notScalar c.span)

/-- The character that a bound of a range stands for. -/
def bound (c : WrittenCharacter) : Except GrammarFault Char := do
  match ← c.text with
  | [x] => .ok x
  | _ => .error (.invalidCharacter .notSingle c.span)

end WrittenCharacter

/-- The expression for a literal text; no text at all is the empty expression. -/
def literalExpr : List Char → Expr
  | [] => .empty
  | text => .literal (String.ofList text)

/-- The upper bound of a range; one that is not written is the highest character. -/
def upperBound : Option WrittenCharacter → Except GrammarFault Char
  | none => .ok highestChar
  | some c => c.bound

/-- The range between two written bounds. -/
def rangeExpr (low : WrittenCharacter) (high : Option WrittenCharacter) (span : Span) :
    Except GrammarFault Expr := do
  let low ← low.bound
  let high ← upperBound high
  if low ≤ high then .ok (.range low high) else .error (.invalidCharacter .reversed span)

/-- A sequence; a single element without a mark stands for itself. -/
def sequenceExpr : List Term → Expr
  | [⟨false, e⟩] => e
  | terms => .sequence terms

/-- A choice; a single alternative stands for itself. -/
def choiceExpr : List Expr → Expr
  | [e] => e
  | alternatives => .choice alternatives

/-- The id of a name, by the names in declaration order. -/
def lookupName (names : List String) (name : WrittenName) : Except GrammarFault RuleId :=
  match names.findIdx? (· == name.text) with
  | some id => .ok id
  | none => .error (.undefinedRule name.text name.span)

mutual

/-- The expression of a phrase. -/
def Phrase.resolve (names : List String) : Phrase → Except GrammarFault Expr
  | .negation operand => .negation <$> operand.resolve names
  | .capture name => .capture <$> lookupName names name
  | .range low high span => rangeExpr low high span
  | .group alternatives => choiceExpr <$> resolveAlternatives names alternatives
  | .repetition alternatives =>
    (.repetition ∘ choiceExpr) <$> resolveAlternatives names alternatives
  | .optional alternatives => (.optional ∘ choiceExpr) <$> resolveAlternatives names alternatives
  | .finish => .ok .endOfInput
  | .literal character => literalExpr <$> character.text
  | .reference name => .rule <$> lookupName names name

/-- The elements of a sequence. -/
def resolveElements (names : List String) : List Element → Except GrammarFault (List Term)
  | [] => .ok []
  | ⟨adjacent, phrase⟩ :: more => do
    let e ← phrase.resolve names
    let terms ← resolveElements names more
    .ok (⟨adjacent, e⟩ :: terms)

/-- The alternatives of a choice. -/
def resolveAlternatives (names : List String) :
    List (List Element) → Except GrammarFault (List Expr)
  | [] => .ok []
  | elements :: more => do
    let terms ← resolveElements names elements
    let alternatives ← resolveAlternatives names more
    .ok (sequenceExpr terms :: alternatives)

end

/-- The expression of a body. -/
def Definition.resolve (names : List String) (d : Definition) : Except GrammarFault Expr :=
  choiceExpr <$> resolveAlternatives names d.body

/-- All bodies in text order; the first fault is the answer. -/
def resolveAll (names : List String) :
    List Definition → Except GrammarFault (List (Definition × Expr))
  | [] => .ok []
  | d :: more => do
    let body ← d.resolve names
    let others ← resolveAll names more
    .ok ((d, body) :: others)

/-- The first definition that repeats an earlier one, with the earlier one.  `earlier` are the
definitions already passed, which do not repeat each other. -/
def firstDuplicate? (earlier : List Definition) : List Definition → Option (Definition × Definition)
  | [] => none
  | d :: more =>
    match earlier.find? (·.key == d.key) with
    | some first => some (d, first)
    | none => firstDuplicate? (d :: earlier) more

end PegTree
