import PegTree.Grammar.Compile
import PegTree.Match.Eval
import PegTree.Parser.Error

/-!
# Parsers

A parser is a compiled grammar with the rules at which a parse may begin.  It is described by a
`Builder` and built once; parsing a text is then a function of the parser and the text.

The entry rules are tried in order at the beginning of the text.  What failed under one of them is
kept while the next is tried, so that the report of a failed parse speaks of all of them.
-/

namespace PegTree

/-- A grammar that is ready to parse texts. -/
structure Parser where
  grammar : Grammar
  /-- The entry rules in the order in which they are tried. -/
  entries : List RuleId
  /-- Whether an entry matches only if nothing but skippable text follows. -/
  full : Bool
  /-- How deep calls of rules may be nested. -/
  maxDepth : Nat

/-! ## Building -/

/-- How deep calls may be nested unless something else is asked for. -/
def defaultMaxDepth : Nat :=
  128

/-- The description of a parser. -/
structure Builder where
  text : String := ""
  /-- The name of the grammar text in reports. -/
  sourceName : String := "grammar"
  entries : List String := []
  full : Bool := false
  maxDepth : Nat := defaultMaxDepth

namespace Builder

/-- Adds entry rules behind those given before. -/
def addEntries (b : Builder) (names : List String) : Builder :=
  { b with entries := b.entries ++ names }

/-- The source of the grammar. -/
def source (b : Builder) : Source :=
  ⟨b.sourceName, b.text⟩

/-- The ids of entry rules. -/
def resolveEntries (g : Grammar) : List String → Except GrammarError (List RuleId)
  | [] => .ok []
  | name :: more =>
    match g.ruleId? name with
    | none => .error (.unknownEntry name)
    | some id => (id :: ·) <$> resolveEntries g more

/-- The parser, or why there is none: first what is wrong with the grammar, then that there is no
entry rule, then the first that is not defined. -/
def build (b : Builder) : Except GrammarError Parser := do
  let g ← Grammar.compile b.source
  if b.entries.isEmpty then .error .noEntry
  let entries ← resolveEntries g b.entries
  .ok ⟨g, entries, b.full, b.maxDepth⟩

end Builder

namespace Parser

/-- The name of a rule. -/
def ruleName (p : Parser) (id : RuleId) : String :=
  p.grammar.name id

/-- The names of the entry rules. -/
def entryNames (p : Parser) : List String :=
  p.entries.map p.ruleName

/-! ## Parsing -/

section

variable (p : Parser) (call : RuleId → Cursor → Matching (Option Cursor))

/-- What follows an entry rule that matched up to `stop`: whether more than skippable text comes.  It
has no child list of its own to keep. -/
def atEnd (stop : Cursor) : Matching Bool := do
  let (rest, _) ← Matching.apart (p.grammar.runSkip call stop)
  if rest.rest.isEmpty then return true
  else
    let _ ← Matching.fail rest .endOfInput
    return false

/-- Runs one entry rule at the beginning of a text. -/
def runEntry (start : Cursor) (entry : RuleId) : Matching (Option Tree) := do
  match ← Matching.apart (call entry start) with
  | (none, _) => return none
  | (some stop, children) =>
    if p.full then
      -- the node ends before what is skipped here
      if !(← p.atEnd call stop) then return none
    return some (Tree.ofMatch entry start stop children.toList)

/-- Runs entry rules until one matches. -/
def runEntries (start : Cursor) : List RuleId → Matching (Option Tree)
  | [] => return none
  | entry :: more => do
    match ← p.runEntry call start entry with
    | some t => return some t
    | none => runEntries start more

end

/-- The report of a parse in which no entry matched. -/
def unexpected (p : Parser) (source : Source) (furthest : Furthest) : ParseError :=
  let text := source.text.toList
  let offset := furthest.offset
  let found := (dropBytes offset text).head?
  .unexpected source found furthest.expected (furthest.rule.map p.ruleName)
    ⟨.near text offset, ⟨offset, offset + utf8Width found.toList⟩⟩

/-- The report of a parse that ran into the limit. -/
def tooDeep (p : Parser) (source : Source) (o : Overflow) : ParseError :=
  .recursionLimit source p.maxDepth (p.ruleName o.rule)
    ⟨.near source.text.toList o.offset, ⟨o.offset, o.offset⟩⟩

/-- Parses a source, given how rules are called. -/
def parseWith (p : Parser) (call : RuleId → Cursor → Matching (Option Cursor)) (source : Source) :
    Except ParseError Tree :=
  match (p.runEntries call (Cursor.start source.text.toList) p.entries).runOn #[] .initial with
  | (.ok (some t, _), _) => .ok t
  | (.ok (none, _), m) => .error (p.unexpected source m.furthest)
  | (.error o, _) => .error (p.tooDeep source o)

/-- Parses a source. -/
def parse (p : Parser) (source : Source) : Except ParseError Tree :=
  p.parseWith (p.grammar.run p.maxDepth) source

/-- Parses a text that has no name of its own. -/
def parseText (p : Parser) (text : String) : Except ParseError Tree :=
  p.parse ⟨"input", text⟩

end Parser

end PegTree
