import PegTree.Command.Command
import PegTree.Files.Source
import PegTree.Parser.Basic
import PegTree.Terminal.Status
import PegTree.Tree.Json

/-!
# Running a command

A command is a function of its request and of the files it sees.  What it prints is kept in a
`Transcript`: the text printed so far and, once something has failed, the failure.  Transcripts are
put one behind the other, and nothing is printed behind a failure, so the first failure ends the run
and what was printed before it stays.
-/

namespace PegTree

/-- Whatever ends a run. -/
inductive Failure where
  | source (e : SourceError)
  | grammar (e : GrammarError)
  | parse (e : ParseError)
deriving DecidableEq, Repr

/-- How a failure is reported. -/
def Failure.diagnostic : Failure → Diagnostic
  | .source e => e.diagnostic
  | .grammar e => e.diagnostic
  | .parse e => e.diagnostic

/-! ## Transcripts -/

/-- What has been printed, and the failure behind it. -/
structure Transcript where
  text : String
  failure : Option Failure
deriving DecidableEq, Repr

namespace Transcript

/-- Nothing printed. -/
def empty : Transcript :=
  ⟨"", none⟩

/-- A printed text. -/
def print (text : String) : Transcript :=
  ⟨text, none⟩

/-- A failure. -/
def fail (f : Failure) : Transcript :=
  ⟨"", some f⟩

/-- One transcript behind another, unless that has failed. -/
def andThen (t : Transcript) (next : Unit → Transcript) : Transcript :=
  match t.failure with
  | some _ => t
  | none => let u := next (); ⟨t.text ++ u.text, u.failure⟩

/-- The transcripts of several items in order. -/
def forEach {α : Type} (items : List α) (f : α → Transcript) : Transcript :=
  match items with
  | [] => empty
  | a :: more => (f a).andThen fun _ => forEach more f

/-- Goes on with a result, or fails with its error. -/
def ofResult {ε α : Type} (result : Except ε α) (failure : ε → Failure) (next : α → Transcript) :
    Transcript :=
  match result with
  | .ok a => next a
  | .error e => fail (failure e)

end Transcript

/-! ## Checking -/

/-- What `check` says of a grammar. -/
def checkLine (coloring : Coloring) (path : String) (g : Grammar) : String :=
  let skip := if g.skip.isSome then "with" else "without"
  statusLine coloring "ok" .green s!"{path}: {g.size} rules, {skip} skip rule"

/-- Compiles a grammar; if entry rules are given they have to exist. -/
def checkGrammar (source : Source) (entries : List String) : Except GrammarError Grammar :=
  if entries.isEmpty then Grammar.compile source
  else
    let b : Builder := { text := source.text, sourceName := source.name, entries := entries }
    Parser.grammar <$> b.build

/-- Runs `check`. -/
def runCheck (coloring : Coloring) (view : FileView) (path : String) (entries : List String) :
    Transcript :=
  .ofResult (view.readText path) .source fun text =>
    .ofResult (checkGrammar ⟨path, text⟩ entries) .grammar fun g =>
      .print (checkLine coloring path g)

/-! ## Parsing -/

namespace ParseRequest

/-- The parser that a request asks for, given the text of the grammar. -/
def builder (r : ParseRequest) (text : String) : Builder where
  text := text
  sourceName := r.grammar
  entries := r.entries
  full := r.full

/-- The files that a request asks for below a folder. -/
def selection (r : ParseRequest) : Selection :=
  ⟨r.extension, r.exclude⟩

/-- What is printed for a parsed file. -/
def treeBlock (r : ParseRequest) (coloring : Coloring) (p : Parser) (path : String) (t : Tree) :
    String :=
  if r.json then t.toJson p.ruleName ++ "\n"
  else statusLine coloring "parsed" .green path ++ t.display coloring p.ruleName 0

/-- What is printed for a file without text. -/
def skippedLine (coloring : Coloring) (path : String) : String :=
  statusLine coloring "skipped" .yellow (path ++ " (empty)")

/-- Parses one file. -/
def runFile (r : ParseRequest) (coloring : Coloring) (view : FileView) (p : Parser)
    (path : String) : Transcript :=
  .ofResult (view.readText path) .source fun text =>
    if text.isEmpty then .print (skippedLine coloring path)
    else .ofResult (p.parse ⟨path, text⟩) .parse fun t =>
      .print (r.treeBlock coloring p path t)

/-- Parses the files that one path stands for. -/
def runPath (r : ParseRequest) (coloring : Coloring) (view : FileView) (p : Parser)
    (root : String) : Transcript :=
  .ofResult (view.discover r.selection root) .source fun paths =>
    .forEach paths (r.runFile coloring view p)

/-- Runs `parse`. -/
def run (r : ParseRequest) (coloring : Coloring) (view : FileView) : Transcript :=
  .ofResult (view.readText r.grammar) .source fun text =>
    .ofResult (r.builder text).build .grammar fun p =>
      .forEach r.paths (r.runPath coloring view p)

end ParseRequest

/-! ## The program -/

/-- How a run ends. -/
structure Report where
  exitCode : Nat
  output : String
  failure : Option Failure
deriving DecidableEq, Repr

/-- The end of a run with its transcript. -/
def Report.ofTranscript (t : Transcript) : Report :=
  ⟨if t.failure.isSome then 1 else 0, t.text, t.failure⟩

/-- What the program calls itself. -/
def versionLine : String :=
  "rulecraft 0.1.0\n"

/-- Runs the program. -/
def runProgram (coloring : Coloring) (view : FileView) (arguments : List String) : Report :=
  match Command.ofArguments arguments with
  | none => ⟨2, "", none⟩
  | some .version => .ofTranscript (.print versionLine)
  | some (.check grammar entries) => .ofTranscript (runCheck coloring view grammar entries)
  | some (.parse request) => .ofTranscript (request.run coloring view)

end PegTree
