import PegTree.Notation.Attempts
import PegTree.Notation.Blanks
import PegTree.Notation.Phrase

/-!
# Reading definitions

The notation, as ordered choices over characters:

    grammar    = definition* end of text
    definition = name? "=" choice ";"
    name       = (letter | "_") (letter | digit | "_")*
    choice     = sequence ("|" sequence)*
    sequence   = term term*
    term       = "#"? prefixed
    prefixed   = negation | capture | range | group | repetition | optional | finish
               | literal | reference
    negation   = "!" prefixed
    capture    = "@" name
    range      = character ".." (character | finish)
    group      = "(" choice ")"
    repetition = "{" choice "}"
    optional   = "[" choice "]"
    finish     = "$"
    literal    = character
    reference  = name
    character  = quoted text | character code

Blanks and comments may stand between any two parts, but not inside a name, a quoted text or a
character code.  They are taken where the next part is looked for and stay taken if that part turns
out to be an empty repetition.

A reader that fails stays where it was, but what it has tried stays noted.  A text that is written
between quotes above is no part by itself, so a missing one is never reported, only the part around
it.
-/

namespace PegTree

/-- A step of reading: it goes on in the text, or fails, and notes what it tried. -/
abbrev Reader :=
  StateT Cursor (OptionT (StateM Attempts))

namespace Reader

/-! ## Steps -/

/-- Runs a reader and notes the part if it fails. -/
def labelled {α : Type} (part : Part) (r : Reader α) : Reader α :=
  fun c => OptionT.mk do
    -- what failed here earlier has nothing to do with this part and stays
    let before := (← get).countAt c.offset
    match ← (r c).run with
    | some answer => pure (some answer)
    | none =>
      modify fun a => a.fail part c.offset before
      pure none

/-- Runs a reader and says which range of the text it took. -/
def spanned {α : Type} (r : Reader α) : Reader (α × Span) := do
  let start ← get
  let a ← r
  let stop ← get
  pure (a, start.spanTo stop)

/-- Takes blanks and comments. -/
def blanks : Reader Unit :=
  modify Cursor.skipBlanks

/-- Takes this very text. -/
def text (t : List Char) : Reader Unit := do
  match (← get).dropPrefix? t with
  | some stop => set stop
  | none => failure

/-- Takes the longest run of characters of a kind. -/
def longest (kind : Char → Bool) : Reader (List Char) := do
  let c ← get
  let word := c.rest.takeWhile kind
  set (c.advance word.length)
  pure word

/-- Takes so many characters of a kind. -/
def exactly (n : Nat) (kind : Char → Bool) : Reader (List Char) := do
  let c ← get
  let word := c.rest.take n
  if word.length = n ∧ word.all kind then
    set (c.advance n)
    pure word
  else failure

/-- Repeats a reader, with blanks before each round, until it fails, at most as often as the bound
says. -/
def repeatAtMost {α : Type} (r : Reader α) : Nat → Reader (List α)
  | 0 => pure []
  | bound + 1 =>
    (do
      blanks
      let first ← r
      let more ← repeatAtMost r bound
      pure (first :: more)) <|> pure []

/-- Repeats a reader that takes a character whenever it succeeds until it fails.  It is tried once
more than there are characters, so that the last try is one in vain. -/
def many {α : Type} (r : Reader α) : Reader (List α) := do
  repeatAtMost r ((← get).rest.length + 1)

/-- Reads something if it is there. -/
def optionally {α : Type} (r : Reader α) : Reader (Option α) :=
  some <$> r <|> pure none

/-! ## The smallest parts -/

/-- A name. -/
def name : Reader WrittenName :=
  labelled .name do
    let (word, span) ← spanned do
      let first ← exactly 1 beginsName
      let more ← longest continuesName
      pure (first ++ more)
    pure ⟨String.ofList word, span⟩

/-- The text between two quotes of a kind. -/
def between (quote : Char) : Reader CharacterForm := do
  text [quote]
  let body ← longest (· != quote)
  text [quote]
  pure (.quoted body)

/-- The digits behind the sign of a character code. -/
def digits (sign : Char) (n : Nat) : Reader CharacterForm := do
  text ['\\', sign]
  CharacterForm.code <$> exactly n isHexDigit

/-- A quoted text or a character code. -/
def character : Reader WrittenCharacter := do
  let (form, span) ← spanned <|
    labelled .quoted (between '\'' <|> between '"') <|>
    labelled .charCode (digits 'x' 2 <|> digits 'u' 4)
  pure ⟨form, span⟩

/-- The sign for the end of the input. -/
def finish : Reader Unit :=
  labelled .finish (text ['$'])

/-! ## Bodies -/

/-- An element, given how to read its operand. -/
def term (operand : Reader Phrase) : Reader Element :=
  labelled .term do
    let mark ← optionally (labelled .adjacent (text ['#']))
    blanks
    let phrase ← operand
    pure ⟨mark.isSome, phrase⟩

/-- One element or more. -/
def sequence (operand : Reader Phrase) : Reader (List Element) :=
  labelled .sequence do
    let first ← term operand
    blanks
    let more ← many (term operand)
    pure (first :: more)

/-- One sequence or more, with bars between them. -/
def choice (operand : Reader Phrase) : Reader Alternatives :=
  labelled .choice do
    let first ← sequence operand
    blanks
    let more ← many do
      text ['|']
      blanks
      sequence operand
    pure (first :: more)

/-- Alternatives between two brackets. -/
def bracketed (opening closing : Char) (operand : Reader Phrase) : Reader Alternatives := do
  text [opening]
  blanks
  let body ← choice operand
  blanks
  text [closing]
  pure body

/-- A range of characters. -/
def range : Reader Phrase :=
  labelled .range do
    let ((low, high), span) ← spanned do
      let low ← character
      blanks
      text ['.', '.']
      blanks
      let high ← some <$> character <|> (fun _ => none) <$> finish
      pure (low, high)
    pure (.range low high span)

/-- An operand whose own operands are nested less deep than the bound. -/
def prefixed : Nat → Reader Phrase
  | 0 => failure
  | bound + 1 =>
    let operand := prefixed bound
    labelled .prefixed <|
      labelled .negation (do
        text ['!']
        blanks
        Phrase.negation <$> operand) <|>
      labelled .capture (do
        text ['@']
        blanks
        Phrase.capture <$> name) <|>
      -- a range begins like a literal and is looked for first
      range <|>
      labelled .group (Phrase.group <$> bracketed '(' ')' operand) <|>
      labelled .repetition (Phrase.repetition <$> bracketed '\x7b' '\x7d' operand) <|>
      labelled .optional (Phrase.optional <$> bracketed '[' ']' operand) <|>
      (fun _ => Phrase.finish) <$> finish <|>
      labelled .literal (Phrase.literal <$> character) <|>
      labelled .reference (Phrase.reference <$> name)

/-! ## Definitions -/

/-- A definition. -/
def definition (operand : Reader Phrase) : Reader Definition :=
  labelled .definition do
    let name ← optionally name
    blanks
    text ['=']
    blanks
    let (body, span) ← spanned (choice operand)
    blanks
    text [';']
    pure ⟨name, body, span⟩

/-- The end of the text. -/
def endOfText : Reader Unit :=
  labelled .endOfText do
    if (← get).rest.isEmpty then pure () else failure

/-- A whole text. -/
def grammar (operand : Reader Phrase) : Reader (List Definition) :=
  labelled .grammar do
    blanks
    let definitions ← many (definition operand)
    blanks
    endOfText
    pure definitions

end Reader

/-- The definitions of a grammar text, or what was tried in vain.  Operands cannot be nested deeper
than there are characters. -/
def readDefinitions (text : List Char) : Except Attempts (List Definition) :=
  let operand := Reader.prefixed (text.length + 1)
  match ((Reader.grammar operand) (Cursor.start text)).run.run Attempts.none with
  | (some (definitions, _), _) => .ok definitions
  | (none, attempts) => .error attempts

end PegTree
