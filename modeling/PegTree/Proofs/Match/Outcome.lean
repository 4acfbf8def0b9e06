import PegTree.Match.Eval
import PegTree.Proofs.Match.Semantics

/-!
# Outcomes

A second account of matching, without shared state.  An `Outcome` says what comes of running an
expression at a place: where the match stops, the nodes captured by this run alone and the misses of
this run alone, in order.  Nothing is ever taken back; `Outcome.after` puts what came before in front.

`Expr.outcome` runs an expression in a `Frame`, and `Grammar.outcome` calls a rule while so many
nested calls are left.  Which mode the skip rule is in is an argument here, no flag.
-/

namespace PegTree

/-- What comes of running an expression at a place. -/
inductive Outcome where
  /-- The limit on nested rules was reached. -/
  | overflow (o : Overflow)
  | failed (log : List Miss)
  | matched (stop : Cursor) (captures : List Tree) (log : List Miss)

namespace Outcome

/-- A match of nothing. -/
def stay (c : Cursor) : Outcome :=
  matched c [] []

/-- The outcome, with what was captured and missed before it. -/
def after (before : List Tree) (missed : List Miss) : Outcome → Outcome
  | overflow o => overflow o
  | failed log => failed (missed ++ log)
  | matched stop captures log => matched stop (before ++ captures) (missed ++ log)

/-- Goes on from where a match stops. -/
def andThen (o : Outcome) (next : Cursor → Outcome) : Outcome :=
  match o with
  | matched stop captures log => (next stop).after captures log
  | o => o

/-- Tries something else after a failure. -/
def orElse (o : Outcome) (other : Outcome) : Outcome :=
  match o with
  | failed log => other.after [] log
  | o => o

/-- Matches nothing at `c` after a failure and fails after a match; no miss counts. -/
def negated (c : Cursor) : Outcome → Outcome
  | overflow o => overflow o
  | failed _ => stay c
  | matched _ _ _ => failed []

/-- Forgets the misses. -/
def quiet : Outcome → Outcome
  | overflow o => overflow o
  | failed _ => failed []
  | matched stop captures _ => matched stop captures []

/-- Makes the match of a rule that began at `start` a node. -/
def captured (rule : RuleId) (start : Cursor) : Outcome → Outcome
  | overflow o => overflow o
  | failed log => failed log
  | matched stop captures log => matched stop [Tree.ofMatch rule start stop captures] log

end Outcome

/-! ## Frames -/

/-- What an expression needs to know of its surroundings. -/
structure Frame where
  /-- The rule that is being matched. -/
  rule : Option RuleId
  /-- Runs the skip rule. -/
  skip : Cursor → Outcome
  /-- Calls a rule. -/
  call : RuleId → Cursor → Outcome

namespace Frame

/-- Runs the skip rule first if that is asked for. -/
def leading (f : Frame) (lead : Bool) (c : Cursor) (next : Cursor → Outcome) : Outcome :=
  if lead then (f.skip c).andThen next else next c

/-- A failed terminal. -/
def fail (f : Frame) (c : Cursor) (e : Expectation) : Outcome :=
  .failed [⟨c.offset, e.describe, f.rule⟩]

/-- A text. -/
def literal (f : Frame) (text : String) (c : Cursor) : Outcome :=
  match c.dropPrefix? text.toList with
  | some stop => .stay stop
  | none => f.fail c (.literal text)

/-- A character between bounds. -/
def range (f : Frame) (low high : Char) (c : Cursor) : Outcome :=
  match c.next? with
  | some (x, stop) =>
    if low ≤ x ∧ x ≤ high then .stay stop else f.fail c (.range low high)
  | none => f.fail c (.range low high)

/-- The end of the input. -/
def endOfInput (f : Frame) (c : Cursor) : Outcome :=
  if c.rest.isEmpty then .stay c else f.fail c .endOfInput

end Frame

/-! ## Expressions -/

/-- What a round of a repetition at `c` comes to, given how to go on behind a round that has consumed
something.  What any other round captures is dropped, what it misses is not. -/
def Outcome.round (c : Cursor) (next : Cursor → Outcome) : Outcome → Outcome
  | overflow o => overflow o
  | failed log => matched c [] log
  | matched stop captures log =>
    if c.offset < stop.offset then (next stop).after captures log else matched c [] log

/-- Repeats `body`, in at most one round more than characters are ahead. -/
def Outcome.iterate (body : Bool → Cursor → Outcome) : List Char → Bool → Cursor → Outcome
  | [], lead, c => (body lead c).round c .stay
  | _ :: ahead, lead, c => (body lead c).round c (Outcome.iterate body ahead true)

mutual

/-- What comes of running an expression. -/
def Expr.outcome (f : Frame) : Expr → Bool → Cursor → Outcome
  | .empty, lead, c => f.leading lead c .stay
  | .literal text, lead, c => f.leading lead c (f.literal text)
  | .range low high, lead, c => f.leading lead c (f.range low high)
  | .endOfInput, lead, c => f.leading lead c f.endOfInput
  | .rule id, lead, c => f.leading lead c (f.call id)
  | .capture id, lead, c => f.leading lead c fun c => (f.call id c).captured id c
  | .sequence terms, lead, c => sequenceOutcome f terms lead c
  | .choice alternatives, lead, c => choiceOutcome f alternatives lead c
  | .repetition body, lead, c => Outcome.iterate (body.outcome f) c.rest lead c
  | .optional body, lead, c => (body.outcome f lead c).orElse (.stay c)
  | .negation body, _, c => (body.outcome f false c).negated c

/-- What comes of running elements one after the other. -/
def sequenceOutcome (f : Frame) : List Term → Bool → Cursor → Outcome
  | [], _, c => .stay c
  | ⟨adjacent, e⟩ :: terms, lead, c =>
    (e.outcome f (lead && !adjacent) c).andThen (sequenceOutcome f terms true)

/-- What comes of trying alternatives at one place. -/
def choiceOutcome (f : Frame) : List Expr → Bool → Cursor → Outcome
  | [], _, _ => .failed []
  | e :: alternatives, lead, c =>
    (e.outcome f lead c).orElse (choiceOutcome f alternatives lead c)

end

/-! ## Rules -/

namespace Grammar

/-- What comes of the skip rule, given how rules are called. -/
def skipOutcome (g : Grammar) (call : Mode → RuleId → Cursor → Outcome) (mode : Mode)
    (c : Cursor) : Outcome :=
  match mode, g.skip with
  | .plain, some body =>
    ((body.outcome ⟨none, .stay, call .skipping⟩ false c).orElse (.stay c)).quiet
  | _, _ => .stay c

/-- The frame of a body, given how rules are called from it. -/
def frame (g : Grammar) (call : Mode → RuleId → Cursor → Outcome) (mode : Mode)
    (rule : Option RuleId) : Frame where
  rule := rule
  skip := g.skipOutcome call mode
  call := call mode

/-- What comes of calling a rule while so many nested calls are left. -/
def outcome (g : Grammar) : Nat → Mode → RuleId → Cursor → Outcome
  | 0, _, id, c => .overflow ⟨c.offset, id⟩
  | left + 1, mode, id, c =>
    match g.rules[id]? with
    | none => .failed []
    | some r => r.body.outcome (g.frame (g.outcome left) mode (some id)) false c

end Grammar

end PegTree
