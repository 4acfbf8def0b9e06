import PegTree.Match.Matcher

/-!
# Running expressions

`Expr.eval` runs an expression at a place and answers where the match stops, if there is one.  It asks
its surroundings how to run the skip rule and how to call other rules; `Grammar.run` ties the knot
and counts the nested calls down.

The flag `lead` says that the skip rule has to run before the first thing that is matched.  It is
handed on inwards to whatever comes first: to every alternative of a choice, to the body of an option
or a repetition, to the first element of a sequence unless that is marked as adjacent.  A terminal, a
reference or a capture then runs the skip rule; a negation never does, it looks at the place itself.
Elements of a sequence after the first and rounds of a repetition after the first are always in
leading position, but for the mark of adjacency.

The skip rule does not run inside itself, and what fails inside it is not recorded.
-/

namespace PegTree

/-! ## Surroundings -/

/-- How an expression runs the skip rule and calls rules. -/
structure Surroundings where
  /-- Runs the skip rule and answers where it stops. -/
  skip : Cursor → Matching Cursor
  /-- Calls a rule. -/
  call : RuleId → Cursor → Matching (Option Cursor)

namespace Surroundings

/-- Runs the skip rule first if that is asked for. -/
def leading (s : Surroundings) (lead : Bool) (c : Cursor)
    (next : Cursor → Matching (Option Cursor)) : Matching (Option Cursor) := do
  if lead then
    let mark ← Matching.mark
    let c ← s.skip c
    -- a failure takes back what the skip rule has captured
    match ← next c with
    | some stop => return some stop
    | none =>
      Matching.truncate mark
      return none
  else
    next c

/-- Calls a rule and makes its match a node. -/
def capture (s : Surroundings) (id : RuleId) (c : Cursor) : Matching (Option Cursor) := do
  match ← Matching.apart (s.call id c) with
  | (some stop, children) =>
    Matching.push (Tree.ofMatch id c stop children.toList)
    return some stop
  | (none, _) => return none

end Surroundings

/-! ## Terminals -/

/-- A text. -/
def matchLiteral (text : String) (c : Cursor) : Matching (Option Cursor) := do
  match c.dropPrefix? text.toList with
  | some stop => return some stop
  | none => Matching.fail c (.literal text)

/-- A character between bounds. -/
def matchRange (low high : Char) (c : Cursor) : Matching (Option Cursor) := do
  match c.next? with
  | some (x, stop) =>
    if low ≤ x ∧ x ≤ high then return some stop else Matching.fail c (.range low high)
  | none => Matching.fail c (.range low high)

/-- The end of the input. -/
def matchEnd (c : Cursor) : Matching (Option Cursor) := do
  if c.rest.isEmpty then return some c else Matching.fail c .endOfInput

/-! ## Expressions -/

/-- Repeats `body` until it fails or consumes nothing; what that last round captures is dropped.
Every other round consumes a character, so as many rounds are enough as characters are ahead. -/
def iterate (body : Bool → Cursor → Matching (Option Cursor)) :
    List Char → Bool → Cursor → Matching (Option Cursor)
  | ahead, lead, c => do
    let mark ← Matching.mark
    match ← body lead c with
    | none =>
      Matching.truncate mark
      return some c
    | some stop =>
      if c.offset < stop.offset then
        -- a round that goes on leaves fewer characters ahead, so no run comes here with none in `ahead`
        match ahead with
        | [] => return some stop
        | _ :: ahead => iterate body ahead true stop
      else
        Matching.truncate mark
        return some c

mutual

/-- Runs an expression. -/
def Expr.eval (s : Surroundings) : Expr → Bool → Cursor → Matching (Option Cursor)
  | .empty, lead, c => s.leading lead c fun c => return some c
  | .literal text, lead, c => s.leading lead c (matchLiteral text)
  | .range low high, lead, c => s.leading lead c (matchRange low high)
  | .endOfInput, lead, c => s.leading lead c matchEnd
  | .rule id, lead, c => s.leading lead c (s.call id)
  | .capture id, lead, c => s.leading lead c (s.capture id)
  | .sequence terms, lead, c => do evalSequence s (← Matching.mark) terms lead c
  | .choice alternatives, lead, c => do evalChoice s (← Matching.mark) alternatives lead c
  | .repetition body, lead, c => iterate (body.eval s) c.rest lead c
  | .optional body, lead, c => do
    let mark ← Matching.mark
    match ← body.eval s lead c with
    | some stop => return some stop
    | none =>
      Matching.truncate mark
      return some c
  | .negation body, _, c => do
    let (stop, _) ← Matching.apart
      (Matching.between .enterLookahead .leaveLookahead (body.eval s false c))
    return if stop.isSome then none else some c

/-- Runs elements one after the other; `lead` is for the first of them.  A failure cuts the child list
back to where the whole sequence began. -/
def evalSequence (s : Surroundings) (mark : Nat) :
    List Term → Bool → Cursor → Matching (Option Cursor)
  | [], _, c => return some c
  | ⟨adjacent, e⟩ :: terms, lead, c => do
    match ← e.eval s (lead && !adjacent) c with
    | some stop => evalSequence s mark terms true stop
    | none =>
      Matching.truncate mark
      return none

/-- Tries alternatives at one place until one matches. -/
def evalChoice (s : Surroundings) (mark : Nat) :
    List Expr → Bool → Cursor → Matching (Option Cursor)
  | [], _, _ => return none
  | e :: alternatives, lead, c => do
    match ← e.eval s lead c with
    | some stop => return some stop
    | none =>
      Matching.truncate mark
      evalChoice s mark alternatives lead c

end

/-! ## Rules -/

namespace Grammar

/-- Runs the skip rule, given how rules are called.  Where it fails nothing is skipped, and while it
is being run it does nothing. -/
def runSkip (g : Grammar) (call : RuleId → Cursor → Matching (Option Cursor)) (c : Cursor) :
    Matching Cursor := do
  match g.skip with
  | none => return c
  | some body =>
    if (← getThe Matcher).skipping then return c
    else
      let mark ← Matching.mark
      -- The flag is set for the body, so the body never skips.
      let inner : Surroundings := ⟨fun c => return c, call⟩
      match ← Matching.between .enterSkip .leaveSkip (body.eval inner false c) with
      | some stop => return stop
      | none =>
        Matching.truncate mark
        return c

/-- The surroundings of the body of a rule, given how rules are called from it. -/
def surroundings (g : Grammar) (call : RuleId → Cursor → Matching (Option Cursor)) :
    Surroundings where
  skip := g.runSkip call
  call := call

/-- Calls a rule while so many nested calls are left.  An id without a rule fails. -/
def run (g : Grammar) : Nat → RuleId → Cursor → Matching (Option Cursor)
  | 0, id, c => Matching.overflow ⟨c.offset, id⟩
  | left + 1, id, c =>
    match g.rules[id]? with
    | none => return none
    | some r =>
      Matching.between (.enterRule id) .leaveRule
        (r.body.eval (g.surroundings (g.run left)) false c)

end Grammar

end PegTree
