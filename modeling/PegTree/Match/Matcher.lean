import PegTree.Match.Furthest
import PegTree.Tree.Basic

/-!
# The state of a parse

All calls of one parse share a `Matcher`: the rules that are active, whether the skip rule is being
run, how many lookaheads and skips are around, and the furthest failure.  Captured nodes go onto a
child list that is handed on from call to call; whoever gives up on a branch cuts the list back to the
length that it had before.

A `Matching` computation works on both.  It ends early where rules are nested too deep; the child list
is then lost and the matcher stays.
-/

namespace PegTree

/-- What all calls of one parse share. -/
structure Matcher where
  /-- The rules that are being matched, the innermost first. -/
  stack : List RuleId
  /-- Whether the skip rule is being run. -/
  skipping : Bool
  /-- How many lookaheads and runs of the skip rule are around; misses inside them do not count. -/
  quiet : Nat
  furthest : Furthest
deriving DecidableEq, Repr

namespace Matcher

/-- The state before anything is matched. -/
def initial : Matcher :=
  ⟨[], false, 0, .nothing⟩

/-- A rule begins. -/
def enterRule (id : RuleId) (m : Matcher) : Matcher :=
  { m with stack := id :: m.stack }

/-- The innermost rule ends. -/
def leaveRule (m : Matcher) : Matcher :=
  { m with stack := m.stack.tail }

/-- A lookahead begins. -/
def enterLookahead (m : Matcher) : Matcher :=
  { m with quiet := m.quiet + 1 }

/-- A lookahead ends. -/
def leaveLookahead (m : Matcher) : Matcher :=
  { m with quiet := m.quiet - 1 }

/-- The skip rule begins. -/
def enterSkip (m : Matcher) : Matcher :=
  { m with skipping := true, quiet := m.quiet + 1 }

/-- The skip rule ends. -/
def leaveSkip (m : Matcher) : Matcher :=
  { m with skipping := false, quiet := m.quiet - 1 }

/-- Something is expected in vain. -/
def note (c : Cursor) (e : Expectation) (m : Matcher) : Matcher :=
  if m.quiet = 0 then
    { m with furthest := m.furthest.note ⟨c.offset, e.describe, m.stack.head?⟩ }
  else m

end Matcher

/-- A computation on the child list and the matcher. -/
abbrev Matching :=
  StateT (Array Tree) (ExceptT Overflow (StateM Matcher))

namespace Matching

variable {α : Type}

/-- Runs a computation on a child list and a matcher. -/
def runOn (x : Matching α) (out : Array Tree) (m : Matcher) :
    Except Overflow (α × Array Tree) × Matcher :=
  ((x.run out).run).run m

/-- The length of the child list. -/
def mark : Matching Nat := do
  return (← get).size

/-- Cuts the child list back. -/
def truncate (mark : Nat) : Matching Unit :=
  modify fun out => out.shrink mark

/-- Puts a node behind the child list. -/
def push (t : Tree) : Matching Unit :=
  modify fun out => out.push t

/-- Runs `x` on a child list of its own and returns that too. -/
def apart (x : Matching α) : Matching (α × Array Tree) := fun out => do
  let (a, own) ← x.run #[]
  return ((a, own), out)

/-- Runs `x` between two changes of the matcher; the second is made even if `x` ends early. -/
def between (enter leave : Matcher → Matcher) (x : Matching α) : Matching α := fun out =>
  ExceptT.mk do
    modify enter
    let answer ← (x.run out).run
    modify leave
    return answer

/-- Ends early. -/
def overflow (o : Overflow) : Matching α := fun _ =>
  throw o

/-- A terminal that fails. -/
def fail (c : Cursor) (e : Expectation) : Matching (Option Cursor) := fun out => do
  modifyThe Matcher (·.note c e)
  return (none, out)

/-! ## What a computation does to a child list and a matcher -/

variable {β : Type} {out : Array Tree} {m : Matcher}

@[simp]
theorem runOn_pure (a : α) : (pure a : Matching α).runOn out m = (.ok (a, out), m) := rfl

theorem runOn_bind (x : Matching α) (f : α → Matching β) :
    (x >>= f).runOn out m =
      match x.runOn out m with
      | (.ok (a, out), m) => (f a).runOn out m
      | (.error o, m) => (.error o, m) := by
  simp only [runOn, StateT.run_bind, ExceptT.run_bind]
  rcases h : ((x.run out).run).run m with ⟨⟨⟩ | ⟨⟨⟩⟩, m'⟩ <;> simp_all <;> rfl

/-- Goes on from a computation that ends with a value. -/
theorem runOn_bind_ok {x : Matching α} {a : α} {out' : Array Tree} {m' : Matcher}
    (h : x.runOn out m = (.ok (a, out'), m')) (f : α → Matching β) :
    (x >>= f).runOn out m = (f a).runOn out' m' := by
  rw [runOn_bind, h]

/-- Nothing goes on from a computation that ends early. -/
theorem runOn_bind_error {x : Matching α} {o : Overflow} (h : (x.runOn out m).1 = .error o)
    (f : α → Matching β) : ((x >>= f).runOn out m).1 = .error o := by
  rw [runOn_bind]
  rcases hx : x.runOn out m with ⟨⟨⟩ | ⟨⟨⟩⟩, m'⟩ <;> simp_all

theorem runOn_map (f : α → β) (x : Matching α) :
    (f <$> x).runOn out m =
      match x.runOn out m with
      | (.ok (a, out), m) => (.ok (f a, out), m)
      | (.error o, m) => (.error o, m) := by
  rw [map_eq_pure_bind, runOn_bind]
  rfl

@[simp]
theorem runOn_mark : mark.runOn out m = (.ok (out.size, out), m) := rfl

@[simp]
theorem runOn_truncate (n : Nat) :
    (truncate n).runOn out m = (.ok ((), out.shrink n), m) := rfl

@[simp]
theorem runOn_push (t : Tree) : (push t).runOn out m = (.ok ((), out.push t), m) := rfl

@[simp]
theorem runOn_getMatcher : (getThe Matcher : Matching Matcher).runOn out m = (.ok (m, out), m) := rfl

theorem runOn_apart (x : Matching α) :
    (apart x).runOn out m =
      match x.runOn #[] m with
      | (.ok (a, own), m) => (.ok ((a, own), out), m)
      | (.error o, m) => (.error o, m) := by
  rcases h : x.runOn #[] m with ⟨⟨⟩ | ⟨⟨⟩⟩, m'⟩ <;>
    simp only [runOn, apart, StateT.run, ExceptT.run] at h ⊢ <;>
    simp [bind, ExceptT.bind, ExceptT.mk, StateT.bind, h] <;> rfl

theorem runOn_between (enter leave : Matcher → Matcher) (x : Matching α) :
    (between enter leave x).runOn out m =
      ((x.runOn out (enter m)).1, leave (x.runOn out (enter m)).2) := rfl

@[simp]
theorem runOn_overflow (o : Overflow) :
    (overflow o : Matching α).runOn out m = (.error o, m) := rfl

@[simp]
theorem runOn_fail (c : Cursor) (e : Expectation) :
    (fail c e).runOn out m = (.ok (none, out), m.note c e) := rfl

end Matching

end PegTree
