import PegTree.Grammar.Nullable

/-!
# Left recursion

A rule that calls itself before any input is consumed would never come to an end.  The leading calls
of a body are the rules that it may call at the place where it starts; they are the edges of a graph
on the rules, and a grammar is refused if that graph has a cycle.

`firstCycle?` looks for one depth first, from each rule in declaration order, and remembers the rules
from which no cycle can be reached.
-/

namespace PegTree

mutual

/-- The rules that an expression may call at the place where it starts, in the order of their
mention. -/
def Expr.leadingCalls (known : RuleId → Bool) : Expr → List RuleId
  | .empty => []
  | .literal _ => []
  | .range _ _ => []
  | .endOfInput => []
  | .rule id => [id]
  | .capture id => [id]
  | .sequence terms => leadingOfTerms known terms
  | .choice alternatives => leadingOfAlternatives known alternatives
  | .repetition body => body.leadingCalls known
  | .optional body => body.leadingCalls known
  | .negation body => body.leadingCalls known

/-- The leading calls of the elements up to the first that must consume something. -/
def leadingOfTerms (known : RuleId → Bool) : List Term → List RuleId
  | [] => []
  | ⟨_, e⟩ :: terms =>
    e.leadingCalls known ++ (if e.nullable known then leadingOfTerms known terms else [])

/-- The leading calls of all alternatives. -/
def leadingOfAlternatives (known : RuleId → Bool) : List Expr → List RuleId
  | [] => []
  | e :: alternatives => e.leadingCalls known ++ leadingOfAlternatives known alternatives

end

/-! ## The search -/

/-- The part of the path from `id` on, closed by `id`.  The path has its newest rule in front. -/
def closeCycle (path : List RuleId) (id : RuleId) : List RuleId :=
  id :: ((path.takeWhile (· != id)).reverse ++ [id])

/-- Walks on from `id`.  `done` are the rules from which no cycle can be reached; the walk returns
them with those that it has settled itself, or else the cycle it has met.  A path never holds a rule
twice, so a bound above the number of rules is never used up. -/
def searchCycle (calls : RuleId → List RuleId) :
    Nat → (path done : List RuleId) → RuleId → Except (List RuleId) (List RuleId)
  | 0, _, done, _ => .ok done
  | bound + 1, path, done, id =>
    if done.contains id then .ok done
    else if path.contains id then .error (closeCycle path id)
    else
      -- the rule is settled when all that it leads to is
      match (calls id).foldlM (fun done next => searchCycle calls bound (id :: path) done next)
        done with
      | .ok done => .ok (id :: done)
      | .error cycle => .error cycle

namespace Grammar

/-- The rules that a rule may call before it has consumed anything. -/
def leadingCalls (g : Grammar) (table : NullableTable) (id : RuleId) : List RuleId :=
  (g.rules[id]?.map fun r => r.body.leadingCalls table.knows).getD []

/-- The first cycle of leading calls that is found from the rules in declaration order; its last
rule is its first again. -/
def firstCycle? (g : Grammar) : Option (List RuleId) :=
  let table := g.nullableTable
  let edges := (List.range g.size).map (g.leadingCalls table)
  let calls := fun id => edges[id]?.getD []
  match (List.range g.size).foldlM (searchCycle calls (g.size + 1) []) [] with
  | .ok _ => none
  | .error cycle => some cycle

end Grammar

end PegTree
