import PegTree.Grammar.Basic

/-!
# The rules that an expression mentions

A mention is a place in an expression where a rule is called, with or without making a node of its
match.  Which rules a grammar can call and which it can capture is read off its mentions.
-/

namespace PegTree

/-- A place where a rule is called. -/
structure Mention where
  rule : RuleId
  /-- Whether the match becomes a node. -/
  captured : Bool
deriving DecidableEq, Repr

mutual

/-- The mentions of an expression in text order. -/
def Expr.mentions : Expr → List Mention
  | .empty => []
  | .literal _ => []
  | .range _ _ => []
  | .endOfInput => []
  | .rule id => [⟨id, false⟩]
  | .capture id => [⟨id, true⟩]
  | .sequence terms => mentionsOfTerms terms
  | .choice alternatives => mentionsOfAll alternatives
  | .repetition body => body.mentions
  | .optional body => body.mentions
  | .negation body => body.mentions

/-- The mentions of elements. -/
def mentionsOfTerms : List Term → List Mention
  | [] => []
  | ⟨_, e⟩ :: terms => e.mentions ++ mentionsOfTerms terms

/-- The mentions of alternatives. -/
def mentionsOfAll : List Expr → List Mention
  | [] => []
  | e :: alternatives => e.mentions ++ mentionsOfAll alternatives

end

/-- Whether an expression only calls the first `n` rules. -/
def Expr.Within (n : Nat) (e : Expr) : Prop :=
  ∀ x ∈ e.mentions, x.rule < n

namespace Grammar

/-- The bodies of all rules, that of the skip rule included. -/
def bodies (g : Grammar) : List Expr :=
  g.rules.map Rule.body ++ g.skip.toList

/-- Whether every rule that a body calls is there. -/
def Resolved (g : Grammar) : Prop :=
  ∀ e ∈ g.bodies, e.Within g.size

/-- Whether some body makes a node of the rule. -/
def Captures (g : Grammar) (id : RuleId) : Prop :=
  ∃ e ∈ g.bodies, ⟨id, true⟩ ∈ e.mentions

theorem exists_rule {g : Grammar} {id : RuleId} (h : id < g.size) : ∃ r, g.rules[id]? = some r :=
  ⟨_, List.getElem?_eq_getElem h⟩

theorem body_mem_bodies {g : Grammar} {id : RuleId} {r : Rule} (h : g.rules[id]? = some r) :
    r.body ∈ g.bodies := by
  refine List.mem_append_left _ (List.mem_map_of_mem ?_)
  exact List.mem_of_getElem? h

theorem skip_mem_bodies {g : Grammar} {e : Expr} (h : g.skip = some e) : e ∈ g.bodies := by
  simp [bodies, h]

end Grammar

end PegTree
