import PegTree.Proofs.Grammar.Analysis

/-!
# Grammars up to the spans of their names

Where the names of its rules are written is all that a grammar keeps of the layout of its text.  The search
for left recursion looks only at the bodies, so it finds the same cycle without the spans.
-/

namespace PegTree

/-- A rule without the place of its name. -/
def Rule.unspanned (r : Rule) : Rule :=
  { r with nameSpan := ⟨0, 0⟩ }

namespace Grammar

/-- A grammar without the places of its names. -/
def unspanned (g : Grammar) : Grammar :=
  { g with rules := g.rules.map Rule.unspanned }

variable (g : Grammar)

@[simp]
theorem size_unspanned : g.unspanned.size = g.size :=
  List.length_map _

theorem getElem?_unspanned (id : RuleId) :
    g.unspanned.rules[id]? = g.rules[id]?.map Rule.unspanned :=
  List.getElem?_map

/-- The same cycle is found without the spans. -/
theorem firstCycle?_unspanned : g.unspanned.firstCycle? = g.firstCycle? := by
  have hseen : g.SeenAlike g.unspanned :=
    List.forall₂_map_right_iff.mpr (List.forall₂_same.mpr fun _ _ => ⟨fun _ => rfl, fun _ => rfl⟩)
  exact hseen.firstCycle?_eq

end Grammar

end PegTree
