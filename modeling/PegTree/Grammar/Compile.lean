import PegTree.Grammar.LeftRecursion
import PegTree.Notation.Reader
import PegTree.Notation.Resolve

/-!
# Compiling a grammar text

A text becomes a grammar in four steps, and the first step that fails is the answer: the text is read,
no name is defined twice, every body is resolved, and no rule is left-recursive.
-/

namespace PegTree

namespace Grammar

/-- The grammar of resolved definitions. -/
def ofResolved (definitions : List (Definition × Expr)) : Grammar where
  rules := definitions.filterMap fun (d, body) =>
    d.name.map fun n => ⟨n.text, body, n.span⟩
  skip := (definitions.find? fun (d, _) => d.name.isNone).map Prod.snd

/-- Refuses definitions of which two have one name, or two have none. -/
def checkDistinct (definitions : List Definition) : Except GrammarFault Unit :=
  match firstDuplicate? [] definitions with
  | none => .ok ()
  | some (again, first) => .error (.duplicateRule again.key again.mark first.mark)

/-- Refuses a grammar with a left-recursive rule. -/
def checkLeftRecursion (g : Grammar) : Except GrammarFault Unit :=
  match g.firstCycle? with
  | none => .ok ()
  | some cycle =>
    let span := (cycle.head?.bind fun id => g.rules[id]?.map Rule.nameSpan).getD ⟨0, 0⟩
    .error (.leftRecursion (cycle.map g.name) span)

/-- Refuses a text that does not follow the notation. -/
def read (text : List Char) : Except GrammarFault (List Definition) :=
  match readDefinitions text with
  | .ok definitions => .ok definitions
  | .error attempts => .error (.unreadable attempts)

/-- The grammar of a text, or the fault for which it is refused. -/
def ofText (text : List Char) : Except GrammarFault Grammar := do
  let definitions ← read text
  checkDistinct definitions
  let resolved ← resolveAll (definitions.filterMap Definition.key) definitions
  let g := ofResolved resolved
  checkLeftRecursion g
  .ok g

/-- The grammar of a source. -/
def compile (source : Source) : Except GrammarError Grammar :=
  match ofText source.text.toList with
  | .ok g => .ok g
  | .error fault => .error (.refused source fault)

end Grammar

end PegTree
