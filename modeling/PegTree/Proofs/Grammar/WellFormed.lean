import PegTree.Proofs.Grammar.Cycle
import PegTree.Proofs.Grammar.Mention

/-!
# Well-formed grammars

What can be said of a grammar without asking where it comes from: its names are distinct identifiers, its
bodies only have parts that can be written, mention rules that are there, and hold no sequence or choice
that stands for its only part, and no rule leads back to itself.
-/

namespace PegTree

/-! ## Identifiers -/

/-- A letter or an underscore. -/
def IsLetter (x : Char) : Prop :=
  ('A' ≤ x ∧ x ≤ 'Z') ∨ ('a' ≤ x ∧ x ≤ 'z') ∨ x = '_'

/-- A decimal digit. -/
def IsDigit (x : Char) : Prop :=
  '0' ≤ x ∧ x ≤ '9'

/-- A letter, and behind it letters and digits. -/
def Identifier (name : String) : Prop :=
  ∃ x xs, name.toList = x :: xs ∧ IsLetter x ∧ ∀ y ∈ xs, IsLetter y ∨ IsDigit y

/-- No character of a name comes before the digits. -/
theorem Identifier.le_toNat {name : String} (h : Identifier name) {x : Char} (hx : x ∈ name.toList) :
    0x30 ≤ x.toNat := by
  have hletter : ∀ {y : Char}, IsLetter y → 0x30 ≤ y.toNat := by
    intro y hy
    obtain ⟨hA, -⟩ | ⟨ha, -⟩ | rfl := hy
    · have hle : 'A'.toNat ≤ y.toNat := hA
      exact Nat.le_trans (by decide) hle
    · have hle : 'a'.toNat ≤ y.toNat := ha
      exact Nat.le_trans (by decide) hle
    · decide
  obtain ⟨first, more, hname, hfirst, hmore⟩ := h
  rw [hname, List.mem_cons] at hx
  rcases hx with rfl | hx
  · exact hletter hfirst
  · exact (hmore x hx).elim hletter fun hdigit => hdigit.1

/-! ## Expressions -/

mutual

/-- Expressions of a grammar with `n` rules. -/
def Expr.WellFormed (n : Nat) : Expr → Prop
  | .empty => True
  | .literal text => text ≠ "" ∧ ¬ ('\'' ∈ text.toList ∧ '"' ∈ text.toList)
  | .range low high => low ≤ high
  | .endOfInput => True
  | .rule id => id < n
  | .capture id => id < n
  | .sequence terms => terms ≠ [] ∧ (∀ t, terms = [t] → t.adjacent = true) ∧ WellFormedTerms n terms
  | .choice alternatives => 2 ≤ alternatives.length ∧ WellFormedAll n alternatives
  | .repetition body => body.WellFormed n
  | .optional body => body.WellFormed n
  | .negation body => body.WellFormed n

/-- Elements of a grammar with `n` rules. -/
def WellFormedTerms (n : Nat) : List Term → Prop
  | [] => True
  | ⟨_, e⟩ :: terms => e.WellFormed n ∧ WellFormedTerms n terms

/-- Alternatives of a grammar with `n` rules. -/
def WellFormedAll (n : Nat) : List Expr → Prop
  | [] => True
  | e :: alternatives => e.WellFormed n ∧ WellFormedAll n alternatives

end

/-! ## Grammars -/

/-- Grammars that some text describes. -/
structure Grammar.WellFormed (g : Grammar) : Prop where
  names : (g.rules.map Rule.name).Nodup
  identifiers : ∀ name ∈ g.rules.map Rule.name, Identifier name
  bodies : ∀ e ∈ g.bodies, e.WellFormed g.size
  acyclic : ¬ g.Cyclic

end PegTree
