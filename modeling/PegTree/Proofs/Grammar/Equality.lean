import PegTree.Grammar.Compile
import PegTree.Proofs.Except

/-!
# Equality of grammars can be decided

Expressions are compared part by part, so that what a text compiles to can be computed and compared, as
it is for `pairText`.
-/

namespace PegTree

mutual

/-- Whether two expressions are built alike. -/
def Expr.same : Expr → Expr → Bool
  | .empty, .empty => true
  | .literal s, .literal t => s == t
  | .range low high, .range low' high' => low == low' && high == high'
  | .endOfInput, .endOfInput => true
  | .rule id, .rule id' => id == id'
  | .capture id, .capture id' => id == id'
  | .sequence terms, .sequence terms' => sameTerms terms terms'
  | .choice es, .choice es' => sameAll es es'
  | .repetition e, .repetition e' => e.same e'
  | .optional e, .optional e' => e.same e'
  | .negation e, .negation e' => e.same e'
  | _, _ => false

/-- Whether two lists of elements are built alike. -/
def sameTerms : List Term → List Term → Bool
  | [], [] => true
  | ⟨a, e⟩ :: terms, ⟨a', e'⟩ :: terms' => a == a' && e.same e' && sameTerms terms terms'
  | _, _ => false

/-- Whether two lists of alternatives are built alike. -/
def sameAll : List Expr → List Expr → Bool
  | [], [] => true
  | e :: es, e' :: es' => e.same e' && sameAll es es'
  | _, _ => false

end

mutual

theorem Expr.same_iff : ∀ a b : Expr, a.same b = true ↔ a = b
  | .empty, b => by cases b <;> simp [Expr.same]
  | .literal s, b => by cases b <;> simp [Expr.same]
  | .range low high, b => by cases b <;> simp [Expr.same]
  | .endOfInput, b => by cases b <;> simp [Expr.same]
  | .rule id, b => by cases b <;> simp [Expr.same]
  | .capture id, b => by cases b <;> simp [Expr.same]
  | .sequence terms, b => by cases b <;> simp [Expr.same, sameTerms_iff terms]
  | .choice es, b => by cases b <;> simp [Expr.same, sameAll_iff es]
  | .repetition e, b => by cases b <;> simp [Expr.same, Expr.same_iff e]
  | .optional e, b => by cases b <;> simp [Expr.same, Expr.same_iff e]
  | .negation e, b => by cases b <;> simp [Expr.same, Expr.same_iff e]

theorem sameTerms_iff : ∀ a b : List Term, sameTerms a b = true ↔ a = b
  | [], b => by cases b <;> simp [sameTerms]
  | ⟨_, e⟩ :: terms, b => by
    rcases b with _ | ⟨⟨_, _⟩, terms'⟩ <;>
      simp [sameTerms, Expr.same_iff e, sameTerms_iff terms]

theorem sameAll_iff : ∀ a b : List Expr, sameAll a b = true ↔ a = b
  | [], b => by cases b <;> simp [sameAll]
  | e :: es, b => by cases b <;> simp [sameAll, Expr.same_iff e, sameAll_iff es]

end

instance : DecidableEq Expr := fun a b => decidable_of_iff _ (Expr.same_iff a b)

deriving instance DecidableEq for Rule
deriving instance DecidableEq for Grammar

/-- A grammar with a skip rule, and a rule whose first alternative captures something before it may
fail. -/
def pairText : Source :=
  ⟨"pair", "= \x7b' '\x7d; a = @b 'x' | @b 'y'; b = 'b';"⟩

/-- What `pairText` compiles to. -/
def pairGrammar : Grammar where
  rules :=
    [⟨"a", .choice [
        .sequence [⟨false, .capture 1⟩, ⟨false, .literal "x"⟩],
        .sequence [⟨false, .capture 1⟩, ⟨false, .literal "y"⟩]], ⟨9, 10⟩⟩,
      ⟨"b", .literal "b", ⟨30, 31⟩⟩]
  skip := some (.repetition (.literal " "))

theorem compile_pairText : Grammar.compile pairText = .ok pairGrammar :=
  toOption_eq_some_iff.mp (by decide +kernel)

end PegTree
