import PegTree.Proofs.Parser.StandIn

/-!
# Marks of adjacency without a skip rule

A mark of adjacency says that the skip rule does not run in front of an element.  Where nothing is
skipped, whether an expression is in leading position makes no difference (`Expr.outcome_lead`), so the
marks may be cleared, and a sequence of one element, written only for its mark, may be that element.

A grammar without a skip rule, with its marks cleared, stands in for the one before
(`marks_idle_of_unskipped`).
-/

namespace PegTree

/-! ## Clearing marks -/

mutual

/-- The expression without marks. -/
def Expr.unmarked : Expr → Expr
  | .empty => .empty
  | .literal text => .literal text
  | .range low high => .range low high
  | .endOfInput => .endOfInput
  | .rule id => .rule id
  | .capture id => .capture id
  | .sequence terms => sequenceExpr (unmarkedTerms terms)
  | .choice alternatives => .choice (unmarkedAll alternatives)
  | .repetition body => .repetition body.unmarked
  | .optional body => .optional body.unmarked
  | .negation body => .negation body.unmarked

/-- The elements without marks, on them and inside them. -/
def unmarkedTerms : List Term → List Term
  | [] => []
  | ⟨_, e⟩ :: terms => ⟨false, e.unmarked⟩ :: unmarkedTerms terms

/-- The alternatives without marks. -/
def unmarkedAll : List Expr → List Expr
  | [] => []
  | e :: alternatives => e.unmarked :: unmarkedAll alternatives

end

/-- The rule without marks. -/
def Rule.unmarked (r : Rule) : Rule :=
  { r with body := r.body.unmarked }

/-- The grammar without marks. -/
def Grammar.unmarked (g : Grammar) : Grammar where
  rules := g.rules.map Rule.unmarked
  skip := g.skip.map Expr.unmarked

/-! ## Leading position -/

/-- Frames in which nothing is skipped. -/
def Frame.Unskipped (f : Frame) : Prop :=
  ∀ c, f.skip c = .stay c

section

variable {f : Frame}

theorem Frame.leading_eq (hf : f.Unskipped) (lead : Bool) (c : Cursor) (next : Cursor → Outcome) :
    f.leading lead c next = next c := by
  cases lead with
  | false => rfl
  | true =>
    show (f.skip c).andThen next = next c
    rw [hf c, Outcome.stay_andThen]

mutual

/-- Where nothing is skipped, leading position makes no difference. -/
theorem Expr.outcome_lead (hf : f.Unskipped) : ∀ (e : Expr) (lead : Bool) (c : Cursor),
    e.outcome f lead c = e.outcome f false c
  | .empty, lead, c | .literal _, lead, c | .range _ _, lead, c | .endOfInput, lead, c
  | .rule _, lead, c | .capture _, lead, c => by
    simp only [Expr.outcome, Frame.leading_eq hf]
  | .sequence terms, lead, c => sequenceOutcome_lead hf terms lead c
  | .choice alternatives, lead, c => choiceOutcome_lead hf alternatives lead c
  | .repetition body, lead, c => by
    -- the rounds behind the first are in leading position anyway
    simp only [Expr.outcome]
    cases c.rest <;> simp only [Outcome.iterate, body.outcome_lead hf lead c]
  | .optional body, lead, c => by simp only [Expr.outcome, body.outcome_lead hf lead c]
  | .negation _, _, _ => rfl

theorem sequenceOutcome_lead (hf : f.Unskipped) : ∀ (terms : List Term) (lead : Bool) (c : Cursor),
    sequenceOutcome f terms lead c = sequenceOutcome f terms false c
  | [], _, _ => rfl
  | ⟨adjacent, e⟩ :: terms, lead, c => by
    simp only [sequenceOutcome, Bool.false_and, e.outcome_lead hf (lead && !adjacent) c]

theorem choiceOutcome_lead (hf : f.Unskipped) :
    ∀ (alternatives : List Expr) (lead : Bool) (c : Cursor),
      choiceOutcome f alternatives lead c = choiceOutcome f alternatives false c
  | [], _, _ => rfl
  | e :: alternatives, lead, c => by
    simp only [choiceOutcome, e.outcome_lead hf lead c, choiceOutcome_lead hf alternatives lead c]

end

end

/-! ## Expressions without marks -/

/-- The mark of the first element may be cleared. -/
theorem Expr.alike_mark (adjacent : Bool) (e : Expr) (terms : List Term) :
    (sequence (⟨adjacent, e⟩ :: terms)).Alike Frame.Unskipped (sequence (⟨false, e⟩ :: terms)) where
  outcome hf lead c := by
    simp only [Expr.outcome, sequenceOutcome]
    rw [e.outcome_lead hf, e.outcome_lead hf (lead && !adjacent)]
  nullable _ := rfl
  leadingCalls _ := rfl

/-- A sequence of one element may be that element. -/
theorem Expr.alike_single (adjacent : Bool) (e : Expr) :
    (sequence [⟨adjacent, e⟩]).Alike Frame.Unskipped e where
  outcome {f} hf lead c := by
    simp only [Expr.outcome, sequenceOutcome, Outcome.andThen_stay]
    rw [e.outcome_lead hf, e.outcome_lead hf (lead && !adjacent)]
  nullable known := by simp only [Expr.nullable, allNullable, Bool.and_true]
  leadingCalls known := by
    simp only [Expr.leadingCalls, leadingOfTerms, ite_self, List.append_nil]

theorem Expr.alike_sequenceExpr (terms : List Term) :
    (sequence terms).Alike Frame.Unskipped (sequenceExpr terms) := by
  unfold sequenceExpr
  split
  · exact Expr.alike_single _ _
  · exact .refl _

mutual

/-- Without its marks an expression does the same where nothing is skipped. -/
theorem Expr.alike_unmarked : ∀ e : Expr, e.Alike Frame.Unskipped e.unmarked
  | .empty => .refl .empty
  | .literal text => .refl (.literal text)
  | .range low high => .refl (.range low high)
  | .endOfInput => .refl .endOfInput
  | .rule id => .refl (.rule id)
  | .capture id => .refl (.capture id)
  | .sequence terms => (alike_unmarkedTerms terms).trans (Expr.alike_sequenceExpr _)
  | .choice alternatives => alike_unmarkedAll alternatives
  | .repetition body => body.alike_unmarked.repetition
  | .optional body => body.alike_unmarked.optional
  | .negation body => body.alike_unmarked.negation

theorem alike_unmarkedTerms : ∀ terms : List Term,
    (Expr.sequence terms).Alike Frame.Unskipped (.sequence (unmarkedTerms terms))
  | [] => .refl _
  | ⟨adjacent, e⟩ :: terms =>
    (Expr.alike_mark adjacent e terms).trans <|
      (e.alike_unmarked.element false terms).trans <|
        (alike_unmarkedTerms terms).behind ⟨false, e.unmarked⟩

theorem alike_unmarkedAll : ∀ alternatives : List Expr,
    (Expr.choice alternatives).Alike Frame.Unskipped (.choice (unmarkedAll alternatives))
  | [] => .refl _
  | e :: alternatives =>
    (e.alike_unmarked.alternative alternatives).trans <|
      (alike_unmarkedAll alternatives).otherwise e.unmarked

end

/-! ## Well-formed expressions -/

section

variable {n : Nat}

theorem wellFormed_sequenceExpr {terms : List Term} (hterms : terms ≠ [])
    (h : WellFormedTerms n terms) : (sequenceExpr terms).WellFormed n := by
  unfold sequenceExpr
  split
  · exact h.1
  · rename_i hsingle
    -- a single element that is not marked has been dealt with
    refine ⟨hterms, fun t ht => ?_, h⟩
    obtain ⟨_ | _, e⟩ := t
    · exact absurd ht (hsingle e)
    · rfl

theorem length_unmarkedAll (alternatives : List Expr) :
    (unmarkedAll alternatives).length = alternatives.length := by
  induction alternatives with
  | nil => rfl
  | cons e alternatives ih => rw [unmarkedAll, List.length_cons, List.length_cons, ih]

theorem unmarkedTerms_ne_nil {terms : List Term} (h : terms ≠ []) : unmarkedTerms terms ≠ [] := by
  obtain ⟨⟨adjacent, e⟩, terms, rfl⟩ := List.exists_cons_of_ne_nil h
  exact List.cons_ne_nil _ _

mutual

/-- Without its marks an expression can be written as before. -/
theorem Expr.wellFormed_unmarked : ∀ e : Expr, e.WellFormed n → e.unmarked.WellFormed n
  | .empty, h | .literal _, h | .range _ _, h | .endOfInput, h | .rule _, h | .capture _, h => h
  | .sequence terms, ⟨hterms, _, h⟩ =>
    wellFormed_sequenceExpr (unmarkedTerms_ne_nil hterms) (wellFormedTerms_unmarked terms h)
  | .choice alternatives, ⟨hlength, h⟩ =>
    ⟨(length_unmarkedAll alternatives).symm ▸ hlength, wellFormedAll_unmarked alternatives h⟩
  | .repetition body, h | .optional body, h | .negation body, h => body.wellFormed_unmarked h

theorem wellFormedTerms_unmarked : ∀ terms : List Term, WellFormedTerms n terms →
    WellFormedTerms n (unmarkedTerms terms)
  | [], _ => trivial
  | ⟨_, e⟩ :: terms, ⟨hfirst, h⟩ => ⟨e.wellFormed_unmarked hfirst, wellFormedTerms_unmarked terms h⟩

theorem wellFormedAll_unmarked : ∀ alternatives : List Expr, WellFormedAll n alternatives →
    WellFormedAll n (unmarkedAll alternatives)
  | [], _ => trivial
  | e :: alternatives, ⟨hfirst, h⟩ =>
    ⟨e.wellFormed_unmarked hfirst, wellFormedAll_unmarked alternatives h⟩

end

end

/-! ## Grammars -/

namespace Grammar

variable {g : Grammar}

/-- Without a skip rule nothing is skipped anywhere. -/
theorem runsIn_unskipped (hskip : g.skip = none) : g.RunsIn Frame.Unskipped where
  frame call mode rule c := by
    show g.skipOutcome call mode c = .stay c
    unfold skipOutcome
    rw [hskip]
    cases mode <;> rfl
  inner _ _ := rfl

theorem alike_unmarked (hskip : g.skip = none) : g.Alike Frame.Unskipped g.unmarked where
  rules := List.forall₂_map_right_iff.mpr <|
    List.forall₂_same.mpr fun r _ => ⟨rfl, r.body.alike_unmarked⟩
  skip := by
    rw [unmarked, hskip]
    exact .none

theorem wellFormed_bodies_unmarked (h : ∀ e ∈ g.bodies, e.WellFormed g.size) :
    ∀ e ∈ g.unmarked.bodies, e.WellFormed g.unmarked.size := by
  have hbodies : g.unmarked.bodies = g.bodies.map Expr.unmarked := by
    simp only [bodies, unmarked, List.map_append, List.map_map, Option.toList_map]
    rfl
  have hsize : g.unmarked.size = g.size := List.length_map _
  rw [hbodies, hsize]
  exact List.forall_mem_map.mpr fun e he => e.wellFormed_unmarked (h e he)

end Grammar

/-- A grammar without a skip rule that compiles, with all its marks of adjacency cleared, stands in for
the one that has the marks: it is accepted, the same rules may match nothing, and every text is answered
in the same way. -/
theorem marks_idle_of_unskipped {source : Source} {g : Grammar}
    (hcompile : Grammar.compile source = .ok g) (hskip : g.skip = none) :
    g.unmarked.StandsInFor g := by
  have hwell := Grammar.wellFormed_of_compile hcompile
  exact (Grammar.alike_unmarked hskip).standsInFor (Grammar.runsIn_unskipped hskip) hwell
    (Grammar.wellFormed_bodies_unmarked hwell.bodies)

/-- A grammar without a skip rule in which elements are marked, and a sequence is written for its mark. -/
def markedText : Source :=
  ⟨"number", "number = #'-' | #digit \x7b#digit\x7d; digit = '0'..'9';"⟩

/-- What `markedText` compiles to. -/
def markedGrammar : Grammar where
  rules :=
    [⟨"number", .choice [
        .sequence [⟨true, .literal "-"⟩],
        .sequence [⟨true, .rule 1⟩, ⟨false, .repetition (.sequence [⟨true, .rule 1⟩])⟩]], ⟨0, 6⟩⟩,
      ⟨"digit", .range '0' '9', ⟨33, 38⟩⟩]
  skip := none

theorem marks_idle_of_unskipped_number :
    Grammar.compile markedText = .ok markedGrammar ∧ markedGrammar.skip = none ∧
      markedGrammar.unmarked.rules.map Rule.body =
        [.choice [.literal "-", .sequence [⟨false, .rule 1⟩, ⟨false, .repetition (.rule 1)⟩]],
          .range '0' '9'] ∧
      markedGrammar.unmarked.StandsInFor markedGrammar := by
  have hcompile : Grammar.compile markedText = .ok markedGrammar :=
    toOption_eq_some_iff.mp (by decide +kernel)
  exact ⟨hcompile, rfl, rfl, marks_idle_of_unskipped hcompile rfl⟩

end PegTree
