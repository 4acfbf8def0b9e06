import PegTree.Proofs.Parser.StandIn

/-!
# Groups are transparent

An element of a sequence may be a sequence itself, and an alternative of a choice a choice.  Such a group
may as well be taken apart: its own elements or alternatives then stand in its place.  The first of these
elements is marked as adjacent if it or the group was, so it is in leading position exactly if it was
before; those behind it are in leading position in both places.

So taking a group apart at any place of any body gives a grammar that stands in for the one before
(`grouping_transparent`).  What ungrouping does is said of one group at a time.
-/

namespace PegTree

/-- Takes one group apart, at any place.  Sequences without elements, which would leave the position of
what comes behind open, are not written. -/
inductive Expr.Ungroups : Expr → Expr → Prop
  | element {before after inner : List Term} {adjacent : Bool} {t : Term} :
      Ungroups (.sequence (before ++ ⟨adjacent, .sequence (t :: inner)⟩ :: after))
        (.sequence (before ++ ⟨adjacent || t.adjacent, t.expr⟩ :: (inner ++ after)))
  | alternative {before after inner : List Expr} :
      Ungroups (.choice (before ++ .choice inner :: after)) (.choice (before ++ (inner ++ after)))
  | inElement {before after : List Term} {adjacent : Bool} {e e' : Expr} :
      Ungroups e e' →
      Ungroups (.sequence (before ++ ⟨adjacent, e⟩ :: after))
        (.sequence (before ++ ⟨adjacent, e'⟩ :: after))
  | inAlternative {before after : List Expr} {e e' : Expr} :
      Ungroups e e' → Ungroups (.choice (before ++ e :: after)) (.choice (before ++ e' :: after))
  | inRepetition {e e' : Expr} : Ungroups e e' → Ungroups (.repetition e) (.repetition e')
  | inOptional {e e' : Expr} : Ungroups e e' → Ungroups (.optional e) (.optional e')
  | inNegation {e e' : Expr} : Ungroups e e' → Ungroups (.negation e) (.negation e')

/-- Takes one group apart in the body of one rule, or in that of the skip rule. -/
inductive Grammar.Ungroups : Grammar → Grammar → Prop
  | rule {before after : List Rule} {r : Rule} {body : Expr} {skip : Option Expr} :
      r.body.Ungroups body →
      Ungroups ⟨before ++ r :: after, skip⟩ ⟨before ++ { r with body } :: after, skip⟩
  | skip {rules : List Rule} {e body : Expr} :
      e.Ungroups body → Ungroups ⟨rules, some e⟩ ⟨rules, some body⟩

/-! ## Elements and alternatives in two parts -/

section

variable {f : Frame} {known : RuleId → Bool}

/-- Elements in leading position go on behind one another. -/
theorem sequenceOutcome_append (terms more : List Term) (c : Cursor) :
    sequenceOutcome f (terms ++ more) true c =
      (sequenceOutcome f terms true c).andThen (sequenceOutcome f more true) := by
  induction terms generalizing c with
  | nil => exact (Outcome.stay_andThen c _).symm
  | cons t terms ih =>
    obtain ⟨adjacent, e⟩ := t
    rw [List.cons_append, sequenceOutcome, sequenceOutcome, Outcome.andThen_assoc, funext ih]

theorem allNullable_append (terms more : List Term) :
    allNullable known (terms ++ more) = (allNullable known terms && allNullable known more) := by
  induction terms with
  | nil => rfl
  | cons t terms ih =>
    obtain ⟨adjacent, e⟩ := t
    rw [List.cons_append, allNullable, allNullable, ih, Bool.and_assoc]

theorem leadingOfTerms_append (terms more : List Term) :
    leadingOfTerms known (terms ++ more) = leadingOfTerms known terms ++
      if allNullable known terms then leadingOfTerms known more else [] := by
  induction terms with
  | nil => rfl
  | cons t terms ih =>
    obtain ⟨adjacent, e⟩ := t
    rw [List.cons_append, leadingOfTerms, leadingOfTerms, ih, allNullable, List.append_assoc]
    cases e.nullable known <;> simp

theorem choiceOutcome_append (alternatives more : List Expr) (lead : Bool) (c : Cursor) :
    choiceOutcome f (alternatives ++ more) lead c =
      (choiceOutcome f alternatives lead c).orElse (choiceOutcome f more lead c) := by
  induction alternatives with
  | nil => exact Outcome.after_nil.symm
  | cons e alternatives ih =>
    rw [List.cons_append, choiceOutcome, choiceOutcome, Outcome.orElse_assoc, ih]

theorem anyNullable_append (alternatives more : List Expr) :
    anyNullable known (alternatives ++ more) =
      (anyNullable known alternatives || anyNullable known more) := by
  induction alternatives with
  | nil => rfl
  | cons e alternatives ih => rw [List.cons_append, anyNullable, anyNullable, ih, Bool.or_assoc]

theorem leadingOfAlternatives_append (alternatives more : List Expr) :
    leadingOfAlternatives known (alternatives ++ more) =
      leadingOfAlternatives known alternatives ++ leadingOfAlternatives known more := by
  induction alternatives with
  | nil => rfl
  | cons e alternatives ih =>
    rw [List.cons_append, leadingOfAlternatives, leadingOfAlternatives, ih, List.append_assoc]

end

/-! ## One group -/

section

variable {kind : Frame → Prop}

/-- A sequence as the first element. -/
theorem Expr.alike_elements (adjacent : Bool) (t : Term) (inner after : List Term) :
    (Expr.sequence (⟨adjacent, .sequence (t :: inner)⟩ :: after)).Alike kind
      (.sequence (⟨adjacent || t.adjacent, t.expr⟩ :: (inner ++ after))) := by
  obtain ⟨marked, e⟩ := t
  refine ⟨fun {f} _ lead c => ?_, fun known => ?_, fun known => ?_⟩
  · -- the first element takes the skip rule in front if neither mark forbids it
    have hlead : (lead && !(adjacent || marked)) = ((lead && !adjacent) && !marked) := by
      cases lead <;> cases adjacent <;> rfl
    simp only [Expr.outcome, sequenceOutcome, hlead, Outcome.andThen_assoc,
      funext (sequenceOutcome_append (f := f) inner after)]
  · simp only [Expr.nullable, allNullable, allNullable_append, Bool.and_assoc]
  · simp only [Expr.leadingCalls, leadingOfTerms, leadingOfTerms_append, Expr.nullable, allNullable]
    by_cases hnullable : e.nullable known = true <;> simp [hnullable]

/-- A choice as the first alternative. -/
theorem Expr.alike_alternatives (inner after : List Expr) :
    (Expr.choice (.choice inner :: after)).Alike kind (.choice (inner ++ after)) := by
  refine ⟨fun {f} _ lead c => ?_, fun known => ?_, fun known => ?_⟩
  · simp only [Expr.outcome, choiceOutcome, choiceOutcome_append]
  · simp only [Expr.nullable, anyNullable, anyNullable_append]
  · simp only [Expr.leadingCalls, leadingOfAlternatives, leadingOfAlternatives_append]

/-- With a group taken apart an expression does the same. -/
theorem Expr.Ungroups.alike {e e' : Expr} (h : e.Ungroups e') : e.Alike kind e' := by
  induction h with
  | element => exact (Expr.alike_elements _ _ _ _).behindAll _
  | alternative => exact (Expr.alike_alternatives _ _).otherwiseAll _
  | inElement _ ih => exact (ih.element _ _).behindAll _
  | inAlternative _ ih => exact (ih.alternative _).otherwiseAll _
  | inRepetition _ ih => exact ih.repetition
  | inOptional _ ih => exact ih.optional
  | inNegation _ ih => exact ih.negation

end

/-! ## Well-formed expressions -/

section

variable {n : Nat}

theorem wellFormedTerms_append {terms more : List Term} :
    WellFormedTerms n (terms ++ more) ↔ WellFormedTerms n terms ∧ WellFormedTerms n more := by
  induction terms with
  | nil => simp [WellFormedTerms]
  | cons t terms ih =>
    obtain ⟨adjacent, e⟩ := t
    simp [WellFormedTerms, ih, and_assoc]

theorem wellFormedAll_append {alternatives more : List Expr} :
    WellFormedAll n (alternatives ++ more) ↔
      WellFormedAll n alternatives ∧ WellFormedAll n more := by
  induction alternatives with
  | nil => simp [WellFormedAll]
  | cons e alternatives ih => simp [WellFormedAll, ih, and_assoc]

/-- With a group taken apart an expression can be written as before. -/
theorem Expr.Ungroups.wellFormed {e e' : Expr} (h : e.Ungroups e') (he : e.WellFormed n) :
    e'.WellFormed n := by
  induction h with
  | @element before after inner adjacent t =>
    obtain ⟨marked, e⟩ := t
    obtain ⟨-, hmark, hterms⟩ := he
    simp only [wellFormedTerms_append, WellFormedTerms, Expr.WellFormed] at hterms
    obtain ⟨hbefore, ⟨-, -, hfirst, hinner⟩, hafter⟩ := hterms
    refine ⟨by simp, fun x hx => ?_, ?_⟩
    · -- what is alone now was alone in a group that was alone
      obtain ⟨rfl, rfl, rfl, rfl⟩ :
          before = [] ∧ ⟨adjacent || marked, e⟩ = x ∧ inner = [] ∧ after = [] := by
        simpa [List.append_eq_singleton_iff] using hx
      have hadjacent : adjacent = true := hmark _ rfl
      simp [hadjacent]
    · simp only [wellFormedTerms_append, WellFormedTerms]
      exact ⟨hbefore, hfirst, hinner, hafter⟩
  | alternative =>
    obtain ⟨hlength, hall⟩ := he
    simp only [wellFormedAll_append, WellFormedAll, Expr.WellFormed] at hall
    obtain ⟨hbefore, ⟨hinner, hall⟩, hafter⟩ := hall
    refine ⟨?_, wellFormedAll_append.mpr ⟨hbefore, wellFormedAll_append.mpr ⟨hall, hafter⟩⟩⟩
    simp only [List.length_append]
    omega
  | @inElement before after adjacent e e' _ ih =>
    obtain ⟨-, hmark, hterms⟩ := he
    simp only [wellFormedTerms_append, WellFormedTerms] at hterms
    obtain ⟨hbefore, hfirst, hafter⟩ := hterms
    refine ⟨by simp, fun x hx => ?_, ?_⟩
    · obtain ⟨rfl, rfl, rfl⟩ : before = [] ∧ ⟨adjacent, e'⟩ = x ∧ after = [] := by
        simpa [List.append_eq_singleton_iff] using hx
      exact hmark ⟨adjacent, e⟩ rfl
    · simp only [wellFormedTerms_append, WellFormedTerms]
      exact ⟨hbefore, ih hfirst, hafter⟩
  | inAlternative _ ih =>
    obtain ⟨hlength, hall⟩ := he
    simp only [wellFormedAll_append, WellFormedAll] at hall
    obtain ⟨hbefore, hfirst, hafter⟩ := hall
    refine ⟨by simpa using hlength, ?_⟩
    simp only [wellFormedAll_append, WellFormedAll]
    exact ⟨hbefore, ih hfirst, hafter⟩
  | inRepetition _ ih | inOptional _ ih | inNegation _ ih => exact ih he

end

/-! ## Grammars -/

namespace Grammar.Ungroups

variable {g g' : Grammar}

theorem alike {kind : Frame → Prop} (h : g.Ungroups g') : g.Alike kind g' := by
  have hrules : ∀ rules : List Rule, List.Forall₂ (Rule.Alike kind) rules rules :=
    fun rules => List.forall₂_same.mpr fun r _ => ⟨rfl, .refl r.body⟩
  cases h with
  | @rule before after r body skip hbody =>
    refine ⟨List.rel_append (hrules before) (.cons ⟨rfl, hbody.alike⟩ (hrules after)), ?_⟩
    cases skip with
    | none => exact .none
    | some e => exact .some (.refl e)
  | skip hbody => exact ⟨hrules _, .some hbody.alike⟩

/-- Every body is one of before, or one of before with a group taken apart. -/
theorem body_cases (h : g.Ungroups g') {e' : Expr} (he' : e' ∈ g'.bodies) :
    e' ∈ g.bodies ∨ ∃ e ∈ g.bodies, e.Ungroups e' := by
  cases h with
  | rule hbody =>
    simp only [bodies, List.map_append, List.map_cons, List.mem_append, List.mem_cons] at he' ⊢
    grind
  | skip hbody =>
    simp only [bodies, Option.toList_some, List.mem_append, List.mem_singleton] at he' ⊢
    grind

end Grammar.Ungroups

/-- A grammar that compiles, with a group taken apart at any place of any body, stands in for the one that
has the group: it is accepted, the same rules may match nothing, and every text is answered in the same
way. -/
theorem grouping_transparent {source : Source} {g g' : Grammar}
    (hcompile : Grammar.compile source = .ok g) (h : g.Ungroups g') : g'.StandsInFor g := by
  have hwell := Grammar.wellFormed_of_compile hcompile
  have halike : g.Alike (fun _ => True) g' := h.alike
  refine halike.standsInFor ⟨fun _ _ _ => trivial, fun _ => trivial⟩ hwell fun e' he' => ?_
  rw [halike.seenAlike.size_eq]
  rcases h.body_cases he' with hsame | ⟨e, he, hungroups⟩
  · exact hwell.bodies e' hsame
  · exact hungroups.wellFormed (hwell.bodies e he)

/-- A grammar with a group in a row: no spaces are skipped in front of the group. -/
def groupText : Source :=
  ⟨"group", "row = @b #('x' @b) 'y'; b = 'b'; = \x7b' '\x7d;"⟩

/-- A grammar of a row with these elements, followed by `y`. -/
def rowGrammar (terms : List Term) : Grammar where
  rules := [⟨"row", .sequence (terms ++ [⟨false, .literal "y"⟩]), ⟨0, 3⟩⟩, ⟨"b", .literal "b", ⟨24, 25⟩⟩]
  skip := some (.repetition (.literal " "))

/-- The row of `groupText`. -/
def groupGrammar : Grammar :=
  rowGrammar [⟨false, .capture 1⟩, ⟨true, .sequence [⟨false, .literal "x"⟩, ⟨false, .capture 1⟩]⟩]

/-- The row without the group. -/
def flatGrammar : Grammar :=
  rowGrammar [⟨false, .capture 1⟩, ⟨true, .literal "x"⟩, ⟨false, .capture 1⟩]

theorem grouping_transparent_row :
    Grammar.compile groupText = .ok groupGrammar ∧ groupGrammar.Ungroups flatGrammar ∧
      flatGrammar.StandsInFor groupGrammar := by
  have hcompile : Grammar.compile groupText = .ok groupGrammar :=
    toOption_eq_some_iff.mp (by decide +kernel)
  have hungroups : groupGrammar.Ungroups flatGrammar :=
    @Grammar.Ungroups.rule [] _ _ _ _ (@Expr.Ungroups.element [⟨false, .capture 1⟩] _ _ _ _)
  exact ⟨hcompile, hungroups, grouping_transparent hcompile hungroups⟩

end PegTree
