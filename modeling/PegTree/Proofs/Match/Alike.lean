import PegTree.Proofs.Grammar.Cycle
import PegTree.Proofs.Match.Laws

/-!
# Expressions that do the same

Two expressions are alike in frames of some kind if running them there comes to the same, misses and
overflows included, and if the analysis of grammars sees the same in both: whether they are nullable and
which calls are leading.  Expressions stay alike inside larger ones, so an expression may be replaced at
any place.

A grammar of which every body is alike to that of another one is alike to it as a whole: the same rules
may match nothing (`Grammar.Alike.seenAlike`), the same cycles are found
(`Grammar.Alike.cyclic_iff`), and every call comes to the same with any number of calls left
(`Grammar.Alike.outcome_eq`).
-/

namespace PegTree

/-- Expressions that cannot be told apart in frames of a kind, nor by the analysis of a grammar. -/
structure Expr.Alike (kind : Frame → Prop) (e e' : Expr) : Prop where
  outcome : ∀ {f}, kind f → ∀ lead c, e'.outcome f lead c = e.outcome f lead c
  nullable : ∀ known, e'.nullable known = e.nullable known
  leadingCalls : ∀ known, e'.leadingCalls known = e.leadingCalls known

/-! ## Replacing a part -/

namespace Expr.Alike

variable {kind : Frame → Prop} {e e' e'' : Expr}

theorem refl (e : Expr) : e.Alike kind e :=
  ⟨fun _ _ _ => rfl, fun _ => rfl, fun _ => rfl⟩

theorem trans (h : e.Alike kind e') (h' : e'.Alike kind e'') : e.Alike kind e'' where
  outcome hf lead c := (h'.outcome hf lead c).trans (h.outcome hf lead c)
  nullable known := (h'.nullable known).trans (h.nullable known)
  leadingCalls known := (h'.leadingCalls known).trans (h.leadingCalls known)

/-- The first element may be replaced. -/
theorem element (h : e.Alike kind e') (adjacent : Bool) (terms : List Term) :
    (sequence (⟨adjacent, e⟩ :: terms)).Alike kind (sequence (⟨adjacent, e'⟩ :: terms)) where
  outcome hf lead c := by
    simp only [Expr.outcome, sequenceOutcome, h.outcome hf]
  nullable known := by
    simp only [Expr.nullable, allNullable, h.nullable]
  leadingCalls known := by
    simp only [Expr.leadingCalls, leadingOfTerms, h.leadingCalls, h.nullable]

/-- The elements behind the first may be replaced. -/
theorem behind {terms terms' : List Term} (h : (sequence terms).Alike kind (sequence terms'))
    (t : Term) : (sequence (t :: terms)).Alike kind (sequence (t :: terms')) where
  outcome {f} hf lead c := by
    obtain ⟨adjacent, e⟩ := t
    have hrest : sequenceOutcome f terms' true = sequenceOutcome f terms true :=
      funext fun c => h.outcome hf true c
    simp only [Expr.outcome, sequenceOutcome, hrest]
  nullable known := by
    obtain ⟨adjacent, e⟩ := t
    have hrest : allNullable known terms' = allNullable known terms := h.nullable known
    simp only [Expr.nullable, allNullable, hrest]
  leadingCalls known := by
    obtain ⟨adjacent, e⟩ := t
    have hrest : leadingOfTerms known terms' = leadingOfTerms known terms := h.leadingCalls known
    simp only [Expr.leadingCalls, leadingOfTerms, hrest]

theorem behindAll {terms terms' : List Term} (h : (sequence terms).Alike kind (sequence terms'))
    (before : List Term) :
    (sequence (before ++ terms)).Alike kind (sequence (before ++ terms')) := by
  induction before with
  | nil => exact h
  | cons t before ih => exact ih.behind t

/-- The first alternative may be replaced. -/
theorem alternative (h : e.Alike kind e') (alternatives : List Expr) :
    (choice (e :: alternatives)).Alike kind (choice (e' :: alternatives)) where
  outcome hf lead c := by
    simp only [Expr.outcome, choiceOutcome, h.outcome hf]
  nullable known := by
    simp only [Expr.nullable, anyNullable, h.nullable]
  leadingCalls known := by
    simp only [Expr.leadingCalls, leadingOfAlternatives, h.leadingCalls]

/-- The alternatives behind the first may be replaced. -/
theorem otherwise {alternatives alternatives' : List Expr}
    (h : (choice alternatives).Alike kind (choice alternatives')) (e : Expr) :
    (choice (e :: alternatives)).Alike kind (choice (e :: alternatives')) where
  outcome {f} hf lead c := by
    have hrest : choiceOutcome f alternatives' lead c = choiceOutcome f alternatives lead c :=
      h.outcome hf lead c
    simp only [Expr.outcome, choiceOutcome, hrest]
  nullable known := by
    have hrest : anyNullable known alternatives' = anyNullable known alternatives := h.nullable known
    simp only [Expr.nullable, anyNullable, hrest]
  leadingCalls known := by
    have hrest : leadingOfAlternatives known alternatives' = leadingOfAlternatives known alternatives :=
      h.leadingCalls known
    simp only [Expr.leadingCalls, leadingOfAlternatives, hrest]

theorem otherwiseAll {alternatives alternatives' : List Expr}
    (h : (choice alternatives).Alike kind (choice alternatives')) (before : List Expr) :
    (choice (before ++ alternatives)).Alike kind (choice (before ++ alternatives')) := by
  induction before with
  | nil => exact h
  | cons e before ih => exact ih.otherwise e

theorem repetition (h : e.Alike kind e') : (repetition e).Alike kind (.repetition e') where
  outcome {f} hf lead c := by
    have hbody : e'.outcome f = e.outcome f := funext₂ fun lead c => h.outcome hf lead c
    simp only [Expr.outcome, hbody]
  nullable _ := rfl
  leadingCalls := h.leadingCalls

theorem optional (h : e.Alike kind e') : (optional e).Alike kind (.optional e') where
  outcome hf lead c := by
    simp only [Expr.outcome, h.outcome hf]
  nullable _ := rfl
  leadingCalls := h.leadingCalls

theorem negation (h : e.Alike kind e') : (negation e).Alike kind (.negation e') where
  outcome hf lead c := by
    simp only [Expr.outcome, h.outcome hf]
  nullable _ := rfl
  leadingCalls := h.leadingCalls

end Expr.Alike

/-! ## Grammars -/

/-- Rules of one name with bodies that are alike. -/
structure Rule.Alike (kind : Frame → Prop) (r r' : Rule) : Prop where
  name : r'.name = r.name
  body : r.body.Alike kind r'.body

/-- Grammars with rules that are alike in the same places. -/
structure Grammar.Alike (kind : Frame → Prop) (g g' : Grammar) : Prop where
  rules : List.Forall₂ (Rule.Alike kind) g.rules g'.rules
  skip : Option.Rel (Expr.Alike kind) g.skip g'.skip

/-- All bodies of a grammar are run in frames of the kind. -/
structure Grammar.RunsIn (g : Grammar) (kind : Frame → Prop) : Prop where
  frame : ∀ call mode rule, kind (g.frame call mode rule)
  inner : ∀ call, kind ⟨none, .stay, call⟩

namespace Grammar.Alike

variable {kind : Frame → Prop} {g g' g'' : Grammar}

/-- Where names are written does not matter. -/
theorem congr (h : g.Alike kind g') (hsame : g''.unspanned = g'.unspanned) : g.Alike kind g'' := by
  have hskip : g''.skip = g'.skip := show g''.unspanned.skip = g'.unspanned.skip by rw [hsame]
  have hrules : g''.rules.map Rule.unspanned = g'.rules.map Rule.unspanned :=
    show g''.unspanned.rules = g'.unspanned.rules by rw [hsame]
  have hunspanned : List.Forall₂ (Rule.Alike kind) g.rules (g'.rules.map Rule.unspanned) :=
    List.forall₂_map_right_iff.mpr (h.rules.imp fun _ _ hr => ⟨hr.name, hr.body⟩)
  rw [← hrules, List.forall₂_map_right_iff] at hunspanned
  refine ⟨hunspanned.imp fun _ _ hr => ⟨hr.name, hr.body⟩, ?_⟩
  rw [hskip]
  exact h.skip

theorem names_eq (h : g.Alike kind g') : g'.rules.map Rule.name = g.rules.map Rule.name := by
  have hnames : List.Forall₂ (· = ·) (g.rules.map Rule.name) (g'.rules.map Rule.name) :=
    List.forall₂_map_left_iff.mpr (List.forall₂_map_right_iff.mpr (h.rules.imp fun _ _ hr => hr.name.symm))
  exact (List.forall₂_eq_eq_eq ▸ hnames).symm

theorem name_eq (h : g.Alike kind g') : g'.name = g.name := by
  funext id
  rw [name, name, ← List.getElem?_map, ← List.getElem?_map, h.names_eq]

theorem ruleId?_eq (h : g.Alike kind g') : g'.ruleId? = g.ruleId? := by
  funext name
  have hnames : ∀ g : Grammar, g.ruleId? name = (g.rules.map Rule.name).findIdx? (· == name) :=
    fun g => by rw [List.findIdx?_map]; rfl
  rw [hnames, hnames, h.names_eq]

/-! ### What the analysis sees -/

theorem seenAlike (h : g.Alike kind g') : g.SeenAlike g' :=
  h.rules.imp fun _ _ hr => ⟨hr.body.nullable, hr.body.leadingCalls⟩

/-- The skip rule may match nothing in both or in neither. -/
theorem skip_nullable_eq (h : g.Alike kind g') (known : RuleId → Bool) :
    g'.skip.map (Expr.nullable known) = g.skip.map (Expr.nullable known) := by
  have hskip := h.skip
  generalize g.skip = skip, g'.skip = skip' at hskip ⊢
  cases hskip with
  | none => rfl
  | some hbody => exact congrArg some (hbody.nullable known)

theorem leads_iff (h : g.Alike kind g') : g'.Leads = g.Leads := by
  rw [← leads_eq, ← leads_eq, h.seenAlike.nullableTable_eq, h.seenAlike.leadingCalls_eq]

/-- The one has a cycle exactly if the other does. -/
theorem cyclic_iff (h : g.Alike kind g') : g'.Cyclic ↔ g.Cyclic := by
  rw [Cyclic, Cyclic, h.leads_iff]

/-! ### What comes of calls -/

theorem skipOutcome_eq (h : g.Alike kind g') (hkind : g.RunsIn kind)
    (call : Mode → RuleId → Cursor → Outcome) : g'.skipOutcome call = g.skipOutcome call := by
  funext mode c
  have hskip := h.skip
  cases mode with
  | skipping => rfl
  | plain =>
    unfold skipOutcome
    generalize g.skip = skip, g'.skip = skip' at hskip ⊢
    cases hskip with
    | none => rfl
    | some hbody => simp only [hbody.outcome (hkind.inner (call .skipping))]

theorem frame_eq (h : g.Alike kind g') (hkind : g.RunsIn kind)
    (call : Mode → RuleId → Cursor → Outcome) : g'.frame call = g.frame call := by
  funext mode rule
  rw [frame, frame, h.skipOutcome_eq hkind]

/-- Every call comes to the same. -/
theorem outcome_eq (h : g.Alike kind g') (hkind : g.RunsIn kind) (left : Nat) :
    g'.outcome left = g.outcome left := by
  induction left with
  | zero => rfl
  | succ left ih =>
    funext mode id c
    rw [outcome, outcome]
    rcases entries_of_forall₂ h.rules id with ⟨hr, hr'⟩ | ⟨r, r', hr, hr', hsame⟩
    · rw [hr, hr']
    · simp only [hr, hr', ih, h.frame_eq hkind]
      exact hsame.body.outcome (hkind.frame (g.outcome left) mode (some id)) false c

end Grammar.Alike

end PegTree
