import PegTree.Grammar.LeftRecursion
import PegTree.Proofs.Grammar.Nullable

/-!
# The graph of leading calls

What an expression may match without consuming anything, and what it may call before it has consumed
anything, are said here by the form of expressions alone: `Grammar.MayBeEmpty` and `Grammar.LeadsTo` are
the least relations that the rules allow.  The table of nullable rules and the lists of leading calls
are exactly these (`Expr.nullable_iff`, `Expr.mem_leadingCalls_iff`).

An element of a sequence is only looked at if all elements in front of it may be empty.  The skip rule
is no part of the graph.
-/

namespace PegTree

/-- Expressions that may match without consuming anything, as far as their form tells. -/
inductive Grammar.MayBeEmpty (g : Grammar) : Expr → Prop
  | empty : MayBeEmpty g .empty
  | literal : MayBeEmpty g (.literal "")
  | endOfInput : MayBeEmpty g .endOfInput
  | rule {id r} : g.rules[id]? = some r → MayBeEmpty g r.body → MayBeEmpty g (.rule id)
  | capture {id r} : g.rules[id]? = some r → MayBeEmpty g r.body → MayBeEmpty g (.capture id)
  | sequence_nil : MayBeEmpty g (.sequence [])
  | sequence_cons {t terms} :
      MayBeEmpty g t.expr → MayBeEmpty g (.sequence terms) → MayBeEmpty g (.sequence (t :: terms))
  | choice {e alternatives} :
      e ∈ alternatives → MayBeEmpty g e → MayBeEmpty g (.choice alternatives)
  | repetition {body} : MayBeEmpty g (.repetition body)
  | optional {body} : MayBeEmpty g (.optional body)
  | negation {body} : MayBeEmpty g (.negation body)

/-- Rules that an expression may call before it has consumed anything. -/
inductive Grammar.LeadsTo (g : Grammar) : Expr → RuleId → Prop
  | rule {id} : LeadsTo g (.rule id) id
  | capture {id} : LeadsTo g (.capture id) id
  | first {t terms id} : LeadsTo g t.expr id → LeadsTo g (.sequence (t :: terms)) id
  | later {t terms id} :
      g.MayBeEmpty t.expr → LeadsTo g (.sequence terms) id → LeadsTo g (.sequence (t :: terms)) id
  | choice {e alternatives id} :
      e ∈ alternatives → LeadsTo g e id → LeadsTo g (.choice alternatives) id
  | repetition {body id} : LeadsTo g body id → LeadsTo g (.repetition body) id
  | optional {body id} : LeadsTo g body id → LeadsTo g (.optional body) id
  | negation {body id} : LeadsTo g body id → LeadsTo g (.negation body) id

/-- The edges of the graph of leading calls. -/
def Grammar.Leads (g : Grammar) (id next : RuleId) : Prop :=
  ∃ r, g.rules[id]? = some r ∧ g.LeadsTo r.body next

/-! ## Nullable rules -/

theorem anyNullable_eq_true {known : RuleId → Bool} {alternatives : List Expr} :
    anyNullable known alternatives = true ↔ ∃ e ∈ alternatives, e.nullable known = true := by
  induction alternatives with
  | nil => simp [anyNullable]
  | cons e more ih => simp [anyNullable, ih]

/-- Rules known to be nullable are rules whose body may be empty. -/
def Grammar.Justified (g : Grammar) (known : RuleId → Bool) : Prop :=
  ∀ id, known id = true → ∃ r, g.rules[id]? = some r ∧ g.MayBeEmpty r.body

section

variable {g : Grammar} {known : RuleId → Bool}

mutual

/-- What is found to be nullable may be empty. -/
theorem Expr.mayBeEmpty_of_nullable (h : g.Justified known) :
    ∀ e : Expr, e.nullable known = true → g.MayBeEmpty e
  | .empty, _ => .empty
  | .literal text, he => by
    have hempty : text = "" := by simpa [Expr.nullable] using he
    exact hempty ▸ .literal
  | .range _ _, he => by simp [Expr.nullable] at he
  | .endOfInput, _ => .endOfInput
  | .rule id, he => by
    obtain ⟨r, hr, hbody⟩ := h id he
    exact .rule hr hbody
  | .capture id, he => by
    obtain ⟨r, hr, hbody⟩ := h id he
    exact .capture hr hbody
  | .sequence terms, he => mayBeEmpty_of_allNullable h terms he
  | .choice alternatives, he => by
    obtain ⟨e, hmem, hempty⟩ := mayBeEmpty_of_anyNullable h alternatives he
    exact .choice hmem hempty
  | .repetition _, _ => .repetition
  | .optional _, _ => .optional
  | .negation _, _ => .negation

theorem mayBeEmpty_of_allNullable (h : g.Justified known) :
    ∀ terms : List Term, allNullable known terms = true → g.MayBeEmpty (.sequence terms)
  | [], _ => .sequence_nil
  | ⟨adjacent, e⟩ :: terms, he => by
    simp only [allNullable, Bool.and_eq_true] at he
    exact .sequence_cons (t := ⟨adjacent, e⟩) (Expr.mayBeEmpty_of_nullable h e he.1)
      (mayBeEmpty_of_allNullable h terms he.2)

theorem mayBeEmpty_of_anyNullable (h : g.Justified known) :
    ∀ alternatives : List Expr, anyNullable known alternatives = true →
      ∃ e ∈ alternatives, g.MayBeEmpty e
  | [], he => by simp [anyNullable] at he
  | e :: alternatives, he => by
    simp only [anyNullable, Bool.or_eq_true] at he
    rcases he with he | he
    · exact ⟨e, List.mem_cons_self, Expr.mayBeEmpty_of_nullable h e he⟩
    · obtain ⟨e', hmem, hempty⟩ := mayBeEmpty_of_anyNullable h alternatives he
      exact ⟨e', List.mem_cons_of_mem _ hmem, hempty⟩

end

/-- What may be empty is nullable by every closed table. -/
theorem Grammar.MayBeEmpty.nullable (hclosed : g.Closed known) {e : Expr} (h : g.MayBeEmpty e) :
    e.nullable known = true := by
  induction h with
  | empty | endOfInput | sequence_nil | repetition | optional | negation => rfl
  | literal => rfl
  | rule hr _ ih | capture hr _ ih => exact hclosed _ _ hr ih
  | @sequence_cons t terms _ _ iht ih =>
    have hterms : allNullable known terms = true := ih
    cases t
    simp only [Expr.nullable, allNullable, Bool.and_eq_true]
    exact ⟨iht, hterms⟩
  | choice hmem _ ih => exact anyNullable_eq_true.mpr ⟨_, hmem, ih⟩

end

namespace Grammar

variable {g : Grammar}

/-- A look at a rule enters it only if its body may be empty. -/
theorem Justified.noteNullable {table : NullableTable} (h : g.Justified table.knows) (id : RuleId) :
    g.Justified (g.noteNullable table id).knows := by
  unfold Grammar.noteNullable
  split
  · exact h
  · next r hr =>
    split
    · next hentered =>
      simp only [Bool.and_eq_true] at hentered
      intro other hother
      by_cases hsame : other = id
      · subst hsame
        exact ⟨r, hr, Expr.mayBeEmpty_of_nullable h r.body hentered.2⟩
      · refine h other ?_
        simpa [NullableTable.knows, List.getElem?_set_ne (Ne.symm hsame)] using hother
    · exact h

theorem Justified.foldl_noteNullable {table : NullableTable} (h : g.Justified table.knows)
    (ids : List RuleId) : g.Justified (ids.foldl g.noteNullable table).knows := by
  induction ids generalizing table with
  | nil => exact h
  | cons id ids ih => exact ih (h.noteNullable id)

/-- The first table knows nothing. -/
theorem justified_nothing (g : Grammar) :
    g.Justified (NullableTable.knows (g.rules.map fun _ => false)) := by
  intro id hid
  simp only [NullableTable.knows, List.getElem?_map] at hid
  cases h : g.rules[id]? <;> simp [h] at hid

theorem Justified.nullableFrom (table : NullableTable) (h : g.Justified table.knows) :
    g.Justified (g.nullableFrom table).knows := by
  fun_induction Grammar.nullableFrom g table with
  | case1 table next _ => exact h
  | case2 table next _ ih => exact ih (h.foldl_noteNullable _)

theorem nullableTable_justified (g : Grammar) : g.Justified g.nullableTable.knows :=
  Justified.nullableFrom _ g.justified_nothing

end Grammar

/-- By the table exactly those expressions are nullable that may be empty. -/
theorem Expr.nullable_iff {g : Grammar} {e : Expr} :
    e.nullable g.nullableTable.knows = true ↔ g.MayBeEmpty e :=
  ⟨Expr.mayBeEmpty_of_nullable g.nullableTable_justified e, fun h => h.nullable g.nullableTable_closed⟩

/-! ## Leading calls -/

section

variable {g : Grammar} {id : RuleId}

mutual

theorem Expr.leadsTo_of_mem :
    ∀ e : Expr, id ∈ e.leadingCalls g.nullableTable.knows → g.LeadsTo e id
  | .empty, h | .literal _, h | .range _ _, h | .endOfInput, h => by
    simp [Expr.leadingCalls] at h
  | .rule _, h => by
    obtain rfl := List.mem_singleton.mp h
    exact .rule
  | .capture _, h => by
    obtain rfl := List.mem_singleton.mp h
    exact .capture
  | .sequence terms, h => leadsTo_of_mem_terms terms h
  | .choice alternatives, h => by
    obtain ⟨e, hmem, he⟩ := leadsTo_of_mem_alternatives alternatives h
    exact .choice hmem he
  | .repetition body, h => .repetition (Expr.leadsTo_of_mem body h)
  | .optional body, h => .optional (Expr.leadsTo_of_mem body h)
  | .negation body, h => .negation (Expr.leadsTo_of_mem body h)

theorem leadsTo_of_mem_terms :
    ∀ terms : List Term, id ∈ leadingOfTerms g.nullableTable.knows terms →
      g.LeadsTo (.sequence terms) id
  | [], h => by simp [leadingOfTerms] at h
  | ⟨adjacent, e⟩ :: terms, h => by
    rw [leadingOfTerms] at h
    rcases List.mem_append.mp h with h | h
    · exact .first (t := ⟨adjacent, e⟩) (Expr.leadsTo_of_mem e h)
    · split at h
      · next hempty =>
        exact .later (t := ⟨adjacent, e⟩) (Expr.nullable_iff.mp hempty) (leadsTo_of_mem_terms terms h)
      · cases h

theorem leadsTo_of_mem_alternatives :
    ∀ alternatives : List Expr, id ∈ leadingOfAlternatives g.nullableTable.knows alternatives →
      ∃ e ∈ alternatives, g.LeadsTo e id
  | [], h => by simp [leadingOfAlternatives] at h
  | e :: alternatives, h => by
    rw [leadingOfAlternatives] at h
    rcases List.mem_append.mp h with h | h
    · exact ⟨e, List.mem_cons_self, Expr.leadsTo_of_mem e h⟩
    · obtain ⟨e', hmem, he⟩ := leadsTo_of_mem_alternatives alternatives h
      exact ⟨e', List.mem_cons_of_mem _ hmem, he⟩

end

theorem mem_leadingOfAlternatives {known : RuleId → Bool} {e : Expr} {alternatives : List Expr}
    (hmem : e ∈ alternatives) (h : id ∈ e.leadingCalls known) :
    id ∈ leadingOfAlternatives known alternatives := by
  induction alternatives with
  | nil => cases hmem
  | cons first more ih =>
    rw [leadingOfAlternatives]
    rcases List.mem_cons.mp hmem with rfl | hmem
    · exact List.mem_append_left _ h
    · exact List.mem_append_right _ (ih hmem)

/-- The leading calls that are listed are those of the graph. -/
theorem Expr.mem_leadingCalls_iff {e : Expr} :
    id ∈ e.leadingCalls g.nullableTable.knows ↔ g.LeadsTo e id := by
  refine ⟨Expr.leadsTo_of_mem e, fun h => ?_⟩
  induction h with
  | rule | capture => simp [Expr.leadingCalls]
  | @first t terms id _ ih =>
    cases t
    exact List.mem_append_left _ ih
  | @later t terms id hempty _ ih =>
    cases t
    refine List.mem_append_right _ ?_
    rw [if_pos (Expr.nullable_iff.mpr hempty)]
    exact ih
  | choice hmem _ ih => exact mem_leadingOfAlternatives hmem ih
  | repetition _ ih | optional _ ih | negation _ ih => exact ih

theorem Grammar.mem_leadingCalls_iff {next : RuleId} :
    next ∈ g.leadingCalls g.nullableTable id ↔ g.Leads id next := by
  unfold Grammar.leadingCalls Grammar.Leads
  cases hr : g.rules[id]? with
  | none => simp
  | some r => simp [Expr.mem_leadingCalls_iff]

end

end PegTree
