import PegTree.Grammar.Basic

/-!
# Rules that may match nothing

An expression is nullable if it can be seen from its form, and from what is known of the rules it
refers to, that it may succeed without consuming input.  `Grammar.nullableTable` starts from "no rule
is nullable" and looks at the bodies in declaration order again and again, entering every rule that it
finds to be nullable at once, until a whole sweep enters nothing.  That ends because a sweep that
changes the table leaves fewer rules out.
-/

namespace PegTree

/-- What is known of each rule, by id. -/
abbrev NullableTable :=
  List Bool

/-- Whether a rule is known to be nullable. -/
def NullableTable.knows (table : NullableTable) (id : RuleId) : Bool :=
  table[id]?.getD false

mutual

/-- Whether the expression may succeed without consuming input. -/
def Expr.nullable (known : RuleId → Bool) : Expr → Bool
  | .empty => true
  | .literal text => text.isEmpty
  | .range _ _ => false
  | .endOfInput => true
  | .rule id => known id
  | .capture id => known id
  | .sequence terms => allNullable known terms
  | .choice alternatives => anyNullable known alternatives
  | .repetition _ => true
  | .optional _ => true
  | .negation _ => true

/-- Whether all elements may succeed without consuming input. -/
def allNullable (known : RuleId → Bool) : List Term → Bool
  | [] => true
  | ⟨_, e⟩ :: terms => e.nullable known && allNullable known terms

/-- Whether some alternative may succeed without consuming input. -/
def anyNullable (known : RuleId → Bool) : List Expr → Bool
  | [] => false
  | e :: alternatives => e.nullable known || anyNullable known alternatives

end

namespace Grammar

/-- The table after a look at one rule. -/
def noteNullable (g : Grammar) (table : NullableTable) (id : RuleId) : NullableTable :=
  match g.rules[id]? with
  | none => table
  | some r =>
    -- entered at once, so that the rest of the sweep knows it
    if !table.knows id && r.body.nullable table.knows then table.set id true else table

/-- The table after a look at every rule. -/
def sweepNullable (g : Grammar) (table : NullableTable) : NullableTable :=
  (List.range g.size).foldl g.noteNullable table

/-- A look at a rule leaves the table alone or leaves fewer rules out. -/
theorem noteNullable_count (g : Grammar) (table : NullableTable) (id : RuleId) :
    g.noteNullable table id = table ∨
      (g.noteNullable table id).count false < table.count false := by
  unfold noteNullable
  split
  · exact .inl rfl
  · next r hr =>
    split
    · next h =>
      by_cases hid : id < table.length
      · right
        have hfalse : table[id] = false := by
          simp only [NullableTable.knows, Bool.and_eq_true, Bool.not_eq_true',
            List.getElem?_eq_getElem hid, Option.getD_some] at h
          exact h.1
        have hpos : 0 < table.count false :=
          List.count_pos_iff.mpr (hfalse ▸ List.getElem_mem hid)
        have hset : (table.set id true).count false = table.count false - 1 := by
          simp [List.count_set hid, hfalse]
        omega
      · left
        exact List.set_eq_of_length_le (Nat.le_of_not_lt hid)
    · exact .inl rfl

theorem foldl_noteNullable_count (g : Grammar) (ids : List RuleId) (table : NullableTable) :
    ids.foldl g.noteNullable table = table ∨
      (ids.foldl g.noteNullable table).count false < table.count false := by
  induction ids generalizing table with
  | nil => exact .inl rfl
  | cons id ids ih =>
    rw [List.foldl_cons]
    rcases g.noteNullable_count table id with h | h
    · rw [h]
      exact ih table
    · right
      rcases ih (g.noteNullable table id) with h' | h'
      · rwa [h']
      · omega

/-- The table when a sweep enters nothing any more. -/
def nullableFrom (g : Grammar) (table : NullableTable) : NullableTable :=
  let next := g.sweepNullable table
  if next = table then table else nullableFrom g next
termination_by table.count false
decreasing_by exact (g.foldl_noteNullable_count _ table).resolve_left ‹_›

/-- For every rule, whether it may match nothing. -/
def nullableTable (g : Grammar) : NullableTable :=
  g.nullableFrom (g.rules.map fun _ => false)

end Grammar

end PegTree
