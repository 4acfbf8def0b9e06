import Mathlib.Data.Nat.Find
import PegTree.Proofs.Grammar.Leading
import PegTree.Proofs.Grammar.Mention

/-!
# The table of nullable rules is a least fixed point

The table is filled while it is being read: a sweep over the rules enters a rule at once and looks at the
later ones with that known.  What comes out is still the least table that agrees with the bodies, and the
order in which the rules are looked at does not matter (`nullableTable_least`).

Two things are true of every table on the way.  It knows nothing without a reason, whatever has been looked
at so far; and where a sweep over all rules changes nothing, nothing is missing.  Tables with both
properties are equal (`Grammar.eq_of_closed_of_justified`).  A sweep that changes something leaves fewer
rules out, so of one sweep more than there are rules at least one changes nothing
(`Grammar.exists_idle_sweep`).

All this holds of left-recursive grammars too; the table is made before they are refused.
-/

namespace PegTree

namespace Grammar

variable {g : Grammar}

/-! ## Tables that are determined by the bodies -/

/-- What is known without a reason missing and with nothing missing is which bodies may be empty. -/
theorem knows_iff {known : RuleId → Bool} (hclosed : g.Closed known) (hjust : g.Justified known)
    {id : RuleId} : known id = true ↔ ∃ r, g.rules[id]? = some r ∧ g.MayBeEmpty r.body := by
  constructor
  · exact hjust id
  · rintro ⟨r, hr, hempty⟩
    exact hclosed id r hr (hempty.nullable hclosed)

/-- Tables for the same rules are equal if they know the same. -/
theorem table_ext {table other : NullableTable} (hlen : table.length = other.length)
    (h : ∀ id, table.knows id = true ↔ other.knows id = true) : table = other := by
  refine List.ext_getElem hlen fun id hid hid' => ?_
  have hsame := Bool.eq_iff_iff.mpr (h id)
  simpa only [NullableTable.knows, List.getElem?_eq_getElem hid, List.getElem?_eq_getElem hid',
    Option.getD_some] using hsame

theorem eq_of_closed_of_justified {table other : NullableTable} (hlen : table.length = other.length)
    (hclosed : g.Closed table.knows) (hjust : g.Justified table.knows)
    (hclosed' : g.Closed other.knows) (hjust' : g.Justified other.knows) : table = other :=
  table_ext hlen fun _ => (knows_iff hclosed hjust).trans (knows_iff hclosed' hjust').symm

theorem length_nullableFrom (table : NullableTable) :
    (g.nullableFrom table).length = table.length := by
  fun_induction nullableFrom g table with
  | case1 table next h => rfl
  | case2 table next h ih => exact ih.trans (length_foldl_noteNullable _ table)

theorem length_nullableTable (g : Grammar) : g.nullableTable.length = g.size := by
  rw [nullableTable, length_nullableFrom, List.length_map, size]

/-! ## Sweeps in any order -/

/-- The table after the first sweeps, where the sweep number `i` looks at the rules in the order
`order i`. -/
def sweptTable (g : Grammar) (order : Nat → List RuleId) : Nat → NullableTable
  | 0 => g.rules.map fun _ => false
  | n + 1 => (order n).foldl g.noteNullable (g.sweptTable order n)

variable {order : Nat → List RuleId}

theorem length_sweptTable (n : Nat) : (g.sweptTable order n).length = g.size := by
  induction n with
  | zero => exact List.length_map _
  | succ n ih => exact (length_foldl_noteNullable _ _).trans ih

theorem justified_sweptTable (n : Nat) : g.Justified (g.sweptTable order n).knows := by
  induction n with
  | zero => exact g.justified_nothing
  | succ n ih => exact ih.foldl_noteNullable _

/-- A table that a sweep over all rules does not change is the table of nullable rules. -/
theorem sweptTable_eq_nullableTable {n : Nat} (hall : ∀ id < g.size, id ∈ order n)
    (hidle : g.sweptTable order (n + 1) = g.sweptTable order n) :
    g.sweptTable order n = g.nullableTable := by
  have hlen : (g.sweptTable order n).length = g.size := length_sweptTable n
  exact eq_of_closed_of_justified (hlen.trans g.length_nullableTable.symm)
    (closed_of_foldl_eq hlen hall hidle) (justified_sweptTable n)
    g.nullableTable_closed g.nullableTable_justified

/-- As long as every sweep changes something, every sweep has entered a rule. -/
theorem count_sweptTable {n : Nat}
    (hbusy : ∀ i < n, g.sweptTable order (i + 1) ≠ g.sweptTable order i) :
    (g.sweptTable order n).count false + n ≤ g.size := by
  induction n with
  | zero =>
    have hle := List.count_le_length (a := false) (l := g.sweptTable order 0)
    rwa [length_sweptTable] at hle
  | succ n ih =>
    have hbefore := ih fun i hi => hbusy i (Nat.lt_succ_of_lt hi)
    have hless := (g.foldl_noteNullable_count (order n) (g.sweptTable order n)).resolve_left
      (hbusy n (Nat.lt_succ_self n))
    rw [sweptTable]
    omega

/-- There is a first sweep that changes nothing, and not more sweeps in front of it than rules. -/
theorem exists_idle_sweep (g : Grammar) (order : Nat → List RuleId) :
    ∃ n ≤ g.size, (∀ i < n, g.sweptTable order (i + 1) ≠ g.sweptTable order i) ∧
      g.sweptTable order (n + 1) = g.sweptTable order n := by
  have hsome : ∃ n, g.sweptTable order (n + 1) = g.sweptTable order n := by
    by_contra hnone
    have hcount := count_sweptTable (n := g.size + 1) fun i _ hidle => hnone ⟨i, hidle⟩
    omega
  have hbusy : ∀ i < Nat.find hsome, g.sweptTable order (i + 1) ≠ g.sweptTable order i :=
    fun i hi => Nat.find_min hsome hi
  refine ⟨Nat.find hsome, ?_, hbusy, Nat.find_spec hsome⟩
  have hcount := count_sweptTable hbusy
  omega

end Grammar

/-! ## The table of nullable rules -/

/-- The table has one entry for each rule, and that is what the body of the rule comes to by the table
itself.  No table that has an entry wherever a body asks for one knows less.

Sweeps over the rules, each in an order of its own, come to the same table.  On the way all look-ups for the
bodies of a resolved grammar fall on an entry; the first sweep that changes nothing comes after at most as
many sweeps as there are rules, and it has found this table. -/
theorem nullableTable_least (g : Grammar) :
    (g.nullableTable.length = g.size ∧
      ∀ (id : RuleId) (r : Rule), g.rules[id]? = some r →
        g.nullableTable[id]? = some (r.body.nullable g.nullableTable.knows)) ∧
    (∀ known : RuleId → Bool, g.Closed known →
      ∀ id, g.nullableTable.knows id = true → known id = true) ∧
    ∀ order : Nat → List RuleId, (∀ i, ∀ id < g.size, id ∈ order i) →
      (g.Resolved → ∀ i, ∀ e ∈ g.bodies, ∀ x ∈ e.mentions, x.rule < (g.sweptTable order i).length) ∧
      ∃ n ≤ g.size, (∀ i < n, g.sweptTable order (i + 1) ≠ g.sweptTable order i) ∧
        g.sweptTable order (n + 1) = g.sweptTable order n ∧
        g.sweptTable order n = g.nullableTable := by
  have hclosed := g.nullableTable_closed
  have hjust := g.nullableTable_justified
  refine ⟨⟨g.length_nullableTable, ?_⟩, ?_, ?_⟩
  · intro id r hr
    have hid : id < g.nullableTable.length := by
      rw [g.length_nullableTable]
      exact (List.getElem?_eq_some_iff.mp hr).1
    have hknows : g.nullableTable.knows id = g.nullableTable[id] := by
      rw [NullableTable.knows, List.getElem?_eq_getElem hid, Option.getD_some]
    -- both sides say whether the body may be empty
    have hsame : g.nullableTable.knows id = r.body.nullable g.nullableTable.knows := by
      rw [Bool.eq_iff_iff, Grammar.knows_iff hclosed hjust, Expr.nullable_iff, hr]
      simp
    rw [List.getElem?_eq_getElem hid, ← hknows, hsame]
  · intro known hknown id hid
    obtain ⟨r, hr, hempty⟩ := hjust id hid
    exact hknown id r hr (hempty.nullable hknown)
  · intro order hall
    refine ⟨fun hresolved i e he x hx => ?_, ?_⟩
    · rw [Grammar.length_sweptTable]
      exact hresolved e he x hx
    · obtain ⟨n, hle, hbusy, hidle⟩ := g.exists_idle_sweep order
      exact ⟨n, hle, hbusy, hidle, Grammar.sweptTable_eq_nullableTable (hall n) hidle⟩

/-- Two rules that may each be the other, a third that may be nothing, and one that is none of these: what is
known of the third reaches the first by way of the second. -/
def chainGrammar : Grammar where
  rules :=
    [⟨"a", .rule 1, ⟨0, 1⟩⟩,
      ⟨"b", .choice [.rule 0, .capture 2], ⟨8, 9⟩⟩,
      ⟨"c", .optional (.literal "x"), ⟨20, 21⟩⟩,
      ⟨"d", .sequence [⟨false, .rule 0⟩, ⟨true, .literal "y"⟩], ⟨30, 31⟩⟩]
  skip := none

/-- Looking at the last rule first finds out in one sweep what takes three the other way round. -/
theorem nullableTable_least_chain :
    chainGrammar.nullableTable = [true, true, true, false] ∧
      (∀ id, chainGrammar.nullableTable.knows id = true → decide (id < 3) = true) ∧
      chainGrammar.sweptTable (fun _ => [3, 2, 1, 0]) 1 = chainGrammar.nullableTable ∧
      chainGrammar.sweptTable (fun _ => [0, 1, 2, 3]) 2 ≠ chainGrammar.nullableTable ∧
      ∃ n ≤ 4, (∀ i < n, chainGrammar.sweptTable (fun _ => [3, 2, 1, 0]) (i + 1) ≠
          chainGrammar.sweptTable (fun _ => [3, 2, 1, 0]) i) ∧
        chainGrammar.sweptTable (fun _ => [3, 2, 1, 0]) n = chainGrammar.nullableTable := by
  have hall : ∀ id < chainGrammar.size, id ∈ [3, 2, 1, 0] := by decide
  have hclosed : chainGrammar.Closed fun id => decide (id < 3) := by
    intro id r hr hbody
    match id with
    | 0 | 1 | 2 => rfl
    | 3 =>
      cases hr
      simp [Expr.nullable, allNullable] at hbody
    | id + 4 => cases hr
  obtain ⟨-, hleast, horder⟩ := nullableTable_least chainGrammar
  obtain ⟨-, n, hle, hbusy, -, htable⟩ := horder (fun _ => [3, 2, 1, 0]) fun _ => hall
  exact ⟨by decide +kernel, hleast _ hclosed, by decide +kernel, by decide +kernel, n, hle, hbusy, htable⟩

end PegTree
