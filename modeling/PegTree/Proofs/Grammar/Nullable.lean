import PegTree.Grammar.Nullable
import PegTree.Proofs.Match.Semantics

/-!
# What matches nothing is nullable

The table of nullable rules is closed: a rule whose body is nullable by the table is in it
(`Grammar.nullableTable_closed`).  For any such table an expression that matches without consuming
anything is nullable, whatever the mode and whether or not the skip rule runs in front
(`Matches.nullable`).
-/

namespace PegTree

namespace Grammar

variable {g : Grammar}

/-- What is known of the rules holds whenever their bodies say so. -/
def Closed (g : Grammar) (known : RuleId → Bool) : Prop :=
  ∀ id r, g.rules[id]? = some r → r.body.nullable known = true → known id = true

theorem length_noteNullable (table : NullableTable) (id : RuleId) :
    (g.noteNullable table id).length = table.length := by
  unfold noteNullable
  split
  · rfl
  · split <;> simp

theorem length_foldl_noteNullable (ids : List RuleId) (table : NullableTable) :
    (ids.foldl g.noteNullable table).length = table.length := by
  induction ids generalizing table with
  | nil => rfl
  | cons id ids ih => rw [List.foldl_cons, ih, length_noteNullable]

/-- If nothing has changed in the end, no single look has changed anything. -/
theorem noteNullable_eq_of_foldl {ids : List RuleId} {table : NullableTable}
    (h : ids.foldl g.noteNullable table = table) :
    ∀ id ∈ ids, g.noteNullable table id = table := by
  induction ids with
  | nil => simp
  | cons id ids ih =>
    rw [List.foldl_cons] at h
    rcases g.noteNullable_count table id with hsame | hless
    · rw [hsame] at h
      simpa using ⟨hsame, ih h⟩
    · -- entries are never taken back
      exfalso
      rcases g.foldl_noteNullable_count ids (g.noteNullable table id) with h' | h' <;>
        rw [h] at h'
      · rw [← h'] at hless
        omega
      · omega

/-- A table that looks at all rules, in whatever order, do not change is closed. -/
theorem closed_of_foldl_eq {ids : List RuleId} {table : NullableTable} (hlen : table.length = g.size)
    (hall : ∀ id < g.size, id ∈ ids) (h : ids.foldl g.noteNullable table = table) :
    g.Closed table.knows := by
  intro id r hr hbody
  have hid : id < table.length := hlen ▸ (List.getElem?_eq_some_iff.mp hr).1
  have hnote := noteNullable_eq_of_foldl h id (hall id (hlen ▸ hid))
  cases hno : table.knows id with
  | true => rfl
  | false =>
    simp only [noteNullable, hr, hno, hbody, Bool.not_false, Bool.and_self, if_true] at hnote
    rw [← hno, ← hnote]
    simp [NullableTable.knows, hid]

theorem nullableFrom_closed (table : NullableTable) (hlen : table.length = g.size) :
    g.Closed (g.nullableFrom table).knows := by
  fun_induction nullableFrom g table with
  | case1 table next h => exact closed_of_foldl_eq hlen (fun _ => List.mem_range.mpr) h
  | case2 table next h ih => exact ih ((length_foldl_noteNullable _ table).trans hlen)

theorem nullableTable_closed (g : Grammar) : g.Closed g.nullableTable.knows :=
  nullableFrom_closed _ (by simp [size])

end Grammar

theorem literal_nullable {text : String} {c stop : Cursor} (h : c.Reads text.toList stop)
    (hstop : stop.offset ≤ c.offset) : text.isEmpty = true := by
  refine Decidable.byContradiction fun hne => ?_
  have hlt := h.offset_lt (fun hnil => hne (by simpa using hnil))
  omega

/-- What is added in front of captures does not matter for where a match stops. -/
theorem Verdict.after_eq_hit {ts us : List Tree} {v : Verdict} {stop : Cursor}
    (h : v.after ts = .hit stop us) : ∃ vs, v = .hit stop vs := by
  cases v with
  | fail => cases h
  | hit stop' vs =>
    cases h
    exact ⟨vs, rfl⟩

/-- An expression that matches and consumes nothing is nullable. -/
theorem Matches.nullable {g : Grammar} {known : RuleId → Bool} (hclosed : g.Closed known)
    {mode : Mode} {lead : Bool} {e : Expr} {c : Cursor} {v : Verdict}
    (h : Matches g mode lead e c v) {stop : Cursor} {ts : List Tree} (hv : v = .hit stop ts)
    (hstop : stop.offset ≤ c.offset) : e.nullable known = true := by
  induction h generalizing stop ts with
  | empty | endOfInput | repetition_fail | repetition_idle | repetition_again | optional_hit
  | optional_fail | negation_hit | sequence_nil => rfl
  | literal_fail | range_fail | endOfInput_fail | capture_fail | sequence_fail | choice_nil
  | negation_fail => cases hv
  | literal ht =>
    cases hv
    exact literal_nullable ht hstop
  | range ht _ _ =>
    cases hv
    have hlt := ht.offset_lt (List.cons_ne_nil _ _)
    omega
  | rule hr _ ih => exact hclosed _ _ hr (ih hv hstop)
  | capture_leaf _ _ ih | capture_branch _ ih =>
    cases hv
    exact ih rfl hstop
  | lead_unskipped _ _ _ ih | lead_failed _ _ _ _ _ ih => exact ih hv hstop
  | lead_skipped _ _ hs _ _ ih =>
    obtain ⟨vs, rfl⟩ := Verdict.after_eq_hit hv
    have := hs.reaches.offset_le
    exact ih rfl (by omega)
  | @sequence_cons _ _ t _ _ _ _ _ ht hrest iht ih =>
    -- both the element and the rest have consumed nothing
    obtain ⟨vs, rfl⟩ := Verdict.after_eq_hit hv
    have hfirst := ht.reaches.offset_le
    have hsecond := hrest.reaches.offset_le
    have hterm := iht rfl (by omega)
    have hterms : allNullable known _ = true := ih rfl (by omega)
    cases t
    simp only [Expr.nullable, allNullable, Bool.and_eq_true]
    exact ⟨hterm, hterms⟩
  | choice_first _ ih =>
    simp [Expr.nullable, anyNullable, ih hv hstop]
  | choice_next _ _ _ ih =>
    have hlater : anyNullable known _ = true := ih hv hstop
    simp [Expr.nullable, anyNullable, hlater]

end PegTree
