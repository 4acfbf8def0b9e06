import PegTree.Proofs.Grammar.Nullable
import PegTree.Proofs.Match.Exactness
import PegTree.Proofs.Tree.Equality

/-!
# What stops where it began

The check for left recursion trusts the table of nullable rules: an expression that it does not call
nullable is taken to consume something.  Running the expression bears that out.  Whatever is run and stops
where it began is nullable, and a rule that is not stops at a later byte (`nullable_of_eval`).

The skip rule needs no case of its own here.  It may run in front of an expression, but where the whole
stops at its beginning the skip rule has stopped there too.
-/

namespace PegTree

/-! ## Expressions that occur in a grammar -/

/-- The parts of an expression, the whole one among them. -/
inductive Expr.PartOf (e : Expr) : Expr → Prop
  | whole : PartOf e e
  | element {t terms} : t ∈ terms → PartOf e t.expr → PartOf e (.sequence terms)
  | alternative {first alternatives} :
      first ∈ alternatives → PartOf e first → PartOf e (.choice alternatives)
  | repetition {body} : PartOf e body → PartOf e (.repetition body)
  | optional {body} : PartOf e body → PartOf e (.optional body)
  | negation {body} : PartOf e body → PartOf e (.negation body)

/-- An expression occurs in a grammar as a part of some body, that of the skip rule included. -/
def Grammar.Occurs (g : Grammar) (e : Expr) : Prop :=
  ∃ body ∈ g.bodies, e.PartOf body

theorem mem_mentionsOfTerms_of_mem {x : Mention} {t : Term} {terms : List Term} (ht : t ∈ terms)
    (hx : x ∈ t.expr.mentions) : x ∈ mentionsOfTerms terms := by
  induction terms with
  | nil => cases ht
  | cons first more ih =>
    cases first
    rw [mentionsOfTerms]
    rcases List.mem_cons.mp ht with rfl | ht
    · exact List.mem_append_left _ hx
    · exact List.mem_append_right _ (ih ht)

theorem mem_mentionsOfAll_of_mem {x : Mention} {e : Expr} {es : List Expr} (he : e ∈ es)
    (hx : x ∈ e.mentions) : x ∈ mentionsOfAll es := by
  induction es with
  | nil => cases he
  | cons first more ih =>
    rw [mentionsOfAll]
    rcases List.mem_cons.mp he with rfl | he
    · exact List.mem_append_left _ hx
    · exact List.mem_append_right _ (ih he)

/-- What a part mentions the whole mentions. -/
theorem Expr.PartOf.mentions_subset {e whole : Expr} (h : e.PartOf whole) :
    ∀ x ∈ e.mentions, x ∈ whole.mentions := by
  induction h with
  | whole => exact fun _ hx => hx
  | element ht _ ih => exact fun x hx => mem_mentionsOfTerms_of_mem ht (ih x hx)
  | alternative hfirst _ ih => exact fun x hx => mem_mentionsOfAll_of_mem hfirst (ih x hx)
  | repetition _ ih | optional _ ih | negation _ ih => exact ih

theorem Grammar.Resolved.within {g : Grammar} (hg : g.Resolved) {e : Expr} (he : g.Occurs e) :
    e.Within g.size := by
  obtain ⟨body, hbody, hpart⟩ := he
  exact fun x hx => hg body hbody x (hpart.mentions_subset x hx)

/-! ## Runs that stop where they began -/

/-- What is shown to stop has matched up to there. -/
theorem Outcome.Shown.exists_hit {o : Outcome} {out out' : Array Tree} {m m' : Matcher}
    {stop : Cursor} (h : o.Shown out m (.ok (some stop, out'), m')) :
    ∃ ts, o.verdict? = some (.hit stop ts) := by
  obtain ⟨v, hv, hanswer⟩ := h.eq_answer (fun _ => nofun)
  cases v with
  | fail => cases hanswer
  | hit stop' ts =>
    cases hanswer
    exact ⟨ts, hv⟩

namespace Grammar

variable {g : Grammar} {left : Nat} {c stop : Cursor} {out out' : Array Tree} {m m' : Matcher}

/-- An expression that stops somewhere when it is run matches up to there. -/
theorem matches_of_eval (hg : g.Resolved) {e : Expr} (he : e.Within g.size) {lead : Bool}
    (h : (e.eval (g.surroundings (g.run left)) lead c).runOn out m = (.ok (some stop, out'), m')) :
    ∃ mode ts, Matches g mode lead e c (.hit stop ts) := by
  obtain ⟨mode, hshown⟩ := g.exists_shown left e lead c out m
  rw [h] at hshown
  obtain ⟨ts, hverdict⟩ := hshown.exists_hit
  exact ⟨mode, ts, Expr.outcome_matches (frame_sound hg (outcome_matches hg left) mode _) e he hverdict⟩

/-- A rule that stops somewhere when it is called matches up to there. -/
theorem matches_of_run (hg : g.Resolved) {id : RuleId} (hid : id < g.size)
    (h : (g.run left id c).runOn out m = (.ok (some stop, out'), m')) :
    ∃ mode ts, Matches g mode false (.rule id) c (.hit stop ts) := by
  obtain ⟨mode, hmode⟩ := exists_mode m.skipping
  have hfits : (g.frame (g.outcome left) mode m.stack.head?).Fits mode m := ⟨hmode, fun _ => rfl⟩
  have hshown := g.run_follows left _ mode id c m hfits out
  rw [h] at hshown
  obtain ⟨ts, hverdict⟩ := hshown.exists_hit
  exact ⟨mode, ts, outcome_matches hg left hid hverdict⟩

end Grammar

/-- An expression of a compiled grammar that stops where it began is nullable: in the skip rule or
outside of it, in leading position or not, at whatever place, on any child list, in any state and with any
number of calls left.  So a rule that is not marked as nullable consumes at least a byte whenever it
matches. -/
theorem nullable_of_eval {source : Source} {g : Grammar} (hg : Grammar.compile source = .ok g) :
    (∀ e, g.Occurs e → ∀ (left : Nat) (lead : Bool) (c stop : Cursor) (out out' : Array Tree)
      (m m' : Matcher),
      (e.eval (g.surroundings (g.run left)) lead c).runOn out m = (.ok (some stop, out'), m') →
      stop.offset = c.offset → e.nullable g.nullableTable.knows = true) ∧
    ∀ id < g.size, g.nullableTable.knows id = false →
      ∀ (left : Nat) (c stop : Cursor) (out out' : Array Tree) (m m' : Matcher),
      (g.run left id c).runOn out m = (.ok (some stop, out'), m') → c.offset < stop.offset := by
  have hresolved := Grammar.resolved_of_compile hg
  constructor
  · intro e he left lead c stop out out' m m' h hstop
    obtain ⟨mode, ts, hmatches⟩ := Grammar.matches_of_eval hresolved (hresolved.within he) h
    exact hmatches.nullable g.nullableTable_closed rfl (Nat.le_of_eq hstop)
  · intro id hid hmark left c stop out out' m m' h
    obtain ⟨mode, ts, hmatches⟩ := Grammar.matches_of_run hresolved hid h
    by_contra hidle
    have hnullable : (Expr.rule id).nullable g.nullableTable.knows = true :=
      hmatches.nullable g.nullableTable_closed rfl (Nat.le_of_not_lt hidle)
    rw [Expr.nullable, hmark] at hnullable
    cases hnullable

/-- A rule that may match nothing by way of another, and one that goes on behind it. -/
def optionalText : Source :=
  ⟨"optional", "= \x7b' '\x7d; a = b; b = ['x']; c = a 'y';"⟩

/-- What `optionalText` compiles to. -/
def optionalGrammar : Grammar where
  rules :=
    [⟨"a", .rule 1, ⟨9, 10⟩⟩,
      ⟨"b", .optional (.literal "x"), ⟨16, 17⟩⟩,
      ⟨"c", .sequence [⟨false, .rule 0⟩, ⟨false, .literal "y"⟩], ⟨27, 28⟩⟩]
  skip := some (.repetition (.literal " "))

theorem compile_optionalText : Grammar.compile optionalText = .ok optionalGrammar :=
  toOption_eq_some_iff.mp (by decide +kernel)

/-- In front of `y` the first rule stops where it began, the last one behind the letter. -/
theorem nullable_of_eval_optional :
    (Expr.rule 0).nullable optionalGrammar.nullableTable.knows = true ∧
      (Cursor.start ['y']).offset < (Cursor.mk 1 []).offset := by
  obtain ⟨hexpr, hrule⟩ := nullable_of_eval compile_optionalText
  constructor
  · have hoccurs : optionalGrammar.Occurs (.rule 0) :=
      ⟨_, List.mem_of_getElem? (i := 2) rfl, .element List.mem_cons_self .whole⟩
    exact hexpr _ hoccurs 2 true (.start ['y']) (.start ['y']) #[] #[] .initial
      ⟨[], false, 0, ⟨0, ["\"x\""], some 1⟩⟩ (by decide +kernel) rfl
  · exact hrule 2 (by decide) (by decide +kernel) 3 (.start ['y']) ⟨1, []⟩ #[] #[] .initial
      ⟨[], false, 0, ⟨0, ["\"x\""], some 1⟩⟩ (by decide +kernel)

end PegTree
