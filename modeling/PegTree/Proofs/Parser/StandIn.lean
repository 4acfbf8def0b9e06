import PegTree.Proofs.Match.Alike
import PegTree.Proofs.Parser.Order

/-!
# Grammars that stand in for one another

One grammar stands in for another if nobody who uses a parser can tell: it is accepted as the other one
is, the same rules may match nothing, and with the same entries, the same requirement on the end of the
text and the same limit every text is answered in the same way, whether by a tree or by a report
(`Grammar.StandsInFor`).

A grammar with well-formed bodies that are alike to those of a compiled one stands in for it
(`Grammar.Alike.standsInFor`).
-/

namespace PegTree

/-- What building a parser and parsing a source with it answers. -/
def Builder.reply (b : Builder) (input : Source) : Except GrammarError (Except ParseError Tree) :=
  (·.parse input) <$> b.build

/-- A grammar in place of which another one may be used. -/
structure Grammar.StandsInFor (g' g : Grammar) : Prop where
  /-- Some text compiles to it, but for the places of its names. -/
  accepted : ∃ source g'', compile source = .ok g'' ∧ g''.unspanned = g'.unspanned
  /-- The same rules may match nothing. -/
  nullable : g'.nullableTable = g.nullableTable
  /-- The skip rule may match nothing if it could before. -/
  skip_nullable : g'.skip.map (Expr.nullable g'.nullableTable.knows) =
    g.skip.map (Expr.nullable g.nullableTable.knows)
  /-- A parser answers every text as before. -/
  parses : ∀ (entries : List RuleId) (full : Bool) (maxDepth : Nat) (input : Source),
    (⟨g', entries, full, maxDepth⟩ : Parser).parse input =
      (⟨g, entries, full, maxDepth⟩ : Parser).parse input
  /-- So does whatever is built of any text that compiles to it, with entries given by name. -/
  replies : ∀ {source other g''}, compile source = .ok g → compile other = .ok g'' →
    g''.unspanned = g'.unspanned → ∀ (b : Builder) (input : Source),
      (b.withGrammar other).reply input = (b.withGrammar source).reply input

namespace Grammar.Alike

variable {kind : Frame → Prop} {g g' : Grammar} {entries : List RuleId} {full : Bool} {limit : Nat}

/-! ## Parses -/

section

variable (h : g.Alike kind g') (hkind : g.RunsIn kind) (call : Mode → RuleId → Cursor → Outcome)

include h hkind

theorem endOutcome_eq (stop : Cursor) :
    (⟨g', entries, full, limit⟩ : Parser).endOutcome call stop =
      (⟨g, entries, full, limit⟩ : Parser).endOutcome call stop := by
  unfold Parser.endOutcome
  rw [h.skipOutcome_eq hkind]

theorem entryOutcome_eq (start : Cursor) (entry : RuleId) :
    (⟨g', entries, full, limit⟩ : Parser).entryOutcome call start entry =
      (⟨g, entries, full, limit⟩ : Parser).entryOutcome call start entry := by
  have hend : (⟨g', entries, full, limit⟩ : Parser).endOutcome call =
      (⟨g, entries, full, limit⟩ : Parser).endOutcome call :=
    funext (h.endOutcome_eq hkind call)
  unfold Parser.entryOutcome
  rw [hend]

theorem entriesOutcome_eq (start : Cursor) (tried : List RuleId) :
    (⟨g', entries, full, limit⟩ : Parser).entriesOutcome call start tried =
      (⟨g, entries, full, limit⟩ : Parser).entriesOutcome call start tried := by
  induction tried with
  | nil => rfl
  | cons entry more ih =>
    rw [Parser.entriesOutcome, Parser.entriesOutcome, h.entryOutcome_eq hkind, ih]

end

/-- Reports call the rules by the same names. -/
theorem answers_eq (h : g.Alike kind g') (source : Source) (o : Outcome) :
    (⟨g', entries, full, limit⟩ : Parser).Answers source o =
      (⟨g, entries, full, limit⟩ : Parser).Answers source o := by
  have hname : (⟨g', entries, full, limit⟩ : Parser).ruleName =
      (⟨g, entries, full, limit⟩ : Parser).ruleName := h.name_eq
  funext answer
  cases o with
  | overflow o => simp only [Parser.Answers, Parser.tooDeep, hname]
  | failed log => simp only [Parser.Answers, Parser.unexpected, hname]
  | matched stop ts log => rfl

theorem parse_eq (h : g.Alike kind g') (hkind : g.RunsIn kind) (input : Source) :
    (⟨g', entries, full, limit⟩ : Parser).parse input =
      (⟨g, entries, full, limit⟩ : Parser).parse input := by
  have hanswer := (⟨g', entries, full, limit⟩ : Parser).parse_eq input
  have hanswer' := (⟨g, entries, full, limit⟩ : Parser).parse_eq input
  rw [h.answers_eq] at hanswer
  simp only [Parser.textOutcome, h.outcome_eq hkind, h.entriesOutcome_eq hkind] at hanswer hanswer'
  exact hanswer.unique hanswer'

/-! ## Built parsers -/

theorem resolveEntries_eq (h : g.Alike kind g') (names : List String) :
    Builder.resolveEntries g' names = Builder.resolveEntries g names := by
  induction names with
  | nil => rfl
  | cons name more ih => rw [Builder.resolveEntries, Builder.resolveEntries, h.ruleId?_eq, ih]

theorem reply_eq (h : g.Alike kind g') (hkind : g.RunsIn kind) {source other : Source}
    (hg : compile source = .ok g) (hg' : compile other = .ok g') (b : Builder) (input : Source) :
    (b.withGrammar other).reply input = (b.withGrammar source).reply input := by
  have hbuild := Builder.build_of_compile (b := b.withGrammar source) hg
  have hbuild' := Builder.build_of_compile (b := b.withGrammar other) hg'
  rw [Builder.reply, Builder.reply, hbuild, hbuild']
  show (fun p : Parser => p.parse input) <$> (if b.entries.isEmpty then _ else
      (⟨g', ·, b.full, b.maxDepth⟩) <$> Builder.resolveEntries g' b.entries) =
    (fun p : Parser => p.parse input) <$> (if b.entries.isEmpty then _ else
      (⟨g, ·, b.full, b.maxDepth⟩) <$> Builder.resolveEntries g b.entries)
  rw [h.resolveEntries_eq]
  split
  · rfl
  · cases Builder.resolveEntries g b.entries with
    | error e => rfl
    | ok ids => exact congrArg Except.ok (h.parse_eq hkind input)

/-! ## Standing in -/

/-- A grammar alike to a well-formed one is well-formed if its bodies are. -/
theorem wellFormed (h : g.Alike kind g') (hg : g.WellFormed)
    (hbodies : ∀ e ∈ g'.bodies, e.WellFormed g'.size) : g'.WellFormed where
  names := h.names_eq ▸ hg.names
  identifiers := h.names_eq ▸ hg.identifiers
  bodies := hbodies
  acyclic hcyclic := hg.acyclic (h.cyclic_iff.mp hcyclic)

/-- A grammar alike to a well-formed one stands in for it if its bodies are well-formed. -/
theorem standsInFor (h : g.Alike kind g') (hkind : g.RunsIn kind) (hg : g.WellFormed)
    (hbodies : ∀ e ∈ g'.bodies, e.WellFormed g'.size) : g'.StandsInFor g where
  accepted := ⟨_, (h.wellFormed hg hbodies).exists_compile_source⟩
  nullable := h.seenAlike.nullableTable_eq
  skip_nullable := by
    rw [h.seenAlike.nullableTable_eq]
    exact h.skip_nullable_eq _
  parses _ _ _ input := h.parse_eq hkind input
  replies hcompile hcompile' hsame b input := (h.congr hsame).reply_eq hkind hcompile hcompile' b input

end Grammar.Alike

end PegTree
