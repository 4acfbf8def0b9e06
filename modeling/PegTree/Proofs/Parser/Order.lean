import PegTree.Proofs.Match.Renumber
import PegTree.Proofs.Notation.Image
import PegTree.Proofs.Parser.Build
import PegTree.Proofs.Parser.Transfer

/-!
# The order of definitions

A rule is known by its name; its id only says at which place it was defined.  So a text of the same
definitions in another order describes the same parsers: it compiles too, the same names may match
nothing, and every parse gives the same answer once the ids in it are read as names
(`definitions_unordered`).

The rules of the one grammar are those of the other at other places, and so are the entries of two parsers
that were built with the same names.
-/

namespace PegTree

/-! ## Reading ids as names -/

/-- A parse tree that says the names of rules. -/
inductive NamedTree where
  | leaf (rule : String) (span : Span) (value : String)
  | branch (rule : String) (span : Span) (children : List NamedTree)

mutual

/-- The tree with names for ids. -/
def Tree.named (name : RuleId → String) : Tree → NamedTree
  | .leaf rule span value => .leaf (name rule) span value
  | .branch rule span children => .branch (name rule) span (namedTrees name children)

/-- The trees with names for ids. -/
def namedTrees (name : RuleId → String) : List Tree → List NamedTree
  | [] => []
  | t :: ts => t.named name :: namedTrees name ts

end

namespace Grammar

/-- Whether the rule of a name may match nothing, if there is one. -/
def nullable? (g : Grammar) (name : String) : Option Bool :=
  (g.ruleId? name).map g.nullableTable.knows

end Grammar

/-- What a parser says to a source, by the names of rules. -/
def Parser.namedParse (p : Parser) (source : Source) : Except ParseError NamedTree :=
  (Tree.named p.ruleName) <$> p.parse source

namespace Builder

/-- The same description for another grammar text. -/
def withGrammar (b : Builder) (source : Source) : Builder :=
  { b with text := source.text, sourceName := source.name }

theorem source_withGrammar (b : Builder) (source : Source) : (b.withGrammar source).source = source :=
  rfl

/-- What building a parser and parsing a source with it answers, by the names of rules. -/
def answer (b : Builder) (source : Source) : Except GrammarError (Except ParseError NamedTree) :=
  (·.namedParse source) <$> b.build

end Builder

/-! ## Moved rules -/

section

variable {σ : RuleId → RuleId} {name name' : RuleId → String}

mutual

theorem Tree.named_renumber (hname : ∀ id, name' (σ id) = name id) :
    ∀ t : Tree, (t.renumber σ).named name' = t.named name
  | .leaf rule span value => congrArg (NamedTree.leaf · span value) (hname rule)
  | .branch rule span children => by
    rw [Tree.renumber, Tree.named, Tree.named, hname, namedTrees_renumber hname children]

theorem namedTrees_renumber (hname : ∀ id, name' (σ id) = name id) :
    ∀ ts : List Tree, namedTrees name' (renumberTrees σ ts) = namedTrees name ts
  | [] => rfl
  | t :: ts => by
    rw [renumberTrees, namedTrees, namedTrees, Tree.named_renumber hname t,
      namedTrees_renumber hname ts]

end

/-- The record with its rule moved. -/
def Furthest.renumber (σ : RuleId → RuleId) (f : Furthest) : Furthest :=
  { f with rule := f.rule.map σ }

theorem Furthest.note_renumber (f : Furthest) (miss : Miss) :
    (f.renumber σ).note (miss.renumber σ) = (f.note miss).renumber σ := by
  by_cases hbehind : miss.offset < f.offset
  · simp only [Furthest.note, Furthest.renumber, Miss.renumber, hbehind, if_true]
  · by_cases hahead : f.offset < miss.offset
    · simp only [Furthest.note, Furthest.renumber, Miss.renumber, hbehind, hahead, if_true, if_false]
    · simp only [Furthest.note, Furthest.renumber, Miss.renumber, hbehind, hahead, if_false]
      cases f.rule <;> rfl

theorem foldl_note_renumber (log : List Miss) (f : Furthest) :
    (log.map (Miss.renumber σ)).foldl Furthest.note (f.renumber σ) =
      (log.foldl Furthest.note f).renumber σ := by
  induction log generalizing f with
  | nil => rfl
  | cons miss log ih => rw [List.map_cons, List.foldl_cons, Furthest.note_renumber, ih, List.foldl_cons]

end

namespace Parser

/-- The same parser with its rules at other places. -/
structure RenumberedBy (p : Parser) (σ : RuleId → RuleId) (p' : Parser) : Prop where
  grammar : p.grammar.RenumberedBy σ p'.grammar
  entries : p'.entries = p.entries.map σ
  full : p'.full = p.full
  maxDepth : p'.maxDepth = p.maxDepth

namespace RenumberedBy

variable {p p' : Parser} {σ : RuleId → RuleId}

/-- A text comes to the same, with the rules moved. -/
theorem textOutcome_eq (h : p.RenumberedBy σ p') (text : List Char) :
    p'.textOutcome (p'.grammar.outcome p'.maxDepth) text =
      (p.textOutcome (p.grammar.outcome p.maxDepth) text).renumber σ := by
  have hcall : ∀ mode id c, (Transfer.renumbered σ).Turns (p.grammar.outcome p.maxDepth mode id c)
      (p'.grammar.outcome p'.maxDepth mode (σ id) c) := by
    intro mode id c
    rw [h.maxDepth]
    exact (Transfer.renumbered_turns_iff σ).mpr (h.grammar.outcome_eq p.maxDepth mode id c)
  exact (Transfer.renumbered_turns_iff σ).mp
    (textOutcome_turns rfl h.full h.grammar.skip h.entries hcall text)

theorem ruleName_eq (h : p.RenumberedBy σ p') (id : RuleId) : p'.ruleName (σ id) = p.ruleName id :=
  h.grammar.name_eq id

theorem tooDeep_eq (h : p.RenumberedBy σ p') (source : Source) (o : Overflow) :
    p'.tooDeep source { o with rule := σ o.rule } = p.tooDeep source o := by
  rw [tooDeep, tooDeep, h.ruleName_eq, h.maxDepth]

theorem unexpected_eq (h : p.RenumberedBy σ p') (source : Source) (f : Furthest) :
    p'.unexpected source (f.renumber σ) = p.unexpected source f := by
  simp only [unexpected, Furthest.renumber, Option.map_map]
  congr 2
  funext id
  exact h.ruleName_eq id

/-- By the names of rules both parsers answer the same. -/
theorem namedParse_eq (h : p.RenumberedBy σ p') (source : Source) :
    p'.namedParse source = p.namedParse source := by
  have hp := p.parse_eq source
  have hp' := p'.parse_eq source
  rw [h.textOutcome_eq] at hp'
  rw [namedParse, namedParse]
  cases ho : p.textOutcome (p.grammar.outcome p.maxDepth) source.text.toList with
  | overflow o =>
    rw [ho] at hp hp'
    have hsame : p'.parse source = .error (p.tooDeep source o) := by
      rw [← h.tooDeep_eq source o]
      exact hp'
    rw [hp, hsame]
    rfl
  | failed log =>
    rw [ho] at hp hp'
    have hfurthest : (log.map (Miss.renumber σ)).foldl Furthest.note .nothing =
        (log.foldl Furthest.note .nothing).renumber σ := foldl_note_renumber log .nothing
    simp only [Outcome.renumber, Answers, hfurthest, h.unexpected_eq] at hp hp'
    rw [hp, hp']
    rfl
  | matched stop ts log =>
    rw [ho] at hp hp'
    obtain ⟨t, rfl, ht⟩ := hp
    obtain ⟨t', heq, ht'⟩ := hp'
    obtain rfl := List.singleton_inj.mp heq
    rw [ht, ht']
    exact congrArg Except.ok (Tree.named_renumber h.ruleName_eq t)

end RenumberedBy

end Parser

/-- The ids of entries are moved like all ids. -/
theorem Builder.resolveEntries_renumber {g g' : Grammar} {σ : RuleId → RuleId}
    (hid : ∀ name, g'.ruleId? name = (g.ruleId? name).map σ) (names : List String) :
    resolveEntries g' names = (List.map σ) <$> resolveEntries g names := by
  induction names with
  | nil => rfl
  | cons name more ih =>
    rw [resolveEntries, resolveEntries, hid, ih]
    cases g.ruleId? name with
    | none => rfl
    | some id => cases resolveEntries g more <;> rfl

/-- With entries of the same names a grammar and one with its rules at other places make parsers that
answer the same. -/
theorem Builder.answer_eq {b b' : Builder} {g g' : Grammar} {σ : RuleId → RuleId}
    (hg : Grammar.compile b.source = .ok g) (hg' : Grammar.compile b'.source = .ok g')
    (h : g.RenumberedBy σ g') (hid : ∀ name, g'.ruleId? name = (g.ruleId? name).map σ)
    (hentries : b'.entries = b.entries) (hfull : b'.full = b.full) (hlimit : b'.maxDepth = b.maxDepth)
    (input : Source) : b'.answer input = b.answer input := by
  rw [answer, answer, build_of_compile hg, build_of_compile hg', hentries, hfull, hlimit]
  split
  · rfl
  · rw [resolveEntries_renumber hid]
    cases resolveEntries g b.entries with
    | error e => rfl
    | ok ids =>
      have hparser : Parser.RenumberedBy ⟨g, ids, b.full, b.maxDepth⟩ σ
          ⟨g', ids.map σ, b.full, b.maxDepth⟩ := ⟨h, rfl, rfl, rfl⟩
      exact congrArg Except.ok (hparser.namedParse_eq input)

open Grammar in
/-- A text of the definitions of a text that compiles, in any order, compiles too.  Then the same names
may match nothing, and with the same entries, the same requirement on the end of the text and the same
limit a parser is built of both or of none, and every parse answers the same: the same tree of names, or
the same report. -/
theorem definitions_unordered {source other : Source} {g : Grammar} {ts us : List Token}
    {ds es : List Definition} (hcompile : compile source = .ok g)
    (hts : Splits source.text.toList ts) (hds : Derives (.grammar ds) ts [])
    (hus : Splits other.text.toList us) (hes : Derives (.grammar es) us [])
    (hperm : (es.map Definition.unspanned).Perm (ds.map Definition.unspanned)) :
    (∃ g', compile other = .ok g' ∧ ∀ name, g'.nullable? name = g.nullable? name) ∧
      ∀ (b : Builder) (input : Source),
        (b.withGrammar other).answer input = (b.withGrammar source).answer input := by
  have hlowered := loweredFrom_of_compile hcompile hts hds
  obtain ⟨σ, g₀, hmoved, hsurj, hlowered₀⟩ := (loweredFrom_map_unspanned_iff.mpr hlowered).perm hperm
  have hno : ¬ g₀.Cyclic :=
    hmoved.not_cyclic (fun _ => (hsurj _).imp fun _ => Eq.symm) (not_cyclic_of_compile hcompile)
  obtain ⟨g', hg', hsame⟩ := exists_compile_of_loweredFrom hus hes
    (loweredFrom_map_unspanned_iff.mp hlowered₀) hno
  have hmoved' : g.RenumberedBy σ g' := hmoved.congr hsame
  have hlowered' := loweredFrom_of_compile hg' hus hes
  have hid : ∀ name, g'.ruleId? name = (g.ruleId? name).map σ :=
    hmoved'.ruleId?_eq hsurj hlowered.nodup_rules hlowered'.nodup_rules
  refine ⟨⟨g', hg', fun name => ?_⟩, fun b input => ?_⟩
  · rw [nullable?, nullable?, hid]
    cases g.ruleId? name with
    | none => rfl
    | some id => exact congrArg some (hmoved'.knows_eq id)
  · rw [← b.source_withGrammar source] at hcompile
    rw [← b.source_withGrammar other] at hg'
    exact Builder.answer_eq hcompile hg' hmoved' hid rfl rfl rfl input

/-- The definitions of `pairGrammar` from the last to the first. -/
def turnedPair : Source :=
  writtenSource (pairGrammar.parts.reverse.flatMap fun x => tokensOfDefinition pairGrammar.names x.1 x.2)

theorem definitions_unordered_pair :
    ∃ g g', Grammar.compile pairGrammar.source = .ok g ∧ Grammar.compile turnedPair = .ok g' ∧
      (∀ name, g'.nullable? name = g.nullable? name) ∧
      ∀ (b : Builder) (input : Source),
        (b.withGrammar turnedPair).answer input = (b.withGrammar pairGrammar.source).answer input := by
  have hwell := Grammar.wellFormed_of_compile compile_pairText
  obtain ⟨g, hg, -⟩ := hwell.exists_compile_source
  have hts : (Node.grammar pairGrammar.definitions).WrittenAs pairGrammar.tokens :=
    hwell.writtenAs fun _ hx => hx
  have hturned : ∀ x ∈ pairGrammar.parts.reverse, x ∈ pairGrammar.parts := fun _ hx =>
    List.mem_reverse.mp hx
  have hus := hwell.writtenAs hturned
  have hperm := ((List.reverse_perm pairGrammar.parts).map fun x =>
    definitionOf pairGrammar.names x.1 x.2).map Definition.unspanned
  obtain ⟨⟨g', hg', hnull⟩, hanswer⟩ := definitions_unordered hg (splits_writtenSource hts.writable)
    hts.whole (splits_writtenSource hus.writable) hus.whole hperm
  exact ⟨g, g', hg, hg', hnull, hanswer⟩

end PegTree
