import PegTree.Proofs.Grammar.Cycle
import PegTree.Proofs.Notation.Faults
import PegTree.Proofs.Parser.Build

/-!
# What a builder is refused for

A builder is looked through in a fixed order, and the first thing that is wrong is the answer: a text that
is not in the notation, definitions that repeat each other, a fault in a body, a cycle of leading calls,
no entry rule, an entry rule that is not defined.  Each of these is reported exactly if it is there and
nothing in front of it is, with the first place in the text at which it is there (`build_validates`).

`Grammar.Judged` says this of definitions and `Builder.Judged` of entry rules.  Between the two stands the
text: its definitions are those that are derived from its tokens, each kept with the place where it stands.
-/

namespace PegTree

/-- Whether nothing is wrong in any body. -/
def Faultless (ds : List Definition) : Prop :=
  ∀ s ∈ ds.flatMap Definition.sites, ∀ fault place,
    ¬ s.Offends (ds.filterMap Definition.key) fault place

/-- Faults of names and characters in bodies. -/
def GrammarFault.OfBody : GrammarFault → Prop
  | .undefinedRule _ _ => True
  | .invalidCharacter _ _ => True
  | _ => False

theorem Site.Offends.ofBody {names : List String} {s : Site} {fault : GrammarFault} {place : Span}
    (h : s.Offends names fault place) : fault.OfBody := by
  cases h <;> trivial

theorem LeftmostOffence.ofBody {names : List String} {sites : List Site} {fault : GrammarFault}
    (h : LeftmostOffence names sites fault) : fault.OfBody := by
  obtain ⟨s, -, place, hoffends, -⟩ := h
  exact hoffends.ofBody

theorem LeftmostOffence.not_faultless {ds : List Definition} {fault : GrammarFault}
    (h : LeftmostOffence (ds.filterMap Definition.key) (ds.flatMap Definition.sites) fault) :
    ¬ Faultless ds := by
  obtain ⟨s, hs, place, hoffends, -⟩ := h
  exact fun hno => hno s hs fault place hoffends

/-! ## Definitions -/

namespace Grammar

/-- What becomes of definitions: what is wrong with them, or the grammar that they stand for. -/
inductive Judged (ds : List Definition) : Except GrammarFault Grammar → Prop
  | repeated {again first : Definition} :
      FirstRepeat ds again first →
      Judged ds (.error (.duplicateRule again.key again.mark first.mark))
  | faulty {fault : GrammarFault} :
      (ds.map Definition.key).Nodup →
      LeftmostOffence (ds.filterMap Definition.key) (ds.flatMap Definition.sites) fault →
      Judged ds (.error fault)
  | recursive {g : Grammar} {cycle : List String} {span : Span} :
      (ds.map Definition.key).Nodup → Faultless ds → g.LoweredFrom ds → g.Resolved → g.Cyclic →
      Judged ds (.error (.leftRecursion cycle span))
  | accepted {g : Grammar} :
      (ds.map Definition.key).Nodup → Faultless ds → g.LoweredFrom ds → g.Resolved → ¬ g.Cyclic →
      Judged ds (.ok g)

/-- Definitions that stand in a text are judged by what is wrong with them. -/
theorem judged_ofDefinitions {ds : List Definition} {c d : Cursor}
    (hrow : Row Definition.Stands c ds d) : Judged ds (ofDefinitions ds) := by
  rw [ofDefinitions]
  cases hdistinct : checkDistinct ds with
  | error fault =>
    obtain ⟨again, first, hrepeat, rfl⟩ := checkDistinct_eq_error_iff.mp hdistinct
    exact .repeated hrepeat
  | ok u =>
    have hkeys := checkDistinct_eq_ok_iff.mp hdistinct
    cases hresolved : resolveAll (ds.filterMap Definition.key) ds with
    | error fault => exact .faulty hkeys ((resolveAll_eq_error_iff hrow).mp hresolved)
    | ok resolved =>
      have hfaultless : Faultless ds := (exists_resolveAll_iff hrow).mp ⟨resolved, hresolved⟩
      have hlowered := loweredFrom_of_resolveAll hkeys hresolved
      have hg := resolved_of_resolveAll hresolved
      cases hleft : (ofResolved resolved).checkLeftRecursion with
      | error fault =>
        obtain ⟨cycle, span, hcycle, rfl⟩ := checkLeftRecursion_eq_error hleft
        have hcyclic := (firstCycle?_isSome_iff hg).mp (Option.isSome_of_eq_some hcycle)
        have hjudged : Judged ds (.error (.leftRecursion (cycle.map (ofResolved resolved).name) span)) :=
          .recursive hkeys hfaultless hlowered hg hcyclic
        simpa only [bind, Except.bind, hleft] using hjudged
      | ok u =>
        have hnone := checkLeftRecursion_eq_ok_iff.mp hleft
        have hacyclic : ¬ (ofResolved resolved).Cyclic := by
          rw [← firstCycle?_isSome_iff hg, hnone]
          simp
        simpa only [bind, Except.bind, hleft] using
          Judged.accepted hkeys hfaultless hlowered hg hacyclic

namespace Judged

variable {ds : List Definition} {r : Except GrammarFault Grammar}

theorem duplicate_iff (h : Judged ds r) :
    (∃ name again first, r = .error (.duplicateRule name again first)) ↔
      ¬ (ds.map Definition.key).Nodup := by
  cases h with
  | repeated hrepeat => exact iff_of_true ⟨_, _, _, rfl⟩ hrepeat.not_nodup
  | faulty hkeys hleft =>
    refine iff_of_false ?_ (not_not_intro hkeys)
    rintro ⟨name, again, first, ⟨⟩⟩
    exact hleft.ofBody
  | recursive hkeys | accepted hkeys =>
    refine iff_of_false ?_ (not_not_intro hkeys)
    rintro ⟨name, again, first, ⟨⟩⟩

theorem firstRepeat {name : Option String} {again first : Span}
    (h : Judged ds (.error (.duplicateRule name again first))) :
    ∃ d e, FirstRepeat ds d e ∧ name = d.key ∧ again = d.mark ∧ first = e.mark := by
  cases h with
  | repeated hrepeat => exact ⟨_, _, hrepeat, rfl, rfl, rfl⟩
  | faulty _ hleft => exact hleft.ofBody.elim

theorem body_iff (h : Judged ds r) :
    (∃ fault, fault.OfBody ∧ r = .error fault) ↔
      (ds.map Definition.key).Nodup ∧ ¬ Faultless ds := by
  cases h with
  | repeated hrepeat =>
    refine iff_of_false ?_ fun hno => hrepeat.not_nodup hno.1
    rintro ⟨fault, hbody, ⟨⟩⟩
    exact hbody
  | faulty hkeys hleft =>
    exact iff_of_true ⟨_, hleft.ofBody, rfl⟩ ⟨hkeys, hleft.not_faultless⟩
  | recursive _ hfaultless =>
    refine iff_of_false ?_ fun hno => hno.2 hfaultless
    rintro ⟨fault, hbody, ⟨⟩⟩
    exact hbody
  | accepted _ hfaultless =>
    refine iff_of_false ?_ fun hno => hno.2 hfaultless
    rintro ⟨fault, -, ⟨⟩⟩

theorem leftmost {fault : GrammarFault} (h : Judged ds (.error fault)) (hbody : fault.OfBody) :
    LeftmostOffence (ds.filterMap Definition.key) (ds.flatMap Definition.sites) fault := by
  cases h with
  | repeated | recursive => exact hbody.elim
  | faulty _ hleft => exact hleft

theorem leftRecursion_iff (h : Judged ds r) :
    (∃ cycle span, r = .error (.leftRecursion cycle span)) ↔
      (ds.map Definition.key).Nodup ∧ Faultless ds ∧ ∃ g : Grammar, g.LoweredFrom ds ∧ g.Cyclic := by
  cases h with
  | repeated hrepeat =>
    refine iff_of_false ?_ fun hno => hrepeat.not_nodup hno.1
    rintro ⟨cycle, span, ⟨⟩⟩
  | faulty _ hleft =>
    refine iff_of_false ?_ fun hno => hleft.not_faultless hno.2.1
    rintro ⟨cycle, span, ⟨⟩⟩
    exact hleft.ofBody
  | recursive hkeys hfaultless hlowered _ hcyclic =>
    exact iff_of_true ⟨_, _, rfl⟩ ⟨hkeys, hfaultless, _, hlowered, hcyclic⟩
  | accepted _ _ hlowered hg hacyclic =>
    refine iff_of_false ?_ ?_
    · rintro ⟨cycle, span, ⟨⟩⟩
    · rintro ⟨-, -, g', hlowered', hcyclic⟩
      exact hacyclic ((cyclic_congr hg (hlowered'.unique hlowered)).mp hcyclic)

theorem compiles_iff (h : Judged ds r) :
    (∃ g, r = .ok g) ↔
      (ds.map Definition.key).Nodup ∧ Faultless ds ∧ ¬ ∃ g : Grammar, g.LoweredFrom ds ∧ g.Cyclic := by
  cases h with
  | repeated hrepeat =>
    refine iff_of_false ?_ fun hno => hrepeat.not_nodup hno.1
    rintro ⟨g, ⟨⟩⟩
  | faulty _ hleft =>
    refine iff_of_false ?_ fun hno => hleft.not_faultless hno.2.1
    rintro ⟨g, ⟨⟩⟩
  | recursive _ _ hlowered _ hcyclic =>
    refine iff_of_false ?_ fun hno => hno.2.2 ⟨_, hlowered, hcyclic⟩
    rintro ⟨g, ⟨⟩⟩
  | accepted hkeys hfaultless hlowered hg hacyclic =>
    refine iff_of_true ⟨_, rfl⟩ ⟨hkeys, hfaultless, ?_⟩
    rintro ⟨g', hlowered', hcyclic⟩
    exact hacyclic ((cyclic_congr hg (hlowered'.unique hlowered)).mp hcyclic)

theorem loweredFrom {g : Grammar} (h : Judged ds (.ok g)) : g.LoweredFrom ds := by
  cases h with
  | accepted _ _ hlowered => exact hlowered

end Judged

end Grammar

/-! ## Builders -/

namespace Builder

/-- The text of the grammar is refused for this fault. -/
def Refused (b : Builder) (fault : GrammarFault) : Prop :=
  b.build = .error (.refused b.source fault)

/-- The text of the grammar is not refused. -/
def Compiles (b : Builder) : Prop :=
  ∃ g, Grammar.compile b.source = .ok g

/-- How a builder ends: its text is refused, its entry rules are, or a parser is built. -/
inductive Judged (b : Builder) : Except GrammarError Parser → Prop
  | refused {fault : GrammarFault} :
      Grammar.ofText b.source.text.toList = .error fault →
      Judged b (.error (.refused b.source fault))
  | noEntry {g : Grammar} :
      Grammar.compile b.source = .ok g → b.entries = [] → Judged b (.error .noEntry)
  | unknownEntry {g : Grammar} {name : String} :
      Grammar.compile b.source = .ok g →
      b.entries.find? (· ∉ g.rules.map Rule.name) = some name →
      Judged b (.error (.unknownEntry name))
  | parser {p : Parser} :
      Grammar.compile b.source = .ok p.grammar → b.entries ≠ [] →
      b.entries.find? (· ∉ p.grammar.rules.map Rule.name) = none →
      Judged b (.ok p)

theorem judged_build (b : Builder) : b.Judged b.build := by
  cases hcompile : Grammar.compile b.source with
  | error e =>
    obtain ⟨fault, rfl⟩ := Grammar.exists_refused_of_compile hcompile
    rw [build_of_refused hcompile]
    exact .refused (Grammar.compile_eq_error_iff.mp hcompile)
  | ok g =>
    rw [build_of_compile hcompile]
    split
    · next hempty => exact .noEntry hcompile (List.isEmpty_iff.mp hempty)
    · next hentries =>
      have hfirst := fault?_resolveEntries g b.entries
      cases hids : resolveEntries g b.entries with
      | error e =>
        rw [hids] at hfirst
        obtain ⟨name, hname, rfl⟩ := Option.map_eq_some_iff.mp hfirst.symm
        exact .unknownEntry hcompile hname
      | ok ids =>
        rw [hids] at hfirst
        exact .parser hcompile (by simpa using hentries) (Option.map_eq_none_iff.mp hfirst.symm)

/-- What becomes of a builder whose text has these definitions.  What is looked for later is reported only if
nothing that is looked for earlier is there. -/
structure Validated (b : Builder) (ds : List Definition) : Prop where
  duplicate :
    (∃ name again first, b.Refused (.duplicateRule name again first)) ↔
      ¬ (ds.map Definition.key).Nodup
  duplicate_first : ∀ name again first, b.Refused (.duplicateRule name again first) →
    ∃ d e, FirstRepeat ds d e ∧ name = d.key ∧ again = d.mark ∧ first = e.mark
  body :
    (∃ fault, fault.OfBody ∧ b.Refused fault) ↔ (ds.map Definition.key).Nodup ∧ ¬ Faultless ds
  body_leftmost : ∀ fault, fault.OfBody → b.Refused fault →
    LeftmostOffence (ds.filterMap Definition.key) (ds.flatMap Definition.sites) fault
  leftRecursion :
    (∃ cycle span, b.Refused (.leftRecursion cycle span)) ↔
      (ds.map Definition.key).Nodup ∧ Faultless ds ∧ ∃ g : Grammar, g.LoweredFrom ds ∧ g.Cyclic
  compiles :
    b.Compiles ↔
      (ds.map Definition.key).Nodup ∧ Faultless ds ∧ ¬ ∃ g : Grammar, g.LoweredFrom ds ∧ g.Cyclic
  noEntry : b.build = .error .noEntry ↔ b.Compiles ∧ b.entries = []
  unknownEntry : ∀ name, b.build = .error (.unknownEntry name) ↔
    b.Compiles ∧ b.entries.find? (· ∉ ds.filterMap Definition.key) = some name
  parser :
    (∃ p, b.build = .ok p) ↔
      b.Compiles ∧ b.entries ≠ [] ∧ ∀ name ∈ b.entries, name ∈ ds.filterMap Definition.key
  parser_entries : ∀ p, b.build = .ok p →
    Grammar.compile b.source = .ok p.grammar ∧ p.grammar.LoweredFrom ds ∧
      p.entries.map (fun id => p.grammar.rules[id]?.map Rule.name) = b.entries.map some ∧
      p.full = b.full ∧ p.maxDepth = b.maxDepth

variable {b : Builder}

theorem refused_iff {fault : GrammarFault} :
    b.Refused fault ↔ Grammar.ofText b.source.text.toList = .error fault := by
  constructor
  · intro h
    have hjudged := b.judged_build
    rw [h] at hjudged
    cases hjudged with
    | refused htext => exact htext
  · intro h
    exact build_of_refused (Grammar.compile_eq_error_iff.mpr h)

theorem compiles_iff : b.Compiles ↔ ∃ g, Grammar.ofText b.source.text.toList = .ok g :=
  exists_congr fun _ => Grammar.compile_eq_ok_iff

theorem not_compiles_of_ofText {fault : GrammarFault}
    (h : Grammar.ofText b.source.text.toList = .error fault) : ¬ b.Compiles := by
  rw [compiles_iff, h]
  rintro ⟨g, ⟨⟩⟩

/-- Only if the text is not refused does it matter that there is no entry rule. -/
theorem noEntry_iff : b.build = .error .noEntry ↔ b.Compiles ∧ b.entries = [] := by
  have hjudged := b.judged_build
  generalize b.build = r at hjudged ⊢
  cases hjudged with
  | refused h => exact iff_of_false (by simp) fun hno => not_compiles_of_ofText h hno.1
  | noEntry hg hempty => exact iff_of_true rfl ⟨⟨_, hg⟩, hempty⟩
  | unknownEntry hg hname =>
    refine iff_of_false (by simp) fun hno => ?_
    rw [hno.2] at hname
    cases hname
  | parser hg hentries => exact iff_of_false (by simp) fun hno => hentries hno.2

section

variable {names : List String}

theorem unknownEntry_iff (hnames : ∀ g, Grammar.compile b.source = .ok g → g.rules.map Rule.name = names)
    {name : String} : b.build = .error (.unknownEntry name) ↔
      b.Compiles ∧ b.entries.find? (· ∉ names) = some name := by
  have hjudged := b.judged_build
  generalize b.build = r at hjudged ⊢
  cases hjudged with
  | refused h => exact iff_of_false (by simp) fun hno => not_compiles_of_ofText h hno.1
  | noEntry hg hempty =>
    refine iff_of_false (by simp) fun hno => ?_
    rw [hempty] at hno
    cases hno.2
  | unknownEntry hg hname =>
    rw [hnames _ hg] at hname
    simp only [hname, Except.error.injEq, GrammarError.unknownEntry.injEq, Option.some.injEq]
    exact ⟨fun h => ⟨⟨_, hg⟩, h⟩, And.right⟩
  | parser hg _ hknown =>
    rw [hnames _ hg] at hknown
    exact iff_of_false (by simp) fun hno => by rw [hknown] at hno; cases hno.2

theorem exists_parser_iff (hnames : ∀ g, Grammar.compile b.source = .ok g → g.rules.map Rule.name = names) :
    (∃ p, b.build = .ok p) ↔
      b.Compiles ∧ b.entries ≠ [] ∧ ∀ name ∈ b.entries, name ∈ names := by
  have hjudged := b.judged_build
  generalize b.build = r at hjudged ⊢
  cases hjudged with
  | refused h => exact iff_of_false (by simp) fun hno => not_compiles_of_ofText h hno.1
  | noEntry hg hempty => exact iff_of_false (by simp) fun hno => hno.2.1 hempty
  | @unknownEntry g name hg hname =>
    rw [hnames _ hg] at hname
    have hunknown : name ∉ names := by simpa using List.find?_some hname
    exact iff_of_false (by simp) fun hno =>
      hunknown (hno.2.2 _ (List.mem_of_find?_eq_some hname))
  | parser hg hentries hknown =>
    rw [hnames _ hg] at hknown
    exact iff_of_true ⟨_, rfl⟩ ⟨⟨_, hg⟩, hentries, by simpa using List.find?_eq_none.mp hknown⟩

end

/-- A builder is validated by the definitions that are read and stand in its text. -/
theorem validated {ds : List Definition} {c d : Cursor} (hrow : Row Definition.Stands c ds d)
    (hread : Grammar.read b.source.text.toList = .ok ds) : b.Validated ds := by
  have hjudged : Grammar.Judged ds (Grammar.ofText b.source.text.toList) := by
    rw [Grammar.ofText_eq, hread]
    exact Grammar.judged_ofDefinitions hrow
  have hlowered : ∀ g, Grammar.compile b.source = .ok g → g.LoweredFrom ds := by
    intro g hg
    rw [Grammar.compile_eq_ok_iff.mp hg] at hjudged
    exact hjudged.loweredFrom
  have hnames := fun g hg => (hlowered g hg).names
  constructor
  case duplicate =>
    simp only [refused_iff]
    exact hjudged.duplicate_iff
  case duplicate_first =>
    intro name again first h
    rw [refused_iff.mp h] at hjudged
    exact hjudged.firstRepeat
  case body =>
    simp only [refused_iff]
    exact hjudged.body_iff
  case body_leftmost =>
    intro fault hbody h
    rw [refused_iff.mp h] at hjudged
    exact hjudged.leftmost hbody
  case leftRecursion =>
    simp only [refused_iff]
    exact hjudged.leftRecursion_iff
  case compiles =>
    rw [compiles_iff]
    exact hjudged.compiles_iff
  case noEntry => exact noEntry_iff
  case unknownEntry => exact fun name => unknownEntry_iff hnames
  case parser => exact exists_parser_iff hnames
  case parser_entries =>
    intro p hp
    obtain ⟨hg, -, hids, hfull, hdepth⟩ := build_eq_ok hp
    exact ⟨hg, hlowered _ hg, names_of_resolveEntries hids, hfull, hdepth⟩

end Builder

/-- What a builder is refused for, if anything.  Its text is in the notation or it is refused as
unreadable; if it is, the definitions that are derived from it, each kept with the place where it stands,
say what becomes of the builder. -/
theorem build_validates (b : Builder) :
    ((∃ attempts, b.Refused (.unreadable attempts)) ↔
      ¬ ∃ ts ds, Splits b.text.toList ts ∧ Derives (.grammar ds) ts []) ∧
    ∀ ts ds, Splits b.text.toList ts → Derives (.grammar ds) ts [] →
      ∃ placed stop, placed.map Definition.unspanned = ds.map Definition.unspanned ∧
        Row Definition.Stands (Cursor.start b.text.toList) placed stop ∧ b.Validated placed := by
  constructor
  · have hreadable := Grammar.compile_readable_iff b.source
    simp only [Grammar.compile_eq_error_iff] at hreadable
    simp only [Builder.refused_iff]
    exact not_iff_comm.mp hreadable |>.symm
  · intro ts ds hts hderives
    obtain ⟨placed, hread, hlike⟩ := read_complete hts hderives
    obtain ⟨stop, hrow⟩ := row_read hread
    exact ⟨placed, stop, hlike, hrow, Builder.validated hrow hread⟩

/-- A name that is not defined, then reversed bounds, a bound of two characters, a cycle, and an entry rule
that is not defined either. -/
def faultyBuilder : Builder where
  text := "a = b 'z'..'a'; c = 'xy'..'z' | c;"
  entries := ["d"]

theorem build_validates_faulty :
    faultyBuilder.Refused (.undefinedRule "b" ⟨4, 5⟩) ∧
      ∃ ds stop, Row Definition.Stands (Cursor.start faultyBuilder.text.toList) ds stop ∧
        (ds.map Definition.key).Nodup ∧
        LeftmostOffence (ds.filterMap Definition.key) (ds.flatMap Definition.sites)
          (.undefinedRule "b" ⟨4, 5⟩) := by
  have hrefused : faultyBuilder.Refused (.undefinedRule "b" ⟨4, 5⟩) := by
    unfold Builder.Refused
    decide +kernel
  obtain ⟨hreadable, hvalidates⟩ := build_validates faultyBuilder
  have hnotation : ∃ ts ds, Splits faultyBuilder.text.toList ts ∧ Derives (.grammar ds) ts [] := by
    by_contra hno
    obtain ⟨attempts, hunreadable⟩ := hreadable.mpr hno
    cases hrefused.symm.trans hunreadable
  obtain ⟨ts, ds, hts, hderives⟩ := hnotation
  obtain ⟨placed, stop, -, hrow, hvalidated⟩ := hvalidates ts ds hts hderives
  have hbody : (GrammarFault.undefinedRule "b" ⟨4, 5⟩).OfBody := trivial
  exact ⟨hrefused, placed, stop, hrow, (hvalidated.body.mp ⟨_, hbody, hrefused⟩).1,
    hvalidated.body_leftmost _ hbody hrefused⟩

end PegTree
