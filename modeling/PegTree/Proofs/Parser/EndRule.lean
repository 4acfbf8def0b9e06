import PegTree.Proofs.Match.Laws
import PegTree.Proofs.Match.Renumber
import PegTree.Proofs.Notation.Image
import PegTree.Proofs.Parser.Build
import PegTree.Proofs.Parser.Report
import PegTree.Proofs.Tree.Subtree

/-!
# Requiring the end of the text

That an entry has to match the whole text can be said in the grammar as well, by a rule that asks for
the end of the text behind the entry.  A parse that requires the end and a parse with that rule, with room
for one call more, come to the same (`full_parse_agrees_with_end_rule`): the end is looked for behind the
same skipped text, the misses are the same but for the rule that the last one is in, and the limit is hit
at the same call.  Only the node of the new rule is larger: it ends behind the skipped text and keeps what
the skip rule captures there.
-/

namespace PegTree

/-! ## The rule -/

/-- The tokens that define `name` as `entry` and the end of the text behind it. -/
def endTokens (name entry : String) : List Token :=
  [.name name, .sign '=', .name entry, .sign '$', .sign ';']

/-- The body that matches a rule and the end of the text behind it. -/
def endBody (entry : RuleId) : Expr :=
  .sequence [⟨false, .rule entry⟩, ⟨false, .endOfInput⟩]

/-- The definition of such a rule. -/
def endDefinition (name entry : String) : Definition :=
  ⟨some ⟨name, ⟨0, 0⟩⟩,
    [[⟨false, .reference ⟨entry, ⟨0, 0⟩⟩⟩, ⟨false, .finish⟩]], ⟨0, 0⟩⟩

theorem derives_endDefinition (name entry : String) :
    Derives (.grammar [endDefinition name entry]) (endTokens name entry) [] := by
  refine .grammar_cons (.named ?_) .grammar_nil
  exact .choice (.sequence (.plain .reference) (.elements_cons (.plain .finish) .elements_nil))
    .alternatives_nil

theorem lowers_endDefinition {names : List String} {entry : String} {id : RuleId}
    (h : names[id]? = some entry) (name : String) :
    LowersChoice names (endDefinition name entry).body (endBody id) := by
  refine .one (.many ?_ (.cons (.reference h) (.cons .finish .nil)))
  simp

/-- With the rule added a text that compiles still does, and to the same grammar with one rule more. -/
theorem exists_compile_end {source other : Source} {g : Grammar} {ts : List Token} {entry : RuleId}
    {r : Rule} {name : String} (h : Grammar.compile source = .ok g) (hts : Splits source.text.toList ts)
    (hr : g.rules[entry]? = some r) (hfresh : name ∉ g.rules.map Rule.name)
    (hus : Splits other.text.toList (ts ++ endTokens name r.name)) :
    ∃ g', Grammar.compile other = .ok g' ∧
      g'.unspanned = (g.snoc ⟨name, endBody entry, ⟨0, 0⟩⟩).unspanned := by
  obtain ⟨ds, -, hread, -⟩ := Grammar.ofText_eq_ok (Grammar.compile_eq_ok h)
  obtain ⟨ts', hts', hds⟩ := read_sound hread
  obtain rfl := hts.unique hts'
  have hg := Grammar.resolved_of_compile h
  have hlowered := Grammar.loweredFrom_of_compile h hts hds
  have hentry : entry < g.size := (List.getElem?_eq_some_iff.mp hr).1
  have hname : (ds.filterMap Definition.key ++ [name])[entry]? = some r.name := by
    rw [← hlowered.names, List.getElem?_append_left (by rwa [List.length_map]), List.getElem?_map,
      hr]
    rfl
  have hbody : (endBody entry).Within g.size := by
    simpa [endBody, Expr.Within, Expr.mentions, mentionsOfTerms] using hentry
  have hderives := hds.definitions_behind (derives_endDefinition name r.name)
  have hsnoc : (g.snoc ⟨name, endBody entry, ⟨0, 0⟩⟩).LoweredFrom (ds ++ [endDefinition name r.name]) :=
    hlowered.snoc (n := ⟨name, ⟨0, 0⟩⟩) (by rwa [← hlowered.names]) (lowers_endDefinition hname name)
  have hno := Grammar.not_cyclic_snoc hg (r := ⟨name, endBody entry, ⟨0, 0⟩⟩) hbody
    (Grammar.not_cyclic_of_compile h)
  exact Grammar.exists_compile_of_loweredFrom hus hderives hsnoc hno

/-! ## Outcomes -/

/-- What comes of looking for the end of the text behind a match that stops there. -/
def Frame.atEnd (f : Frame) (stop : Cursor) : Outcome :=
  (f.skip stop).andThen f.endOfInput

theorem endBody_outcome (f : Frame) (entry : RuleId) (c : Cursor) :
    (endBody entry).outcome f false c = (f.call entry c).andThen f.atEnd := by
  have hlast : sequenceOutcome f [⟨false, .endOfInput⟩] true = f.atEnd :=
    funext fun _ => Outcome.andThen_stay _
  show (f.call entry c).andThen (sequenceOutcome f [⟨false, .endOfInput⟩] true) = _
  rw [hlast]

/-- A single entry is run, and behind it the end is looked for. -/
theorem Parser.textOutcome_full (g : Grammar) (entry : RuleId) (limit : Nat)
    (call : Mode → RuleId → Cursor → Outcome) (text : List Char) :
    (⟨g, [entry], true, limit⟩ : Parser).textOutcome call text =
      ((call .plain entry (.start text)).captured entry (.start text)).andThen
        ((⟨g, [entry], true, limit⟩ : Parser).endOutcome call) :=
  Outcome.orElse_failed_nil _

/-- A single entry is run, and nothing is looked for behind it. -/
theorem Parser.textOutcome_single (g : Grammar) (entry : RuleId) (limit : Nat)
    (call : Mode → RuleId → Cursor → Outcome) (text : List Char) :
    (⟨g, [entry], false, limit⟩ : Parser).textOutcome call text =
      (call .plain entry (.start text)).captured entry (.start text) :=
  Outcome.orElse_failed_nil _

namespace Grammar.RenumberedBy

variable {g g' : Grammar} {σ : RuleId → RuleId}

/-- The new rule runs the entry as before, then the skip rule as before, and looks for the end. -/
theorem outcome_end (h : g.RenumberedBy σ g') (hself : g.RenumberedBy σ g) {entry last : RuleId}
    (hfixed : σ entry = entry) {r : Rule} (hr : g'.rules[last]? = some r)
    (hbody : r.body = endBody entry) (limit : Nat) (c : Cursor) :
    g'.outcome (limit + 1) .plain last c =
      (g.outcome limit .plain entry c).andThen fun stop =>
        (g.skipOutcome (g.outcome limit) .plain stop).andThen
          (g'.frame (g'.outcome limit) .plain (some last)).endOfInput := by
  have hbehind : (g'.frame (g'.outcome limit) .plain (some last)).atEnd = fun stop =>
      (g.skipOutcome (g.outcome limit) .plain stop).andThen
        (g'.frame (g'.outcome limit) .plain (some last)).endOfInput := by
    funext stop
    rw [← h.skipOutcome_eq_of_self hself]
    rfl
  rw [outcome, hr]
  show r.body.outcome _ false c = _
  rw [hbody, endBody_outcome, hbehind, ← h.outcome_eq_of_fixed hself hfixed]
  rfl

/-- Where moving ids makes no difference to an outcome, the rule of an overflow keeps its name. -/
theorem name_eq_of_overflow (h : g.RenumberedBy σ g') {v : Overflow}
    (hself : Outcome.overflow v = (Outcome.overflow v).renumber σ) : g'.name v.rule = g.name v.rule := by
  have hrule : σ v.rule = v.rule := by
    have heq := Outcome.overflow.inj hself
    exact (congrArg Overflow.rule heq).symm
  rw [← h.name_eq v.rule, hrule]

end Grammar.RenumberedBy

/-! ## Parses -/

/-- How the parse that requires the end and the parse with the rule for it agree: in a tree up to the node
of the entry, in a report up to the rule that is named, and in where rules were nested too deep. -/
def AgreeUpToEnd (g : Grammar) (text : List Char) :
    Except ParseError Tree → Except ParseError Tree → Prop
  | .ok t, .ok t' =>
    ∃ stop rest us, stop.On text ∧ t.span.stop = stop.offset ∧
      Skips g .plain stop rest us ∧ rest.rest = [] ∧
      t'.children = t.children ++ us ∧ t'.span.stop = utf8Width text
  | .error (.unexpected _ found expected _ spot),
      .error (.unexpected _ found' expected' _ spot') =>
    spot' = spot ∧ found' = found ∧ expected' = expected
  | .error (.recursionLimit _ _ rule spot), .error (.recursionLimit _ _ rule' spot') =>
    spot' = spot ∧ rule' = rule
  | _, _ => False

section

variable {g : Grammar} {p p' : Parser} {source : Source} {answer answer' : Except ParseError Tree}

/-- Overflows of one call agree if its rule has one name. -/
theorem agreeUpToEnd_overflow {v : Overflow} (h : p.Answers source (.overflow v) answer)
    (h' : p'.Answers source (.overflow v) answer') (hname : p'.ruleName v.rule = p.ruleName v.rule) :
    AgreeUpToEnd g source.text.toList answer answer' := by
  rw [h, h']
  exact ⟨rfl, hname⟩

/-- Failures agree whose furthest misses do, but for the rule. -/
theorem agreeUpToEnd_failed {log log' : List Miss} (h : p.Answers source (.failed log) answer)
    (h' : p'.Answers source (.failed log') answer')
    (hoffset : (log'.foldl Furthest.note .nothing).offset = (log.foldl Furthest.note .nothing).offset)
    (hexpected : (log'.foldl Furthest.note .nothing).expected =
      (log.foldl Furthest.note .nothing).expected) :
    AgreeUpToEnd g source.text.toList answer answer' := by
  rw [h, h', Parser.unexpected, Parser.unexpected, hoffset, hexpected]
  exact ⟨rfl, rfl, rfl⟩

end

/-- The rule of a miss has no say in where the furthest miss is and in what is expected there. -/
theorem Furthest.note_rule (f : Furthest) (miss : Miss) (rule : Option RuleId) :
    (f.note { miss with rule := rule }).offset = (f.note miss).offset ∧
      (f.note { miss with rule := rule }).expected = (f.note miss).expected := by
  by_cases hbehind : miss.offset < f.offset
  · simp only [Furthest.note, hbehind, if_true, and_self]
  · by_cases hahead : f.offset < miss.offset <;>
      simp only [Furthest.note, hbehind, hahead, if_true, if_false, and_self]

section

variable {g g' : Grammar} {entry last : RuleId} {limit : Nat} {source : Source}
  {answer answer' : Except ParseError Tree} {start stop rest : Cursor} {ts us : List Tree} {log : List Miss}

/-- Behind the skipped text the end is reached: the new rule's node goes on to it. -/
theorem agreeUpToEnd_matched (hstop : stop.On source.text.toList)
    (hskips : Skips g .plain stop rest us) (hrest : rest.On source.text.toList) (hend : rest.rest = [])
    (h : (⟨g, [entry], true, limit⟩ : Parser).Answers source
      (.matched stop [Tree.ofMatch entry start stop ts] log) answer)
    (h' : (⟨g', [last], false, limit + 1⟩ : Parser).Answers source
      (.matched rest [Tree.ofMatch last start rest (ts ++ us)] log) answer') :
    AgreeUpToEnd g source.text.toList answer answer' := by
  obtain ⟨t, ht, rfl⟩ := h
  obtain ⟨t', ht', rfl⟩ := h'
  obtain rfl := List.singleton_inj.mp ht
  obtain rfl := List.singleton_inj.mp ht'
  refine ⟨stop, rest, us, hstop, ?_, hskips, hend, ?_, ?_⟩
  · rw [Tree.span_ofMatch]
  · rw [Tree.children_ofMatch, Tree.children_ofMatch]
  · rw [Tree.span_ofMatch]
    exact hrest.offset_eq_iff.mpr hend

/-- More text is ahead behind the skipped text: the last misses only differ in their rules. -/
theorem agreeUpToEnd_more {rule : Option RuleId}
    (h : (⟨g, [entry], true, limit⟩ : Parser).Answers source
      (.failed (log ++ [⟨rest.offset, Expectation.endOfInput.describe, none⟩])) answer)
    (h' : (⟨g', [last], false, limit + 1⟩ : Parser).Answers source
      (.failed (log ++ [⟨rest.offset, Expectation.endOfInput.describe, rule⟩])) answer') :
    AgreeUpToEnd g source.text.toList answer answer' := by
  have hnote := (log.foldl Furthest.note .nothing).note_rule
    ⟨rest.offset, Expectation.endOfInput.describe, none⟩ rule
  refine agreeUpToEnd_failed h h' ?_ ?_
  · rw [List.foldl_append, List.foldl_append]
    exact hnote.1
  · rw [List.foldl_append, List.foldl_append]
    exact hnote.2

end

/-- Requiring the end behind an entry and running the rule for it come to answers that agree. -/
theorem Grammar.RenumberedBy.parses_agree {g g' : Grammar} {σ : RuleId → RuleId}
    (h : g.RenumberedBy σ g') (hself : g.RenumberedBy σ g) (hg : g.Resolved) {entry last : RuleId}
    (hfixed : σ entry = entry) {r : Rule} (hr : g'.rules[last]? = some r)
    (hbody : r.body = endBody entry) (limit : Nat) (source : Source) :
    AgreeUpToEnd g source.text.toList ((⟨g, [entry], true, limit⟩ : Parser).parse source)
      ((⟨g', [last], false, limit + 1⟩ : Parser).parse source) := by
  have hp := (⟨g, [entry], true, limit⟩ : Parser).parse_eq source
  have hp' := (⟨g', [last], false, limit + 1⟩ : Parser).parse_eq source
  rw [Parser.textOutcome_full] at hp
  rw [Parser.textOutcome_single, h.outcome_end hself hfixed hr hbody] at hp'
  have hselfcall := hself.outcome_eq limit .plain entry (.start source.text.toList)
  rw [hfixed] at hselfcall
  have hplaces := g.outcome_keeps_places limit .plain entry (.start source.text.toList)
  cases hfound : g.outcome limit .plain entry (.start source.text.toList) with
  | overflow v =>
    rw [hfound] at hp hp' hselfcall
    exact agreeUpToEnd_overflow hp hp' (h.name_eq_of_overflow hselfcall)
  | failed log =>
    rw [hfound] at hp hp'
    exact agreeUpToEnd_failed hp hp' rfl rfl
  | matched stop ts log =>
    rw [hfound] at hp hp' hplaces
    have hselfskip := hself.skipOutcome_eq (hself.outcome_eq limit) .plain stop
    simp only [Outcome.captured, Outcome.andThen, Parser.endOutcome] at hp hp'
    cases hskip : g.skipOutcome (g.outcome limit) .plain stop with
    | overflow v =>
      rw [hskip] at hp hp' hselfskip
      exact agreeUpToEnd_overflow hp hp' (h.name_eq_of_overflow hselfskip)
    | failed missed =>
      rw [hskip] at hp hp'
      exact agreeUpToEnd_failed hp hp' rfl rfl
    | matched rest us missed =>
      obtain rfl := log_skipOutcome hskip
      rw [hskip] at hp hp'
      by_cases hend : rest.rest = []
      · simp only [Frame.endOfInput, hend, List.isEmpty_nil, if_true, Outcome.stay, Outcome.after,
          List.append_nil] at hp hp'
        have hrest := g.skipOutcome_keeps_places limit .plain hplaces.1
        rw [hskip] at hrest
        have hverdict : (g.skipOutcome (g.outcome limit) .plain stop).verdict? = some (.hit rest us) := by
          rw [hskip]
          rfl
        obtain ⟨_, _, heq, hskips⟩ := skipOutcome_matches hg (outcome_matches hg limit) hverdict
        cases heq
        exact agreeUpToEnd_matched hplaces.1 hskips hrest.1 hend hp hp'
      · simp only [Frame.endOfInput, hend, List.isEmpty_iff, if_false, Outcome.after, Frame.fail,
          List.nil_append] at hp hp'
        exact agreeUpToEnd_more hp hp'

/-- The text with the rule added makes a parser for it, with the rules of before at their places. -/
theorem exists_build_end {source other : Source} {g : Grammar} {ts : List Token} {entry : RuleId}
    {r : Rule} {name : String} (h : Grammar.compile source = .ok g) (hts : Splits source.text.toList ts)
    (hr : g.rules[entry]? = some r) (hfresh : name ∉ g.rules.map Rule.name)
    (hus : Splits other.text.toList (ts ++ endTokens name r.name)) (limit : Nat) :
    ∃ g' r',
      Builder.build ⟨other.text, other.name, [name], false, limit⟩ = .ok ⟨g', [g.size], false, limit⟩ ∧
      g.RenumberedBy (Grammar.gap g.size) g' ∧ g'.rules[g.size]? = some r' ∧
      r'.body = endBody entry := by
  obtain ⟨g', hg', hsame⟩ := exists_compile_end h hts hr hfresh hus
  have hlast : g'.rules[g.size]?.map Rule.unspanned = some ⟨name, endBody entry, ⟨0, 0⟩⟩ := by
    rw [← Grammar.getElem?_unspanned, hsame, Grammar.getElem?_unspanned, Grammar.snoc, Grammar.size,
      List.getElem?_concat_length]
    rfl
  obtain ⟨r', hr', heq⟩ := Option.map_eq_some_iff.mp hlast
  have hid : g'.ruleId? name = some g.size :=
    (Grammar.ruleId?_eq_some_iff (Grammar.wellFormed_of_compile hg').names).mpr
      ⟨r', hr', congrArg Rule.name heq⟩
  refine ⟨g', r', ?_, ?_, hr', congrArg Rule.body heq⟩
  · rw [Builder.build_of_compile (b := ⟨other.text, other.name, [name], false, limit⟩) hg']
    simp only [Builder.resolveEntries, hid]
    rfl
  · exact (Grammar.renumberedBy_snoc (Grammar.resolved_of_compile h) _).congr hsame

/-- A text that compiles still compiles with a definition `name = entry $;` at its end, where `name` is
new.  A parse of the entry that requires the end of the text and a parse of the new rule that does not,
with room for one call more, agree on every input: both give trees, and that of the new rule goes on to
the end and has what the skip rule captures there as further children; or both report the same place, with
the same found and expected there; or both run into their limits at the same place, in the same rule. -/
theorem full_parse_agrees_with_end_rule {source other : Source} {g : Grammar} {ts : List Token} {r : Rule}
    {name : String} (h : Grammar.compile source = .ok g) (hts : Splits source.text.toList ts)
    (hr : r ∈ g.rules) (hfresh : name ∉ g.rules.map Rule.name)
    (hus : Splits other.text.toList (ts ++ endTokens name r.name)) (limit : Nat) :
    ∃ p p' : Parser,
      Builder.build ⟨source.text, source.name, [r.name], true, limit⟩ = .ok p ∧
      Builder.build ⟨other.text, other.name, [name], false, limit + 1⟩ = .ok p' ∧
      ∀ input : Source, AgreeUpToEnd g input.text.toList (p.parse input) (p'.parse input) := by
  have hg := Grammar.resolved_of_compile h
  obtain ⟨entry, hentry⟩ := List.mem_iff_getElem?.mp hr
  have hlt : entry < g.size := (List.getElem?_eq_some_iff.mp hentry).1
  have hid : g.ruleId? r.name = some entry :=
    (Grammar.ruleId?_eq_some_iff (Grammar.wellFormed_of_compile h).names).mpr ⟨r, hentry, rfl⟩
  obtain ⟨g', r', hbuild', hmoved, hr', hbody⟩ :=
    exists_build_end h hts hentry hfresh hus (limit + 1)
  have hbuild : Builder.build ⟨source.text, source.name, [r.name], true, limit⟩ =
      .ok ⟨g, [entry], true, limit⟩ := by
    rw [Builder.build_of_compile (b := ⟨source.text, source.name, [r.name], true, limit⟩) h]
    simp only [Builder.resolveEntries, hid]
    rfl
  have hagree := hmoved.parses_agree (Grammar.renumberedBy_self hg) hg (Grammar.gap_of_lt hlt) hr' hbody
  exact ⟨_, _, hbuild, hbuild', hagree limit⟩

/-- The definitions of `pairGrammar`, and behind them one for `a` and the end of the text. -/
def endedPair : Source :=
  writtenSource (pairGrammar.tokens ++ endTokens "whole" "a")

theorem full_parse_agrees_with_end_rule_pair :
    ∃ g p p', Grammar.compile pairGrammar.source = .ok g ∧
      Builder.build ⟨pairGrammar.source.text, pairGrammar.source.name, ["a"], true, 128⟩ = .ok p ∧
      Builder.build ⟨endedPair.text, endedPair.name, ["whole"], false, 129⟩ = .ok p' ∧
      ∀ input : Source, AgreeUpToEnd g input.text.toList (p.parse input) (p'.parse input) := by
  obtain ⟨g, hg, hsame⟩ := (Grammar.wellFormed_of_compile compile_pairText).exists_compile_source
  have hnames : g.rules.map Rule.name = ["a", "b"] := by
    have hrules : g.rules.map Rule.unspanned = pairGrammar.rules.map Rule.unspanned :=
      congrArg Grammar.rules hsame
    have hunspanned := congrArg (List.map Rule.name) hrules
    rw [List.map_map] at hunspanned
    exact hunspanned
  obtain ⟨r, hr, hname⟩ : ∃ r ∈ g.rules, r.name = "a" := by
    rw [← List.mem_map, hnames]
    exact List.mem_cons_self
  have hfresh : "whole" ∉ g.rules.map Rule.name := by
    rw [hnames]
    decide
  have hus : Splits endedPair.text.toList (pairGrammar.tokens ++ endTokens "whole" r.name) := by
    rw [hname]
    exact splits_writtenSource (by decide +kernel)
  obtain ⟨p, p', hp, hp', hagree⟩ := full_parse_agrees_with_end_rule hg
    (splits_writtenSource (by decide +kernel)) hr hfresh hus 128
  rw [hname] at hp
  exact ⟨g, p, p', hg, hp, hp', hagree⟩

end PegTree
