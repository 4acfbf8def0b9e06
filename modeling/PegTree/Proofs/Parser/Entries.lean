import PegTree.Proofs.Match.Laws
import PegTree.Proofs.Parser.Report

/-!
# Entries tried in order

A parse with two lists of entries one behind the other is the parse with the first list, and where that
finds nothing the parse with the second.  If both find nothing, the report joins the two: it stands at
the larger of the two offsets, and what it says is what those of the two say that stand there.  So no
entry leaves a trace in the parse of the next, but for its misses.
-/

namespace PegTree

namespace Parser

variable (p : Parser)

/-- Entries are alternatives. -/
theorem entriesOutcome_append (call : Mode → RuleId → Cursor → Outcome) (start : Cursor)
    (first second : List RuleId) :
    p.entriesOutcome call start (first ++ second) =
      (p.entriesOutcome call start first).orElse (p.entriesOutcome call start second) := by
  induction first with
  | nil => simp [entriesOutcome, Outcome.orElse]
  | cons entry more ih =>
    rw [List.cons_append, entriesOutcome, ih, entriesOutcome, Outcome.orElse_assoc]

/-- The same parser with other entries. -/
def withEntries (entries : List RuleId) : Parser :=
  { p with entries := entries }

/-- A parse with other entries answers what comes of trying those. -/
theorem parse_withEntries (source : Source) (entries : List RuleId) :
    p.Answers source
      (p.entriesOutcome (p.grammar.outcome p.maxDepth) (.start source.text.toList) entries)
      ((p.withEntries entries).parse source) := by
  -- neither the outcome of an entry nor a report asks for the list of entries
  have houtcome : ∀ call start others,
      (p.withEntries entries).entriesOutcome call start others =
        p.entriesOutcome call start others := by
    intro call start others
    induction others with
    | nil => rfl
    | cons entry more ih =>
      rw [entriesOutcome, ih]
      rfl
  have h := (p.withEntries entries).parse_eq source
  rw [textOutcome, houtcome] at h
  exact h

variable {p}

/-- Misses in front change no answer but that of a failure. -/
theorem Answers.after {source : Source} {o : Outcome} {answer : Except ParseError Tree}
    (h : p.Answers source o answer) (ho : ∀ log, o ≠ .failed log) (missed : List Miss) :
    p.Answers source (o.after [] missed) answer := by
  cases o with
  | overflow o | matched stop ts log => exact h
  | failed log => exact absurd rfl (ho log)

end Parser

/-- With two lists of entries one behind the other, a tree or an overflow that the first list leads to is
the answer; otherwise one that the second list leads to is.  If both lists lead to nothing, the report
stands at the larger of the two offsets; it expects what the reports at that offset expect, each once
and in ascending order, and names the rule of the first of these reports that names one. -/
theorem parse_append_entries (p : Parser) (source : Source) (first second : List RuleId) :
    match (p.withEntries first).parse source, (p.withEntries second).parse source with
    | .error (.unexpected _ _ expected rule spot),
        .error (.unexpected _ _ expected' rule' spot') =>
      ∃ found both who here,
        (p.withEntries (first ++ second)).parse source =
          .error (.unexpected source found both who here) ∧
        here.offset = max spot.offset spot'.offset ∧
        both.Pairwise (· < ·) ∧
        (∀ text, text ∈ both ↔
          spot.offset = here.offset ∧ text ∈ expected ∨
          spot'.offset = here.offset ∧ text ∈ expected') ∧
        who = ((if spot.offset = here.offset then rule else none) <|>
          (if spot'.offset = here.offset then rule' else none)) ∧
        (ParseError.unexpected source found both who here).PointsAt source.text.toList found
    | .error (.unexpected ..), answer => (p.withEntries (first ++ second)).parse source = answer
    | answer, _ => (p.withEntries (first ++ second)).parse source = answer := by
  have hfirst := p.parse_withEntries source first
  have hsecond := p.parse_withEntries source second
  have hboth := p.parse_withEntries source (first ++ second)
  have happend := p.entriesOutcome_append (p.grammar.outcome p.maxDepth)
    (.start source.text.toList) first second
  cases ho : p.entriesOutcome (p.grammar.outcome p.maxDepth) (.start source.text.toList) first with
  | overflow o =>
    rw [happend, ho] at hboth
    rw [ho] at hfirst
    rw [hfirst]
    exact hboth
  | matched stop ts log =>
    rw [happend, ho] at hboth
    rw [ho] at hfirst
    have hsame := Parser.Answers.unique hboth hfirst
    obtain ⟨t, -, ht⟩ := hfirst
    rw [hsame, ht]
  | failed log =>
    rw [ho] at hfirst
    obtain ⟨f, hf, found, spot, hoffset, hfirst, -⟩ := hfirst.report ho
    cases ho' : p.entriesOutcome (p.grammar.outcome p.maxDepth) (.start source.text.toList)
        second with
    | overflow o =>
      rw [ho'] at hsecond
      rw [happend, ho, ho'] at hboth
      rw [hfirst, hsecond]
      exact hboth
    | matched stop ts missed =>
      rw [ho'] at hsecond
      rw [happend, ho, ho'] at hboth
      have hsame := Parser.Answers.unique hboth (hsecond.after (by simp) log)
      obtain ⟨t, -, ht⟩ := hsecond
      rw [hfirst, hsame, ht]
    | failed missed =>
      rw [ho'] at hsecond
      have hwhole := happend
      rw [ho, ho'] at hwhole
      rw [hwhole] at hboth
      obtain ⟨f', hf', found', spot', hoffset', hsecond, -⟩ := hsecond.report ho'
      obtain ⟨whole, hw, found'', here, hhere, hboth, hpoints⟩ := hboth.report hwhole
      rw [hfirst, hsecond]
      refine ⟨found'', whole.expected, whole.rule.map p.ruleName, here, hboth, ?_, hw.ascending, ?_,
        ?_, hpoints⟩
      · rw [hhere, hoffset, hoffset']
        exact hf.append_offset hf' hw
      · rw [hhere, hoffset, hoffset']
        exact hf.append_expected hf' hw
      · rw [hhere, hoffset, hoffset', hf.append_rule hf' hw]
        split <;> split <;> cases f.rule <;> cases f'.rule <;> rfl

end PegTree
