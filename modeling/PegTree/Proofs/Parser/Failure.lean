import PegTree.Proofs.Match.Misses
import PegTree.Proofs.Parser.Build
import PegTree.Proofs.Parser.Report

/-!
# What a failed parse reports

The log of a failed parse is what its entries miss one after the other, each from the beginning of the
text: the misses of its rule and, where the rule matches but more than skippable text follows although
the whole text is required, the missing end of the input, outside all rules.  `Parser.Misses` says so
without reference to a run.

The report is the summary of this log (`unexpected_reports_furthest`): it stands at the largest offset,
expects what was missed there, and names the first rule in which something was missed there.
-/

namespace PegTree

namespace Parser

/-- What an entry misses that comes to nothing. -/
inductive EntryMisses (p : Parser) (start : Cursor) (entry : RuleId) : List Miss → Prop
  /-- The rule does not match. -/
  | failed {log} :
      Matches p.grammar .plain false (.rule entry) start .fail →
      PegTree.Misses p.grammar none false (.rule entry) start log →
      EntryMisses p start entry log
  /-- The rule matches, but the whole text is required and more than skippable text follows. -/
  | trailing {log stop ts rest us} :
      p.full = true → Matches p.grammar .plain false (.rule entry) start (.hit stop ts) →
      PegTree.Misses p.grammar none false (.rule entry) start log →
      Skips p.grammar .plain stop rest us → rest.rest ≠ [] →
      EntryMisses p start entry (log ++ [⟨rest.offset, Expectation.endOfInput.describe, none⟩])

/-- What entries miss that all come to nothing. -/
inductive Misses (p : Parser) (start : Cursor) : List RuleId → List Miss → Prop
  | nil : Misses p start [] []
  | cons {entry more log log'} :
      p.EntryMisses start entry log → Misses p start more log' →
      Misses p start (entry :: more) (log ++ log')

variable {p : Parser} {start : Cursor} {entry : RuleId}

/-- An entry misses one thing only. -/
theorem EntryMisses.unique {log log' : List Miss} (h : p.EntryMisses start entry log)
    (h' : p.EntryMisses start entry log') : log = log' := by
  cases h with
  | failed hm hlog =>
    cases h' with
    | failed _ hlog' => exact hlog.unique hlog'
    | trailing _ hm' => cases hm.unique hm'
  | trailing _ hm hlog hs _ =>
    cases h' with
    | failed hm' => cases hm.unique hm'
    | trailing _ hm' hlog' hs' _ =>
      cases hm.unique hm'
      cases hs.stop_unique hs'
      rw [hlog.unique hlog']

/-- Entries miss one thing only. -/
theorem Misses.unique {entries : List RuleId} {log log' : List Miss}
    (h : p.Misses start entries log) (h' : p.Misses start entries log') : log = log' := by
  induction h generalizing log' with
  | nil =>
    cases h' with
    | nil => rfl
  | cons hentry _ ih =>
    cases h' with
    | cons hentry' hmore' => rw [hentry.unique hentry', ih hmore']

/-! ## Outcomes of entries -/

/-- What is missed where the end of the text is required and not there. -/
theorem endOutcome_failed (hg : p.grammar.Resolved) {left : Nat} {stop : Cursor} {log : List Miss}
    (h : p.endOutcome (p.grammar.outcome left) stop = .failed log) :
    ∃ rest us, Skips p.grammar .plain stop rest us ∧ rest.rest ≠ [] ∧
      log = [⟨rest.offset, Expectation.endOfInput.describe, none⟩] := by
  have hskip : ∀ {v : Verdict},
      (p.grammar.skipOutcome (p.grammar.outcome left) .plain stop).verdict? = some v →
        ∃ rest us, v = .hit rest us ∧ Skips p.grammar .plain stop rest us :=
    Grammar.skipOutcome_matches hg (Grammar.outcome_matches hg left)
  unfold endOutcome at h
  split at h
  · cases h
  · next ho =>
    -- the skip rule never fails
    obtain ⟨_, _, hv, -⟩ := hskip (by rw [ho]; rfl)
    cases hv
  · next rest us _ ho =>
    obtain ⟨_, _, hv, hs⟩ := hskip (by rw [ho]; rfl)
    cases hv
    split at h
    · cases h
    · next hrest =>
      cases h
      exact ⟨rest, us, hs, fun hempty => hrest (by simp [hempty]), rfl⟩

theorem entryOutcome_failed (hg : p.grammar.Resolved) {left : Nat} (hentry : entry < p.grammar.size)
    {log : List Miss} (h : p.entryOutcome (p.grammar.outcome left) start entry = .failed log) :
    p.EntryMisses start entry log := by
  have hmatches : ∀ {v : Verdict},
      (p.grammar.outcome left .plain entry start).verdict? = some v →
        Matches p.grammar .plain false (.rule entry) start v :=
    Grammar.outcome_matches hg left hentry
  have hmisses : ∀ {log : List Miss},
      (p.grammar.outcome left .plain entry start).log? = some log →
        PegTree.Misses p.grammar none false (.rule entry) start log :=
    Grammar.outcome_misses hg left hentry
  unfold entryOutcome at h
  cases ho : p.grammar.outcome left .plain entry start with
  | overflow o =>
    by_cases hfull : p.full <;> simp [ho, hfull, Outcome.captured, Outcome.andThen] at h
  | failed missed =>
    have hfailed : missed = log := by
      by_cases hfull : p.full <;>
        simpa [ho, hfull, Outcome.captured, Outcome.andThen] using h
    exact hfailed ▸ .failed (hmatches (by rw [ho]; rfl)) (hmisses (by rw [ho]; rfl))
  | matched stop captures missed =>
    by_cases hfull : p.full = true
    · simp only [ho, hfull, if_true, Outcome.captured, Outcome.andThen] at h
      cases he : p.endOutcome (p.grammar.outcome left) stop with
      | overflow o | matched stop' ts log' => simp [he, Outcome.after] at h
      | failed more =>
        obtain ⟨rest, us, hs, hrest, rfl⟩ := endOutcome_failed hg he
        simp only [he, Outcome.after, Outcome.failed.injEq] at h
        exact h ▸ .trailing hfull (hmatches (by rw [ho]; rfl)) (hmisses (by rw [ho]; rfl)) hs hrest
    · simp [ho, hfull, Outcome.captured] at h

/-- Where entries come to nothing, the log is what they miss. -/
theorem entriesOutcome_failed (hg : p.grammar.Resolved) {left : Nat} {entries : List RuleId}
    (hentries : ∀ entry ∈ entries, entry < p.grammar.size) {log : List Miss}
    (h : p.entriesOutcome (p.grammar.outcome left) start entries = .failed log) :
    p.Misses start entries log := by
  induction entries generalizing log with
  | nil =>
    cases h
    exact .nil
  | cons entry more ih =>
    rw [entriesOutcome] at h
    have hlog : ((p.entryOutcome (p.grammar.outcome left) start entry).orElse
        (p.entriesOutcome (p.grammar.outcome left) start more)).log? = some log := by
      rw [h]
      rfl
    rcases Outcome.log?_orElse hlog with ⟨stop, ts, ho⟩ | ⟨missed, log', ho, hmore, rfl⟩
    · simp [ho, Outcome.orElse] at h
    · refine .cons (entryOutcome_failed hg (hentries entry List.mem_cons_self) ho) (ih ?_ ?_)
      · exact fun entry hin => hentries entry (List.mem_cons_of_mem _ hin)
      · rw [ho] at h
        cases hr : p.entriesOutcome (p.grammar.outcome left) start more with
        | failed log'' =>
          rw [hr] at hmore
          cases hmore
          rfl
        | overflow o | matched stop ts log'' => simp [hr, Outcome.orElse, Outcome.after] at h

end Parser

/-- The report of a failed parse is the summary of its log, and there is one log: the report stands at
the largest offset of a miss, or at the beginning if there is none; it expects precisely what was
missed there, each once and in ascending order, and names the first rule in which something was missed
there. -/
theorem unexpected_reports_furthest {b : Builder} {p : Parser} {source reported : Source}
    {found : Option Char} {expected : List String} {rule : Option String} {spot : Spot}
    (hp : b.build = .ok p)
    (h : p.parse source = .error (.unexpected reported found expected rule spot)) :
    reported = source ∧ ∃ log,
      (∀ other, p.Misses (.start source.text.toList) p.entries other ↔ other = log) ∧
      (∀ miss ∈ log, miss.offset ≤ spot.offset) ∧
      (log = [] ∧ spot.offset = 0 ∨ ∃ miss ∈ log, miss.offset = spot.offset) ∧
      expected.Pairwise (· < ·) ∧
      (∀ text, text ∈ expected ↔
        ∃ miss ∈ log, miss.offset = spot.offset ∧ miss.expected = text) ∧
      rule = (firstRuleAt spot.offset log).map p.ruleName ∧
      (ParseError.unexpected reported found expected rule spot).PointsAt
        source.text.toList found := by
  obtain ⟨hcompile, -, hentries, -⟩ := Builder.build_eq_ok hp
  have hanswer := p.parse_eq source
  cases ho : p.textOutcome (p.grammar.outcome p.maxDepth) source.text.toList with
  | overflow o => simp [ho, h, Parser.Answers, Parser.tooDeep] at hanswer
  | matched stop ts log => simp [ho, h, Parser.Answers] at hanswer
  | failed log =>
    rw [ho, h] at hanswer
    rw [Parser.textOutcome] at ho
    have hmisses := Parser.entriesOutcome_failed (Grammar.resolved_of_compile hcompile)
      (Builder.lt_of_resolveEntries hentries) ho
    obtain ⟨f, hf, found', spot', hoffset, hreport, hpoints⟩ := hanswer.report ho
    cases hreport
    refine ⟨rfl, log, fun other => ⟨fun hother => hother.unique hmisses, ?_⟩, ?_, ?_, hf.ascending,
      ?_, ?_, hpoints⟩
    · rintro rfl
      exact hmisses
    · rw [hoffset]
      exact hf.le
    · rw [hoffset]
      exact hf.attained
    · rw [hoffset]
      exact hf.mem_expected
    · rw [hoffset, hf.rule]

/-- Behind `b ` both alternatives miss their last letter. -/
theorem unexpected_reports_furthest_pair :
    ∃ log,
      (∀ other, pairParser.Misses (.start "b z".toList) pairParser.entries other ↔ other = log) ∧
      (∀ miss ∈ log, miss.offset ≤ 2) ∧
      (log = [] ∧ 2 = 0 ∨ ∃ miss ∈ log, miss.offset = 2) ∧
      ["\"x\"", "\"y\""].Pairwise (· < ·) ∧
      (∀ text, text ∈ ["\"x\"", "\"y\""] ↔
        ∃ miss ∈ log, miss.offset = 2 ∧ miss.expected = text) ∧
      some "a" = (firstRuleAt 2 log).map pairParser.ruleName ∧
      (ParseError.unexpected ⟨"input", "b z"⟩ (some 'z') ["\"x\"", "\"y\""] (some "a")
        ⟨⟨2, 1, 3⟩, ⟨2, 3⟩⟩).PointsAt "b z".toList (some 'z') := by
  have hparse : pairParser.parse ⟨"input", "b z"⟩ = .error (.unexpected ⟨"input", "b z"⟩ (some 'z')
      ["\"x\"", "\"y\""] (some "a") ⟨⟨2, 1, 3⟩, ⟨2, 3⟩⟩) := by
    decide +kernel
  exact (unexpected_reports_furthest build_pairBuilder hparse).2

end PegTree
