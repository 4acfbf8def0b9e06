import PegTree.Proofs.Match.Furthest
import PegTree.Proofs.Match.Invariant
import PegTree.Proofs.Parser.Outcome
import PegTree.Proofs.Text.Location
import PegTree.Proofs.Tree.WellFormed

/-!
# Where a report points

The report of a failed parse stands at the furthest offset of its misses.  That offset is a place of the
text, so the report has a location there, the character that it names as found is the one that comes
next, and its label covers precisely this character (`Parser.unexpected_pointsAt`).
-/

namespace PegTree

/-- A report points at a place of the text: the location is that of the offset, `found` is the
character at it, none at the end, and the only label covers that character. -/
structure ParseError.PointsAt (e : ParseError) (text : List Char) (found : Option Char) : Prop where
  located : Location.locate? text e.location.offset = some e.location
  found_here : ∃ before behind, text = before ++ found.toList ++ behind ∧
    (found = none → behind = []) ∧ e.location.offset = utf8Width before
  labelled : ∃ span : Span, e.diagnostic.labels = [⟨"parsing stopped here", span⟩] ∧
    span.start = e.location.offset ∧ span.Covers text found.toList

/-- The furthest offset is a place of the text if those of all misses are. -/
theorem Furthest.Sums.boundary {f : Furthest} {log : List Miss} {text : List Char} (h : f.Sums log)
    (hlog : ∀ miss ∈ log, Boundary text miss.offset) : Boundary text f.offset := by
  rcases h.attained with ⟨-, hzero⟩ | ⟨miss, hmiss, ho⟩
  · rw [hzero]
    exact .zero text
  · exact ho ▸ hlog miss hmiss

namespace Parser

variable (p : Parser)

/-- The parts of the report of a failed parse. -/
theorem exists_unexpected (source : Source) {furthest : Furthest}
    (h : Boundary source.text.toList furthest.offset) :
    ∃ (found : Option Char) (spot : Spot), spot.offset = furthest.offset ∧
      p.unexpected source furthest = .unexpected source found furthest.expected
        (furthest.rule.map p.ruleName) spot ∧
      (p.unexpected source furthest).PointsAt source.text.toList found := by
  obtain ⟨before, behind, htext, hoffset⟩ := h.exists_split
  have hnear : Location.near source.text.toList furthest.offset = .after before := by
    rw [Location.near, htext, hoffset, takeBytes_utf8Width_append]
  have hfound : (dropBytes furthest.offset source.text.toList).head? = behind.head? := by
    rw [htext, hoffset, dropBytes_utf8Width_append]
  have hhead : behind = behind.head?.toList ++ behind.tail := by
    cases behind <;> rfl
  have hreport : p.unexpected source furthest = .unexpected source behind.head? furthest.expected
      (furthest.rule.map p.ruleName)
      ⟨.after before, ⟨furthest.offset, furthest.offset + utf8Width behind.head?.toList⟩⟩ := by
    simp only [unexpected, hnear, hfound]
  have hhere : (Location.after before).offset = furthest.offset := by
    rw [Location.offset_after, hoffset]
  refine ⟨behind.head?, _, hhere, hreport, ?_⟩
  have hsplit : source.text.toList = before ++ behind.head?.toList ++ behind.tail := by
    rw [List.append_assoc, ← hhead, htext]
  rw [hreport]
  refine ⟨?_, ⟨before, behind.tail, hsplit, ?_, Location.offset_after before⟩,
    _, rfl, hhere.symm, before, behind.tail, hsplit, hoffset, ?_⟩
  · simp only [ParseError.location]
    rw [Location.offset_after, htext, Location.locate?_append]
  · intro hnone
    rw [List.head?_eq_none_iff.mp hnone, List.tail_nil]
  · rw [utf8Width_append, ← hoffset]

/-! ## Outcomes of a parse -/

variable {p} {text : List Char}

theorem endOutcome_keeps {call : Mode → RuleId → Cursor → Outcome} {stop : Cursor}
    (hskip : (p.grammar.skipOutcome call .plain stop).Keeps text fun _ => True)
    (hstop : stop.On text) : (p.endOutcome call stop).Keeps text fun _ => True := by
  unfold endOutcome
  cases ho : p.grammar.skipOutcome call .plain stop with
  | overflow o | failed log =>
    rw [ho] at hskip
    exact hskip
  | matched rest ts log =>
    rw [ho] at hskip
    dsimp only
    split
    · exact Outcome.keeps_stay hstop
    · simpa [Outcome.Keeps] using hskip.1.boundary

/-- Whatever entries are tried, a parse speaks of places of its text. -/
theorem entriesOutcome_keeps (p : Parser) (left : Nat) {start : Cursor} (hstart : start.On text)
    (entries : List RuleId) :
    (p.entriesOutcome (p.grammar.outcome left) start entries).Keeps text fun _ => True := by
  induction entries with
  | nil => exact Outcome.keeps_failed_nil
  | cons entry more ih =>
    refine Outcome.Keeps.orElse ?_ ih
    have hfound : ((p.grammar.outcome left .plain entry start).captured entry start).Keeps text
        fun _ => True :=
      (p.grammar.outcome_keeps_places left .plain entry hstart).captured fun _ _ _ _ => trivial
    unfold entryOutcome
    split
    · exact hfound.andThen fun stop hstop =>
        endOutcome_keeps (p.grammar.skipOutcome_keeps_places left .plain hstop) hstop
    · exact hfound

/-- What a parse reports if trying its entries fails. -/
theorem Answers.report {source : Source} {entries : List RuleId} {log : List Miss}
    {answer : Except ParseError Tree}
    (ho : p.entriesOutcome (p.grammar.outcome p.maxDepth) (.start source.text.toList) entries =
      .failed log) (h : p.Answers source (.failed log) answer) :
    ∃ furthest : Furthest, furthest.Sums log ∧
      ∃ (found : Option Char) (spot : Spot), spot.offset = furthest.offset ∧
        answer = .error (.unexpected source found furthest.expected
          (furthest.rule.map p.ruleName) spot) ∧
        (ParseError.unexpected source found furthest.expected
          (furthest.rule.map p.ruleName) spot).PointsAt source.text.toList found := by
  have hsums := Furthest.Sums.of_log log
  have hkeeps := p.entriesOutcome_keeps p.maxDepth (.start source.text.toList) entries
  rw [ho] at hkeeps
  obtain ⟨found, spot, hoffset, hreport, hpoints⟩ :=
    p.exists_unexpected source (hsums.boundary hkeeps)
  rw [hreport] at hpoints
  exact ⟨_, hsums, found, spot, hoffset, hreport ▸ h, hpoints⟩

end Parser

end PegTree
