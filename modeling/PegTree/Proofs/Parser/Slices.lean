import PegTree.Proofs.Match.Slices
import PegTree.Proofs.Parser.Build
import PegTree.Proofs.Parser.Report

/-!
# Parsing never cuts a character

`Parser.look` parses a text by byte offsets: it matches as `Grammar.look` does, and cuts the text for the
values of leaves and for the report of a failure.  Whatever the text, no cut fails and the result is that of
`Parser.parse` (`parse_cuts_at_boundaries`); all offsets at which the text is looked at are boundaries of its
characters, and so are both ends of the label of an error.
-/

namespace PegTree

/-! ## Boundaries -/

theorem Span.Covers.boundaries {s : Span} {text value : List Char} (h : s.Covers text value) :
    Boundary text s.start ∧ Boundary text s.stop := by
  obtain ⟨before, behind, rfl, hstart, hstop⟩ := h
  rw [hstart, hstop]
  refine ⟨?_, boundary_append _ _⟩
  rw [List.append_assoc]
  exact boundary_append _ _

/-- Nothing is moved back at a boundary. -/
theorem Location.offset_near {text : List Char} {offset : Nat} (h : Boundary text offset) :
    (near text offset).offset = offset := by
  rw [near, offset_after]
  exact cutsAt_iff_boundary.mpr h

theorem Looking.sees_locate {text : List Char} {offset : Nat} (h : Boundary text offset) :
    Sees text (locate text offset) (.near text offset) := by
  have hfound : Location.locate? text offset = some (.near text offset) := by
    rw [Location.locate?, Location.offset_near h, Nat.min_eq_left h.offset_le]
    exact if_pos rfl
  exact sees_recorded [offset] hfound (by simpa using h)

/-! ## Parsing by byte offsets -/

namespace Parser

variable (p : Parser) (text : List Char)

/-- What follows an entry rule that matched up to an offset. -/
def lookEnd (stop : Nat) : Looking Ending := do
  match ← p.grammar.lookSkip text (p.grammar.look text p.maxDepth) .plain stop with
  | .overflow o => return .overflow o
  | .failed log => return .failed log
  | .matched rest _ _ =>
    if rest < utf8Width text then return .failed [⟨rest, Expectation.endOfInput.describe, none⟩]
    else return .stay stop

/-- Makes the match of an entry rule a node if all that is required behind it has been found. -/
def closeEntry (entry : RuleId) (stop : Nat) (captures : List Tree) (log : List Miss) :
    Ending → Looking Ending
  | .matched _ _ more => do return .matched stop [← lookNode text entry 0 stop captures] (log ++ more)
  | e => return e.after captures log

/-- Runs one entry rule at the beginning of a text. -/
def lookEntry (entry : RuleId) : Looking Ending := do
  match ← p.grammar.look text p.maxDepth .plain entry 0 with
  | .matched stop captures log =>
    let behind ← if p.full then p.lookEnd text stop else pure (.stay stop)
    closeEntry text entry stop captures log behind
  | e => return e

/-- Runs entry rules until one matches. -/
def lookEntries : List RuleId → Looking Ending
  | [] => return .failed []
  | entry :: more => do (← p.lookEntry text entry).orElse (lookEntries more)

/-- The report of a parse in which no entry matched. -/
def lookUnexpected (source : Source) (furthest : Furthest) : Looking ParseError := do
  let offset := furthest.offset
  let found := (← Looking.ahead source.text.toList offset).head?
  return .unexpected source found furthest.expected (furthest.rule.map p.ruleName)
    ⟨← Looking.locate source.text.toList offset, ⟨offset, offset + utf8Width found.toList⟩⟩

/-- The report of a parse that ran into the limit. -/
def lookTooDeep (source : Source) (o : Overflow) : Looking ParseError := do
  return .recursionLimit source p.maxDepth (p.ruleName o.rule)
    ⟨← Looking.locate source.text.toList o.offset, ⟨o.offset, o.offset⟩⟩

/-- Parses a source. -/
def look (source : Source) : Looking (Except ParseError Tree) := do
  match ← p.lookEntries source.text.toList p.entries with
  | .overflow o => return .error (← p.lookTooDeep source o)
  | .failed log => return .error (← p.lookUnexpected source (log.foldl Furthest.note .nothing))
  | .matched _ captures _ => StateT.lift (captures.head?.map .ok)

/-! ## What is found -/

variable {p text}

theorem lookEnd_finds (hg : p.grammar.Resolved) {stop : Cursor} (hstop : stop.On text) :
    Finds text stop (p.lookEnd text stop.offset)
      (p.endOutcome (p.grammar.outcome p.maxDepth) stop) := by
  have hskip := Grammar.lookSkip_finds hg (fun mode id c hid => p.grammar.look_finds hg text p.maxDepth mode hid)
    .plain hstop
  rw [endOutcome]
  refine hskip.bind ?_
  cases ho : p.grammar.skipOutcome (p.grammar.outcome p.maxDepth) .plain stop with
  | overflow o => exact .pure_overflow o
  | failed log => exact .pure_failed log
  | matched rest ts log =>
    have hrest := hstop.trans (hskip.reaches _ _ _ ho)
    have hend : rest.offset < utf8Width text ↔ ¬ rest.rest.isEmpty = true := by
      rw [List.isEmpty_iff, ← hrest.offset_eq_iff]
      have := hrest.offset_le
      omega
    simp only [Outcome.ending, hend]
    by_cases hmore : rest.rest.isEmpty = true
    · simp only [hmore, not_true, if_true, if_false]
      exact .pure_stay (.refl stop)
    · simp only [hmore, not_false_iff, if_true, Bool.false_eq_true, if_false]
      exact .pure_failed _

/-- An entry makes its node behind the end that is required, or right away. -/
theorem entryOutcome_eq_after {call : Mode → RuleId → Cursor → Outcome} {start stop : Cursor}
    {entry : RuleId} {captures : List Tree} {log : List Miss}
    (h : call .plain entry start = .matched stop captures log) :
    p.entryOutcome call start entry =
      (if p.full then p.endOutcome call stop else .stay stop).after [Tree.ofMatch entry start stop captures]
        log := by
  rw [entryOutcome, h]
  split
  · rfl
  · simp [Outcome.captured, Outcome.after, Outcome.stay]

theorem entryOutcome_eq_of_ne {call : Mode → RuleId → Cursor → Outcome} {start : Cursor} {entry : RuleId}
    (h : ∀ stop captures log, call .plain entry start ≠ .matched stop captures log) :
    p.entryOutcome call start entry = call .plain entry start := by
  rw [entryOutcome]
  cases ho : call .plain entry start with
  | overflow o | failed log => split <;> rfl
  | matched stop captures log => exact absurd ho (h stop captures log)

theorem closeEntry_finds {entry : RuleId} {stop : Cursor} {x : Looking Ending} {o : Outcome}
    (hstop : stop.On text) (hx : Finds text stop x o)
    (hstays : ∀ stop' ts more, o = .matched stop' ts more → stop' = stop ∧ ts = [])
    (captures : List Tree) (log : List Miss) :
    Finds text (.start text) (x >>= closeEntry text entry stop.offset captures log)
      (o.after [Tree.ofMatch entry (.start text) stop captures] log) := by
  refine (hx.of_reaches hstop).bind ?_
  cases o with
  | overflow v => exact .pure_overflow v
  | failed missed => exact .pure_failed _
  | matched stop' ts more =>
    obtain ⟨rfl, rfl⟩ := hstays _ _ _ rfl
    have hnode := sees_lookNode (.start text) hstop entry captures
    exact .of_matched (hnode.map fun t => Ending.matched stop'.offset [t] (log ++ more)) hstop

theorem lookEntry_finds (hg : p.grammar.Resolved) {entry : RuleId} (hentry : entry < p.grammar.size) :
    Finds text (.start text) (p.lookEntry text entry)
      (p.entryOutcome (p.grammar.outcome p.maxDepth) (.start text) entry) := by
  have hrule := p.grammar.look_finds hg text p.maxDepth .plain hentry (.start text)
  refine hrule.bind ?_
  cases ho : p.grammar.outcome p.maxDepth .plain entry (.start text) with
  | overflow o =>
    rw [entryOutcome_eq_of_ne (by simp [ho]), ho]
    exact .pure_overflow o
  | failed log =>
    rw [entryOutcome_eq_of_ne (by simp [ho]), ho]
    exact .pure_failed log
  | matched stop captures log =>
    rw [entryOutcome_eq_after ho]
    have hstop : stop.On text := hrule.reaches _ _ _ ho
    simp only [Outcome.ending]
    split
    · exact closeEntry_finds hstop (lookEnd_finds hg hstop) (fun stop' ts more he =>
        ⟨(endOutcome_matched he).1, (endOutcome_matched he).2.1⟩) captures log
    · exact closeEntry_finds hstop (.pure_stay (.refl stop))
        (fun stop' ts more he => by cases he; exact ⟨rfl, rfl⟩) captures log

theorem lookEntries_finds (hg : p.grammar.Resolved) {entries : List RuleId}
    (hentries : ∀ entry ∈ entries, entry < p.grammar.size) :
    Finds text (.start text) (p.lookEntries text entries)
      (p.entriesOutcome (p.grammar.outcome p.maxDepth) (.start text) entries) := by
  induction entries with
  | nil => exact .pure_failed []
  | cons entry more ih =>
    rw [List.forall_mem_cons] at hentries
    exact (lookEntry_finds hg hentries.1).orElse (ih hentries.2)

theorem sees_lookUnexpected {source : Source} {furthest : Furthest}
    (h : Boundary source.text.toList furthest.offset) :
    Looking.Sees source.text.toList (p.lookUnexpected source furthest) (p.unexpected source furthest) := by
  have hlocate := Looking.sees_locate h
  obtain ⟨c, hc, hoffset⟩ := h
  have hahead := Looking.sees_ahead hc
  rw [← hc.dropBytes_offset, hoffset] at hahead
  refine hahead.bind ?_
  exact hlocate.map fun l => ParseError.unexpected source
    (dropBytes furthest.offset source.text.toList).head? furthest.expected (furthest.rule.map p.ruleName)
    ⟨l, _⟩

theorem sees_lookTooDeep {source : Source} {o : Overflow} (h : Boundary source.text.toList o.offset) :
    Looking.Sees source.text.toList (p.lookTooDeep source o) (p.tooDeep source o) :=
  (Looking.sees_locate h).map fun l =>
    ParseError.recursionLimit source p.maxDepth (p.ruleName o.rule) ⟨l, ⟨o.offset, o.offset⟩⟩

/-- Parsing by byte offsets gives what parsing gives. -/
theorem look_sees (hg : p.grammar.Resolved) (hentries : ∀ entry ∈ p.entries, entry < p.grammar.size)
    (source : Source) : Looking.Sees source.text.toList (p.look source) (p.parse source) := by
  have hfinds : Finds source.text.toList _ (p.lookEntries source.text.toList p.entries) _ :=
    lookEntries_finds hg hentries
  have hkeeps := p.entriesOutcome_keeps p.maxDepth (.start source.text.toList) p.entries
  have hanswers := p.parse_eq source
  rw [textOutcome] at hanswers
  refine hfinds.sees.bind ?_
  cases ho : p.entriesOutcome (p.grammar.outcome p.maxDepth) (.start source.text.toList) p.entries with
  | overflow o =>
    rw [ho] at hkeeps hanswers
    rw [show p.parse source = .error (p.tooDeep source o) from hanswers]
    exact (sees_lookTooDeep hkeeps).map Except.error
  | failed log =>
    rw [ho] at hkeeps hanswers
    rw [show p.parse source = .error (p.unexpected source (log.foldl Furthest.note .nothing)) from hanswers]
    exact (sees_lookUnexpected ((Furthest.Sums.of_log log).boundary hkeeps)).map Except.error
  | matched stop captures log =>
    rw [ho] at hanswers
    obtain ⟨t, rfl, hparse⟩ := hanswers
    rw [hparse]
    exact fun looked => ⟨[], rfl, by simp⟩

end Parser

/-! ## Labels -/

/-- An error has one label, which begins at the location of the error and covers whole characters. -/
def ParseError.LabelledIn (e : ParseError) (text : List Char) : Prop :=
  ∃ label, e.diagnostic.labels = [label] ∧ label.span.start = e.location.offset ∧
    label.span.start ≤ label.span.stop ∧ label.span.stop ≤ utf8Width text ∧
    Boundary text label.span.start ∧ Boundary text label.span.stop

namespace Parser

variable {p : Parser} {source : Source}

theorem labelledIn_unexpected {furthest : Furthest} (h : Boundary source.text.toList furthest.offset) :
    (p.unexpected source furthest).LabelledIn source.text.toList := by
  obtain ⟨found, -, -, -, hpoints⟩ := p.exists_unexpected source h
  obtain ⟨span, hlabels, hstart, hcovers⟩ := hpoints.labelled
  obtain ⟨hfirst, hlast⟩ := hcovers.boundaries
  exact ⟨_, hlabels, hstart, hcovers.start_le_stop, hlast.offset_le, hfirst, hlast⟩

theorem labelledIn_tooDeep {o : Overflow} (h : Boundary source.text.toList o.offset) :
    (p.tooDeep source o).LabelledIn source.text.toList := by
  exact ⟨_, rfl, (Location.offset_near h).symm, Nat.le_refl _, h.offset_le, h, h⟩

/-- Whatever is reported is labelled. -/
theorem labelledIn_of_parse {e : ParseError} (h : p.parse source = .error e) :
    e.LabelledIn source.text.toList := by
  have hkeeps := p.entriesOutcome_keeps p.maxDepth (.start source.text.toList) p.entries
  have hanswers := p.parse_eq source
  rw [textOutcome, h] at hanswers
  cases ho : p.entriesOutcome (p.grammar.outcome p.maxDepth) (.start source.text.toList) p.entries with
  | overflow o =>
    rw [ho] at hkeeps hanswers
    cases hanswers
    exact labelledIn_tooDeep hkeeps
  | failed log =>
    rw [ho] at hkeeps hanswers
    cases hanswers
    exact labelledIn_unexpected ((Furthest.Sums.of_log log).boundary hkeeps)
  | matched stop captures log =>
    rw [ho] at hanswers
    obtain ⟨t, -, ⟨⟩⟩ := hanswers

end Parser

/-- Parsing a text by byte offsets, with a parser that was built, always comes to what parsing it gives: no
cut is past the end or inside a character.  All offsets at which the text is looked at, to read on, for the
value of a leaf or for a location, are boundaries of its characters.  So are both ends of the label of an
error, which begins at its location. -/
theorem parse_cuts_at_boundaries {b : Builder} {p : Parser} (hbuild : b.build = .ok p) (source : Source) :
    (∃ looked, (p.look source).run [] = some (p.parse source, looked) ∧
      ∀ offset ∈ looked, offset ≤ utf8Width source.text.toList ∧ Boundary source.text.toList offset) ∧
    ∀ e, p.parse source = .error e → e.LabelledIn source.text.toList := by
  obtain ⟨hcompile, -, hentries, -⟩ := Builder.build_eq_ok hbuild
  have hsees := Parser.look_sees (Grammar.resolved_of_compile hcompile)
    (Builder.lt_of_resolveEntries hentries) source
  obtain ⟨looked, hrun, hlooked⟩ := hsees []
  rw [List.append_nil] at hrun
  refine ⟨⟨looked, hrun, fun offset hoffset => ?_⟩, fun e => Parser.labelledIn_of_parse⟩
  have hboundary := hlooked offset hoffset
  exact ⟨hboundary.offset_le, hboundary⟩

/-- The description of a parser for characters of two and of four bytes. -/
def wideBuilder : Builder where
  text := "a = @b 'é' 'x'; b = 'ä'..'🦀';"
  entries := ["a"]

/-- What is built of `wideBuilder`. -/
def wideParser : Parser where
  grammar :=
    ⟨[⟨"a", .sequence [⟨false, .capture 1⟩, ⟨false, .literal "é"⟩, ⟨false, .literal "x"⟩], ⟨0, 1⟩⟩,
      ⟨"b", .range 'ä' '🦀', ⟨17, 18⟩⟩], none⟩
  entries := [0]
  full := false
  maxDepth := defaultMaxDepth

theorem build_wideBuilder : wideBuilder.build = .ok wideParser :=
  toOption_eq_some_iff.mp (by decide +kernel)

theorem parse_cuts_at_boundaries_wide :
    (∀ offset ∈ [6, 6, 6, 4, 0, 4, 0], Boundary "🦀éö".toList offset) ∧
      (ParseError.unexpected ⟨"input", "🦀éö"⟩ (some 'ö') ["\"x\""] (some "a")
        ⟨⟨6, 1, 3⟩, ⟨6, 8⟩⟩).LabelledIn
        "🦀éö".toList := by
  obtain ⟨⟨looked, hrun, hlooked⟩, hlabel⟩ :=
    parse_cuts_at_boundaries build_wideBuilder ⟨"input", "🦀éö"⟩
  have hoffsets : ((wideParser.look ⟨"input", "🦀éö"⟩).run []).map Prod.snd = some [6, 6, 6, 4, 0, 4, 0] := by
    decide +kernel
  rw [hrun] at hoffsets
  obtain rfl := Option.some.inj hoffsets
  exact ⟨fun offset hoffset => (hlooked offset hoffset).2, hlabel _ (by decide +kernel)⟩

end PegTree
