import PegTree.Parser.Basic
import PegTree.Proofs.Match.Simulation

/-!
# Outcomes of a parse

The entry rules of a parser are alternatives at the beginning of the text, each made a node and, if
the whole text is required, followed by the skip rule and the end of the text.  A parse answers what
the outcome of these alternatives says: its only node, the furthest of its misses, or the place where
rules were nested too deep.  This holds for any way of calling rules and its outcomes
(`Parser.parseWith_eq`).
-/

namespace PegTree

namespace Parser

variable (p : Parser) (call : Mode → RuleId → Cursor → Outcome)

/-- What comes of requiring the end of the text behind an entry rule. -/
def endOutcome (stop : Cursor) : Outcome :=
  match p.grammar.skipOutcome call .plain stop with
  | .overflow o => .overflow o
  | .failed log => .failed log
  | .matched rest _ _ =>
    if rest.rest.isEmpty then .stay stop
    else .failed [⟨rest.offset, Expectation.endOfInput.describe, none⟩]

/-- What comes of one entry rule. -/
def entryOutcome (start : Cursor) (entry : RuleId) : Outcome :=
  let found := (call .plain entry start).captured entry start
  if p.full then found.andThen (p.endOutcome call) else found

/-- What comes of trying entry rules in order. -/
def entriesOutcome (start : Cursor) : List RuleId → Outcome
  | [] => .failed []
  | entry :: more => (p.entryOutcome call start entry).orElse (entriesOutcome start more)

variable {p call}

theorem endOutcome_matched {stop stop' : Cursor} {ts : List Tree} {log : List Miss}
    (h : p.endOutcome call stop = .matched stop' ts log) : stop' = stop ∧ ts = [] ∧ log = [] := by
  unfold endOutcome at h
  split at h
  · cases h
  · cases h
  · split at h
    · cases h
      exact ⟨rfl, rfl, rfl⟩
    · cases h

/-- An entry that matches makes a node of what its rule matches. -/
theorem entryOutcome_matched {start stop : Cursor} {entry : RuleId} {ts : List Tree}
    {log : List Miss} (h : p.entryOutcome call start entry = .matched stop ts log) :
    ∃ captures missed,
      call .plain entry start = .matched stop captures missed ∧
      ts = [Tree.ofMatch entry start stop captures] := by
  unfold entryOutcome at h
  cases ho : call .plain entry start with
  | overflow o => by_cases hfull : p.full <;> simp [ho, hfull, Outcome.captured, Outcome.andThen] at h
  | failed missed =>
    by_cases hfull : p.full <;> simp [ho, hfull, Outcome.captured, Outcome.andThen] at h
  | matched behind captures missed =>
    by_cases hfull : p.full = true
    · simp only [ho, hfull, if_true, Outcome.captured, Outcome.andThen] at h
      cases he : p.endOutcome call behind with
      | overflow o => simp [he, Outcome.after] at h
      | failed missed => simp [he, Outcome.after] at h
      | matched stop' none log' =>
        obtain ⟨rfl, rfl, rfl⟩ := endOutcome_matched he
        simp only [he, Outcome.after] at h
        cases h
        exact ⟨captures, _, rfl, by simp⟩
    · simp only [ho, hfull, Bool.false_eq_true, if_false, Outcome.captured] at h
      cases h
      exact ⟨captures, _, rfl, rfl⟩

/-- If entries match, one of them does. -/
theorem entriesOutcome_matched {start stop : Cursor} {entries : List RuleId} {ts : List Tree}
    {log : List Miss} (h : p.entriesOutcome call start entries = .matched stop ts log) :
    ∃ entry ∈ entries, ∃ log, p.entryOutcome call start entry = .matched stop ts log := by
  induction entries generalizing log with
  | nil => cases h
  | cons entry more ih =>
    rw [entriesOutcome] at h
    cases ho : p.entryOutcome call start entry with
    | overflow o => simp [ho, Outcome.orElse] at h
    | failed missed =>
      rw [ho] at h
      cases hmore : p.entriesOutcome call start more with
      | overflow o => simp [hmore, Outcome.orElse, Outcome.after] at h
      | failed missed => simp [hmore, Outcome.orElse, Outcome.after] at h
      | matched stop' ts' log' =>
        simp only [hmore, Outcome.orElse, Outcome.after, List.nil_append] at h
        cases h
        obtain ⟨e, he, hmatched⟩ := ih hmore
        exact ⟨e, List.mem_cons_of_mem _ he, hmatched⟩
    | matched stop' ts' log' =>
      rw [ho] at h
      cases h
      exact ⟨entry, List.mem_cons_self, log, ho⟩

end Parser

/-- A run that makes one node gives what the outcome says. -/
def Outcome.ShownNode (o : Outcome) (m : Matcher)
    (r : Except Overflow (Option Tree × Array Tree) × Matcher) : Prop :=
  match o with
  | overflow o => r.1 = .error o
  | failed log => r = (.ok (none, #[]), m.noteAll log)
  | matched _ captures log => ∃ t, captures = [t] ∧ r = (.ok (some t, #[]), m.noteAll log)

namespace Parser

variable {p : Parser} {m : Matcher} {call : RuleId → Cursor → Matching (Option Cursor)}
  {call' : Mode → RuleId → Cursor → Outcome}

/-- Outside all rules, with no skip rule and no lookahead around. -/
structure Idle (m : Matcher) : Prop where
  stack : m.stack = []
  skipping : m.skipping = false
  quiet : m.quiet = 0

theorem Idle.noteAll (h : Idle m) (log : List Miss) : Idle (m.noteAll log) :=
  ⟨by simpa using h.stack, by simpa using h.skipping, by simpa using h.quiet⟩

theorem Idle.fits (h : Idle m) (g : Grammar) : (g.frame call' .plain none).Fits .plain m :=
  ⟨h.skipping, fun _ => by rw [h.stack]; rfl⟩

theorem atEnd_shown (hm : Idle m) (hcall : ∀ f mode id c, Follows f mode (call id c) (call' mode id c))
    (stop : Cursor) :
    match p.endOutcome call' stop with
    | .overflow o => ((p.atEnd call stop).runOn #[] m).1 = .error o
    | .failed log => (p.atEnd call stop).runOn #[] m = (.ok (false, #[]), m.noteAll log)
    | .matched stop' ts log =>
      stop' = stop ∧ ts = [] ∧ log = [] ∧ (p.atEnd call stop).runOn #[] m = (.ok (true, #[]), m) := by
  have hplain : m.skipping = (Mode.plain == .skipping) := hm.skipping
  rcases Grammar.runSkip_shown (g := p.grammar) hcall hplain #[] stop with ⟨o, ho, hx⟩ | ⟨rest, ts, ho, hx⟩
  · simp only [endOutcome, ho]
    refine Matching.runOn_bind_error ?_ _
    rw [Matching.runOn_apart]
    rcases h : (p.grammar.runSkip call stop).runOn #[] m with
      ⟨⟨⟩ | ⟨⟨⟩⟩, m'⟩ <;> simp_all
  · have happart : (Matching.apart (p.grammar.runSkip call stop)).runOn #[] m
        = (.ok ((rest, #[] ++ ts.toArray), #[]), m) := by
      rw [Matching.runOn_apart, hx]
    rw [atEnd, Matching.runOn_bind_ok happart]
    simp only [endOutcome, ho]
    -- what the skip rule captures behind the entry is dropped
    by_cases hend : rest.rest.isEmpty = true
    · simp [hend, Outcome.stay]
    · simp only [if_neg hend]
      have hfail := follows_fail (f := p.grammar.frame call' .plain none) rest .endOfInput m
        (hm.fits _) #[]
      simp only [Frame.fail, Outcome.Shown, Grammar.frame] at hfail
      rw [Matching.runOn_bind_ok hfail]
      rfl

theorem runEntry_shown (hm : Idle m)
    (hcall : ∀ f mode id c, Follows f mode (call id c) (call' mode id c)) (start : Cursor)
    (entry : RuleId) :
    (p.entryOutcome call' start entry).ShownNode m ((p.runEntry call start entry).runOn #[] m) := by
  have hrule := hcall (p.grammar.frame call' .plain none) .plain entry start m (hm.fits _) #[]
  rw [entryOutcome, runEntry]
  -- the rule captures onto a list of its own, which becomes the children of the entry's node
  cases ho : call' .plain entry start with
  | overflow o =>
    simp only [ho, Outcome.Shown] at hrule
    have hlost : ((Matching.apart (call entry start)).runOn #[] m).1 =
        .error o := by
      rw [Matching.runOn_apart]
      rcases h : (call entry start).runOn #[] m with
        ⟨⟨⟩ | ⟨⟨⟩⟩, m'⟩ <;> simp_all
    by_cases hfull : p.full = true <;>
      simp only [hfull, if_true, Bool.false_eq_true, if_false, Outcome.captured, Outcome.andThen] <;>
      exact Matching.runOn_bind_error hlost _
  | failed log =>
    simp only [ho, Outcome.Shown] at hrule
    rw [Matching.runOn_bind, Matching.runOn_apart, hrule]
    by_cases hfull : p.full = true <;>
      simp [hfull, Outcome.captured, Outcome.andThen, Outcome.ShownNode]
  | matched stop ts log =>
    simp only [ho, Outcome.Shown] at hrule
    rw [Matching.runOn_bind, Matching.runOn_apart, hrule]
    by_cases hfull : p.full = true
    · have hend := atEnd_shown (p := p) (hm.noteAll log) hcall stop
      simp only [hfull, if_true, Outcome.captured, Outcome.andThen]
      cases he : p.endOutcome call' stop with
      | overflow o =>
        rw [he] at hend
        exact Matching.runOn_bind_error hend _
      | failed log' =>
        rw [he] at hend
        rw [Matching.runOn_bind_ok hend]
        simp [Outcome.after, Outcome.ShownNode, Matcher.noteAll_append]
      | matched stop' ts' log' =>
        rw [he] at hend
        obtain ⟨rfl, rfl, rfl, hend⟩ := hend
        rw [Matching.runOn_bind_ok hend]
        simp [Outcome.after, Outcome.ShownNode]
    · simp [hfull, Outcome.captured, Outcome.ShownNode]

theorem runEntries_shown (hm : Idle m)
    (hcall : ∀ f mode id c, Follows f mode (call id c) (call' mode id c)) (start : Cursor)
    (entries : List RuleId) :
    (p.entriesOutcome call' start entries).ShownNode m
      ((p.runEntries call start entries).runOn #[] m) := by
  induction entries generalizing m with
  | nil => simp [entriesOutcome, runEntries, Outcome.ShownNode]
  | cons entry more ih =>
    have hentry := runEntry_shown (p := p) hm hcall start entry
    rw [entriesOutcome, runEntries]
    cases ho : p.entryOutcome call' start entry with
    | overflow o =>
      rw [ho] at hentry
      exact Matching.runOn_bind_error hentry _
    | failed log =>
      rw [ho] at hentry
      rw [Matching.runOn_bind_ok hentry]
      have hmore := ih (hm.noteAll log)
      cases hr : p.entriesOutcome call' start more <;>
        simpa [hr, Outcome.orElse, Outcome.after, Outcome.ShownNode, Matcher.noteAll_append]
          using hmore
    | matched stop ts log =>
      rw [ho] at hentry
      obtain ⟨t, rfl, hrun⟩ := hentry
      rw [Matching.runOn_bind_ok hrun]
      simp [Outcome.orElse, Outcome.ShownNode]

/-! ## Parsing -/

/-- The outcome of parsing a text. -/
def textOutcome (p : Parser) (call : Mode → RuleId → Cursor → Outcome) (text : List Char) : Outcome :=
  p.entriesOutcome call (.start text) p.entries

/-- What a parse answers by its outcome. -/
def Answers (p : Parser) (source : Source) (o : Outcome) (answer : Except ParseError Tree) : Prop :=
  match o with
  | .overflow o => answer = .error (p.tooDeep source o)
  | .failed log => answer = .error (p.unexpected source (log.foldl Furthest.note .nothing))
  | .matched _ ts _ => ∃ t, ts = [t] ∧ answer = .ok t

/-- An outcome has one answer. -/
theorem Answers.unique {source : Source} {o : Outcome} {a b : Except ParseError Tree}
    (ha : p.Answers source o a) (hb : p.Answers source o b) : a = b := by
  cases o with
  | overflow o | failed log => exact ha.trans hb.symm
  | matched stop ts log =>
    obtain ⟨t, rfl, rfl⟩ := ha
    obtain ⟨u, hu, rfl⟩ := hb
    rw [List.singleton_inj.mp hu]

/-- A parse answers what its outcome says. -/
theorem parseWith_eq (p : Parser)
    (hcall : ∀ f mode id c, Follows f mode (call id c) (call' mode id c)) (source : Source) :
    p.Answers source (p.textOutcome call' source.text.toList) (p.parseWith call source) := by
  have hidle : Idle Matcher.initial := ⟨rfl, rfl, rfl⟩
  have h := runEntries_shown (p := p) hidle hcall (.start source.text.toList) p.entries
  unfold Answers textOutcome parseWith
  cases ho : p.entriesOutcome call' (.start source.text.toList) p.entries with
  | overflow o =>
    rw [ho] at h
    rcases hx : (p.runEntries call (.start source.text.toList) p.entries).runOn #[] .initial with
      ⟨⟨⟩ | ⟨⟨⟩⟩, m'⟩ <;> simp_all [Outcome.ShownNode]
  | failed log =>
    simp only [ho, Outcome.ShownNode] at h
    rw [h]
    simp [Matcher.noteAll, Matcher.initial]
  | matched stop ts log =>
    rw [ho] at h
    obtain ⟨t, rfl, hrun⟩ := h
    exact ⟨t, rfl, by rw [hrun]⟩

theorem parse_eq (p : Parser) (source : Source) :
    p.Answers source (p.textOutcome (p.grammar.outcome p.maxDepth) source.text.toList)
      (p.parse source) :=
  p.parseWith_eq (p.grammar.run_follows p.maxDepth) source

/-- A tree that a parse returns is the node of what one of the entries matches at the beginning. -/
theorem exists_entry_of_parse {p : Parser} {source : Source} {t : Tree} (h : p.parse source = .ok t) :
    ∃ entry ∈ p.entries, ∃ stop captures log,
      p.grammar.outcome p.maxDepth .plain entry (.start source.text.toList) =
        .matched stop captures log ∧
      t = Tree.ofMatch entry (.start source.text.toList) stop captures := by
  have hparse := p.parse_eq source
  cases ho : p.textOutcome (p.grammar.outcome p.maxDepth) source.text.toList with
  | overflow o => simp [ho, h, Answers] at hparse
  | failed log => simp [ho, h, Answers] at hparse
  | matched stop ts log =>
    simp only [ho, h, Answers, Except.ok.injEq] at hparse
    obtain ⟨t', rfl, rfl⟩ := hparse
    obtain ⟨entry, hentry, log, he⟩ := entriesOutcome_matched ho
    obtain ⟨captures, missed, hout, htree⟩ := entryOutcome_matched he
    exact ⟨entry, hentry, stop, captures, missed, hout, List.singleton_inj.mp htree⟩

end Parser

end PegTree
