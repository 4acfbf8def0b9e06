import PegTree.Proofs.Grammar.WellFormed
import PegTree.Proofs.Match.Locality
import PegTree.Proofs.Text.Runs
import PegTree.Proofs.Tree.Subtree
import PegTree.Proofs.Tree.WellFormed

/-!
# Lists of numbers

The grammar of the introduction: numbers with blanks between them, and a semicolon behind the last.  A
parse succeeds exactly for texts that begin with such a list, and the tree has a leaf for each number,
in order and where it stands (`number_list_parse_iff`).

Both directions come from what the expressions match.  The digits of a number are a longest run, and so
are the blanks in front of the next; a round of the repetition that finds no number behind the blanks
gives them back.  So a list that is written is matched as it is written (`list_matches`), and where none is
written the rule fails (`list_written_or_fails`).  Two nested calls are enough for any list.
-/

namespace PegTree

/-! ## Runs of characters -/

namespace Cursor

/-- No character of a kind comes next. -/
def NotAt (c : Cursor) (kind : Char → Prop) : Prop :=
  ∀ x rest, c.rest = x :: rest → ¬ kind x

theorem notAt_of_rest {c : Cursor} {kind : Char → Prop} {x : Char} {rest : List Char}
    (hc : c.rest = x :: rest) (hx : ¬ kind x) : c.NotAt kind := by
  intro y rest' hy
  obtain ⟨rfl, -⟩ := List.cons.inj (hc.symm.trans hy)
  exact hx

/-- From every place a longest run of characters of a kind can be read. -/
theorem exists_run (c : Cursor) (kind : Char → Prop) :
    ∃ run stop, (∀ x ∈ run, kind x) ∧ c.Reads run stop ∧ stop.NotAt kind := by
  classical
  obtain ⟨run, rest, htext, hrun, hrest⟩ := PegTree.exists_run (fun x => decide (kind x)) c.rest
  exact ⟨run, ⟨_, rest⟩, fun x hx => of_decide_eq_true (hrun x hx), ⟨htext, rfl⟩,
    fun x more hx => of_decide_eq_false (hrest x more hx)⟩

end Cursor

/-- A repetition of an expression that matches one character of a kind matches a longest run of them. -/
theorem matches_run {g : Grammar} {mode : Mode} {body : Expr} {kind : Char → Prop}
    (hhit : ∀ {lead c stop x}, kind x → c.Reads [x] stop → Matches g mode lead body c (.hit stop []))
    (hfail : ∀ {lead} {c : Cursor}, c.NotAt kind → Matches g mode lead body c .fail)
    (run : List Char) (hrun : ∀ x ∈ run, kind x) {lead : Bool} {c stop : Cursor} (hc : c.Reads run stop)
    (hstop : stop.NotAt kind) : Matches g mode lead (.repetition body) c (.hit stop []) := by
  induction run generalizing lead c with
  | nil =>
    obtain rfl := hc.stop_eq (.refl c)
    exact .repetition_fail (hfail hstop)
  | cons x run ih =>
    obtain ⟨hx, hrun⟩ := List.forall_mem_cons.mp hrun
    obtain ⟨next, hnext, hrest⟩ := Cursor.Reads.split (s := [x]) hc
    exact .repetition_again (hhit hx hnext) (hnext.offset_lt (List.cons_ne_nil x [])) (ih hrun hrest)

/-! ## The parser -/

/-- Describes a parser for lists of numbers. -/
def numberListBuilder : Builder where
  text := "list = @num \x7b@num\x7d ';'; num = '0'..'9'#\x7b#'0'..'9'\x7d; = \x7b' '\x7d;"
  entries := ["list"]

/-- The grammar of lists of numbers. -/
def numberListGrammar : Grammar where
  rules :=
    [⟨"list", .sequence [⟨false, .capture 1⟩, ⟨false, .repetition (.capture 1)⟩, ⟨false, .literal ";"⟩],
        ⟨0, 4⟩⟩,
      ⟨"num", .sequence [⟨false, .range '0' '9'⟩,
        ⟨true, .repetition (.sequence [⟨true, .range '0' '9'⟩])⟩], ⟨24, 27⟩⟩]
  skip := some (.repetition (.literal " "))

/-- What `numberListBuilder` builds. -/
def numberListParser : Parser where
  grammar := numberListGrammar
  entries := [0]
  full := false
  maxDepth := defaultMaxDepth

theorem build_numberListBuilder : numberListBuilder.build = .ok numberListParser :=
  toOption_eq_some_iff.mp (by decide +kernel)

/-! ## Lists as they are written -/

/-- A number of a list and the blanks behind it. -/
structure NumberRow where
  digits : List Char
  blanks : Nat

namespace NumberRow

/-- There are digits, and nothing else. -/
def IsNumber (r : NumberRow) : Prop :=
  r.digits ≠ [] ∧ ∀ x ∈ r.digits, IsDigit x

/-- What stands behind the number. -/
def gap (r : NumberRow) : List Char :=
  List.replicate r.blanks ' '

def written (r : NumberRow) : List Char :=
  r.digits ++ r.gap

end NumberRow

/-- One or more numbers, with blanks between any two of them. -/
def NumberRows : List NumberRow → Prop
  | [] => False
  | [r] => r.IsNumber
  | r :: r' :: rows => r.IsNumber ∧ 0 < r.blanks ∧ NumberRows (r' :: rows)

/-- The numbers with what stands behind each, and the semicolon. -/
def writtenRows (rows : List NumberRow) : List Char :=
  rows.flatMap NumberRow.written ++ [';']

/-- A leaf for every number, the first of which stands at `start`. -/
def numberLeaves (start : Nat) : List NumberRow → List Tree
  | [] => []
  | r :: rows =>
    .leaf 1 ⟨start, start + utf8Width r.digits⟩ (String.ofList r.digits) ::
      numberLeaves (start + utf8Width r.written) rows

theorem writtenRows_cons (r : NumberRow) (rows : List NumberRow) :
    writtenRows (r :: rows) = r.digits ++ (r.gap ++ writtenRows rows) := by
  simp only [writtenRows, NumberRow.written, List.flatMap_cons, List.append_assoc]

namespace NumberRows

variable {r : NumberRow} {rows : List NumberRow}

theorem isNumber (h : NumberRows (r :: rows)) : r.IsNumber := by
  cases rows with
  | nil => exact h
  | cons r' rows => exact h.1

/-- No digit stands behind a number. -/
theorem notAt_digit (h : NumberRows (r :: rows)) {c stop : Cursor}
    (hc : c.Reads (r.gap ++ writtenRows rows) stop) : c.NotAt IsDigit := by
  have hblank : ¬ IsDigit ' ' := by unfold IsDigit; decide
  have hsemicolon : ¬ IsDigit ';' := by unfold IsDigit; decide
  obtain ⟨digits, _ | blanks⟩ := r
  · cases rows with
    | nil => exact Cursor.notAt_of_rest hc.1 hsemicolon
    | cons r' rows => exact absurd h.2.1 (Nat.lt_irrefl 0)
  · exact Cursor.notAt_of_rest hc.1 hblank

end NumberRows

/-! ## What the rules match -/

section

variable {g : Grammar} {mode : Mode} {lead : Bool} {e : Expr} {terms : List Term} {c next : Cursor}
  {ts : List Tree} {v : Verdict}

theorem unmarked_matches (h : Matches g mode lead e c (.hit next ts))
    (hrest : Matches g mode true (.sequence terms) next v) :
    Matches g mode lead (.sequence (⟨false, e⟩ :: terms)) c (v.after ts) := by
  have hfirst : Matches g mode (lead && !false) e c (.hit next ts) := by
    rwa [Bool.not_false, Bool.and_true]
  exact Matches.sequence_cons (t := ⟨false, e⟩) hfirst hrest

theorem unmarked_fails (h : Matches g mode lead e c .fail) :
    Matches g mode lead (.sequence (⟨false, e⟩ :: terms)) c .fail := by
  have hfirst : Matches g mode (lead && !false) e c .fail := by
    rwa [Bool.not_false, Bool.and_true]
  exact Matches.sequence_fail (t := ⟨false, e⟩) hfirst

theorem marked_matches (h : Matches g mode false e c (.hit next ts))
    (hrest : Matches g mode true (.sequence terms) next v) :
    Matches g mode lead (.sequence (⟨true, e⟩ :: terms)) c (v.after ts) := by
  have hfirst : Matches g mode (lead && !true) e c (.hit next ts) := by
    rwa [Bool.not_true, Bool.and_false]
  exact Matches.sequence_cons (t := ⟨true, e⟩) hfirst hrest

theorem marked_fails (h : Matches g mode false e c .fail) :
    Matches g mode lead (.sequence (⟨true, e⟩ :: terms)) c .fail := by
  have hfirst : Matches g mode (lead && !true) e c .fail := by
    rwa [Bool.not_true, Bool.and_false]
  exact Matches.sequence_fail (t := ⟨true, e⟩) hfirst

theorem skipping_matches (he : e.TakesSkip) (h : Matches g .skipping false e c v) :
    Matches g .skipping lead e c v := by
  cases lead with
  | false => exact h
  | true => exact .lead_unskipped he (.inl rfl) h

end

section

variable {c next stop : Cursor} {digits : List Char} {blanks : Nat}

/-- The skip rule runs over all blanks. -/
theorem blanks_match (hc : c.Reads (List.replicate blanks ' ') stop) (hstop : stop.NotAt (· = ' ')) :
    Matches numberListGrammar .skipping false (.repetition (.literal " ")) c (.hit stop []) := by
  refine matches_run (fun {lead c stop x} hx hc => ?_) (fun {lead c} hc => ?_) _
    (fun x hx => List.eq_of_mem_replicate hx) hc hstop
  · subst hx
    exact skipping_matches (by trivial) (.literal hc)
  · exact skipping_matches (by trivial) (.literal_fail fun rest hrest => hc _ _ hrest rfl)

/-- Behind blanks goes on what would go on without them. -/
theorem matches_behind_blanks {e : Expr} {v : Verdict} (he : e.TakesSkip)
    (hc : c.Reads (List.replicate blanks ' ') next) (hnext : next.NotAt (· = ' '))
    (h : Matches numberListGrammar .plain false e next v) : Matches numberListGrammar .plain true e c v := by
  have hled := Matches.lead_skipped he rfl (blanks_match hc hnext) h
  rwa [Verdict.after_nil] at hled

theorem number_matches (hdigits : digits ≠ []) (hall : ∀ x ∈ digits, IsDigit x)
    (hc : c.Reads digits stop) (hstop : stop.NotAt IsDigit) :
    Matches numberListGrammar .plain false (.rule 1) c (.hit stop []) := by
  obtain ⟨x, more, rfl⟩ := List.exists_cons_of_ne_nil hdigits
  obtain ⟨hx, hmore⟩ := List.forall_mem_cons.mp hall
  obtain ⟨next, hnext, hrest⟩ := Cursor.Reads.split (s := [x]) hc
  -- the marks keep the skip rule away from all digits but the first
  have hothers : Matches numberListGrammar .plain false
      (.repetition (.sequence [⟨true, .range '0' '9'⟩])) next (.hit stop []) := by
    refine matches_run (fun {lead c stop x} hx hc => ?_) (fun {lead c} hc => ?_) more hmore hrest hstop
    · exact marked_matches (.range hc hx.1 hx.2) .sequence_nil
    · exact marked_fails (.range_fail hc)
  have hbody := unmarked_matches (.range hnext hx.1 hx.2) (marked_matches hothers .sequence_nil)
  exact .rule rfl hbody

theorem number_fails (hc : c.NotAt IsDigit) :
    Matches numberListGrammar .plain false (.rule 1) c .fail :=
  .rule rfl (unmarked_fails (.range_fail hc))

/-- A number behind blanks makes a leaf. -/
theorem next_number_matches (hblanks : c.Reads (List.replicate blanks ' ') next)
    (hdigits : digits ≠ []) (hall : ∀ x ∈ digits, IsDigit x) (hnext : next.Reads digits stop)
    (hstop : stop.NotAt IsDigit) :
    Matches numberListGrammar .plain true (.capture 1) c
      (.hit stop [.leaf 1 ⟨next.offset, stop.offset⟩ (String.ofList digits)]) := by
  have hpast : next.NotAt (· = ' ') := by
    obtain ⟨x, more, rfl⟩ := List.exists_cons_of_ne_nil hdigits
    refine Cursor.notAt_of_rest hnext.1 ?_
    rintro rfl
    exact absurd (hall ' ' List.mem_cons_self) (by unfold IsDigit; decide)
  exact matches_behind_blanks (by trivial) hblanks hpast
    (.capture_leaf (number_matches hdigits hall hnext hstop) hnext)

theorem next_number_fails (hblanks : c.Reads (List.replicate blanks ' ') next)
    (hpast : next.NotAt (· = ' ')) (hnext : next.NotAt IsDigit) :
    Matches numberListGrammar .plain true (.capture 1) c .fail :=
  matches_behind_blanks (by trivial) hblanks hpast (.capture_fail (number_fails hnext))

end

/-! ## Lists that are written are matched -/

section

variable {c stop : Cursor}

/-- Behind the first number the repetition matches all others, and stops in front of the last blanks. -/
theorem rows_match {r : NumberRow} {rows : List NumberRow} (h : NumberRows (r :: rows))
    (hc : c.Reads (r.gap ++ writtenRows rows) stop) :
    ∃ last blanks, Matches numberListGrammar .plain true (.repetition (.capture 1)) c
        (.hit last (numberLeaves (c.offset + utf8Width r.gap) rows)) ∧
      last.Reads (List.replicate blanks ' ' ++ [';']) stop := by
  induction rows generalizing r c with
  | nil =>
    obtain ⟨next, hblanks, hsemicolon⟩ := Cursor.Reads.split hc
    have hfails := next_number_fails hblanks (Cursor.notAt_of_rest hsemicolon.1 (by decide))
      (Cursor.notAt_of_rest hsemicolon.1 (by unfold IsDigit; decide))
    exact ⟨c, r.blanks, .repetition_fail hfails, hc⟩
  | cons r' rows ih =>
    rw [writtenRows_cons] at hc
    obtain ⟨next, hblanks, hrest⟩ := Cursor.Reads.split hc
    obtain ⟨behind, hdigits, hrest⟩ := Cursor.Reads.split hrest
    have hrows : NumberRows (r' :: rows) := h.2.2
    obtain ⟨hne, hall⟩ := hrows.isNumber
    obtain ⟨last, blanks, hothers, hlast⟩ := ih hrows hrest
    have hnumber := next_number_matches hblanks hne hall hdigits (hrows.notAt_digit hrest)
    have hlt : c.offset < behind.offset :=
      Nat.lt_of_le_of_lt (Cursor.Reaches.offset_le ⟨_, hblanks⟩) (hdigits.offset_lt hne)
    refine ⟨last, blanks, ?_, hlast⟩
    rw [numberLeaves, ← show next.offset = c.offset + utf8Width r.gap from hblanks.2,
      NumberRow.written, utf8Width_append, ← Nat.add_assoc, ← hdigits.2]
    exact .repetition_again hnumber hlt hothers

/-- The semicolon may stand behind blanks. -/
theorem semicolon_matches {blanks : Nat} (hc : c.Reads (List.replicate blanks ' ' ++ [';']) stop) :
    Matches numberListGrammar .plain true (.literal ";") c (.hit stop []) := by
  obtain ⟨next, hblanks, hsemicolon⟩ := Cursor.Reads.split hc
  have hliteral : Matches numberListGrammar .plain false (.literal ";") next (.hit stop []) :=
    .literal hsemicolon
  exact matches_behind_blanks (by trivial) hblanks (Cursor.notAt_of_rest hsemicolon.1 (by decide)) hliteral

/-- A list that is written is matched as it is written. -/
theorem list_matches {rows : List NumberRow} (h : NumberRows rows)
    (hc : c.Reads (writtenRows rows) stop) :
    Matches numberListGrammar .plain false (.rule 0) c (.hit stop (numberLeaves c.offset rows)) := by
  obtain _ | ⟨r, rows⟩ := rows
  · exact h.elim
  rw [writtenRows_cons] at hc
  obtain ⟨behind, hdigits, hrest⟩ := Cursor.Reads.split hc
  obtain ⟨hne, hall⟩ := h.isNumber
  have hnumber := number_matches hne hall hdigits (h.notAt_digit hrest)
  obtain ⟨last, blanks, hothers, hlast⟩ := rows_match h hrest
  have hbody := unmarked_matches (.capture_leaf hnumber hdigits)
    (unmarked_matches hothers (unmarked_matches (semicolon_matches hlast) .sequence_nil))
  rw [numberLeaves, NumberRow.written, utf8Width_append, ← Nat.add_assoc, ← hdigits.2]
  simp only [Verdict.after_hit, List.append_nil] at hbody
  exact .rule rfl hbody

/-! ## Where no list is written -/

/-- Between digits that belong to two numbers there is a blank. -/
theorem blanks_between {blanks : Nat} {digits : List Char} {next : Cursor} (hc : c.NotAt IsDigit)
    (hblanks : c.Reads (List.replicate blanks ' ') next) (hdigits : digits ≠ [])
    (hall : ∀ x ∈ digits, IsDigit x) (hnext : next.Reads digits stop) : 0 < blanks := by
  obtain ⟨x, more, rfl⟩ := List.exists_cons_of_ne_nil hdigits
  refine Nat.pos_of_ne_zero ?_
  rintro rfl
  obtain rfl := hblanks.stop_eq (.refl c)
  exact hc x _ hnext.1 (hall x List.mem_cons_self)

/-- Behind digits the rest of a list is written, or no semicolon stands where the repetition stops. -/
theorem rest_written_or_fails {digits : List Char} (hdigits : digits ≠ [] ∧ ∀ x ∈ digits, IsDigit x)
    (c : Cursor) (hc : c.NotAt IsDigit) :
    (∃ blanks rows stop, NumberRows (⟨digits, blanks⟩ :: rows) ∧
        c.Reads (List.replicate blanks ' ' ++ writtenRows rows) stop) ∨
      ∃ stop ts, Matches numberListGrammar .plain true (.repetition (.capture 1)) c (.hit stop ts) ∧
        Matches numberListGrammar .plain true (.literal ";") stop .fail := by
  obtain ⟨gap, next, hgap, hblanks, hnext⟩ := c.exists_run (· = ' ')
  obtain ⟨blanks, rfl⟩ : ∃ blanks, gap = List.replicate blanks ' ' :=
    ⟨_, List.eq_replicate_of_mem hgap⟩
  obtain ⟨more, behind, hmore, hread, hbehind⟩ := next.exists_run IsDigit
  by_cases hne : more = []
  · -- no number follows, so this is where the semicolon has to be
    subst hne
    obtain rfl := hread.stop_eq (.refl next)
    by_cases hsemicolon : ∃ rest, behind.rest = ';' :: rest
    · obtain ⟨rest, hrest⟩ := hsemicolon
      have hread : behind.Reads [';'] ⟨behind.offset + utf8Width [';'], rest⟩ := ⟨hrest, rfl⟩
      exact .inl ⟨blanks, [], _, hdigits, hblanks.append hread⟩
    · have hfails : Matches numberListGrammar .plain false (.literal ";") behind .fail :=
        .literal_fail fun rest hrest => hsemicolon ⟨rest, hrest⟩
      exact .inr ⟨c, [], .repetition_fail (next_number_fails hblanks hnext hbehind),
        matches_behind_blanks (by trivial) hblanks hnext hfails⟩
  · have hlt : c.offset < behind.offset :=
      Nat.lt_of_le_of_lt (Cursor.Reaches.offset_le ⟨_, hblanks⟩) (hread.offset_lt hne)
    have hshorter : behind.rest.length < c.rest.length :=
      Cursor.Reaches.length_lt ⟨_, hblanks.append hread⟩ hlt
    rcases rest_written_or_fails ⟨hne, hmore⟩ behind hbehind with
      ⟨blanks', rows, stop, hrows, hrest⟩ | ⟨last, ts, hothers, hfails⟩
    · have hpos := blanks_between hc hblanks hne hmore hread
      refine .inl ⟨blanks, ⟨more, blanks'⟩ :: rows, stop, ⟨hdigits, hpos, hrows⟩, ?_⟩
      rw [writtenRows_cons]
      exact hblanks.append (hread.append hrest)
    · have hnumber := next_number_matches hblanks hne hmore hread hbehind
      exact .inr ⟨last, _, .repetition_again hnumber hlt hothers, hfails⟩
termination_by c.rest.length

/-- At every place a list is written, or the rule fails. -/
theorem list_written_or_fails (c : Cursor) :
    (∃ rows stop, NumberRows rows ∧ c.Reads (writtenRows rows) stop) ∨
      Matches numberListGrammar .plain false (.rule 0) c .fail := by
  obtain ⟨digits, behind, hall, hdigits, hbehind⟩ := c.exists_run IsDigit
  by_cases hne : digits = []
  · subst hne
    obtain rfl := hdigits.stop_eq (.refl c)
    exact .inr (.rule rfl (unmarked_fails (.capture_fail (number_fails hbehind))))
  rcases rest_written_or_fails ⟨hne, hall⟩ behind hbehind with
    ⟨blanks, rows, stop, hrows, hrest⟩ | ⟨last, ts, hothers, hfails⟩
  · refine .inl ⟨_, stop, hrows, ?_⟩
    rw [writtenRows_cons]
    exact hdigits.append hrest
  · have hnumber := number_matches hne hall hdigits hbehind
    have hend : Matches numberListGrammar .plain true (.sequence [⟨false, .literal ";"⟩]) last .fail :=
      unmarked_fails hfails
    have hbody := unmarked_matches (.capture_leaf hnumber hdigits) (unmarked_matches hothers hend)
    exact .inr (.rule rfl hbody)

end

/-! ## Two nested calls -/

section

variable {left : Nat} {mode : Mode} (c : Cursor)

/-- Skipping calls nothing, so it is safe whatever calls come to. -/
theorem skipOutcome_numberList_safe (call : Mode → RuleId → Cursor → Outcome) :
    (numberListGrammar.skipOutcome call mode c).Safe := by
  have hsafe : (numberListGrammar.skipOutcome (fun _ _ _ => .failed []) mode c).Safe :=
    Grammar.skipOutcome_safe (fun _ _ _ => Outcome.safe_failed []) mode c
  cases mode with
  | skipping | plain => exact hsafe

/-- A number calls nothing. -/
theorem number_safe : (numberListGrammar.outcome (left + 1) mode 1 c).Safe := by
  have hframe : Frame.Safe ⟨some 1, numberListGrammar.skipOutcome (numberListGrammar.outcome left) mode,
      fun _ _ => .failed []⟩ :=
    ⟨fun d => skipOutcome_numberList_safe d _, fun _ _ => Outcome.safe_failed []⟩
  exact Expr.outcome_safe hframe (.sequence [⟨false, .range '0' '9'⟩,
    ⟨true, .repetition (.sequence [⟨true, .range '0' '9'⟩])⟩]) false c

/-- A list calls numbers only. -/
theorem list_safe : (numberListGrammar.outcome (left + 2) mode 0 c).Safe := by
  have hframe : Frame.Safe ⟨some 0,
      numberListGrammar.skipOutcome (numberListGrammar.outcome (left + 1)) mode,
      fun _ => numberListGrammar.outcome (left + 1) mode 1⟩ :=
    ⟨fun d => skipOutcome_numberList_safe d _, fun _ d => number_safe d⟩
  exact Expr.outcome_safe hframe (.sequence [⟨false, .capture 1⟩, ⟨false, .repetition (.capture 1)⟩,
    ⟨false, .literal ";"⟩]) false c

end

/-! ## Parses -/

/-- The root over a list that begins the text. -/
theorem ofMatch_numberLeaves {rows : List NumberRow} (h : NumberRows rows) {text : List Char}
    {stop : Cursor} (hc : (Cursor.start text).Reads (writtenRows rows) stop) :
    Tree.ofMatch 0 (.start text) stop (numberLeaves (Cursor.start text).offset rows) =
      .branch 0 ⟨0, utf8Width (writtenRows rows)⟩ (numberLeaves 0 rows) := by
  have hstop : stop.offset = utf8Width (writtenRows rows) := hc.2.trans (Nat.zero_add _)
  obtain _ | ⟨r, rows⟩ := rows
  · exact h.elim
  · rw [← hstop]
    rfl

theorem resolved_numberListGrammar : numberListGrammar.Resolved :=
  Grammar.resolved_of_compile (Builder.build_eq_ok build_numberListBuilder).1

/-- The parser for lists of numbers is built, and it accepts precisely the texts that begin with a list
of numbers.  The tree has a leaf for each of them, in order, over its digits, and ends behind the
semicolon. -/
theorem number_list_parse_iff :
    numberListBuilder.build = .ok numberListParser ∧
      numberListParser.grammar.ruleId? "list" = some 0 ∧
      numberListParser.grammar.ruleId? "num" = some 1 ∧
      ∀ (text : String) (t : Tree), numberListParser.parseText text = .ok t ↔
        ∃ rows rest, NumberRows rows ∧ text.toList = writtenRows rows ++ rest ∧
          t = .branch 0 ⟨0, utf8Width (writtenRows rows)⟩ (numberLeaves 0 rows) := by
  refine ⟨build_numberListBuilder, rfl, rfl, fun text t => ⟨fun ht => ?_, ?_⟩⟩
  · obtain ⟨entry, hentry, stop, captures, hmatches, rfl⟩ :=
      Builder.matches_of_parse build_numberListBuilder ht
    obtain rfl := List.mem_singleton.mp hentry
    rcases list_written_or_fails (.start text.toList) with ⟨rows, stop', hrows, hread⟩ | hfails
    · cases hmatches.unique (list_matches hrows hread)
      exact ⟨rows, stop.rest, hrows, hread.1, ofMatch_numberLeaves hrows hread⟩
    · cases hmatches.unique hfails
  · rintro ⟨rows, rest, hrows, htext, rfl⟩
    have hread : (Cursor.start text.toList).Reads (writtenRows rows) ⟨utf8Width (writtenRows rows), rest⟩ :=
      ⟨htext, (Nat.zero_add _).symm⟩
    have hsafe : (numberListGrammar.outcome 128 .plain 0 (.start text.toList)).Safe := list_safe _
    obtain ⟨log, hout⟩ := Grammar.outcome_of_matches resolved_numberListGrammar (by decide) hsafe
      (list_matches hrows hread)
    have hparse := Parser.parse_only (p := numberListParser) hout "input"
    rwa [String.ofList_toList, ofMatch_numberLeaves hrows hread] at hparse

end PegTree
