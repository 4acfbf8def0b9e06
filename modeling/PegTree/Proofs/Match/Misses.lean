import PegTree.Proofs.Match.Exactness

/-!
# What an expression misses

`Misses` says which terminals are tried in vain while an expression is matched, in the order in which
they are tried, each with its place, its wording and the innermost rule around it.  It is a relation
beside `Matches`, which decides where each part begins and whether it is tried at all.

* A terminal that fails is a miss; one that matches is none.
* What is inside a lookahead does not count, and neither is the lookahead itself a miss.
* What the skip rule tries does not count; it decides where the next part begins.
* Misses of parts that were given up count like all others: of alternatives that failed, of the
  elements in front of one that failed, of the last round of a repetition.

The log of an outcome is what the relation says (`Expr.outcome_misses`, `Grammar.outcome_misses`), and
it says one thing only (`Misses.unique`).
-/

namespace PegTree

/-- What a terminal expects. -/
def Expr.expectation? : Expr → Option Expectation
  | .literal text => some (.literal text)
  | .range low high => some (.range low high)
  | .endOfInput => some .endOfInput
  | _ => none

/-- The terminals tried in vain while an expression is matched outside lookaheads and the skip rule, by
the innermost rule around the expression, whether it is in leading position, and the place. -/
inductive Misses (g : Grammar) : Option RuleId → Bool → Expr → Cursor → List Miss → Prop
  -- terminals
  | empty {rule c} : Misses g rule false .empty c []
  | terminal_hit {rule e expected c stop ts} :
      e.expectation? = some expected → Matches g .plain false e c (.hit stop ts) →
      Misses g rule false e c []
  | terminal_fail {rule e expected c} :
      e.expectation? = some expected → Matches g .plain false e c .fail →
      Misses g rule false e c [⟨c.offset, expected.describe, rule⟩]
  -- rules
  | rule {rule id r c log} :
      g.rules[id]? = some r → Misses g (some id) false r.body c log →
      Misses g rule false (.rule id) c log
  | capture {rule id c log} :
      Misses g rule false (.rule id) c log → Misses g rule false (.capture id) c log
  -- leading positions
  | lead {rule e c next ts log} :
      e.TakesSkip → Skips g .plain c next ts → Misses g rule false e next log →
      Misses g rule true e c log
  -- sequences
  | sequence_nil {rule lead c} : Misses g rule lead (.sequence []) c []
  | sequence_fail {rule lead t terms c log} :
      Matches g .plain (lead && !t.adjacent) t.expr c .fail →
      Misses g rule (lead && !t.adjacent) t.expr c log →
      Misses g rule lead (.sequence (t :: terms)) c log
  | sequence_cons {rule lead t terms c next ts log more} :
      Matches g .plain (lead && !t.adjacent) t.expr c (.hit next ts) →
      Misses g rule (lead && !t.adjacent) t.expr c log →
      Misses g rule true (.sequence terms) next more →
      Misses g rule lead (.sequence (t :: terms)) c (log ++ more)
  -- choices
  | choice_nil {rule lead c} : Misses g rule lead (.choice []) c []
  | choice_first {rule lead e alternatives c stop ts log} :
      Matches g .plain lead e c (.hit stop ts) → Misses g rule lead e c log →
      Misses g rule lead (.choice (e :: alternatives)) c log
  | choice_next {rule lead e alternatives c log more} :
      Matches g .plain lead e c .fail → Misses g rule lead e c log →
      Misses g rule lead (.choice alternatives) c more →
      Misses g rule lead (.choice (e :: alternatives)) c (log ++ more)
  -- repetitions
  | repetition_fail {rule lead body c log} :
      Matches g .plain lead body c .fail → Misses g rule lead body c log →
      Misses g rule lead (.repetition body) c log
  | repetition_idle {rule lead body c stop ts log} :
      Matches g .plain lead body c (.hit stop ts) → stop.offset ≤ c.offset →
      Misses g rule lead body c log → Misses g rule lead (.repetition body) c log
  | repetition_again {rule lead body c next ts log more} :
      Matches g .plain lead body c (.hit next ts) → c.offset < next.offset →
      Misses g rule lead body c log → Misses g rule true (.repetition body) next more →
      Misses g rule lead (.repetition body) c (log ++ more)
  -- options and negations
  | optional {rule lead body c log} :
      Misses g rule lead body c log → Misses g rule lead (.optional body) c log
  | negation {rule lead body c} : Misses g rule lead (.negation body) c []

/-! ## One log -/

/-- The skip rule stops at one place. -/
theorem Skips.stop_unique {g : Grammar} {mode : Mode} {c stop stop' : Cursor} {ts ts' : List Tree}
    (h : Skips g mode c stop ts) (h' : Skips g mode c stop' ts') : stop = stop' := by
  rcases h with ⟨hno, rfl, -⟩ | ⟨body, rfl, hg, hbody⟩
  · rcases h' with ⟨-, rfl, -⟩ | ⟨body', rfl, hg', -⟩
    · rfl
    · simp [hg'] at hno
  · rcases h' with ⟨hno, -, -⟩ | ⟨body', -, hg', hbody'⟩
    · simp [hg] at hno
    · cases hg.symm.trans hg'
      rcases hbody with hbody | ⟨hbody, rfl, -⟩
      · rcases hbody' with hbody' | ⟨hbody', rfl, -⟩
        · cases hbody.unique hbody'
          rfl
        · cases hbody.unique hbody'
      · rcases hbody' with hbody' | ⟨hbody', rfl, -⟩
        · cases hbody.unique hbody'
        · rfl

/-- An expression misses nothing else. -/
def MissesOnly (g : Grammar) (rule : Option RuleId) (lead : Bool) (e : Expr) (c : Cursor)
    (log : List Miss) : Prop :=
  ∀ ⦃other⦄, Misses g rule lead e c other → other = log

namespace MissesOnly

variable {g : Grammar} {around : Option RuleId} {lead : Bool} {c : Cursor} {log more : List Miss}

/-! ### Terminals -/

section

variable {e : Expr} {expected : Expectation}

theorem empty : MissesOnly g around false .empty c [] := by
  intro other h
  cases h with
  | empty => rfl
  | terminal_hit he | terminal_fail he => cases he

theorem terminal_hit {stop : Cursor} {ts : List Tree} (he : e.expectation? = some expected)
    (hm : Matches g .plain false e c (.hit stop ts)) : MissesOnly g around false e c [] := by
  intro other h
  cases h with
  | terminal_hit => rfl
  | terminal_fail _ hm' => cases hm.unique hm'
  | _ => cases he

theorem terminal_fail (he : e.expectation? = some expected) (hm : Matches g .plain false e c .fail) :
    MissesOnly g around false e c [⟨c.offset, expected.describe, around⟩] := by
  intro other h
  cases h with
  | terminal_hit _ hm' => cases hm.unique hm'
  | terminal_fail he' =>
    cases he.symm.trans he'
    rfl
  | _ => cases he

end

/-! ### Rules and leading positions -/

theorem rule {id : RuleId} {r : Rule} (hr : g.rules[id]? = some r)
    (hbody : MissesOnly g (some id) false r.body c log) : MissesOnly g around false (.rule id) c log := by
  intro other h
  cases h with
  | rule hr' h =>
    cases hr.symm.trans hr'
    exact hbody h
  | terminal_hit he | terminal_fail he => cases he

theorem capture {id : RuleId} (hrule : MissesOnly g around false (.rule id) c log) :
    MissesOnly g around false (.capture id) c log := by
  intro other h
  cases h with
  | capture h => exact hrule h
  | terminal_hit he | terminal_fail he => cases he

theorem leading {e : Expr} {next : Cursor} {ts : List Tree} (he : e.TakesSkip) (hs : Skips g .plain c next ts)
    (h : MissesOnly g around false e next log) : MissesOnly g around true e c log := by
  intro other hm
  cases hm with
  | lead _ hs' hm =>
    cases hs.stop_unique hs'
    exact h hm
  | _ => exact he.elim

/-! ### Sequences

From here on the verdicts of the parts say which case applies. -/

section

variable {t : Term} {terms : List Term}

theorem sequence_nil : MissesOnly g around lead (.sequence []) c [] := by
  intro other h
  cases h with
  | sequence_nil => rfl
  | terminal_hit he | terminal_fail he => cases he
  | lead he => exact he.elim

theorem sequence_fail (hm : Matches g .plain (lead && !t.adjacent) t.expr c .fail)
    (hfirst : MissesOnly g around (lead && !t.adjacent) t.expr c log) :
    MissesOnly g around lead (.sequence (t :: terms)) c log := by
  intro other h
  cases h with
  | sequence_fail _ h => exact hfirst h
  | sequence_cons hm' => cases hm.unique hm'
  | terminal_hit he | terminal_fail he => cases he
  | lead he => exact he.elim

theorem sequence_cons {next : Cursor} {ts : List Tree}
    (hm : Matches g .plain (lead && !t.adjacent) t.expr c (.hit next ts))
    (hfirst : MissesOnly g around (lead && !t.adjacent) t.expr c log)
    (hrest : MissesOnly g around true (.sequence terms) next more) :
    MissesOnly g around lead (.sequence (t :: terms)) c (log ++ more) := by
  intro other h
  cases h with
  | sequence_fail hm' => cases hm.unique hm'
  | sequence_cons hm' he h =>
    cases hm.unique hm'
    rw [hfirst he, hrest h]
  | terminal_hit he | terminal_fail he => cases he
  | lead he => exact he.elim

end

/-! ### Choices -/

section

variable {e : Expr} {alternatives : List Expr}

theorem choice_nil : MissesOnly g around lead (.choice []) c [] := by
  intro other h
  cases h with
  | choice_nil => rfl
  | terminal_hit he | terminal_fail he => cases he
  | lead he => exact he.elim

theorem choice_first {stop : Cursor} {ts : List Tree} (hm : Matches g .plain lead e c (.hit stop ts))
    (hfirst : MissesOnly g around lead e c log) :
    MissesOnly g around lead (.choice (e :: alternatives)) c log := by
  intro other h
  cases h with
  | choice_first _ h => exact hfirst h
  | choice_next hm' => cases hm.unique hm'
  | terminal_hit he | terminal_fail he => cases he
  | lead he => exact he.elim

theorem choice_next (hm : Matches g .plain lead e c .fail) (hfirst : MissesOnly g around lead e c log)
    (hrest : MissesOnly g around lead (.choice alternatives) c more) :
    MissesOnly g around lead (.choice (e :: alternatives)) c (log ++ more) := by
  intro other h
  cases h with
  | choice_first hm' => cases hm.unique hm'
  | choice_next _ he h => rw [hfirst he, hrest h]
  | terminal_hit he | terminal_fail he => cases he
  | lead he => exact he.elim

end

/-! ### Repetitions, options and negations -/

section

variable {body : Expr} {stop : Cursor} {ts : List Tree}

theorem repetition_fail (hm : Matches g .plain lead body c .fail)
    (hround : MissesOnly g around lead body c log) :
    MissesOnly g around lead (.repetition body) c log := by
  intro other h
  cases h with
  | repetition_fail _ h | repetition_idle _ _ h => exact hround h
  | repetition_again hm' => cases hm.unique hm'
  | terminal_hit he | terminal_fail he => cases he
  | lead he => exact he.elim

/-- The same round cannot both consume something and not. -/
theorem repetition_idle (hm : Matches g .plain lead body c (.hit stop ts)) (hle : stop.offset ≤ c.offset)
    (hround : MissesOnly g around lead body c log) :
    MissesOnly g around lead (.repetition body) c log := by
  intro other h
  cases h with
  | repetition_fail _ h | repetition_idle _ _ h => exact hround h
  | repetition_again hm' hlt =>
    cases hm.unique hm'
    omega
  | terminal_hit he | terminal_fail he => cases he
  | lead he => exact he.elim

theorem repetition_again (hm : Matches g .plain lead body c (.hit stop ts)) (hlt : c.offset < stop.offset)
    (hround : MissesOnly g around lead body c log)
    (hrest : MissesOnly g around true (.repetition body) stop more) :
    MissesOnly g around lead (.repetition body) c (log ++ more) := by
  intro other h
  cases h with
  | repetition_fail hm' => cases hm.unique hm'
  | repetition_idle hm' hle =>
    cases hm.unique hm'
    omega
  | repetition_again hm' _ hb h =>
    cases hm.unique hm'
    rw [hround hb, hrest h]
  | terminal_hit he | terminal_fail he => cases he
  | lead he => exact he.elim

theorem optional (hbody : MissesOnly g around lead body c log) :
    MissesOnly g around lead (.optional body) c log := by
  intro other h
  cases h with
  | optional h => exact hbody h
  | terminal_hit he | terminal_fail he => cases he
  | lead he => exact he.elim

theorem negation : MissesOnly g around lead (.negation body) c [] := by
  intro other h
  cases h with
  | negation => rfl
  | terminal_hit he | terminal_fail he => cases he
  | lead he => exact he.elim

end

end MissesOnly

namespace Misses

variable {g : Grammar} {rule : Option RuleId} {lead : Bool} {e : Expr} {c : Cursor} {log log' : List Miss}

theorem missesOnly (h : Misses g rule lead e c log) : MissesOnly g rule lead e c log := by
  induction h with
  | empty => exact .empty
  | terminal_hit he hm => exact .terminal_hit he hm
  | terminal_fail he hm => exact .terminal_fail he hm
  | rule hr _ ih => exact .rule hr ih
  | capture _ ih => exact .capture ih
  | lead he hs _ ih => exact .leading he hs ih
  | sequence_nil => exact .sequence_nil
  | sequence_fail hm _ ih => exact .sequence_fail hm ih
  | sequence_cons hm _ _ ihe ih => exact .sequence_cons hm ihe ih
  | choice_nil => exact .choice_nil
  | choice_first hm _ ih => exact .choice_first hm ih
  | choice_next hm _ _ ihe ih => exact .choice_next hm ihe ih
  | repetition_fail hm _ ih => exact .repetition_fail hm ih
  | repetition_idle hm hle _ ih => exact .repetition_idle hm hle ih
  | repetition_again hm hlt _ _ ihb ih => exact .repetition_again hm hlt ihb ih
  | optional _ ih => exact .optional ih
  | negation => exact .negation

/-- An expression misses one thing only. -/
theorem unique (h : Misses g rule lead e c log) (h' : Misses g rule lead e c log') : log = log' :=
  h'.missesOnly h

end Misses

/-! ## Logs of outcomes -/

namespace Outcome

/-- The misses of an outcome, unless it is an overflow. -/
def log? : Outcome → Option (List Miss)
  | overflow _ => none
  | failed log => some log
  | matched _ _ log => some log

@[simp]
theorem log?_after (ts : List Tree) (log : List Miss) (o : Outcome) :
    (o.after ts log).log? = o.log?.map (log ++ ·) := by
  cases o <;> rfl

@[simp]
theorem log?_captured (o : Outcome) (id : RuleId) (c : Cursor) :
    (o.captured id c).log? = o.log? := by
  cases o <;> rfl

/-- The misses of a run that goes on from a match. -/
theorem log?_andThen {o : Outcome} {next : Cursor → Outcome} {log : List Miss}
    (h : (o.andThen next).log? = some log) :
    o = .failed log ∨ ∃ stop ts missed more, o = .matched stop ts missed ∧
      (next stop).log? = some more ∧ log = missed ++ more := by
  cases o with
  | overflow o => simp [andThen, log?] at h
  | failed missed => exact .inl (by simpa [andThen, log?] using h)
  | matched stop ts missed =>
    rw [andThen, log?_after, Option.map_eq_some_iff] at h
    obtain ⟨more, hmore, rfl⟩ := h
    exact .inr ⟨stop, ts, missed, more, rfl, hmore, rfl⟩

/-- The misses of a run that tries something else after a failure. -/
theorem log?_orElse {o other : Outcome} {log : List Miss} (h : (o.orElse other).log? = some log) :
    (∃ stop ts, o = .matched stop ts log) ∨ ∃ missed more, o = .failed missed ∧
      other.log? = some more ∧ log = missed ++ more := by
  cases o with
  | overflow o => simp [orElse, log?] at h
  | failed missed =>
    rw [orElse, log?_after, Option.map_eq_some_iff] at h
    obtain ⟨more, hmore, rfl⟩ := h
    exact .inr ⟨missed, more, rfl, hmore, rfl⟩
  | matched stop ts missed => simpa [orElse, log?] using h

end Outcome

/-- A frame in which skipping and calling end as the grammar says and miss what it says. -/
structure Frame.Logs (g : Grammar) (f : Frame) : Prop where
  sound : f.Sound g .plain
  skip : ∀ {c log}, (f.skip c).log? = some log → log = []
  call : ∀ {rule id c log}, id < g.size → (f.call id c).log? = some log →
    Misses g rule false (.rule id) c log

section

variable {g : Grammar} {f : Frame}

/-- Something that takes the skip rule in front, given what it misses without. -/
theorem leading_misses (hf : f.Logs g) {e : Expr} {next : Cursor → Outcome}
    (hnext : ∀ {c log}, (next c).log? = some log → Misses g f.rule false e c log) (he : e.TakesSkip)
    {lead : Bool} {c : Cursor} {log : List Miss} (h : (f.leading lead c next).log? = some log) :
    Misses g f.rule lead e c log := by
  cases lead with
  | false => exact hnext h
  | true =>
    have hverdict {v : Verdict} := hf.sound.skip (c := c) (v := v)
    rcases Outcome.log?_andThen h with hfail | ⟨stop, ts, missed, more, ho, hmore, rfl⟩
    · -- the skip rule never fails
      obtain ⟨_, _, hv, -⟩ := hverdict (by rw [hfail]; rfl)
      cases hv
    · obtain ⟨_, _, hv, hs⟩ := hverdict (by rw [ho]; rfl)
      cases hv
      obtain rfl : missed = [] := hf.skip (by rw [ho]; rfl)
      exact .lead he hs (hnext hmore)

/-- A terminal, given how it ends and that it logs nothing else than its failure. -/
theorem terminal_misses {e : Expr} {expected : Expectation} (he : e.expectation? = some expected)
    {c : Cursor} {o : Outcome} (hmatches : ∀ {v}, o.verdict? = some v → Matches g .plain false e c v)
    (ho : (∃ stop, o = .stay stop) ∨ o = f.fail c expected) {log : List Miss}
    (h : o.log? = some log) : Misses g f.rule false e c log := by
  rcases ho with ⟨stop, rfl⟩ | rfl
  · cases h
    exact .terminal_hit he (hmatches rfl)
  · cases h
    exact .terminal_fail he (hmatches rfl)

theorem literal_misses {text : String} {c : Cursor} {log : List Miss}
    (h : (f.literal text c).log? = some log) : Misses g f.rule false (.literal text) c log := by
  refine terminal_misses rfl (o := f.literal text c) literal_matches ?_ h
  unfold Frame.literal
  split
  · exact .inl ⟨_, rfl⟩
  · exact .inr rfl

theorem range_misses {low high : Char} {c : Cursor} {log : List Miss}
    (h : (f.range low high c).log? = some log) : Misses g f.rule false (.range low high) c log := by
  refine terminal_misses rfl (o := f.range low high c) range_matches ?_ h
  unfold Frame.range
  split
  · split
    · exact .inl ⟨_, rfl⟩
    · exact .inr rfl
  · exact .inr rfl

theorem endOfInput_misses {c : Cursor} {log : List Miss} (h : (f.endOfInput c).log? = some log) :
    Misses g f.rule false .endOfInput c log := by
  refine terminal_misses rfl (o := f.endOfInput c) endOfInput_matches ?_ h
  unfold Frame.endOfInput
  split
  · exact .inl ⟨_, rfl⟩
  · exact .inr rfl

/-- One round of a repetition, given what a round misses and what follows one that has consumed
something. -/
theorem round_misses {body : Expr} {rule : Option RuleId} {lead : Bool} {c : Cursor} {o : Outcome}
    {next : Cursor → Outcome} {log : List Miss}
    (hmatches : ∀ {v}, o.verdict? = some v → Matches g .plain lead body c v)
    (hround : ∀ {log}, o.log? = some log → Misses g rule lead body c log)
    (hnext : ∀ {stop log}, c.Reaches stop → c.offset < stop.offset → (next stop).log? = some log →
      Misses g rule true (.repetition body) stop log)
    (h : (o.round c next).log? = some log) : Misses g rule lead (.repetition body) c log := by
  cases o with
  | overflow o => simp [Outcome.round, Outcome.log?] at h
  | failed missed =>
    cases h
    exact .repetition_fail (hmatches rfl) (hround rfl)
  | matched stop ts missed =>
    have hbody := hmatches (v := .hit stop ts) rfl
    by_cases hlt : c.offset < stop.offset
    · simp only [Outcome.round, hlt, if_true, Outcome.log?_after, Option.map_eq_some_iff] at h
      obtain ⟨more, hmore, rfl⟩ := h
      exact .repetition_again hbody hlt (hround rfl) (hnext hbody.reaches hlt hmore)
    · simp only [Outcome.round, hlt, if_false, Outcome.log?, Option.some.injEq] at h
      subst h
      exact .repetition_idle hbody (by omega) (hround rfl)

/-- There are as many rounds as are needed. -/
theorem iterate_misses {body : Expr} {rule : Option RuleId} {run : Bool → Cursor → Outcome}
    (hmatches : ∀ {lead c v}, (run lead c).verdict? = some v → Matches g .plain lead body c v)
    (hbody : ∀ {lead c log}, (run lead c).log? = some log → Misses g rule lead body c log)
    {lead : Bool} {c : Cursor} {log : List Miss}
    (h : (Outcome.iterate run c.rest lead c).log? = some log) :
    Misses g rule lead (.repetition body) c log := by
  have hreach : ∀ {lead c stop ts log}, run lead c = .matched stop ts log → c.Reaches stop :=
    fun {_ _ stop ts _} ho => (hmatches (v := .hit stop ts) (by rw [ho]; rfl)).reaches
  induction hn : c.rest.length using Nat.strongRecOn generalizing lead c log with
  | ind n ih =>
    rw [Outcome.iterate_eq hreach c.rest (Nat.le_refl _)] at h
    exact round_misses hmatches hbody (fun hon hlt hw => ih _ (hn ▸ hon.length_lt hlt) hw rfl) h

mutual

/-- The log of an outcome is what the expression misses. -/
theorem Expr.outcome_misses (hf : f.Logs g) :
    ∀ (e : Expr), e.Within g.size → ∀ {lead : Bool} {c : Cursor} {log : List Miss},
      (e.outcome f lead c).log? = some log → Misses g f.rule lead e c log
  | .empty, _, _, _, _, h => by
    rw [Expr.outcome] at h
    refine leading_misses (e := .empty) hf (fun h => ?_) trivial h
    cases h
    exact .empty
  | .literal text, _, _, _, _, h => by
    rw [Expr.outcome] at h
    exact leading_misses hf literal_misses trivial h
  | .range low high, _, _, _, _, h => by
    rw [Expr.outcome] at h
    exact leading_misses hf range_misses trivial h
  | .endOfInput, _, _, _, _, h => by
    rw [Expr.outcome] at h
    exact leading_misses hf endOfInput_misses trivial h
  | .rule id, he, _, _, _, h => by
    rw [Expr.outcome] at h
    have hid : id < g.size := he ⟨id, false⟩ (by simp [Expr.mentions])
    exact leading_misses hf (hf.call hid) trivial h
  | .capture id, he, _, _, _, h => by
    rw [Expr.outcome] at h
    have hid : id < g.size := he ⟨id, true⟩ (by simp [Expr.mentions])
    refine leading_misses (e := .capture id) hf (fun h => ?_) trivial h
    rw [Outcome.log?_captured] at h
    exact .capture (hf.call hid h)
  | .sequence terms, he, _, _, _, h => by
    rw [Expr.outcome] at h
    exact sequenceOutcome_misses hf terms he h
  | .choice alternatives, he, _, _, _, h => by
    rw [Expr.outcome] at h
    exact choiceOutcome_misses hf alternatives he h
  | .repetition body, he, _, c, _, h => by
    rw [Expr.outcome] at h
    exact iterate_misses (Expr.outcome_matches hf.sound body he) (Expr.outcome_misses hf body he) h
  | .optional body, he, _, _, _, h => by
    rw [Expr.outcome] at h
    rcases Outcome.log?_orElse h with ⟨stop, ts, ho⟩ | ⟨missed, more, ho, hstay, rfl⟩
    · exact .optional (Expr.outcome_misses hf body he (by rw [ho]; rfl))
    · cases hstay
      rw [List.append_nil]
      exact .optional (Expr.outcome_misses hf body he (by rw [ho]; rfl))
  | .negation body, _, _, c, _, h => by
    rw [Expr.outcome] at h
    cases ho : body.outcome f false c with
    | overflow o => simp [ho, Outcome.negated, Outcome.log?] at h
    | failed missed | matched stop ts missed =>
      rw [ho] at h
      cases h
      exact .negation

theorem sequenceOutcome_misses (hf : f.Logs g) :
    ∀ (terms : List Term), (∀ x ∈ mentionsOfTerms terms, x.rule < g.size) →
      ∀ {lead : Bool} {c : Cursor} {log : List Miss},
      (sequenceOutcome f terms lead c).log? = some log → Misses g f.rule lead (.sequence terms) c log
  | [], _, _, _, _, h => by
    cases h
    exact .sequence_nil
  | ⟨adjacent, e⟩ :: terms, he, _, _, _, h => by
    simp only [mentionsOfTerms, List.mem_append] at he
    have hfirst : e.Within g.size := fun x hx => he x (.inl hx)
    rw [sequenceOutcome] at h
    rcases Outcome.log?_andThen h with ho | ⟨stop, ts, missed, more, ho, hmore, rfl⟩
    · exact .sequence_fail (Expr.outcome_matches hf.sound e hfirst (by rw [ho]; rfl))
        (Expr.outcome_misses hf e hfirst (by rw [ho]; rfl))
    · exact .sequence_cons (Expr.outcome_matches hf.sound e hfirst (v := .hit stop ts)
          (by rw [ho]; rfl))
        (Expr.outcome_misses hf e hfirst (by rw [ho]; rfl))
        (sequenceOutcome_misses hf terms (fun x hx => he x (.inr hx)) hmore)

theorem choiceOutcome_misses (hf : f.Logs g) :
    ∀ (alternatives : List Expr), (∀ x ∈ mentionsOfAll alternatives, x.rule < g.size) →
      ∀ {lead : Bool} {c : Cursor} {log : List Miss},
      (choiceOutcome f alternatives lead c).log? = some log →
      Misses g f.rule lead (.choice alternatives) c log
  | [], _, _, _, _, h => by
    cases h
    exact .choice_nil
  | e :: alternatives, he, _, _, _, h => by
    simp only [mentionsOfAll, List.mem_append] at he
    have hfirst : e.Within g.size := fun x hx => he x (.inl hx)
    rw [choiceOutcome] at h
    rcases Outcome.log?_orElse h with ⟨stop, ts, ho⟩ | ⟨missed, more, ho, hmore, rfl⟩
    · exact .choice_first (Expr.outcome_matches hf.sound e hfirst (v := .hit stop ts)
          (by rw [ho]; rfl))
        (Expr.outcome_misses hf e hfirst (by rw [ho]; rfl))
    · exact .choice_next (Expr.outcome_matches hf.sound e hfirst (by rw [ho]; rfl))
        (Expr.outcome_misses hf e hfirst (by rw [ho]; rfl))
        (choiceOutcome_misses hf alternatives (fun x hx => he x (.inr hx)) hmore)

end

end

/-! ## Rules -/

namespace Grammar

variable {g : Grammar}

/-- Skipping logs nothing. -/
theorem log?_skipOutcome {call : Mode → RuleId → Cursor → Outcome} {mode : Mode} {c : Cursor}
    {log : List Miss} (h : (g.skipOutcome call mode c).log? = some log) : log = [] := by
  unfold skipOutcome at h
  split at h
  · next body _ =>
    cases ho : (body.outcome ⟨none, .stay, call .skipping⟩ false c).orElse (.stay c) <;>
      simp_all [Outcome.quiet, Outcome.log?]
  · cases h
    rfl

/-- Where calls miss what the grammar says, the frame of a body does. -/
theorem frame_logs (hg : g.Resolved) (left : Nat) (rule : Option RuleId)
    (hcall : ∀ {rule id c log}, id < g.size → (g.outcome left .plain id c).log? = some log →
      Misses g rule false (.rule id) c log) :
    (g.frame (g.outcome left) .plain rule).Logs g :=
  ⟨frame_sound hg (outcome_matches hg left) .plain rule, log?_skipOutcome, hcall⟩

/-- The log of a call is what the rule misses, whatever rule it is called from. -/
theorem outcome_misses (hg : g.Resolved) (left : Nat) {rule : Option RuleId} {id : RuleId}
    {c : Cursor} {log : List Miss} (hid : id < g.size)
    (h : (g.outcome left .plain id c).log? = some log) :
    Misses g rule false (.rule id) c log := by
  induction left generalizing rule id c log with
  | zero => simp [outcome, Outcome.log?] at h
  | succ left ih =>
    obtain ⟨r, hr⟩ := exists_rule hid
    rw [outcome, hr] at h
    exact .rule hr (Expr.outcome_misses (frame_logs hg left (some id) ih) r.body
      (hg r.body (body_mem_bodies hr)) h)

end Grammar

end PegTree
