import PegTree.Proofs.Grammar.Resolved
import PegTree.Proofs.Grammar.Equality
import PegTree.Proofs.Match.Simulation

/-!
# The matcher is exact

Where no limit is hit, running an expression of a resolved grammar answers precisely what the expression
matches.  The proof goes through the outcomes: each outcome that is not an overflow has a verdict, and
that verdict is what the expression matches (`Expr.outcome_matches`, by cases on the expression;
`Grammar.outcome_matches`, by induction on the calls that are left).  Because an expression ends in one
way only, it is the only verdict.
-/

namespace PegTree

namespace Outcome

/-- How an outcome ends, unless it is an overflow. -/
def verdict? : Outcome → Option Verdict
  | overflow _ => none
  | failed _ => some .fail
  | matched stop captures _ => some (.hit stop captures)

@[simp]
theorem verdict?_stay (c : Cursor) : (stay c).verdict? = some (.hit c []) := rfl

@[simp]
theorem verdict?_after (ts : List Tree) (log : List Miss) (o : Outcome) :
    (o.after ts log).verdict? = o.verdict?.map (·.after ts) := by
  cases o <;> rfl

@[simp]
theorem verdict?_quiet (o : Outcome) : o.quiet.verdict? = o.verdict? := by
  cases o <;> rfl

/-- What goes on from a match either failed before or goes on behind it. -/
theorem verdict?_andThen {o : Outcome} {next : Cursor → Outcome} {v : Verdict}
    (h : (o.andThen next).verdict? = some v) :
    (o.verdict? = some .fail ∧ v = .fail) ∨
    ∃ stop ts w, o.verdict? = some (.hit stop ts) ∧ (next stop).verdict? = some w ∧
      v = w.after ts := by
  cases o with
  | overflow o => simp [andThen, verdict?] at h
  | failed log => exact .inl ⟨rfl, by simpa [andThen, verdict?] using h.symm⟩
  | matched stop ts log =>
    rw [andThen, verdict?_after, Option.map_eq_some_iff] at h
    obtain ⟨w, hw, rfl⟩ := h
    exact .inr ⟨stop, ts, w, rfl, hw, rfl⟩

/-- What is tried after a failure either was not needed or follows one. -/
theorem verdict?_orElse {o other : Outcome} {v : Verdict} (h : (o.orElse other).verdict? = some v) :
    (o.verdict? = some .fail ∧ other.verdict? = some v) ∨
    ∃ stop ts, o.verdict? = some (.hit stop ts) ∧ v = .hit stop ts := by
  cases o with
  | overflow o => simp [orElse, verdict?] at h
  | failed log => exact .inl ⟨rfl, by simpa [orElse] using h⟩
  | matched stop ts log => exact .inr ⟨stop, ts, rfl, by simpa [orElse, verdict?] using h.symm⟩

/-! ## Rounds -/

/-- What goes on behind a round only matters where the round has consumed something. -/
theorem round_congr {o : Outcome} {c : Cursor} {next next' : Cursor → Outcome}
    (h : ∀ stop ts log, o = .matched stop ts log → c.offset < stop.offset → next stop = next' stop) :
    o.round c next = o.round c next' := by
  cases o with
  | overflow v | failed log => rfl
  | matched stop ts log =>
    by_cases hlt : c.offset < stop.offset
    · simp only [round, hlt, if_true, h stop ts log rfl hlt]
    · simp only [round, hlt, if_false]

/-- The bound on rounds never ends a repetition: behind a round that goes on fewer characters are ahead.
So a repetition is one round and then the repetition again, whatever the bound, as long as it is not
below the number of characters. -/
theorem iterate_eq {body : Bool → Cursor → Outcome}
    (hreach : ∀ {lead c stop ts log}, body lead c = .matched stop ts log → c.Reaches stop)
    (ahead : List Char) {lead : Bool} {c : Cursor} (hlen : c.rest.length ≤ ahead.length) :
    iterate body ahead lead c = (body lead c).round c fun stop => iterate body stop.rest true stop := by
  induction hn : ahead.length using Nat.strongRecOn generalizing ahead lead c with
  | ind n ih =>
    cases ahead with
    | nil =>
      rw [iterate]
      refine round_congr fun stop ts log ho hlt => ?_
      have hfewer := (hreach ho).length_lt hlt
      rw [List.length_nil] at hlen
      omega
    | cons x ahead =>
      rw [iterate]
      refine round_congr fun stop ts log ho hlt => ?_
      have hfewer := (hreach ho).length_lt hlt
      rw [List.length_cons] at hlen hn
      rw [ih ahead.length (by omega) ahead (by omega) rfl,
        ih stop.rest.length (by omega) stop.rest (Nat.le_refl _) rfl]

end Outcome

/-! ## Frames -/

/-- What the skip rule does at a place: it stops somewhere and has captured something. -/
def Skips (g : Grammar) (mode : Mode) (c stop : Cursor) (ts : List Tree) : Prop :=
  ((mode = .skipping ∨ g.skip = none) ∧ stop = c ∧ ts = []) ∨
  ∃ body, mode = .plain ∧ g.skip = some body ∧
    (Matches g .skipping false body c (.hit stop ts) ∨
      Matches g .skipping false body c .fail ∧ stop = c ∧ ts = [])

theorem Skips.lead {g : Grammar} {mode : Mode} {c stop : Cursor} {ts : List Tree} {e : Expr}
    {v : Verdict} (hs : Skips g mode c stop ts) (he : e.TakesSkip)
    (h : Matches g mode false e stop v) : Matches g mode true e c (v.after ts) := by
  rcases hs with ⟨hg, rfl, rfl⟩ | ⟨body, rfl, hg, hbody | ⟨hbody, rfl, rfl⟩⟩
  · rw [Verdict.after_nil]
    exact .lead_unskipped he hg h
  · exact .lead_skipped he hg hbody h
  · rw [Verdict.after_nil]
    exact .lead_failed he hg hbody h

/-- A frame in which skipping and calling end as the grammar says. -/
structure Frame.Sound (g : Grammar) (f : Frame) (mode : Mode) : Prop where
  skip : ∀ {c v}, (f.skip c).verdict? = some v →
    ∃ stop ts, v = .hit stop ts ∧ Skips g mode c stop ts
  call : ∀ {id c v}, id < g.size → (f.call id c).verdict? = some v →
    Matches g mode false (.rule id) c v

section

variable {g : Grammar} {f : Frame} {mode : Mode}

/-- Something that takes the skip rule in front, given how it ends without. -/
theorem leading_matches (hf : f.Sound g mode) {e : Expr} {next : Cursor → Outcome}
    (hnext : ∀ {c v}, (next c).verdict? = some v → Matches g mode false e c v) (he : e.TakesSkip)
    {lead : Bool} {c : Cursor} {v : Verdict} (h : (f.leading lead c next).verdict? = some v) :
    Matches g mode lead e c v := by
  cases lead with
  | false => exact hnext h
  | true =>
    rcases Outcome.verdict?_andThen h with ⟨hfail, -⟩ | ⟨stop, ts, w, hskip, hw, rfl⟩
    · obtain ⟨_, _, hv, -⟩ := hf.skip hfail
      cases hv
    · obtain ⟨_, _, hv, hs⟩ := hf.skip hskip
      cases hv
      exact hs.lead he (hnext hw)

theorem empty_matches {c : Cursor} {v : Verdict} (h : (Outcome.stay c).verdict? = some v) :
    Matches g mode false .empty c v := by
  cases h
  exact .empty

theorem literal_matches {text : String} {c : Cursor} {v : Verdict}
    (h : (f.literal text c).verdict? = some v) : Matches g mode false (.literal text) c v := by
  unfold Frame.literal at h
  split at h
  · next hd =>
    cases h
    exact .literal (Cursor.dropPrefix?_eq_some.mp hd)
  · next hd =>
    cases h
    exact .literal_fail (Cursor.dropPrefix?_eq_none.mp hd)

theorem range_matches {low high : Char} {c : Cursor} {v : Verdict}
    (h : (f.range low high c).verdict? = some v) : Matches g mode false (.range low high) c v := by
  unfold Frame.range at h
  split at h
  · next x stop hx =>
    have hr := Cursor.next?_eq_some.mp hx
    split at h
    · next hb =>
      cases h
      exact .range hr hb.1 hb.2
    · next hb =>
      cases h
      apply Matches.range_fail
      intro y rest hy
      rw [hr.1] at hy
      cases hy
      exact hb
  · next hx =>
    cases h
    apply Matches.range_fail
    intro y rest hy
    simp [Cursor.next?, hy] at hx

theorem endOfInput_matches {c : Cursor} {v : Verdict}
    (h : (f.endOfInput c).verdict? = some v) : Matches g mode false .endOfInput c v := by
  unfold Frame.endOfInput at h
  split at h
  · next hc =>
    cases h
    exact .endOfInput (List.isEmpty_iff.mp hc)
  · next hc =>
    cases h
    exact .endOfInput_fail (fun h => hc (List.isEmpty_iff.mpr h))

/-- A capture ends as the rule does and makes a leaf or a branch of the match. -/
theorem captured_matches {id : RuleId} {c : Cursor} {o : Outcome}
    (ho : ∀ {v}, o.verdict? = some v → Matches g mode false (.rule id) c v) {v : Verdict}
    (h : (o.captured id c).verdict? = some v) : Matches g mode false (.capture id) c v := by
  cases o with
  | overflow o => simp [Outcome.captured, Outcome.verdict?] at h
  | failed log =>
    cases h
    exact .capture_fail (ho rfl)
  | matched stop ts log =>
    cases h
    exact (ho rfl).capture

/-- One round of a repetition, given how what follows a round that has consumed something ends. -/
theorem round_matches {body : Expr} {lead : Bool} {c : Cursor} {o : Outcome}
    {next : Cursor → Outcome} {v : Verdict}
    (hround : ∀ {w}, o.verdict? = some w → Matches g mode lead body c w)
    (hnext : ∀ {stop w}, c.Reaches stop → c.offset < stop.offset → (next stop).verdict? = some w →
      Matches g mode true (.repetition body) stop w)
    (h : (o.round c next).verdict? = some v) : Matches g mode lead (.repetition body) c v := by
  cases o with
  | overflow o => simp [Outcome.round, Outcome.verdict?] at h
  | failed log =>
    cases h
    exact .repetition_fail (hround rfl)
  | matched stop ts log =>
    have hbody := hround (w := .hit stop ts) rfl
    by_cases hlt : c.offset < stop.offset
    · simp only [Outcome.round, hlt, if_true, Outcome.verdict?_after, Option.map_eq_some_iff] at h
      obtain ⟨w, hw, rfl⟩ := h
      exact .repetition_again hbody hlt (hnext hbody.reaches hlt hw)
    · simp only [Outcome.round, hlt, if_false, Outcome.verdict?, Option.some.injEq] at h
      subst h
      exact .repetition_idle hbody (by omega)

/-- There are as many rounds as are needed. -/
theorem iterate_matches {body : Expr} {run : Bool → Cursor → Outcome}
    (hbody : ∀ {lead c v}, (run lead c).verdict? = some v → Matches g mode lead body c v)
    {lead : Bool} {c : Cursor} {v : Verdict}
    (h : (Outcome.iterate run c.rest lead c).verdict? = some v) :
    Matches g mode lead (.repetition body) c v := by
  have hreach : ∀ {lead c stop ts log}, run lead c = .matched stop ts log → c.Reaches stop :=
    fun {_ _ stop ts _} ho => (hbody (v := .hit stop ts) (by rw [ho]; rfl)).reaches
  induction hn : c.rest.length using Nat.strongRecOn generalizing lead c v with
  | ind n ih =>
    rw [Outcome.iterate_eq hreach c.rest (Nat.le_refl _)] at h
    exact round_matches hbody (fun hon hlt hw => ih _ (hn ▸ hon.length_lt hlt) hw rfl) h

end

/-! ## Expressions -/

section

variable {g : Grammar} {f : Frame} {mode : Mode}

mutual

theorem Expr.outcome_matches (hf : f.Sound g mode) :
    ∀ (e : Expr), e.Within g.size → ∀ {lead : Bool} {c : Cursor} {v : Verdict},
      (e.outcome f lead c).verdict? = some v → Matches g mode lead e c v
  | .empty, _, _, _, _, h => by
    rw [Expr.outcome] at h
    exact leading_matches hf empty_matches trivial h
  | .literal text, _, _, _, _, h => by
    rw [Expr.outcome] at h
    exact leading_matches hf literal_matches trivial h
  | .range low high, _, _, _, _, h => by
    rw [Expr.outcome] at h
    exact leading_matches hf range_matches trivial h
  | .endOfInput, _, _, _, _, h => by
    rw [Expr.outcome] at h
    exact leading_matches hf endOfInput_matches trivial h
  | .rule id, he, _, _, _, h => by
    rw [Expr.outcome] at h
    have hid : id < g.size := he ⟨id, false⟩ (by simp [Expr.mentions])
    exact leading_matches hf (hf.call hid) trivial h
  | .capture id, he, _, _, _, h => by
    rw [Expr.outcome] at h
    have hid : id < g.size := he ⟨id, true⟩ (by simp [Expr.mentions])
    exact leading_matches hf (captured_matches (hf.call hid)) trivial h
  | .sequence terms, he, _, _, _, h => by
    rw [Expr.outcome] at h
    exact sequenceOutcome_matches hf terms he h
  | .choice alternatives, he, _, _, _, h => by
    rw [Expr.outcome] at h
    exact choiceOutcome_matches hf alternatives he h
  | .repetition body, he, _, c, _, h => by
    rw [Expr.outcome] at h
    exact iterate_matches (Expr.outcome_matches hf body he) h
  | .optional body, he, _, c, _, h => by
    rw [Expr.outcome] at h
    rcases Outcome.verdict?_orElse h with ⟨hfail, hstay⟩ | ⟨stop, ts, hhit, rfl⟩
    · cases hstay
      exact .optional_fail (Expr.outcome_matches hf body he hfail)
    · exact .optional_hit (Expr.outcome_matches hf body he hhit)
  | .negation body, he, _, c, v, h => by
    rw [Expr.outcome] at h
    have hbody := @Expr.outcome_matches hf body he false c
    cases ho : body.outcome f false c with
    | overflow o => simp [ho, Outcome.negated, Outcome.verdict?] at h
    | failed log =>
      rw [ho] at h hbody
      cases h
      exact .negation_hit (hbody rfl)
    | matched stop ts log =>
      rw [ho] at h hbody
      cases h
      exact .negation_fail (hbody rfl)

theorem sequenceOutcome_matches (hf : f.Sound g mode) :
    ∀ (terms : List Term), (∀ x ∈ mentionsOfTerms terms, x.rule < g.size) →
      ∀ {lead : Bool} {c : Cursor} {v : Verdict},
      (sequenceOutcome f terms lead c).verdict? = some v → Matches g mode lead (.sequence terms) c v
  | [], _, _, _, _, h => by
    cases h
    exact .sequence_nil
  | ⟨adjacent, e⟩ :: terms, he, _, _, _, h => by
    simp only [mentionsOfTerms, List.mem_append] at he
    have hfirst : e.Within g.size := fun x hx => he x (.inl hx)
    rw [sequenceOutcome] at h
    rcases Outcome.verdict?_andThen h with ⟨hfail, rfl⟩ | ⟨stop, ts, w, hhit, hw, rfl⟩
    · exact .sequence_fail (Expr.outcome_matches hf e hfirst hfail)
    · exact .sequence_cons (Expr.outcome_matches hf e hfirst hhit)
        (sequenceOutcome_matches hf terms (fun x hx => he x (.inr hx)) hw)

theorem choiceOutcome_matches (hf : f.Sound g mode) :
    ∀ (alternatives : List Expr), (∀ x ∈ mentionsOfAll alternatives, x.rule < g.size) →
      ∀ {lead : Bool} {c : Cursor} {v : Verdict},
      (choiceOutcome f alternatives lead c).verdict? = some v →
      Matches g mode lead (.choice alternatives) c v
  | [], _, _, _, _, h => by
    cases h
    exact .choice_nil
  | e :: alternatives, he, _, _, _, h => by
    simp only [mentionsOfAll, List.mem_append] at he
    have hfirst : e.Within g.size := fun x hx => he x (.inl hx)
    rw [choiceOutcome] at h
    rcases Outcome.verdict?_orElse h with ⟨hfail, hrest⟩ | ⟨stop, ts, hhit, rfl⟩
    · exact .choice_next (Expr.outcome_matches hf e hfirst hfail)
        (choiceOutcome_matches hf alternatives (fun x hx => he x (.inr hx)) hrest)
    · exact .choice_first (Expr.outcome_matches hf e hfirst hhit)

end

end

/-! ## Grammars -/

namespace Grammar

variable {g : Grammar}

/-- Skipping ends as the grammar says if calling does. -/
theorem skipOutcome_matches (hg : g.Resolved) {call : Mode → RuleId → Cursor → Outcome}
    (hcall : ∀ {mode id c v}, id < g.size → (call mode id c).verdict? = some v →
      Matches g mode false (.rule id) c v) {mode : Mode} {c : Cursor} {v : Verdict}
    (h : (g.skipOutcome call mode c).verdict? = some v) :
    ∃ stop ts, v = .hit stop ts ∧ Skips g mode c stop ts := by
  cases mode with
  | skipping =>
    cases h
    exact ⟨c, [], rfl, .inl ⟨.inl rfl, rfl, rfl⟩⟩
  | plain =>
    cases hskip : g.skip with
    | none =>
      simp only [skipOutcome, hskip] at h
      cases h
      exact ⟨c, [], rfl, .inl ⟨.inr hskip, rfl, rfl⟩⟩
    | some body =>
      -- inside the skip rule skipping is staying, which is sound there
      simp only [skipOutcome, hskip, Outcome.verdict?_quiet] at h
      have hinner : Frame.Sound g ⟨none, .stay, call .skipping⟩ .skipping :=
        ⟨fun hstay => ⟨_, _, (Option.some.inj hstay).symm, .inl ⟨.inl rfl, rfl, rfl⟩⟩, hcall⟩
      have hbody := @Expr.outcome_matches g _ _ hinner body (hg body (skip_mem_bodies hskip)) false c
      rcases Outcome.verdict?_orElse h with ⟨hfail, hstay⟩ | ⟨stop, ts, hhit, rfl⟩
      · cases hstay
        exact ⟨c, [], rfl, .inr ⟨body, rfl, hskip, .inr ⟨hbody hfail, rfl, rfl⟩⟩⟩
      · exact ⟨stop, ts, rfl, .inr ⟨body, rfl, hskip, .inl (hbody hhit)⟩⟩

theorem frame_sound (hg : g.Resolved) {call : Mode → RuleId → Cursor → Outcome}
    (hcall : ∀ {mode id c v}, id < g.size → (call mode id c).verdict? = some v →
      Matches g mode false (.rule id) c v) (mode : Mode) (rule : Option RuleId) :
    (g.frame call mode rule).Sound g mode :=
  ⟨skipOutcome_matches hg hcall, hcall⟩

/-- Calling a rule ends as its body does. -/
theorem outcome_matches (hg : g.Resolved) (left : Nat) {mode : Mode} {id : RuleId} {c : Cursor}
    {v : Verdict} (hid : id < g.size) (h : (g.outcome left mode id c).verdict? = some v) :
    Matches g mode false (.rule id) c v := by
  induction left generalizing mode id c v with
  | zero => simp [outcome, Outcome.verdict?] at h
  | succ left ih =>
    obtain ⟨r, hr⟩ := exists_rule hid
    simp only [outcome, hr] at h
    exact .rule hr
      (Expr.outcome_matches (frame_sound hg ih mode _) _ (hg _ (body_mem_bodies hr)) h)

end Grammar

/-! ## Running an expression -/

/-- What running an expression answers and leaves on a child list, by how the expression ends. -/
def Verdict.answer (out : Array Tree) : Verdict → Option Cursor × Array Tree
  | fail => (none, out)
  | hit stop captures => (some stop, out ++ captures.toArray)

theorem Outcome.Shown.eq_answer {o : Outcome} {out : Array Tree} {m : Matcher}
    {r : Except Overflow (Option Cursor × Array Tree) × Matcher} (h : o.Shown out m r)
    (hr : ∀ o, r.1 ≠ .error o) : ∃ v, o.verdict? = some v ∧ r.1 = .ok (v.answer out) := by
  cases o with
  | overflow o => exact absurd h (hr o)
  | failed log => exact ⟨.fail, rfl, congrArg Prod.fst h⟩
  | matched stop ts log => exact ⟨.hit stop ts, rfl, congrArg Prod.fst h⟩

/-- Running an expression of a compiled grammar, in any mode, leading or not, at any place, on any
child list and with any number of calls left, either hits the limit or answers what the expression
matches: a match puts exactly its captures behind the child list, a failure leaves the list as it
was.  There is no other way in which the expression ends. -/
theorem eval_answers_iff_matches {source : Source} {g : Grammar}
    (hg : Grammar.compile source = .ok g) {e : Expr} (he : e.Within g.size) (left : Nat)
    (mode : Mode) (lead : Bool) (c : Cursor) (out : Array Tree) (m : Matcher)
    (hmode : m.skipping = (mode == .skipping))
    (hlimit : ∀ o, ((e.eval (g.surroundings (g.run left)) lead c).runOn out m).1 ≠ .error o) :
    ∃ v, ((e.eval (g.surroundings (g.run left)) lead c).runOn out m).1 = .ok (v.answer out) ∧
      ∀ w, Matches g mode lead e c w ↔ w = v := by
  have hresolved := Grammar.resolved_of_compile hg
  -- any state fits the frame of its innermost rule
  have hfits : (g.frame (g.outcome left) mode m.stack.head?).Fits mode m := ⟨hmode, fun _ => rfl⟩
  have hshown := g.eval_follows left mode m.stack.head? e lead c m hfits out
  obtain ⟨v, hv, hanswer⟩ := hshown.eq_answer hlimit
  have hsound := Grammar.frame_sound hresolved (Grammar.outcome_matches hresolved left) mode
    m.stack.head?
  have hmatches := Expr.outcome_matches hsound e he hv
  refine ⟨v, hanswer, fun w => ⟨fun hw => hw.unique hmatches, ?_⟩⟩
  rintro rfl
  exact hmatches

/-- On the text ` b y` the first alternative gives its capture back and the second keeps its own. -/
theorem eval_answers_iff_matches_pair :
    ∃ v, ((Expr.eval (pairGrammar.surroundings (pairGrammar.run 2)) (.rule 0) true
        (.start " b y".toList)).runOn #[.leaf 1 ⟨0, 0⟩ ""] .initial).1 =
          .ok (v.answer #[.leaf 1 ⟨0, 0⟩ ""]) ∧
      ∀ w, Matches pairGrammar .plain true (.rule 0) (.start " b y".toList) w ↔ w = v :=
  eval_answers_iff_matches compile_pairText (by simp [Expr.Within, Expr.mentions, pairGrammar,
    Grammar.size]) 2 .plain true _ _ _ rfl (ne_error_of_isOk (by decide +kernel))

end PegTree
