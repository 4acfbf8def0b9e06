import PegTree.Proofs.Match.Outcome

/-!
# The matcher follows the outcomes

Running an expression on a child list and a matcher does what its outcome says and nothing else: after
a match the captures of this run stand behind the old child list, after a failure the child list is
the old one, and in both cases the matcher has changed only by the misses of this run, which count
unless a lookahead or the skip rule is around.  So every branch that is given up has been taken back.

The correspondence holds in every state that fits the frame: the flag says in which mode the skip
rule is, and where misses count the innermost active rule is the frame's.
-/

namespace PegTree

/-! ## Noting several misses -/

namespace Matcher

/-- The state after several misses in order. -/
def noteAll (log : List Miss) (m : Matcher) : Matcher :=
  if m.quiet = 0 then { m with furthest := log.foldl Furthest.note m.furthest } else m

@[simp]
theorem noteAll_nil (m : Matcher) : m.noteAll [] = m := by
  simp [noteAll]

@[simp]
theorem noteAll_stack (log : List Miss) (m : Matcher) : (m.noteAll log).stack = m.stack := by
  unfold noteAll
  split <;> rfl

@[simp]
theorem noteAll_skipping (log : List Miss) (m : Matcher) :
    (m.noteAll log).skipping = m.skipping := by
  unfold noteAll
  split <;> rfl

@[simp]
theorem noteAll_quiet (log : List Miss) (m : Matcher) : (m.noteAll log).quiet = m.quiet := by
  unfold noteAll
  split <;> rfl

theorem noteAll_append (a b : List Miss) (m : Matcher) :
    m.noteAll (a ++ b) = (m.noteAll a).noteAll b := by
  by_cases h : m.quiet = 0 <;> simp [noteAll, h, List.foldl_append]

theorem leaveRule_noteAll (id : RuleId) (log : List Miss) (m : Matcher) :
    ((m.enterRule id).noteAll log).leaveRule = m.noteAll log := by
  by_cases h : m.quiet = 0 <;> simp [noteAll, enterRule, leaveRule, h]

theorem leaveLookahead_noteAll (log : List Miss) (m : Matcher) :
    (m.enterLookahead.noteAll log).leaveLookahead = m := by
  simp [noteAll, enterLookahead, leaveLookahead]

theorem leaveSkip_noteAll (log : List Miss) {m : Matcher} (h : m.skipping = false) :
    (m.enterSkip.noteAll log).leaveSkip = m := by
  simp [noteAll, enterSkip, leaveSkip, ← h]

end Matcher

/-! ## The correspondence -/

/-- A run on a child list and a matcher gives what the outcome says. -/
def Outcome.Shown (o : Outcome) (out : Array Tree) (m : Matcher)
    (r : Except Overflow (Option Cursor × Array Tree) × Matcher) : Prop :=
  match o with
  | overflow o => r.1 = .error o
  | failed log => r = (.ok (none, out), m.noteAll log)
  | matched stop captures log => r = (.ok (some stop, out ++ captures.toArray), m.noteAll log)

/-- A flag is that of a mode. -/
theorem exists_mode (skipping : Bool) : ∃ mode : Mode, skipping = (mode == .skipping) := by
  cases skipping with
  | false => exact ⟨.plain, rfl⟩
  | true => exact ⟨.skipping, rfl⟩

/-- The states in which an expression may be run in a frame. -/
structure Frame.Fits (f : Frame) (mode : Mode) (m : Matcher) : Prop where
  skipping : m.skipping = (mode == .skipping)
  rule : m.quiet = 0 → m.stack.head? = f.rule

theorem Frame.Fits.noteAll {f : Frame} {mode : Mode} {m : Matcher} (h : f.Fits mode m)
    (log : List Miss) : f.Fits mode (m.noteAll log) :=
  ⟨by simpa using h.skipping, by simpa using h.rule⟩

theorem Frame.Fits.enterLookahead {f : Frame} {mode : Mode} {m : Matcher} (h : f.Fits mode m) :
    f.Fits mode m.enterLookahead :=
  ⟨h.skipping, by simp [Matcher.enterLookahead]⟩

/-- A computation gives what the outcome says on every child list and in every state that fits. -/
def Follows (f : Frame) (mode : Mode) (x : Matching (Option Cursor)) (o : Outcome) : Prop :=
  ∀ m, f.Fits mode m → ∀ out, o.Shown out m (x.runOn out m)

/-- The surroundings run the skip rule and call rules as the frame says. -/
structure Surroundings.Follow (s : Surroundings) (f : Frame) (mode : Mode) : Prop where
  skip : ∀ c, Follows f mode (some <$> s.skip c) (f.skip c)
  call : ∀ id c, Follows f mode (s.call id c) (f.call id c)

namespace Outcome

variable {o : Outcome} {out : Array Tree} {m : Matcher}
  {r : Except Overflow (Option Cursor × Array Tree) × Matcher}

/-- What was missed before may as well have been noted before. -/
theorem shown_after_noteAll {ts : List Tree} {log : List Miss} :
    (o.after ts log).Shown out m r ↔ (o.after ts []).Shown out (m.noteAll log) r := by
  cases o <;> simp [after, Shown, Matcher.noteAll_append]

@[simp]
theorem after_nil : o.after [] [] = o := by
  cases o <;> simp [after]

/-- What goes on behind a run is shown one by one for the ways in which the run may end. -/
theorem Shown.bind {x : Matching (Option Cursor)} {next : Option Cursor → Matching (Option Cursor)}
    {o' : Outcome} {out' : Array Tree} (h : o.Shown out' m (x.runOn out' m))
    (hoverflow : ∀ v, o = .overflow v → o' = .overflow v)
    (hfailed : ∀ log, o = .failed log →
      o'.Shown out m ((next none).runOn out' (m.noteAll log)))
    (hmatched : ∀ stop ts log, o = .matched stop ts log →
      o'.Shown out m ((next (some stop)).runOn (out' ++ ts.toArray) (m.noteAll log))) :
    o'.Shown out m ((x >>= next).runOn out' m) := by
  cases o with
  | overflow v =>
    rw [hoverflow v rfl]
    exact Matching.runOn_bind_error h next
  | failed log =>
    rw [Matching.runOn_bind_ok h]
    exact hfailed log rfl
  | matched stop ts log =>
    rw [Matching.runOn_bind_ok h]
    exact hmatched stop ts log rfl

/-- A failure in the middle leaves captures behind, which are then cut off. -/
theorem Shown.truncate {x : Matching (Option Cursor)} {ts : List Tree}
    (h : o.Shown (out ++ ts.toArray) m (x.runOn (out ++ ts.toArray) m)) :
    (o.after ts []).Shown out m
      ((do match ← x with
           | some stop => return some stop
           | none =>
             Matching.truncate out.size
             return none : Matching (Option Cursor)).runOn (out ++ ts.toArray) m) := by
  refine h.bind ?_ ?_ ?_
  · rintro v rfl
    rfl
  · rintro log rfl
    simp [Shown, after, Matching.runOn_map]
  · rintro stop us log rfl
    simp [Shown, after]

end Outcome

/-! ## Terminals -/

variable {f : Frame} {mode : Mode}

theorem follows_stay (c : Cursor) : Follows f mode (pure (some c)) (.stay c) := by
  intro m hm out
  simp [Outcome.stay, Outcome.Shown]

theorem follows_fail (c : Cursor) (e : Expectation) :
    Follows f mode (Matching.fail c e) (f.fail c e) := by
  intro m hm out
  -- where misses count, the innermost active rule is the frame's
  have hnote : m.note c e = m.noteAll [⟨c.offset, e.describe, f.rule⟩] := by
    by_cases h : m.quiet = 0
    · simp [Matcher.note, Matcher.noteAll, h, hm.rule h]
    · simp [Matcher.note, Matcher.noteAll, h]
  simp [Frame.fail, Outcome.Shown, hnote]

theorem follows_literal (text : String) (c : Cursor) :
    Follows f mode (matchLiteral text c) (f.literal text c) := by
  unfold matchLiteral Frame.literal
  cases c.dropPrefix? text.toList with
  | some stop => exact follows_stay stop
  | none => exact follows_fail c _

theorem follows_range (low high : Char) (c : Cursor) :
    Follows f mode (matchRange low high c) (f.range low high c) := by
  unfold matchRange Frame.range
  cases c.next? with
  | none => exact follows_fail c _
  | some next =>
    obtain ⟨x, stop⟩ := next
    by_cases hx : low ≤ x ∧ x ≤ high
    · simpa only [hx, and_self, if_true] using follows_stay stop
    · simpa only [hx, if_false] using follows_fail c _

theorem follows_endOfInput (c : Cursor) : Follows f mode (matchEnd c) (f.endOfInput c) := by
  unfold matchEnd Frame.endOfInput
  by_cases hc : c.rest.isEmpty = true
  · simpa only [if_pos hc] using follows_stay c
  · simpa only [if_neg hc] using follows_fail c _

/-! ## Leading positions and captures -/

variable {s : Surroundings}

theorem Surroundings.Follow.skip_run (hs : s.Follow f mode) {m : Matcher} (hm : f.Fits mode m)
    (out : Array Tree) (c : Cursor) :
    (∃ o, f.skip c = .overflow o ∧ ((s.skip c).runOn out m).1 = .error o) ∨
    (∃ stop ts log, f.skip c = .matched stop ts log ∧
      (s.skip c).runOn out m = (.ok (stop, out ++ ts.toArray), m.noteAll log)) := by
  have h := hs.skip c m hm out
  rw [Matching.runOn_map] at h
  cases hf : f.skip c with
  | overflow o =>
    refine .inl ⟨o, rfl, ?_⟩
    rcases hx : (s.skip c).runOn out m with ⟨⟨⟩ | ⟨⟨⟩⟩, m'⟩ <;> simp_all [Outcome.Shown]
  | failed log =>
    rcases hx : (s.skip c).runOn out m with ⟨⟨⟩ | ⟨⟨⟩⟩, m'⟩ <;> simp_all [Outcome.Shown]
  | matched stop ts log =>
    refine .inr ⟨stop, ts, log, rfl, ?_⟩
    rcases hx : (s.skip c).runOn out m with ⟨⟨⟩ | ⟨⟨⟩⟩, m'⟩ <;> simp_all [Outcome.Shown]

theorem follows_leading (hs : s.Follow f mode) {next : Cursor → Matching (Option Cursor)}
    {next' : Cursor → Outcome} (hnext : ∀ c, Follows f mode (next c) (next' c)) (lead : Bool)
    (c : Cursor) : Follows f mode (s.leading lead c next) (f.leading lead c next') := by
  intro m hm out
  cases lead with
  | false => exact hnext c m hm out
  | true =>
    simp only [Surroundings.leading, Frame.leading, if_true]
    rw [Matching.runOn_bind_ok (Matching.runOn_mark)]
    rcases hs.skip_run hm out c with ⟨o, hf, hx⟩ | ⟨stop, ts, log, hf, hx⟩
    · rw [hf]
      exact Matching.runOn_bind_error hx _
    · -- the skip rule may have captured something, which is cut off if the rest fails
      rw [hf, Matching.runOn_bind_ok hx]
      exact Outcome.shown_after_noteAll.mpr
        (Outcome.Shown.truncate (hnext stop _ (hm.noteAll log) _))

theorem follows_capture (hs : s.Follow f mode) (id : RuleId) (c : Cursor) :
    Follows f mode (s.capture id c) ((f.call id c).captured id c) := by
  intro m hm out
  -- the rule captures onto a child list of its own
  have hcall := hs.call id c m hm #[]
  rw [Surroundings.capture]
  cases hf : f.call id c with
  | overflow o =>
    rw [hf] at hcall
    refine Matching.runOn_bind_error ?_ _
    rw [Matching.runOn_apart]
    rcases hx : (s.call id c).runOn #[] m with ⟨⟨⟩ | ⟨⟨⟩⟩, m'⟩ <;> simp_all [Outcome.Shown]
  | failed log =>
    rw [hf] at hcall
    rw [Matching.runOn_bind, Matching.runOn_apart, hcall]
    simp [Outcome.Shown, Outcome.captured]
  | matched stop ts log =>
    rw [hf] at hcall
    rw [Matching.runOn_bind, Matching.runOn_apart, hcall]
    simp [Outcome.Shown, Outcome.captured, Matching.runOn_map]

/-! ## Repetitions -/

theorem round_ne_failed {c : Cursor} {next : Cursor → Outcome}
    (h : ∀ stop log, next stop ≠ .failed log) (o : Outcome) (log : List Miss) :
    o.round c next ≠ .failed log := by
  cases o with
  | matched stop ts log' =>
    by_cases hc : c.offset < stop.offset
    · cases hn : next stop with
      | failed l => exact absurd hn (h stop l)
      | _ => simp [Outcome.round, Outcome.after, hc, hn]
    · simp [Outcome.round, hc]
  | _ => simp [Outcome.round]

theorem iterate_ne_failed (body : Bool → Cursor → Outcome) (ahead : List Char) (lead : Bool)
    (c : Cursor) (log : List Miss) : Outcome.iterate body ahead lead c ≠ .failed log := by
  induction ahead generalizing lead c log with
  | nil => exact round_ne_failed (by simp [Outcome.stay]) _ _
  | cons x ahead ih => exact round_ne_failed (ih true) _ _

/-- One round, whatever follows a round that has consumed something. -/
theorem follows_round {body : Matching (Option Cursor)} {o : Outcome} (c : Cursor)
    {next : Cursor → Matching (Option Cursor)} {next' : Cursor → Outcome}
    (hbody : Follows f mode body o) (hnext : ∀ stop, Follows f mode (next stop) (next' stop))
    (hne : ∀ stop log, next' stop ≠ .failed log) :
    Follows f mode
      (do
        let mark ← Matching.mark
        match ← body with
        | none =>
          Matching.truncate mark
          return some c
        | some stop =>
          if c.offset < stop.offset then next stop
          else
            Matching.truncate mark
            return some c)
      (o.round c next') := by
  intro m hm out
  have hround := hbody m hm out
  rw [Matching.runOn_bind_ok Matching.runOn_mark]
  refine hround.bind ?_ ?_ ?_
  · rintro v rfl
    rfl
  · rintro log rfl
    simp [Outcome.round, Outcome.Shown, Matching.runOn_map]
  · rintro stop ts log rfl
    by_cases hc : c.offset < stop.offset
    · -- a repetition never fails, so what follows this round keeps its captures
      have hrest := hnext stop _ (hm.noteAll log) (out ++ ts.toArray)
      simp only [Outcome.round, hc, if_true]
      cases hn : next' stop with
      | overflow o => simpa [hn, Outcome.Shown, Outcome.after] using hrest
      | failed l => exact absurd hn (hne stop l)
      | matched stop' us l =>
        simpa [hn, Outcome.Shown, Outcome.after, Matcher.noteAll_append] using hrest
    · simp [Outcome.round, hc, Outcome.Shown, Matching.runOn_map]

theorem follows_iterate {body : Bool → Cursor → Matching (Option Cursor)}
    {body' : Bool → Cursor → Outcome} (hbody : ∀ lead c, Follows f mode (body lead c) (body' lead c))
    (ahead : List Char) (lead : Bool) (c : Cursor) :
    Follows f mode (iterate body ahead lead c) (Outcome.iterate body' ahead lead c) := by
  induction ahead generalizing lead c with
  | nil =>
    rw [iterate]
    exact follows_round c (hbody lead c) follows_stay (by simp [Outcome.stay])
  | cons x ahead ih =>
    rw [iterate]
    exact follows_round c (hbody lead c) (ih true) (fun stop log => iterate_ne_failed _ _ _ _ _)

/-- A lookahead leaves the child list and the matcher as they were. -/
theorem follows_negation {body : Matching (Option Cursor)} {o : Outcome} (c : Cursor)
    (hbody : Follows f mode body o) :
    Follows f mode
      (do
        let (stop, _) ← Matching.apart (Matching.between .enterLookahead .leaveLookahead body)
        return if stop.isSome then none else some c)
      (o.negated c) := by
  intro m hm out
  -- inside the lookahead nothing counts and a list of its own is captured onto
  have h := hbody _ hm.enterLookahead #[]
  cases o with
  | overflow o =>
    refine Matching.runOn_bind_error ?_ _
    simp only [Outcome.Shown] at h
    rw [Matching.runOn_apart, Matching.runOn_between, h]
  | failed log =>
    simp only [Outcome.Shown] at h
    rw [Matching.runOn_bind, Matching.runOn_apart, Matching.runOn_between, h]
    simp [Outcome.negated, Outcome.stay, Outcome.Shown, Matcher.leaveLookahead_noteAll]
  | matched stop ts log =>
    simp only [Outcome.Shown] at h
    rw [Matching.runOn_bind, Matching.runOn_apart, Matching.runOn_between, h]
    simp [Outcome.negated, Outcome.Shown, Matcher.leaveLookahead_noteAll]

/-! ## Expressions -/

theorem shrink_size {α : Type} (xs : Array α) : xs.shrink xs.size = xs := by
  rw [Array.shrink_eq_take, Array.take_eq_extract, Array.extract_size]

mutual

theorem Expr.eval_follows (hs : s.Follow f mode) :
    ∀ (e : Expr) (lead : Bool) (c : Cursor), Follows f mode (e.eval s lead c) (e.outcome f lead c)
  | .empty, lead, c => by
    show Follows f mode (s.leading lead c _) (f.leading lead c _)
    exact follows_leading hs follows_stay lead c
  | .literal text, lead, c => by
    show Follows f mode (s.leading lead c _) (f.leading lead c _)
    exact follows_leading hs (follows_literal text) lead c
  | .range low high, lead, c => by
    show Follows f mode (s.leading lead c _) (f.leading lead c _)
    exact follows_leading hs (follows_range low high) lead c
  | .endOfInput, lead, c => by
    show Follows f mode (s.leading lead c _) (f.leading lead c _)
    exact follows_leading hs follows_endOfInput lead c
  | .rule id, lead, c => by
    show Follows f mode (s.leading lead c _) (f.leading lead c _)
    exact follows_leading hs (hs.call id) lead c
  | .capture id, lead, c => by
    show Follows f mode (s.leading lead c _) (f.leading lead c _)
    exact follows_leading hs (follows_capture hs id) lead c
  | .sequence terms, lead, c => by
    intro m hm out
    simp only [Expr.eval, Expr.outcome]
    rw [Matching.runOn_bind_ok Matching.runOn_mark]
    simpa using evalSequence_follows hs terms lead c m hm out []
  | .choice alternatives, lead, c => by
    intro m hm out
    simp only [Expr.eval, Expr.outcome]
    rw [Matching.runOn_bind_ok Matching.runOn_mark]
    exact evalChoice_follows hs alternatives lead c m hm out
  | .repetition body, lead, c => by
    simp only [Expr.eval, Expr.outcome]
    exact follows_iterate (Expr.eval_follows hs body) c.rest lead c
  | .optional body, lead, c => by
    intro m hm out
    have hbody := Expr.eval_follows hs body lead c m hm out
    simp only [Expr.eval, Expr.outcome]
    rw [Matching.runOn_bind_ok Matching.runOn_mark]
    apply hbody.bind
    · intro v hb
      rw [hb]
      rfl
    · intro log hb
      simp [hb, Outcome.Shown, Outcome.orElse, Outcome.stay, Outcome.after, Matching.runOn_map]
    · intro stop ts log hb
      simp [hb, Outcome.Shown, Outcome.orElse]
  | .negation body, lead, c => by
    simp only [Expr.eval, Expr.outcome]
    exact follows_negation c (Expr.eval_follows hs body false c)

/-- The elements run on what was captured since the sequence began, at `out.size`. -/
theorem evalSequence_follows (hs : s.Follow f mode) :
    ∀ (terms : List Term) (lead : Bool) (c : Cursor) (m : Matcher), f.Fits mode m →
      ∀ (out : Array Tree) (ts : List Tree),
        ((sequenceOutcome f terms lead c).after ts []).Shown out m
          ((evalSequence s out.size terms lead c).runOn (out ++ ts.toArray) m)
  | [], lead, c, m, hm, out, ts => by
    simp [sequenceOutcome, evalSequence, Outcome.stay, Outcome.after, Outcome.Shown]
  | ⟨adjacent, e⟩ :: terms, lead, c, m, hm, out, ts => by
    have he := Expr.eval_follows hs e (lead && !adjacent) c m hm (out ++ ts.toArray)
    simp only [sequenceOutcome, evalSequence]
    apply he.bind
    · intro v ho
      rw [ho]
      rfl
    · -- the captures of earlier elements are cut off with those of this one
      intro log ho
      simp [ho, Outcome.Shown, Outcome.andThen, Outcome.after, Matching.runOn_map]
    · intro stop us log ho
      have hrest := evalSequence_follows hs terms true stop _ (hm.noteAll log) out (ts ++ us)
      cases hr : sequenceOutcome f terms true stop <;>
        simpa [ho, hr, Outcome.Shown, Outcome.andThen, Outcome.after, Matcher.noteAll_append]
          using hrest

theorem evalChoice_follows (hs : s.Follow f mode) :
    ∀ (alternatives : List Expr) (lead : Bool) (c : Cursor) (m : Matcher), f.Fits mode m →
      ∀ out : Array Tree, (choiceOutcome f alternatives lead c).Shown out m
        ((evalChoice s out.size alternatives lead c).runOn out m)
  | [], lead, c, m, hm, out => by
    simp [choiceOutcome, evalChoice, Outcome.Shown]
  | e :: alternatives, lead, c, m, hm, out => by
    have he := Expr.eval_follows hs e lead c m hm out
    simp only [choiceOutcome, evalChoice]
    apply he.bind
    · intro v ho
      rw [ho]
      rfl
    · -- nothing is left to cut off here, because a failure restores the child list
      intro log ho
      rw [ho, Matching.runOn_bind_ok (Matching.runOn_truncate _)]
      have hrest := evalChoice_follows hs alternatives lead c _ (hm.noteAll log) out
      rw [shrink_size]
      exact Outcome.shown_after_noteAll.mpr (by simpa using hrest)
    · intro stop ts log ho
      simp [ho, Outcome.Shown, Outcome.orElse]

end

/-! ## Rules -/

namespace Grammar

variable {g : Grammar} {call : RuleId → Cursor → Matching (Option Cursor)}
  {call' : Mode → RuleId → Cursor → Outcome}

/-- Where the skip rule may run, its body runs as in a frame without a rule of its own, because none of
its misses counts. -/
theorem runSkip_follows (hcall : ∀ f mode id c, Follows f mode (call id c) (call' mode id c))
    (f : Frame) (mode : Mode) (c : Cursor) :
    Follows f mode (some <$> g.runSkip call c) (g.skipOutcome call' mode c) := by
  intro m hm out
  cases hskip : g.skip with
  | none => cases mode <;> simp [runSkip, skipOutcome, hskip, Outcome.stay, Outcome.Shown]
  | some body =>
    rw [runSkip, hskip, map_eq_pure_bind, bind_assoc]
    rw [Matching.runOn_bind_ok Matching.runOn_getMatcher]
    cases mode with
    | skipping =>
      have hflag : m.skipping = true := hm.skipping
      simp [hflag, skipOutcome, Outcome.stay, Outcome.Shown]
    | plain =>
      have hflag : m.skipping = false := hm.skipping
      -- nothing counts in there, so a frame without a rule fits whichever rule is active
      let inner : Frame := ⟨none, .stay, call' .skipping⟩
      have hinner : Surroundings.Follow ⟨fun c => return c, call⟩ inner .skipping :=
        ⟨follows_stay, hcall inner .skipping⟩
      have hfits : inner.Fits .skipping m.enterSkip := ⟨rfl, by simp [Matcher.enterSkip]⟩
      have hbody := Expr.eval_follows hinner body false c _ hfits out
      simp only [hflag, Bool.false_eq_true, if_false, skipOutcome, hskip, bind_assoc]
      rw [Matching.runOn_bind_ok Matching.runOn_mark]
      cases ho : body.outcome inner false c with
      | overflow o =>
        rw [ho] at hbody
        exact Matching.runOn_bind_error (by rw [Matching.runOn_between]; exact hbody) _
      | failed log =>
        simp only [ho, Outcome.Shown] at hbody
        rw [Matching.runOn_bind, Matching.runOn_between, hbody]
        simp [Matcher.leaveSkip_noteAll log hflag, Matching.runOn_map, Outcome.orElse, Outcome.stay,
          Outcome.after, Outcome.quiet, Outcome.Shown]
      | matched stop ts log =>
        simp only [ho, Outcome.Shown] at hbody
        rw [Matching.runOn_bind, Matching.runOn_between, hbody]
        simp [Matcher.leaveSkip_noteAll log hflag, Outcome.orElse, Outcome.quiet, Outcome.Shown]

theorem surroundings_follow (hcall : ∀ f mode id c, Follows f mode (call id c) (call' mode id c))
    (mode : Mode) (rule : Option RuleId) :
    (g.surroundings call).Follow (g.frame call' mode rule) mode :=
  ⟨runSkip_follows hcall _ mode, hcall _ mode⟩

/-- The skip rule leaves no misses behind. -/
theorem log_skipOutcome {mode : Mode} {c stop : Cursor} {ts : List Tree} {log : List Miss}
    (h : g.skipOutcome call' mode c = .matched stop ts log) : log = [] := by
  unfold skipOutcome at h
  split at h
  · rename_i body _
    cases ho : (body.outcome ⟨none, .stay, call' .skipping⟩ false c).orElse (.stay c) <;>
      simp_all [Outcome.quiet]
  · simp_all [Outcome.stay]

/-- Running the skip rule ends as its outcome says. -/
theorem runSkip_shown (hcall : ∀ f mode id c, Follows f mode (call id c) (call' mode id c))
    {mode : Mode} {m : Matcher} (hm : m.skipping = (mode == .skipping)) (out : Array Tree) (c : Cursor) :
    (∃ o, g.skipOutcome call' mode c = .overflow o ∧
      ((g.runSkip call c).runOn out m).1 = .error o) ∨
    (∃ stop ts, g.skipOutcome call' mode c = .matched stop ts [] ∧
      (g.runSkip call c).runOn out m = (.ok (stop, out ++ ts.toArray), m)) := by
  have hfits : (g.frame call' mode m.stack.head?).Fits mode m := ⟨hm, fun _ => rfl⟩
  have hs := surroundings_follow (g := g) hcall mode m.stack.head?
  rcases hs.skip_run hfits out c with h | ⟨stop, ts, log, ho, hx⟩
  · exact .inl h
  · obtain rfl := log_skipOutcome ho
    rw [Matcher.noteAll_nil] at hx
    exact .inr ⟨stop, ts, ho, hx⟩

/-- Running the body of a rule inside a call of the rule. -/
theorem between_follows (hcall : ∀ f mode id c, Follows f mode (call id c) (call' mode id c))
    (f : Frame) (mode : Mode) (id : RuleId) (body : Expr) (c : Cursor) :
    Follows f mode
      (Matching.between (.enterRule id) .leaveRule (body.eval (g.surroundings call) false c))
      (body.outcome (g.frame call' mode (some id)) false c) := by
  intro m hm out
  have hfits : (g.frame call' mode (some id)).Fits mode (m.enterRule id) :=
    ⟨hm.skipping, fun _ => rfl⟩
  have hbody := Expr.eval_follows (surroundings_follow hcall mode (some id)) body false c _ hfits out
  rw [Matching.runOn_between]
  cases ho : body.outcome (g.frame call' mode (some id)) false c <;>
    rw [ho] at hbody <;>
    simp_all [Outcome.Shown, Matcher.leaveRule_noteAll]

/-- Calling a rule does what its outcome says, in every frame and mode. -/
theorem run_follows (g : Grammar) (left : Nat) (f : Frame) (mode : Mode) (id : RuleId)
    (c : Cursor) : Follows f mode (g.run left id c) (g.outcome left mode id c) := by
  induction left generalizing f mode id c with
  | zero =>
    intro m hm out
    simp [run, outcome, Outcome.Shown]
  | succ left ih =>
    rw [run, outcome]
    cases hr : g.rules[id]? with
    | none => exact fun m hm out => by simp [Outcome.Shown]
    | some r => exact between_follows ih f mode id r.body c

/-- Running an expression of a grammar does what its outcome says. -/
theorem eval_follows (g : Grammar) (left : Nat) (mode : Mode) (rule : Option RuleId) (e : Expr)
    (lead : Bool) (c : Cursor) :
    Follows (g.frame (g.outcome left) mode rule) mode
      (e.eval (g.surroundings (g.run left)) lead c)
      (e.outcome (g.frame (g.outcome left) mode rule) lead c) :=
  Expr.eval_follows (surroundings_follow (g.run_follows left) mode rule) e lead c

/-- In every state running an expression gives what its outcome says, in the mode that the flag tells. -/
theorem exists_shown (g : Grammar) (left : Nat) (e : Expr) (lead : Bool) (c : Cursor)
    (out : Array Tree) (m : Matcher) :
    ∃ mode, (e.outcome (g.frame (g.outcome left) mode m.stack.head?) lead c).Shown out m
      ((e.eval (g.surroundings (g.run left)) lead c).runOn out m) := by
  obtain ⟨mode, hmode⟩ := exists_mode m.skipping
  exact ⟨mode, g.eval_follows left mode m.stack.head? e lead c m ⟨hmode, fun _ => rfl⟩ out⟩

end Grammar

end PegTree
