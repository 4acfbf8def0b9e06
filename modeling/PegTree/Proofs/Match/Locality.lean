import PegTree.Proofs.Grammar.Nullable
import PegTree.Proofs.Grammar.Ranking
import PegTree.Proofs.Match.Exactness
import PegTree.Proofs.Match.Transfer

/-!
# What an outcome depends on

Running an expression asks its frame for the skip rule at places that are reached from where it starts,
for its leading calls at that very place, and for other calls only at later places.  So two frames
that agree on these give the same outcome (`Expr.outcome_congr`).  The analysis of leading calls is
thereby shown to say all that there is to know about calls at the starting place: what comes behind an
element that consumed nothing is leading as well, because such an element is nullable.

An overflow is never made by an expression, it only comes from the frame (`Expr.outcome_safe`).
-/

namespace PegTree

/-! ## Overflows come from the frame -/

namespace Outcome

/-- Anything but an overflow. -/
def Safe (o : Outcome) : Prop :=
  o.verdict? ≠ none

variable {o : Outcome}

theorem safe_failed (log : List Miss) : (failed log).Safe := by
  simp [Safe, verdict?]

theorem safe_matched (stop : Cursor) (ts : List Tree) (log : List Miss) :
    (matched stop ts log).Safe := by
  simp [Safe, verdict?]

theorem not_safe_overflow (o : Overflow) : ¬ (overflow o).Safe := by
  simp [Safe, verdict?]

/-- The outcome, with a failure in place of an overflow. -/
def tame : Outcome → Outcome
  | overflow _ => failed []
  | o => o

theorem safe_tame (o : Outcome) : o.tame.Safe := by
  cases o <;> simp [tame, Safe, verdict?]

theorem Safe.tame_eq (h : o.Safe) : o.tame = o := by
  cases o with
  | overflow o => exact absurd h (not_safe_overflow o)
  | failed log | matched stop ts log => rfl

end Outcome

/-- Nothing moves and nothing overflows. -/
def Transfer.unspilled : Transfer :=
  .still (fun _ _ => False) fun _ _ h => h.elim

theorem Transfer.unspilled_turns_iff {o o' : Outcome} : unspilled.Turns o o' ↔ o.Safe ∧ o' = o := by
  cases o with
  | overflow v => simp [unspilled, Outcome.not_safe_overflow]
  | failed log => simp [unspilled, Outcome.safe_failed]
  | matched stop ts log => simp [unspilled, Outcome.safe_matched]

/-- What is safe is turned into itself. -/
theorem Outcome.Safe.turns {o : Outcome} (h : o.Safe) : Transfer.unspilled.Turns o o :=
  Transfer.unspilled_turns_iff.mpr ⟨h, rfl⟩

/-- A frame that never overflows. -/
structure Frame.Safe (f : Frame) : Prop where
  skip : ∀ c, (f.skip c).Safe
  call : ∀ id c, (f.call id c).Safe

/-- In a frame that never overflows no expression does. -/
theorem Expr.outcome_safe {f : Frame} (hf : f.Safe) (e : Expr) (lead : Bool) (c : Cursor) :
    (e.outcome f lead c).Safe := by
  have hframes : Transfer.unspilled.Frames (fun _ _ => True) f f :=
    ⟨by cases f.rule <;> rfl, fun {_ c} _ => (hf.skip c).turns, fun {id c} _ => (hf.call id c).turns⟩
  have hturns := Expr.outcome_turns hframes f.handsOn_true e lead (c := c) trivial
  exact (Transfer.unspilled_turns_iff.mp hturns).1

theorem Grammar.skipOutcome_safe {g : Grammar} {call : Mode → RuleId → Cursor → Outcome}
    (hcall : ∀ mode id c, (call mode id c).Safe) (mode : Mode) (c : Cursor) :
    (g.skipOutcome call mode c).Safe := by
  have hturns : Transfer.unspilled.Turns (g.skipOutcome call mode c) (g.skipOutcome call mode c) :=
    skipOutcome_turns g.renumberedBy_id.skip (fun mode id c => (hcall mode id c).turns) mode c
  exact (Transfer.unspilled_turns_iff.mp hturns).1

/-- Where no limit is hit, a call comes to what its rule matches. -/
theorem Grammar.outcome_of_matches {g : Grammar} (hg : g.Resolved) {left : Nat} {mode : Mode}
    {id : RuleId} (hid : id < g.size) {c stop : Cursor} {ts : List Tree}
    (hsafe : (g.outcome left mode id c).Safe) (h : Matches g mode false (.rule id) c (.hit stop ts)) :
    ∃ log, g.outcome left mode id c = .matched stop ts log := by
  obtain ⟨v, hv⟩ := Option.ne_none_iff_exists'.mp hsafe
  obtain rfl := (Grammar.outcome_matches hg left hid hv).unique h
  cases ho : g.outcome left mode id c with
  | overflow o | failed log => simp [ho, Outcome.verdict?] at hv
  | matched stop' ts' log =>
    simp only [ho, Outcome.verdict?, Option.some.injEq, Verdict.hit.injEq] at hv
    obtain ⟨rfl, rfl⟩ := hv
    exact ⟨log, rfl⟩

/-! ## Frames that agree from a place on -/

namespace Outcome

theorem andThen_congr {o : Outcome} {next next' : Cursor → Outcome}
    (h : ∀ stop ts log, o = .matched stop ts log → next stop = next' stop) :
    o.andThen next = o.andThen next' := by
  cases o with
  | overflow o | failed log => rfl
  | matched stop ts log => rw [andThen, andThen, h stop ts log rfl]

end Outcome

/-- Frames that agree on the skip rule from a place on, on some calls at that place and on all calls of
the first `n` rules at later places. -/
structure Frame.Agree (n : Nat) (f f' : Frame) (c : Cursor) (leading : List RuleId) : Prop where
  rule : f.rule = f'.rule
  skip : ∀ d, c.Reaches d → f.skip d = f'.skip d
  here : ∀ id ∈ leading, f.call id c = f'.call id c
  later : ∀ id < n, ∀ d, c.Reaches d → c.offset < d.offset → f.call id d = f'.call id d

namespace Frame.Agree

variable {n : Nat} {f f' : Frame} {c d : Cursor} {leading others : List RuleId}

theorem mono (h : Frame.Agree n f f' c leading) (hsub : ∀ id ∈ others, id ∈ leading) :
    Frame.Agree n f f' c others :=
  ⟨h.rule, h.skip, fun id hid => h.here id (hsub id hid), h.later⟩

/-- At a later place every call may be a leading one. -/
theorem move (h : Frame.Agree n f f' c leading) (hreach : c.Reaches d)
    (hothers : ∀ id ∈ others, id < n)
    (hsame : d.offset ≤ c.offset → ∀ id ∈ others, id ∈ leading) :
    Frame.Agree n f f' d others where
  rule := h.rule
  skip x hx := h.skip x (hreach.trans hx)
  here id hid := by
    by_cases hle : d.offset ≤ c.offset
    · -- no offset gained, so it is the same place
      rw [hreach.eq_of_offset_le hle]
      exact h.here id (hsame hle id hid)
    · exact h.later id (hothers id hid) d hreach (by omega)
  later id hid x hx hlt :=
    h.later id hid x (hreach.trans hx) (Nat.lt_of_le_of_lt hreach.offset_le hlt)

end Frame.Agree

section

variable {g : Grammar} {mode : Mode} {known : RuleId → Bool} {f f' : Frame}

theorem Skips.reaches {c stop : Cursor} {ts : List Tree} (h : Skips g mode c stop ts) :
    c.Reaches stop := by
  rcases h with ⟨-, rfl, -⟩ | ⟨_, -, -, hbody | ⟨-, rfl, -⟩⟩
  · exact .refl _
  · exact hbody.reaches
  · exact .refl _

/-- Nothing moves, and an overflow stays one. -/
def Transfer.same : Transfer :=
  .still (fun v o => o = .overflow v) fun _ _ h _ hchange => h ▸ hchange _

theorem Transfer.same_turns_iff {o o' : Outcome} : same.Turns o o' ↔ o' = o := by
  cases o <;> simp [same]

/-- Agreement on the leading calls of an expression is handed on to what is run in it.  What comes behind
an element that consumed nothing is leading as well, because that element is nullable. -/
theorem Frame.handsOn_agree (hf : f.Sound g mode) (hclosed : g.Closed known) :
    f.HandsOn fun e c => e.Within g.size ∧ Frame.Agree g.size f f' c (e.leadingCalls known) where
  skip := by
    rintro e c stop ts log ⟨he, h⟩ ho
    -- the skip rule only leads onwards
    obtain ⟨stop', _, hv, hs⟩ := hf.skip (v := .hit stop ts) (by rw [ho]; rfl)
    cases hv
    exact ⟨he, h.move hs.reaches (he.leading known) fun _ _ => id⟩
  first := by
    rintro adjacent e terms c ⟨he, h⟩
    exact ⟨fun x hx => he x (List.mem_append_left _ hx), h.mono fun id => List.mem_append_left _⟩
  later := by
    rintro adjacent e terms lead c stop ts log ⟨he, h⟩ ho
    have hfirst : e.Within g.size := fun x hx => he x (List.mem_append_left _ hx)
    have hrest : (Expr.sequence terms).Within g.size := fun x hx => he x (List.mem_append_right _ hx)
    -- the rest begins at a later place, or at this one behind an element that is nullable
    have hmatch := Expr.outcome_matches hf e hfirst (v := .hit stop ts) (by rw [ho]; rfl)
    refine ⟨hrest, h.move hmatch.reaches (hrest.leading known) fun hle id hid => ?_⟩
    have hnullable := hmatch.nullable hclosed rfl hle
    simp only [Expr.leadingCalls, leadingOfTerms, hnullable, if_true]
    exact List.mem_append_right _ hid
  alternative := by
    rintro e alternatives c ⟨he, h⟩
    exact ⟨fun x hx => he x (List.mem_append_left _ hx), h.mono fun id => List.mem_append_left _⟩
  others := by
    rintro e alternatives c ⟨he, h⟩
    exact ⟨fun x hx => he x (List.mem_append_right _ hx), h.mono fun id => List.mem_append_right _⟩
  round h := h
  again := by
    rintro body lead c stop ts log ⟨he, h⟩ ho hlt
    have hmatch := Expr.outcome_matches hf body he (v := .hit stop ts) (by rw [ho]; rfl)
    exact ⟨he, h.move hmatch.reaches (he.leading known) fun hle => absurd hlt (by omega)⟩
  optional h := h
  negation h := h

/-- Frames that agree on leading calls and on all that comes later give one outcome. -/
theorem Expr.outcome_congr (hf : f.Sound g mode) (hclosed : g.Closed known) (e : Expr)
    (he : e.Within g.size) {lead : Bool} {c : Cursor}
    (h : Frame.Agree g.size f f' c (e.leadingCalls known)) :
    e.outcome f lead c = e.outcome f' lead c := by
  have hframes : Transfer.same.Frames
      (fun e c => e.Within g.size ∧ Frame.Agree g.size f f' c (e.leadingCalls known)) f f' := by
    refine ⟨?_, fun {e c} hok => ?_, fun {id c} hok => ?_⟩
    · rw [← h.rule]
      cases f.rule <;> rfl
    · exact Transfer.same_turns_iff.mpr (hok.2.skip c (.refl c)).symm
    · refine Transfer.same_turns_iff.mpr (Eq.symm ?_)
      rcases hok with ⟨-, hagree⟩ | ⟨-, hagree⟩ <;> exact hagree.here id List.mem_cons_self
  have hturns := Expr.outcome_turns hframes (Frame.handsOn_agree hf hclosed) e lead ⟨he, h⟩
  rw [e.renumber_eq_self fun _ _ => rfl] at hturns
  exact (Transfer.same_turns_iff.mp hturns).symm

end

end PegTree
