import PegTree.Proofs.Match.Simulation

/-!
# What a run does to the matcher

However a run ends, the matcher is afterwards as it was before but for misses that have been noted: rules
that were entered have been left, and so have lookaheads and the skip rule.  Where rules are nested too deep
the child list is lost, but this still holds (`Grammar.run_notesOnly`).

Misses inside the skip rule do not count, so running it does not change the matcher at all
(`Grammar.runSkip_matcher`).
-/

namespace PegTree

/-- A computation that changes the matcher by nothing but misses, also if it ends early. -/
def Matching.NotesOnly {α : Type} (x : Matching α) : Prop :=
  ∀ out m, ∃ log, (x.runOn out m).2 = m.noteAll log

namespace Matching.NotesOnly

variable {α β : Type}

theorem of_eq {x : Matching α} (h : ∀ out m, (x.runOn out m).2 = m) : x.NotesOnly :=
  fun out m => ⟨[], by rw [h, Matcher.noteAll_nil]⟩

theorem pure (a : α) : NotesOnly (pure a) :=
  of_eq fun _ _ => rfl

theorem mark : NotesOnly Matching.mark :=
  of_eq fun _ _ => rfl

theorem truncate (n : Nat) : NotesOnly (Matching.truncate n) :=
  of_eq fun _ _ => rfl

theorem push (t : Tree) : NotesOnly (Matching.push t) :=
  of_eq fun _ _ => rfl

theorem overflow (o : Overflow) : NotesOnly (Matching.overflow o : Matching α) :=
  of_eq fun _ _ => rfl

theorem fail (c : Cursor) (e : Expectation) : NotesOnly (Matching.fail c e) := by
  intro out m
  refine ⟨[⟨c.offset, e.describe, m.stack.head?⟩], ?_⟩
  rw [Matching.runOn_fail]
  by_cases h : m.quiet = 0 <;> simp [Matcher.note, Matcher.noteAll, h]

theorem bind {x : Matching α} {next : α → Matching β} (hx : x.NotesOnly)
    (hnext : ∀ a, (next a).NotesOnly) : (x >>= next).NotesOnly := by
  intro out m
  obtain ⟨log, hlog⟩ := hx out m
  rw [Matching.runOn_bind]
  rcases hrun : x.runOn out m with ⟨o | ⟨a, out'⟩, m'⟩
  · rw [hrun] at hlog
    exact ⟨log, hlog⟩
  · rw [hrun] at hlog
    obtain rfl : m' = m.noteAll log := hlog
    obtain ⟨more, hmore⟩ := hnext a out' (m.noteAll log)
    exact ⟨log ++ more, by rw [Matcher.noteAll_append]; exact hmore⟩

theorem apart {x : Matching α} (hx : x.NotesOnly) : (Matching.apart x).NotesOnly := by
  intro out m
  obtain ⟨log, hlog⟩ := hx #[] m
  rw [Matching.runOn_apart]
  rcases hrun : x.runOn #[] m with ⟨o | ⟨a, own⟩, m'⟩ <;>
    exact ⟨log, by rw [← hlog, hrun]⟩

/-- What is entered is left again. -/
theorem between {enter leave : Matcher → Matcher} {x : Matching α} (hx : x.NotesOnly)
    (hleave : ∀ log m, ∃ log', leave ((enter m).noteAll log) = m.noteAll log') :
    (Matching.between enter leave x).NotesOnly := by
  intro out m
  obtain ⟨log, hlog⟩ := hx out (enter m)
  rw [Matching.runOn_between, hlog]
  exact hleave log m

end Matching.NotesOnly

open Matching (NotesOnly)

/-! ## Terminals, leading positions and captures -/

theorem matchLiteral_notesOnly (text : String) (c : Cursor) : (matchLiteral text c).NotesOnly := by
  unfold matchLiteral
  cases c.dropPrefix? text.toList with
  | none => exact .fail c _
  | some stop => exact .pure _

theorem matchRange_notesOnly (low high : Char) (c : Cursor) : (matchRange low high c).NotesOnly := by
  unfold matchRange
  cases c.next? with
  | none => exact .fail c _
  | some next =>
    obtain ⟨x, stop⟩ := next
    show NotesOnly (if low ≤ x ∧ x ≤ high then _ else _)
    split
    · exact .pure _
    · exact .fail c _

theorem matchEnd_notesOnly (c : Cursor) : (matchEnd c).NotesOnly := by
  unfold matchEnd
  split
  · exact .pure _
  · exact .fail c _

/-- Surroundings that change the matcher by nothing but misses. -/
structure Surroundings.NotesOnly (s : Surroundings) : Prop where
  skip : ∀ c, (s.skip c).NotesOnly
  call : ∀ id c, (s.call id c).NotesOnly

variable {s : Surroundings}

/-- Cutting the child list back after a failure does not touch the matcher. -/
theorem notesOnly_cutBack {x : Matching (Option Cursor)} (hx : x.NotesOnly) (mark : Nat)
    (onFailure : Option Cursor) :
    NotesOnly
      (do match ← x with
          | some stop => return some stop
          | none =>
            Matching.truncate mark
            return onFailure) := by
  refine hx.bind fun answer => ?_
  cases answer with
  | none => exact .bind (.truncate mark) fun _ => .pure _
  | some stop => exact .pure _

theorem leading_notesOnly (hs : s.NotesOnly) {next : Cursor → Matching (Option Cursor)}
    (hnext : ∀ c, (next c).NotesOnly) (lead : Bool) (c : Cursor) :
    (s.leading lead c next).NotesOnly := by
  cases lead with
  | false => exact hnext c
  | true => exact .bind .mark fun mark => (hs.skip c).bind fun c => notesOnly_cutBack (hnext c) mark none

theorem capture_notesOnly (hs : s.NotesOnly) (id : RuleId) (c : Cursor) :
    (s.capture id c).NotesOnly := by
  refine (hs.call id c).apart.bind fun answer => ?_
  obtain ⟨stop, children⟩ := answer
  cases stop with
  | none => exact .pure _
  | some stop => exact .bind (.push _) fun _ => .pure _

/-! ## Expressions -/

/-- One round of a repetition, whatever follows a round that has consumed something. -/
theorem notesOnly_round {body : Matching (Option Cursor)} (hbody : body.NotesOnly) (c : Cursor)
    {next : Cursor → Matching (Option Cursor)} (hnext : ∀ stop, (next stop).NotesOnly) :
    NotesOnly
      (do
        let mark ← Matching.mark
        match ← body with
        | none =>
          Matching.truncate mark
          return some c
        | some stop =>
          if c.offset < stop.offset then next stop
          else
            Matching.truncate mark
            return some c) := by
  refine .bind .mark fun mark => hbody.bind fun answer => ?_
  cases answer with
  | none => exact .bind (.truncate mark) fun _ => .pure _
  | some stop =>
    show NotesOnly (if c.offset < stop.offset then _ else _)
    split
    · exact hnext stop
    · exact .bind (.truncate mark) fun _ => .pure _

theorem iterate_notesOnly {body : Bool → Cursor → Matching (Option Cursor)}
    (hbody : ∀ lead c, (body lead c).NotesOnly) (ahead : List Char) (lead : Bool) (c : Cursor) :
    (iterate body ahead lead c).NotesOnly := by
  induction ahead generalizing lead c with
  | nil =>
    rw [iterate]
    exact notesOnly_round (hbody lead c) c fun _ => .pure _
  | cons x ahead ih =>
    rw [iterate]
    exact notesOnly_round (hbody lead c) c (ih true)

mutual

theorem Expr.eval_notesOnly (hs : s.NotesOnly) :
    ∀ (e : Expr) (lead : Bool) (c : Cursor), (e.eval s lead c).NotesOnly
  | .empty, lead, c => leading_notesOnly hs (fun _ => .pure _) lead c
  | .literal text, lead, c => leading_notesOnly hs (matchLiteral_notesOnly text) lead c
  | .range low high, lead, c => leading_notesOnly hs (matchRange_notesOnly low high) lead c
  | .endOfInput, lead, c => leading_notesOnly hs matchEnd_notesOnly lead c
  | .rule id, lead, c => leading_notesOnly hs (hs.call id) lead c
  | .capture id, lead, c => leading_notesOnly hs (capture_notesOnly hs id) lead c
  | .sequence terms, lead, c => .bind .mark fun mark => evalSequence_notesOnly hs mark terms lead c
  | .choice alternatives, lead, c =>
    .bind .mark fun mark => evalChoice_notesOnly hs mark alternatives lead c
  | .repetition body, lead, c => iterate_notesOnly (body.eval_notesOnly hs) c.rest lead c
  | .optional body, lead, c =>
    .bind .mark fun mark => notesOnly_cutBack (body.eval_notesOnly hs lead c) mark (some c)
  | .negation body, _, c => by
    have hbody := body.eval_notesOnly hs false c
    -- misses inside the lookahead do not count
    have hlookahead : (Matching.between .enterLookahead .leaveLookahead (body.eval s false c)).NotesOnly :=
      hbody.between fun log m => ⟨[], by rw [Matcher.leaveLookahead_noteAll, Matcher.noteAll_nil]⟩
    exact hlookahead.apart.bind fun _ => .pure _

theorem evalSequence_notesOnly (hs : s.NotesOnly) (mark : Nat) :
    ∀ (terms : List Term) (lead : Bool) (c : Cursor), (evalSequence s mark terms lead c).NotesOnly
  | [], _, _ => .pure _
  | ⟨adjacent, e⟩ :: terms, lead, c => by
    refine (e.eval_notesOnly hs (lead && !adjacent) c).bind fun answer => ?_
    cases answer with
    | none => exact .bind (.truncate mark) fun _ => .pure _
    | some stop => exact evalSequence_notesOnly hs mark terms true stop

theorem evalChoice_notesOnly (hs : s.NotesOnly) (mark : Nat) :
    ∀ (alternatives : List Expr) (lead : Bool) (c : Cursor),
      (evalChoice s mark alternatives lead c).NotesOnly
  | [], _, _ => .pure _
  | e :: alternatives, lead, c => by
    refine (e.eval_notesOnly hs lead c).bind fun answer => ?_
    cases answer with
    | none => exact .bind (.truncate mark) fun _ => evalChoice_notesOnly hs mark alternatives lead c
    | some stop => exact .pure _

end

/-! ## Rules -/

namespace Grammar

variable {g : Grammar} {call : RuleId → Cursor → Matching (Option Cursor)}

/-- Running the skip rule does not change the matcher. -/
theorem runSkip_matcher (hcall : ∀ id c, (call id c).NotesOnly) (c : Cursor) (out : Array Tree)
    (m : Matcher) : ((g.runSkip call c).runOn out m).2 = m := by
  cases hskip : g.skip with
  | none =>
    rw [runSkip, hskip]
    rfl
  | some body =>
    rw [runSkip, hskip, Matching.runOn_bind_ok Matching.runOn_getMatcher]
    cases hflag : m.skipping with
    | true => rfl
    | false =>
      have hinner : Surroundings.NotesOnly ⟨fun c => return c, call⟩ := ⟨fun _ => .pure _, hcall⟩
      obtain ⟨log, hlog⟩ := body.eval_notesOnly hinner false c out m.enterSkip
      simp only [Bool.false_eq_true, if_false]
      rw [Matching.runOn_bind_ok Matching.runOn_mark, Matching.runOn_bind, Matching.runOn_between, hlog,
        Matcher.leaveSkip_noteAll log hflag]
      -- behind the body only the child list is cut back
      rcases (body.eval ⟨fun c => return c, call⟩ false c).runOn out m.enterSkip with
        ⟨o | ⟨⟨⟩ | stop, out'⟩, m'⟩ <;> rfl

theorem surroundings_notesOnly (hcall : ∀ id c, (call id c).NotesOnly) :
    (g.surroundings call).NotesOnly :=
  ⟨fun c => .of_eq (runSkip_matcher hcall c), hcall⟩

/-- Calling a rule changes the matcher by nothing but misses. -/
theorem run_notesOnly (g : Grammar) (left : Nat) (id : RuleId) (c : Cursor) :
    (g.run left id c).NotesOnly := by
  induction left generalizing id c with
  | zero => exact .overflow _
  | succ left ih =>
    rw [run]
    cases g.rules[id]? with
    | none => exact .pure _
    | some r =>
      exact (r.body.eval_notesOnly (surroundings_notesOnly ih) false c).between
        fun log m => ⟨log, Matcher.leaveRule_noteAll id log m⟩

end Grammar

end PegTree
