import Mathlib.Data.List.Basic
import PegTree.Proofs.Match.Noting
import PegTree.Proofs.Tree.Equality

/-!
# Skipping once in front

In leading position the skip rule is handed on inwards and run where something is matched first, so in a
choice it is run again for every alternative.  For expressions that begin with a terminal or a call
whatever is tried this is the same as running it once in front of the whole: the same end, the same child
list and the same misses (`eval_leading_eq_evalBehindSkip`).

The skip rule answers the same wherever it is run again, because its answer depends on the place alone and
running it changes nothing but the child list (`Grammar.runSkip_same`); and an alternative that fails takes
back what was captured, so that the next one finds the child list as it was (`Surroundings.GivesBack`).

Options, repetitions and lookaheads are left out, because they may match where their bodies fail, with
nothing skipped; marked elements are, because the skip rule does not run in front of them.
-/

namespace PegTree

/-- Expressions that, whatever is tried, first match a terminal or call a rule, and have the skip rule run in
front of that if it has to run in front of them. -/
inductive Expr.PlainLeading : Expr → Prop
  | empty : PlainLeading .empty
  | literal {text} : PlainLeading (.literal text)
  | range {low high} : PlainLeading (.range low high)
  | endOfInput : PlainLeading .endOfInput
  | rule {id} : PlainLeading (.rule id)
  | capture {id} : PlainLeading (.capture id)
  | sequence {e terms} : PlainLeading e → PlainLeading (.sequence (⟨false, e⟩ :: terms))
  | choice {alternatives} :
      alternatives ≠ [] → (∀ e ∈ alternatives, PlainLeading e) → PlainLeading (.choice alternatives)

/-- Runs the skip rule once and, from where that stops, an expression that is not in leading position.  If the
expression fails, what the skip rule has captured is dropped. -/
def Expr.evalBehindSkip (s : Surroundings) (e : Expr) (c : Cursor) : Matching (Option Cursor) := do
  let mark ← Matching.mark
  let behind ← s.skip c
  match ← e.eval s false behind with
  | some stop => return some stop
  | none =>
    Matching.truncate mark
    return none

/-! ## Cutting back after a failure -/

/-- How a run ends if the child list is cut back after a failure. -/
def cutBack (mark : Nat) :
    Except Overflow (Option Cursor × Array Tree) × Matcher →
      Except Overflow (Option Cursor × Array Tree) × Matcher
  | (.ok (none, out), m) => (.ok (none, out.shrink mark), m)
  | (.ok (some stop, out), m) => (.ok (some stop, out), m)
  | (.error o, m) => (.error o, m)

theorem runOn_cutBack (x : Matching (Option Cursor)) (mark : Nat) (out : Array Tree) (m : Matcher) :
    (do match ← x with
        | some stop => return some stop
        | none =>
          Matching.truncate mark
          return none : Matching (Option Cursor)).runOn out m = cutBack mark (x.runOn out m) := by
  rw [Matching.runOn_bind]
  rcases x.runOn out m with ⟨o | ⟨⟨⟩ | stop, out'⟩, m'⟩ <;> rfl

theorem shrink_shrink {α : Type} (xs : Array α) {a b : Nat} (h : a ≤ b) :
    (xs.shrink b).shrink a = xs.shrink a := by
  apply Array.toList_inj.mp
  rw [Array.toList_shrink, Array.toList_shrink, Array.toList_shrink, List.take_take, Nat.min_eq_left h]

theorem shrink_append {α : Type} (xs ys : Array α) : (xs ++ ys).shrink xs.size = xs := by
  apply Array.toList_inj.mp
  rw [Array.toList_shrink, Array.toList_append, ← Array.length_toList, List.take_left]

/-- The elements of a sequence may cut the child list back to a later mark first. -/
theorem evalSequence_mark (s : Surroundings) {a b : Nat} (h : a ≤ b) (terms : List Term) (lead : Bool)
    (c : Cursor) (out : Array Tree) (m : Matcher) :
    (evalSequence s a terms lead c).runOn out m =
      cutBack a ((evalSequence s b terms lead c).runOn out m) := by
  induction terms generalizing lead c out m with
  | nil => rfl
  | cons t terms ih =>
    obtain ⟨adjacent, e⟩ := t
    rw [evalSequence, evalSequence, Matching.runOn_bind, Matching.runOn_bind]
    rcases (e.eval s (lead && !adjacent) c).runOn out m with ⟨o | ⟨⟨⟩ | stop, out'⟩, m'⟩
    · rfl
    · show (Except.ok (none, out'.shrink a), m') = (Except.ok (none, (out'.shrink b).shrink a), m')
      rw [shrink_shrink out' h]
    · exact ih true stop out' m'

/-! ## What running the skip rule and failing leave behind -/

/-- Whatever fails leaves the child list as it was, and the skip rule running or not running as before. -/
def Surroundings.GivesBack (s : Surroundings) : Prop :=
  ∀ (e : Expr) (lead : Bool) (c : Cursor) (out out' : Array Tree) (m m' : Matcher),
    (e.eval s lead c).runOn out m = (.ok (none, out'), m') → out' = out ∧ m'.skipping = m.skipping

/-- From one place the skip rule comes to the same end in all states with the same flag: it captures
`captures` up to `behind` and does not change the matcher. -/
def Surroundings.SkipsTo (s : Surroundings) (skipping : Bool) (c behind : Cursor)
    (captures : List Tree) : Prop :=
  ∀ out m, m.skipping = skipping →
    (s.skip c).runOn out m = (.ok (behind, out ++ captures.toArray), m)

/-- From one place the skip rule ends early in all states with the same flag, and does not change the
matcher. -/
def Surroundings.SkipOverflows (s : Surroundings) (skipping : Bool) (c : Cursor) (o : Overflow) : Prop :=
  ∀ out m, m.skipping = skipping → (s.skip c).runOn out m = (.error o, m)

namespace Grammar

theorem givesBack (g : Grammar) (left : Nat) : (g.surroundings (g.run left)).GivesBack := by
  intro e lead c out out' m m' h
  obtain ⟨mode, hshown⟩ := g.exists_shown left e lead c out m
  rw [h] at hshown
  cases ho : e.outcome (g.frame (g.outcome left) mode m.stack.head?) lead c with
  | overflow o =>
    rw [ho] at hshown
    cases hshown
  | failed log =>
    rw [ho] at hshown
    cases hshown
    exact ⟨rfl, m.noteAll_skipping log⟩
  | matched stop ts log =>
    rw [ho] at hshown
    cases hshown

/-- Running the skip rule ends as its outcome says and does not change the matcher. -/
theorem runSkip_eq (g : Grammar) (left : Nat) {mode : Mode} {m : Matcher}
    (hm : m.skipping = (mode == .skipping)) (c : Cursor) (out : Array Tree) :
    (∃ o, g.skipOutcome (g.outcome left) mode c = .overflow o ∧
      (g.runSkip (g.run left) c).runOn out m = (.error o, m)) ∨
    (∃ behind captures, g.skipOutcome (g.outcome left) mode c = .matched behind captures [] ∧
      (g.runSkip (g.run left) c).runOn out m = (.ok (behind, out ++ captures.toArray), m)) := by
  have hsame := runSkip_matcher (g := g) (g.run_notesOnly left) c out m
  rcases runSkip_shown (g := g) (g.run_follows left) hm out c with ⟨o, ho, hrun⟩ | h
  · exact .inl ⟨o, ho, Prod.ext hrun hsame⟩
  · exact .inr h

/-- Where the skip rule is run again it comes to the same end. -/
theorem runSkip_same (g : Grammar) (left : Nat) (skipping : Bool) (c : Cursor) :
    (∃ o, (g.surroundings (g.run left)).SkipOverflows skipping c o) ∨
      ∃ behind captures, (g.surroundings (g.run left)).SkipsTo skipping c behind captures := by
  obtain ⟨mode, rfl⟩ := exists_mode skipping
  -- the outcome says how all these runs end, so one of them tells which case it is
  rcases g.runSkip_eq left (m := ⟨[], mode == .skipping, 0, .nothing⟩) rfl c #[] with
    ⟨o, ho, -⟩ | ⟨behind, captures, ho, -⟩
  · refine .inl ⟨o, fun out m hm => ?_⟩
    rcases g.runSkip_eq left hm c out with ⟨o', ho', hrun⟩ | ⟨_, _, ho', -⟩
    · obtain rfl := Outcome.overflow.inj (ho.symm.trans ho')
      exact hrun
    · cases ho.symm.trans ho'
  · refine .inr ⟨behind, captures, fun out m hm => ?_⟩
    rcases g.runSkip_eq left hm c out with ⟨_, ho', -⟩ | ⟨behind', captures', ho', hrun⟩
    · cases ho.symm.trans ho'
    · obtain ⟨rfl, rfl, -⟩ := Outcome.matched.inj (ho.symm.trans ho')
      exact hrun

end Grammar

/-! ## Expressions in leading position -/

section

variable {s : Surroundings} {skipping : Bool} {c : Cursor}

/-- If the skip rule ends early, so does what begins with it. -/
theorem runOn_leading_of_skipOverflows {o : Overflow} (hskip : s.SkipOverflows skipping c o)
    (next : Cursor → Matching (Option Cursor)) (out : Array Tree) {m : Matcher}
    (hm : m.skipping = skipping) : (s.leading true c next).runOn out m = (.error o, m) := by
  show (Matching.mark >>= _).runOn out m = _
  rw [Matching.runOn_bind_ok Matching.runOn_mark, Matching.runOn_bind, hskip out m hm]

theorem runOn_leading_of_skipsTo {behind : Cursor} {captures : List Tree}
    (hskip : s.SkipsTo skipping c behind captures) (next : Cursor → Matching (Option Cursor))
    (out : Array Tree) {m : Matcher} (hm : m.skipping = skipping) :
    (s.leading true c next).runOn out m =
      cutBack out.size ((next behind).runOn (out ++ captures.toArray) m) := by
  show (Matching.mark >>= _).runOn out m = _
  rw [Matching.runOn_bind_ok Matching.runOn_mark, Matching.runOn_bind_ok (hskip out m hm)]
  exact runOn_cutBack _ _ _ _

theorem Expr.evalBehindSkip_eq (s : Surroundings) (e : Expr) (c : Cursor) :
    e.evalBehindSkip s c = s.leading true c (e.eval s false) :=
  rfl

/-- If the skip rule ends early, so does an expression that begins with it. -/
theorem Expr.PlainLeading.eval_of_skipOverflows {o : Overflow} (hskip : s.SkipOverflows skipping c o)
    {e : Expr} (he : e.PlainLeading) (out : Array Tree) {m : Matcher} (hm : m.skipping = skipping) :
    (e.eval s true c).runOn out m = (.error o, m) := by
  induction he with
  | empty | literal | range | endOfInput | rule | capture =>
    exact runOn_leading_of_skipOverflows hskip _ out hm
  | sequence _ ih =>
    rw [Expr.eval, Matching.runOn_bind_ok Matching.runOn_mark, evalSequence]
    rw [Matching.runOn_bind]
    simp only [Bool.not_false, Bool.and_self, ih]
  | @choice alternatives hne _ ih =>
    obtain ⟨e, more, rfl⟩ := List.exists_cons_of_ne_nil hne
    rw [Expr.eval, Matching.runOn_bind_ok Matching.runOn_mark, evalChoice]
    rw [Matching.runOn_bind, ih e List.mem_cons_self]

/-- Alternatives that do in leading position what they do behind the skip rule, one after the other. -/
theorem evalChoice_of_skipsTo (hback : s.GivesBack) {behind : Cursor} {captures : List Tree}
    {alternatives : List Expr}
    (h : ∀ e ∈ alternatives, ∀ out m, m.skipping = skipping →
      (e.eval s true c).runOn out m =
        cutBack out.size ((e.eval s false behind).runOn (out ++ captures.toArray) m))
    (out : Array Tree) {m : Matcher} (hm : m.skipping = skipping) :
    (evalChoice s out.size alternatives true c).runOn out m =
      cutBack out.size
        ((evalChoice s (out ++ captures.toArray).size alternatives false behind).runOn
          (out ++ captures.toArray) m) := by
  induction alternatives generalizing m with
  | nil =>
    show (Except.ok (none, out), m) = (Except.ok (none, (out ++ captures.toArray).shrink out.size), m)
    rw [shrink_append]
  | cons e more ih =>
    rw [evalChoice, evalChoice, Matching.runOn_bind, Matching.runOn_bind, h e List.mem_cons_self out m hm]
    rcases hrun : (e.eval s false behind).runOn (out ++ captures.toArray) m with
      ⟨o | ⟨⟨⟩ | stop, out'⟩, m'⟩
    · rfl
    · -- the alternative has failed, so the next one starts from the same child lists
      obtain ⟨rfl, hm'⟩ := hback e false behind _ _ _ _ hrun
      simp only [cutBack]
      rw [shrink_append, Matching.runOn_bind_ok (Matching.runOn_truncate _), shrink_size,
        Matching.runOn_bind_ok (Matching.runOn_truncate _), shrink_size]
      exact ih (fun e he => h e (List.mem_cons_of_mem _ he)) (hm'.trans hm)
    · rfl

/-- In leading position an expression does what it does behind the skip rule. -/
theorem Expr.PlainLeading.eval_of_skipsTo (hback : s.GivesBack) {behind : Cursor} {captures : List Tree}
    (hskip : s.SkipsTo skipping c behind captures) {e : Expr} (he : e.PlainLeading) (out : Array Tree)
    {m : Matcher} (hm : m.skipping = skipping) :
    (e.eval s true c).runOn out m =
      cutBack out.size ((e.eval s false behind).runOn (out ++ captures.toArray) m) := by
  induction he generalizing out m with
  | empty | literal | range | endOfInput | rule | capture =>
    exact runOn_leading_of_skipsTo hskip _ out hm
  | @sequence e terms _ ih =>
    have hle : out.size ≤ (out ++ captures.toArray).size := by
      rw [Array.size_append]
      exact Nat.le_add_right _ _
    rw [Expr.eval, Matching.runOn_bind_ok Matching.runOn_mark, Expr.eval,
      Matching.runOn_bind_ok Matching.runOn_mark, evalSequence, evalSequence,
      Matching.runOn_bind, Matching.runOn_bind]
    simp only [Bool.not_false, Bool.and_true]
    rw [ih out hm]
    rcases (e.eval s false behind).runOn (out ++ captures.toArray) m with ⟨o | ⟨⟨⟩ | stop, out'⟩, m'⟩
    · rfl
    · show (Except.ok (none, (out'.shrink out.size).shrink out.size), m') =
        (Except.ok (none, (out'.shrink (out ++ captures.toArray).size).shrink out.size), m')
      rw [shrink_shrink out' hle, shrink_shrink out' (Nat.le_refl _)]
    · exact evalSequence_mark s hle terms true stop out' m'
  | choice _ _ ih =>
    rw [Expr.eval, Matching.runOn_bind_ok Matching.runOn_mark, Expr.eval,
      Matching.runOn_bind_ok Matching.runOn_mark]
    exact evalChoice_of_skipsTo hback (fun e he out m hm => ih e he out hm) out hm

end

/-- In leading position an expression that begins plainly does what it does behind one run of the skip rule:
in every grammar, with any number of calls left, at whatever place, on any child list and in any state.  The
match ends at the same place or fails or hits the limit alike, with the same child list, and the matcher is
the same afterwards, its furthest failure included. -/
theorem eval_leading_eq_evalBehindSkip (g : Grammar) {e : Expr} (he : e.PlainLeading) (left : Nat)
    (c : Cursor) (out : Array Tree) (m : Matcher) :
    (e.eval (g.surroundings (g.run left)) true c).runOn out m =
      (e.evalBehindSkip (g.surroundings (g.run left)) c).runOn out m := by
  rw [Expr.evalBehindSkip_eq]
  rcases g.runSkip_same left m.skipping c with ⟨o, hskip⟩ | ⟨behind, captures, hskip⟩
  · rw [he.eval_of_skipOverflows hskip out rfl, runOn_leading_of_skipOverflows hskip _ out rfl]
  · rw [he.eval_of_skipsTo (g.givesBack left) hskip out rfl, runOn_leading_of_skipsTo hskip _ out rfl]

/-- A skip rule that captures what it skips. -/
def spacedGrammar : Grammar where
  rules := [⟨"s", .literal " ", ⟨8, 9⟩⟩, ⟨"b", .literal "x", ⟨17, 18⟩⟩]
  skip := some (.repetition (.capture 0))

/-- Of two alternatives the first gives up behind what both begin with. -/
def spacedChoice : Expr :=
  .choice [
    .sequence [⟨false, .choice [.literal "z", .literal "x"]⟩, ⟨true, .literal "y"⟩],
    .rule 1]

/-- The blanks in front of the letter are captured once. -/
theorem eval_leading_eq_evalBehindSkip_spaced :
    spacedChoice.PlainLeading ∧
      (spacedChoice.evalBehindSkip (spacedGrammar.surroundings (spacedGrammar.run 1))
          (.start "  xw".toList)).runOn #[.leaf 1 ⟨0, 0⟩ ""] .initial =
        (.ok (some ⟨3, ['w']⟩, #[.leaf 1 ⟨0, 0⟩ "", .leaf 0 ⟨0, 1⟩ " ", .leaf 0 ⟨1, 2⟩ " "]),
          ⟨[], false, 0, ⟨3, ["\"y\""], none⟩⟩) := by
  have hfirst : (Expr.choice [.literal "z", .literal "x"]).PlainLeading := by
    refine .choice (List.cons_ne_nil _ _) ?_
    exact List.forall_mem_cons.mpr ⟨.literal, List.forall_mem_singleton.mpr .literal⟩
  have hplain : spacedChoice.PlainLeading := by
    refine .choice (List.cons_ne_nil _ _) ?_
    exact List.forall_mem_cons.mpr ⟨.sequence hfirst, List.forall_mem_singleton.mpr .rule⟩
  refine ⟨hplain, ?_⟩
  rw [← eval_leading_eq_evalBehindSkip spacedGrammar hplain]
  decide +kernel

/-- An option that fails has skipped nothing, unless the skip rule is run in front of the whole. -/
example :
    ((Expr.optional (.literal "x")).eval (spacedGrammar.surroundings (spacedGrammar.run 1)) true
        (.start " w".toList)).runOn #[] .initial ≠
      ((Expr.optional (.literal "x")).evalBehindSkip (spacedGrammar.surroundings (spacedGrammar.run 1))
        (.start " w".toList)).runOn #[] .initial := by
  decide +kernel

end PegTree
