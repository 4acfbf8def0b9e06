import PegTree.Proofs.Text.Reach
import PegTree.Tree.Basic

/-!
# What an expression matches

`Matches` is the meaning of parsing expressions as a relation: in a mode, with or without the skip
rule in front, an expression at a place either fails or hits a later place and captures nodes on the
way.  The relation knows nothing of a matcher, of child lists or of a limit on nested rules.

* Alternatives are tried in order at one and the same place.
* A repetition goes on as long as a round consumes something; a round that fails or consumes nothing
  ends it and leaves no captures.
* A negation looks at the place itself: it runs no skip rule, consumes and captures nothing.
* The skip rule runs in front of a terminal, a reference or a capture in leading position.  Every
  element of a sequence but the first is in leading position unless it is marked as adjacent, the
  first if the sequence is; so is every round of a repetition but the first.
* The skip rule never runs inside itself; what it captures belongs to whatever it runs for.

The main statements: a verdict is a later place of the text (`Matches.reaches`), and there is at most
one (`Matches.unique`).
-/

namespace PegTree

/-- Whether the skip rule is being run. -/
inductive Mode where
  | plain
  | skipping
deriving DecidableEq, Repr

/-- How an expression ends. -/
inductive Verdict where
  | fail
  /-- A match up to a place, with the nodes captured on the way. -/
  | hit (stop : Cursor) (captures : List Tree)

/-- The verdict with more captures in front. -/
def Verdict.after (before : List Tree) : Verdict → Verdict
  | fail => fail
  | hit stop captures => hit stop (before ++ captures)

/-- Whether the skip rule runs right in front of an expression in leading position; all other
expressions hand the position on to their parts, but for a negation. -/
def Expr.TakesSkip : Expr → Prop
  | .empty | .literal _ | .range _ _ | .endOfInput | .rule _ | .capture _ => True
  | _ => False

/-- How expressions of a grammar end, by the mode, whether they are in leading position, and the
place. -/
inductive Matches (g : Grammar) : Mode → Bool → Expr → Cursor → Verdict → Prop
  -- terminals
  | empty {mode c} : Matches g mode false .empty c (.hit c [])
  | literal {mode text c stop} :
      c.Reads text.toList stop → Matches g mode false (.literal text) c (.hit stop [])
  | literal_fail {mode text c} :
      (∀ rest, c.rest ≠ text.toList ++ rest) → Matches g mode false (.literal text) c .fail
  | range {mode low high c x stop} :
      c.Reads [x] stop → low ≤ x → x ≤ high →
      Matches g mode false (.range low high) c (.hit stop [])
  | range_fail {mode low high c} :
      (∀ x rest, c.rest = x :: rest → ¬ (low ≤ x ∧ x ≤ high)) →
      Matches g mode false (.range low high) c .fail
  | endOfInput {mode c} : c.rest = [] → Matches g mode false .endOfInput c (.hit c [])
  | endOfInput_fail {mode c} : c.rest ≠ [] → Matches g mode false .endOfInput c .fail
  -- rules
  | rule {mode id r c v} :
      g.rules[id]? = some r → Matches g mode false r.body c v → Matches g mode false (.rule id) c v
  | capture_fail {mode id c} :
      Matches g mode false (.rule id) c .fail → Matches g mode false (.capture id) c .fail
  | capture_leaf {mode id c stop text} :
      Matches g mode false (.rule id) c (.hit stop []) → c.Reads text stop →
      Matches g mode false (.capture id) c
        (.hit stop [.leaf id ⟨c.offset, stop.offset⟩ (String.ofList text)])
  | capture_branch {mode id c stop t ts} :
      Matches g mode false (.rule id) c (.hit stop (t :: ts)) →
      Matches g mode false (.capture id) c
        (.hit stop [.branch id ⟨c.offset, stop.offset⟩ (t :: ts)])
  -- leading positions
  | lead_unskipped {mode e c v} :
      e.TakesSkip → mode = .skipping ∨ g.skip = none → Matches g mode false e c v →
      Matches g mode true e c v
  | lead_skipped {body e c next ts v} :
      e.TakesSkip → g.skip = some body → Matches g .skipping false body c (.hit next ts) →
      Matches g .plain false e next v → Matches g .plain true e c (v.after ts)
  | lead_failed {body e c v} :
      e.TakesSkip → g.skip = some body → Matches g .skipping false body c .fail →
      Matches g .plain false e c v → Matches g .plain true e c v
  -- sequences
  | sequence_nil {mode lead c} : Matches g mode lead (.sequence []) c (.hit c [])
  | sequence_fail {mode lead t terms c} :
      Matches g mode (lead && !t.adjacent) t.expr c .fail →
      Matches g mode lead (.sequence (t :: terms)) c .fail
  | sequence_cons {mode lead t terms c next ts v} :
      Matches g mode (lead && !t.adjacent) t.expr c (.hit next ts) →
      Matches g mode true (.sequence terms) next v →
      Matches g mode lead (.sequence (t :: terms)) c (v.after ts)
  -- choices
  | choice_nil {mode lead c} : Matches g mode lead (.choice []) c .fail
  | choice_first {mode lead e alternatives c stop ts} :
      Matches g mode lead e c (.hit stop ts) →
      Matches g mode lead (.choice (e :: alternatives)) c (.hit stop ts)
  | choice_next {mode lead e alternatives c v} :
      Matches g mode lead e c .fail → Matches g mode lead (.choice alternatives) c v →
      Matches g mode lead (.choice (e :: alternatives)) c v
  -- repetitions
  | repetition_fail {mode lead body c} :
      Matches g mode lead body c .fail → Matches g mode lead (.repetition body) c (.hit c [])
  | repetition_idle {mode lead body c stop ts} :
      Matches g mode lead body c (.hit stop ts) → stop.offset ≤ c.offset →
      Matches g mode lead (.repetition body) c (.hit c [])
  | repetition_again {mode lead body c next ts v} :
      Matches g mode lead body c (.hit next ts) → c.offset < next.offset →
      Matches g mode true (.repetition body) next v →
      Matches g mode lead (.repetition body) c (v.after ts)
  -- options and negations
  | optional_hit {mode lead body c stop ts} :
      Matches g mode lead body c (.hit stop ts) →
      Matches g mode lead (.optional body) c (.hit stop ts)
  | optional_fail {mode lead body c} :
      Matches g mode lead body c .fail → Matches g mode lead (.optional body) c (.hit c [])
  | negation_hit {mode lead body c} :
      Matches g mode false body c .fail → Matches g mode lead (.negation body) c (.hit c [])
  | negation_fail {mode lead body c stop ts} :
      Matches g mode false body c (.hit stop ts) → Matches g mode lead (.negation body) c .fail

namespace Verdict

@[simp]
theorem after_fail (ts : List Tree) : fail.after ts = fail := rfl

@[simp]
theorem after_hit (ts us : List Tree) (stop : Cursor) :
    (hit stop us).after ts = hit stop (ts ++ us) := rfl

@[simp]
theorem after_nil (v : Verdict) : v.after [] = v := by
  cases v <;> rfl

/-- A match leads to a later place. -/
def Reached (c : Cursor) : Verdict → Prop
  | fail => True
  | hit stop _ => c.Reaches stop

theorem Reached.after {c : Cursor} {v : Verdict} (h : v.Reached c) (ts : List Tree) :
    (v.after ts).Reached c := by
  cases v <;> exact h

theorem Reached.trans {c d : Cursor} {v : Verdict} (h : c.Reaches d) (hv : v.Reached d) :
    v.Reached c := by
  cases v with
  | fail => trivial
  | hit stop ts => exact h.trans hv

end Verdict

namespace Matches

variable {g : Grammar} {mode : Mode} {lead : Bool} {e : Expr} {c : Cursor}

/-- Wherever a match stops has been reached by reading on. -/
theorem reached {v : Verdict} (h : Matches g mode lead e c v) : v.Reached c := by
  induction h with
  | empty | sequence_nil | endOfInput | repetition_fail | repetition_idle | optional_fail
  | negation_hit => exact .refl _
  | literal_fail | range_fail | endOfInput_fail | capture_fail | sequence_fail | choice_nil
  | negation_fail => trivial
  | literal h => exact ⟨_, h⟩
  | range h _ _ => exact ⟨_, h⟩
  | rule _ _ ih | lead_unskipped _ _ _ ih | lead_failed _ _ _ _ _ ih => exact ih
  | capture_leaf _ _ ih | capture_branch _ ih | choice_first _ ih | optional_hit _ ih => exact ih
  | choice_next _ _ _ ih => exact ih
  | lead_skipped _ _ _ _ ihs ih => exact .trans ihs (ih.after _)
  | sequence_cons _ _ iht ih => exact .trans iht (ih.after _)
  | repetition_again _ _ _ ihb ih => exact .trans ihb (ih.after _)

/-- A match leads to a later place. -/
theorem reaches {stop : Cursor} {ts : List Tree} (h : Matches g mode lead e c (.hit stop ts)) :
    c.Reaches stop :=
  h.reached

/-- A capture makes the match of its rule a node. -/
theorem capture {id : RuleId} {stop : Cursor} {ts : List Tree}
    (h : Matches g mode false (.rule id) c (.hit stop ts)) :
    Matches g mode false (.capture id) c (.hit stop [.ofMatch id c stop ts]) := by
  cases ts with
  | nil =>
    -- without children the node is a leaf, and its value what has been read
    obtain ⟨text, ht⟩ := h.reaches
    rw [Tree.ofMatch, ht.textTo]
    exact .capture_leaf h ht
  | cons t ts => exact .capture_branch h

end Matches

/-! ## One verdict -/

/-- An expression ends in no other way. -/
def EndsOnly (g : Grammar) (mode : Mode) (lead : Bool) (e : Expr) (c : Cursor) (v : Verdict) : Prop :=
  ∀ ⦃w⦄, Matches g mode lead e c w → w = v

namespace EndsOnly

variable {g : Grammar} {mode : Mode} {lead : Bool} {c : Cursor} {v : Verdict}

/-! ### Terminals -/

theorem empty : EndsOnly g mode false .empty c (.hit c []) := by
  intro w h
  cases h with
  | empty => rfl

theorem literal {text : String} {stop : Cursor} (ht : c.Reads text.toList stop) :
    EndsOnly g mode false (.literal text) c (.hit stop []) := by
  intro w h
  cases h with
  | literal ht' => rw [ht.stop_eq ht']
  | literal_fail hno => exact absurd ht.1 (hno _)

theorem literal_fail {text : String} (hno : ∀ rest, c.rest ≠ text.toList ++ rest) :
    EndsOnly g mode false (.literal text) c .fail := by
  intro w h
  cases h with
  | literal ht => exact absurd ht.1 (hno _)
  | literal_fail => rfl

theorem range {low high x : Char} {stop : Cursor} (hx : c.Reads [x] stop) (hlow : low ≤ x)
    (hhigh : x ≤ high) : EndsOnly g mode false (.range low high) c (.hit stop []) := by
  intro w h
  cases h with
  | range hx' =>
    obtain rfl : _ = _ := List.head_eq_of_cons_eq (hx.1.symm.trans hx'.1)
    rw [hx.stop_eq hx']
  | range_fail hno => exact absurd ⟨hlow, hhigh⟩ (hno _ _ hx.1)

theorem range_fail {low high : Char} (hno : ∀ x rest, c.rest = x :: rest → ¬ (low ≤ x ∧ x ≤ high)) :
    EndsOnly g mode false (.range low high) c .fail := by
  intro w h
  cases h with
  | range hx hlow hhigh => exact absurd ⟨hlow, hhigh⟩ (hno _ _ hx.1)
  | range_fail => rfl

theorem endOfInput (hc : c.rest = []) : EndsOnly g mode false .endOfInput c (.hit c []) := by
  intro w h
  cases h with
  | endOfInput => rfl
  | endOfInput_fail hc' => exact absurd hc hc'

theorem endOfInput_fail (hc : c.rest ≠ []) : EndsOnly g mode false .endOfInput c .fail := by
  intro w h
  cases h with
  | endOfInput hc' => exact absurd hc' hc
  | endOfInput_fail => rfl

/-! ### Rules -/

/-- An id has one rule. -/
theorem rule {id : RuleId} {r : Rule} (hr : g.rules[id]? = some r)
    (hbody : EndsOnly g mode false r.body c v) : EndsOnly g mode false (.rule id) c v := by
  intro w h
  cases h with
  | rule hr' h =>
    cases hr.symm.trans hr'
    exact hbody h

theorem capture_fail {id : RuleId} (hrule : EndsOnly g mode false (.rule id) c .fail) :
    EndsOnly g mode false (.capture id) c .fail := by
  intro w h
  cases h with
  | capture_fail => rfl
  | capture_leaf h | capture_branch h => cases hrule h

theorem capture_leaf {id : RuleId} {stop : Cursor} {text : List Char}
    (hrule : EndsOnly g mode false (.rule id) c (.hit stop [])) (ht : c.Reads text stop) :
    EndsOnly g mode false (.capture id) c
      (.hit stop [.leaf id ⟨c.offset, stop.offset⟩ (String.ofList text)]) := by
  intro w h
  cases h with
  | capture_fail h | capture_branch h => cases hrule h
  | capture_leaf h ht' =>
    cases hrule h
    rw [ht.text_eq ht']

theorem capture_branch {id : RuleId} {stop : Cursor} {t : Tree} {ts : List Tree}
    (hrule : EndsOnly g mode false (.rule id) c (.hit stop (t :: ts))) :
    EndsOnly g mode false (.capture id) c
      (.hit stop [.branch id ⟨c.offset, stop.offset⟩ (t :: ts)]) := by
  intro w h
  cases h with
  | capture_fail h | capture_leaf h => cases hrule h
  | capture_branch h =>
    cases hrule h
    rfl

/-! ### Leading positions

Whether the skip rule runs in front is settled by the mode and the grammar. -/

section

variable {e body : Expr}

theorem lead_unskipped (he : e.TakesSkip) (hg : mode = .skipping ∨ g.skip = none)
    (h : EndsOnly g mode false e c v) : EndsOnly g mode true e c v := by
  intro w hw
  cases hw with
  | lead_unskipped _ _ hw => exact h hw
  | lead_skipped _ hg' | lead_failed _ hg' => simp [hg'] at hg
  | _ => exact he.elim

theorem lead_skipped {next : Cursor} {ts : List Tree} (he : e.TakesSkip) (hg : g.skip = some body)
    (hskip : EndsOnly g .skipping false body c (.hit next ts)) (h : EndsOnly g .plain false e next v) :
    EndsOnly g .plain true e c (v.after ts) := by
  intro w hw
  cases hw with
  | lead_unskipped _ hg' => simp [hg] at hg'
  | lead_skipped _ hg' hs hw =>
    cases hg.symm.trans hg'
    cases hskip hs
    rw [h hw]
  | lead_failed _ hg' hs =>
    cases hg.symm.trans hg'
    cases hskip hs
  | _ => exact he.elim

theorem lead_failed (he : e.TakesSkip) (hg : g.skip = some body)
    (hskip : EndsOnly g .skipping false body c .fail) (h : EndsOnly g .plain false e c v) :
    EndsOnly g .plain true e c v := by
  intro w hw
  cases hw with
  | lead_unskipped _ hg' => simp [hg] at hg'
  | lead_skipped _ hg' hs =>
    cases hg.symm.trans hg'
    cases hskip hs
  | lead_failed _ _ _ hw => exact h hw
  | _ => exact he.elim

end

/-! ### Sequences

From here on no skip rule runs in front of the expression as a whole. -/

section

variable {t : Term} {terms : List Term}

theorem sequence_nil : EndsOnly g mode lead (.sequence []) c (.hit c []) := by
  intro w h
  cases h with
  | sequence_nil => rfl
  | lead_unskipped he | lead_skipped he | lead_failed he => exact he.elim

theorem sequence_fail (hfirst : EndsOnly g mode (lead && !t.adjacent) t.expr c .fail) :
    EndsOnly g mode lead (.sequence (t :: terms)) c .fail := by
  intro w h
  cases h with
  | sequence_fail => rfl
  | sequence_cons h => cases hfirst h
  | lead_unskipped he | lead_skipped he | lead_failed he => exact he.elim

theorem sequence_cons {next : Cursor} {ts : List Tree}
    (hfirst : EndsOnly g mode (lead && !t.adjacent) t.expr c (.hit next ts))
    (hrest : EndsOnly g mode true (.sequence terms) next v) :
    EndsOnly g mode lead (.sequence (t :: terms)) c (v.after ts) := by
  intro w h
  cases h with
  | sequence_fail h => cases hfirst h
  | sequence_cons ht h =>
    cases hfirst ht
    rw [hrest h]
  | lead_unskipped he | lead_skipped he | lead_failed he => exact he.elim

end

/-! ### Choices -/

section

variable {e : Expr} {alternatives : List Expr}

theorem choice_nil : EndsOnly g mode lead (.choice []) c .fail := by
  intro w h
  cases h with
  | choice_nil => rfl
  | lead_unskipped he | lead_skipped he | lead_failed he => exact he.elim

theorem choice_first {stop : Cursor} {ts : List Tree} (hfirst : EndsOnly g mode lead e c (.hit stop ts)) :
    EndsOnly g mode lead (.choice (e :: alternatives)) c (.hit stop ts) := by
  intro w h
  cases h with
  | choice_first h => exact hfirst h
  | choice_next h => cases hfirst h
  | lead_unskipped he | lead_skipped he | lead_failed he => exact he.elim

theorem choice_next (hfirst : EndsOnly g mode lead e c .fail)
    (hrest : EndsOnly g mode lead (.choice alternatives) c v) :
    EndsOnly g mode lead (.choice (e :: alternatives)) c v := by
  intro w h
  cases h with
  | choice_first h => cases hfirst h
  | choice_next _ h => exact hrest h
  | lead_unskipped he | lead_skipped he | lead_failed he => exact he.elim

end

/-! ### Repetitions, options and negations -/

section

variable {body : Expr} {stop : Cursor} {ts : List Tree}

theorem repetition_fail (hround : EndsOnly g mode lead body c .fail) :
    EndsOnly g mode lead (.repetition body) c (.hit c []) := by
  intro w h
  cases h with
  | repetition_fail | repetition_idle => rfl
  | repetition_again h => cases hround h
  | lead_unskipped he | lead_skipped he | lead_failed he => exact he.elim

/-- The same round cannot both consume something and not. -/
theorem repetition_idle (hround : EndsOnly g mode lead body c (.hit stop ts)) (hle : stop.offset ≤ c.offset) :
    EndsOnly g mode lead (.repetition body) c (.hit c []) := by
  intro w h
  cases h with
  | repetition_fail | repetition_idle => rfl
  | repetition_again h hlt =>
    cases hround h
    omega
  | lead_unskipped he | lead_skipped he | lead_failed he => exact he.elim

theorem repetition_again (hround : EndsOnly g mode lead body c (.hit stop ts)) (hlt : c.offset < stop.offset)
    (hrest : EndsOnly g mode true (.repetition body) stop v) :
    EndsOnly g mode lead (.repetition body) c (v.after ts) := by
  intro w h
  cases h with
  | repetition_fail h => cases hround h
  | repetition_idle h hle =>
    cases hround h
    omega
  | repetition_again hb _ h =>
    cases hround hb
    rw [hrest h]
  | lead_unskipped he | lead_skipped he | lead_failed he => exact he.elim

theorem optional_hit (hbody : EndsOnly g mode lead body c (.hit stop ts)) :
    EndsOnly g mode lead (.optional body) c (.hit stop ts) := by
  intro w h
  cases h with
  | optional_hit h => exact hbody h
  | optional_fail h => cases hbody h
  | lead_unskipped he | lead_skipped he | lead_failed he => exact he.elim

theorem optional_fail (hbody : EndsOnly g mode lead body c .fail) :
    EndsOnly g mode lead (.optional body) c (.hit c []) := by
  intro w h
  cases h with
  | optional_hit h => cases hbody h
  | optional_fail => rfl
  | lead_unskipped he | lead_skipped he | lead_failed he => exact he.elim

theorem negation_hit (hbody : EndsOnly g mode false body c .fail) :
    EndsOnly g mode lead (.negation body) c (.hit c []) := by
  intro w h
  cases h with
  | negation_hit => rfl
  | negation_fail h => cases hbody h
  | lead_unskipped he | lead_skipped he | lead_failed he => exact he.elim

theorem negation_fail (hbody : EndsOnly g mode false body c (.hit stop ts)) :
    EndsOnly g mode lead (.negation body) c .fail := by
  intro w h
  cases h with
  | negation_hit h => cases hbody h
  | negation_fail => rfl
  | lead_unskipped he | lead_skipped he | lead_failed he => exact he.elim

end

end EndsOnly

namespace Matches

variable {g : Grammar} {mode : Mode} {lead : Bool} {e : Expr} {c : Cursor} {v w : Verdict}

theorem endsOnly (h : Matches g mode lead e c v) : EndsOnly g mode lead e c v := by
  induction h with
  | empty => exact .empty
  | literal ht => exact .literal ht
  | literal_fail hno => exact .literal_fail hno
  | range hx hlow hhigh => exact .range hx hlow hhigh
  | range_fail hno => exact .range_fail hno
  | endOfInput hc => exact .endOfInput hc
  | endOfInput_fail hc => exact .endOfInput_fail hc
  | rule hr _ ih => exact .rule hr ih
  | capture_fail _ ih => exact .capture_fail ih
  | capture_leaf _ ht ih => exact .capture_leaf ih ht
  | capture_branch _ ih => exact .capture_branch ih
  | lead_unskipped he hg _ ih => exact .lead_unskipped he hg ih
  | lead_skipped he hg _ _ ihs ih => exact .lead_skipped he hg ihs ih
  | lead_failed he hg _ _ ihs ih => exact .lead_failed he hg ihs ih
  | sequence_nil => exact .sequence_nil
  | sequence_fail _ ih => exact .sequence_fail ih
  | sequence_cons _ _ iht ih => exact .sequence_cons iht ih
  | choice_nil => exact .choice_nil
  | choice_first _ ih => exact .choice_first ih
  | choice_next _ _ ihe ih => exact .choice_next ihe ih
  | repetition_fail _ ih => exact .repetition_fail ih
  | repetition_idle _ hle ih => exact .repetition_idle ih hle
  | repetition_again _ hlt _ ihb ih => exact .repetition_again ihb hlt ih
  | optional_hit _ ih => exact .optional_hit ih
  | optional_fail _ ih => exact .optional_fail ih
  | negation_hit _ ih => exact .negation_hit ih
  | negation_fail _ ih => exact .negation_fail ih

/-- An expression ends in one way only. -/
theorem unique (h : Matches g mode lead e c v) (h' : Matches g mode lead e c w) : v = w :=
  h'.endsOnly h

end Matches

end PegTree
