import PegTree.Proofs.Grammar.Mention
import PegTree.Proofs.Match.Outcome
import PegTree.Proofs.Text.Reach

/-!
# What every outcome keeps to

All places that an outcome speaks of, where it stops, what it missed and where it overflowed, are places
of the text.  Nodes are made by captures alone, so a property that every capture of the frame gives to
its node is one of all nodes that come of an expression (`Expr.outcome_keeps`).  Which rules the
expression may call is a parameter, because some properties hold of some rules only.

Nothing is asked of the grammar here: an id without a rule fails, and that is a place like any other.
-/

namespace PegTree

/-! ## Outcomes -/

namespace Outcome

/-- An outcome speaks of places of the text only, and its nodes have a property. -/
def Keeps (text : List Char) (node : Tree → Prop) : Outcome → Prop
  | overflow o => Boundary text o.offset
  | failed log => ∀ miss ∈ log, Boundary text miss.offset
  | matched stop captures log =>
    stop.On text ∧ (∀ t ∈ captures, node t) ∧ ∀ miss ∈ log, Boundary text miss.offset

variable {text : List Char} {node : Tree → Prop} {o other : Outcome} {next : Cursor → Outcome}
  {c : Cursor}

theorem keeps_stay (hc : c.On text) : (stay c).Keeps text node :=
  ⟨hc, by simp, by simp⟩

theorem keeps_failed_nil : (failed []).Keeps text node := by
  simp [Keeps]

theorem Keeps.after (h : o.Keeps text node) {captures : List Tree} {log : List Miss}
    (hcaptures : ∀ t ∈ captures, node t) (hlog : ∀ miss ∈ log, Boundary text miss.offset) :
    (o.after captures log).Keeps text node := by
  cases o with
  | overflow o => exact h
  | failed more => exact fun miss hmiss => (List.mem_append.mp hmiss).elim (hlog miss) (h miss)
  | matched stop ts more =>
    obtain ⟨hstop, hts, hmore⟩ := h
    exact ⟨hstop, fun t ht => (List.mem_append.mp ht).elim (hcaptures t) (hts t),
      fun miss hmiss => (List.mem_append.mp hmiss).elim (hlog miss) (hmore miss)⟩

theorem Keeps.andThen (h : o.Keeps text node)
    (hnext : ∀ stop, stop.On text → (next stop).Keeps text node) :
    (o.andThen next).Keeps text node := by
  cases o with
  | overflow o | failed log => exact h
  | matched stop ts log => exact (hnext stop h.1).after h.2.1 h.2.2

theorem Keeps.orElse (h : o.Keeps text node) (hother : other.Keeps text node) :
    (o.orElse other).Keeps text node := by
  cases o with
  | overflow o | matched stop ts log => exact h
  | failed log => exact hother.after (by simp) h

theorem Keeps.negated (h : o.Keeps text node) (hc : c.On text) : (o.negated c).Keeps text node := by
  cases o with
  | overflow o => exact h
  | failed log => exact keeps_stay hc
  | matched stop ts log => exact keeps_failed_nil

theorem Keeps.quiet (h : o.Keeps text node) : o.quiet.Keeps text node := by
  cases o with
  | overflow o => exact h
  | failed log => exact keeps_failed_nil
  | matched stop ts log => exact ⟨h.1, h.2.1, by simp⟩

theorem Keeps.captured (h : o.Keeps text node) {rule : RuleId}
    (hnode : ∀ stop ts log, o = .matched stop ts log → node (Tree.ofMatch rule c stop ts)) :
    (o.captured rule c).Keeps text node := by
  cases o with
  | overflow o | failed log => exact h
  | matched stop ts log => exact ⟨h.1, by simpa using hnode stop ts log rfl, h.2.2⟩

theorem Keeps.round (h : o.Keeps text node) (hc : c.On text)
    (hnext : ∀ stop, stop.On text → (next stop).Keeps text node) :
    (o.round c next).Keeps text node := by
  cases o with
  | overflow o => exact h
  | failed log => exact ⟨hc, by simp, h⟩
  | matched stop ts log =>
    obtain ⟨hstop, hts, hlog⟩ := h
    by_cases hlt : c.offset < stop.offset
    · simpa only [Outcome.round, hlt, if_true] using (hnext stop hstop).after hts hlog
    · simpa only [Outcome.round, hlt, if_false] using ⟨hc, by simp, hlog⟩

theorem keeps_iterate {body : Bool → Cursor → Outcome}
    (hbody : ∀ lead c, c.On text → (body lead c).Keeps text node) (ahead : List Char) (lead : Bool)
    (hc : c.On text) : (iterate body ahead lead c).Keeps text node := by
  induction ahead generalizing lead c with
  | nil => exact (hbody lead c hc).round hc fun _ => keeps_stay
  | cons x ahead ih => exact (hbody lead c hc).round hc fun _ => ih true

end Outcome

/-! ## Frames -/

/-- A frame that keeps to places of the text, gives nodes with a property, and makes such nodes of the
rules that may be called. -/
structure Frame.Keeps (f : Frame) (text : List Char) (node : Tree → Prop)
    (called : RuleId → Prop) : Prop where
  skip : ∀ c, c.On text → (f.skip c).Keeps text node
  call : ∀ id c, called id → c.On text → (f.call id c).Keeps text node
  captured : ∀ id c stop ts log, called id → c.On text → f.call id c = .matched stop ts log →
    node (Tree.ofMatch id c stop ts)

namespace Frame.Keeps

variable {f : Frame} {text : List Char} {node : Tree → Prop} {called : RuleId → Prop}

theorem leading (hf : f.Keeps text node called) {next : Cursor → Outcome}
    (hnext : ∀ c, c.On text → (next c).Keeps text node) (lead : Bool) {c : Cursor} (hc : c.On text) :
    (f.leading lead c next).Keeps text node := by
  cases lead with
  | false => exact hnext c hc
  | true => exact (hf.skip c hc).andThen hnext

theorem fail (f : Frame) {c : Cursor} (hc : c.On text) (e : Expectation) :
    (f.fail c e).Keeps text node := by
  simpa [Frame.fail, Outcome.Keeps] using hc.boundary

theorem literal (f : Frame) (s : String) {c : Cursor} (hc : c.On text) :
    (f.literal s c).Keeps text node := by
  unfold Frame.literal
  split
  · next stop hstop =>
    exact Outcome.keeps_stay (hc.trans ⟨_, Cursor.dropPrefix?_eq_some.mp hstop⟩)
  · exact fail f hc _

theorem range (f : Frame) (low high : Char) {c : Cursor} (hc : c.On text) :
    (f.range low high c).Keeps text node := by
  unfold Frame.range
  split
  · next x stop hstop =>
    split
    · exact Outcome.keeps_stay (hc.trans ⟨_, Cursor.next?_eq_some.mp hstop⟩)
    · exact fail f hc _
  · exact fail f hc _

theorem endOfInput (f : Frame) {c : Cursor} (hc : c.On text) :
    (f.endOfInput c).Keeps text node := by
  unfold Frame.endOfInput
  split
  · exact Outcome.keeps_stay hc
  · exact fail f hc _

end Frame.Keeps

/-! ## Expressions -/

section

variable {f : Frame} {text : List Char} {node : Tree → Prop} {called : RuleId → Prop}

mutual

theorem Expr.outcome_keeps (hf : f.Keeps text node called) :
    ∀ (e : Expr), (∀ x ∈ e.mentions, called x.rule) → ∀ (lead : Bool) {c : Cursor}, c.On text →
      (e.outcome f lead c).Keeps text node
  | .empty, _, lead, _, hc => hf.leading (fun _ => Outcome.keeps_stay) lead hc
  | .literal s, _, lead, _, hc => hf.leading (fun _ => Frame.Keeps.literal f s) lead hc
  | .range low high, _, lead, _, hc => hf.leading (fun _ => Frame.Keeps.range f low high) lead hc
  | .endOfInput, _, lead, _, hc => hf.leading (fun _ => Frame.Keeps.endOfInput f) lead hc
  | .rule id, he, lead, _, hc => by
    have hid : called id := he ⟨id, false⟩ (by simp [Expr.mentions])
    exact hf.leading (fun c hc => hf.call id c hid hc) lead hc
  | .capture id, he, lead, _, hc => by
    have hid : called id := he ⟨id, true⟩ (by simp [Expr.mentions])
    refine hf.leading (fun c hc => ?_) lead hc
    exact (hf.call id c hid hc).captured fun stop ts log => hf.captured id c stop ts log hid hc
  | .sequence terms, he, lead, _, hc => sequenceOutcome_keeps hf terms he lead hc
  | .choice alternatives, he, lead, _, hc => choiceOutcome_keeps hf alternatives he lead hc
  | .repetition body, he, lead, c, hc =>
    Outcome.keeps_iterate (fun lead _ => Expr.outcome_keeps hf body he lead) c.rest lead hc
  | .optional body, he, lead, _, hc =>
    (Expr.outcome_keeps hf body he lead hc).orElse (Outcome.keeps_stay hc)
  | .negation body, he, _, _, hc => (Expr.outcome_keeps hf body he false hc).negated hc

theorem sequenceOutcome_keeps (hf : f.Keeps text node called) :
    ∀ (terms : List Term), (∀ x ∈ mentionsOfTerms terms, called x.rule) →
      ∀ (lead : Bool) {c : Cursor}, c.On text → (sequenceOutcome f terms lead c).Keeps text node
  | [], _, _, _, hc => Outcome.keeps_stay hc
  | ⟨adjacent, e⟩ :: terms, he, lead, _, hc => by
    simp only [mentionsOfTerms, List.mem_append] at he
    have hfirst := Expr.outcome_keeps hf e (fun x hx => he x (.inl hx)) (lead && !adjacent) hc
    exact hfirst.andThen fun _ =>
      sequenceOutcome_keeps hf terms (fun x hx => he x (.inr hx)) true

theorem choiceOutcome_keeps (hf : f.Keeps text node called) :
    ∀ (alternatives : List Expr), (∀ x ∈ mentionsOfAll alternatives, called x.rule) →
      ∀ (lead : Bool) {c : Cursor}, c.On text →
      (choiceOutcome f alternatives lead c).Keeps text node
  | [], _, _, _, _ => Outcome.keeps_failed_nil
  | e :: alternatives, he, lead, _, hc => by
    simp only [mentionsOfAll, List.mem_append] at he
    have hfirst := Expr.outcome_keeps hf e (fun x hx => he x (.inl hx)) lead hc
    exact hfirst.orElse (choiceOutcome_keeps hf alternatives (fun x hx => he x (.inr hx)) lead hc)

end

end

/-! ## Grammars -/

namespace Grammar

variable {g : Grammar} {text : List Char}

/-- The skip rule keeps to what the calls of its body keep to. -/
theorem skipOutcome_keeps {node : Tree → Prop} {called : RuleId → Prop}
    {call : Mode → RuleId → Cursor → Outcome}
    (hbody : ∀ body, g.skip = some body → ∀ x ∈ body.mentions, called x.rule)
    (hcall : Frame.Keeps ⟨none, .stay, call .skipping⟩ text node called) (mode : Mode) {c : Cursor}
    (hc : c.On text) : (g.skipOutcome call mode c).Keeps text node := by
  unfold skipOutcome
  split
  · next body hskip =>
    exact ((Expr.outcome_keeps hcall body (hbody body hskip) false hc).orElse
      (Outcome.keeps_stay hc)).quiet
  · exact Outcome.keeps_stay hc

/-- Where calls keep to the places of the text, so does the skip rule. -/
theorem skipOutcome_keeps_of_call {call : Mode → RuleId → Cursor → Outcome}
    (hcall : ∀ mode id c, c.On text → (call mode id c).Keeps text fun _ => True) (mode : Mode)
    {c : Cursor} (hc : c.On text) : (g.skipOutcome call mode c).Keeps text fun _ => True := by
  have hframe : Frame.Keeps ⟨none, .stay, call .skipping⟩ text (fun _ => True) fun _ => True :=
    ⟨fun _ => Outcome.keeps_stay, fun id c _ => hcall .skipping id c,
      fun _ _ _ _ _ _ _ _ => trivial⟩
  exact skipOutcome_keeps (fun _ _ _ _ => trivial) hframe mode hc

/-- Calling a rule keeps to the places of the text. -/
theorem outcome_keeps_places (g : Grammar) (left : Nat) (mode : Mode) (id : RuleId) {c : Cursor}
    (hc : c.On text) : (g.outcome left mode id c).Keeps text fun _ => True := by
  induction left generalizing mode id c with
  | zero => exact hc.boundary
  | succ left ih =>
    rw [outcome]
    split
    · exact Outcome.keeps_failed_nil
    · next r _ =>
      have hframe : (g.frame (g.outcome left) mode (some id)).Keeps text (fun _ => True)
          fun _ => True :=
        ⟨fun _ => skipOutcome_keeps_of_call (fun mode id _ => ih mode id) mode,
          fun id _ _ => ih mode id, fun _ _ _ _ _ _ _ _ => trivial⟩
      exact Expr.outcome_keeps hframe r.body (fun _ _ => trivial) false hc

theorem skipOutcome_keeps_places (g : Grammar) (left : Nat) (mode : Mode) {c : Cursor}
    (hc : c.On text) : (g.skipOutcome (g.outcome left) mode c).Keeps text fun _ => True :=
  skipOutcome_keeps_of_call (fun mode id _ => g.outcome_keeps_places left mode id) mode hc

end Grammar

end PegTree
