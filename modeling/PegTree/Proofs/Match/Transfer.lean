import PegTree.Proofs.Grammar.Renumber
import PegTree.Proofs.Match.Outcome

/-!
# From one run to another

Two runs of an expression may differ in where they begin, in how rules are numbered and in what their
frames do where the first one overflows.  A `Transfer` says how, and `Turns` what then becomes of an
outcome: the same, with places, nodes and misses moved along, and something for an overflow that the
transfer allows.

Every operation on outcomes respects this, so what frames do to each other their expressions do
(`Expr.outcome_turns`), and what grammars do their calls do (`Grammar.outcome_turns`).  The induction
over expressions is made here once for all: limits, offsets, numbers and the calls that matter are
instances (`outcome_kept`, `outcome_shift`, `RenumberedBy.outcome_eq`, `Expr.outcome_congr`).
-/

namespace PegTree

/-- The place further on, with the same characters ahead. -/
def Cursor.shift (k : Nat) (c : Cursor) : Cursor :=
  ⟨c.offset + k, c.rest⟩

@[simp]
theorem Cursor.shift_offset (k : Nat) (c : Cursor) : (c.shift k).offset = c.offset + k := rfl

@[simp]
theorem Cursor.shift_rest (k : Nat) (c : Cursor) : (c.shift k).rest = c.rest := rfl

theorem Cursor.dropPrefix?_shift (k : Nat) (c : Cursor) (text : List Char) :
    (c.shift k).dropPrefix? text = (c.dropPrefix? text).map (Cursor.shift k) := by
  unfold dropPrefix?
  by_cases h : text.isPrefixOf c.rest
  · simp [h, shift, Nat.add_right_comm]
  · simp [h]

theorem Cursor.next?_shift (k : Nat) (c : Cursor) :
    (c.shift k).next? = c.next?.map fun (x, stop) => (x, stop.shift k) := by
  unfold next?
  cases hrest : c.rest with
  | nil => simp [hrest]
  | cons x rest => simp [hrest, shift, Nat.add_right_comm]

/-! ## Transfers -/

/-- How a second run differs from a first. -/
structure Transfer where
  /-- How much further on its places are. -/
  distance : Nat
  /-- What its rules are called by. -/
  rule : RuleId → RuleId
  /-- What becomes of captured nodes. -/
  trees : List Tree → List Tree
  /-- What becomes of a miss. -/
  miss : Miss → Miss
  /-- What may come of the second run where the first one overflows. -/
  Spills : Overflow → Outcome → Prop
  trees_nil : trees [] = []
  trees_append : ∀ ts us, trees (ts ++ us) = trees ts ++ trees us
  trees_ofMatch : ∀ id c stop ts, trees [Tree.ofMatch id c stop ts] =
    [Tree.ofMatch (rule id) (c.shift distance) (stop.shift distance) (trees ts)]
  miss_mk : ∀ offset expected id,
    miss ⟨offset, expected, id⟩ = ⟨offset + distance, expected, id.map rule⟩
  /-- Nothing that passes overflows on can do harm. -/
  spills : ∀ ⦃v o⦄, Spills v o → ∀ change : Outcome → Outcome,
    (∀ w, change (.overflow w) = .overflow w) → Spills v (change o)

namespace Transfer

/-- Nothing moves. -/
def still (Spills : Overflow → Outcome → Prop)
    (hspills : ∀ ⦃v o⦄, Spills v o → ∀ change : Outcome → Outcome,
      (∀ w, change (.overflow w) = .overflow w) → Spills v (change o)) : Transfer where
  distance := 0
  rule := id
  trees := id
  miss := id
  Spills := Spills
  trees_nil := rfl
  trees_append _ _ := rfl
  trees_ofMatch _ _ _ _ := rfl
  miss_mk _ _ id := by cases id <;> rfl
  spills := hspills

/-- What becomes of an outcome. -/
def Turns (t : Transfer) : Outcome → Outcome → Prop
  | .overflow v, o => t.Spills v o
  | .failed log, o => o = .failed (log.map t.miss)
  | .matched stop ts log, o => o = .matched (stop.shift t.distance) (t.trees ts) (log.map t.miss)

section

variable {Spills : Overflow → Outcome → Prop}
  {hspills : ∀ ⦃v o⦄, Spills v o → ∀ change : Outcome → Outcome,
    (∀ w, change (.overflow w) = .overflow w) → Spills v (change o)} {o' : Outcome}

@[simp]
theorem still_turns_overflow {v : Overflow} : (still Spills hspills).Turns (.overflow v) o' ↔ Spills v o' :=
  Iff.rfl

@[simp]
theorem still_turns_failed {log : List Miss} :
    (still Spills hspills).Turns (.failed log) o' ↔ o' = .failed log := by
  simp [Turns, still]

@[simp]
theorem still_turns_matched {stop : Cursor} {ts : List Tree} {log : List Miss} :
    (still Spills hspills).Turns (.matched stop ts log) o' ↔ o' = .matched stop ts log := by
  simp [Turns, still, Cursor.shift]

end

/-! ## Operations on outcomes -/

variable {t : Transfer} {o o' other other' : Outcome} {next next' : Cursor → Outcome}

theorem turns_stay (t : Transfer) (c : Cursor) : t.Turns (.stay c) (.stay (c.shift t.distance)) := by
  simp [Turns, Outcome.stay, t.trees_nil]

theorem turns_failed_nil (t : Transfer) : t.Turns (.failed []) (.failed []) := rfl

theorem Turns.after (h : t.Turns o o') (ts : List Tree) (log : List Miss) :
    t.Turns (o.after ts log) (o'.after (t.trees ts) (log.map t.miss)) := by
  cases o with
  | overflow v => exact t.spills h (·.after (t.trees ts) (log.map t.miss)) fun _ => rfl
  | failed missed =>
    obtain rfl := h
    simp [Turns, Outcome.after]
  | matched stop us missed =>
    obtain rfl := h
    simp [Turns, Outcome.after, t.trees_append]

theorem Turns.andThen (h : t.Turns o o')
    (hnext : ∀ stop ts log, o = .matched stop ts log →
      t.Turns (next stop) (next' (stop.shift t.distance))) :
    t.Turns (o.andThen next) (o'.andThen next') := by
  cases o with
  | overflow v => exact t.spills h (·.andThen next') fun _ => rfl
  | failed log =>
    obtain rfl := h
    exact rfl
  | matched stop ts log =>
    obtain rfl := h
    exact (hnext stop ts log rfl).after ts log

theorem Turns.orElse (h : t.Turns o o') (hother : t.Turns other other') :
    t.Turns (o.orElse other) (o'.orElse other') := by
  cases o with
  | overflow v => exact t.spills h (·.orElse other') fun _ => rfl
  | failed log =>
    obtain rfl := h
    have hafter := hother.after [] log
    rwa [t.trees_nil] at hafter
  | matched stop ts log =>
    obtain rfl := h
    exact rfl

theorem Turns.negated (h : t.Turns o o') (c : Cursor) :
    t.Turns (o.negated c) (o'.negated (c.shift t.distance)) := by
  cases o with
  | overflow v => exact t.spills h (·.negated (c.shift t.distance)) fun _ => rfl
  | failed log =>
    obtain rfl := h
    exact t.turns_stay c
  | matched stop ts log =>
    obtain rfl := h
    exact t.turns_failed_nil

theorem Turns.quiet (h : t.Turns o o') : t.Turns o.quiet o'.quiet := by
  cases o with
  | overflow v => exact t.spills h (·.quiet) fun _ => rfl
  | failed log | matched stop ts log =>
    obtain rfl := h
    exact rfl

theorem Turns.captured (h : t.Turns o o') (id : RuleId) (c : Cursor) :
    t.Turns (o.captured id c) (o'.captured (t.rule id) (c.shift t.distance)) := by
  cases o with
  | overflow v => exact t.spills h (·.captured (t.rule id) (c.shift t.distance)) fun _ => rfl
  | failed log =>
    obtain rfl := h
    exact rfl
  | matched stop ts log =>
    obtain rfl := h
    simp [Turns, Outcome.captured, t.trees_ofMatch]

theorem Turns.round (h : t.Turns o o') (c : Cursor)
    (hnext : ∀ stop ts log, o = .matched stop ts log → c.offset < stop.offset →
      t.Turns (next stop) (next' (stop.shift t.distance))) :
    t.Turns (o.round c next) (o'.round (c.shift t.distance) next') := by
  cases o with
  | overflow v => exact t.spills h (·.round (c.shift t.distance) next') fun _ => rfl
  | failed log =>
    obtain rfl := h
    simp [Turns, Outcome.round, t.trees_nil]
  | matched stop ts log =>
    obtain rfl := h
    by_cases hlt : c.offset < stop.offset
    · simpa [Outcome.round, hlt] using (hnext stop ts log rfl hlt).after ts log
    · simp [Turns, Outcome.round, hlt, t.trees_nil]

/-- Rounds of a repetition, from places at which something holds that the places behind later rounds
have as well. -/
theorem Turns.iterate {P : Cursor → Prop} {body body' : Bool → Cursor → Outcome}
    (hbody : ∀ lead c, P c → t.Turns (body lead c) (body' lead (c.shift t.distance)))
    (hagain : ∀ {lead c stop ts log}, P c → body lead c = .matched stop ts log →
      c.offset < stop.offset → P stop)
    (ahead : List Char) (lead : Bool) {c : Cursor} (hc : P c) :
    t.Turns (Outcome.iterate body ahead lead c)
      (Outcome.iterate body' ahead lead (c.shift t.distance)) := by
  induction ahead generalizing lead c with
  | nil => exact (hbody lead c hc).round c fun stop _ _ _ _ => t.turns_stay stop
  | cons x ahead ih =>
    exact (hbody lead c hc).round c fun stop ts log ho hlt => ih true (hagain hc ho hlt)

end Transfer

/-! ## Frames -/

/-- A condition on expressions and places that running an expression in a frame hands on to its parts, at
the places where these are run. -/
structure Frame.HandsOn (f : Frame) (ok : Expr → Cursor → Prop) : Prop where
  skip {e c stop ts log} : ok e c → f.skip c = .matched stop ts log → ok e stop
  first {adjacent e terms c} : ok (.sequence (⟨adjacent, e⟩ :: terms)) c → ok e c
  later {adjacent e terms lead c stop ts log} : ok (.sequence (⟨adjacent, e⟩ :: terms)) c →
    e.outcome f lead c = .matched stop ts log → ok (.sequence terms) stop
  alternative {e alternatives c} : ok (.choice (e :: alternatives)) c → ok e c
  others {e alternatives c} : ok (.choice (e :: alternatives)) c → ok (.choice alternatives) c
  round {body c} : ok (.repetition body) c → ok body c
  again {body lead c stop ts log} : ok (.repetition body) c →
    body.outcome f lead c = .matched stop ts log → c.offset < stop.offset → ok (.repetition body) stop
  optional {body c} : ok (.optional body) c → ok body c
  negation {body c} : ok (.negation body) c → ok body c

/-- No condition at all. -/
theorem Frame.handsOn_true (f : Frame) : f.HandsOn fun _ _ => True := by
  constructor <;> intros <;> trivial

namespace Transfer

/-- A frame and what it is turned into where the condition holds. -/
structure Frames (t : Transfer) (ok : Expr → Cursor → Prop) (f f' : Frame) : Prop where
  rule : f'.rule = f.rule.map t.rule
  skip {e c} : ok e c → t.Turns (f.skip c) (f'.skip (c.shift t.distance))
  call {id c} : ok (.rule id) c ∨ ok (.capture id) c →
    t.Turns (f.call id c) (f'.call (t.rule id) (c.shift t.distance))

namespace Frames

variable {t : Transfer} {ok : Expr → Cursor → Prop} {f f' : Frame}

theorem leading (hf : t.Frames ok f f') (hok : f.HandsOn ok) {next next' : Cursor → Outcome} {e : Expr}
    (hnext : ∀ {d}, ok e d → t.Turns (next d) (next' (d.shift t.distance))) (lead : Bool) {c : Cursor}
    (h : ok e c) : t.Turns (f.leading lead c next) (f'.leading lead (c.shift t.distance) next') := by
  cases lead with
  | false => exact hnext h
  | true => exact (hf.skip h).andThen fun stop ts log ho => hnext (hok.skip h ho)

theorem fail (hf : t.Frames ok f f') (c : Cursor) (e : Expectation) :
    t.Turns (f.fail c e) (f'.fail (c.shift t.distance) e) := by
  simp [Turns, Frame.fail, t.miss_mk, hf.rule]

theorem literal (hf : t.Frames ok f f') (text : String) (c : Cursor) :
    t.Turns (f.literal text c) (f'.literal text (c.shift t.distance)) := by
  rw [Frame.literal, Frame.literal, Cursor.dropPrefix?_shift]
  cases c.dropPrefix? text.toList with
  | none => exact hf.fail c _
  | some stop => exact t.turns_stay stop

theorem range (hf : t.Frames ok f f') (low high : Char) (c : Cursor) :
    t.Turns (f.range low high c) (f'.range low high (c.shift t.distance)) := by
  rw [Frame.range, Frame.range, Cursor.next?_shift]
  cases c.next? with
  | none => exact hf.fail c _
  | some next =>
    obtain ⟨x, stop⟩ := next
    dsimp only [Option.map_some]
    split
    · exact t.turns_stay stop
    · exact hf.fail c _

theorem endOfInput (hf : t.Frames ok f f') (c : Cursor) :
    t.Turns (f.endOfInput c) (f'.endOfInput (c.shift t.distance)) := by
  rw [Frame.endOfInput, Frame.endOfInput, Cursor.shift_rest]
  split
  · exact t.turns_stay c
  · exact hf.fail c _

end Frames

end Transfer

section

variable {t : Transfer} {ok : Expr → Cursor → Prop} {f f' : Frame}

mutual

/-- What frames do to each other, expressions do. -/
theorem Expr.outcome_turns (hf : t.Frames ok f f') (hok : f.HandsOn ok) :
    ∀ (e : Expr) (lead : Bool) {c : Cursor}, ok e c →
      t.Turns (e.outcome f lead c) ((e.renumber t.rule).outcome f' lead (c.shift t.distance))
  | .empty, lead, _, h => hf.leading hok (fun _ => t.turns_stay _) lead h
  | .literal text, lead, _, h => hf.leading hok (fun _ => hf.literal text _) lead h
  | .range low high, lead, _, h => hf.leading hok (fun _ => hf.range low high _) lead h
  | .endOfInput, lead, _, h => hf.leading hok (fun _ => hf.endOfInput _) lead h
  | .rule _, lead, _, h => hf.leading hok (fun hd => hf.call (.inl hd)) lead h
  | .capture id, lead, _, h => hf.leading hok (fun hd => (hf.call (.inr hd)).captured id _) lead h
  | .sequence terms, lead, _, h => sequenceOutcome_turns hf hok terms lead h
  | .choice alternatives, lead, _, h => choiceOutcome_turns hf hok alternatives lead h
  | .repetition body, lead, c, h =>
    Transfer.Turns.iterate (P := ok (.repetition body))
      (fun lead _ hc => Expr.outcome_turns hf hok body lead (hok.round hc)) hok.again c.rest lead h
  | .optional body, lead, c, h =>
    (Expr.outcome_turns hf hok body lead (hok.optional h)).orElse (t.turns_stay c)
  | .negation body, _, c, h => (Expr.outcome_turns hf hok body false (hok.negation h)).negated c

theorem sequenceOutcome_turns (hf : t.Frames ok f f') (hok : f.HandsOn ok) :
    ∀ (terms : List Term) (lead : Bool) {c : Cursor}, ok (.sequence terms) c →
      t.Turns (sequenceOutcome f terms lead c)
        (sequenceOutcome f' (renumberTerms t.rule terms) lead (c.shift t.distance))
  | [], _, c, _ => t.turns_stay c
  | ⟨adjacent, e⟩ :: terms, lead, _, h =>
    (Expr.outcome_turns hf hok e (lead && !adjacent) (hok.first h)).andThen fun _ _ _ ho =>
      sequenceOutcome_turns hf hok terms true (hok.later h ho)

theorem choiceOutcome_turns (hf : t.Frames ok f f') (hok : f.HandsOn ok) :
    ∀ (alternatives : List Expr) (lead : Bool) {c : Cursor}, ok (.choice alternatives) c →
      t.Turns (choiceOutcome f alternatives lead c)
        (choiceOutcome f' (renumberAll t.rule alternatives) lead (c.shift t.distance))
  | [], _, _, _ => t.turns_failed_nil
  | e :: alternatives, lead, _, h =>
    (Expr.outcome_turns hf hok e lead (hok.alternative h)).orElse
      (choiceOutcome_turns hf hok alternatives lead (hok.others h))

end

end

/-! ## Rules -/

namespace Grammar

variable {t : Transfer} {g g' : Grammar} {call call' : Mode → RuleId → Cursor → Outcome}

/-- Whatever is called, frames that call what calls are turned into are turned into each other. -/
theorem frames_of_calls {skip skip' : Cursor → Outcome}
    (hskip : ∀ c, t.Turns (skip c) (skip' (c.shift t.distance))) {mode : Mode}
    (hcall : ∀ id c, t.Turns (call mode id c) (call' mode (t.rule id) (c.shift t.distance)))
    (rule : Option RuleId) :
    t.Frames (fun _ _ => True) ⟨rule, skip, call mode⟩ ⟨rule.map t.rule, skip', call' mode⟩ :=
  ⟨rfl, fun {_ c} _ => hskip c, fun {id c} _ => hcall id c⟩

theorem skipOutcome_turns (hskip : g'.skip = g.skip.map (Expr.renumber t.rule))
    (hcall : ∀ mode id c, t.Turns (call mode id c) (call' mode (t.rule id) (c.shift t.distance)))
    (mode : Mode) (c : Cursor) :
    t.Turns (g.skipOutcome call mode c) (g'.skipOutcome call' mode (c.shift t.distance)) := by
  cases mode with
  | skipping => exact t.turns_stay c
  | plain =>
    simp only [skipOutcome, hskip]
    cases g.skip with
    | none => exact t.turns_stay c
    | some body =>
      have hinner := frames_of_calls t.turns_stay (hcall .skipping) none
      have hbody := Expr.outcome_turns hinner (Frame.handsOn_true _) body false (c := c) trivial
      exact (hbody.orElse (t.turns_stay c)).quiet

/-- Calls do what grammars do, if a call for which none is left is given one that the transfer allows. -/
theorem outcome_turns (h : g.RenumberedBy t.rule g') (more : Nat)
    (hspills : ∀ (mode : Mode) (id : RuleId) (c : Cursor),
      t.Spills ⟨c.offset, id⟩ (g'.outcome more mode (t.rule id) (c.shift t.distance)))
    (left : Nat) (mode : Mode) (id : RuleId) (c : Cursor) :
    t.Turns (g.outcome left mode id c)
      (g'.outcome (left + more) mode (t.rule id) (c.shift t.distance)) := by
  induction left generalizing mode id c with
  | zero =>
    rw [Nat.zero_add]
    exact hspills mode id c
  | succ left ih =>
    rw [Nat.succ_add, outcome, outcome]
    cases hr : g.rules[id]? with
    | none =>
      rw [h.missing hr]
      exact t.turns_failed_nil
    | some r =>
      obtain ⟨span, hr'⟩ := h.rule hr
      have hframe := frames_of_calls (skipOutcome_turns h.skip ih mode) (ih mode) (some id)
      rw [hr']
      exact Expr.outcome_turns hframe (Frame.handsOn_true _) r.body false trivial

end Grammar

end PegTree
