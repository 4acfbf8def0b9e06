import PegTree.Proofs.Match.Locality

/-!
# How deep calls are nested

A call is a rule at an offset in a mode.  In a grammar without left recursion every call has a weight
that is larger than that of all calls made by its body: these begin later, or at the same offset with
a rule of lower rank, or belong to the skip rule, and the skip rule never leads back outside itself.

So no call is made while it is active.  `Grammar.watch` is `Grammar.run` with the active calls at hand;
it would raise an alarm at such a call, and it never does (`Grammar.watchOutcome_eq`).  And a call
whose weight is within the limit does not run into it (`Grammar.outcome_safe`).
-/

namespace PegTree

/-! ## Calls and their weight -/

/-- A call of a rule. -/
structure Call where
  mode : Mode
  rule : RuleId
  /-- Where the rule is to match. -/
  offset : Nat
deriving DecidableEq, Repr

/-- The weight of a call in a text of `b` bytes, with `n` rules ranked by `rank`.  Calls outside the
skip rule outweigh all calls inside it that do not begin earlier. -/
def Call.weight (n b : Nat) (rank : RuleId → Nat) (x : Call) : Nat :=
  match x.mode with
  | .skipping => n * (b - x.offset) + rank x.rule + 1
  | .plain => n * (b - x.offset + 1) + rank x.rule + 1

section

variable {n b : Nat} {rank : RuleId → Nat} {mode : Mode} {id next : RuleId} {offset offset' : Nat}

/-- Going down in rank at one place. -/
theorem weight_lt_of_rank (h : rank next < rank id) :
    (Call.mk mode next offset).weight n b rank < (Call.mk mode id offset).weight n b rank := by
  cases mode with
  | plain =>
    show n * (b - offset + 1) + rank next + 1 < n * (b - offset + 1) + rank id + 1
    omega
  | skipping =>
    show n * (b - offset) + rank next + 1 < n * (b - offset) + rank id + 1
    omega

/-- Going on in the text, to a rule of any rank. -/
theorem weight_lt_of_offset (hnext : rank next < n) (hlt : offset < offset') (hle : offset' ≤ b) :
    (Call.mk mode next offset').weight n b rank < (Call.mk mode id offset).weight n b rank := by
  -- a later offset takes off a whole round of ranks
  have hmul : n * (b - offset') + n ≤ n * (b - offset) := by
    rw [← Nat.mul_succ]
    exact Nat.mul_le_mul_left n (by omega)
  cases mode with
  | plain =>
    show n * (b - offset' + 1) + rank next + 1 < n * (b - offset + 1) + rank id + 1
    rw [Nat.mul_succ, Nat.mul_succ]
    omega
  | skipping =>
    show n * (b - offset') + rank next + 1 < n * (b - offset) + rank id + 1
    omega

/-- Going into the skip rule. -/
theorem weight_lt_of_skipping (hnext : rank next < n) (hle : offset ≤ offset') :
    (Call.mk .skipping next offset').weight n b rank < (Call.mk .plain id offset).weight n b rank := by
  have hmul : n * (b - offset') ≤ n * (b - offset) := Nat.mul_le_mul_left n (by omega)
  show n * (b - offset') + rank next + 1 < n * (b - offset + 1) + rank id + 1
  rw [Nat.mul_succ]
  omega

/-- No call weighs more. -/
theorem weight_le (hid : rank id < n) :
    (Call.mk mode id offset).weight n b rank ≤ n * (b + 2) := by
  have hmul : n * (b - offset) ≤ n * b := Nat.mul_le_mul_left n (by omega)
  have htwo : n * (b + 2) = n * b + n + n := by rw [Nat.mul_succ, Nat.mul_succ]
  rw [htwo]
  cases mode with
  | plain =>
    show n * (b - offset + 1) + rank id + 1 ≤ n * b + n + n
    rw [Nat.mul_succ]
    omega
  | skipping =>
    show n * (b - offset) + rank id + 1 ≤ n * b + n + n
    omega

end

/-! ## Watching the active calls -/

/-- The mode that a matcher is in. -/
def Matcher.mode (m : Matcher) : Mode :=
  if m.skipping then .skipping else .plain

namespace Grammar

/-- Calls a rule as `Grammar.run` does, given the calls that are active, the innermost first.  If the
call is one of them, it ends early with `alarm`. -/
def watch (g : Grammar) (alarm : Overflow) : Nat → List Call → RuleId → Cursor → Matching (Option Cursor)
  | 0, _, id, c => Matching.overflow ⟨c.offset, id⟩
  | left + 1, active, id, c => do
    let call : Call := ⟨(← getThe Matcher).mode, id, c.offset⟩
    if call ∈ active then Matching.overflow alarm
    else
      match g.rules[id]? with
      | none => return none
      | some r =>
        Matching.between (.enterRule id) .leaveRule
          (r.body.eval (g.surroundings (g.watch alarm left (call :: active))) false c)

/-- What comes of calling a rule and watching the active calls. -/
def watchOutcome (g : Grammar) (alarm : Overflow) :
    Nat → List Call → Mode → RuleId → Cursor → Outcome
  | 0, _, _, id, c => .overflow ⟨c.offset, id⟩
  | left + 1, active, mode, id, c =>
    let call : Call := ⟨mode, id, c.offset⟩
    if call ∈ active then .overflow alarm
    else
      match g.rules[id]? with
      | none => .failed []
      | some r =>
        r.body.outcome (g.frame (g.watchOutcome alarm left (call :: active)) mode (some id)) false c

/-- Watching does what its outcome says. -/
theorem watch_follows (g : Grammar) (alarm : Overflow) (left : Nat) (active : List Call) (f : Frame)
    (mode : Mode) (id : RuleId) (c : Cursor) :
    Follows f mode (g.watch alarm left active id c) (g.watchOutcome alarm left active mode id c) := by
  intro m hm out
  induction left generalizing active f mode id c m out with
  | zero => simp [watch, watchOutcome, Outcome.Shown]
  | succ left ih =>
    have hmode : m.mode = mode := by
      cases mode <;> simp [Matcher.mode, hm.skipping]
    rw [watch, watchOutcome, Matching.runOn_bind_ok Matching.runOn_getMatcher, hmode]
    by_cases hin : (⟨mode, id, c.offset⟩ : Call) ∈ active
    · simp [hin, Outcome.Shown]
    · simp only [hin, if_false]
      cases hr : g.rules[id]? with
      | none => simp [Outcome.Shown]
      | some r =>
        exact between_follows (fun f mode id c m hm out => ih _ f mode id c m hm out) f mode id
          r.body c m hm out

/-! ## Bodies only make lighter calls -/

/-- Rules end as the grammar says wherever calling them ends. -/
def CallsSound (g : Grammar) (call : Mode → RuleId → Cursor → Outcome) : Prop :=
  ∀ ⦃mode id c v⦄, id < g.size → (call mode id c).verdict? = some v →
    Matches g mode false (.rule id) c v

section

variable {g : Grammar} {rank : RuleId → Nat} {call call' : Mode → RuleId → Cursor → Outcome}

/-- The skip rule depends on the calls inside it from its place on. -/
theorem skipOutcome_congr (hg : g.Resolved) (hcall : g.CallsSound call) {c : Cursor}
    (hagree : ∀ id < g.size, ∀ d, c.Reaches d → call .skipping id d = call' .skipping id d)
    (mode : Mode) : g.skipOutcome call mode c = g.skipOutcome call' mode c := by
  cases mode with
  | skipping => rfl
  | plain =>
    cases hskip : g.skip with
    | none => simp only [skipOutcome, hskip]
    | some body =>
      have hbody : body.Within g.size := hg body (skip_mem_bodies hskip)
      have hsound : Frame.Sound g ⟨none, .stay, call .skipping⟩ .skipping :=
        ⟨fun h => ⟨_, _, (Option.some.inj h).symm, .inl ⟨.inl rfl, rfl, rfl⟩⟩, @hcall .skipping⟩
      have hinner : Frame.Agree g.size ⟨none, .stay, call .skipping⟩ ⟨none, .stay, call' .skipping⟩ c
          (body.leadingCalls g.nullableTable.knows) :=
        ⟨rfl, fun _ _ => rfl, fun id hid => hagree id (hbody.leading _ id hid) c (.refl c),
          fun id hid d hd _ => hagree id hid d hd⟩
      have heq : body.outcome ⟨none, .stay, call .skipping⟩ false c =
          body.outcome ⟨none, .stay, call' .skipping⟩ false c :=
        Expr.outcome_congr hsound g.nullableTable_closed body hbody hinner
      simp only [skipOutcome, hskip, heq]

/-- The body of a rule depends on lighter calls only. -/
theorem body_congr (hg : g.Resolved) (hrank : g.Ranked rank) (hcall : g.CallsSound call)
    {text : List Char} {mode : Mode} {id : RuleId} {r : Rule} {c : Cursor}
    (hr : g.rules[id]? = some r) (hc : c.On text)
    (hagree : ∀ (mode' : Mode) (next : RuleId) (d : Cursor), next < g.size → d.On text →
      (Call.mk mode' next d.offset).weight g.size (utf8Width text) rank <
        (Call.mk mode id c.offset).weight g.size (utf8Width text) rank →
      call mode' next d = call' mode' next d) :
    r.body.outcome (g.frame call mode (some id)) false c =
      r.body.outcome (g.frame call' mode (some id)) false c := by
  -- three kinds of calls: by the skip rule, at this place and further on
  refine Expr.outcome_congr (frame_sound hg @hcall mode _) g.nullableTable_closed r.body
    (hg _ (body_mem_bodies hr)) ⟨rfl, fun d hd => ?_, fun next hnext => ?_, fun next hnext d hd hlt => ?_⟩
  · cases mode with
    | skipping => rfl
    | plain =>
      apply skipOutcome_congr hg hcall
      intro next hnext e he
      exact hagree _ _ _ hnext ((hc.trans hd).trans he)
        (weight_lt_of_skipping (hrank.lt_size next hnext) (hd.trans he).offset_le)
  · have hlt : next < g.size := (hg _ (body_mem_bodies hr)).leading _ next hnext
    exact hagree _ _ _ hlt hc (weight_lt_of_rank (hrank.leading id r hr next hnext))
  · have hon := hc.trans hd
    exact hagree _ _ _ hnext hon (weight_lt_of_offset (hrank.lt_size next hnext) hlt hon.offset_le)

/-- The skip rule only overflows where a call does. -/
theorem frame_safe (hcall : ∀ mode id c, (call mode id c).Safe) (mode : Mode)
    (rule : Option RuleId) : (g.frame call mode rule).Safe :=
  ⟨skipOutcome_safe hcall mode, hcall mode⟩

end

/-! ## Within the limit -/

section

variable {g : Grammar} {rank : RuleId → Nat}

theorem outcome_sound (hg : g.Resolved) (left : Nat) : g.CallsSound (g.outcome left) :=
  fun _ _ _ _ hid h => outcome_matches hg left hid h

/-- No active call is made again, so there is no alarm. -/
theorem watchOutcome_eq (hg : g.Resolved) (hrank : g.Ranked rank) (alarm : Overflow) (left : Nat)
    {text : List Char} {active : List Call} {mode : Mode} {id : RuleId} {c : Cursor} (hc : c.On text)
    (hid : id < g.size)
    (hactive : ∀ x ∈ active, (Call.mk mode id c.offset).weight g.size (utf8Width text) rank <
      x.weight g.size (utf8Width text) rank) :
    g.watchOutcome alarm left active mode id c = g.outcome left mode id c := by
  -- every call that the body makes is lighter than this one, and so than all that are active then
  induction left generalizing active mode id c with
  | zero => rfl
  | succ left ih =>
    have hfresh : (Call.mk mode id c.offset) ∉ active := fun hin => Nat.lt_irrefl _ (hactive _ hin)
    obtain ⟨r, hr⟩ := exists_rule hid
    simp only [watchOutcome, outcome, hfresh, if_false, hr]
    symm
    apply body_congr hg hrank (outcome_sound hg left) hr hc
    intro mode' next d hnext hd hlt
    symm
    apply ih hd hnext
    intro x hx
    rcases List.mem_cons.mp hx with rfl | hx
    · exact hlt
    · exact Nat.lt_trans hlt (hactive x hx)

/-- A call that weighs no more than there are calls left does not overflow. -/
theorem outcome_safe (hg : g.Resolved) (hrank : g.Ranked rank) (left : Nat) {text : List Char}
    {mode : Mode} {id : RuleId} {c : Cursor} (hc : c.On text) (hid : id < g.size)
    (hleft : (Call.mk mode id c.offset).weight g.size (utf8Width text) rank ≤ left) :
    (g.outcome left mode id c).Safe := by
  induction left generalizing mode id c with
  | zero => cases mode <;> simp [Call.weight] at hleft
  | succ left ih =>
    obtain ⟨r, hr⟩ := exists_rule hid
    simp only [outcome, hr]
    -- lighter calls do not overflow, so they may as well be tamed
    have htame : r.body.outcome (g.frame (g.outcome left) mode (some id)) false c =
        r.body.outcome (g.frame (fun mode id d => (g.outcome left mode id d).tame) mode (some id))
          false c :=
      body_congr hg hrank (outcome_sound hg left) hr hc fun mode' next d hnext hd hlt =>
        (ih hd hnext (by omega)).tame_eq.symm
    rw [htame]
    exact Expr.outcome_safe (frame_safe (fun _ _ _ => Outcome.safe_tame _) mode _) _ false c

end

end Grammar

end PegTree
