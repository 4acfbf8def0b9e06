import PegTree.Proofs.Match.Fuel
import PegTree.Proofs.Parser.Build
import PegTree.Proofs.Parser.Transfer
import PegTree.Proofs.Tree.Equality

/-!
# The limit only cuts off

How deep calls may be nested never decides what a parse answers, only whether it answers.  With a higher
limit every call that has not run into the lower one gives the same, wherever it was made: in a lookahead,
in an option, in an alternative, in a round of a repetition, in the skip rule or behind an entry that has
to match the whole text.  So of two limits the lower one either is exceeded or leads to the very answer
of the higher one (`parse_same_or_exceeds`).
-/

namespace PegTree

namespace Parser

/-- The same parser with another limit. -/
def withLimit (p : Parser) (limit : Nat) : Parser :=
  { p with maxDepth := limit }

section

variable (p : Parser)

/-- With a higher limit a text comes to the same, unless it runs into the lower one. -/
theorem textOutcome_kept {limit higher : Nat} (h : limit ≤ higher) (text : List Char) :
    (p.textOutcome (p.grammar.outcome limit) text).KeptBy
      (p.textOutcome (p.grammar.outcome higher) text) := by
  have hcall : ∀ mode id c, Transfer.spared.Turns (p.grammar.outcome limit mode id c)
      (p.grammar.outcome higher mode id c) := fun mode id c =>
    Transfer.spared_turns_iff.mpr (p.grammar.outcome_kept h mode id c)
  exact Transfer.spared_turns_iff.mp
    (textOutcome_turns rfl rfl p.grammar.renumberedBy_id.skip (List.map_id _).symm hcall text)

/-- A parse with another limit answers what comes of calls within that limit. -/
theorem parse_withLimit (limit : Nat) (source : Source) :
    (p.withLimit limit).Answers source
      (p.textOutcome (p.grammar.outcome limit) source.text.toList)
      ((p.withLimit limit).parse source) := by
  -- neither the entries nor what is required behind them asks for the limit
  have hentries : ∀ call start entries,
      (p.withLimit limit).entriesOutcome call start entries = p.entriesOutcome call start entries := by
    intro call start entries
    induction entries with
    | nil => rfl
    | cons entry more ih =>
      rw [entriesOutcome, ih]
      rfl
  have h := (p.withLimit limit).parse_eq source
  rw [textOutcome, hentries] at h
  exact h

end

variable {p : Parser} {source : Source} {o : Outcome}

/-- An answer that is no overflow is the answer of every limit. -/
theorem Answers.withLimit {limit higher : Nat} {answer : Except ParseError Tree} (hsafe : o.Safe)
    (h : (p.withLimit limit).Answers source o answer) : (p.withLimit higher).Answers source o answer := by
  cases o with
  | overflow v => exact absurd hsafe (Outcome.not_safe_overflow v)
  | failed log | matched stop ts log => exact h

/-- Only an overflow is answered by a report of the limit. -/
theorem Answers.not_safe {reported : Source} {limit : Nat} {rule : String} {spot : Spot}
    (h : p.Answers source o (.error (.recursionLimit reported limit rule spot))) : ¬ o.Safe := by
  intro hsafe
  cases o with
  | overflow v => exact Outcome.not_safe_overflow v hsafe
  | failed log => simp [Answers, unexpected] at h
  | matched stop ts log => simp [Answers] at h

/-- An overflow is answered by a report of the limit that was set. -/
theorem Answers.exceeds {answer : Except ParseError Tree} (h : p.Answers source o answer)
    (hsafe : ¬ o.Safe) :
    ∃ rule spot, answer = .error (.recursionLimit source p.maxDepth rule spot) := by
  cases o with
  | overflow v => exact ⟨_, _, h⟩
  | failed log => exact absurd (Outcome.safe_failed log) hsafe
  | matched stop ts log => exact absurd (Outcome.safe_matched stop ts log) hsafe

end Parser

/-- Of two limits the lower one is exceeded, and the parse says so, or it gives the answer of the higher
one: the same tree, or the same report in all its parts.  Where the higher limit is exceeded, the lower
one is. -/
theorem parse_same_or_exceeds (p : Parser) (source : Source) {limit higher : Nat}
    (h : limit ≤ higher) :
    ((∃ rule spot, (p.withLimit limit).parse source =
        .error (.recursionLimit source limit rule spot)) ∨
      (p.withLimit limit).parse source = (p.withLimit higher).parse source) ∧
    ∀ reported bound rule spot, (p.withLimit higher).parse source =
        .error (.recursionLimit reported bound rule spot) →
      ∃ rule spot, (p.withLimit limit).parse source =
        .error (.recursionLimit source limit rule spot) := by
  have hlow := p.parse_withLimit limit source
  have hhigh := p.parse_withLimit higher source
  have hkept := p.textOutcome_kept h source.text.toList
  by_cases hsafe : (p.textOutcome (p.grammar.outcome limit) source.text.toList).Safe
  · -- the outcome is that of the higher limit, and it is no overflow
    rw [hkept hsafe] at hhigh
    refine ⟨.inr ((hlow.withLimit hsafe).unique hhigh), fun reported bound rule spot hdeep => ?_⟩
    rw [hdeep] at hhigh
    exact absurd hsafe hhigh.not_safe
  · have hexceeds := hlow.exceeds hsafe
    exact ⟨.inl hexceeds, fun _ _ _ _ _ => hexceeds⟩

/-- Two nested calls are enough for `b y`; one is not. -/
theorem parse_same_or_exceeds_pair :
    (∃ rule spot, (pairParser.withLimit 1).parse ⟨"input", "b y"⟩ =
        .error (.recursionLimit ⟨"input", "b y"⟩ 1 rule spot)) ∧
      (pairParser.withLimit 2).parse ⟨"input", "b y"⟩ =
        (pairParser.withLimit 128).parse ⟨"input", "b y"⟩ := by
  have hone := (parse_same_or_exceeds pairParser ⟨"input", "b y"⟩ (by decide : 1 ≤ 128)).1
  have htwo := (parse_same_or_exceeds pairParser ⟨"input", "b y"⟩ (by decide : 2 ≤ 128)).1
  refine ⟨hone.resolve_right (by decide +kernel), htwo.resolve_left ?_⟩
  rintro ⟨rule, location, hexceeds⟩
  exact ne_error_of_isOk (by decide +kernel) _ hexceeds

end PegTree
