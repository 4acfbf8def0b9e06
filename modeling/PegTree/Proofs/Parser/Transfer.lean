import PegTree.Proofs.Match.Transfer
import PegTree.Proofs.Parser.Outcome

/-!
# From one parse to another

What is done to the calls of a parser by a transfer is done to its entries, tried one after the other,
with the end required behind them or not, and so to texts (`Parser.textOutcome_turns`).
-/

namespace PegTree

namespace Parser

variable {t : Transfer} {p p' : Parser} {call call' : Mode → RuleId → Cursor → Outcome}

theorem endOutcome_turns {stop : Cursor}
    (hskip : t.Turns (p.grammar.skipOutcome call .plain stop)
      (p'.grammar.skipOutcome call' .plain (stop.shift t.distance))) :
    t.Turns (p.endOutcome call stop) (p'.endOutcome call' (stop.shift t.distance)) := by
  unfold endOutcome
  -- whatever is skipped in the second parse: an overflow of the first says nothing more about it
  generalize p'.grammar.skipOutcome call' .plain (stop.shift t.distance) = skipped at hskip ⊢
  cases ho : p.grammar.skipOutcome call .plain stop with
  | overflow v =>
    rw [ho] at hskip
    have hpassed := t.spills (show t.Spills v skipped from hskip)
    apply hpassed
    exact fun _ => rfl
  | failed log =>
    rw [ho] at hskip
    obtain rfl := hskip
    exact rfl
  | matched rest ts log =>
    rw [ho] at hskip
    obtain rfl := hskip
    dsimp only
    rw [Cursor.shift_rest]
    split
    · exact t.turns_stay stop
    · simp [Transfer.Turns, t.miss_mk]

theorem entryOutcome_turns (hfull : p'.full = p.full)
    (hskip : p'.grammar.skip = p.grammar.skip.map (Expr.renumber t.rule))
    (hcall : ∀ mode id c, t.Turns (call mode id c) (call' mode (t.rule id) (c.shift t.distance)))
    (start : Cursor) (entry : RuleId) :
    t.Turns (p.entryOutcome call start entry)
      (p'.entryOutcome call' (start.shift t.distance) (t.rule entry)) := by
  have hfound := (hcall .plain entry start).captured entry start
  unfold entryOutcome
  rw [hfull]
  split
  · exact hfound.andThen fun stop _ _ _ =>
      endOutcome_turns (Grammar.skipOutcome_turns hskip hcall .plain stop)
  · exact hfound

/-- What is done to calls is done to entries. -/
theorem entriesOutcome_turns (hfull : p'.full = p.full)
    (hskip : p'.grammar.skip = p.grammar.skip.map (Expr.renumber t.rule))
    (hcall : ∀ mode id c, t.Turns (call mode id c) (call' mode (t.rule id) (c.shift t.distance)))
    (start : Cursor) (entries : List RuleId) :
    t.Turns (p.entriesOutcome call start entries)
      (p'.entriesOutcome call' (start.shift t.distance) (entries.map t.rule)) := by
  induction entries with
  | nil => exact t.turns_failed_nil
  | cons entry more ih => exact (entryOutcome_turns hfull hskip hcall start entry).orElse ih

/-- What is done to calls is done to texts, if nothing is further on. -/
theorem textOutcome_turns (hdistance : t.distance = 0) (hfull : p'.full = p.full)
    (hskip : p'.grammar.skip = p.grammar.skip.map (Expr.renumber t.rule))
    (hentries : p'.entries = p.entries.map t.rule)
    (hcall : ∀ mode id c, t.Turns (call mode id c) (call' mode (t.rule id) (c.shift t.distance)))
    (text : List Char) : t.Turns (p.textOutcome call text) (p'.textOutcome call' text) := by
  have hturns := entriesOutcome_turns hfull hskip hcall (.start text) p.entries
  have hstart : (Cursor.start text).shift t.distance = .start text := by
    rw [hdistance]
    rfl
  rwa [hstart, ← hentries] at hturns

end Parser

end PegTree
