import PegTree.Proofs.Match.Depth
import PegTree.Proofs.Parser.Build
import PegTree.Proofs.Parser.Transfer

/-!
# Parses come to an end

The check for left recursion is all that it takes: no rule is called at an offset at which it is active
already in the same mode, and therefore a limit that grows with the number of rules and the length of
the text is never hit (`parse_terminates`).
-/

namespace PegTree

namespace Parser

variable {p : Parser} {call call' : Mode → RuleId → Cursor → Outcome} {text : List Char}

theorem entriesOutcome_congr {start : Cursor} {entries : List RuleId}
    (h : ∀ entry ∈ entries, p.entryOutcome call start entry = p.entryOutcome call' start entry) :
    p.entriesOutcome call start entries = p.entriesOutcome call' start entries := by
  induction entries with
  | nil => rfl
  | cons entry more ih =>
    rw [entriesOutcome, entriesOutcome, h entry List.mem_cons_self,
      ih fun entry hin => h entry (List.mem_cons_of_mem _ hin)]

/-- A parse depends on calls in its text only. -/
theorem textOutcome_congr (hg : p.grammar.Resolved) (hcall : p.grammar.CallsSound call)
    (hentries : ∀ entry ∈ p.entries, entry < p.grammar.size)
    (hagree : ∀ (mode : Mode) (id : RuleId) (d : Cursor), id < p.grammar.size → d.On text →
      call mode id d = call' mode id d) :
    p.textOutcome call text = p.textOutcome call' text := by
  apply entriesOutcome_congr
  intro entry hin
  simp only [entryOutcome, ← hagree .plain entry _ (hentries entry hin) (.start text)]
  split
  · apply Outcome.andThen_congr
    intro stop ts log ho
    have hon : stop.On text := by
      cases hfound : call .plain entry (.start text) with
      | overflow o | failed log => simp [hfound, Outcome.captured] at ho
      | matched stop' captures log =>
        simp only [hfound, Outcome.captured, Outcome.matched.injEq] at ho
        obtain ⟨rfl, -, -⟩ := ho
        have hverdict : (call .plain entry (.start text)).verdict? = some (.hit stop' captures) := by
          rw [hfound]
          rfl
        exact (hcall (hentries entry hin) hverdict).reaches
    have hskip := Grammar.skipOutcome_congr (c := stop) hg hcall
      (fun id hid d hd => hagree .skipping id d hid (hon.trans hd)) .plain
    simp only [endOutcome, hskip]
  · rfl

/-- A parse only overflows where a call does. -/
theorem textOutcome_safe (hcall : ∀ mode id c, (call mode id c).Safe) (text : List Char) :
    (p.textOutcome call text).Safe := by
  have hturns : Transfer.unspilled.Turns (p.textOutcome call text) (p.textOutcome call text) :=
    textOutcome_turns rfl rfl p.grammar.renumberedBy_id.skip (List.map_id _).symm
      (fun mode id c => (hcall mode id c).turns) text
  exact (Transfer.unspilled_turns_iff.mp hturns).1

end Parser

/-- Every parse of a built parser keeps its active calls apart: a parse that watches them, and would
answer with any alarm as soon as a rule is called at an offset at which it is active in the same mode,
answers the same.  Hence with `n` rules and a text of `b` bytes a limit of `n * (b + 2)` is not hit, and
the parse ends with a tree or with the report of what is unexpected. -/
theorem parse_terminates {b : Builder} {p : Parser} (hp : b.build = .ok p) (source : Source) :
    (∀ alarm, p.parseWith (p.grammar.watch alarm p.maxDepth []) source = p.parse source) ∧
      (p.grammar.size * (utf8Width source.text.toList + 2) ≤ p.maxDepth →
        (∃ t, p.parse source = .ok t) ∨
          ∃ furthest, p.parse source = .error (p.unexpected source furthest)) := by
  obtain ⟨hcompile, -, hresolve, -⟩ := Builder.build_eq_ok hp
  have hg := Grammar.resolved_of_compile hcompile
  have hentries := Builder.lt_of_resolveEntries hresolve
  obtain ⟨rank, hrank⟩ := Grammar.exists_ranked hg (Grammar.firstCycle?_of_compile hcompile)
  have hsound := Grammar.outcome_sound hg p.maxDepth
  constructor
  · -- calls of entries have no active ones around them
    intro alarm
    have heq : p.textOutcome (p.grammar.outcome p.maxDepth) source.text.toList =
        p.textOutcome (p.grammar.watchOutcome alarm p.maxDepth []) source.text.toList :=
      Parser.textOutcome_congr hg hsound hentries fun mode id d hid hd =>
        (Grammar.watchOutcome_eq hg hrank alarm _ hd hid (by simp)).symm
    have hwatch := p.parseWith_eq (p.grammar.watch_follows alarm p.maxDepth []) source
    rw [← heq] at hwatch
    exact hwatch.unique (p.parse_eq source)
  · -- within the limit no call overflows, so taming them changes nothing
    intro hlimit
    have heq : p.textOutcome (p.grammar.outcome p.maxDepth) source.text.toList =
        p.textOutcome (fun mode id c => (p.grammar.outcome p.maxDepth mode id c).tame)
          source.text.toList :=
      Parser.textOutcome_congr hg hsound hentries fun mode id d hid hd =>
        (Grammar.outcome_safe hg hrank _ hd hid
          (Nat.le_trans (weight_le (hrank.lt_size id hid)) hlimit)).tame_eq.symm
    have hsafe : (p.textOutcome (p.grammar.outcome p.maxDepth) source.text.toList).Safe := by
      rw [heq]
      exact Parser.textOutcome_safe (fun _ _ _ => Outcome.safe_tame _) _
    have hanswer := p.parse_eq source
    cases ho : p.textOutcome (p.grammar.outcome p.maxDepth) source.text.toList with
    | overflow o => exact absurd (ho ▸ hsafe) (Outcome.not_safe_overflow o)
    | failed log =>
      rw [ho] at hanswer
      exact .inr ⟨_, hanswer⟩
    | matched stop ts log =>
      rw [ho] at hanswer
      obtain ⟨t, -, ht⟩ := hanswer
      exact .inl ⟨t, ht⟩

/-- Two rules and three bytes are well within the usual limit. -/
theorem parse_terminates_pair :
    (∀ alarm, pairParser.parseWith (pairParser.grammar.watch alarm pairParser.maxDepth [])
        ⟨"input", "b y"⟩ = pairParser.parse ⟨"input", "b y"⟩) ∧
      ((∃ t, pairParser.parse ⟨"input", "b y"⟩ = .ok t) ∨
        ∃ furthest, pairParser.parse ⟨"input", "b y"⟩ =
          .error (pairParser.unexpected ⟨"input", "b y"⟩ furthest)) := by
  have h := parse_terminates build_pairBuilder ⟨"input", "b y"⟩
  exact ⟨h.1, h.2 (by decide +kernel)⟩

end PegTree
