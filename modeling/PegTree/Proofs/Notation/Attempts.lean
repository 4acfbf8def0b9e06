import PegTree.Proofs.Match.Invariant
import PegTree.Proofs.Notation.Places

/-!
# Where a text is unreadable

The attempts that are reported for an unreadable text were made at one place of it: the offset in the
report cuts no character (`boundary_of_unreadable`).

Readers keep to their text (`Reader.KeepsTo`).  They start at a place of it, stop at one, and note what
they tried in vain at one.  What a reader takes is followed by `May` already, so only the notes are new
here: a reader that notes nothing keeps to the text because it only moves ahead, and the others are put
together of such readers by binding, choosing, repeating and labelling.
-/

namespace PegTree

/-- A failure is noted where it happened, or not at all. -/
theorem Attempts.boundary_fail {text : List Char} {a : Attempts} {offset : Nat}
    (ha : Boundary text a.offset) (hoffset : Boundary text offset) (part : Part) (before : Nat) :
    Boundary text (a.fail part offset before).offset := by
  unfold Attempts.fail
  split_ifs
  · exact ha
  · exact hoffset
  · exact hoffset
  · exact ha

namespace Reader

variable {α β : Type} {r s : Reader α} {f : α → Reader β} {body : List Char}

/-! ## Readers that note nothing -/

/-- The reader leaves the record of attempts alone. -/
def Silent (r : Reader α) : Prop :=
  ∀ c attempts, ((r c).run.run attempts).2 = attempts

theorem silent_pure (x : α) : Silent (pure x) :=
  fun _ _ => rfl

theorem silent_failure : Silent (failure : Reader α) :=
  fun _ _ => rfl

theorem silent_get : Silent (get : Reader Cursor) :=
  fun _ _ => rfl

theorem silent_set (c : Cursor) : Silent (set c : Reader PUnit) :=
  fun _ _ => rfl

theorem Silent.bind (hr : Silent r) (hf : ∀ x, Silent (f x)) : Silent (r >>= f) := by
  intro c attempts
  have hsame := hr c attempts
  rw [run_bind]
  rcases hrun : (r c).run.run attempts with ⟨_ | ⟨x, d⟩, attempts'⟩ <;> rw [hrun] at hsame
  · exact hsame
  · exact (hf x d attempts').trans hsame

theorem silent_text (t : List Char) : Silent (text t) := by
  refine silent_get.bind fun c => ?_
  split
  · exact silent_set _
  · exact silent_failure

theorem silent_longest (kind : Char → Bool) : Silent (longest kind) :=
  silent_get.bind fun _ => (silent_set _).bind fun _ => silent_pure _

theorem silent_exactly (n : Nat) (kind : Char → Bool) : Silent (exactly n kind) := by
  refine silent_get.bind fun c => ?_
  simp only
  split
  · exact (silent_set _).bind fun _ => silent_pure _
  · exact silent_failure

/-! ## Keeping to a text -/

/-- Started at a place of the text, the reader stops at one, and what it notes is noted at one. -/
def KeepsTo (body : List Char) (r : Reader α) : Prop :=
  ∀ ⦃c attempts⦄, c.On body → Boundary body attempts.offset →
    Boundary body ((r c).run.run attempts).2.offset ∧
      ∀ x d, ((r c).run.run attempts).1 = some (x, d) → d.On body

/-- Moving ahead without a note keeps to the text. -/
theorem Silent.keepsTo (hr : Silent r) (hahead : ∀ ⦃c d x⦄, r.May c x d → c.Reaches d) :
    r.KeepsTo body := by
  intro c attempts hc hattempts
  refine ⟨?_, fun x d hrun => hc.trans (hahead ⟨attempts, hrun⟩)⟩
  rw [hr c attempts]
  exact hattempts

theorem keepsTo_pure (x : α) : (pure x : Reader α).KeepsTo body := by
  refine (silent_pure x).keepsTo fun c d y h => ?_
  obtain ⟨-, rfl⟩ := h.of_pure
  exact .refl _

theorem keepsTo_failure : (failure : Reader α).KeepsTo body :=
  silent_failure.keepsTo fun _ _ _ h => h.of_failure.elim

theorem keepsTo_get : (get : Reader Cursor).KeepsTo body := by
  refine silent_get.keepsTo fun c d x h => ?_
  obtain ⟨-, rfl⟩ := h.of_get
  exact .refl _

theorem keepsTo_blanks : blanks.KeepsTo body := by
  have hsilent : Silent blanks := fun _ _ => rfl
  refine hsilent.keepsTo fun c d x h => ?_
  obtain rfl := h.of_blanks
  exact reaches_skipBlanks c

theorem keepsTo_text (t : List Char) : (text t).KeepsTo body :=
  (silent_text t).keepsTo fun _ _ _ h => h.reaches_text

theorem keepsTo_longest (kind : Char → Bool) : (longest kind).KeepsTo body :=
  (silent_longest kind).keepsTo fun _ _ _ h => ⟨_, h.of_longest.1⟩

theorem keepsTo_exactly (n : Nat) (kind : Char → Bool) : (exactly n kind).KeepsTo body :=
  (silent_exactly n kind).keepsTo fun _ _ _ h => ⟨_, h.of_exactly.1⟩

theorem KeepsTo.bind (hr : r.KeepsTo body) (hf : ∀ x, (f x).KeepsTo body) :
    (r >>= f).KeepsTo body := by
  intro c attempts hc hattempts
  obtain ⟨hnoted, hstop⟩ := hr hc hattempts
  rw [run_bind]
  rcases hrun : (r c).run.run attempts with ⟨_ | ⟨x, d⟩, attempts'⟩ <;> rw [hrun] at hnoted hstop
  · exact ⟨hnoted, fun _ _ h => nomatch h⟩
  · exact hf x (hstop x d rfl) hnoted

theorem KeepsTo.map (hr : r.KeepsTo body) (g : α → β) : (g <$> r).KeepsTo body := by
  rw [map_eq_pure_bind]
  exact hr.bind fun _ => keepsTo_pure _

/-- The second reader goes on with the notes of the first, where that one began. -/
theorem KeepsTo.orElse (hr : r.KeepsTo body) (hs : s.KeepsTo body) : (r <|> s).KeepsTo body := by
  intro c attempts hc hattempts
  obtain ⟨hnoted, hstop⟩ := hr hc hattempts
  rw [run_orElse]
  rcases hrun : (r c).run.run attempts with ⟨_ | ⟨x, d⟩, attempts'⟩ <;> rw [hrun] at hnoted hstop
  · exact hs hc hnoted
  · exact ⟨hnoted, hstop⟩

/-- The record that a labelled reader leaves. -/
theorem attempts_labelled (part : Part) (r : Reader α) (c : Cursor) (attempts : Attempts) :
    ((labelled part r c).run.run attempts).2 =
      match (r c).run.run attempts with
      | (some _, after) => after
      | (none, after) => after.fail part c.offset (attempts.countAt c.offset) := by
  rw [labelled, OptionT.run_mk, StateT.run_bind]
  show (StateT.run ((r c).run >>= _) attempts).2 = _
  rw [StateT.run_bind]
  rcases (r c).run.run attempts with ⟨_ | ⟨x, d⟩, attempts'⟩ <;> rfl

theorem KeepsTo.labelled (hr : r.KeepsTo body) (part : Part) : (labelled part r).KeepsTo body := by
  intro c attempts hc hattempts
  obtain ⟨hnoted, hstop⟩ := hr hc hattempts
  refine ⟨?_, fun x d hrun => hstop x d (run_labelled part r c attempts ▸ hrun)⟩
  rw [attempts_labelled]
  rcases hrun : (r c).run.run attempts with ⟨_ | answer, attempts'⟩ <;> rw [hrun] at hnoted
  · exact Attempts.boundary_fail hnoted hc.boundary part _
  · exact hnoted

theorem KeepsTo.spanned (hr : r.KeepsTo body) : (spanned r).KeepsTo body :=
  keepsTo_get.bind fun _ => hr.bind fun _ => keepsTo_get.bind fun _ => keepsTo_pure _

theorem KeepsTo.optionally (hr : r.KeepsTo body) : (optionally r).KeepsTo body :=
  (hr.map some).orElse (keepsTo_pure none)

theorem KeepsTo.behind (hr : r.KeepsTo body) (sign : List Char) :
    (do text sign; blanks; r : Reader α).KeepsTo body :=
  (keepsTo_text sign).bind fun _ => keepsTo_blanks.bind fun _ => hr

/-- A repetition, by induction on how many rounds are left. -/
theorem KeepsTo.repeatAtMost (hr : r.KeepsTo body) (n : Nat) : (repeatAtMost r n).KeepsTo body := by
  induction n with
  | zero => exact keepsTo_pure []
  | succ n ih =>
    apply KeepsTo.orElse
    · exact keepsTo_blanks.bind fun _ => hr.bind fun _ => ih.bind fun _ => keepsTo_pure _
    · exact keepsTo_pure []

theorem KeepsTo.many (hr : r.KeepsTo body) : (many r).KeepsTo body :=
  keepsTo_get.bind fun _ => hr.repeatAtMost _

/-! ## The readers of the notation -/

theorem keepsTo_name : name.KeepsTo body := by
  apply KeepsTo.labelled
  refine (KeepsTo.spanned ?_).bind fun _ => keepsTo_pure _
  exact (keepsTo_exactly 1 beginsName).bind fun _ => (keepsTo_longest _).bind fun _ => keepsTo_pure _

theorem keepsTo_between (quote : Char) : (between quote).KeepsTo body :=
  (keepsTo_text _).bind fun _ => (keepsTo_longest _).bind fun _ => (keepsTo_text _).bind fun _ =>
    keepsTo_pure _

theorem keepsTo_digits (sign : Char) (n : Nat) : (digits sign n).KeepsTo body :=
  (keepsTo_text _).bind fun _ => (keepsTo_exactly n isHexDigit).map _

theorem keepsTo_character : character.KeepsTo body := by
  refine (KeepsTo.spanned ?_).bind fun _ => keepsTo_pure _
  apply KeepsTo.orElse
  · exact ((keepsTo_between _).orElse (keepsTo_between _)).labelled .quoted
  · exact ((keepsTo_digits _ _).orElse (keepsTo_digits _ _)).labelled .charCode

theorem keepsTo_finish : finish.KeepsTo body :=
  (keepsTo_text _).labelled .finish

theorem keepsTo_range : range.KeepsTo body := by
  apply KeepsTo.labelled
  refine (KeepsTo.spanned ?_).bind fun _ => keepsTo_pure _
  refine keepsTo_character.bind fun _ => keepsTo_blanks.bind fun _ => (keepsTo_text _).bind fun _ =>
    keepsTo_blanks.bind fun _ => KeepsTo.bind ?_ fun _ => keepsTo_pure _
  exact (keepsTo_character.map _).orElse (keepsTo_finish.map _)

section

variable {operand : Reader Phrase}

theorem keepsTo_term (h : operand.KeepsTo body) : (term operand).KeepsTo body := by
  apply KeepsTo.labelled
  refine (((keepsTo_text _).labelled .adjacent).optionally).bind fun _ => keepsTo_blanks.bind fun _ => ?_
  exact h.bind fun _ => keepsTo_pure _

theorem keepsTo_sequence (h : operand.KeepsTo body) : (sequence operand).KeepsTo body := by
  apply KeepsTo.labelled
  refine (keepsTo_term h).bind fun _ => keepsTo_blanks.bind fun _ => ?_
  exact (keepsTo_term h).many.bind fun _ => keepsTo_pure _

theorem keepsTo_choice (h : operand.KeepsTo body) : (choice operand).KeepsTo body := by
  apply KeepsTo.labelled
  refine (keepsTo_sequence h).bind fun _ => keepsTo_blanks.bind fun _ => ?_
  exact ((keepsTo_sequence h).behind ['|']).many.bind fun _ => keepsTo_pure _

theorem keepsTo_bracketed (h : operand.KeepsTo body) (opening closing : Char) :
    (bracketed opening closing operand).KeepsTo body := by
  refine (keepsTo_text _).bind fun _ => keepsTo_blanks.bind fun _ => ?_
  refine (keepsTo_choice h).bind fun _ => keepsTo_blanks.bind fun _ => ?_
  exact (keepsTo_text _).bind fun _ => keepsTo_pure _

/-- Operands, by induction on how deep they may be nested. -/
theorem keepsTo_prefixed (bound : Nat) : (prefixed bound).KeepsTo body := by
  induction bound with
  | zero => exact keepsTo_failure
  | succ bound ih =>
    have hbrackets := fun opening closing => keepsTo_bracketed ih opening closing
    apply KeepsTo.labelled
    apply KeepsTo.orElse ((ih.map Phrase.negation).behind ['!'] |>.labelled .negation)
    apply KeepsTo.orElse ((keepsTo_name.map Phrase.capture).behind ['@'] |>.labelled .capture)
    apply KeepsTo.orElse keepsTo_range
    apply KeepsTo.orElse ((hbrackets '(' ')').map _ |>.labelled .group)
    apply KeepsTo.orElse ((hbrackets '\x7b' '\x7d').map _ |>.labelled .repetition)
    apply KeepsTo.orElse ((hbrackets '[' ']').map _ |>.labelled .optional)
    apply KeepsTo.orElse (keepsTo_finish.map _)
    apply KeepsTo.orElse (keepsTo_character.map _ |>.labelled .literal)
    exact keepsTo_name.map _ |>.labelled .reference

theorem keepsTo_definition (h : operand.KeepsTo body) : (definition operand).KeepsTo body := by
  apply KeepsTo.labelled
  refine keepsTo_name.optionally.bind fun _ => keepsTo_blanks.bind fun _ => ?_
  refine (keepsTo_text _).bind fun _ => keepsTo_blanks.bind fun _ => ?_
  refine (keepsTo_choice h).spanned.bind fun _ => keepsTo_blanks.bind fun _ => ?_
  exact (keepsTo_text _).bind fun _ => keepsTo_pure _

theorem keepsTo_endOfText : endOfText.KeepsTo body := by
  apply KeepsTo.labelled
  refine keepsTo_get.bind fun c => ?_
  split
  · exact keepsTo_pure _
  · exact keepsTo_failure

theorem keepsTo_grammar (h : operand.KeepsTo body) : (grammar operand).KeepsTo body := by
  apply KeepsTo.labelled
  refine keepsTo_blanks.bind fun _ => (keepsTo_definition h).many.bind fun _ => ?_
  exact keepsTo_blanks.bind fun _ => keepsTo_endOfText.bind fun _ => keepsTo_pure _

end

end Reader

/-- What was tried in vain was tried at a place of the text. -/
theorem boundary_of_unreadable {text : List Char} {attempts : Attempts}
    (h : Grammar.read text = .error (.unreadable attempts)) : Boundary text attempts.offset := by
  have hstart : Boundary text Attempts.none.offset := (Cursor.On.start text).boundary
  have hnoted := (Reader.keepsTo_grammar (Reader.keepsTo_prefixed (text.length + 1))
    (Cursor.On.start text) hstart).1
  rw [Grammar.read, readDefinitions] at h
  rcases hrun : (Reader.grammar (Reader.prefixed (text.length + 1)) (Cursor.start text)).run.run
    Attempts.none with ⟨_ | ⟨ds, d⟩, noted⟩ <;> rw [hrun] at h hnoted
  · cases h
    exact hnoted
  · cases h

end PegTree
