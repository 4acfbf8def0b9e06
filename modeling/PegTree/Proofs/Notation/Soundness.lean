import PegTree.Proofs.Notation.Derivation
import PegTree.Proofs.Notation.Parts
import PegTree.Proofs.Notation.Terminals

/-!
# What is read is derived

If a reader for a part of the notation answers, the text that it took splits into tokens of which the
rules derive that part.  `Sound` says this with what follows in sight: from any tokens behind the place
where the reader stops it goes back to tokens in front.  Each reader is sound because its parts are;
for operands the induction is on the bound for their nesting.
-/

namespace PegTree

namespace Reader

/-- What a reader answers is derived from the tokens that it took. -/
def Sound {α : Type} (r : Reader α) (node : α → Node) : Prop :=
  ∀ ⦃c d : Cursor⦄ ⦃x : α⦄ ⦃us : List Token⦄, r.May c x d → Splits d.rest us →
    ∃ ts, Splits c.rest ts ∧ Derives (node x) ts us

/-- Rounds of a repetition: the part that stands for none of them, and the one that has one more. -/
theorem sound_repeatAtMost {α : Type} {r : Reader α} {node : List α → Node}
    (hnil : ∀ ts, Derives (node []) ts ts)
    (hcons : ∀ {c d : Cursor} {x : α} {more : List α} {us vs : List Token}, r.May c x d →
      Splits d.rest us → Derives (node more) us vs →
      ∃ ts, Splits c.rest ts ∧ Derives (node (x :: more)) ts vs)
    (n : Nat) : (repeatAtMost r n).Sound node := by
  intro c d xs us h hd
  -- on the rounds that were made, for the bound does not say where they end
  induction xs generalizing c n with
  | nil =>
    rcases h.of_repeatAtMost with ⟨-, rfl⟩ | ⟨m, x, more, d, hxs, -⟩
    · exact ⟨us, hd, hnil us⟩
    · cases hxs
  | cons x more ih =>
    rcases h.of_repeatAtMost with ⟨hxs, -⟩ | ⟨m, x', more', d', hxs, hr, hmore⟩
    · cases hxs
    · obtain ⟨rfl, rfl⟩ := List.cons.inj hxs
      obtain ⟨ts, hts, hderives⟩ := ih m hmore
      obtain ⟨all, hall, hderives⟩ := hcons hr hts hderives
      exact ⟨all, hall.of_skipBlanks, hderives⟩

section

variable {operand : Reader Phrase}

theorem sound_term (h : operand.Sound .phrase) : (term operand).Sound .element := by
  intro c d e us hterm hd
  rcases hterm.of_term with ⟨p, rfl, hp⟩ | ⟨p, a, rfl, hsign, hp⟩
  · obtain ⟨ts, hts, hderives⟩ := h hp hd
    exact ⟨ts, hts.of_skipBlanks, .plain hderives⟩
  · obtain ⟨ts, hts, hderives⟩ := h hp hd
    exact ⟨.sign '#' :: ts, hsign.sign (by decide) hts.of_skipBlanks, .adjacent hderives⟩

theorem sound_sequence (h : operand.Sound .phrase) : (sequence operand).Sound .sequence := by
  intro c d es us hsequence hd
  obtain ⟨first, more, a, rfl, hfirst, hmany⟩ := hsequence.of_sequence
  obtain ⟨n, hmore⟩ := hmany.of_many
  -- backwards: first the elements behind the first one, then that one in front of them
  have hterms : (repeatAtMost (term operand) n).Sound .elements := by
    refine sound_repeatAtMost (fun ts => .elements_nil) ?_ n
    intro c d e more us vs he hus hderives
    obtain ⟨ts, hts, helement⟩ := sound_term h he hus
    exact ⟨ts, hts, .elements_cons helement hderives⟩
  obtain ⟨vs, hvs, hderives⟩ := hterms hmore hd
  obtain ⟨ts, hts, helement⟩ := sound_term h hfirst hvs.of_skipBlanks
  exact ⟨ts, hts, .sequence helement hderives⟩

theorem sound_choice (h : operand.Sound .phrase) : (choice operand).Sound .choice := by
  intro c d as us hchoice hd
  obtain ⟨first, more, a, rfl, hfirst, hmany⟩ := hchoice.of_choice
  obtain ⟨n, hmore⟩ := hmany.of_many
  have hothers : (repeatAtMost (do text ['|']; blanks; sequence operand) n).Sound
      .alternatives := by
    refine sound_repeatAtMost (fun ts => .alternatives_nil) ?_ n
    intro c d es more us vs hround hus hderives
    obtain ⟨a, hbar, hes⟩ := hround.of_behind
    obtain ⟨ts, hts, hsequence⟩ := sound_sequence h hes hus
    exact ⟨.sign '|' :: ts, hbar.sign (by decide) hts.of_skipBlanks,
      .alternatives_cons hsequence hderives⟩
  obtain ⟨vs, hvs, hderives⟩ := hothers hmore hd
  obtain ⟨ts, hts, hsequence⟩ := sound_sequence h hfirst hvs.of_skipBlanks
  exact ⟨ts, hts, .choice hsequence hderives⟩

/-- Alternatives between two brackets. -/
theorem May.bracketed {opening closing : Char} {as : Alternatives} {c d : Cursor} {us : List Token}
    (h : operand.Sound .phrase) (hopening : opening ∈ signs) (hclosing : closing ∈ signs)
    (hr : (bracketed opening closing operand).May c as d) (hd : Splits d.rest us) :
    ∃ ts, Splits c.rest (.sign opening :: ts) ∧ Derives (.choice as) ts (.sign closing :: us) := by
  obtain ⟨a, b, hopen, hbody, hclose⟩ := hr.of_bracketed
  obtain ⟨ts, hts, hderives⟩ := sound_choice h hbody (hclose.sign hclosing hd).of_skipBlanks
  exact ⟨ts, hopen.sign hopening hts.of_skipBlanks, hderives⟩

end

theorem sound_range : range.Sound .phrase := by
  intro c d p us h hd
  obtain ⟨low, high, a, b, rfl, hlow, hdots, ⟨w, rfl, hw⟩ | ⟨rfl, hw⟩⟩ := h.of_range
  · exact ⟨_, hlow.character (hdots.dots (hw.character hd).of_skipBlanks).of_skipBlanks, .range⟩
  · exact ⟨_, hlow.character (hdots.dots (hw.finish hd).of_skipBlanks).of_skipBlanks, .range_open⟩

/-- Operands, by induction on how deep they may be nested. -/
theorem sound_prefixed (bound : Nat) : (prefixed bound).Sound .phrase := by
  induction bound with
  | zero => exact fun _ _ _ _ h _ => h.of_failure.elim
  | succ bound ih =>
    intro c d p us h hd
    cases h.of_prefixed with
    | negation hsign hq =>
      obtain ⟨ts, hts, hderives⟩ := ih hq hd
      exact ⟨_, hsign.sign (by decide) hts.of_skipBlanks, .negation hderives⟩
    | capture hsign hn =>
      exact ⟨_, hsign.sign (by decide) (hn.name hd).of_skipBlanks, .capture⟩
    | range h => exact sound_range h hd
    | group has =>
      obtain ⟨ts, hts, hderives⟩ := has.bracketed ih (by decide) (by decide) hd
      exact ⟨_, hts, .group hderives⟩
    | repetition has =>
      obtain ⟨ts, hts, hderives⟩ := has.bracketed ih (by decide) (by decide) hd
      exact ⟨_, hts, .repetition hderives⟩
    | optional has =>
      obtain ⟨ts, hts, hderives⟩ := has.bracketed ih (by decide) (by decide) hd
      exact ⟨_, hts, .optional hderives⟩
    | finish hsign => exact ⟨_, hsign.finish hd, .finish⟩
    | literal hw => exact ⟨_, hw.character hd, .literal⟩
    | reference hn => exact ⟨_, hn.name hd, .reference⟩

theorem sound_definition {operand : Reader Phrase} (h : operand.Sound .phrase) :
    (definition operand).Sound .definition := by
  intro c d x us hr hd
  obtain ⟨name, body, a, b, e, rfl, hname, hequals, hbody, hclose⟩ := hr.of_definition
  -- backwards from the semicolon
  have hend := (hclose.sign (by decide) hd).of_skipBlanks
  obtain ⟨ts, hts, hderives⟩ := sound_choice h hbody hend
  have hstart := (hequals.sign (by decide) hts.of_skipBlanks).of_skipBlanks
  rcases hname with ⟨rfl, rfl⟩ | ⟨n, rfl, hn⟩
  · exact ⟨_, hstart, .unnamed hderives⟩
  · exact ⟨_, hn.name hstart, .named hderives⟩

/-- A whole text that is read splits into tokens of which its definitions are derived. -/
theorem sound_grammar {operand : Reader Phrase} (h : operand.Sound .phrase) {c d : Cursor}
    {ds : List Definition} (hr : (grammar operand).May c ds d) :
    ∃ ts, Splits c.rest ts ∧ Derives (.grammar ds) ts [] := by
  obtain ⟨e, hmany, hend⟩ := hr.of_grammar
  obtain ⟨n, hmany⟩ := hmany.of_many
  have hdefinitions : (repeatAtMost (definition operand) n).Sound .grammar := by
    refine sound_repeatAtMost (fun ts => .grammar_nil) ?_ n
    intro c d x more us vs hx hus hderives
    obtain ⟨ts, hts, hdefinition⟩ := sound_definition h hx hus
    exact ⟨ts, hts, .grammar_cons hdefinition hderives⟩
  obtain ⟨ts, hts, hderives⟩ := hdefinitions hmany hend.endOfText.of_skipBlanks
  exact ⟨ts, hts.of_skipBlanks, hderives⟩

end Reader

end PegTree
