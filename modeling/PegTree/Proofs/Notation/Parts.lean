import PegTree.Proofs.Notation.Reading

/-!
# Parts of what is read

What a reader for a part of the notation may answer was answered by the readers for the smaller parts,
each where the one in front of it has stopped and blanks have been passed.  This is said once for every
reader; whatever holds of all that is read follows from it without looking at the readers again.
-/

namespace PegTree

namespace Reader

variable {α : Type} {r : Reader α} {c d : Cursor}

/-- Something behind a sign. -/
theorem May.of_behind {sign : List Char} {x : α}
    (h : (do text sign; blanks; r : Reader α).May c x d) :
    ∃ a, (text sign).May c () a ∧ r.May a.skipBlanks x d := by
  obtain ⟨u, a, hsign, hrest⟩ := h.of_bind
  obtain ⟨u', b, hblanks, hr⟩ := hrest.of_bind
  obtain rfl := hblanks.of_blanks
  exact ⟨a, hsign, hr⟩

section

variable {operand : Reader Phrase}

theorem May.of_term {e : Element} (h : (term operand).May c e d) :
    (∃ p, e = ⟨false, p⟩ ∧ operand.May c.skipBlanks p d) ∨
      ∃ p a, e = ⟨true, p⟩ ∧ (text ['#']).May c () a ∧ operand.May a.skipBlanks p d := by
  obtain ⟨mark, a, hmark, hrest⟩ := h.of_labelled.of_bind
  obtain ⟨u, b, hblanks, hoperand⟩ := hrest.of_bind
  obtain rfl := hblanks.of_blanks
  obtain ⟨p, d', hp, hanswer⟩ := hoperand.of_bind
  obtain ⟨rfl, rfl⟩ := hanswer.of_pure
  rcases hmark.of_optionally with ⟨rfl, rfl⟩ | ⟨u', rfl, hsign⟩
  · exact .inl ⟨p, rfl, hp⟩
  · exact .inr ⟨p, a, rfl, hsign.of_labelled, hp⟩

theorem May.of_sequence {es : List Element} (h : (sequence operand).May c es d) :
    ∃ first more a, es = first :: more ∧ (term operand).May c first a ∧
      (many (term operand)).May a.skipBlanks more d := by
  obtain ⟨first, a, hfirst, hrest⟩ := h.of_labelled.of_bind
  obtain ⟨u, b, hblanks, hmany⟩ := hrest.of_bind
  obtain rfl := hblanks.of_blanks
  obtain ⟨more, d', hmore, hanswer⟩ := hmany.of_bind
  obtain ⟨rfl, rfl⟩ := hanswer.of_pure
  exact ⟨first, more, a, rfl, hfirst, hmore⟩

theorem May.of_choice {as : Alternatives} (h : (choice operand).May c as d) :
    ∃ first more a, as = first :: more ∧ (sequence operand).May c first a ∧
      (many do text ['|']; blanks; sequence operand).May a.skipBlanks more d := by
  obtain ⟨first, a, hfirst, hrest⟩ := h.of_labelled.of_bind
  obtain ⟨u, b, hblanks, hmany⟩ := hrest.of_bind
  obtain rfl := hblanks.of_blanks
  obtain ⟨more, d', hmore, hanswer⟩ := hmany.of_bind
  obtain ⟨rfl, rfl⟩ := hanswer.of_pure
  exact ⟨first, more, a, rfl, hfirst, hmore⟩

theorem May.of_bracketed {opening closing : Char} {as : Alternatives}
    (h : (bracketed opening closing operand).May c as d) :
    ∃ a b, (text [opening]).May c () a ∧ (choice operand).May a.skipBlanks as b ∧
      (text [closing]).May b.skipBlanks () d := by
  obtain ⟨_, a, hopen, hrest⟩ := May.of_bind h
  obtain ⟨_, a', hblanks, hrest⟩ := hrest.of_bind
  obtain rfl := hblanks.of_blanks
  obtain ⟨body, b, hbody, hrest⟩ := hrest.of_bind
  obtain ⟨_, b', hblanks, hrest⟩ := hrest.of_bind
  obtain rfl := hblanks.of_blanks
  obtain ⟨_, d', hclose, hanswer⟩ := hrest.of_bind
  obtain ⟨rfl, rfl⟩ := hanswer.of_pure
  exact ⟨a, b, hopen, hbody, hclose⟩

theorem May.of_range {p : Phrase} (h : range.May c p d) :
    ∃ low high a b, p = .range low high (c.spanTo d) ∧ character.May c low a ∧
      (text ['.', '.']).May a.skipBlanks () b ∧
      ((∃ w, high = some w ∧ character.May b.skipBlanks w d) ∨
        high = none ∧ finish.May b.skipBlanks () d) := by
  obtain ⟨⟨⟨low, high⟩, span⟩, _, hboth, hanswer⟩ := h.of_labelled.of_bind
  obtain ⟨rfl, rfl⟩ := hanswer.of_pure
  have hspan : span = c.spanTo d := hboth.span_eq
  obtain ⟨low', a, hlow, hrest⟩ := hboth.of_spanned.of_bind
  obtain ⟨_, a', hblanks, hrest⟩ := hrest.of_bind
  obtain rfl := hblanks.of_blanks
  obtain ⟨_, b, hdots, hrest⟩ := hrest.of_bind
  obtain ⟨_, b', hblanks, hrest⟩ := hrest.of_bind
  obtain rfl := hblanks.of_blanks
  obtain ⟨high', d', hhigh, hanswer⟩ := hrest.of_bind
  obtain ⟨hpair, rfl⟩ := hanswer.of_pure
  cases hpair
  refine ⟨low, high, a, b, by rw [hspan], hlow, hdots, ?_⟩
  rcases hhigh.of_orElse with hhigh | hhigh
  · obtain ⟨w, hw, rfl⟩ := hhigh.of_map
    exact .inl ⟨w, rfl, hw⟩
  · obtain ⟨w, hw, rfl⟩ := hhigh.of_map
    exact .inr ⟨rfl, hw⟩

/-- The ways in which an operand may have been read. -/
inductive Operand (bound : Nat) (c d : Cursor) : Phrase → Prop
  | negation {q : Phrase} {a : Cursor} :
      (text ['!']).May c () a → (prefixed bound).May a.skipBlanks q d → Operand bound c d (.negation q)
  | capture {n : WrittenName} {a : Cursor} :
      (text ['@']).May c () a → name.May a.skipBlanks n d → Operand bound c d (.capture n)
  | range {p : Phrase} : range.May c p d → Operand bound c d p
  | group {as : Alternatives} :
      (bracketed '(' ')' (prefixed bound)).May c as d → Operand bound c d (.group as)
  | repetition {as : Alternatives} :
      (bracketed '\x7b' '\x7d' (prefixed bound)).May c as d → Operand bound c d (.repetition as)
  | optional {as : Alternatives} :
      (bracketed '[' ']' (prefixed bound)).May c as d → Operand bound c d (.optional as)
  | finish : finish.May c () d → Operand bound c d .finish
  | literal {w : WrittenCharacter} : character.May c w d → Operand bound c d (.literal w)
  | reference {n : WrittenName} : name.May c n d → Operand bound c d (.reference n)

theorem May.of_prefixed {bound : Nat} {p : Phrase} (h : (prefixed (bound + 1)).May c p d) :
    Operand bound c d p := by
  rcases h.of_labelled.of_orElse with h | h
  · obtain ⟨a, hsign, hoperand⟩ := h.of_labelled.of_behind
    obtain ⟨q, hq, rfl⟩ := hoperand.of_map
    exact .negation hsign hq
  rcases h.of_orElse with h | h
  · obtain ⟨a, hsign, hcaptured⟩ := h.of_labelled.of_behind
    obtain ⟨n, hn, rfl⟩ := hcaptured.of_map
    exact .capture hsign hn
  rcases h.of_orElse with h | h
  · exact .range h
  rcases h.of_orElse with h | h
  · obtain ⟨as, has, rfl⟩ := h.of_labelled.of_map
    exact .group has
  rcases h.of_orElse with h | h
  · obtain ⟨as, has, rfl⟩ := h.of_labelled.of_map
    exact .repetition has
  rcases h.of_orElse with h | h
  · obtain ⟨as, has, rfl⟩ := h.of_labelled.of_map
    exact .optional has
  rcases h.of_orElse with h | h
  · obtain ⟨u, hsign, rfl⟩ := h.of_map
    exact .finish hsign
  rcases h.of_orElse with h | h
  · obtain ⟨w, hw, rfl⟩ := h.of_labelled.of_map
    exact .literal hw
  · obtain ⟨n, hn, rfl⟩ := h.of_labelled.of_map
    exact .reference hn

theorem May.of_definition {x : Definition} (h : (definition operand).May c x d) :
    ∃ name body a b e, x = ⟨name, body, b.skipBlanks.spanTo e⟩ ∧
      (name = none ∧ a = c ∨ ∃ n, name = some n ∧ Reader.name.May c n a) ∧
      (text ['=']).May a.skipBlanks () b ∧ (choice operand).May b.skipBlanks body e ∧
      (text [';']).May e.skipBlanks () d := by
  obtain ⟨name, a, hname, hrest⟩ := h.of_labelled.of_bind
  obtain ⟨_, a', hblanks, hrest⟩ := hrest.of_bind
  obtain rfl := hblanks.of_blanks
  obtain ⟨_, b, hequals, hrest⟩ := hrest.of_bind
  obtain ⟨_, b', hblanks, hrest⟩ := hrest.of_bind
  obtain rfl := hblanks.of_blanks
  obtain ⟨⟨body, span⟩, e, hbody, hrest⟩ := hrest.of_bind
  have hspan : span = b.skipBlanks.spanTo e := hbody.span_eq
  obtain ⟨_, e', hblanks, hrest⟩ := hrest.of_bind
  obtain rfl := hblanks.of_blanks
  obtain ⟨_, d', hclose, hanswer⟩ := hrest.of_bind
  obtain ⟨rfl, rfl⟩ := hanswer.of_pure
  exact ⟨name, body, a, b, e, by rw [hspan], hname.of_optionally, hequals, hbody.of_spanned, hclose⟩

theorem May.of_grammar {ds : List Definition} (h : (grammar operand).May c ds d) :
    ∃ e, (many (definition operand)).May c.skipBlanks ds e ∧ endOfText.May e.skipBlanks () d := by
  obtain ⟨_, a, hblanks, hrest⟩ := h.of_labelled.of_bind
  obtain rfl := hblanks.of_blanks
  obtain ⟨ds', e, hmany, hrest⟩ := hrest.of_bind
  obtain ⟨_, e', hblanks, hrest⟩ := hrest.of_bind
  obtain rfl := hblanks.of_blanks
  obtain ⟨_, d', hend, hanswer⟩ := hrest.of_bind
  obtain ⟨rfl, rfl⟩ := hanswer.of_pure
  exact ⟨e, hmany, hend⟩

end

end Reader

end PegTree
