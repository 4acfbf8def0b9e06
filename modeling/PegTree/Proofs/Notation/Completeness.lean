import PegTree.Proofs.Notation.Derivation
import PegTree.Proofs.Notation.Terminals

/-!
# What is derived is read

Readers try alternatives in order and repeat as long as they can, and still they lose nothing that the
rules derive: which alternative it is shows in the next token, and no repetition can go on where the
rules end it.  Only a range begins like something else, a literal; but two dots never follow a literal.

`Node.Complete` says for each part that its reader must read what is derived, up to the same tokens and
but for spans, provided that what follows is something that can follow the part.  This is shown by
induction on derivations (`Derives.complete`).
-/

namespace PegTree

/-! ## What follows a part -/

/-- What may follow a sequence: another alternative, or the end of a choice. -/
def Closes (ts : List Token) : Prop :=
  ∃ x more, ts = .sign x :: more ∧ x ∈ ['|', ';', ')', '\x7d', ']']

/-- What may follow a choice. -/
def Ends (ts : List Token) : Prop :=
  ∃ x more, ts = .sign x :: more ∧ x ∈ [';', ')', '\x7d', ']']

theorem Ends.closes {ts : List Token} (h : Ends ts) : Closes ts := by
  obtain ⟨x, more, rfl, hx⟩ := h
  exact ⟨x, more, rfl, List.mem_cons_of_mem _ hx⟩

theorem ends_sign {x : Char} (hx : x ∈ [';', ')', '\x7d', ']']) (ts : List Token) :
    Ends (.sign x :: ts) :=
  ⟨x, ts, rfl, hx⟩

/-- What closes a sequence is none of these. -/
theorem Closes.head_ne {ts : List Token} (h : Closes ts) {t : Token}
    (ht : ∀ x ∈ ['|', ';', ')', '\x7d', ']'], t ≠ .sign x) : ts.head? ≠ some t := by
  obtain ⟨x, more, rfl, hx⟩ := h
  intro heq
  exact ht x hx (Option.some.inj heq).symm

theorem Ends.head_ne {ts : List Token} (h : Ends ts) : ts.head? ≠ some (.sign '|') := by
  obtain ⟨x, more, rfl, hx⟩ := h
  intro heq
  cases heq
  simp at hx

/-- No part begins with two dots. -/
theorem Derives.head_phrase {p : Phrase} {ts us : List Token} (h : Derives (.phrase p) ts us) :
    ts.head? ≠ some .dots := by
  cases h <;> simp

/-- An operand has no mark in front. -/
theorem Derives.head_ne_mark {p : Phrase} {ts us : List Token} (h : Derives (.phrase p) ts us) :
    ts.head? ≠ some (.sign '#') := by
  cases h <;> simp

theorem Derives.head_element {e : Element} {ts us : List Token} (h : Derives (.element e) ts us) :
    ts.head? ≠ some .dots := by
  cases h with
  | plain h => exact h.head_phrase
  | adjacent => simp

theorem Derives.head_elements {es : List Element} {ts us : List Token}
    (h : Derives (.elements es) ts us) (hus : Closes us) : ts.head? ≠ some .dots := by
  cases h with
  | elements_nil => exact hus.head_ne (by simp)
  | elements_cons h => exact h.head_element

theorem Derives.closes_alternatives {as : Alternatives} {ts us : List Token}
    (h : Derives (.alternatives as) ts us) (hus : Ends us) : Closes ts := by
  cases h with
  | alternatives_nil => exact hus.closes
  | alternatives_cons => exact ⟨'|', _, rfl, by simp⟩

namespace Reader

/-! ## Readers that fail -/

section

variable {c : Cursor} {ts : List Token} {operand : Reader Phrase}

theorem fails_negation (h : Ready c ts) (hne : ts.head? ≠ some (.sign '!')) :
    (labelled .negation (do text ['!']; blanks; Phrase.negation <$> operand)).Fails c :=
  ((fails_sign (by decide) h hne).bind _).labelled _

theorem fails_capture (h : Ready c ts) (hne : ts.head? ≠ some (.sign '@')) :
    (labelled .capture (do text ['@']; blanks; Phrase.capture <$> name)).Fails c :=
  ((fails_sign (by decide) h hne).bind _).labelled _

theorem fails_bracketed {part : Part} {opening closing : Char} {make : Alternatives → Phrase}
    (hopening : opening ∈ signs) (h : Ready c ts) (hne : ts.head? ≠ some (.sign opening)) :
    (labelled part (make <$> bracketed opening closing operand)).Fails c :=
  (Fails.map ((fails_sign hopening h hne).bind _) make).labelled part

theorem fails_range (h : Ready c ts) (hne : ∀ form, ts.head? ≠ some (.character form)) :
    range.Fails c :=
  ((Fails.spanned ((fails_character h hne).bind _)).bind _).labelled _

/-- A range is not there if no dots follow its first character. -/
theorem fails_range_of_literal {form : CharacterForm} {us : List Token}
    (h : Ready c (.character form :: us)) (hus : us.head? ≠ some .dots) : range.Fails c := by
  obtain ⟨span, d, hlow, hd, -⟩ := must_character h
  have hdots : (text ['.', '.']).Fails d.skipBlanks := fails_dots hd.ready hus
  exact ((Fails.spanned (hlow.fails ((must_blanks d).fails (hdots.bind _)))).bind _).labelled _

/-- An operand is not there. -/
theorem fails_prefixed (h : Ready c ts) (hclose : Closes ts) (bound : Nat) :
    (prefixed bound).Fails c := by
  cases bound with
  | zero => exact fails_failure c
  | succ bound =>
    refine Fails.labelled ?_ .prefixed
    refine Fails.orElse (fails_negation h (hclose.head_ne (by simp))) ?_
    refine Fails.orElse (fails_capture h (hclose.head_ne (by simp))) ?_
    refine Fails.orElse (fails_range h fun form => hclose.head_ne (by simp)) ?_
    refine Fails.orElse (fails_bracketed (by decide) h (hclose.head_ne (by simp))) ?_
    refine Fails.orElse (fails_bracketed (by decide) h (hclose.head_ne (by simp))) ?_
    refine Fails.orElse (fails_bracketed (by decide) h (hclose.head_ne (by simp))) ?_
    refine Fails.orElse ((fails_finish h (hclose.head_ne (by simp))).map _) ?_
    refine Fails.orElse (((fails_character h fun form => hclose.head_ne (by simp)).map _).labelled _) ?_
    exact ((fails_name h fun n => hclose.head_ne (by simp)).map _).labelled _

theorem fails_term (h : Ready c ts) (hclose : Closes ts) (bound : Nat) :
    (term (prefixed bound)).Fails c := by
  have hmark : (labelled .adjacent (text ['#'])).Fails c :=
    (fails_sign (by decide) h (hclose.head_ne (by simp))).labelled _
  have hoperand := fails_prefixed h.splits.ready hclose bound
  exact (hmark.optionally.fails ((must_blanks c).fails (hoperand.bind _))).labelled _

theorem fails_definition (h : Ready c []) (operand : Reader Phrase) :
    (definition operand).Fails c := by
  have hname : Reader.name.Fails c := fails_name h (by simp)
  have hequals : (text ['=']).Fails c.skipBlanks := fails_sign (by decide) h.splits.ready (by simp)
  exact (hname.optionally.fails ((must_blanks c).fails (hequals.bind _))).labelled _

end

/-! ## Readers that answer -/

section

variable {α : Type}

/-- The reader must read something of the kind, up to where `us` follow. -/
def Completes (r : Reader α) (c : Cursor) (like : α → Prop) (us : List Token) : Prop :=
  ∃ x d, r.Must c x d ∧ like x ∧ Splits d.rest us ∧ d.rest.length < c.rest.length

/-- The same of a reader that may read nothing. -/
def CompletesAny (r : Reader α) (c : Cursor) (like : α → Prop) (us : List Token) : Prop :=
  ∃ x d, r.Must c x d ∧ like x ∧ Splits d.rest us ∧ d.rest.length ≤ c.rest.length

variable {r : Reader α} {c : Cursor} {us vs : List Token} {first : α → Prop}
  {more like : List α → Prop}

theorem completes_stop (hc : Splits c.rest us) (hfails : r.Fails c.skipBlanks) (hlike : like [])
    (n : Nat) : CompletesAny (repeatAtMost r n) c like us :=
  ⟨[], c, must_repeat_stop hfails n, hlike, hc, Nat.le_refl _⟩

/-- One round more; the bound for the rounds suffices because each takes a character. -/
theorem completes_again {n : Nat} (hn : c.rest.length < n)
    (hfirst : Completes r c.skipBlanks first us)
    (hmore : ∀ d n, Splits d.rest us → d.rest.length < c.rest.length → d.rest.length < n →
      CompletesAny (repeatAtMost r n) d more vs)
    (hlike : ∀ x xs, first x → more xs → like (x :: xs)) :
    CompletesAny (repeatAtMost r n) c like vs := by
  obtain ⟨x, d, hx, hxlike, hd, hlt⟩ := hfirst
  have hle := skipBlanks_length_le c
  -- a character is ahead, so a round is left
  obtain ⟨m, rfl⟩ : ∃ m, n = m + 1 := ⟨n - 1, by omega⟩
  obtain ⟨xs, e, hxs, hxslike, he, hle'⟩ := hmore d m hd (by omega) (by omega)
  exact ⟨x :: xs, e, must_repeat_again hx hxs, hlike x xs hxlike hxslike, he, by omega⟩

/-- A first one, blanks, and as many others as there are. -/
theorem Completes.many {s : Reader α} (hfirst : Completes s c first us)
    (hmore : ∀ d n, Splits d.rest us → d.rest.length < c.rest.length → d.rest.length < n →
      CompletesAny (repeatAtMost r n) d more vs)
    (hlike : ∀ x xs, first x → more xs → like (x :: xs)) :
    Completes (do let x ← s; blanks; let xs ← many r; pure (x :: xs)) c like vs := by
  obtain ⟨x, d, hx, hxlike, hd, hlt⟩ := hfirst
  have hle := skipBlanks_length_le d
  obtain ⟨xs, e, hxs, hxslike, he, hle'⟩ := hmore d.skipBlanks (d.skipBlanks.rest.length + 1)
    hd.ready.splits (by omega) (by omega)
  refine ⟨x :: xs, e, ?_, hlike x xs hxlike hxslike, he, by omega⟩
  exact hx.bind ((must_blanks d).bind ((must_many hxs).bind (must_pure (x :: xs) e)))

end

section

variable {operand : Reader Phrase} {c : Cursor} {ts us : List Token}

/-- Something behind a sign. -/
theorem Completes.behind {α : Type} {x : Char} {r : Reader α} {like : α → Prop}
    (h : Ready c (.sign x :: ts))
    (hr : ∀ d, Ready d ts → d.rest.length < c.rest.length → Completes r d like us) :
    Completes (do text [x]; blanks; r) c like us := by
  obtain ⟨d, hsign, hd, hlt⟩ := must_sign h
  have hle := skipBlanks_length_le d
  obtain ⟨y, e, hy, hlike, he, hlt'⟩ := hr d.skipBlanks hd.ready (by omega)
  exact ⟨y, e, hsign.bind ((must_blanks d).bind hy), hlike, he, by omega⟩

theorem Completes.map {α β : Type} {r : Reader α} {like : α → Prop} {like' : β → Prop} {f : α → β}
    (h : Completes r c like us) (hlike : ∀ x, like x → like' (f x)) :
    Completes (f <$> r) c like' us := by
  obtain ⟨x, d, hx, hxlike, hd, hlt⟩ := h
  exact ⟨f x, d, hx.map f, hlike x hxlike, hd, hlt⟩

theorem Completes.labelled {α : Type} {r : Reader α} {like : α → Prop} (h : Completes r c like us)
    (part : Part) : Completes (labelled part r) c like us := by
  obtain ⟨x, d, hx, hlike, hd, hlt⟩ := h
  exact ⟨x, d, hx.labelled part, hlike, hd, hlt⟩

theorem Completes.orElse {α : Type} {r : Reader α} {like : α → Prop} (h : Completes r c like us)
    (s : Reader α) : Completes (r <|> s) c like us := by
  obtain ⟨x, d, hx, hlike, hd, hlt⟩ := h
  exact ⟨x, d, hx.orElse s, hlike, hd, hlt⟩

theorem Fails.orElse_completes {α : Type} {r s : Reader α} {like : α → Prop} (h : r.Fails c)
    (hs : Completes s c like us) : Completes (r <|> s) c like us := by
  obtain ⟨x, d, hx, hlike, hd, hlt⟩ := hs
  exact ⟨x, d, h.orElse_must hx, hlike, hd, hlt⟩

/-- Alternatives between two brackets. -/
theorem completes_bracketed {opening closing : Char} {as : Alternatives}
    (h : Ready c (.sign opening :: ts))
    (hchoice : ∀ d, Ready d ts → d.rest.length < c.rest.length →
      Completes (choice operand) d (unspannedAlternatives · = unspannedAlternatives as)
        (.sign closing :: us)) :
    Completes (bracketed opening closing operand) c
      (unspannedAlternatives · = unspannedAlternatives as) us := by
  obtain ⟨d, hopen, hd, hlt⟩ := must_sign h
  have hle := skipBlanks_length_le d
  obtain ⟨body, e, hbody, hlike, he, hlt'⟩ := hchoice d.skipBlanks hd.ready (by omega)
  have hle' := skipBlanks_length_le e
  obtain ⟨stop, hclose, hstop, hlt''⟩ := must_sign he.ready
  refine ⟨body, stop, ?_, hlike, hstop, by omega⟩
  exact hopen.bind ((must_blanks d).bind (hbody.bind ((must_blanks e).bind
    (hclose.bind (must_pure body stop)))))

theorem completes_range {low high : CharacterForm} {lowSpan highSpan span : Span}
    (h : Ready c (.character low :: .dots :: .character high :: us)) :
    Completes range c (·.unspanned =
      (Phrase.range ⟨low, lowSpan⟩ (some ⟨high, highSpan⟩) span).unspanned) us := by
  obtain ⟨s₁, d₁, hlow, h₁, hlt₁⟩ := must_character h
  obtain ⟨d₂, hdots, h₂, hlt₂⟩ := must_dots h₁.ready
  obtain ⟨s₃, d₃, hhigh, h₃, hlt₃⟩ := must_character h₂.ready
  have hle₁ := skipBlanks_length_le d₁
  have hle₂ := skipBlanks_length_le d₂
  refine ⟨.range ⟨low, s₁⟩ (some ⟨high, s₃⟩) (c.spanTo d₃), d₃, Must.labelled ?_ .range, rfl, h₃,
    by omega⟩
  refine Must.bind (x := ((⟨low, s₁⟩, some ⟨high, s₃⟩), c.spanTo d₃)) (Must.spanned ?_)
    (must_pure _ _)
  refine hlow.bind ((must_blanks d₁).bind (hdots.bind ((must_blanks d₂).bind ?_)))
  exact ((hhigh.map some).orElse _).bind (must_pure _ _)

theorem completes_range_open {low : CharacterForm} {lowSpan span : Span}
    (h : Ready c (.character low :: .dots :: .sign '$' :: us)) :
    Completes range c (·.unspanned = (Phrase.range ⟨low, lowSpan⟩ none span).unspanned) us := by
  obtain ⟨s₁, d₁, hlow, h₁, hlt₁⟩ := must_character h
  obtain ⟨d₂, hdots, h₂, hlt₂⟩ := must_dots h₁.ready
  obtain ⟨d₃, hfinish, h₃, hlt₃⟩ := must_finish h₂.ready
  have hle₁ := skipBlanks_length_le d₁
  have hle₂ := skipBlanks_length_le d₂
  have hnot : Reader.character.Fails d₂.skipBlanks := fails_character h₂.ready (by simp)
  refine ⟨.range ⟨low, s₁⟩ none (c.spanTo d₃), d₃, Must.labelled ?_ .range, rfl, h₃, by omega⟩
  refine Must.bind (x := ((⟨low, s₁⟩, none), c.spanTo d₃)) (Must.spanned ?_) (must_pure _ _)
  refine hlow.bind ((must_blanks d₁).bind (hdots.bind ((must_blanks d₂).bind ?_)))
  exact ((hnot.map some).orElse_must (hfinish.map _)).bind (must_pure _ _)

end

/-! ## Parts made of parts -/

section

variable {α : Type}

/-- From `ts` something of the kind is read up to `us`, if operands may be nested as deep as there are
characters. -/
def Suffices (r : Nat → Reader α) (like : α → Prop) (ts us : List Token) : Prop :=
  ∀ ⦃bound : Nat⦄ ⦃c : Cursor⦄, Ready c ts → c.rest.length < bound → Completes (r bound) c like us

/-- The same of rounds, if there may be as many of them as there are characters. -/
def SufficesAny (r : Nat → Reader α) (like : List α → Prop) (ts us : List Token) : Prop :=
  ∀ ⦃bound n : Nat⦄ ⦃c : Cursor⦄, Splits c.rest ts → c.rest.length < bound → c.rest.length < n →
    CompletesAny (repeatAtMost (r bound) n) c like us

variable {r : Nat → Reader α} {ts us vs : List Token} {first : α → Prop} {more like : List α → Prop}

/-- No rounds. -/
theorem SufficesAny.nil (hfails : ∀ bound c, Ready c ts → (r bound).Fails c) (hlike : like []) :
    SufficesAny r like ts ts :=
  fun bound n _ hc _ _ => completes_stop hc (hfails bound _ hc.ready) hlike n

/-- Rounds: a first one, and those that follow it. -/
theorem SufficesAny.cons (hfirst : Suffices r first ts us) (hmore : SufficesAny r more us vs)
    (hlike : ∀ x xs, first x → more xs → like (x :: xs)) : SufficesAny r like ts vs := by
  intro bound n c hc hbound hn
  have hle := skipBlanks_length_le c
  have hround := hfirst hc.ready (show c.skipBlanks.rest.length < bound by omega)
  refine completes_again hn hround (fun d m hd hlt hm => ?_) hlike
  exact hmore hd (by omega) hm

/-- A first part, and rounds behind it. -/
theorem Suffices.many {s : Nat → Reader α} (hfirst : Suffices s first ts us)
    (hmore : SufficesAny r more us vs) (hlike : ∀ x xs, first x → more xs → like (x :: xs)) :
    Suffices (fun bound => do
      let x ← s bound
      blanks
      let xs ← many (r bound)
      pure (x :: xs)) like ts vs := by
  intro bound c hc hbound
  refine (hfirst hc hbound).many (fun d m hd hlt hm => ?_) hlike
  exact hmore hd (by omega) hm

end

/-! ## Operands -/

section

variable {ts us : List Token}

theorem suffices_prefixed {like : Phrase → Prop}
    (h : ∀ bound c, Ready c ts → c.rest.length ≤ bound → Completes (prefixed (bound + 1)) c like us) :
    Suffices prefixed like ts us := by
  intro bound c hc hbound
  obtain ⟨m, rfl⟩ : ∃ m, bound = m + 1 := ⟨bound - 1, by omega⟩
  exact h m c hc (by omega)

theorem suffices_negation {p : Phrase} (h : Suffices prefixed (·.unspanned = p.unspanned) ts us) :
    Suffices prefixed (·.unspanned = (Phrase.negation p).unspanned) (.sign '!' :: ts) us := by
  refine suffices_prefixed fun bound c hc hbound => Completes.labelled ?_ .prefixed
  refine Completes.orElse (Completes.labelled ?_ .negation) _
  apply Completes.behind hc
  intro d hd hlt
  apply (h hd (by omega)).map
  intro q hq
  simp only [Phrase.unspanned, hq]

theorem suffices_capture {name : String} {span : Span} :
    Suffices prefixed (·.unspanned = (Phrase.capture ⟨name, span⟩).unspanned)
      (.sign '@' :: .name name :: us) us := by
  refine suffices_prefixed fun bound c hc hbound => Completes.labelled ?_ .prefixed
  refine (fails_negation hc (by simp)).orElse_completes ?_
  refine Completes.orElse (Completes.labelled ?_ .capture) _
  apply Completes.behind hc
  intro d hd hlt
  obtain ⟨s, e, hname, he, hlt'⟩ := must_name hd
  exact ⟨_, e, hname.map Phrase.capture, rfl, he, hlt'⟩

/-- Where a character comes next, neither a negation nor a capture is there. -/
theorem completes_character {form : CharacterForm} {bound : Nat} {c : Cursor}
    {like : Phrase → Prop} {more : Reader Phrase} (hc : Ready c (.character form :: ts))
    (h : Completes more c like us) :
    Completes
      (labelled .negation (do text ['!']; blanks; Phrase.negation <$> prefixed bound) <|>
        labelled .capture (do text ['@']; blanks; Phrase.capture <$> name) <|> more) c like us := by
  refine (fails_negation hc (by simp)).orElse_completes ?_
  exact (fails_capture hc (by simp)).orElse_completes h

theorem suffices_range {low high : CharacterForm} {lowSpan highSpan span : Span} :
    Suffices prefixed (·.unspanned =
      (Phrase.range ⟨low, lowSpan⟩ (some ⟨high, highSpan⟩) span).unspanned)
      (.character low :: .dots :: .character high :: us) us :=
  suffices_prefixed fun _ _ hc _ =>
    Completes.labelled (completes_character hc ((completes_range hc).orElse _)) .prefixed

theorem suffices_range_open {low : CharacterForm} {lowSpan span : Span} :
    Suffices prefixed (·.unspanned = (Phrase.range ⟨low, lowSpan⟩ none span).unspanned)
      (.character low :: .dots :: .sign '$' :: us) us :=
  suffices_prefixed fun _ _ hc _ =>
    Completes.labelled (completes_character hc ((completes_range_open hc).orElse _)) .prefixed

/-- An operand between two brackets. -/
theorem completes_brackets {part : Part} {opening closing : Char} {make : Alternatives → Phrase}
    {as : Alternatives} {bound : Nat} {c : Cursor} (hc : Ready c (.sign opening :: ts))
    (hbound : c.rest.length ≤ bound)
    (h : Suffices (fun bound => choice (prefixed bound))
      (unspannedAlternatives · = unspannedAlternatives as) ts (.sign closing :: us))
    (hmake : ∀ body, unspannedAlternatives body = unspannedAlternatives as →
      (make body).unspanned = (make as).unspanned) :
    Completes (labelled part (make <$> bracketed opening closing (prefixed bound))) c
      (·.unspanned = (make as).unspanned) us := by
  have hbody := completes_bracketed hc fun d hd hlt =>
    h hd (show d.rest.length < bound by omega)
  exact (hbody.map hmake).labelled part

theorem suffices_group {as : Alternatives}
    (h : Suffices (fun bound => choice (prefixed bound))
      (unspannedAlternatives · = unspannedAlternatives as) ts (.sign ')' :: us)) :
    Suffices prefixed (·.unspanned = (Phrase.group as).unspanned) (.sign '(' :: ts) us := by
  refine suffices_prefixed fun bound c hc hbound => Completes.labelled ?_ .prefixed
  refine (fails_negation hc (by simp)).orElse_completes ?_
  refine (fails_capture hc (by simp)).orElse_completes ?_
  refine (fails_range hc (by simp)).orElse_completes ?_
  refine Completes.orElse (completes_brackets hc hbound h fun body hbody => ?_) _
  simp only [Phrase.unspanned, hbody]

theorem suffices_repetition {as : Alternatives}
    (h : Suffices (fun bound => choice (prefixed bound))
      (unspannedAlternatives · = unspannedAlternatives as) ts (.sign '\x7d' :: us)) :
    Suffices prefixed (·.unspanned = (Phrase.repetition as).unspanned) (.sign '\x7b' :: ts) us := by
  refine suffices_prefixed fun bound c hc hbound => Completes.labelled ?_ .prefixed
  refine (fails_negation hc (by simp)).orElse_completes ?_
  refine (fails_capture hc (by simp)).orElse_completes ?_
  refine (fails_range hc (by simp)).orElse_completes ?_
  refine (fails_bracketed (by decide) hc (by simp)).orElse_completes ?_
  refine Completes.orElse (completes_brackets hc hbound h fun body hbody => ?_) _
  simp only [Phrase.unspanned, hbody]

theorem suffices_optional {as : Alternatives}
    (h : Suffices (fun bound => choice (prefixed bound))
      (unspannedAlternatives · = unspannedAlternatives as) ts (.sign ']' :: us)) :
    Suffices prefixed (·.unspanned = (Phrase.optional as).unspanned) (.sign '[' :: ts) us := by
  refine suffices_prefixed fun bound c hc hbound => Completes.labelled ?_ .prefixed
  refine (fails_negation hc (by simp)).orElse_completes ?_
  refine (fails_capture hc (by simp)).orElse_completes ?_
  refine (fails_range hc (by simp)).orElse_completes ?_
  refine (fails_bracketed (by decide) hc (by simp)).orElse_completes ?_
  refine (fails_bracketed (by decide) hc (by simp)).orElse_completes ?_
  refine Completes.orElse (completes_brackets hc hbound h fun body hbody => ?_) _
  simp only [Phrase.unspanned, hbody]

/-- Where no bracket, no sign of an operand and no range comes next, three alternatives are left. -/
theorem completes_last {bound : Nat} {c : Cursor} {like : Phrase → Prop} (hc : Ready c ts)
    (hsigns : ∀ x ∈ ['!', '@', '(', '\x7b', '['], ts.head? ≠ some (.sign x)) (hrange : range.Fails c)
    (h : Completes ((fun _ => Phrase.finish) <$> finish <|>
      labelled .literal (Phrase.literal <$> character) <|>
      labelled .reference (Phrase.reference <$> name)) c like us) :
    Completes (prefixed (bound + 1)) c like us := by
  refine Completes.labelled ?_ .prefixed
  refine (fails_negation hc (hsigns _ (by simp))).orElse_completes ?_
  refine (fails_capture hc (hsigns _ (by simp))).orElse_completes ?_
  refine hrange.orElse_completes ?_
  refine (fails_bracketed (by decide) hc (hsigns _ (by simp))).orElse_completes ?_
  refine (fails_bracketed (by decide) hc (hsigns _ (by simp))).orElse_completes ?_
  exact (fails_bracketed (by decide) hc (hsigns _ (by simp))).orElse_completes h

theorem suffices_finish : Suffices prefixed (·.unspanned = Phrase.finish.unspanned)
    (.sign '$' :: us) us := by
  apply suffices_prefixed
  intro bound c hc hbound
  refine completes_last hc (by simp) (fails_range hc (by simp)) (Completes.orElse ?_ _)
  obtain ⟨d, hfinish, hd, hlt⟩ := must_finish hc
  exact ⟨.finish, d, hfinish.map _, rfl, hd, hlt⟩

theorem suffices_literal {form : CharacterForm} {span : Span} (hus : us.head? ≠ some .dots) :
    Suffices prefixed (·.unspanned = (Phrase.literal ⟨form, span⟩).unspanned)
      (.character form :: us) us := by
  apply suffices_prefixed
  intro bound c hc hbound
  -- the range is given up where its dots are missing
  refine completes_last hc (by simp) (fails_range_of_literal hc hus) ?_
  refine ((fails_finish hc (by simp)).map _).orElse_completes ?_
  refine Completes.orElse (Completes.labelled ?_ .literal) _
  obtain ⟨s, d, hcharacter, hd, hlt⟩ := must_character hc
  exact ⟨_, d, hcharacter.map Phrase.literal, rfl, hd, hlt⟩

theorem suffices_reference {name : String} {span : Span} :
    Suffices prefixed (·.unspanned = (Phrase.reference ⟨name, span⟩).unspanned)
      (.name name :: us) us := by
  apply suffices_prefixed
  intro bound c hc hbound
  refine completes_last hc (by simp) (fails_range hc (by simp)) ?_
  refine ((fails_finish hc (by simp)).map _).orElse_completes ?_
  refine (((fails_character hc (by simp)).map _).labelled .literal).orElse_completes ?_
  refine Completes.labelled ?_ .reference
  obtain ⟨s, d, hname, hd, hlt⟩ := must_name hc
  exact ⟨_, d, hname.map Phrase.reference, rfl, hd, hlt⟩

/-! ## Elements and definitions -/

theorem suffices_plain {p : Phrase} (hts : ts.head? ≠ some (.sign '#'))
    (h : Suffices prefixed (·.unspanned = p.unspanned) ts us) :
    Suffices (fun bound => term (prefixed bound))
      (·.unspanned = (Element.mk false p).unspanned) ts us := by
  intro bound c hc hbound
  have hle := skipBlanks_length_le c
  obtain ⟨q, d, hq, hlike, hd, hlt⟩ :=
    h hc.splits.ready (show c.skipBlanks.rest.length < bound by omega)
  have hmark : (labelled .adjacent (text ['#'])).Fails c :=
    (fails_sign (by decide) hc hts).labelled _
  refine ⟨⟨false, q⟩, d, Must.labelled ?_ .term, ?_, hd, by omega⟩
  · exact hmark.optionally.bind ((must_blanks c).bind (hq.bind (must_pure _ _)))
  · simp only [Element.unspanned, hlike]

theorem suffices_adjacent {p : Phrase} (h : Suffices prefixed (·.unspanned = p.unspanned) ts us) :
    Suffices (fun bound => term (prefixed bound))
      (·.unspanned = (Element.mk true p).unspanned) (.sign '#' :: ts) us := by
  intro bound c hc hbound
  obtain ⟨d, hsign, hd, hlt⟩ := must_sign hc
  have hle := skipBlanks_length_le d
  obtain ⟨q, e, hq, hlike, he, hlt'⟩ :=
    h hd.ready (show d.skipBlanks.rest.length < bound by omega)
  refine ⟨⟨true, q⟩, e, Must.labelled ?_ .term, ?_, he, by omega⟩
  · exact (hsign.labelled .adjacent).optionally.bind
      ((must_blanks d).bind (hq.bind (must_pure _ _)))
  · simp only [Element.unspanned, hlike]

/-- A definition, where it is known what is read as its name. -/
theorem completes_definition {operand : Reader Phrase} {body : Alternatives} {c d : Cursor}
    {n : Option WrittenName} (hname : (optionally name).Must c n d)
    (hle : d.rest.length ≤ c.rest.length) (hd : Splits d.rest (.sign '=' :: ts))
    (h : ∀ e, Ready e ts → e.rest.length < c.rest.length → Completes (choice operand) e
      (unspannedAlternatives · = unspannedAlternatives body) (.sign ';' :: us)) :
    Completes (definition operand) c
      (fun x => x.name = n ∧ unspannedAlternatives x.body = unspannedAlternatives body) us := by
  have hle₀ := skipBlanks_length_le d
  obtain ⟨d₁, hequals, h₁, hlt₁⟩ := must_sign hd.ready
  have hle₁ := skipBlanks_length_le d₁
  obtain ⟨as, d₂, hchoice, hlike, h₂, hlt₂⟩ := h d₁.skipBlanks h₁.ready (by omega)
  have hle₂ := skipBlanks_length_le d₂
  obtain ⟨d₃, hclose, h₃, hlt₃⟩ := must_sign h₂.ready
  refine ⟨⟨n, as, d₁.skipBlanks.spanTo d₂⟩, d₃, Must.labelled ?_ .definition, ⟨rfl, hlike⟩, h₃,
    by omega⟩
  refine hname.bind ((must_blanks d).bind (hequals.bind ((must_blanks d₁).bind ?_)))
  exact hchoice.spanned.bind ((must_blanks d₂).bind (hclose.bind (must_pure _ _)))

theorem suffices_named {name : String} {nameSpan span : Span} {body : Alternatives}
    (h : Suffices (fun bound => choice (prefixed bound))
      (unspannedAlternatives · = unspannedAlternatives body) ts (.sign ';' :: us)) :
    Suffices (fun bound => definition (prefixed bound))
      (·.unspanned = (Definition.mk (some ⟨name, nameSpan⟩) body span).unspanned)
      (.name name :: .sign '=' :: ts) us := by
  intro bound c hc hbound
  obtain ⟨s, d, hname, hd, hlt⟩ := must_name hc
  have hbody : ∀ e, Ready e ts → e.rest.length < c.rest.length →
      Completes (choice (prefixed bound)) e (unspannedAlternatives · = unspannedAlternatives body)
        (.sign ';' :: us) := fun e he hlt => h he (by omega)
  obtain ⟨x, e, hx, ⟨hsame, hlike⟩, he, hlt'⟩ :=
    completes_definition hname.optionally (Nat.le_of_lt hlt) hd hbody
  refine ⟨x, e, hx, ?_, he, hlt'⟩
  simp only [Definition.unspanned, hsame, hlike]
  rfl

theorem suffices_unnamed {span : Span} {body : Alternatives}
    (h : Suffices (fun bound => choice (prefixed bound))
      (unspannedAlternatives · = unspannedAlternatives body) ts (.sign ';' :: us)) :
    Suffices (fun bound => definition (prefixed bound))
      (·.unspanned = (Definition.mk none body span).unspanned) (.sign '=' :: ts) us := by
  intro bound c hc hbound
  have hnone : Reader.name.Fails c := fails_name hc (by simp)
  have hbody : ∀ e, Ready e ts → e.rest.length < c.rest.length →
      Completes (choice (prefixed bound)) e (unspannedAlternatives · = unspannedAlternatives body)
        (.sign ';' :: us) := fun e he hlt => h he (by omega)
  obtain ⟨x, e, hx, ⟨hsame, hlike⟩, he, hlt⟩ :=
    completes_definition hnone.optionally (Nat.le_refl _) hc.splits hbody
  refine ⟨x, e, hx, ?_, he, hlt⟩
  simp only [Definition.unspanned, hsame, hlike]

end

/-! ## Whole derivations -/

end Reader

open Reader

/-- What readers must do where a part is derived.  Two dots behind an operand would make a literal a
range, and where a list of parts ends something must follow that does not begin one of them. -/
def Node.Complete : Node → List Token → List Token → Prop
  | .grammar ds, ts, us => us = [] →
    SufficesAny (fun bound => Reader.definition (prefixed bound))
      (·.map Definition.unspanned = ds.map Definition.unspanned) ts us
  | .definition d, ts, us =>
    Suffices (fun bound => Reader.definition (prefixed bound)) (·.unspanned = d.unspanned) ts us
  | .choice as, ts, us => Ends us →
    Suffices (fun bound => Reader.choice (prefixed bound))
      (unspannedAlternatives · = unspannedAlternatives as) ts us
  | .alternatives as, ts, us => Ends us →
    SufficesAny (fun bound => do text ['|']; blanks; Reader.sequence (prefixed bound))
      (unspannedAlternatives · = unspannedAlternatives as) ts us
  | .sequence es, ts, us => Closes us →
    Suffices (fun bound => Reader.sequence (prefixed bound))
      (unspannedElements · = unspannedElements es) ts us
  | .elements es, ts, us => Closes us →
    SufficesAny (fun bound => term (prefixed bound))
      (unspannedElements · = unspannedElements es) ts us
  | .element e, ts, us => us.head? ≠ some .dots →
    Suffices (fun bound => term (prefixed bound)) (·.unspanned = e.unspanned) ts us
  | .phrase p, ts, us => us.head? ≠ some .dots →
    Suffices prefixed (·.unspanned = p.unspanned) ts us

/-- What is derived is read, by induction on the derivation. -/
theorem Derives.complete {node : Node} {ts us : List Token} (h : Derives node ts us) :
    node.Complete ts us := by
  induction h with
  -- the follow conditions of lists are met by what the next rule expects behind them
  | grammar_nil =>
    rintro rfl
    refine SufficesAny.nil (fun bound c hc => ?_) rfl
    exact fails_definition hc (prefixed bound)
  | grammar_cons _ _ ihd ih =>
    intro hvs
    apply SufficesAny.cons ihd (ih hvs)
    intro x xs hx hxs
    rw [List.map_cons, List.map_cons, hx, hxs]
  | named _ ih => exact suffices_named (ih (ends_sign (by simp) _))
  | unnamed _ ih => exact suffices_unnamed (ih (ends_sign (by simp) _))
  | choice _ hmore ihs ih =>
    intro hvs bound c hc hbound
    refine Completes.labelled ?_ .choice
    refine Suffices.many (ihs (hmore.closes_alternatives hvs)) (ih hvs) ?_ hc hbound
    intro x xs hx hxs
    rw [unspannedAlternatives, unspannedAlternatives, hx, hxs]
  | alternatives_nil =>
    intro hus
    refine SufficesAny.nil (fun bound c hc => ?_) rfl
    exact (fails_sign (by decide) hc hus.head_ne).bind _
  | alternatives_cons _ hmore ihs ih =>
    intro hvs
    have hround : Suffices (fun bound => do text ['|']; blanks; Reader.sequence (prefixed bound))
        (unspannedElements · = unspannedElements _) (.sign '|' :: _) _ := fun bound c hc hbound =>
      Completes.behind hc fun d hd hlt =>
        ihs (hmore.closes_alternatives hvs) hd (by omega)
    apply SufficesAny.cons hround (ih hvs)
    intro x xs hx hxs
    rw [unspannedAlternatives, unspannedAlternatives, hx, hxs]
  | sequence _ hmore ihe ih =>
    intro hvs bound c hc hbound
    refine Completes.labelled ?_ .sequence
    refine Suffices.many (ihe (hmore.head_elements hvs)) (ih hvs) ?_ hc hbound
    intro x xs hx hxs
    rw [unspannedElements_cons, unspannedElements_cons, hx, hxs]
  | elements_nil =>
    intro hus
    refine SufficesAny.nil (fun bound c hc => ?_) rfl
    exact fails_term hc hus bound
  | elements_cons _ hmore ihe ih =>
    intro hvs
    apply SufficesAny.cons (ihe (hmore.head_elements hvs)) (ih hvs)
    intro x xs hx hxs
    rw [unspannedElements_cons, unspannedElements_cons, hx, hxs]
  | plain hp ih => exact fun hus => suffices_plain hp.head_ne_mark (ih hus)
  | adjacent _ ih => exact fun hus => suffices_adjacent (ih hus)
  | negation _ ih => exact fun hus => suffices_negation (ih hus)
  | capture => exact fun _ => suffices_capture
  | range => exact fun _ => suffices_range
  | range_open => exact fun _ => suffices_range_open
  | group _ ih => exact fun _ => suffices_group (ih (ends_sign (by simp) _))
  | repetition _ ih => exact fun _ => suffices_repetition (ih (ends_sign (by simp) _))
  | optional _ ih => exact fun _ => suffices_optional (ih (ends_sign (by simp) _))
  | finish => exact fun _ => suffices_finish
  | literal => exact fun hus => suffices_literal hus
  | reference => exact fun _ => suffices_reference

/-- A whole text of whose tokens definitions are derived is read. -/
theorem Reader.must_grammar {c : Cursor} {ts : List Token} {ds : List Definition} {bound : Nat}
    (hc : Splits c.rest ts) (h : Derives (.grammar ds) ts []) (hbound : c.rest.length < bound) :
    ∃ ds' d, (grammar (prefixed bound)).Must c ds' d ∧
      ds'.map Definition.unspanned = ds.map Definition.unspanned := by
  have hle := skipBlanks_length_le c
  obtain ⟨ds', d, hmany, hlike, hd, -⟩ := h.complete rfl hc.ready.splits
    (show c.skipBlanks.rest.length < bound by omega) (Nat.lt_succ_self c.skipBlanks.rest.length)
  refine ⟨ds', d.skipBlanks, Must.labelled ?_ .grammar, hlike⟩
  refine (must_blanks c).bind ((must_many hmany).bind ((must_blanks d).bind ?_))
  exact (must_endOfText hd.ready).bind (must_pure ds' _)

end PegTree
