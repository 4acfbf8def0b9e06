import PegTree.Proofs.Notation.Reading

/-!
# Reading tokens

A sign, a name, a character and the end of the text are read exactly where they are the next token.
What one of these readers may answer puts its token in front of what follows; where blanks have been
passed (`Ready`) it must read the next token if that is its own, and fails if it is not.
-/

namespace PegTree

/-! ## Places between tokens -/

/-- Blanks have been passed, and these tokens follow. -/
structure Ready (c : Cursor) (ts : List Token) : Prop where
  bare : Bare c.rest
  splits : Splits c.rest ts

theorem Splits.ready {c : Cursor} {ts : List Token} (h : Splits c.rest ts) : Ready c.skipBlanks ts :=
  ⟨bare_behindBlanks _ _ _, h.behind _⟩

theorem Splits.of_skipBlanks {c : Cursor} {ts : List Token} (h : Splits c.skipBlanks.rest ts) :
    Splits c.rest ts :=
  Splits.of_behind h

/-- A token in front of what follows. -/
theorem Splits.of_reads {c d : Cursor} {t : Token} {text : List Char} {ts : List Token}
    (hreads : c.Reads text d) (ht : t.Spelled text) (hends : t.EndsBefore d.rest)
    (h : Splits d.rest ts) : Splits c.rest (t :: ts) := by
  rw [hreads.1]
  exact .token ht hends h

theorem skipBlanks_length_le (c : Cursor) : c.skipBlanks.rest.length ≤ c.rest.length :=
  length_behindBlanks_le _ _ _

theorem reaches_behindBlanks (comment : Bool) (offset : Nat) (cs : List Char) :
    (Cursor.mk offset cs).Reaches (behindBlanks comment offset cs) := by
  fun_induction behindBlanks comment offset cs with
  | case1 => exact .refl _
  | case2 _ offset c cs _ ih | case3 _ offset c cs _ _ ih | case4 _ offset c cs _ _ _ ih =>
    have hfirst : (Cursor.mk offset (c :: cs)).Reads [c] ⟨offset + c.utf8Size, cs⟩ := ⟨rfl, rfl⟩
    exact .trans ⟨[c], hfirst⟩ ih
  | case5 => exact .refl _

theorem reaches_skipBlanks (c : Cursor) : c.Reaches c.skipBlanks :=
  reaches_behindBlanks _ _ _

/-- A token stands between two places, and this range is kept with it. -/
def Token.Stands (t : Token) (span : Span) (c d : Cursor) : Prop :=
  ∃ text, t.Spelled text ∧ c.Reads text d ∧ span = c.spanTo d

namespace Ready

variable {c : Cursor} {t : Token} {ts : List Token}

/-- The next token, and the place behind it. -/
theorem token (h : Ready c (t :: ts)) :
    ∃ text d, c.Reads text d ∧ t.Spelled text ∧ t.EndsBefore d.rest ∧ Splits d.rest ts ∧
      d.rest.length < c.rest.length := by
  rcases h.splits.head h.bare with ⟨-, hnil⟩ | ⟨t', text, rest, us, hrest, hts, ht, hends, hsplits⟩
  · cases hnil
  · obtain ⟨rfl, rfl⟩ := List.cons.inj hts
    refine ⟨text, ⟨c.offset + utf8Width text, rest⟩, ⟨hrest, rfl⟩, ht, hends, hsplits, ?_⟩
    obtain ⟨x, xs, rfl, -, -⟩ := ht.eq_cons
    simp only [hrest, List.length_append, List.length_cons]
    omega

theorem readToken (h : Ready c (t :: ts)) : ∃ rest, readToken c.rest = some (t, rest) := by
  obtain ⟨text, d, hreads, ht, hends, -, -⟩ := h.token
  exact ⟨d.rest, by rw [hreads.1]; exact ht.read hends⟩

theorem rest_eq_nil (h : Ready c []) : c.rest = [] := by
  rcases h.splits.head h.bare with ⟨hnil, -⟩ | ⟨t, text, rest, us, -, hts, -⟩
  · exact hnil
  · cases hts

/-- What comes next says which token is next. -/
theorem head_eq (h : Ready c ts) : ts.head? = (PegTree.readToken c.rest).map Prod.fst := by
  cases ts with
  | nil => simp [h.rest_eq_nil, PegTree.readToken]
  | cons t ts =>
    obtain ⟨rest, hread⟩ := h.readToken
    simp [hread]

end Ready

theorem readToken_sign {x : Char} (hx : x ∈ signs) (more : List Char) :
    readToken (x :: more) = some (.sign x, more) := by
  have hends : Token.EndsBefore (.sign x) more := trivial
  simpa using (Token.Spelled.sign hx).read hends

namespace Reader

variable {c d : Cursor} {ts : List Token}

/-! ## Signs -/

theorem May.sign {x : Char} {u : Unit} (h : (text [x]).May c u d) (hx : x ∈ signs)
    (hd : Splits d.rest ts) : Splits c.rest (.sign x :: ts) :=
  .of_reads h.of_text (.sign hx) trivial hd

theorem must_sign {x : Char} (h : Ready c (.sign x :: ts)) :
    ∃ d, (text [x]).Must c () d ∧ Splits d.rest ts ∧ d.rest.length < c.rest.length := by
  obtain ⟨text, d, hreads, ht, -, hd, hlt⟩ := h.token
  cases ht
  exact ⟨d, must_text hreads, hd, hlt⟩

theorem fails_sign {x : Char} (hx : x ∈ signs) (h : Ready c ts) (hne : ts.head? ≠ some (.sign x)) :
    (text [x]).Fails c :=
  fails_text fun rest hrest => hne (by
    rw [h.head_eq, hrest, List.singleton_append, readToken_sign hx rest]
    rfl)

/-- The two dots of a range. -/
theorem May.dots {u : Unit} (h : (text ['.', '.']).May c u d) (hd : Splits d.rest ts) :
    Splits c.rest (.dots :: ts) :=
  .of_reads h.of_text .dots trivial hd

theorem must_dots (h : Ready c (.dots :: ts)) :
    ∃ d, (text ['.', '.']).Must c () d ∧ Splits d.rest ts ∧ d.rest.length < c.rest.length := by
  obtain ⟨text, d, hreads, ht, -, hd, hlt⟩ := h.token
  cases ht
  exact ⟨d, must_text hreads, hd, hlt⟩

theorem fails_dots (h : Ready c ts) (hne : ts.head? ≠ some .dots) : (text ['.', '.']).Fails c :=
  fails_text fun rest hrest => hne (by
    rw [h.head_eq, hrest]
    rfl)

/-! ## Names -/

/-- A name that is read stands there in full. -/
theorem May.name_stands {n : WrittenName} (h : Reader.name.May c n d) :
    (Token.name n.text).Stands n.span c d ∧ (Token.name n.text).EndsBefore d.rest := by
  obtain ⟨⟨word, span⟩, _, hword, hanswer⟩ := h.of_labelled.of_bind
  obtain ⟨rfl, rfl⟩ := hanswer.of_pure
  have hspan := hword.span_eq
  obtain ⟨first, middle, hfirst, hmore⟩ := hword.of_spanned.of_bind
  obtain ⟨more, _, hlongest, hboth⟩ := hmore.of_bind
  obtain ⟨hword, rfl⟩ := hboth.of_pure
  obtain ⟨hreads, hlen, hbegins⟩ := hfirst.of_exactly
  obtain ⟨hreads', hcontinues, hstop⟩ := hlongest.of_longest
  obtain ⟨x, rfl⟩ := List.length_eq_one_iff.mp hlen
  have hreads : c.Reads (x :: more) d := hreads.append hreads'
  simp only at hword
  subst hword
  exact ⟨⟨_, .name (hbegins x List.mem_cons_self) hcontinues, hreads, hspan⟩, hstop⟩

theorem May.name {n : WrittenName} (h : Reader.name.May c n d) (hd : Splits d.rest ts) :
    Splits c.rest (.name n.text :: ts) := by
  obtain ⟨⟨text, ht, hreads, -⟩, hends⟩ := h.name_stands
  exact .of_reads hreads ht hends hd

theorem must_name {n : String} (h : Ready c (.name n :: ts)) :
    ∃ span d, Reader.name.Must c ⟨n, span⟩ d ∧ Splits d.rest ts ∧ d.rest.length < c.rest.length := by
  obtain ⟨text, d, hreads, ht, hends, hd, hlt⟩ := h.token
  cases ht with
  | @name x xs hx hxs =>
    obtain ⟨middle, hfirst, hmore⟩ := Cursor.Reads.split (s := [x]) hreads
    have hbegins : (exactly 1 beginsName).Must c [x] middle :=
      must_exactly hfirst (by simpa using hx)
    have hcontinues : (longest continuesName).Must middle xs d := must_longest hmore hxs hends
    refine ⟨c.spanTo d, d, Must.labelled ?_ .name, hd, hlt⟩
    refine Must.bind (Must.spanned ?_) (must_pure _ _)
    exact hbegins.bind (hcontinues.bind (must_pure (x :: xs) d))

theorem fails_name (h : Ready c ts) (hne : ∀ n, ts.head? ≠ some (.name n)) : Reader.name.Fails c := by
  have hfirst : (exactly 1 beginsName).Fails c := by
    apply fails_exactly_one
    intro x more hx
    rw [Bool.eq_false_iff]
    intro hbegins
    have hhead := h.head_eq
    rw [hx, readToken, if_pos hbegins] at hhead
    exact hne _ hhead
  exact Fails.labelled ((hfirst.bind _).spanned.bind _) .name

/-! ## Characters -/

theorem May.between {quote : Char} {form : CharacterForm} (h : (between quote).May c form d) :
    ∃ body, form = .quoted body ∧ quote ∉ body ∧ c.Reads (quote :: (body ++ [quote])) d := by
  obtain ⟨u, first, hopen, hrest⟩ := May.of_bind h
  obtain ⟨body, last, hbody, hclose⟩ := hrest.of_bind
  obtain ⟨u', stop, hquote, hanswer⟩ := hclose.of_bind
  obtain ⟨rfl, rfl⟩ := hanswer.of_pure
  obtain ⟨hreads, hall, -⟩ := hbody.of_longest
  refine ⟨body, rfl, fun hin => ?_, hopen.of_text.append (hreads.append hquote.of_text)⟩
  simpa using hall quote hin

theorem May.digits {kind : Char} {n : Nat} {form : CharacterForm} (h : (digits kind n).May c form d) :
    ∃ word, form = .code word ∧ word.length = n ∧ (∀ y ∈ word, isHexDigit y = true) ∧
      c.Reads ('\\' :: kind :: word) d := by
  obtain ⟨u, first, hsign, hrest⟩ := May.of_bind h
  obtain ⟨word, hword, rfl⟩ := hrest.of_map
  obtain ⟨hreads, hlen, hall⟩ := hword.of_exactly
  exact ⟨word, rfl, hlen, hall, hsign.of_text.append hreads⟩

/-- A character that is read stands there. -/
theorem May.character_stands {w : WrittenCharacter} (h : Reader.character.May c w d) :
    (Token.character w.form).Stands w.span c d := by
  obtain ⟨⟨form, span⟩, _, hform, hanswer⟩ := May.of_bind h
  obtain ⟨rfl, rfl⟩ := hanswer.of_pure
  have hspan := hform.span_eq
  rcases hform.of_spanned.of_orElse with hquoted | hcode
  · rcases hquoted.of_labelled.of_orElse with hquoted | hquoted <;>
      obtain ⟨body, hbody, hno, hreads⟩ := hquoted.between <;>
      simp only at hbody <;> subst hbody
    · exact ⟨_, .quoted (.inl rfl) hno, hreads, hspan⟩
    · exact ⟨_, .quoted (.inr rfl) hno, hreads, hspan⟩
  · rcases hcode.of_labelled.of_orElse with hcode | hcode <;>
      obtain ⟨word, hword, hlen, hall, hreads⟩ := hcode.digits <;>
      simp only at hword <;> subst hword
    · exact ⟨_, .code (.inl ⟨rfl, hlen⟩) hall, hreads, hspan⟩
    · exact ⟨_, .code (.inr ⟨rfl, hlen⟩) hall, hreads, hspan⟩

theorem May.character {w : WrittenCharacter} (h : Reader.character.May c w d)
    (hd : Splits d.rest ts) : Splits c.rest (.character w.form :: ts) := by
  obtain ⟨text, ht, hreads, -⟩ := h.character_stands
  exact .of_reads hreads ht trivial hd

theorem must_between {quote : Char} {body : List Char} (h : c.Reads (quote :: (body ++ [quote])) d)
    (hno : quote ∉ body) : (between quote).Must c (.quoted body) d := by
  obtain ⟨first, hopen, hrest⟩ := Cursor.Reads.split (s := [quote]) h
  obtain ⟨last, hbody, hclose⟩ := hrest.split
  -- the longest run without the quote ends at the closing one
  have hall : ∀ y ∈ body, (y != quote) = true := by
    intro y hy
    simpa using fun heq : y = quote => hno (heq ▸ hy)
  have hstop : ∀ x more, last.rest = x :: more → (x != quote) = false := by
    intro x more hx
    rw [hclose.1] at hx
    obtain ⟨rfl, -⟩ := List.cons.inj hx
    simp
  exact (must_text hopen).bind ((must_longest hbody hall hstop).bind
    ((must_text hclose).bind (must_pure _ _)))

theorem must_digits {kind : Char} {word : List Char} (h : c.Reads ('\\' :: kind :: word) d)
    (hall : ∀ y ∈ word, isHexDigit y = true) : (digits kind word.length).Must c (.code word) d := by
  obtain ⟨first, hsign, hword⟩ := Cursor.Reads.split (s := ['\\', kind]) h
  exact (must_text hsign).bind ((must_exactly hword hall).map _)

theorem fails_between {quote : Char} (h : c.rest.head? ≠ some quote) : (between quote).Fails c := by
  refine Fails.bind (fails_text fun rest hrest => h ?_) _
  rw [hrest]
  rfl

theorem fails_digits {kind : Char} {n : Nat} (h : ∀ rest, c.rest ≠ '\\' :: kind :: rest) :
    (digits kind n).Fails c :=
  Fails.bind (fails_text h) _

theorem must_character {form : CharacterForm} (h : Ready c (.character form :: ts)) :
    ∃ span d, Reader.character.Must c ⟨form, span⟩ d ∧ Splits d.rest ts ∧
      d.rest.length < c.rest.length := by
  obtain ⟨text, d, hreads, ht, -, hd, hlt⟩ := h.token
  refine ⟨c.spanTo d, d, ?_, hd, hlt⟩
  refine Must.bind (Must.spanned ?_) (must_pure _ _)
  cases ht with
  | @quoted quote body hquote hno =>
    refine Must.orElse (Must.labelled ?_ .quoted) _
    rcases hquote with rfl | rfl
    · exact (must_between hreads hno).orElse _
    · refine (fails_between ?_).orElse_must (must_between hreads hno)
      simp [hreads.1]
  | @code kind word hkind hall =>
    have hhead : c.rest.head? = some '\\' := by rw [hreads.1]; rfl
    -- a backslash is no quote
    refine Fails.orElse_must ((Fails.orElse ?_ ?_).labelled .quoted) (Must.labelled ?_ .charCode)
    · exact fails_between (by rw [hhead]; decide)
    · exact fails_between (by rw [hhead]; decide)
    · rcases hkind with ⟨rfl, hlen⟩ | ⟨rfl, hlen⟩
      · rw [← hlen]
        exact (must_digits hreads hall).orElse _
      · rw [← hlen]
        refine (fails_digits fun rest hrest => ?_).orElse_must (must_digits hreads hall)
        rw [hreads.1] at hrest
        simp at hrest

theorem fails_character (h : Ready c ts) (hne : ∀ form, ts.head? ≠ some (.character form)) :
    Reader.character.Fails c := by
  have hquote : ∀ quote, quote = '\'' ∨ quote = '"' → c.rest.head? ≠ some quote := by
    intro quote hquote hc
    obtain ⟨more, hmore⟩ := List.head?_eq_some_iff.mp hc
    have hhead := h.head_eq
    have hbegins : beginsName quote = false := by rcases hquote with rfl | rfl <;> decide
    rw [hmore, readToken, hbegins, if_neg (by simp), if_pos hquote] at hhead
    exact hne _ hhead
  have hcode : ∀ kind rest, c.rest ≠ '\\' :: kind :: rest := by
    intro kind rest hrest
    have hhead := h.head_eq
    rw [hrest] at hhead
    exact hne _ hhead
  refine Fails.bind (Fails.spanned (Fails.orElse ?_ ?_)) _
  · exact ((fails_between (hquote _ (.inl rfl))).orElse (fails_between (hquote _ (.inr rfl)))).labelled _
  · exact ((fails_digits (hcode 'x')).orElse (fails_digits (hcode 'u'))).labelled _

/-! ## Ends -/

theorem May.finish {u : Unit} (h : Reader.finish.May c u d) (hd : Splits d.rest ts) :
    Splits c.rest (.sign '$' :: ts) :=
  h.of_labelled.sign (by decide) hd

theorem must_finish (h : Ready c (.sign '$' :: ts)) :
    ∃ d, Reader.finish.Must c () d ∧ Splits d.rest ts ∧ d.rest.length < c.rest.length := by
  obtain ⟨d, hsign, hd, hlt⟩ := must_sign h
  exact ⟨d, hsign.labelled .finish, hd, hlt⟩

theorem fails_finish (h : Ready c ts) (hne : ts.head? ≠ some (.sign '$')) : Reader.finish.Fails c :=
  (fails_sign (by decide) h hne).labelled .finish

theorem May.endOfText {u : Unit} (h : Reader.endOfText.May c u d) : Splits c.rest [] := by
  obtain ⟨start, _, hstart, hbody⟩ := h.of_labelled.of_bind
  obtain ⟨rfl, rfl⟩ := hstart.of_get
  split at hbody
  · next hnil =>
    rw [List.isEmpty_iff.mp hnil]
    exact .done
  · exact hbody.of_failure.elim

theorem must_endOfText (h : Ready c []) : Reader.endOfText.Must c () c := by
  refine Must.labelled ((must_get c).bind ?_) .endOfText
  rw [if_pos (List.isEmpty_iff.mpr h.rest_eq_nil)]
  exact must_pure _ _

end Reader

end PegTree
