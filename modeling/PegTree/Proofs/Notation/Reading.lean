import PegTree.Notation.Reader
import PegTree.Proofs.Notation.Token
import PegTree.Proofs.Text.Reach

/-!
# What readers do

A reader may answer, if it does so with some record of attempts; it must answer, or fail, if it does so
with every record.  What may be answered is followed backwards through the parts of a reader, what must
be answered forwards, and the records are never spoken of again.
-/

namespace PegTree

namespace Reader

variable {α β : Type}

/-- With some record of attempts the reader answers `x` and stops at `d`. -/
def May (r : Reader α) (c : Cursor) (x : α) (d : Cursor) : Prop :=
  ∃ attempts, ((r c).run.run attempts).1 = some (x, d)

/-- With every record of attempts the reader answers `x` and stops at `d`. -/
def Must (r : Reader α) (c : Cursor) (x : α) (d : Cursor) : Prop :=
  ∀ attempts, ((r c).run.run attempts).1 = some (x, d)

/-- With every record of attempts the reader fails. -/
def Fails (r : Reader α) (c : Cursor) : Prop :=
  ∀ attempts, ((r c).run.run attempts).1 = none

section

variable {r s : Reader α} {f : α → Reader β} {c d e : Cursor} {x : α} {y : β} {part : Part}

/-! ## Runs of combined readers -/

theorem run_bind (r : Reader α) (f : α → Reader β) (c : Cursor) (attempts : Attempts) :
    ((r >>= f) c).run.run attempts =
      match (r c).run.run attempts with
      | (some (x, d), attempts) => (f x d).run.run attempts
      | (none, attempts) => (none, attempts) := by
  show (OptionT.run (StateT.run (r >>= f) c)).run attempts = _
  rw [StateT.run_bind, OptionT.run_bind, Option.elimM, StateT.run_bind]
  generalize hrun : StateT.run (OptionT.run (StateT.run r c)) attempts = answer
  change StateT.run (OptionT.run (r c)) attempts = answer at hrun
  rw [hrun]
  rcases answer with ⟨_ | ⟨x, d⟩, attempts'⟩ <;> rfl

theorem run_orElse (r s : Reader α) (c : Cursor) (attempts : Attempts) :
    ((r <|> s) c).run.run attempts =
      match (r c).run.run attempts with
      | (some answer, attempts) => (some answer, attempts)
      | (none, attempts) => (s c).run.run attempts := by
  show (OptionT.run (r c <|> s c)).run attempts = _
  rw [OptionT.run_orElse, Option.elimM, StateT.run_bind]
  rcases (r c).run.run attempts with ⟨_ | answer, attempts'⟩ <;> rfl

theorem run_labelled (part : Part) (r : Reader α) (c : Cursor) (attempts : Attempts) :
    ((labelled part r c).run.run attempts).1 = ((r c).run.run attempts).1 := by
  rw [labelled, OptionT.run_mk, StateT.run_bind]
  show (StateT.run ((r c).run >>= _) attempts).1 = _
  rw [StateT.run_bind]
  rcases (r c).run.run attempts with ⟨_ | ⟨x, d⟩, attempts'⟩ <;> rfl

/-! ## What may be answered -/

theorem May.of_bind (h : (r >>= f).May c y e) : ∃ x d, r.May c x d ∧ (f x).May d y e := by
  obtain ⟨attempts, h⟩ := h
  rw [run_bind] at h
  rcases hr : (r c).run.run attempts with ⟨_ | ⟨x, d⟩, attempts'⟩ <;> rw [hr] at h
  · cases h
  · exact ⟨x, d, ⟨attempts, by rw [hr]⟩, attempts', h⟩

theorem May.of_orElse (h : (r <|> s).May c x d) : r.May c x d ∨ s.May c x d := by
  obtain ⟨attempts, h⟩ := h
  rw [run_orElse] at h
  rcases hr : (r c).run.run attempts with ⟨_ | answer, attempts'⟩ <;> rw [hr] at h
  · exact .inr ⟨attempts', h⟩
  · exact .inl ⟨attempts, by rw [hr]; exact h⟩

theorem May.of_labelled (h : (labelled part r).May c x d) : r.May c x d := by
  obtain ⟨attempts, h⟩ := h
  exact ⟨attempts, run_labelled part r c attempts ▸ h⟩

theorem May.of_pure {x' : α} (h : (pure x : Reader α).May c x' d) : x' = x ∧ d = c := by
  obtain ⟨attempts, h⟩ := h
  cases h
  exact ⟨rfl, rfl⟩

theorem May.of_map {g : α → β} (h : (g <$> r).May c y d) : ∃ x, r.May c x d ∧ y = g x := by
  rw [map_eq_pure_bind] at h
  obtain ⟨x, d', hx, hy⟩ := h.of_bind
  obtain ⟨rfl, rfl⟩ := hy.of_pure
  exact ⟨x, hx, rfl⟩

theorem May.of_get {d' : Cursor} (h : (get : Reader Cursor).May c d d') : c = d ∧ c = d' := by
  obtain ⟨attempts, h⟩ := h
  cases h
  exact ⟨rfl, rfl⟩

theorem May.of_set {d' : Cursor} {u : PUnit} (h : (set d : Reader PUnit).May c u d') : d' = d := by
  obtain ⟨attempts, h⟩ := h
  cases h
  rfl

theorem May.of_failure (h : (failure : Reader α).May c x d) : False := by
  obtain ⟨attempts, h⟩ := h
  cases h

theorem May.of_blanks {u : Unit} (h : blanks.May c u d) : d = c.skipBlanks := by
  obtain ⟨attempts, h⟩ := h
  cases h
  rfl

theorem May.both_of_spanned {xs : α × Span} (h : (spanned r).May c xs d) :
    r.May c xs.1 d ∧ xs.2 = c.spanTo d := by
  obtain ⟨start, _, hstart, hbody⟩ := May.of_bind h
  obtain ⟨rfl, rfl⟩ := hstart.of_get
  obtain ⟨x, d', hr, hend⟩ := hbody.of_bind
  obtain ⟨stop, _, hstop, hanswer⟩ := hend.of_bind
  obtain ⟨rfl, rfl⟩ := hstop.of_get
  obtain ⟨rfl, rfl⟩ := hanswer.of_pure
  exact ⟨hr, rfl⟩

theorem May.of_spanned {xs : α × Span} (h : (spanned r).May c xs d) : r.May c xs.1 d :=
  h.both_of_spanned.1

/-- The range that goes with an answer is the one that was taken. -/
theorem May.span_eq {xs : α × Span} (h : (spanned r).May c xs d) : xs.2 = c.spanTo d :=
  h.both_of_spanned.2

theorem May.of_text {t : List Char} {u : Unit} (h : (text t).May c u d) : c.Reads t d := by
  obtain ⟨start, _, hstart, hmatch⟩ := May.of_bind h
  obtain ⟨rfl, rfl⟩ := hstart.of_get
  split at hmatch
  · next stop hstop =>
    obtain rfl := hmatch.of_set
    exact Cursor.dropPrefix?_eq_some.mp hstop
  · exact hmatch.of_failure.elim

/-! ## What must be answered -/

theorem Must.bind (h : r.Must c x d) (hf : (f x).Must d y e) : (r >>= f).Must c y e := by
  intro attempts
  have hr := h attempts
  rw [run_bind]
  rcases hrun : (r c).run.run attempts with ⟨answer, attempts'⟩
  rw [hrun] at hr
  subst hr
  exact hf attempts'

theorem Fails.bind (h : r.Fails c) (f : α → Reader β) : (r >>= f).Fails c := by
  intro attempts
  have hr := h attempts
  rw [run_bind]
  rcases hrun : (r c).run.run attempts with ⟨answer, attempts'⟩
  rw [hrun] at hr
  subst hr
  rfl

/-- What comes next fails. -/
theorem Must.fails (h : r.Must c x d) (hf : (f x).Fails d) : (r >>= f).Fails c := by
  intro attempts
  have hr := h attempts
  rw [run_bind]
  rcases hrun : (r c).run.run attempts with ⟨answer, attempts'⟩
  rw [hrun] at hr
  subst hr
  exact hf attempts'

theorem Must.orElse (h : r.Must c x d) (s : Reader α) : (r <|> s).Must c x d := by
  intro attempts
  have hr := h attempts
  rw [run_orElse]
  rcases hrun : (r c).run.run attempts with ⟨answer, attempts'⟩
  rw [hrun] at hr
  subst hr
  rfl

theorem Fails.orElse_must (h : r.Fails c) (hs : s.Must c x d) : (r <|> s).Must c x d := by
  intro attempts
  have hr := h attempts
  rw [run_orElse]
  rcases hrun : (r c).run.run attempts with ⟨answer, attempts'⟩
  rw [hrun] at hr
  subst hr
  exact hs attempts'

theorem Fails.orElse (h : r.Fails c) (hs : s.Fails c) : (r <|> s).Fails c := by
  intro attempts
  have hr := h attempts
  rw [run_orElse]
  rcases hrun : (r c).run.run attempts with ⟨answer, attempts'⟩
  rw [hrun] at hr
  subst hr
  exact hs attempts'

theorem Must.labelled (h : r.Must c x d) (part : Part) : (labelled part r).Must c x d :=
  fun attempts => (run_labelled part r c attempts).trans (h attempts)

theorem Fails.labelled (h : r.Fails c) (part : Part) : (labelled part r).Fails c :=
  fun attempts => (run_labelled part r c attempts).trans (h attempts)

theorem must_pure (x : α) (c : Cursor) : (pure x : Reader α).Must c x c :=
  fun _ => rfl

theorem Must.map (h : r.Must c x d) (g : α → β) : (g <$> r).Must c (g x) d := by
  rw [map_eq_pure_bind]
  exact h.bind (must_pure _ _)

theorem Fails.map (h : r.Fails c) (g : α → β) : (g <$> r).Fails c := by
  rw [map_eq_pure_bind]
  exact h.bind _

theorem must_get (c : Cursor) : (get : Reader Cursor).Must c c c :=
  fun _ => rfl

theorem must_set (c d : Cursor) : (set d : Reader PUnit).Must c ⟨⟩ d :=
  fun _ => rfl

theorem fails_failure (c : Cursor) : (failure : Reader α).Fails c :=
  fun _ => rfl

theorem must_blanks (c : Cursor) : blanks.Must c () c.skipBlanks :=
  fun _ => rfl

theorem Must.spanned (h : r.Must c x d) : (spanned r).Must c (x, c.spanTo d) d :=
  (must_get c).bind (h.bind ((must_get d).bind (must_pure _ _)))

theorem Fails.spanned (h : r.Fails c) : (spanned r).Fails c :=
  (must_get c).fails (h.bind _)

theorem must_text {t : List Char} (h : c.Reads t d) : (text t).Must c () d := by
  refine (must_get c).bind ?_
  rw [Cursor.dropPrefix?_eq_some.mpr h]
  exact must_set c d

theorem fails_text {t : List Char} (h : ∀ rest, c.rest ≠ t ++ rest) : (text t).Fails c := by
  refine (must_get c).fails ?_
  rw [Cursor.dropPrefix?_eq_none.mpr h]
  exact fails_failure c

end

/-! ## Runs of characters -/

section

variable {c d : Cursor} {kind : Char → Bool} {word : List Char}

theorem May.of_longest (h : (longest kind).May c word d) :
    c.Reads word d ∧ (∀ y ∈ word, kind y = true) ∧
      ∀ x more, d.rest = x :: more → kind x = false := by
  obtain ⟨start, _, hstart, hbody⟩ := May.of_bind h
  obtain ⟨rfl, rfl⟩ := hstart.of_get
  obtain ⟨u, stop, hset, hanswer⟩ := hbody.of_bind
  obtain rfl := hset.of_set
  obtain ⟨hword, hd⟩ := hanswer.of_pure
  have htake : c.rest.take word.length = word := by
    rw [hword]
    exact (List.prefix_iff_eq_take.mp (List.takeWhile_prefix kind)).symm
  have hreads : c.Reads word d := by
    have hadvance := c.reads_advance word.length
    rwa [htake, hword, ← hd, ← hword] at hadvance
  have hrest : d.rest = c.rest.dropWhile kind := by
    have hboth : word ++ c.rest.dropWhile kind = c.rest := by
      rw [hword]
      exact List.takeWhile_append_dropWhile
    exact List.append_cancel_left (hreads.1.symm.trans hboth.symm)
  refine ⟨hreads, ?_, ?_⟩
  · rw [hword]
    exact List.all_eq_true.mp List.all_takeWhile
  · intro x more hx
    have hhead := List.head?_dropWhile_not kind c.rest
    rwa [← hrest, hx] at hhead

theorem must_longest (h : c.Reads word d) (hword : ∀ y ∈ word, kind y = true)
    (hstop : ∀ x more, d.rest = x :: more → kind x = false) : (longest kind).Must c word d := by
  have htake : c.rest.takeWhile kind = word := by
    rw [h.1]
    exact takeWhile_append_of_stop hword hstop
  refine (must_get c).bind ?_
  simp only [htake, h.advance_eq]
  exact (must_set c d).bind (must_pure _ _)

theorem May.of_exactly {n : Nat} (h : (exactly n kind).May c word d) :
    c.Reads word d ∧ word.length = n ∧ ∀ y ∈ word, kind y = true := by
  obtain ⟨start, _, hstart, hbody⟩ := May.of_bind h
  obtain ⟨rfl, rfl⟩ := hstart.of_get
  simp only at hbody
  split at hbody
  · next hword =>
    obtain ⟨u, stop, hset, hanswer⟩ := hbody.of_bind
    obtain rfl := hset.of_set
    obtain ⟨rfl, rfl⟩ := hanswer.of_pure
    exact ⟨c.reads_advance n, hword.1, List.all_eq_true.mp hword.2⟩
  · exact hbody.of_failure.elim

theorem must_exactly (h : c.Reads word d) (hword : ∀ y ∈ word, kind y = true) :
    (exactly word.length kind).Must c word d := by
  have htake : c.rest.take word.length = word := by rw [h.1, List.take_left]
  refine (must_get c).bind ?_
  simp only [htake, true_and, if_pos (List.all_eq_true.mpr hword), h.advance_eq]
  exact (must_set c d).bind (must_pure _ _)

/-- A character of a kind is not there. -/
theorem fails_exactly_one (h : ∀ x more, c.rest = x :: more → kind x = false) :
    (exactly 1 kind).Fails c := by
  refine (must_get c).fails ?_
  have hno : ¬ ((c.rest.take 1).length = 1 ∧ (c.rest.take 1).all kind = true) := by
    rintro ⟨hlen, hall⟩
    cases hc : c.rest with
    | nil => simp [hc] at hlen
    | cons x more => simp [hc, h x more hc] at hall
  simp only [if_neg hno]
  exact fails_failure c

end

/-! ## Repetitions -/

section

variable {α : Type} {r : Reader α} {c d e : Cursor} {x : α} {xs : List α}

/-- A repetition ends at once or goes on behind a first round. -/
theorem May.of_repeatAtMost {n : Nat} (h : (repeatAtMost r n).May c xs e) :
    xs = [] ∧ e = c ∨
      ∃ m x more d, xs = x :: more ∧ r.May c.skipBlanks x d ∧ (repeatAtMost r m).May d more e := by
  cases n with
  | zero => exact .inl h.of_pure
  | succ n =>
    rcases May.of_orElse h with hround | hend
    · obtain ⟨u, c', hblanks, hfirst⟩ := hround.of_bind
      obtain rfl := hblanks.of_blanks
      obtain ⟨x, d, hr, hmore⟩ := hfirst.of_bind
      obtain ⟨more, e', hrepeat, hanswer⟩ := hmore.of_bind
      obtain ⟨rfl, rfl⟩ := hanswer.of_pure
      exact .inr ⟨n, x, more, d, rfl, hr, hrepeat⟩
    · exact .inl hend.of_pure

theorem May.of_many (h : (many r).May c xs e) : ∃ n, (repeatAtMost r n).May c xs e := by
  obtain ⟨start, _, hstart, hbody⟩ := May.of_bind h
  obtain ⟨rfl, rfl⟩ := hstart.of_get
  exact ⟨_, hbody⟩

theorem must_repeat_stop (h : r.Fails c.skipBlanks) (n : Nat) : (repeatAtMost r n).Must c [] c := by
  cases n with
  | zero => exact must_pure _ _
  | succ n =>
    rw [repeatAtMost]
    exact ((must_blanks c).fails (h.bind _)).orElse_must (must_pure _ _)

theorem must_repeat_again {n : Nat} (h : r.Must c.skipBlanks x d)
    (hmore : (repeatAtMost r n).Must d xs e) : (repeatAtMost r (n + 1)).Must c (x :: xs) e := by
  rw [repeatAtMost]
  refine Must.orElse ((must_blanks c).bind (h.bind ?_)) _
  exact hmore.bind (must_pure (x :: xs) e)

theorem must_many (h : (repeatAtMost r (c.rest.length + 1)).Must c xs e) : (many r).Must c xs e :=
  (must_get c).bind h

theorem May.of_optionally {answer : Option α} (h : (optionally r).May c answer d) :
    answer = none ∧ d = c ∨ ∃ x, answer = some x ∧ r.May c x d := by
  rcases May.of_orElse h with hsome | hnone
  · obtain ⟨x, hr, rfl⟩ := hsome.of_map
    exact .inr ⟨x, rfl, hr⟩
  · exact .inl hnone.of_pure

theorem Must.optionally (h : r.Must c x d) : (optionally r).Must c (some x) d :=
  (h.map some).orElse _

theorem Fails.optionally (h : r.Fails c) : (optionally r).Must c none c :=
  (h.map some).orElse_must (must_pure _ _)

end

end Reader

end PegTree
