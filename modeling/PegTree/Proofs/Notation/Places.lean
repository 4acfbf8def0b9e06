import PegTree.Proofs.Notation.Exactness

/-!
# Where things are written

Whatever in a definition is kept with a range of the text stands in that range, and in the order in
which it is kept (`row_read`).  A `Row` are things that stand one behind the other between
two places; the definitions of a text are a row, and in each of them so are the names, characters and
ranges of its body, its `Site`s, however deep they are nested.
-/

namespace PegTree

/-! ## Rows -/

/-- Things that stand one behind the other between two places, perhaps with something between them. -/
inductive Row {α : Type} (stands : Cursor → α → Cursor → Prop) : Cursor → List α → Cursor → Prop
  | nil {c d : Cursor} : c.Reaches d → Row stands c [] d
  | cons {c a b d : Cursor} {x : α} {xs : List α} :
      c.Reaches a → stands a x b → Row stands b xs d → Row stands c (x :: xs) d

namespace Row

variable {α β : Type} {stands : Cursor → α → Cursor → Prop} {stands' : Cursor → β → Cursor → Prop}
  {b c d e : Cursor} {x : α} {xs ys : List α}

theorem before (h : b.Reaches c) (hrow : Row stands c xs d) : Row stands b xs d := by
  cases hrow with
  | nil hd => exact .nil (h.trans hd)
  | cons ha hx hmore => exact .cons (h.trans ha) hx hmore

theorem append (h : Row stands c xs d) (h' : Row stands d ys e) : Row stands c (xs ++ ys) e := by
  induction h with
  | nil hd => exact h'.before hd
  | cons ha hx _ ih => exact .cons ha hx (ih h')

/-- What stands there under one description may do so under another. -/
theorem imp {other : Cursor → α → Cursor → Prop} (h : Row stands c xs d)
    (himp : ∀ {a x b}, stands a x b → other a x b) : Row other c xs d := by
  induction h with
  | nil hd => exact .nil hd
  | cons ha hx _ ih => exact .cons ha (himp hx) ih

theorem behind (h : Row stands c xs d) (hd : d.Reaches e) : Row stands c xs e := by
  simpa using h.append (.nil hd)

theorem one (h : stands c x d) : Row stands c [x] d :=
  .cons (.refl c) h (.nil (.refl d))

/-- Rows in a row. -/
theorem flatMap {f : α → List β} (h : Row stands c xs d)
    (hf : ∀ {a x b}, stands a x b → Row stands' a (f x) b) : Row stands' c (xs.flatMap f) d := by
  induction h with
  | nil hd => exact .nil hd
  | cons ha hx _ ih => exact (hf hx).before ha |>.append ih

theorem reaches (h : Row stands c xs d) (hstands : ∀ {a x b}, stands a x b → a.Reaches b) :
    c.Reaches d := by
  induction h with
  | nil hd => exact hd
  | cons ha hx _ ih => exact ha.trans ((hstands hx).trans ih)

/-- What is in a row stands somewhere behind its beginning. -/
theorem exists_stands (h : Row stands c xs d) (hstands : ∀ {a x b}, stands a x b → a.Reaches b)
    (hx : x ∈ xs) : ∃ a b, c.Reaches a ∧ stands a x b := by
  induction h with
  | nil => cases hx
  | cons ha hfirst _ ih =>
    rcases List.mem_cons.mp hx with rfl | hx
    · exact ⟨_, _, ha, hfirst⟩
    · obtain ⟨a, b, hreach, hin⟩ := ih hx
      exact ⟨a, b, ha.trans ((hstands hfirst).trans hreach), hin⟩

end Row

/-! ## Sites -/

/-- A part of a body of which a grammar may be at fault. -/
inductive Site where
  | name (name : WrittenName)
  | character (character : WrittenCharacter)
  | range (low : WrittenCharacter) (high : Option WrittenCharacter) (span : Span)

mutual

/-- The sites of a phrase in text order. -/
def Phrase.sites : Phrase → List Site
  | .negation operand => operand.sites
  | .capture name => [.name name]
  | .range low high span => [.range low high span]
  | .group alternatives => sitesOfAlternatives alternatives
  | .repetition alternatives => sitesOfAlternatives alternatives
  | .optional alternatives => sitesOfAlternatives alternatives
  | .finish => []
  | .literal character => [.character character]
  | .reference name => [.name name]

def sitesOfElements : List Element → List Site
  | [] => []
  | ⟨_, phrase⟩ :: more => phrase.sites ++ sitesOfElements more

def sitesOfAlternatives : List (List Element) → List Site
  | [] => []
  | elements :: more => sitesOfElements elements ++ sitesOfAlternatives more

end

/-- The sites of an element. -/
def Element.sites (e : Element) : List Site :=
  e.phrase.sites

/-- The sites of a definition. -/
def Definition.sites (d : Definition) : List Site :=
  sitesOfAlternatives d.body

theorem sitesOfElements_eq (es : List Element) : sitesOfElements es = es.flatMap Element.sites := by
  induction es with
  | nil => rfl
  | cons e more ih =>
    obtain ⟨adjacent, phrase⟩ := e
    rw [sitesOfElements, ih, List.flatMap_cons, Element.sites]

theorem sitesOfAlternatives_eq (as : Alternatives) :
    sitesOfAlternatives as = as.flatMap sitesOfElements := by
  induction as with
  | nil => rfl
  | cons es more ih => rw [sitesOfAlternatives, ih, List.flatMap_cons]

/-! ## Standing in the text -/

theorem Token.Stands.reaches {t : Token} {span : Span} {c d : Cursor} (h : t.Stands span c d) :
    c.Reaches d := by
  obtain ⟨text, -, hreads, -⟩ := h
  exact ⟨text, hreads⟩

theorem Token.Stands.offset_lt {t : Token} {span : Span} {c d : Cursor} (h : t.Stands span c d) :
    c.offset < d.offset := by
  obtain ⟨text, ht, hreads, -⟩ := h
  obtain ⟨x, xs, rfl, -⟩ := ht.eq_cons
  exact hreads.offset_lt (List.cons_ne_nil x xs)

theorem Token.Stands.span_eq {t : Token} {span : Span} {c d : Cursor} (h : t.Stands span c d) :
    span = c.spanTo d := by
  obtain ⟨text, -, -, hspan⟩ := h
  exact hspan

/-- A site is written between two places.  A range reaches from its lower bound to its upper one, or to
the sign that stands for it. -/
inductive Site.Stands : Cursor → Site → Cursor → Prop
  | name {c d : Cursor} {n : WrittenName} :
      (Token.name n.text).Stands n.span c d → Stands c (.name n) d
  | character {c d : Cursor} {w : WrittenCharacter} :
      (Token.character w.form).Stands w.span c d → Stands c (.character w) d
  | range {a b c d : Cursor} {low high : WrittenCharacter} :
      (Token.character low.form).Stands low.span a b → b.Reaches c →
      (Token.character high.form).Stands high.span c d → Stands a (.range low (some high) (a.spanTo d)) d
  | range_open {a b d : Cursor} {low : WrittenCharacter} :
      (Token.character low.form).Stands low.span a b → b.Reaches d →
      Stands a (.range low none (a.spanTo d)) d

theorem Site.Stands.reaches {c d : Cursor} {s : Site} (h : s.Stands c d) : c.Reaches d := by
  cases h with
  | name h | character h => exact h.reaches
  | range hlow hbetween hhigh => exact hlow.reaches.trans (hbetween.trans hhigh.reaches)
  | range_open hlow hbehind => exact hlow.reaches.trans hbehind

/-- A definition is written between two places: its name, if it has one, then its body. -/
inductive Definition.Stands : Cursor → Definition → Cursor → Prop
  | named {a b c d e : Cursor} {n : WrittenName} {body : Alternatives} :
      (Token.name n.text).Stands n.span a b → b.Reaches c →
      Row Site.Stands c (sitesOfAlternatives body) d → d.Reaches e →
      Stands a ⟨some n, body, c.spanTo d⟩ e
  | unnamed {a c d e : Cursor} {body : Alternatives} :
      a.Reaches c → Row Site.Stands c (sitesOfAlternatives body) d → d.Reaches e →
      Stands a ⟨none, body, c.spanTo d⟩ e

theorem Definition.Stands.row {c e : Cursor} {x : Definition} (h : x.Stands c e) :
    Row Site.Stands c x.sites e := by
  cases h with
  | named hn hstart hbody hstop => exact (hbody.before (hn.reaches.trans hstart)).behind hstop
  | unnamed hstart hbody hstop => exact (hbody.before hstart).behind hstop

/-- The sites of definitions that stand in a row are a row. -/
theorem row_sites {c d : Cursor} {ds : List Definition} (h : Row Definition.Stands c ds d) :
    Row Site.Stands c (ds.flatMap Definition.sites) d :=
  h.flatMap fun hx => hx.row

/-! ## Reading -/

namespace Reader

/-- The sites of what a reader answers stand in the text that it took. -/
def Places {α : Type} (r : Reader α) (sites : α → List Site) : Prop :=
  ∀ ⦃c d : Cursor⦄ ⦃x : α⦄, r.May c x d → Row Site.Stands c (sites x) d

variable {α : Type} {r : Reader α} {sites : α → List Site} {c d e : Cursor}

theorem May.reaches_text {t : List Char} {u : Unit} (h : (text t).May c u d) : c.Reaches d :=
  ⟨t, h.of_text⟩

theorem May.reaches_behind {t : List Char} {u : Unit} (h : (text t).May c u d) :
    c.Reaches d.skipBlanks :=
  h.reaches_text.trans (reaches_skipBlanks d)

/-- The rounds of a repetition are a row. -/
theorem row_repeatAtMost {xs : List α} {n : Nat} (h : (repeatAtMost r n).May c xs e) :
    Row r.May c xs e := by
  induction xs generalizing c n with
  | nil =>
    rcases h.of_repeatAtMost with ⟨-, rfl⟩ | ⟨m, x, more, d, hxs, -⟩
    · exact .nil (.refl _)
    · cases hxs
  | cons x more ih =>
    rcases h.of_repeatAtMost with ⟨hxs, -⟩ | ⟨m, x', more', d', hxs, hr, hmore⟩
    · cases hxs
    · obtain ⟨rfl, rfl⟩ := List.cons.inj hxs
      exact .cons (reaches_skipBlanks c) hr (ih hmore)

theorem row_many {xs : List α} (h : (many r).May c xs e) : Row r.May c xs e := by
  obtain ⟨n, h⟩ := h.of_many
  exact row_repeatAtMost h

section

variable {operand : Reader Phrase}

theorem places_term (h : operand.Places Phrase.sites) : (term operand).Places Element.sites := by
  intro c d e hterm
  rcases hterm.of_term with ⟨p, rfl, hp⟩ | ⟨p, a, rfl, hsign, hp⟩
  · exact (h hp).before (reaches_skipBlanks c)
  · exact (h hp).before hsign.reaches_behind

theorem places_sequence (h : operand.Places Phrase.sites) :
    (sequence operand).Places sitesOfElements := by
  intro c d es hsequence
  obtain ⟨first, more, a, rfl, hfirst, hmany⟩ := hsequence.of_sequence
  have hmore := (row_many hmany).flatMap fun hx => places_term h hx
  rw [sitesOfElements_eq, List.flatMap_cons]
  exact (places_term h hfirst).append (hmore.before (reaches_skipBlanks a))

theorem places_choice (h : operand.Places Phrase.sites) :
    (choice operand).Places sitesOfAlternatives := by
  intro c d as hchoice
  obtain ⟨first, more, a, rfl, hfirst, hmany⟩ := hchoice.of_choice
  have hround : (do text ['|']; blanks; sequence operand : Reader (List Element)).Places
      sitesOfElements := by
    intro c d es hround
    obtain ⟨a, hbar, hes⟩ := hround.of_behind
    exact (places_sequence h hes).before hbar.reaches_behind
  have hmore := (row_many hmany).flatMap fun hx => hround hx
  rw [sitesOfAlternatives_eq, List.flatMap_cons]
  exact (places_sequence h hfirst).append (hmore.before (reaches_skipBlanks a))

theorem places_bracketed (h : operand.Places Phrase.sites) (opening closing : Char) :
    (bracketed opening closing operand).Places sitesOfAlternatives := by
  intro c d as hr
  obtain ⟨a, b, hopen, hbody, hclose⟩ := hr.of_bracketed
  have hstart := hopen.reaches_behind
  have hstop := (reaches_skipBlanks b).trans hclose.reaches_text
  exact ((places_choice h hbody).before hstart).behind hstop

end

theorem places_range : range.Places Phrase.sites := by
  intro c d p h
  obtain ⟨low, high, a, b, rfl, hlow, hdots, hhigh⟩ := h.of_range
  have hbetween := (reaches_skipBlanks a).trans hdots.reaches_behind
  rcases hhigh with ⟨w, rfl, hw⟩ | ⟨rfl, hw⟩
  · exact .one (.range hlow.character_stands hbetween hw.character_stands)
  · exact .one (.range_open hlow.character_stands (hbetween.trans hw.of_labelled.reaches_text))

/-- Operands, by induction on how deep they may be nested. -/
theorem places_prefixed (bound : Nat) : (prefixed bound).Places Phrase.sites := by
  induction bound with
  | zero => exact fun _ _ _ h => h.of_failure.elim
  | succ bound ih =>
    intro c d p h
    cases h.of_prefixed with
    | negation hsign hq => exact (ih hq).before hsign.reaches_behind
    | capture hsign hn =>
      exact (Row.one (.name hn.name_stands.1)).before hsign.reaches_behind
    | range h => exact places_range h
    | group has | repetition has | optional has => exact places_bracketed ih _ _ has
    | finish hsign => exact .nil hsign.of_labelled.reaches_text
    | literal hw => exact .one (.character hw.character_stands)
    | reference hn => exact .one (.name hn.name_stands.1)

theorem stands_definition {operand : Reader Phrase} (h : operand.Places Phrase.sites)
    {x : Definition} (hr : (definition operand).May c x d) : x.Stands c d := by
  obtain ⟨name, body, a, b, e, rfl, hname, hequals, hbody, hclose⟩ := hr.of_definition
  have hplaces := places_choice h hbody
  have hstart := (reaches_skipBlanks a).trans hequals.reaches_behind
  have hstop := (reaches_skipBlanks e).trans hclose.reaches_text
  rcases hname with ⟨rfl, rfl⟩ | ⟨n, rfl, hn⟩
  · exact .unnamed hstart hplaces hstop
  · exact .named hn.name_stands.1 hstart hplaces hstop

/-- The definitions of a text are a row. -/
theorem row_grammar {operand : Reader Phrase} (h : operand.Places Phrase.sites)
    {ds : List Definition} (hr : (grammar operand).May c ds d) :
    ∃ e, Row Definition.Stands c ds e := by
  obtain ⟨e, hmany, -⟩ := hr.of_grammar
  exact ⟨e, ((row_many hmany).imp fun hx => stands_definition h hx).before (reaches_skipBlanks c)⟩

end Reader

/-- The definitions that are read stand in the text one behind the other. -/
theorem row_read {text : List Char} {ds : List Definition} (h : Grammar.read text = .ok ds) :
    ∃ e, Row Definition.Stands (Cursor.start text) ds e := by
  obtain ⟨d, hrun⟩ := read_eq_ok_iff.mp h
  exact Reader.row_grammar (Reader.places_prefixed _) ⟨Attempts.none, hrun⟩

end PegTree
