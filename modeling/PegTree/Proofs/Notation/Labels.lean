import PegTree.Proofs.Notation.Attempts
import PegTree.Proofs.Notation.Faults
import PegTree.Proofs.Notation.ReportedCycle
import PegTree.Proofs.Parser.Slices

/-!
# What the labels of a refused text point at

A report on a grammar text points at what it talks about (`labels_point_at_text`): a name that is not
defined, a character that is none, the two names of one definition and its repeat, the name of a rule that
calls itself.  The ranges are those of the tokens, which are kept from reading on, so all there is to show
is that each of them reaches the report that it belongs to.

Where one definition comes behind another so does its mark, with at least the semicolon in between.  This
is what tells a repeat from what it repeats, and it puts the names of an accepted grammar in their order.
-/

namespace PegTree

variable {text : List Char} {ds : List Definition}

/-! ## What a range selects -/

/-- What a range covers is what it selects. -/
theorem Span.Covers.select_eq {s : Span} {value : List Char} (h : s.Covers text value) :
    s.select text = value := by
  obtain ⟨before, behind, rfl, hstart, hstop⟩ := h
  have hlength : s.length = utf8Width value := by
    rw [Span.length, hstart, hstop, utf8Width_append]
    omega
  rw [Span.select, hlength, hstart, List.append_assoc, dropBytes_utf8Width_append,
    takeBytes_utf8Width_append]

/-- Two places of a text bound something that stands there. -/
theorem Cursor.On.exists_covers {c d : Cursor} (hc : c.On text) (h : c.Reaches d) :
    ∃ value, (c.spanTo d).Covers text value := by
  obtain ⟨value, hreads⟩ := h
  exact ⟨value, hc.covers hreads⟩

/-- A name covers its own characters. -/
theorem Token.Stands.covers_name {name : String} {span : Span} {c d : Cursor}
    (h : (Token.name name).Stands span c d) (hc : c.On text) : span.Covers text name.toList := by
  obtain ⟨word, hspelled, hreads, rfl⟩ := h
  have hword : word = name.toList := by
    cases hspelled
    rw [String.toList_ofList]
  rw [← hword]
  exact hc.covers hreads

/-! ## Marks of definitions -/

/-- A definition stands between two places, and what it is referred to by ends in front of the second. -/
structure Definition.Marked (a : Cursor) (x : Definition) (b : Cursor) : Prop where
  stands : x.Stands a b
  closed : x.mark.stop < b.offset

theorem Definition.Stands.reaches {a b : Cursor} {x : Definition} (h : x.Stands a b) : a.Reaches b :=
  h.row.reaches Site.Stands.reaches

theorem Definition.Stands.exists_mark {a b : Cursor} {x : Definition} (h : x.Stands a b) :
    ∃ c d, a.Reaches c ∧ c.Reaches d ∧ x.mark = c.spanTo d := by
  cases h with
  | named hn => exact ⟨_, _, .refl _, hn.reaches, hn.span_eq⟩
  | unnamed hstart hbody => exact ⟨_, _, hstart, hbody.reaches Site.Stands.reaches, rfl⟩

/-- A sign is something to read. -/
theorem Reader.May.offset_lt {sign : Char} {c d : Cursor} {u : Unit}
    (h : (Reader.text [sign]).May c u d) : c.offset < d.offset :=
  h.of_text.offset_lt (List.cons_ne_nil _ _)

/-- Behind a name comes at least the equals sign, behind a body the semicolon. -/
theorem Reader.marked_definition {operand : Reader Phrase} (h : operand.Places Phrase.sites)
    {c d : Cursor} {x : Definition} (hr : (Reader.definition operand).May c x d) : x.Marked c d := by
  refine ⟨stands_definition h hr, ?_⟩
  obtain ⟨name, body, a, b, e, rfl, hname, hequals, hbody, hclose⟩ := hr.of_definition
  have hfirst := (reaches_skipBlanks a).offset_le
  have hsecond := (reaches_skipBlanks b).offset_le
  have hthird := (reaches_skipBlanks e).offset_le
  have hmiddle := ((places_choice h hbody).reaches Site.Stands.reaches).offset_le
  have hopened := hequals.offset_lt
  have hclosed := hclose.offset_lt
  rcases hname with ⟨rfl, rfl⟩ | ⟨n, rfl, hn⟩
  · show e.offset < d.offset
    omega
  · show n.span.stop < d.offset
    rw [hn.name_stands.1.span_eq]
    show a.offset < d.offset
    omega

/-- The definitions of a text are a row of marked ones. -/
theorem row_marked (h : Grammar.read text = .ok ds) :
    ∃ e, Row Definition.Marked (Cursor.start text) ds e := by
  obtain ⟨d, hrun⟩ := read_eq_ok_iff.mp h
  have hmay : (Reader.grammar (Reader.prefixed (text.length + 1))).May (Cursor.start text) ds d :=
    ⟨Attempts.none, hrun⟩
  obtain ⟨e, hmany, -⟩ := hmay.of_grammar
  have hrow := (Reader.row_many hmany).imp fun hx =>
    Reader.marked_definition (Reader.places_prefixed _) hx
  exact ⟨e, hrow.before (reaches_skipBlanks _)⟩

theorem Row.of_mem {α : Type} {stands : Cursor → α → Cursor → Prop} {c d : Cursor} {xs : List α}
    (h : Row stands c xs d) (hstands : ∀ {a x b}, stands a x b → a.Reaches b) {x : α} (hx : x ∈ xs)
    (hc : c.On text) : ∃ a b, a.On text ∧ stands a x b := by
  obtain ⟨a, b, hreach, hin⟩ := h.exists_stands hstands hx
  exact ⟨a, b, hc.trans hreach, hin⟩

/-- Marks in a row lie one behind the other. -/
theorem Row.marks_ascend {c d : Cursor} (h : Row Definition.Marked c ds d) :
    (∀ x ∈ ds, c.offset ≤ x.mark.start) ∧ ds.Pairwise fun x y => x.mark.stop < y.mark.start := by
  induction h with
  | nil => exact ⟨by simp, .nil⟩
  | @cons c a b d x more ha hx _ ih =>
    obtain ⟨hbehind, hascend⟩ := ih
    obtain ⟨e, f, he, -, hmark⟩ := hx.stands.exists_mark
    have hstart : c.offset ≤ x.mark.start := by
      rw [hmark]
      exact (ha.trans he).offset_le
    have hover := (ha.trans hx.stands.reaches).offset_le
    refine ⟨List.forall_mem_cons.mpr ⟨hstart, fun y hy => ?_⟩, .cons (fun y hy => ?_) hascend⟩
    · exact Nat.le_trans hover (hbehind y hy)
    · exact Nat.lt_of_lt_of_le hx.closed (hbehind y hy)

theorem marks_ascend (h : Grammar.read text = .ok ds) :
    ds.Pairwise fun x y => x.mark.stop < y.mark.start := by
  obtain ⟨e, hrow⟩ := row_marked h
  exact hrow.marks_ascend.2

/-- A mark is a range of the text. -/
theorem exists_mark_covers (h : Grammar.read text = .ok ds) {x : Definition} (hx : x ∈ ds) :
    ∃ value, x.mark.Covers text value := by
  obtain ⟨e, hrow⟩ := row_read h
  obtain ⟨a, b, ha, hstands⟩ := hrow.of_mem Definition.Stands.reaches hx (.start text)
  obtain ⟨c, d, hc, hd, hmark⟩ := hstands.exists_mark
  rw [hmark]
  exact (ha.trans hc).exists_covers hd

/-- The name of a definition is written where its range says. -/
theorem name_covers (h : Grammar.read text = .ok ds) {x : Definition} (hx : x ∈ ds) {n : WrittenName}
    (hn : x.name = some n) : n.span.Covers text n.text.toList := by
  obtain ⟨e, hrow⟩ := row_read h
  obtain ⟨a, b, ha, hstands⟩ := hrow.of_mem Definition.Stands.reaches hx (.start text)
  cases hstands with
  | named hname =>
    cases hn
    exact hname.covers_name ha
  | unnamed => cases hn

/-- A definition of a key is marked by that name. -/
theorem mark_covers (h : Grammar.read text = .ok ds) {x : Definition} (hx : x ∈ ds) {name : String}
    (hkey : x.key = some name) : x.mark.Covers text name.toList := by
  obtain ⟨n, hn, rfl⟩ := Option.map_eq_some_iff.mp hkey
  have hcovers := name_covers h hx hn
  rwa [Definition.mark, hn]

/-! ## Places of offences -/

/-- What is wrong at a site is wrong between two places. -/
theorem Site.Offends.exists_place {names : List String} {s : Site} {fault : GrammarFault} {place : Span}
    {c d : Cursor} (h : s.Offends names fault place) (hs : s.Stands c d) :
    ∃ a b, c.Reaches a ∧ a.Reaches b ∧ place = a.spanTo b := by
  cases h with
  | undefined =>
    obtain ⟨ht⟩ := hs
    exact ⟨c, d, .refl c, ht.reaches, ht.span_eq⟩
  | notScalar =>
    obtain _ | ⟨ht⟩ := hs
    exact ⟨c, d, .refl c, ht.reaches, ht.span_eq⟩
  | low =>
    cases hs with
    | range hlow | range_open hlow => exact ⟨_, _, .refl c, hlow.reaches, hlow.span_eq⟩
  | high =>
    cases hs with
    | range hlow hbetween hhigh =>
      exact ⟨_, _, hlow.reaches.trans hbetween, hhigh.reaches, hhigh.span_eq⟩
  | reversed =>
    cases hs with
    | range hlow hbetween hhigh =>
      exact ⟨_, _, .refl c, hlow.reaches.trans (hbetween.trans hhigh.reaches), rfl⟩

/-- Where a body is at fault, there is something in the text; for a name that is not defined it is that
name. -/
theorem covers_of_offends (h : Grammar.read text = .ok ds) {names : List String} {s : Site}
    (hs : s ∈ ds.flatMap Definition.sites) {fault : GrammarFault} {place : Span}
    (hoffends : s.Offends names fault place) :
    (∃ value, place.Covers text value) ∧
      ∀ name span, fault = .undefinedRule name span → span.Covers text name.toList := by
  obtain ⟨e, hrow⟩ := row_read h
  obtain ⟨a, b, ha, hstands⟩ := (row_sites hrow).of_mem Site.Stands.reaches hs (.start text)
  constructor
  · obtain ⟨c, d, hc, hd, rfl⟩ := hoffends.exists_place hstands
    exact (ha.trans hc).exists_covers hd
  · rintro name span rfl
    cases hoffends with
    | undefined =>
      obtain ⟨hname⟩ := hstands
      exact hname.covers_name ha

/-! ## Rules -/

namespace Grammar

/-- Reading fails in one way only. -/
theorem exists_unreadable_of_read {fault : GrammarFault} (h : read text = .error fault) :
    ∃ attempts, fault = .unreadable attempts := by
  rw [read] at h
  split at h
  · cases h
  · next attempts _ =>
    cases h
    exact ⟨attempts, rfl⟩

/-- What was wrong when definitions became no grammar. -/
theorem ofDefinitions_eq_error {fault : GrammarFault} (h : ofDefinitions ds = .error fault) :
    checkDistinct ds = .error fault ∨ resolveAll (ds.filterMap Definition.key) ds = .error fault ∨
      ∃ resolved, resolveAll (ds.filterMap Definition.key) ds = .ok resolved ∧
        (ofResolved resolved).checkLeftRecursion = .error fault := by
  simp only [ofDefinitions, bind_eq_error_iff] at h
  rcases h with hdistinct | ⟨_, _, hbody | ⟨resolved, hresolved, hleft | ⟨_, _, hnone⟩⟩⟩
  · exact .inl hdistinct
  · exact .inr (.inl hbody)
  · exact .inr (.inr ⟨resolved, hresolved, hleft⟩)
  · cases hnone

variable {resolved : List (Definition × Expr)}

/-- A rule has its name and the range of it from a definition. -/
theorem exists_definition_of_rule {r : Rule} (h : r ∈ (ofResolved resolved).rules) :
    ∃ d ∈ resolved.map Prod.fst, d.name = some ⟨r.name, r.nameSpan⟩ := by
  obtain ⟨⟨d, body⟩, hin, hrule⟩ := List.mem_filterMap.mp h
  obtain ⟨n, hn, rfl⟩ := Option.map_eq_some_iff.mp hrule
  exact ⟨d, List.mem_map_of_mem hin, hn⟩

/-- Rules are in the order of their definitions. -/
theorem names_ascend (h : (resolved.map Prod.fst).Pairwise fun x y => x.mark.stop < y.mark.start) :
    (ofResolved resolved).rules.Pairwise fun r s => r.nameSpan.stop < s.nameSpan.start := by
  refine List.Pairwise.filterMap _ (fun x y hxy r hr s hs => ?_) (List.pairwise_map.mp h)
  obtain ⟨n, hn, rfl⟩ := Option.map_eq_some_iff.mp hr
  obtain ⟨m, hm, rfl⟩ := Option.map_eq_some_iff.mp hs
  simpa only [Definition.mark, hn, hm] using hxy

/-- The rule that a report of left recursion is about, with the place of its name. -/
theorem exists_rule_of_checkLeftRecursion {g : Grammar} (hg : g.Resolved) {fault : GrammarFault}
    (h : g.checkLeftRecursion = .error fault) :
    ∃ r ∈ g.rules, ∃ more, fault = .leftRecursion (r.name :: more) r.nameSpan := by
  rw [checkLeftRecursion] at h
  cases hcycle : g.firstCycle? with
  | none =>
    rw [hcycle] at h
    cases h
  | some cycle =>
    rw [hcycle] at h
    obtain ⟨first, x, hwalk, -, -⟩ := exists_first_of_firstCycle? hg hcycle
    obtain ⟨between, rfl⟩ := hwalk.closed
    have hback := hwalk.transGen
    rw [leads_eq] at hback
    obtain ⟨next, hnext, -⟩ := Relation.TransGen.head'_iff.mp hback
    obtain ⟨r, hr⟩ := g.exists_rule hnext.lt_size
    have hname : g.name x = r.name := by
      rw [name, hr]
      rfl
    simp only [List.head?_cons, Option.bind_some, hr, Option.map_some, Option.getD_some,
      List.map_cons, hname, Except.error.injEq] at h
    exact ⟨r, List.mem_of_getElem? hr, _, h.symm⟩

end Grammar

/-! ## Reports -/

/-- The labels of a report lie between characters of the source, and a label stands where the report says
that something is: over a name that is not defined, over both places of a name that is defined twice, with
the earlier one in front, over a character or a range as it is written, over the name of a left-recursive
rule in its definition. -/
structure GrammarFault.PointsInto (source : Source) (fault : GrammarFault) : Prop where
  boundaries : ∀ label ∈ (fault.diagnostic source).labels,
    Boundary source.text.toList label.span.start ∧
      Boundary source.text.toList (label.span.start + label.span.length)
  undefined : ∀ name span, fault = .undefinedRule name span →
    (fault.diagnostic source).labels = [⟨"undefined rule", span⟩] ∧
      span.Covers source.text.toList name.toList
  duplicate : ∀ name again first, fault = .duplicateRule name again first →
    (fault.diagnostic source).labels =
        [⟨"redefined here", again⟩, ⟨"first defined here", first⟩] ∧
      first.stop < again.start ∧
      ∀ word, name = some word →
        again.Covers source.text.toList word.toList ∧ first.Covers source.text.toList word.toList
  character : ∀ misfit span, fault = .invalidCharacter misfit span →
    (fault.diagnostic source).labels = [⟨"invalid character", span⟩] ∧
      (fault.diagnostic source).message =
        "invalid character literal " ++ reportedLiteral source span ++ ": " ++ misfit.describe ∧
      span.Covers source.text.toList (reportedLiteral source span).toList
  recursion : ∀ cycle span, fault = .leftRecursion cycle span →
    (fault.diagnostic source).labels = [⟨"recursion starts here", span⟩] ∧
      ∃ name, cycle.head? = some name ∧ span.Covers source.text.toList name.toList ∧
        ∃ ds, Grammar.read source.text.toList = .ok ds ∧ ∃ d ∈ ds, d.name = some ⟨name, span⟩

/-- Both ends of a range of the text are boundaries. -/
theorem Span.Covers.ends {s : Span} {value : List Char} (h : s.Covers text value) :
    Boundary text s.start ∧ Boundary text (s.start + s.length) := by
  have hlength : s.start + s.length = s.stop := Nat.add_sub_cancel' h.start_le_stop
  rw [hlength]
  exact h.boundaries

namespace GrammarFault

variable {source : Source} {fault : GrammarFault}

theorem pointsInto_unreadable {attempts : Attempts}
    (h : Grammar.read source.text.toList = .error (.unreadable attempts)) :
    (unreadable attempts).PointsInto source where
  boundaries label hlabel := by
    obtain rfl := List.mem_singleton.mp hlabel
    have hplace := boundary_of_unreadable h
    exact ⟨hplace, by simpa [Span.length] using hplace⟩
  undefined _ _ hfault := nomatch hfault
  duplicate _ _ _ hfault := nomatch hfault
  character _ _ hfault := nomatch hfault
  recursion _ _ hfault := nomatch hfault

theorem pointsInto_duplicate (hread : Grammar.read source.text.toList = .ok ds) {again first : Definition}
    (h : FirstRepeat ds again first) :
    (duplicateRule again.key again.mark first.mark).PointsInto source := by
  obtain ⟨before, after, rfl, -, hfirst, hkey⟩ := h
  have hagain : again ∈ before ++ again :: after := by simp
  have hin : first ∈ before ++ again :: after := List.mem_append_left _ hfirst
  obtain ⟨-, -, hacross⟩ := List.pairwise_append.mp (marks_ascend hread)
  have hascend : first.mark.stop < again.mark.start := hacross first hfirst again List.mem_cons_self
  constructor
  case boundaries =>
    intro label hlabel
    rcases List.mem_pair.mp hlabel with rfl | rfl
    · obtain ⟨value, hcovers⟩ := exists_mark_covers hread hagain
      exact hcovers.ends
    · obtain ⟨value, hcovers⟩ := exists_mark_covers hread hin
      exact hcovers.ends
  case duplicate =>
    intro name again' first' hfault
    cases hfault
    refine ⟨rfl, hascend, fun word hword => ?_⟩
    exact ⟨mark_covers hread hagain hword, mark_covers hread hin (hkey.trans hword)⟩
  all_goals exact nofun

theorem pointsInto_body (hread : Grammar.read source.text.toList = .ok ds) {names : List String} {s : Site}
    (hs : s ∈ ds.flatMap Definition.sites) {place : Span} (h : s.Offends names fault place) :
    fault.PointsInto source := by
  obtain ⟨⟨value, hcovers⟩, hname⟩ := covers_of_offends hread hs h
  have hliteral : place.Covers source.text.toList (reportedLiteral source place).toList := by
    rw [reportedLiteral, hcovers.select_eq, String.toList_ofList]
    exact hcovers
  constructor
  case boundaries =>
    intro label hlabel
    cases h <;> obtain rfl := List.mem_singleton.mp hlabel <;> exact hcovers.ends
  case undefined => exact fun name span hfault => ⟨by rw [hfault]; rfl, hname name span hfault⟩
  case character =>
    intro misfit span hfault
    subst hfault
    cases h <;> exact ⟨rfl, rfl, hliteral⟩
  case duplicate => rintro name again first rfl; cases h
  case recursion => rintro cycle span rfl; cases h

theorem pointsInto_recursion (hread : Grammar.read source.text.toList = .ok ds) {d : Definition}
    {name : String} {span : Span} (hd : d ∈ ds) (hname : d.name = some ⟨name, span⟩)
    (more : List String) : (leftRecursion (name :: more) span).PointsInto source := by
  have hcovers : span.Covers source.text.toList name.toList := name_covers hread hd hname
  constructor
  case boundaries =>
    intro label hlabel
    obtain rfl := List.mem_singleton.mp hlabel
    exact hcovers.ends
  case recursion =>
    intro cycle span' hfault
    cases hfault
    exact ⟨rfl, name, rfl, hcovers, ds, hread, d, hd, hname⟩
  all_goals exact nofun

/-- For whatever a text is refused, the report points into it. -/
theorem pointsInto_of_ofText (h : Grammar.ofText source.text.toList = .error fault) :
    fault.PointsInto source := by
  rw [Grammar.ofText_eq, bind_eq_error_iff] at h
  rcases h with hread | ⟨ds, hread, h⟩
  · obtain ⟨attempts, rfl⟩ := Grammar.exists_unreadable_of_read hread
    exact pointsInto_unreadable hread
  rcases Grammar.ofDefinitions_eq_error h with hdistinct | hbody | ⟨resolved, hresolved, hleft⟩
  · obtain ⟨again, first, hrepeat, rfl⟩ := Grammar.checkDistinct_eq_error_iff.mp hdistinct
    exact pointsInto_duplicate hread hrepeat
  · obtain ⟨e, hrow⟩ := row_read hread
    obtain ⟨s, hs, place, hoffends, -⟩ := (resolveAll_eq_error_iff hrow).mp hbody
    exact pointsInto_body hread hs hoffends
  · have hg := Grammar.resolved_of_resolveAll hresolved
    obtain ⟨r, hr, more, rfl⟩ := Grammar.exists_rule_of_checkLeftRecursion hg hleft
    obtain ⟨d, hd, hname⟩ := Grammar.exists_definition_of_rule hr
    rw [(resolveAll_eq_ok hresolved).1] at hd
    exact pointsInto_recursion hread hd hname more

end GrammarFault

/-- If a text is refused, the labels of the report point at what it talks about.  If a text is accepted, every
rule keeps the range of its name, and these ranges are in the order of the rules. -/
theorem labels_point_at_text (source : Source) :
    (∀ e, Grammar.compile source = .error e →
      ∃ fault, e = .refused source fault ∧ fault.PointsInto source) ∧
    ∀ g, Grammar.compile source = .ok g →
      (∀ r ∈ g.rules, r.nameSpan.Covers source.text.toList r.name.toList) ∧
        g.rules.Pairwise fun r s => r.nameSpan.stop < s.nameSpan.start := by
  constructor
  · intro e h
    obtain ⟨fault, rfl⟩ := Grammar.exists_refused_of_compile h
    exact ⟨fault, rfl, GrammarFault.pointsInto_of_ofText (Grammar.compile_eq_error_iff.mp h)⟩
  · intro g h
    obtain ⟨ds, resolved, hread, -, hresolved, rfl, -⟩ := Grammar.ofText_eq_ok (Grammar.compile_eq_ok h)
    have hmap := (resolveAll_eq_ok hresolved).1
    constructor
    · intro r hr
      obtain ⟨d, hd, hname⟩ := Grammar.exists_definition_of_rule hr
      rw [hmap] at hd
      exact name_covers hread hd hname
    · apply Grammar.names_ascend
      rw [hmap]
      exact marks_ascend hread

/-- A skip rule between two rules, behind a character of two bytes; the second rule calls itself where it
starts. -/
def recursiveText : Source :=
  ⟨"wide", "a = 'é'; = ' '; b = ['x'] b;"⟩

/-- The same, but that the second rule reads something before it calls itself. -/
def acceptedText : Source :=
  ⟨"wide", "a = 'é'; = ' '; b = 'x' b;"⟩

theorem labels_point_at_text_wide :
    (Grammar.compile recursiveText =
        .error (.refused recursiveText (.leftRecursion ["b", "b"] ⟨17, 18⟩)) ∧
      (Span.mk 17 18).Covers recursiveText.text.toList "b".toList) ∧
    ∃ g, Grammar.compile acceptedText = .ok g ∧
      g.rules.map (fun r => (r.name, r.nameSpan)) = [("a", ⟨0, 1⟩), ("b", ⟨17, 18⟩)] ∧
      ∀ r ∈ g.rules, r.nameSpan.Covers acceptedText.text.toList r.name.toList := by
  have hrefused : Grammar.compile recursiveText =
      .error (.refused recursiveText (.leftRecursion ["b", "b"] ⟨17, 18⟩)) := by
    decide +kernel
  have haccepted : (Grammar.compile acceptedText).toOption.map
      (fun g => g.rules.map fun r => (r.name, r.nameSpan)) =
        some [("a", ⟨0, 1⟩), ("b", ⟨17, 18⟩)] := by
    decide +kernel
  obtain ⟨fault, hfault, hpoints⟩ := (labels_point_at_text recursiveText).1 _ hrefused
  cases hfault
  obtain ⟨-, name, hname, hcovers, -⟩ := hpoints.recursion _ _ rfl
  cases hname
  obtain ⟨g, hg, hspans⟩ := Option.map_eq_some_iff.mp haccepted
  have hcompile : Grammar.compile acceptedText = .ok g := toOption_eq_some_iff.mp hg
  exact ⟨⟨hrefused, hcovers⟩, g, hcompile, hspans,
    ((labels_point_at_text acceptedText).2 g hcompile).1⟩

end PegTree
