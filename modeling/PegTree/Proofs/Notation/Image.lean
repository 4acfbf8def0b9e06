import PegTree.Proofs.Notation.Printing

/-!
# What texts compile to

The grammars that texts compile to are exactly the well-formed ones, wherever their names are written
(`compile_image`).  For every well-formed grammar there is the text that is written for it.  The other way
round well-formedness is read off the tokens: none of them says more than can be written, and whatever
stands for its only part is lowered to that part (`Derives.wellFormed`).
-/

namespace PegTree

/-! ## What parts of the notation stand for -/

/-- Whatever the part stands for among rules of these names is well-formed. -/
def Node.StandsWell (names : List String) : Node → Prop
  | .grammar ds => ∀ d ∈ ds, (∀ n ∈ d.name, Identifier n.text) ∧
      ∀ e, LowersChoice names d.body e → e.WellFormed names.length
  | .definition d => (∀ n ∈ d.name, Identifier n.text) ∧
      ∀ e, LowersChoice names d.body e → e.WellFormed names.length
  | .choice as => ∀ e, LowersChoice names as e → e.WellFormed names.length
  | .alternatives more => ∀ es, LowersAll names more es → WellFormedAll names.length es
  | .sequence es => ∀ e, LowersSequence names es e → e.WellFormed names.length
  | .elements more => ∀ terms, LowersTerms names more terms → WellFormedTerms names.length terms
  | .element x => ∀ e, Lowers names x.phrase e → e.WellFormed names.length
  | .phrase p => ∀ e, Lowers names p e → e.WellFormed names.length

section

variable {names : List String}

/-- Characters that can be written do not stand for both quotes. -/
theorem not_both_quotes {form : CharacterForm} {text : List Char}
    (hform : (Token.character form).writable = true) (h : form.StandsFor text) :
    ¬ ('\'' ∈ text ∧ '"' ∈ text) := by
  cases h with
  | quoted => exact Token.writable_quoted_iff.mp hform
  | code => exact Token.not_both_quotes_singleton _

/-- Several alternatives are a choice, one stands for itself. -/
theorem standsWell_choice {es : List Element} {more : Alternatives}
    (hfirst : (Node.sequence es).StandsWell names) (hmore : (Node.alternatives more).StandsWell names) :
    (Node.choice (es :: more)).StandsWell names := by
  intro e h
  cases h with
  | one he => exact hfirst e he
  | many hne hall =>
    cases hall with
    | @cons _ _ e others he hothers =>
      refine ⟨?_, hfirst e he, hmore others hothers⟩
      cases hothers with
      | nil => exact absurd rfl hne
      | cons => simp

/-- Several elements are a sequence, one without a mark stands for itself. -/
theorem standsWell_sequence {x : Element} {more : List Element}
    (hfirst : (Node.element x).StandsWell names) (hmore : (Node.elements more).StandsWell names) :
    (Node.sequence (x :: more)).StandsWell names := by
  intro e h
  cases h with
  | one he => exact hfirst e he
  | many hne hterms =>
    cases hterms with
    | @cons adjacent p _ e terms he hterms =>
      refine ⟨by simp, fun t ht => ?_, hfirst e he, hmore terms hterms⟩
      cases ht
      cases hterms
      cases adjacent with
      | true => rfl
      | false => exact absurd rfl (hne p)

/-- What is left behind a part was there in front of it. -/
theorem Derives.left_subset {node : Node} {ts us : List Token} (h : Derives node ts us) : us ⊆ ts := by
  obtain ⟨own, rfl, -⟩ := h.contextFree
  exact List.subset_append_right own us

/-- Whatever tokens that can be written derive stands for something well-formed. -/
theorem Derives.wellFormed {node : Node} {ts us : List Token} (h : Derives node ts us)
    (hts : ∀ t ∈ ts, t.writable = true) : node.StandsWell names := by
  induction h with
  | grammar_nil => exact fun _ hd => nomatch hd
  | grammar_cons hd _ ihd ih =>
    have hmore := ih fun t ht => hts t (hd.left_subset ht)
    rintro d (_ | ⟨_, hin⟩)
    · exact ihd hts
    · exact hmore d hin
  | named _ ih =>
    simp only [List.forall_mem_cons] at hts
    refine ⟨?_, ih hts.2.2⟩
    rintro n ⟨rfl⟩
    exact Token.writable_name_iff.mp hts.1
  | unnamed _ ih => exact ⟨by simp, ih (List.forall_mem_cons.mp hts).2⟩
  | choice hes _ ihs ih => exact standsWell_choice (ihs hts) (ih fun t ht => hts t (hes.left_subset ht))
  | alternatives_nil =>
    intro es h
    cases h
    trivial
  | alternatives_cons hes _ ihs ih =>
    rw [List.forall_mem_cons] at hts
    have hmore := ih fun t ht => hts.2 t (hes.left_subset ht)
    intro es h
    cases h with
    | cons he hothers => exact ⟨ihs hts.2 _ he, hmore _ hothers⟩
  | sequence he _ ihe ih => exact standsWell_sequence (ihe hts) (ih fun t ht => hts t (he.left_subset ht))
  | elements_nil =>
    intro terms h
    cases h
    trivial
  | elements_cons hx _ ihe ih =>
    have hmore := ih fun t ht => hts t (hx.left_subset ht)
    intro terms h
    cases h with
    | cons he hterms => exact ⟨ihe hts _ he, hmore _ hterms⟩
  | plain _ ih => exact ih hts
  | adjacent _ ih => exact ih (List.forall_mem_cons.mp hts).2
  | negation _ ih =>
    intro e h
    cases h with
    | @negation _ body he =>
      show body.WellFormed names.length
      exact ih (List.forall_mem_cons.mp hts).2 body he
  | repetition _ ih =>
    intro e h
    cases h with
    | @repetition _ body he =>
      show body.WellFormed names.length
      exact ih (List.forall_mem_cons.mp hts).2 body he
  | optional _ ih =>
    intro e h
    cases h with
    | @optional _ body he =>
      show body.WellFormed names.length
      exact ih (List.forall_mem_cons.mp hts).2 body he
  | group _ ih =>
    intro e h
    cases h with
    | group he => exact ih (List.forall_mem_cons.mp hts).2 e he
  | capture =>
    intro e h
    cases h with
    | capture hname => exact (List.getElem?_eq_some_iff.mp hname).1
  | reference =>
    intro e h
    cases h with
    | reference hname => exact (List.getElem?_eq_some_iff.mp hname).1
  | range =>
    intro e h
    cases h with
    | range _ _ hle => exact hle
  | range_open =>
    intro e h
    cases h with
    | range_open => exact le_highestChar _
  | finish =>
    intro e h
    cases h
    trivial
  | literal =>
    intro e h
    cases h with
    | nothing => trivial
    | literal hform hne =>
      have hquotes := not_both_quotes (List.forall_mem_cons.mp hts).1 hform
      exact ⟨by simpa using hne, by simpa using hquotes⟩

end

/-! ## Compiled grammars -/

namespace Grammar

variable {g : Grammar}

/-- Every body is that of a definition. -/
theorem LoweredFrom.exists_definition {ds : List Definition} (h : g.LoweredFrom ds) {e : Expr}
    (he : e ∈ g.bodies) : ∃ d ∈ ds, LowersChoice (ds.filterMap Definition.key) d.body e := by
  rcases List.mem_append.mp he with he | he
  · obtain ⟨r, hr, rfl⟩ := List.mem_map.mp he
    obtain ⟨d, hd, -, hbody⟩ := exists_of_forall₂ h.rules.flip hr
    exact ⟨d, List.mem_of_mem_filter hd, hbody⟩
  · have hskip := h.skip
    rw [Option.mem_toList.mp he] at hskip
    generalize hfind : ds.find? (·.name.isNone) = found at hskip
    cases hskip with
    | some hbody => exact ⟨_, List.mem_of_find?_eq_some hfind, hbody⟩

/-- What is read only says what can be written. -/
theorem standsWell_of_read {text : List Char} {ds : List Definition} (h : read text = .ok ds)
    (names : List String) : (Node.grammar ds).StandsWell names := by
  obtain ⟨ts, hts, hds⟩ := read_sound h
  exact hds.wellFormed (List.all_eq_true.mp hts.writable)

/-- Rules have the names of definitions. -/
theorem LoweredFrom.identifiers {ds : List Definition} {names : List String} (h : g.LoweredFrom ds)
    (hwell : (Node.grammar ds).StandsWell names) : ∀ name ∈ g.rules.map Rule.name, Identifier name := by
  intro name hname
  rw [h.names] at hname
  obtain ⟨d, hd, hkey⟩ := List.mem_filterMap.mp hname
  obtain ⟨n, hn, rfl⟩ := Option.map_eq_some_iff.mp hkey
  exact (hwell d hd).1 n hn

/-- A compiled grammar is well-formed. -/
theorem wellFormed_of_compile {source : Source} (h : compile source = .ok g) : g.WellFormed := by
  obtain ⟨ds, -, hread, -⟩ := ofText_eq_ok (compile_eq_ok h)
  obtain ⟨ts, hts, hds⟩ := read_sound hread
  have hlowered := loweredFrom_of_compile h hts hds
  have hsize : (ds.filterMap Definition.key).length = g.size := by
    rw [← hlowered.names, List.length_map, size]
  have hwell := standsWell_of_read hread (ds.filterMap Definition.key)
  refine ⟨hlowered.nodup_rules, hlowered.identifiers hwell, fun e he => ?_, not_cyclic_of_compile h⟩
  obtain ⟨d, hd, hbody⟩ := hlowered.exists_definition he
  rw [← hsize]
  exact (hwell d hd).2 e hbody

/-- Where names are written does not matter. -/
theorem WellFormed.congr {g' : Grammar} (h : g.WellFormed) (hg : g.Resolved)
    (hsame : g'.unspanned = g.unspanned) : g'.WellFormed := by
  have hnames : ∀ g : Grammar, g.unspanned.rules.map Rule.name = g.rules.map Rule.name := by
    intro g
    rw [unspanned, List.map_map]
    rfl
  have hbodies : ∀ g : Grammar, g.unspanned.bodies = g.bodies := by
    intro g
    rw [Grammar.bodies, unspanned, List.map_map]
    rfl
  have hsize : g'.size = g.size := by rw [← size_unspanned, hsame, size_unspanned]
  refine ⟨?_, ?_, ?_, ?_⟩
  · rw [← hnames g', hsame, hnames g]
    exact h.names
  · rw [← hnames g', hsame, hnames g]
    exact h.identifiers
  · rw [← hbodies g', hsame, hbodies g, hsize]
    exact h.bodies
  · rw [cyclic_congr hg hsame]
    exact h.acyclic

end Grammar

open Grammar in
/-- A grammar is what some text compiles to, but for the places of its names, exactly if it is
well-formed.  So a rule of a compiled grammar is found by its name, and every id that a body mentions or a
name leads to is that of a rule. -/
theorem compile_image (g : Grammar) :
    ((∃ source g', compile source = .ok g' ∧ g'.unspanned = g.unspanned) ↔ g.WellFormed) ∧
      ∀ source, compile source = .ok g →
        (∀ id < g.size, g.ruleId? (g.name id) = some id) ∧
        (∀ e ∈ g.bodies, ∀ x ∈ e.mentions, ∃ r, g.rules[x.rule]? = some r) ∧
        ∀ name id, g.ruleId? name = some id → ∃ r, g.rules[id]? = some r ∧ r.name = name := by
  refine ⟨⟨?_, fun h => ⟨_, h.exists_compile_source⟩⟩, fun source h => ?_⟩
  · rintro ⟨source, g', h, hsame⟩
    exact (wellFormed_of_compile h).congr (resolved_of_compile h) hsame.symm
  · have hnames := (wellFormed_of_compile h).names
    refine ⟨fun id hid => ?_, fun e he x hx => ?_, fun name id => (ruleId?_eq_some_iff hnames).mp⟩
    · obtain ⟨r, hr⟩ := exists_rule hid
      have hname : g.name id = r.name := by rw [name, hr]; rfl
      exact (ruleId?_eq_some_iff hnames).mpr ⟨r, hr, hname.symm⟩
    · exact exists_rule (resolved_of_compile h e he x hx)

/-- A sequence that stands for its only element. -/
def loneGrammar : Grammar where
  rules := [⟨"a", .sequence [⟨false, .literal "x"⟩], ⟨0, 1⟩⟩]
  skip := none

theorem compile_image_pair :
    pairGrammar.WellFormed ∧ pairGrammar.ruleId? (pairGrammar.name 1) = some 1 ∧
      ¬ ∃ source g', Grammar.compile source = .ok g' ∧ g'.unspanned = loneGrammar.unspanned := by
  refine ⟨(compile_image pairGrammar).1.mp ⟨_, _, compile_pairText, rfl⟩,
    ((compile_image pairGrammar).2 _ compile_pairText).1 1 (by decide), fun h => ?_⟩
  have hlone := (compile_image loneGrammar).1.mp h
  have hmark := (hlone.bodies _ List.mem_cons_self).2.1 ⟨false, .literal "x"⟩ rfl
  cases hmark

end PegTree
