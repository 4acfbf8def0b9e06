import Mathlib.Data.List.Forall2
import PegTree.Proofs.Grammar.Equality
import PegTree.Proofs.Grammar.Resolved
import PegTree.Proofs.Grammar.Spans
import PegTree.Proofs.Notation.Completeness
import PegTree.Proofs.Notation.Lowering
import PegTree.Proofs.Notation.Soundness

/-!
# What compiles, and to what

A text is read exactly if it splits into tokens of which the rules of the notation derive definitions; what
is read are these definitions, but for spans.  What becomes of definitions afterwards does not depend on
spans either.  So the tokens of a text determine whether it compiles and, up to the spans of names, the
grammar, and that grammar is what the derived definitions stand for.
-/

namespace PegTree

/-! ## Whole texts -/

theorem read_eq_ok_iff {text : List Char} {ds : List Definition} :
    Grammar.read text = .ok ds ↔
      ∃ d, ((Reader.grammar (Reader.prefixed (text.length + 1)) (Cursor.start text)).run.run
        Attempts.none).1 = some (ds, d) := by
  rcases hrun : (Reader.grammar (Reader.prefixed (text.length + 1)) (Cursor.start text)).run.run
    Attempts.none with ⟨_ | ⟨ds', d⟩, attempts⟩
  all_goals
    rw [Grammar.read, readDefinitions, hrun]
    simp

/-- What is read is derived from the tokens of the text. -/
theorem read_sound {text : List Char} {ds : List Definition} (h : Grammar.read text = .ok ds) :
    ∃ ts, Splits text ts ∧ Derives (.grammar ds) ts [] := by
  obtain ⟨d, hrun⟩ := read_eq_ok_iff.mp h
  have hmay : (Reader.grammar (Reader.prefixed (text.length + 1))).May (Cursor.start text) ds d :=
    ⟨Attempts.none, hrun⟩
  exact Reader.sound_grammar (Reader.sound_prefixed _) hmay

/-- What is derived from the tokens of a text is read, but for spans. -/
theorem read_complete {text : List Char} {ts : List Token} {ds : List Definition}
    (hsplits : Splits text ts) (hderives : Derives (.grammar ds) ts []) :
    ∃ ds', Grammar.read text = .ok ds' ∧
      ds'.map Definition.unspanned = ds.map Definition.unspanned := by
  obtain ⟨ds', d, hmust, hlike⟩ := Reader.must_grammar (c := Cursor.start text) hsplits hderives
    (Nat.lt_succ_self text.length)
  exact ⟨ds', read_eq_ok_iff.mpr ⟨d, hmust Attempts.none⟩, hlike⟩

/-- The tokens of a text say what is read, but for spans. -/
theorem read_eq_of_splits {text other : List Char} {ts : List Token} (h : Splits text ts)
    (h' : Splits other ts) :
    (Grammar.read text).toOption.map (List.map Definition.unspanned) =
      (Grammar.read other).toOption.map (List.map Definition.unspanned) := by
  have hsub : ∀ {text other : List Char} {us : List Definition}, Splits text ts → Splits other ts →
      (Grammar.read text).toOption.map (List.map Definition.unspanned) = some us →
      (Grammar.read other).toOption.map (List.map Definition.unspanned) = some us := by
    intro text other us h h' hus
    obtain ⟨ds, hds, rfl⟩ := Option.map_eq_some_iff.mp hus
    obtain ⟨ts', hts', hderives⟩ := read_sound (toOption_eq_some_iff.mp hds)
    obtain rfl := hts'.unique h
    obtain ⟨ds', hds', hlike⟩ := read_complete h' hderives
    rw [hds', ← hlike]
    rfl
  exact Option.ext fun us => ⟨hsub h h', hsub h' h⟩

/-! ## From definitions to grammars -/

namespace Grammar

/-- What becomes of definitions once they are read. -/
def ofDefinitions (ds : List Definition) : Except GrammarFault Grammar := do
  checkDistinct ds
  let resolved ← resolveAll (ds.filterMap Definition.key) ds
  let g := ofResolved resolved
  checkLeftRecursion g
  .ok g

theorem ofText_eq (text : List Char) : ofText text = read text >>= ofDefinitions :=
  rfl

/-- Definitions that have been read follow the notation. -/
theorem readable_ofDefinitions (ds : List Definition) : Readable (ofDefinitions ds) := by
  have hdistinct : Readable (checkDistinct ds) := by
    intro attempts h
    unfold checkDistinct at h
    split at h <;> cases h
  apply hdistinct.bind
  intro u
  apply (readable_resolveAll ds).bind
  intro resolved
  have hleft : Readable (ofResolved resolved).checkLeftRecursion := by
    intro attempts h
    unfold checkLeftRecursion at h
    split at h <;> cases h
  exact hleft.bind fun _ => readable_ok _

theorem checkDistinct_unspanned (ds : List Definition) :
    (checkDistinct (ds.map Definition.unspanned)).toOption = (checkDistinct ds).toOption := by
  have hkeys : (ds.map Definition.unspanned).map Definition.key = ds.map Definition.key := by
    rw [List.map_map]
    exact List.map_congr_left fun d _ => d.key_unspanned
  ext u
  rw [toOption_eq_some_iff, toOption_eq_some_iff, checkDistinct_eq_ok_iff, checkDistinct_eq_ok_iff,
    hkeys]

theorem resolveAll_unspanned (names : List String) (ds : List Definition) :
    (resolveAll names (ds.map Definition.unspanned)).toOption =
      (resolveAll names ds).toOption.map (List.map (Prod.map Definition.unspanned id)) := by
  induction ds with
  | nil => rfl
  | cons d more ih =>
    simp only [List.map_cons, resolveAll, toOption_bind, d.resolve_unspanned, ih]
    cases (d.resolve names).toOption <;> cases (resolveAll names more).toOption <;> rfl

theorem ofResolved_unspanned (resolved : List (Definition × Expr)) :
    ofResolved (resolved.map (Prod.map Definition.unspanned id)) = (ofResolved resolved).unspanned := by
  have hboth : (ofResolved (resolved.map (Prod.map Definition.unspanned id))).rules =
        (ofResolved resolved).rules.map Rule.unspanned ∧
      (ofResolved (resolved.map (Prod.map Definition.unspanned id))).skip =
        (ofResolved resolved).skip := by
    induction resolved with
    | nil => exact ⟨rfl, rfl⟩
    | cons x more ih =>
      obtain ⟨⟨_ | n, as, span⟩, body⟩ := x
      · exact ⟨ih.1, rfl⟩
      · exact ⟨congrArg (Rule.mk n.text body ⟨0, 0⟩ :: ·) ih.1, ih.2⟩
  rw [unspanned, ← hboth.1, ← hboth.2]

theorem checkLeftRecursion_unspanned (g : Grammar) :
    g.unspanned.checkLeftRecursion.toOption = g.checkLeftRecursion.toOption := by
  ext u
  rw [toOption_eq_some_iff, toOption_eq_some_iff, checkLeftRecursion_eq_ok_iff,
    checkLeftRecursion_eq_ok_iff, firstCycle?_unspanned]

/-- Without spans, definitions become the same grammar without spans. -/
theorem ofDefinitions_unspanned (ds : List Definition) :
    (ofDefinitions (ds.map Definition.unspanned)).toOption =
      (ofDefinitions ds).toOption.map unspanned := by
  have hkeys : (ds.map Definition.unspanned).filterMap Definition.key = ds.filterMap Definition.key := by
    rw [List.filterMap_map]
    exact List.filterMap_congr fun d _ => d.key_unspanned
  simp only [ofDefinitions, toOption_bind, hkeys, checkDistinct_unspanned, resolveAll_unspanned]
  cases (checkDistinct ds).toOption with
  | none => rfl
  | some u =>
    cases (resolveAll (ds.filterMap Definition.key) ds).toOption with
    | none => rfl
    | some resolved =>
      simp only [Option.map_some, Option.bind_some, ofResolved_unspanned,
        checkLeftRecursion_unspanned]
      cases (ofResolved resolved).checkLeftRecursion.toOption <;> rfl

/-- What a text compiles to, up to spans, depends on what is read, up to spans. -/
theorem compile_unspanned (source : Source) :
    (compile source).toOption.map unspanned =
      ((read source.text.toList).toOption.map (List.map Definition.unspanned)).bind fun ds =>
        (ofDefinitions ds).toOption := by
  have htext : (compile source).toOption = (ofText source.text.toList).toOption := by
    unfold compile
    cases ofText source.text.toList <;> rfl
  rw [htext, ofText_eq, toOption_bind]
  cases (read source.text.toList).toOption with
  | none => rfl
  | some ds => exact (ofDefinitions_unspanned ds).symm

/-! ## Lowered grammars -/

/-- The grammar that definitions stand for, wherever its names are written: its rules are the
definitions with a name, in order, and its skip rule is the definition without one. -/
structure LoweredFrom (g : Grammar) (ds : List Definition) : Prop where
  distinct : (ds.map Definition.key).Nodup
  rules : List.Forall₂
    (fun d r => d.key = some r.name ∧ LowersChoice (ds.filterMap Definition.key) d.body r.body)
    (ds.filter (·.name.isSome)) g.rules
  skip : Option.Rel (fun d e => LowersChoice (ds.filterMap Definition.key) d.body e)
    (ds.find? (·.name.isNone)) g.skip

theorem nodup_names {ds : List Definition} (h : (ds.map Definition.key).Nodup) :
    (ds.filterMap Definition.key).Nodup := by
  refine List.Pairwise.filterMap _ (fun d d' hne a ha b hb => ?_) (List.pairwise_map.mp h)
  rintro rfl
  exact hne (ha.trans hb.symm)

/-- Rules have the names of definitions. -/
theorem LoweredFrom.names {g : Grammar} {ds : List Definition} (h : g.LoweredFrom ds) :
    g.rules.map Rule.name = ds.filterMap Definition.key := by
  have hnames : ∀ {names : List String} {ds' : List Definition} {rs : List Rule},
      List.Forall₂ (fun d r => d.key = some r.name ∧ LowersChoice names d.body r.body) ds' rs →
      rs.map Rule.name = ds'.filterMap Definition.key := by
    intro names ds' rs hrs
    induction hrs with
    | nil => rfl
    | cons hr _ ih => rw [List.map_cons, List.filterMap_cons_some hr.1, ih]
  rw [hnames h.rules, List.filterMap_filter]
  refine List.filterMap_congr fun d _ => ?_
  cases hd : d.name <;> simp [Definition.key, hd]

theorem loweredFrom_unspanned_iff {g : Grammar} {ds : List Definition} :
    g.unspanned.LoweredFrom ds ↔ g.LoweredFrom ds := by
  constructor
  · rintro ⟨hdistinct, hrules, hskip⟩
    exact ⟨hdistinct, List.forall₂_map_right_iff.mp hrules, hskip⟩
  · rintro ⟨hdistinct, hrules, hskip⟩
    exact ⟨hdistinct, List.forall₂_map_right_iff.mpr hrules, hskip⟩

theorem forall₂_rules {names : List String} {resolved : List (Definition × Expr)}
    (h : ∀ x ∈ resolved, LowersChoice names x.1.body x.2) :
    List.Forall₂ (fun d r => d.key = some r.name ∧ LowersChoice names d.body r.body)
      ((resolved.map Prod.fst).filter (·.name.isSome)) (ofResolved resolved).rules := by
  induction resolved with
  | nil => exact .nil
  | cons x more ih =>
    have hmore := ih fun y hy => h y (List.mem_cons_of_mem _ hy)
    have hfirst := h x List.mem_cons_self
    obtain ⟨⟨_ | n, as, span⟩, body⟩ := x
    · exact hmore
    · exact .cons ⟨rfl, hfirst⟩ hmore

theorem rel_skip {names : List String} {resolved : List (Definition × Expr)}
    (h : ∀ x ∈ resolved, LowersChoice names x.1.body x.2) :
    Option.Rel (fun d e => LowersChoice names d.body e)
      ((resolved.map Prod.fst).find? (·.name.isNone)) (ofResolved resolved).skip := by
  induction resolved with
  | nil => exact .none
  | cons x more ih =>
    have hmore := ih fun y hy => h y (List.mem_cons_of_mem _ hy)
    have hfirst := h x List.mem_cons_self
    obtain ⟨⟨_ | n, as, span⟩, body⟩ := x
    · exact .some hfirst
    · exact hmore

/-- Resolved definitions make up the grammar that they stand for. -/
theorem loweredFrom_of_resolveAll {ds : List Definition} {resolved : List (Definition × Expr)}
    (hkeys : (ds.map Definition.key).Nodup)
    (h : resolveAll (ds.filterMap Definition.key) ds = .ok resolved) :
    (ofResolved resolved).LoweredFrom ds := by
  obtain ⟨rfl, hall⟩ := resolveAll_eq_ok h
  have hbodies : ∀ x ∈ resolved, LowersChoice _ x.1.body x.2 := fun x hx =>
    (Definition.resolve_eq_ok_iff (nodup_names hkeys)).mp (hall x hx)
  exact ⟨hkeys, forall₂_rules hbodies, rel_skip hbodies⟩

/-- What definitions become is the grammar that they stand for. -/
theorem loweredFrom_of_ofDefinitions {ds : List Definition} {g : Grammar}
    (h : ofDefinitions ds = .ok g) : g.LoweredFrom ds := by
  simp only [ofDefinitions, bind_eq_ok_iff] at h
  obtain ⟨⟨⟩, hdistinct, resolved, hresolved, ⟨⟩, -, ⟨⟩⟩ := h
  exact loweredFrom_of_resolveAll (checkDistinct_eq_ok_iff.mp hdistinct) hresolved

/-- Definitions stand for one grammar at most. -/
theorem LoweredFrom.unique {g g' : Grammar} {ds : List Definition} (h : g.LoweredFrom ds)
    (h' : g'.LoweredFrom ds) : g.unspanned = g'.unspanned := by
  have hnames := nodup_names h.distinct
  have hrules : ∀ {ds' : List Definition} {rs rs' : List Rule},
      List.Forall₂ (fun d r => d.key = some r.name ∧
        LowersChoice (ds.filterMap Definition.key) d.body r.body) ds' rs →
      List.Forall₂ (fun d r => d.key = some r.name ∧
        LowersChoice (ds.filterMap Definition.key) d.body r.body) ds' rs' →
      rs.map Rule.unspanned = rs'.map Rule.unspanned := by
    intro ds' rs rs' hrs hrs'
    induction hrs generalizing rs' with
    | nil =>
      cases hrs'
      rfl
    | cons hr _ ih =>
      cases hrs' with
      | cons hr' hmore =>
        have hname := Option.some.inj (hr.1.symm.trans hr'.1)
        rw [List.map_cons, List.map_cons, ih hmore]
        simp only [Rule.unspanned, hname, hr.2.unique hnames hr'.2]
  have hskip : ∀ {d : Option Definition} {o o' : Option Expr},
      Option.Rel (fun d e => LowersChoice (ds.filterMap Definition.key) d.body e) d o →
      Option.Rel (fun d e => LowersChoice (ds.filterMap Definition.key) d.body e) d o' → o = o' := by
    rintro d o o' (⟨he⟩ | _) ho'
    · cases ho' with
      | some he' => rw [he.unique hnames he']
    · cases ho'
      rfl
  rw [unspanned, unspanned, hrules h.rules h'.rules, hskip h.skip h'.skip]

/-! ## Compiled texts -/

theorem compile_eq_error_iff {source : Source} {fault : GrammarFault} :
    compile source = .error (.refused source fault) ↔ ofText source.text.toList = .error fault := by
  unfold compile
  cases ofText source.text.toList <;> simp

theorem exists_refused_of_compile {source : Source} {e : GrammarError}
    (h : compile source = .error e) : ∃ fault, e = .refused source fault := by
  unfold compile at h
  split at h
  · cases h
  · cases h
    exact ⟨_, rfl⟩

theorem compile_eq_ok_iff {source : Source} {g : Grammar} :
    compile source = .ok g ↔ ofText source.text.toList = .ok g := by
  unfold compile
  cases ofText source.text.toList <;> simp

theorem ofText_unreadable_iff {text : List Char} {attempts : Attempts} :
    ofText text = .error (.unreadable attempts) ↔ read text = .error (.unreadable attempts) := by
  rw [ofText_eq]
  cases read text with
  | error fault => simp [bind, Except.bind]
  | ok ds =>
    constructor
    · intro h
      exact absurd h (readable_ofDefinitions ds attempts)
    · intro h
      cases h

/-- A text is refused as unreadable exactly if no definitions are derived from tokens of it. -/
theorem compile_readable_iff (source : Source) :
    (¬ ∃ attempts, compile source = .error (.refused source (.unreadable attempts))) ↔
      ∃ ts ds, Splits source.text.toList ts ∧ Derives (.grammar ds) ts [] := by
  simp only [compile_eq_error_iff, ofText_unreadable_iff]
  constructor
  · intro hreadable
    cases hread : read source.text.toList with
    | ok ds =>
      obtain ⟨ts, hts, hderives⟩ := read_sound hread
      exact ⟨ts, ds, hts, hderives⟩
    | error fault =>
      -- reading has no other fault
      have hfault := hread
      unfold read at hfault
      split at hfault
      · cases hfault
      · cases hfault
        exact absurd ⟨_, hread⟩ hreadable
  · rintro ⟨ts, ds, hts, hderives⟩ ⟨attempts, hunreadable⟩
    obtain ⟨ds', hread, -⟩ := read_complete hts hderives
    rw [hread] at hunreadable
    cases hunreadable

/-- Texts of the same tokens compile to the same grammar but for spans, or both do not compile. -/
theorem compile_eq_of_splits {source other : Source} {ts : List Token}
    (h : Splits source.text.toList ts) (h' : Splits other.text.toList ts) :
    (compile source).toOption.map unspanned = (compile other).toOption.map unspanned := by
  rw [compile_unspanned, compile_unspanned, read_eq_of_splits h h']

/-- A compiled grammar is the one that definitions derived from its text stand for. -/
theorem loweredFrom_of_compile {source : Source} {g : Grammar} {ts : List Token}
    {ds : List Definition} (h : compile source = .ok g) (hts : Splits source.text.toList ts)
    (hderives : Derives (.grammar ds) ts []) : g.LoweredFrom ds := by
  obtain ⟨ds', hread, hlike⟩ := read_complete hts hderives
  -- what was read is what is derived but for spans, and so is what becomes of it
  have hg : (ofDefinitions ds).toOption.map unspanned = some g.unspanned := by
    have hcompile := compile_unspanned source
    rw [hread, h] at hcompile
    rw [← ofDefinitions_unspanned, ← hlike]
    exact hcompile.symm
  obtain ⟨g', hg', hsame⟩ := Option.map_eq_some_iff.mp hg
  have hlowered := loweredFrom_of_ofDefinitions (toOption_eq_some_iff.mp hg')
  rwa [← loweredFrom_unspanned_iff, hsame, loweredFrom_unspanned_iff] at hlowered

end Grammar

open Grammar in
/-- A text is refused as unreadable unless it splits into tokens of which definitions are derived.  If it
compiles then to the grammar that these definitions stand for, and to no other but for the spans of names;
texts of the same tokens compile to the same grammar but for these spans. -/
theorem compile_follows_notation (source : Source) :
    ((¬ ∃ attempts, compile source = .error (.refused source (.unreadable attempts))) ↔
      ∃ ts ds, Splits source.text.toList ts ∧ Derives (.grammar ds) ts []) ∧
    (∀ g ts ds, compile source = .ok g → Splits source.text.toList ts →
      Derives (.grammar ds) ts [] →
      g.LoweredFrom ds ∧ ∀ g' : Grammar, g'.LoweredFrom ds → g'.unspanned = g.unspanned) ∧
    ∀ (other : Source) ts, Splits source.text.toList ts → Splits other.text.toList ts →
      (compile source).toOption.map unspanned = (compile other).toOption.map unspanned := by
  refine ⟨compile_readable_iff source, ?_, fun other ts => compile_eq_of_splits⟩
  intro g ts ds h hts hderives
  have hlowered := loweredFrom_of_compile h hts hderives
  exact ⟨hlowered, fun g' h' => h'.unique hlowered⟩

/-- The text of `pairText` behind a comment that looks like a part of it. -/
def commentedText : Source :=
  ⟨"commented", "//'= \n= \x7b' '\x7d; a = @b 'x' | @b 'y'; b = 'b';"⟩

theorem compile_follows_notation_pair :
    ∃ ts ds, Splits pairText.text.toList ts ∧ Derives (.grammar ds) ts [] ∧
      pairGrammar.LoweredFrom ds ∧
      (Grammar.compile commentedText).toOption.map Grammar.unspanned = some pairGrammar.unspanned := by
  obtain ⟨hreadable, hlowered, hlayout⟩ := compile_follows_notation pairText
  have hno : ¬ ∃ attempts,
      Grammar.compile pairText = .error (.refused pairText (.unreadable attempts)) := by
    rintro ⟨attempts, h⟩
    rw [compile_pairText] at h
    cases h
  obtain ⟨ts, ds, hts, hderives⟩ := hreadable.mp hno
  have htext : commentedText.text.toList =
      '/' :: '/' :: (['\'', '=', ' '] ++ '\n' :: pairText.text.toList) := by decide +kernel
  have hcommented : Splits commentedText.text.toList ts := by
    rw [htext]
    exact .comment (by decide) (.inr ⟨_, rfl⟩) (.blank rfl hts)
  refine ⟨ts, ds, hts, hderives, (hlowered _ ts ds compile_pairText hts hderives).1, ?_⟩
  rw [← hlayout commentedText ts hts hcommented, compile_pairText]
  rfl

end PegTree
