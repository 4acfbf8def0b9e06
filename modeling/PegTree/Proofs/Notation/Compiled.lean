import Mathlib.Data.List.Perm.Basic
import PegTree.Proofs.Grammar.Renumber
import PegTree.Proofs.Notation.Exactness

/-!
# Definitions that compile

A grammar that definitions stand for is what every text of them compiles to, if it has no cycle
(`exists_compile_of_loweredFrom`).  So texts can be followed by their definitions alone: what the same
definitions in another order stand for has the same rules at other places (`LoweredFrom.perm`), and one
definition more at the end is one rule more at the end (`LoweredFrom.snoc`).
-/

namespace PegTree

/-! ## Texts of definitions -/

theorem Derives.append_definitions {ds es : List Definition} {ts us vs : List Token}
    (h : Derives (.grammar ds) ts us) (h' : Derives (.grammar es) us vs) :
    Derives (.grammar (ds ++ es)) ts vs := by
  induction ds generalizing ts with
  | nil =>
    cases h
    exact h'
  | cons d more ih =>
    cases h with
    | grammar_cons hd hmore => exact .grammar_cons hd (ih hmore)

/-- Tokens of definitions behind tokens of definitions. -/
theorem Derives.definitions_behind {ds es : List Definition} {ts us : List Token}
    (h : Derives (.grammar ds) ts []) (h' : Derives (.grammar es) us []) :
    Derives (.grammar (ds ++ es)) (ts ++ us) [] := by
  obtain ⟨own, rfl, hown⟩ := h.contextFree
  rw [List.append_nil]
  exact (hown us).append_definitions h'

/-- All bodies are resolved if each of them is. -/
theorem exists_resolveAll {names : List String} {ds : List Definition}
    (h : ∀ d ∈ ds, ∃ e, d.resolve names = .ok e) :
    ∃ resolved, resolveAll names ds = .ok resolved := by
  induction ds with
  | nil => exact ⟨[], rfl⟩
  | cons d more ih =>
    obtain ⟨e, he⟩ := h d List.mem_cons_self
    obtain ⟨others, hothers⟩ := ih fun d hd => h d (List.mem_cons_of_mem _ hd)
    exact ⟨(d, e) :: others, by rw [resolveAll, he, hothers]; rfl⟩

theorem exists_of_forall₂ {α β : Type} {R : α → β → Prop} {as : List α} {bs : List β}
    (h : List.Forall₂ R as bs) {a : α} (ha : a ∈ as) : ∃ b ∈ bs, R a b := by
  induction h with
  | nil => cases ha
  | cons hfirst _ ih =>
    rcases List.mem_cons.mp ha with rfl | ha
    · exact ⟨_, List.mem_cons_self, hfirst⟩
    · obtain ⟨b, hb, hab⟩ := ih ha
      exact ⟨b, List.mem_cons_of_mem _ hb, hab⟩

namespace Grammar

variable {g : Grammar} {ds es : List Definition}

/-- There is one definition without a name at most. -/
theorem eq_of_unnamed {d d' : Definition} (hdistinct : (ds.map Definition.key).Nodup) (hd : d ∈ ds)
    (hd' : d' ∈ ds) (hno : d.name.isNone = true) (hno' : d'.name.isNone = true) : d = d' := by
  have hnone : ∀ {d : Definition}, d.name.isNone = true → d.key = none := by
    intro d hno
    rw [Definition.key, Option.isNone_iff_eq_none.mp hno]
    rfl
  exact List.inj_on_of_nodup_map hdistinct hd hd' ((hnone hno).trans (hnone hno').symm)

/-- Every definition has a body in the grammar. -/
theorem LoweredFrom.exists_body (h : g.LoweredFrom ds) {d : Definition} (hd : d ∈ ds) :
    ∃ e, LowersChoice (ds.filterMap Definition.key) d.body e := by
  by_cases hname : d.name.isSome = true
  · obtain ⟨r, -, -, hbody⟩ := exists_of_forall₂ h.rules (List.mem_filter.mpr ⟨hd, hname⟩)
    exact ⟨r.body, hbody⟩
  · have hno : d.name.isNone = true := by simpa using hname
    have hskip := h.skip
    generalize g.skip = skip at hskip
    cases hfind : ds.find? (·.name.isNone) with
    | none => exact absurd hno (List.find?_eq_none.mp hfind d hd)
    | some d' =>
      have hno' : d'.name.isNone = true := by simpa using List.find?_some hfind
      obtain rfl := eq_of_unnamed h.distinct hd (List.mem_of_find?_eq_some hfind) hno hno'
      rw [hfind] at hskip
      cases hskip with
      | some hbody => exact ⟨_, hbody⟩

/-- Definitions become the grammar that they stand for, unless it has a cycle. -/
theorem LoweredFrom.exists_ofDefinitions (h : g.LoweredFrom ds) (hno : ¬ g.Cyclic) :
    ∃ g', ofDefinitions ds = .ok g' ∧ g'.unspanned = g.unspanned := by
  obtain ⟨resolved, hresolved⟩ := exists_resolveAll fun d hd => by
    obtain ⟨e, he⟩ := h.exists_body hd
    exact ⟨e, (Definition.resolve_eq_ok_iff (nodup_names h.distinct)).mpr he⟩
  have hlowered := loweredFrom_of_resolveAll h.distinct hresolved
  have hsame : g.unspanned = (ofResolved resolved).unspanned := h.unique hlowered
  have hg := resolved_of_resolveAll hresolved
  have hleft : (ofResolved resolved).checkLeftRecursion = .ok () := by
    rw [checkLeftRecursion_eq_ok_iff, ← Option.not_isSome_iff_eq_none, firstCycle?_isSome_iff hg,
      ← cyclic_congr hg hsame]
    exact hno
  refine ⟨ofResolved resolved, ?_, hsame.symm⟩
  simp only [ofDefinitions, checkDistinct_eq_ok_iff.mpr h.distinct, hresolved, hleft, bind,
    Except.bind]

/-- A text compiles to the grammar that its definitions stand for, unless it has a cycle. -/
theorem exists_compile_of_loweredFrom {source : Source} {ts : List Token}
    (hts : Splits source.text.toList ts) (hds : Derives (.grammar ds) ts []) (h : g.LoweredFrom ds)
    (hno : ¬ g.Cyclic) : ∃ g', compile source = .ok g' ∧ g'.unspanned = g.unspanned := by
  obtain ⟨g', hg', hsame⟩ := h.exists_ofDefinitions hno
  obtain ⟨ds', hread, hlike⟩ := read_complete hts hds
  have hcompile := compile_unspanned source
  rw [toOption_eq_some_iff.mpr hread, Option.map_some, hlike, Option.bind_some, ofDefinitions_unspanned,
    toOption_eq_some_iff.mpr hg'] at hcompile
  obtain ⟨g'', hg'', hsame'⟩ := Option.map_eq_some_iff.mp hcompile
  exact ⟨g'', toOption_eq_some_iff.mp hg'', hsame'.trans hsame⟩

/-- No rule of a compiled grammar leads back to itself. -/
theorem not_cyclic_of_compile {source : Source} (h : compile source = .ok g) : ¬ g.Cyclic := by
  rw [← firstCycle?_isSome_iff (resolved_of_compile h), firstCycle?_of_compile h]
  simp

theorem LoweredFrom.nodup_rules (h : g.LoweredFrom ds) : (g.rules.map Rule.name).Nodup := by
  rw [h.names]
  exact nodup_names h.distinct

/-! ## Spans -/

theorem loweredFrom_iff : g.LoweredFrom ds ↔
    (ds.map Definition.key).Nodup ∧
      List.Forall₂
        (fun d r => d.key = some r.name ∧ LowersChoice (ds.filterMap Definition.key) d.body r.body)
        (ds.filter (·.name.isSome)) g.rules ∧
      Option.Rel (fun d e => LowersChoice (ds.filterMap Definition.key) d.body e)
        (ds.find? (·.name.isNone)) g.skip :=
  ⟨fun h => ⟨h.distinct, h.rules, h.skip⟩, fun h => ⟨h.1, h.2.1, h.2.2⟩⟩

theorem lowersChoice_unspanned_iff {names : List String} (hnames : names.Nodup) {d : Definition}
    {e : Expr} :
    LowersChoice names d.unspanned.body e ↔ LowersChoice names d.body e := by
  rw [← Definition.resolve_eq_ok_iff hnames, ← Definition.resolve_eq_ok_iff hnames,
    ← toOption_eq_some_iff, ← toOption_eq_some_iff, Definition.resolve_unspanned]

/-- Where definitions are written does not matter for what they stand for. -/
theorem loweredFrom_map_unspanned_iff :
    g.LoweredFrom (ds.map Definition.unspanned) ↔ g.LoweredFrom ds := by
  have hkeys : (ds.map Definition.unspanned).map Definition.key = ds.map Definition.key := by
    rw [List.map_map]
    exact List.map_congr_left fun d _ => d.key_unspanned
  have hnames : (ds.map Definition.unspanned).filterMap Definition.key =
      ds.filterMap Definition.key := by
    rw [List.filterMap_map]
    exact List.filterMap_congr fun d _ => d.key_unspanned
  have hnamed : (ds.map Definition.unspanned).filter (·.name.isSome) =
      (ds.filter (·.name.isSome)).map Definition.unspanned := by
    rw [List.filter_map]
    exact congrArg _ (List.filter_congr fun d _ => Option.isSome_map)
  have hunnamed : (ds.map Definition.unspanned).find? (·.name.isNone) =
      (ds.find? (·.name.isNone)).map Definition.unspanned := by
    rw [List.find?_map]
    congr 2
    funext d
    exact Option.isNone_map
  have hrel : ∀ {o : Option Definition} {o' : Option Expr} {R S : Definition → Expr → Prop},
      (∀ d e, R d.unspanned e ↔ S d e) →
        (Option.Rel R (o.map Definition.unspanned) o' ↔ Option.Rel S o o') := by
    rintro (_ | d) (_ | e) R S hiff <;> simp [hiff]
  rw [loweredFrom_iff, loweredFrom_iff, hkeys, hnames, hnamed, hunnamed]
  refine and_congr_right fun hdistinct => and_congr ?_ ?_
  · simp only [List.forall₂_map_left_iff, Definition.key_unspanned,
      lowersChoice_unspanned_iff (nodup_names hdistinct)]
  · exact hrel fun d e => lowersChoice_unspanned_iff (nodup_names hdistinct)

end Grammar

/-! ## Other numbers -/

/-- `σ` gives the place among `names'` of every one of `names`. -/
def MovesNames (σ : RuleId → RuleId) (names names' : List String) : Prop :=
  ∀ id name, names[id]? = some name → names'[σ id]? = some name

section

variable {names names' : List String} {σ : RuleId → RuleId}

mutual

/-- With the names at other places a phrase stands for the expression with all mentions moved. -/
theorem Lowers.renumber (hσ : MovesNames σ names names') :
    ∀ {p e}, Lowers names p e → Lowers names' p (e.renumber σ)
  | _, _, .negation h => .negation (h.renumber hσ)
  | _, _, .capture h => .capture (hσ _ _ h)
  | _, _, .range hlow hhigh hle => .range hlow hhigh hle
  | _, _, .range_open hlow => .range_open hlow
  | _, _, .group h => .group (h.renumber hσ)
  | _, _, .repetition h => .repetition (h.renumber hσ)
  | _, _, .optional h => .optional (h.renumber hσ)
  | _, _, .finish => .finish
  | _, _, .nothing h => .nothing h
  | _, _, .literal h hne => .literal h hne
  | _, _, .reference h => .reference (hσ _ _ h)

theorem LowersChoice.renumber (hσ : MovesNames σ names names') :
    ∀ {as e}, LowersChoice names as e → LowersChoice names' as (e.renumber σ)
  | _, _, .one h => .one (h.renumber hσ)
  | _, _, .many hne h => .many hne (h.renumber hσ)

theorem LowersAll.renumber (hσ : MovesNames σ names names') :
    ∀ {as es}, LowersAll names as es → LowersAll names' as (renumberAll σ es)
  | _, _, .nil => .nil
  | _, _, .cons h hmore => .cons (h.renumber hσ) (hmore.renumber hσ)

theorem LowersSequence.renumber (hσ : MovesNames σ names names') :
    ∀ {es e}, LowersSequence names es e → LowersSequence names' es (e.renumber σ)
  | _, _, .one h => .one (h.renumber hσ)
  | _, _, .many hne h => .many hne (h.renumber hσ)

theorem LowersTerms.renumber (hσ : MovesNames σ names names') :
    ∀ {es terms}, LowersTerms names es terms → LowersTerms names' es (renumberTerms σ terms)
  | _, _, .nil => .nil
  | _, _, .cons h hmore => .cons (h.renumber hσ) (hmore.renumber hσ)

end

/-! ## Another order -/

/-- The place among `names'` of what is at a place among `names`; places with nothing at them stay. -/
def place (names names' : List String) (id : RuleId) : RuleId :=
  match names[id]? with
  | some name => names'.idxOf name
  | none => id

theorem place_moves (hsub : names ⊆ names') : MovesNames (place names names') names names' := by
  intro id name hname
  have hin : name ∈ names' := hsub (List.mem_of_getElem? hname)
  rw [place, hname]
  exact List.getElem?_idxOf hin

/-- Back from the other order every place is the old one. -/
theorem place_place (hnodup : names.Nodup) (hperm : names'.Perm names) (id : RuleId) :
    place names' names (place names names' id) = id := by
  cases hname : names[id]? with
  | none =>
    have hid : place names names' id = id := by rw [place, hname]
    have hnone : names'[id]? = none := by
      rw [List.getElem?_eq_none_iff] at hname ⊢
      rwa [hperm.length_eq]
    rw [hid, place, hnone]
  | some name =>
    have hback := place_moves (fun _ hx => hperm.mem_iff.mpr hx) id name hname
    obtain ⟨hlt, rfl⟩ := List.getElem?_eq_some_iff.mp hname
    rw [place, hback]
    exact hnodup.idxOf_getElem id hlt

end

namespace Grammar

variable {g : Grammar} {ds es : List Definition}

/-- In every order the same definition has no name. -/
theorem find?_unnamed_perm (hdistinct : (ds.map Definition.key).Nodup) (hperm : es.Perm ds) :
    es.find? (·.name.isNone) = ds.find? (·.name.isNone) := by
  cases hfind : ds.find? (·.name.isNone) with
  | none =>
    rw [List.find?_eq_none] at hfind ⊢
    exact fun d hd => hfind d (hperm.mem_iff.mp hd)
  | some d =>
    have hd := List.mem_of_find?_eq_some hfind
    have hno : d.name.isNone = true := by simpa using List.find?_some hfind
    cases hfind' : es.find? (·.name.isNone) with
    | none => exact absurd hno (List.find?_eq_none.mp hfind' d (hperm.mem_iff.mpr hd))
    | some d' =>
      have hno' : d'.name.isNone = true := by simpa using List.find?_some hfind'
      rw [eq_of_unnamed hdistinct hd (hperm.mem_iff.mp (List.mem_of_find?_eq_some hfind')) hno hno']

/-- A skip rule, if there is one, is changed like every body. -/
theorem rel_changed {R S : Definition → Expr → Prop} {change : Expr → Expr}
    (hchange : ∀ d e, R d e → S d (change e)) {d : Option Definition} {o : Option Expr}
    (h : Option.Rel R d o) : Option.Rel S d (o.map change) := by
  cases h with
  | none => exact .none
  | some he => exact .some (hchange _ _ he)

/-- The grammar with its rules in the order of `rs` and every mention moved. -/
def moved (g : Grammar) (σ : RuleId → RuleId) (rs : List Rule) : Grammar where
  rules := rs.map fun r => { r with body := r.body.renumber σ }
  skip := g.skip.map (Expr.renumber σ)

/-- Rules in another order are the same rules at other places. -/
theorem renumberedBy_moved {rs : List Rule} (hnodup : (g.rules.map Rule.name).Nodup)
    (hrs : rs.Perm g.rules) {σ : RuleId → RuleId}
    (hσ : σ = place (g.rules.map Rule.name) (rs.map Rule.name)) : g.RenumberedBy σ (g.moved σ rs) := by
  have hnames : (rs.map Rule.name).Perm (g.rules.map Rule.name) := hrs.map Rule.name
  have hmoves : MovesNames σ (g.rules.map Rule.name) (rs.map Rule.name) := by
    rw [hσ]
    exact place_moves fun _ hx => hnames.mem_iff.mpr hx
  refine ⟨?_, ?_, ?_, rfl⟩
  · rw [hσ]
    exact Function.LeftInverse.injective (place_place hnodup hnames)
  · intro id r hr
    have hplace := hmoves id r.name (by rw [List.getElem?_map, hr]; rfl)
    rw [List.getElem?_map] at hplace
    obtain ⟨r', hr', hname⟩ := Option.map_eq_some_iff.mp hplace
    -- what is at the new place has the name, so it is the same rule
    obtain rfl : r' = r := List.inj_on_of_nodup_map hnodup
      (hrs.mem_iff.mp (List.mem_of_getElem? hr')) (List.mem_of_getElem? hr) hname
    refine ⟨r'.nameSpan, ?_⟩
    rw [moved, List.getElem?_map, hr']
    rfl
  · intro id hnone
    have hstays : σ id = id := by
      rw [hσ, place, List.getElem?_map, hnone]
      rfl
    rw [List.getElem?_eq_none_iff] at hnone ⊢
    rwa [hstays, moved, List.length_map, hrs.length_eq]

/-- The same definitions in another order stand for the same rules at other places. -/
theorem LoweredFrom.perm (h : g.LoweredFrom ds) (hperm : es.Perm ds) :
    ∃ σ g', g.RenumberedBy σ g' ∧ Function.Surjective σ ∧ g'.LoweredFrom es := by
  have hnames : (es.filterMap Definition.key).Perm (ds.filterMap Definition.key) := hperm.filterMap _
  have hnodup : (es.filterMap Definition.key).Nodup := hnames.nodup_iff.mpr (nodup_names h.distinct)
  generalize hσ : place (ds.filterMap Definition.key) (es.filterMap Definition.key) = σ
  have hmoves : MovesNames σ (ds.filterMap Definition.key) (es.filterMap Definition.key) := by
    rw [← hσ]
    exact place_moves fun _ hx => hnames.mem_iff.mpr hx
  obtain ⟨rs, hrs, hrsperm⟩ := List.perm_comp_forall₂ (hperm.filter (·.name.isSome)) h.rules
  have hlowered : (g.moved σ rs).LoweredFrom es := by
    refine ⟨(hperm.map Definition.key).nodup_iff.mpr h.distinct, ?_, ?_⟩
    · exact List.forall₂_map_right_iff.mpr (hrs.imp fun d r hr => ⟨hr.1, hr.2.renumber hmoves⟩)
    · rw [find?_unnamed_perm h.distinct hperm]
      exact rel_changed (fun _ _ he => he.renumber hmoves) h.skip
  have hrsnames : rs.map Rule.name = es.filterMap Definition.key := by
    rw [← hlowered.names, moved, List.map_map]
    rfl
  refine ⟨σ, g.moved σ rs, renumberedBy_moved h.nodup_rules hrsperm ?_, ?_, hlowered⟩
  · rw [h.names, hrsnames, hσ]
  · rw [← hσ]
    exact Function.RightInverse.surjective (place_place hnodup hnames.symm)

/-- One definition more at the end is one rule more at the end. -/
theorem LoweredFrom.snoc (h : g.LoweredFrom ds) {n : WrittenName} {body : Alternatives} {span : Span}
    {e : Expr} (hfresh : n.text ∉ ds.filterMap Definition.key)
    (hbody : LowersChoice (ds.filterMap Definition.key ++ [n.text]) body e) :
    (g.snoc ⟨n.text, e, n.span⟩).LoweredFrom
      (ds ++ [(⟨some n, body, span⟩ : Definition)]) := by
  have hnames : (ds ++ [(⟨some n, body, span⟩ : Definition)]).filterMap Definition.key =
      ds.filterMap Definition.key ++ [n.text] :=
    List.filterMap_append
  -- the ids of before stay
  have hlater : ∀ {as e'}, LowersChoice (ds.filterMap Definition.key) as e' →
      LowersChoice (ds.filterMap Definition.key ++ [n.text]) as e' := by
    intro as e' he'
    have hmoves : MovesNames id (ds.filterMap Definition.key)
        (ds.filterMap Definition.key ++ [n.text]) := by
      intro i name hname
      rw [id, List.getElem?_append_left (List.getElem?_eq_some_iff.mp hname).1, hname]
    have hsame := he'.renumber hmoves
    rwa [Expr.renumber_eq_self _ fun _ _ => rfl] at hsame
  refine ⟨?_, ?_, ?_⟩
  · rw [List.map_append, List.map_singleton]
    refine h.distinct.append (List.nodup_singleton _) ?_
    rw [List.disjoint_singleton]
    intro hin
    obtain ⟨d, hd, hkey⟩ := List.mem_map.mp hin
    exact hfresh (List.mem_filterMap.mpr ⟨d, hd, hkey⟩)
  · rw [hnames, List.filter_append]
    exact List.rel_append (h.rules.imp fun d r hr => ⟨hr.1, hlater hr.2⟩) (.cons ⟨rfl, hbody⟩ .nil)
  · have hfind : (ds ++ [(⟨some n, body, span⟩ : Definition)]).find? (·.name.isNone) =
        ds.find? (·.name.isNone) := by
      rw [List.find?_append]
      exact Option.or_none
    rw [hnames, hfind]
    have hskip : Option.Rel _ _ (g.skip.map id) := rel_changed (fun _ _ he => hlater he) h.skip
    rwa [Option.map_id_apply] at hskip

end Grammar

end PegTree
