import Mathlib.Data.List.Nodup
import PegTree.Grammar.Compile
import PegTree.Proofs.Except
import PegTree.Proofs.Grammar.Mention

/-!
# Compiled grammars are resolved

A compiled grammar comes from definitions that do not repeat each other.  A name is resolved to the place
of a definition of that name, so every rule that a compiled grammar calls is one of its own.
-/

namespace PegTree

/-! ## Mentions of resolved phrases -/

@[simp]
theorem mentions_sequenceExpr (terms : List Term) :
    (sequenceExpr terms).mentions = mentionsOfTerms terms := by
  unfold sequenceExpr
  split <;> simp [Expr.mentions, mentionsOfTerms]

@[simp]
theorem mentions_choiceExpr (alternatives : List Expr) :
    (choiceExpr alternatives).mentions = mentionsOfAll alternatives := by
  unfold choiceExpr
  split <;> simp [Expr.mentions, mentionsOfAll]

theorem mentions_literalExpr (text : List Char) : (literalExpr text).mentions = [] := by
  cases text <;> rfl

theorem lookupName_lt {names : List String} {name : WrittenName} {id : RuleId}
    (h : lookupName names name = .ok id) : id < names.length := by
  unfold lookupName at h
  split at h
  · next i hi =>
    cases h
    exact (List.findIdx?_eq_some_iff_getElem.mp hi).1
  · simp at h

theorem mentions_rangeExpr {low : WrittenCharacter} {high : Option WrittenCharacter} {span : Span}
    {e : Expr} (h : rangeExpr low high span = .ok e) : e.mentions = [] := by
  simp only [rangeExpr, bind_eq_ok_iff] at h
  obtain ⟨a, -, b, -, h⟩ := h
  split at h
  · cases h
    rfl
  · cases h

mutual

theorem Phrase.within_of_resolve {names : List String} :
    ∀ {p : Phrase} {e : Expr}, p.resolve names = .ok e → e.Within names.length
  | .negation operand, _, h => by
    rw [Phrase.resolve, map_eq_ok_iff] at h
    obtain ⟨e, he, rfl⟩ := h
    simpa [Expr.Within, Expr.mentions] using Phrase.within_of_resolve he
  | .capture name, _, h => by
    rw [Phrase.resolve, map_eq_ok_iff] at h
    obtain ⟨id, hid, rfl⟩ := h
    simpa [Expr.Within, Expr.mentions] using lookupName_lt hid
  | .range low high span, _, h => by
    rw [Phrase.resolve] at h
    simp [Expr.Within, mentions_rangeExpr h]
  | .group alternatives, _, h => by
    rw [Phrase.resolve, map_eq_ok_iff] at h
    obtain ⟨es, hes, rfl⟩ := h
    simpa [Expr.Within] using within_of_resolveAlternatives hes
  | .repetition alternatives, _, h => by
    rw [Phrase.resolve, map_eq_ok_iff] at h
    obtain ⟨es, hes, rfl⟩ := h
    simpa [Expr.Within, Expr.mentions] using within_of_resolveAlternatives hes
  | .optional alternatives, _, h => by
    rw [Phrase.resolve, map_eq_ok_iff] at h
    obtain ⟨es, hes, rfl⟩ := h
    simpa [Expr.Within, Expr.mentions] using within_of_resolveAlternatives hes
  | .finish, _, h => by
    cases h
    simp [Expr.Within, Expr.mentions]
  | .literal character, _, h => by
    rw [Phrase.resolve, map_eq_ok_iff] at h
    obtain ⟨text, -, rfl⟩ := h
    simp [Expr.Within, mentions_literalExpr]
  | .reference name, _, h => by
    rw [Phrase.resolve, map_eq_ok_iff] at h
    obtain ⟨id, hid, rfl⟩ := h
    simpa [Expr.Within, Expr.mentions] using lookupName_lt hid

theorem within_of_resolveElements {names : List String} :
    ∀ {elements : List Element} {terms : List Term}, resolveElements names elements = .ok terms →
      ∀ x ∈ mentionsOfTerms terms, x.rule < names.length
  | [], _, h => by
    cases h
    simp [mentionsOfTerms]
  | ⟨adjacent, phrase⟩ :: more, _, h => by
    simp only [resolveElements, bind_eq_ok_iff] at h
    obtain ⟨e, he, terms, hterms, h⟩ := h
    cases h
    intro x hx
    rcases List.mem_append.mp hx with hx | hx
    · exact Phrase.within_of_resolve he x hx
    · exact within_of_resolveElements hterms x hx

theorem within_of_resolveAlternatives {names : List String} :
    ∀ {alternatives : List (List Element)} {es : List Expr},
      resolveAlternatives names alternatives = .ok es →
      ∀ x ∈ mentionsOfAll es, x.rule < names.length
  | [], _, h => by
    cases h
    simp [mentionsOfAll]
  | elements :: more, _, h => by
    simp only [resolveAlternatives, bind_eq_ok_iff] at h
    obtain ⟨terms, hterms, es, hes, h⟩ := h
    cases h
    intro x hx
    rcases List.mem_append.mp hx with hx | hx
    · exact within_of_resolveElements hterms x (by simpa using hx)
    · exact within_of_resolveAlternatives hes x hx

end

/-! ## Distinct definitions -/

theorem firstDuplicate?_eq_none_iff {earlier ds : List Definition} :
    firstDuplicate? earlier ds = none ↔
      (ds.map Definition.key).Nodup ∧ ∀ d ∈ ds, ∀ e ∈ earlier, e.key ≠ d.key := by
  induction ds generalizing earlier with
  | nil => simp [firstDuplicate?]
  | cons d more ih =>
    unfold firstDuplicate?
    split
    · next first hfind =>
      have hmem := List.mem_of_find?_eq_some hfind
      have hkey : first.key = d.key := by simpa using List.find?_some hfind
      simp only [reduceCtorEq, false_iff, not_and]
      exact fun _ hall => hall d List.mem_cons_self first hmem hkey
    · next hfind =>
      have hnew : ∀ e ∈ earlier, e.key ≠ d.key := by
        simpa using List.find?_eq_none.mp hfind
      rw [ih, List.map_cons, List.nodup_cons]
      constructor
      · rintro ⟨hnodup, hall⟩
        refine ⟨⟨?_, hnodup⟩, ?_⟩
        · intro hmem
          obtain ⟨x, hx, hkey⟩ := List.mem_map.mp hmem
          exact hall x hx d List.mem_cons_self hkey.symm
        · rintro x (_ | ⟨_, hx⟩) e he
          · exact hnew e he
          · exact hall x hx e (List.mem_cons_of_mem _ he)
      · rintro ⟨⟨hfresh, hnodup⟩, hall⟩
        refine ⟨hnodup, ?_⟩
        rintro x hx e (_ | ⟨_, he⟩) hkey
        · exact hfresh (List.mem_map.mpr ⟨x, hx, hkey.symm⟩)
        · exact hall x (List.mem_cons_of_mem _ hx) e he hkey

/-- No two definitions have one name, and no two have none. -/
theorem Grammar.checkDistinct_eq_ok_iff {ds : List Definition} :
    Grammar.checkDistinct ds = .ok () ↔ (ds.map Definition.key).Nodup := by
  have hiff := @firstDuplicate?_eq_none_iff [] ds
  simp only [List.not_mem_nil, false_imp_iff, implies_true, and_true] at hiff
  rw [← hiff, Grammar.checkDistinct]
  cases firstDuplicate? [] ds <;> simp

/-- The first definition that repeats an earlier one, with the earlier one: no two of those in front of it
are alike, so there is only one that it can repeat. -/
def FirstRepeat (ds : List Definition) (again first : Definition) : Prop :=
  ∃ before after, ds = before ++ again :: after ∧ (before.map Definition.key).Nodup ∧
    first ∈ before ∧ first.key = again.key

theorem firstRepeat_reverse_append (earlier : List Definition) {ds : List Definition}
    {again first : Definition} (hearlier : (earlier.map Definition.key).Nodup)
    (h : firstDuplicate? earlier ds = some (again, first)) :
    FirstRepeat (earlier.reverse ++ ds) again first := by
  induction ds generalizing earlier with
  | nil => cases h
  | cons d more ih =>
    rw [firstDuplicate?] at h
    split at h
    · next found hfind =>
      cases h
      refine ⟨earlier.reverse, more, rfl, ?_, ?_, by simpa using List.find?_some hfind⟩
      · rw [List.map_reverse]
        exact List.pairwise_reverse.mpr (hearlier.imp Ne.symm)
      · exact List.mem_reverse.mpr (List.mem_of_find?_eq_some hfind)
    · next hfind =>
      have hnew : d.key ∉ earlier.map Definition.key := by
        simpa using List.find?_eq_none.mp hfind
      have hnodup : ((d :: earlier).map Definition.key).Nodup := List.nodup_cons.mpr ⟨hnew, hearlier⟩
      simpa using ih (d :: earlier) hnodup h

/-- Among distinct definitions none is like one in front of it. -/
theorem key_ne_of_nodup {before after : List Definition} {d e : Definition}
    (h : ((before ++ d :: after).map Definition.key).Nodup) (he : e ∈ before) : e.key ≠ d.key := by
  rw [List.map_append, List.map_cons, List.nodup_append] at h
  exact h.2.2 _ (List.mem_map_of_mem he) _ List.mem_cons_self

theorem FirstRepeat.not_nodup {ds : List Definition} {again first : Definition}
    (h : FirstRepeat ds again first) : ¬ (ds.map Definition.key).Nodup := by
  obtain ⟨before, after, rfl, -, hfirst, hkey⟩ := h
  exact fun hnodup => key_ne_of_nodup hnodup hfirst hkey

theorem firstRepeat_of_firstDuplicate? {ds : List Definition} {again first : Definition}
    (h : firstDuplicate? [] ds = some (again, first)) : FirstRepeat ds again first :=
  firstRepeat_reverse_append [] List.nodup_nil h

/-- No two definitions in front of a first repeat are alike, so a list has one at most. -/
theorem FirstRepeat.unique {ds : List Definition} {again first again' first' : Definition}
    (h : FirstRepeat ds again first) (h' : FirstRepeat ds again' first') :
    again = again' ∧ first = first' := by
  obtain ⟨before, after, rfl, hnodup, hfirst, hkey⟩ := h
  obtain ⟨before', after', heq, hnodup', hfirst', hkey'⟩ := h'
  -- a repeat cannot stand in front of the other one
  have hsame : before = before' ∧ again = again' := by
    rcases List.append_eq_append_iff.mp heq with ⟨_ | ⟨d, ys⟩, hb, ha⟩ | ⟨_ | ⟨d, ys⟩, hb, ha⟩
    · exact ⟨by simpa using hb.symm, (List.cons.inj ha).1⟩
    · obtain ⟨rfl, -⟩ := List.cons.inj ha
      subst hb
      exact absurd hkey (key_ne_of_nodup hnodup' hfirst)
    · exact ⟨by simpa using hb, (List.cons.inj ha).1.symm⟩
    · obtain ⟨rfl, -⟩ := List.cons.inj ha
      subst hb
      exact absurd hkey' (key_ne_of_nodup hnodup hfirst')
  obtain ⟨rfl, rfl⟩ := hsame
  exact ⟨rfl, List.inj_on_of_nodup_map hnodup hfirst hfirst' (hkey.trans hkey'.symm)⟩

/-- Distinct definitions are asked for, and it is the first repeat that is reported. -/
theorem Grammar.checkDistinct_eq_error_iff {ds : List Definition} {fault : GrammarFault} :
    Grammar.checkDistinct ds = .error fault ↔
      ∃ again first, FirstRepeat ds again first ∧
        fault = .duplicateRule again.key again.mark first.mark := by
  rw [Grammar.checkDistinct]
  cases h : firstDuplicate? [] ds with
  | none =>
    have hnodup := (firstDuplicate?_eq_none_iff.mp h).1
    simp only [reduceCtorEq, false_iff]
    rintro ⟨again, first, hrepeat, -⟩
    exact hrepeat.not_nodup hnodup
  | some found =>
    have hfound := firstRepeat_of_firstDuplicate? h
    simp only [Except.error.injEq]
    constructor
    · rintro rfl
      exact ⟨_, _, hfound, rfl⟩
    · rintro ⟨again, first, hrepeat, rfl⟩
      obtain ⟨rfl, rfl⟩ := hrepeat.unique hfound
      rfl

/-! ## Grammars -/

theorem Definition.within_of_resolve {names : List String} {d : Definition} {e : Expr}
    (h : d.resolve names = .ok e) : e.Within names.length := by
  rw [Definition.resolve, map_eq_ok_iff] at h
  obtain ⟨es, hes, rfl⟩ := h
  simpa [Expr.Within] using within_of_resolveAlternatives hes

/-- Resolving keeps the definitions and gives each its body. -/
theorem resolveAll_eq_ok {names : List String} {ds : List Definition}
    {resolved : List (Definition × Expr)} (h : resolveAll names ds = .ok resolved) :
    resolved.map Prod.fst = ds ∧ ∀ x ∈ resolved, x.1.resolve names = .ok x.2 := by
  induction ds generalizing resolved with
  | nil =>
    cases h
    simp
  | cons d more ih =>
    simp only [resolveAll, bind_eq_ok_iff] at h
    obtain ⟨body, hbody, others, hothers, h⟩ := h
    cases h
    obtain ⟨hmap, hall⟩ := ih hothers
    exact ⟨by simp [hmap], by simpa using ⟨hbody, fun a b hab => hall (a, b) hab⟩⟩

namespace Grammar

theorem size_ofResolved (resolved : List (Definition × Expr)) :
    (ofResolved resolved).size = ((resolved.map Prod.fst).filterMap Definition.key).length := by
  induction resolved with
  | nil => rfl
  | cons x more ih =>
    obtain ⟨d, body⟩ := x
    simp only [size, ofResolved] at ih ⊢
    cases hd : d.name <;> simp [Definition.key, hd, ih]

theorem resolved_ofResolved {resolved : List (Definition × Expr)} {n : Nat}
    (hsize : (ofResolved resolved).size = n) (h : ∀ x ∈ resolved, x.2.Within n) :
    (ofResolved resolved).Resolved := by
  intro e he
  rw [hsize]
  simp only [bodies, ofResolved, List.mem_append, List.mem_map, List.mem_filterMap,
    Option.mem_toList, Option.map_eq_some_iff] at he
  rcases he with ⟨r, ⟨⟨d, body⟩, hmem, name, -, rfl⟩, rfl⟩ | ⟨x, hx, rfl⟩
  · exact h _ hmem
  · exact h _ (List.mem_of_find?_eq_some hx)

/-- How a text compiles: it is read, no name is defined twice, all bodies are resolved, and no rule is
left-recursive. -/
theorem ofText_eq_ok {text : List Char} {g : Grammar} (h : ofText text = .ok g) :
    ∃ ds resolved, read text = .ok ds ∧ checkDistinct ds = .ok () ∧
      resolveAll (ds.filterMap Definition.key) ds = .ok resolved ∧ g = ofResolved resolved ∧
      g.checkLeftRecursion = .ok () := by
  simp only [ofText, bind_eq_ok_iff] at h
  obtain ⟨ds, hds, ⟨⟩, hdistinct, resolved, hresolved, ⟨⟩, hleft, h⟩ := h
  cases h
  exact ⟨ds, resolved, hds, hdistinct, hresolved, rfl, hleft⟩

theorem compile_eq_ok {source : Source} {g : Grammar} (h : compile source = .ok g) :
    ofText source.text.toList = .ok g := by
  unfold compile at h
  split at h
  · next hg => cases h; exact hg
  · cases h

/-- Names are resolved to rules that are there. -/
theorem resolved_of_resolveAll {ds : List Definition} {resolved : List (Definition × Expr)}
    (h : resolveAll (ds.filterMap Definition.key) ds = .ok resolved) :
    (ofResolved resolved).Resolved := by
  obtain ⟨hmap, hall⟩ := resolveAll_eq_ok h
  apply resolved_ofResolved (by rw [size_ofResolved, hmap])
  intro x hx
  exact Definition.within_of_resolve (hall x hx)

/-- Every rule that a compiled grammar calls is one of its own. -/
theorem resolved_of_compile {source : Source} {g : Grammar} (h : compile source = .ok g) :
    g.Resolved := by
  obtain ⟨ds, resolved, -, -, hresolved, rfl, -⟩ := ofText_eq_ok (compile_eq_ok h)
  exact resolved_of_resolveAll hresolved

theorem checkLeftRecursion_eq_ok_iff {g : Grammar} :
    g.checkLeftRecursion = .ok () ↔ g.firstCycle? = none := by
  unfold checkLeftRecursion
  cases g.firstCycle? <;> simp

/-- A grammar is refused for the cycle that is found, by the names of its rules. -/
theorem checkLeftRecursion_eq_error {g : Grammar} {fault : GrammarFault}
    (h : g.checkLeftRecursion = .error fault) :
    ∃ cycle span, g.firstCycle? = some cycle ∧ fault = .leftRecursion (cycle.map g.name) span := by
  unfold checkLeftRecursion at h
  split at h
  · cases h
  · next cycle hcycle =>
    cases h
    exact ⟨cycle, _, hcycle, rfl⟩

/-- A compiled grammar has no cycle of leading calls. -/
theorem firstCycle?_of_compile {source : Source} {g : Grammar} (h : compile source = .ok g) :
    g.firstCycle? = none := by
  obtain ⟨ds, resolved, -, -, -, -, hleft⟩ := ofText_eq_ok (compile_eq_ok h)
  exact checkLeftRecursion_eq_ok_iff.mp hleft

end Grammar

end PegTree
