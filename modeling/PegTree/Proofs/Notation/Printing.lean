import PegTree.Proofs.Grammar.WellFormed
import PegTree.Proofs.Notation.Compiled
import PegTree.Proofs.Notation.Writing

/-!
# Writing grammars

A text for every well-formed grammar.  Each expression is written as one operand: what has several parts
goes between parentheses, texts and bounds of ranges between quotes, and a rule by its name.  The tokens
derive the phrase that stands for the expression (`Expr.writtenAs`, `Expr.lowers_phrase`), so the text
compiles to the grammar again (`Grammar.WellFormed.exists_compile_source`).
-/

namespace PegTree

/-! ## Tokens of a part -/

/-- Tokens that can be written, and of which the part is derived whatever comes behind. -/
structure Node.WrittenAs (node : Node) (ts : List Token) : Prop where
  writable : ts.all Token.writable = true
  derives : ∀ us, Derives node (ts ++ us) us

namespace Node.WrittenAs

variable {a b c : Node} {ts us : List Token}

theorem imp (h : a.WrittenAs ts) (hrule : ∀ {ts us}, Derives a ts us → Derives b ts us) :
    b.WrittenAs ts :=
  ⟨h.writable, fun us => hrule (h.derives us)⟩

theorem whole (h : a.WrittenAs ts) : Derives a ts [] := by
  simpa using h.derives []

theorem append (ha : a.WrittenAs ts) (hb : b.WrittenAs us)
    (hrule : ∀ {ts us vs}, Derives a ts us → Derives b us vs → Derives c ts vs) :
    c.WrittenAs (ts ++ us) := by
  refine ⟨by simp only [List.all_append, ha.writable, hb.writable, Bool.and_self], fun vs => ?_⟩
  rw [List.append_assoc]
  exact hrule (ha.derives _) (hb.derives vs)

/-- Behind a token. -/
theorem behind {t : Token} (h : a.WrittenAs ts) (ht : t.writable = true)
    (hrule : ∀ {ts us}, Derives a ts us → Derives b (t :: ts) us) : b.WrittenAs (t :: ts) :=
  ⟨by simp only [List.all_cons, ht, h.writable, Bool.and_self], fun us => hrule (h.derives us)⟩

/-- Between two tokens. -/
theorem between {t t' : Token} (h : a.WrittenAs ts) (ht : t.writable = true) (ht' : t'.writable = true)
    (hrule : ∀ {ts us}, Derives a ts (t' :: us) → Derives b (t :: ts) us) :
    b.WrittenAs (t :: (ts ++ [t'])) := by
  refine ⟨by simp only [List.all_append, List.all_cons, List.all_nil, ht, ht', h.writable,
    Bool.and_self], fun us => ?_⟩
  rw [List.cons_append, List.append_assoc]
  exact hrule (h.derives _)

/-- An operand alone is a body. -/
theorem alone {p : Phrase} (h : (Node.phrase p).WrittenAs ts) :
    (Node.choice [[⟨false, p⟩]]).WrittenAs ts :=
  h.imp fun hp => .choice (.sequence (.plain hp) .elements_nil) .alternatives_nil

end Node.WrittenAs

/-! ## Names -/

theorem beginsName_iff {x : Char} : beginsName x = true ↔ IsLetter x := by
  have letters : x.isAlpha =
      (decide ('A' ≤ x ∧ x ≤ 'Z') || (decide ('a' ≤ x) && decide (x ≤ 'z'))) := rfl
  simp only [beginsName, IsLetter, letters, Bool.or_eq_true, Bool.and_eq_true, decide_eq_true_eq,
    beq_iff_eq, or_assoc]

theorem continuesName_iff {x : Char} : continuesName x = true ↔ IsLetter x ∨ IsDigit x := by
  rw [← beginsName_iff]
  simp only [beginsName, continuesName, Char.isAlphanum, IsDigit, Char.isDigit, Bool.or_eq_true,
    Bool.and_eq_true, decide_eq_true_eq, beq_iff_eq, or_assoc]
  rw [or_comm (a := x = '_')]
  rfl

/-- Exactly identifiers can be written as names. -/
theorem Token.writable_name_iff {name : String} :
    (Token.name name).writable = true ↔ Identifier name := by
  unfold Identifier
  cases htext : name.toList with
  | nil => simp [Token.writable, htext]
  | cons x xs =>
    simp only [Token.writable, htext, Bool.and_eq_true, List.all_eq_true, beginsName_iff,
      continuesName_iff]
    constructor
    · rintro ⟨hx, hxs⟩
      exact ⟨x, xs, rfl, hx, hxs⟩
    · rintro ⟨y, ys, heq, hy, hys⟩
      obtain ⟨rfl, rfl⟩ := List.cons.inj heq
      exact ⟨hy, hys⟩

/-! ## Expressions -/

/-- The name of a rule, without a place. -/
def nameAt (names : List String) (id : RuleId) : WrittenName :=
  ⟨names[id]?.getD "", ⟨0, 0⟩⟩

/-- Characters between quotes, without a place. -/
def quotedAt (body : List Char) : WrittenCharacter :=
  ⟨.quoted body, ⟨0, 0⟩⟩

mutual

/-- The operand for an expression. -/
def Expr.phrase (names : List String) : Expr → Phrase
  | .empty => .literal (quotedAt [])
  | .literal text => .literal (quotedAt text.toList)
  | .range low high => .range (quotedAt [low]) (some (quotedAt [high])) ⟨0, 0⟩
  | .endOfInput => .finish
  | .rule id => .reference (nameAt names id)
  | .capture id => .capture (nameAt names id)
  | .sequence terms => .group [elementsOf names terms]
  | .choice alternatives => .group (alternativesOf names alternatives)
  | .repetition body => .repetition [[⟨false, body.phrase names⟩]]
  | .optional body => .optional [[⟨false, body.phrase names⟩]]
  | .negation body => .negation (body.phrase names)

/-- The elements for the terms of a sequence. -/
def elementsOf (names : List String) : List Term → List Element
  | [] => []
  | ⟨adjacent, e⟩ :: terms => ⟨adjacent, e.phrase names⟩ :: elementsOf names terms

/-- Alternatives of one element each. -/
def alternativesOf (names : List String) : List Expr → Alternatives
  | [] => []
  | e :: alternatives => [⟨false, e.phrase names⟩] :: alternativesOf names alternatives

end

mutual

/-- The tokens for an expression. -/
def Expr.tokens (names : List String) : Expr → List Token
  | .empty => [.character (.quoted [])]
  | .literal text => [.character (.quoted text.toList)]
  | .range low high => [.character (.quoted [low]), .dots, .character (.quoted [high])]
  | .endOfInput => [.sign '$']
  | .rule id => [.name (names[id]?.getD "")]
  | .capture id => [.sign '@', .name (names[id]?.getD "")]
  | .sequence terms => .sign '(' :: (tokensOfTerms names terms ++ [.sign ')'])
  -- the first alternative has no bar in front
  | .choice alternatives => .sign '(' :: ((tokensOfAll names alternatives).tail ++ [.sign ')'])
  | .repetition body => .sign '\x7b' :: (body.tokens names ++ [.sign '\x7d'])
  | .optional body => .sign '[' :: (body.tokens names ++ [.sign ']'])
  | .negation body => .sign '!' :: body.tokens names

/-- The tokens for the terms of a sequence. -/
def tokensOfTerms (names : List String) : List Term → List Token
  | [] => []
  | ⟨true, e⟩ :: terms => (.sign '#' :: e.tokens names) ++ tokensOfTerms names terms
  | ⟨false, e⟩ :: terms => e.tokens names ++ tokensOfTerms names terms

/-- The tokens for alternatives, each behind a bar. -/
def tokensOfAll (names : List String) : List Expr → List Token
  | [] => []
  | e :: alternatives => .sign '|' :: (e.tokens names ++ tokensOfAll names alternatives)

end

section

variable {names : List String}

theorem writable_quoted_singleton (x : Char) : (Token.character (.quoted [x])).writable = true :=
  Token.writable_quoted_iff.mpr (Token.not_both_quotes_singleton x)

theorem writable_name {id : RuleId} (hnames : ∀ name ∈ names, (Token.name name).writable = true)
    (h : id < names.length) : (Token.name (names[id]?.getD "")).writable = true := by
  rw [List.getElem?_eq_getElem h, Option.getD_some]
  exact hnames _ (List.getElem_mem h)

mutual

/-- The tokens of an expression derive its operand. -/
theorem Expr.writtenAs (hnames : ∀ name ∈ names, (Token.name name).writable = true) :
    ∀ e : Expr, e.WellFormed names.length →
      (Node.phrase (e.phrase names)).WrittenAs (e.tokens names)
  | .empty, _ => ⟨rfl, fun _ => .literal⟩
  | .literal text, h =>
    ⟨by simp only [Expr.tokens, List.all_cons, Token.writable_quoted_iff.mpr h.2, List.all_nil,
      Bool.and_self], fun _ => .literal⟩
  | .range low high, _ => by
    refine ⟨?_, fun _ => .range⟩
    simp only [Expr.tokens, List.all_cons, List.all_nil, writable_quoted_singleton]
    rfl
  | .endOfInput, _ => ⟨rfl, fun _ => .finish⟩
  | .rule id, h => ⟨by simp [Expr.tokens, writable_name hnames h], fun _ => .reference⟩
  | .capture id, h => by
    refine ⟨?_, fun _ => .capture⟩
    simp only [Expr.tokens, List.all_cons, List.all_nil, writable_name hnames h]
    rfl
  | .sequence [], h => absurd rfl h.1
  | .sequence (⟨adjacent, e⟩ :: terms), h => by
    have hterms := writtenAs_terms hnames (⟨adjacent, e⟩ :: terms) h.2.2
    have hchoice : (Node.choice [elementsOf names (⟨adjacent, e⟩ :: terms)]).WrittenAs
        (tokensOfTerms names (⟨adjacent, e⟩ :: terms)) :=
      hterms.imp fun hes => by
        cases hes with
        | elements_cons he hmore => exact .choice (.sequence he hmore) .alternatives_nil
    exact hchoice.between rfl rfl .group
  | .choice [], h => absurd h.1 (by simp)
  | .choice (e :: alternatives), h => by
    have hfirst := Expr.writtenAs hnames e h.2.1
    have hmore := writtenAs_all hnames alternatives h.2.2
    have hchoice := hfirst.append (c := .choice (alternativesOf names (e :: alternatives))) hmore
      fun he hes => .choice (.sequence (.plain he) .elements_nil) hes
    exact hchoice.between rfl rfl .group
  | .repetition body, h => (Expr.writtenAs hnames body h).alone.between rfl rfl .repetition
  | .optional body, h => (Expr.writtenAs hnames body h).alone.between rfl rfl .optional
  | .negation body, h => (Expr.writtenAs hnames body h).behind rfl .negation

theorem writtenAs_terms (hnames : ∀ name ∈ names, (Token.name name).writable = true) :
    ∀ terms : List Term, WellFormedTerms names.length terms →
      (Node.elements (elementsOf names terms)).WrittenAs (tokensOfTerms names terms)
  | [], _ => ⟨rfl, fun _ => .elements_nil⟩
  | ⟨true, e⟩ :: terms, h =>
    ((Expr.writtenAs hnames e h.1).behind rfl .adjacent).append (writtenAs_terms hnames terms h.2)
      .elements_cons
  | ⟨false, e⟩ :: terms, h =>
    ((Expr.writtenAs hnames e h.1).imp .plain).append (writtenAs_terms hnames terms h.2)
      .elements_cons

theorem writtenAs_all (hnames : ∀ name ∈ names, (Token.name name).writable = true) :
    ∀ alternatives : List Expr, WellFormedAll names.length alternatives →
      (Node.alternatives (alternativesOf names alternatives)).WrittenAs
        (tokensOfAll names alternatives)
  | [], _ => ⟨rfl, fun _ => .alternatives_nil⟩
  | e :: alternatives, h => by
    have hfirst := Expr.writtenAs hnames e h.1
    have hmore := writtenAs_all hnames alternatives h.2
    have hboth := hfirst.append (c := .choice (alternativesOf names (e :: alternatives))) hmore
      fun he hes => .choice (.sequence (.plain he) .elements_nil) hes
    exact hboth.behind rfl fun hchoice => by
      cases hchoice with
      | choice hes hmore => exact .alternatives_cons hes hmore

end

/-! ## What the operands stand for -/

theorem getElem?_nameAt {id : RuleId} (h : id < names.length) :
    names[id]? = some (names[id]?.getD "") := by
  rw [List.getElem?_eq_getElem h, Option.getD_some]

/-- A single element has a mark. -/
theorem elementsOf_ne_single {terms : List Term} (h : ∀ t, terms = [t] → t.adjacent = true) (p : Phrase) :
    elementsOf names terms ≠ [⟨false, p⟩] := by
  rcases terms with _ | ⟨⟨adjacent, e⟩, _ | ⟨⟨_, _⟩, more⟩⟩
  · simp [elementsOf]
  · have hmark := h _ rfl
    simp_all [elementsOf]
  · simp [elementsOf]

theorem length_alternativesOf (es : List Expr) : (alternativesOf names es).length = es.length := by
  induction es with
  | nil => rfl
  | cons e es ih => rw [alternativesOf, List.length_cons, ih, List.length_cons]

mutual

/-- The operand of an expression stands for it. -/
theorem Expr.lowers_phrase :
    ∀ e : Expr, e.WellFormed names.length → Lowers names (e.phrase names) e
  | .empty, _ => .nothing .quoted
  | .literal text, h => by
    have hne : text.toList ≠ [] := by simpa using h.1
    have hlowers : Lowers names (.literal (quotedAt text.toList))
        (.literal (String.ofList text.toList)) := .literal .quoted hne
    rwa [String.ofList_toList] at hlowers
  | .range low high, h => .range .quoted .quoted h
  | .endOfInput, _ => .finish
  | .rule id, h => .reference (getElem?_nameAt h)
  | .capture id, h => .capture (getElem?_nameAt h)
  | .sequence terms, h => by
    have hterms := lowers_elementsOf terms h.2.2
    exact .group (.one (.many (elementsOf_ne_single h.2.1) hterms))
  | .choice alternatives, h => by
    have hall := lowers_alternativesOf alternatives h.2
    have htwo := h.1
    refine .group (.many ?_ hall)
    rw [length_alternativesOf]
    omega
  | .repetition body, h => .repetition (.one (.one (Expr.lowers_phrase body h)))
  | .optional body, h => .optional (.one (.one (Expr.lowers_phrase body h)))
  | .negation body, h => .negation (Expr.lowers_phrase body h)

theorem lowers_elementsOf :
    ∀ terms : List Term, WellFormedTerms names.length terms →
      LowersTerms names (elementsOf names terms) terms
  | [], _ => .nil
  | ⟨_, e⟩ :: terms, h => .cons (Expr.lowers_phrase e h.1) (lowers_elementsOf terms h.2)

theorem lowers_alternativesOf :
    ∀ alternatives : List Expr, WellFormedAll names.length alternatives →
      LowersAll names (alternativesOf names alternatives) alternatives
  | [], _ => .nil
  | e :: alternatives, h =>
    .cons (.one (Expr.lowers_phrase e h.1)) (lowers_alternativesOf alternatives h.2)

end

end

/-! ## Grammars -/

/-- The definition of a body under a name, or of the skip rule. -/
def definitionOf (names : List String) (name : Option String) (body : Expr) : Definition :=
  ⟨name.map (⟨·, ⟨0, 0⟩⟩), [[⟨false, body.phrase names⟩]], ⟨0, 0⟩⟩

/-- The tokens of such a definition. -/
def tokensOfDefinition (names : List String) (name : Option String) (body : Expr) : List Token :=
  (name.map Token.name).toList ++ .sign '=' :: (body.tokens names ++ [.sign ';'])

namespace Grammar

variable (g : Grammar)

/-- The names of the rules. -/
def names : List String :=
  g.rules.map Rule.name

theorem length_names : g.names.length = g.size :=
  List.length_map _

/-- The bodies to be defined, with their names. -/
def parts : List (Option String × Expr) :=
  g.rules.map (fun r => (some r.name, r.body)) ++ g.skip.toList.map fun e => (none, e)

/-- Definitions for a grammar, the skip rule last. -/
def definitions : List Definition :=
  g.parts.map fun x => definitionOf g.names x.1 x.2

/-- The tokens of these definitions. -/
def tokens : List Token :=
  g.parts.flatMap fun x => tokensOfDefinition g.names x.1 x.2

/-- A text for a grammar. -/
def source : Source :=
  writtenSource g.tokens

end Grammar

theorem writtenAs_definitionOf {names : List String}
    (hnames : ∀ name ∈ names, (Token.name name).writable = true) {name : Option String} {body : Expr}
    (hname : ∀ n ∈ name, n ∈ names) (hbody : body.WellFormed names.length) :
    (Node.definition (definitionOf names name body)).WrittenAs (tokensOfDefinition names name body) := by
  have hunnamed : (Node.definition (definitionOf names none body)).WrittenAs
      (tokensOfDefinition names none body) :=
    (body.writtenAs hnames hbody).alone.between rfl rfl .unnamed
  cases name with
  | none => exact hunnamed
  | some n =>
    refine hunnamed.behind (hnames n (hname n rfl)) fun h => ?_
    cases h with
    | unnamed hchoice => exact .named hchoice

theorem writtenAs_definitions {names : List String}
    (hnames : ∀ name ∈ names, (Token.name name).writable = true) {parts : List (Option String × Expr)}
    (h : ∀ x ∈ parts, (∀ n ∈ x.1, n ∈ names) ∧ x.2.WellFormed names.length) :
    (Node.grammar (parts.map fun x => definitionOf names x.1 x.2)).WrittenAs
      (parts.flatMap fun x => tokensOfDefinition names x.1 x.2) := by
  induction parts with
  | nil => exact ⟨rfl, fun _ => .grammar_nil⟩
  | cons x more ih =>
    have hfirst := h x List.mem_cons_self
    exact (writtenAs_definitionOf hnames hfirst.1 hfirst.2).append
      (ih fun y hy => h y (List.mem_cons_of_mem _ hy)) .grammar_cons

namespace Grammar

variable {g : Grammar}

theorem key_definitionOf (names : List String) (name : Option String) (body : Expr) :
    (definitionOf names name body).key = name := by
  cases name <;> rfl

theorem map_key_definitions : g.definitions.map Definition.key = g.parts.map Prod.fst := by
  rw [definitions, List.map_map]
  exact List.map_congr_left fun x _ => key_definitionOf _ _ _

theorem map_key_definitions_eq :
    g.definitions.map Definition.key = g.names.map some ++ g.skip.toList.map fun _ => none := by
  rw [map_key_definitions, parts, names, List.map_append, List.map_map, List.map_map, List.map_map]
  rfl

theorem names_definitions : g.definitions.filterMap Definition.key = g.names := by
  have hid : g.definitions.filterMap Definition.key = (g.definitions.map Definition.key).filterMap id := by
    rw [List.filterMap_map]
    rfl
  rw [hid, map_key_definitions_eq]
  cases g.skip <;> simp [List.filterMap_map]

/-- A grammar is what its definitions stand for. -/
theorem loweredFrom_definitions (hnodup : g.names.Nodup)
    (hbodies : ∀ e ∈ g.bodies, e.WellFormed g.size) :
    g.LoweredFrom g.definitions := by
  have hlowers : ∀ e ∈ g.bodies, ∀ name,
      LowersChoice g.names (definitionOf g.names name e).body e := by
    intro e he name
    exact .one (.one (e.lowers_phrase (g.length_names ▸ hbodies e he)))
  have hnamed : g.definitions.filter (·.name.isSome) =
      g.rules.map fun r => definitionOf g.names (some r.name) r.body := by
    rw [definitions, parts]
    cases g.skip <;> simp [definitionOf, List.filter_map, Function.comp_def]
  have hunnamed : g.definitions.find? (·.name.isNone) = g.skip.map (definitionOf g.names none) := by
    have hnone : (g.rules.map fun r => definitionOf g.names (some r.name) r.body).find?
        (·.name.isNone) = none :=
      List.find?_eq_none.mpr (by simp [definitionOf])
    rw [definitions, parts, List.map_append, List.map_map, List.find?_append]
    refine (congrArg (Option.or · _) hnone).trans ?_
    cases g.skip <;> rfl
  refine ⟨?_, ?_, ?_⟩
  · rw [map_key_definitions_eq]
    have hsome : (g.names.map some).Nodup := hnodup.map fun _ _ => Option.some.inj
    cases g.skip with
    | none => simpa using hsome
    | some e => exact hsome.append (List.nodup_singleton none) (by simp)
  · rw [names_definitions, hnamed, List.forall₂_map_left_iff, List.forall₂_same]
    exact fun r hr => ⟨rfl, hlowers r.body (List.mem_append_left _ (List.mem_map_of_mem hr)) _⟩
  · rw [names_definitions, hunnamed]
    cases hskip : g.skip with
    | none => exact .none
    | some e => exact .some (hlowers e (skip_mem_bodies hskip) none)

/-- Definitions of bodies of a well-formed grammar can be written, whichever and in whatever order. -/
theorem WellFormed.writtenAs (h : g.WellFormed) {parts : List (Option String × Expr)}
    (hparts : ∀ x ∈ parts, x ∈ g.parts) :
    (Node.grammar (parts.map fun x => definitionOf g.names x.1 x.2)).WrittenAs
      (parts.flatMap fun x => tokensOfDefinition g.names x.1 x.2) := by
  have hnames : ∀ name ∈ g.names, (Token.name name).writable = true :=
    fun name hname => Token.writable_name_iff.mpr (h.identifiers name hname)
  refine writtenAs_definitions hnames fun x hx => ?_
  rw [g.length_names]
  rcases List.mem_append.mp (hparts x hx) with hx | hx
  · obtain ⟨r, hr, rfl⟩ := List.mem_map.mp hx
    refine ⟨?_, h.bodies _ (List.mem_append_left _ (List.mem_map_of_mem hr))⟩
    rintro n ⟨rfl⟩
    exact List.mem_map_of_mem hr
  · obtain ⟨e, he, rfl⟩ := List.mem_map.mp hx
    exact ⟨by simp, h.bodies e (List.mem_append_right _ he)⟩

/-- The text for a well-formed grammar compiles to that grammar, but for the places of names. -/
theorem WellFormed.exists_compile_source (h : g.WellFormed) :
    ∃ g', compile g.source = .ok g' ∧ g'.unspanned = g.unspanned := by
  have hwritten : (Node.grammar g.definitions).WrittenAs g.tokens := h.writtenAs fun _ hx => hx
  exact exists_compile_of_loweredFrom (splits_writtenSource hwritten.writable) hwritten.whole
    (loweredFrom_definitions h.names h.bodies) h.acyclic

example : pairGrammar.source.text =
    "a = ( ( @ b 'x' ) | ( @ b 'y' ) ) ; b = 'b' ; = \x7b ' ' \x7d ; " := by
  decide +kernel

end Grammar

end PegTree
