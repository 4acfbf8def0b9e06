import PegTree.Notation.Resolve
import PegTree.Proofs.Except
import PegTree.Proofs.Notation.Derivation

/-!
# Resolving is lowering

Provided that no name is defined twice, a phrase is resolved to an expression exactly if it stands for
that expression (`Phrase.resolve_eq_ok_iff`), so a body stands for at most one (`LowersChoice.unique`).  Whether
and to what it is resolved does not depend on any spans (`Phrase.resolve_unspanned`); only the fault does
if it is not.
-/

namespace PegTree

/-! ## Characters -/

theorem scalar?_eq_some_iff {n : Nat} {x : Char} : scalar? n = some x ↔ x.toNat = n := by
  constructor
  · intro h
    unfold scalar? at h
    split at h
    · next hvalid =>
      cases h
      rw [Char.ofNat, dif_pos hvalid]
      rfl
    · cases h
  · rintro rfl
    have hvalid : x.toNat.isValidChar := x.valid
    rw [scalar?, if_pos hvalid, Char.ofNat_toNat]

theorem WrittenCharacter.text_eq_ok_iff {c : WrittenCharacter} {text : List Char} :
    c.text = .ok text ↔ c.form.StandsFor text := by
  obtain ⟨form, span⟩ := c
  cases form with
  | quoted body =>
    constructor
    · rintro ⟨⟩
      exact .quoted
    · rintro ⟨⟩
      rfl
  | code digits =>
    simp only [WrittenCharacter.text]
    constructor
    · intro h
      split at h
      · next x hx =>
        cases h
        exact .code (scalar?_eq_some_iff.mp hx)
      · cases h
    · rintro (_ | hx)
      rw [scalar?_eq_some_iff.mpr hx]

theorem WrittenCharacter.bound_eq_ok_iff {c : WrittenCharacter} {x : Char} :
    c.bound = .ok x ↔ c.form.StandsFor [x] := by
  rw [← text_eq_ok_iff, WrittenCharacter.bound, bind_eq_ok_iff]
  constructor
  · rintro ⟨text, htext, h⟩
    split at h
    · cases h
      exact htext
    · cases h
  · intro htext
    exact ⟨[x], htext, rfl⟩

theorem le_highestChar (x : Char) : x ≤ highestChar := by
  have hvalid : x.toNat.isValidChar := x.valid
  rw [Char.le_def, UInt32.le_iff_toNat_le]
  show x.toNat ≤ 0x10FFFF
  unfold Nat.isValidChar at hvalid
  omega

/-- A name is resolved to the place where it stands among the names. -/
theorem lookupName_eq_ok_iff {names : List String} (hnames : names.Nodup) {name : WrittenName}
    {id : RuleId} : lookupName names name = .ok id ↔ names[id]? = some name.text := by
  constructor
  · intro h
    unfold lookupName at h
    split at h
    · next i hi =>
      cases h
      obtain ⟨hlt, hname, -⟩ := List.findIdx?_eq_some_iff_getElem.mp hi
      rw [List.getElem?_eq_getElem hlt, eq_of_beq hname]
    · cases h
  · intro h
    obtain ⟨hlt, hname⟩ := List.getElem?_eq_some_iff.mp h
    have hfirst : names.findIdx? (· == name.text) = some id := by
      refine List.findIdx?_eq_some_iff_getElem.mpr ⟨hlt, by simp [hname], fun j hj => ?_⟩
      -- an earlier place has another name
      intro hsame
      have hnames' := List.pairwise_iff_getElem.mp hnames j id (by omega) hlt hj
      exact hnames' (by rw [hname]; exact eq_of_beq hsame)
    rw [lookupName, hfirst]

/-! ## Expressions -/

section

variable {names : List String}

theorem rangeExpr_eq_ok_iff {low : WrittenCharacter} {high : Option WrittenCharacter} {span : Span}
    {e : Expr} : rangeExpr low high span = .ok e ↔ Lowers names (.range low high span) e := by
  obtain ⟨low, lowSpan⟩ := low
  simp only [rangeExpr, bind_eq_ok_iff, WrittenCharacter.bound_eq_ok_iff]
  constructor
  · rintro ⟨a, ha, b, hb, h⟩
    split at h
    · next hle =>
      cases h
      cases high with
      | none =>
        cases hb
        exact .range_open ha
      | some high => exact .range ha (WrittenCharacter.bound_eq_ok_iff.mp hb) hle
    · cases h
  · intro h
    cases h with
    | range ha hb hle =>
      exact ⟨_, ha, _, WrittenCharacter.bound_eq_ok_iff.mpr hb, if_pos hle⟩
    | range_open ha => exact ⟨_, ha, highestChar, rfl, if_pos (le_highestChar _)⟩

theorem literal_eq_ok_iff {character : WrittenCharacter} {e : Expr} :
    literalExpr <$> character.text = .ok e ↔ Lowers names (.literal character) e := by
  simp only [map_eq_ok_iff, WrittenCharacter.text_eq_ok_iff]
  constructor
  · rintro ⟨text, htext, rfl⟩
    cases text with
    | nil => exact .nothing htext
    | cons x xs => exact .literal htext (List.cons_ne_nil x xs)
  · intro h
    cases h with
    | nothing htext => exact ⟨[], htext, rfl⟩
    | @literal form span text htext hne =>
      refine ⟨text, htext, ?_⟩
      unfold literalExpr
      split
      · exact absurd rfl hne
      · rfl

/-- A sequence stands for what its elements stand for. -/
theorem lowersSequence_iff {es : List Element} {e : Expr} :
    LowersSequence names es e ↔ ∃ terms, LowersTerms names es terms ∧ sequenceExpr terms = e := by
  constructor
  · intro h
    cases h with
    | one hp => exact ⟨_, .cons hp .nil, rfl⟩
    | many hne hterms =>
      refine ⟨_, hterms, ?_⟩
      -- a single term without a mark would come from a single element without one
      unfold sequenceExpr
      split
      · cases hterms with
        | cons _ hmore =>
          cases hmore
          exact absurd rfl (hne _)
      · rfl
  · rintro ⟨terms, hterms, rfl⟩
    unfold sequenceExpr
    split
    · next e =>
      cases hterms with
      | cons hp hmore =>
        cases hmore
        exact .one hp
    · next hne =>
      refine .many ?_ hterms
      rintro p rfl
      cases hterms with
      | cons hp hmore =>
        cases hmore
        exact hne _ rfl

/-- A choice stands for what its alternatives stand for. -/
theorem lowersChoice_iff {as : Alternatives} {e : Expr} :
    LowersChoice names as e ↔ ∃ es, LowersAll names as es ∧ choiceExpr es = e := by
  constructor
  · intro h
    cases h with
    | one hes => exact ⟨_, .cons hes .nil, rfl⟩
    | many hne hall =>
      refine ⟨_, hall, ?_⟩
      unfold choiceExpr
      split
      · cases hall with
        | cons _ hmore =>
          cases hmore
          exact absurd rfl hne
      · rfl
  · rintro ⟨es, hall, rfl⟩
    unfold choiceExpr
    split
    · cases hall with
      | cons hes hmore =>
        cases hmore
        exact .one hes
    · next hne =>
      refine .many ?_ hall
      intro hone
      obtain ⟨es, rfl⟩ := List.length_eq_one_iff.mp hone
      cases hall with
      | cons hes hmore =>
        cases hmore
        exact hne _ rfl

end

/-! ## Phrases -/

section

variable {names : List String}

/-- What alternatives are resolved to, once this is known of each of them. -/
theorem choice_eq_ok_iff {as : Alternatives} {e : Expr}
    (h : ∀ es, resolveAlternatives names as = .ok es ↔ LowersAll names as es) :
    choiceExpr <$> resolveAlternatives names as = .ok e ↔ LowersChoice names as e := by
  rw [map_eq_ok_iff, lowersChoice_iff]
  exact exists_congr fun es => and_congr_left' (h es)

mutual

/-- A phrase is resolved to what it stands for. -/
theorem Phrase.resolve_eq_ok_iff (hnames : names.Nodup) :
    ∀ (p : Phrase) (e : Expr), p.resolve names = .ok e ↔ Lowers names p e
  | .negation operand, e => by
    rw [Phrase.resolve, map_eq_ok_iff]
    constructor
    · rintro ⟨e, he, rfl⟩
      exact .negation ((Phrase.resolve_eq_ok_iff hnames operand e).mp he)
    · rintro (⟨he⟩)
      exact ⟨_, (Phrase.resolve_eq_ok_iff hnames operand _).mpr he, rfl⟩
  | .capture name, e => by
    rw [Phrase.resolve, map_eq_ok_iff]
    constructor
    · rintro ⟨id, hid, rfl⟩
      exact .capture ((lookupName_eq_ok_iff hnames).mp hid)
    · intro h
      cases h with
      | capture hid => exact ⟨_, (lookupName_eq_ok_iff hnames).mpr hid, rfl⟩
  | .range low high span, e => by
    rw [Phrase.resolve]
    exact rangeExpr_eq_ok_iff
  | .group alternatives, e => by
    have hall := resolveAlternatives_eq_ok_iff hnames alternatives
    rw [Phrase.resolve, choice_eq_ok_iff hall]
    constructor
    · exact .group
    · intro h
      cases h with
      | group he => exact he
  | .repetition alternatives, e => by
    have hall := resolveAlternatives_eq_ok_iff hnames alternatives
    rw [Phrase.resolve, comp_map, map_eq_ok_iff]
    simp only [choice_eq_ok_iff hall]
    constructor
    · rintro ⟨body, hbody, rfl⟩
      exact .repetition hbody
    · intro h
      cases h with
      | repetition hbody => exact ⟨_, hbody, rfl⟩
  | .optional alternatives, e => by
    have hall := resolveAlternatives_eq_ok_iff hnames alternatives
    rw [Phrase.resolve, comp_map, map_eq_ok_iff]
    simp only [choice_eq_ok_iff hall]
    constructor
    · rintro ⟨body, hbody, rfl⟩
      exact .optional hbody
    · intro h
      cases h with
      | optional hbody => exact ⟨_, hbody, rfl⟩
  | .finish, e => by
    constructor
    · rintro ⟨⟩
      exact .finish
    · rintro ⟨⟩
      rfl
  | .literal character, e => by
    rw [Phrase.resolve]
    exact literal_eq_ok_iff
  | .reference name, e => by
    rw [Phrase.resolve, map_eq_ok_iff]
    constructor
    · rintro ⟨id, hid, rfl⟩
      exact .reference ((lookupName_eq_ok_iff hnames).mp hid)
    · intro h
      cases h with
      | reference hid => exact ⟨_, (lookupName_eq_ok_iff hnames).mpr hid, rfl⟩

theorem resolveElements_eq_ok_iff (hnames : names.Nodup) :
    ∀ (es : List Element) (terms : List Term),
      resolveElements names es = .ok terms ↔ LowersTerms names es terms
  | [], terms => by
    constructor
    · rintro ⟨⟩
      exact .nil
    · rintro ⟨⟩
      rfl
  | ⟨adjacent, p⟩ :: more, terms => by
    simp only [resolveElements, bind_eq_ok_iff, Phrase.resolve_eq_ok_iff hnames p,
      resolveElements_eq_ok_iff hnames more]
    constructor
    · rintro ⟨e, he, others, hothers, ⟨⟩⟩
      exact .cons he hothers
    · intro h
      cases h with
      | cons he hothers => exact ⟨_, he, _, hothers, rfl⟩

theorem resolveAlternatives_eq_ok_iff (hnames : names.Nodup) :
    ∀ (as : List (List Element)) (es : List Expr),
      resolveAlternatives names as = .ok es ↔ LowersAll names as es
  | [], es => by
    constructor
    · rintro ⟨⟩
      exact .nil
    · rintro ⟨⟩
      rfl
  | elements :: more, es => by
    simp only [resolveAlternatives, bind_eq_ok_iff, resolveElements_eq_ok_iff hnames elements,
      resolveAlternatives_eq_ok_iff hnames more]
    constructor
    · rintro ⟨terms, hterms, others, hothers, ⟨⟩⟩
      exact .cons (lowersSequence_iff.mpr ⟨terms, hterms, rfl⟩) hothers
    · intro h
      cases h with
      | cons hes hothers =>
        obtain ⟨terms, hterms, rfl⟩ := lowersSequence_iff.mp hes
        exact ⟨terms, hterms, _, hothers, rfl⟩

end

theorem Definition.resolve_eq_ok_iff (hnames : names.Nodup) {d : Definition} {e : Expr} :
    d.resolve names = .ok e ↔ LowersChoice names d.body e :=
  choice_eq_ok_iff (resolveAlternatives_eq_ok_iff hnames d.body)

/-- A body stands for one expression at most. -/
theorem LowersChoice.unique (hnames : names.Nodup) {as : Alternatives} {e e' : Expr}
    (h : LowersChoice names as e) (h' : LowersChoice names as e') : e = e' := by
  have hiff := fun e => choice_eq_ok_iff (e := e) (resolveAlternatives_eq_ok_iff hnames as)
  exact Except.ok.inj (((hiff e).mpr h).symm.trans ((hiff e').mpr h'))

end

/-! ## Spans -/

section

variable {names : List String}

theorem WrittenCharacter.text_unspanned (c : WrittenCharacter) :
    c.unspanned.text.toOption = c.text.toOption := by
  obtain ⟨form, span⟩ := c
  cases form with
  | quoted body => rfl
  | code digits =>
    simp only [WrittenCharacter.unspanned, WrittenCharacter.text]
    split <;> rfl

theorem WrittenCharacter.bound_unspanned (c : WrittenCharacter) :
    c.unspanned.bound.toOption = c.bound.toOption := by
  rw [WrittenCharacter.bound, WrittenCharacter.bound, toOption_bind, toOption_bind, text_unspanned]
  congr 1
  funext text
  split <;> rfl

theorem lookupName_unspanned (name : WrittenName) :
    (lookupName names name.unspanned).toOption = (lookupName names name).toOption := by
  simp only [lookupName, WrittenName.unspanned]
  split <;> rfl

theorem rangeExpr_unspanned (low : WrittenCharacter) (high : Option WrittenCharacter) (span : Span) :
    (rangeExpr low.unspanned (high.map (·.unspanned)) ⟨0, 0⟩).toOption =
      (rangeExpr low high span).toOption := by
  have hhigh : (upperBound (high.map (·.unspanned))).toOption = (upperBound high).toOption := by
    cases high with
    | none => rfl
    | some high => exact high.bound_unspanned
  simp only [rangeExpr, toOption_bind, low.bound_unspanned, hhigh]
  congr 1
  funext a
  congr 1
  funext b
  split <;> rfl

mutual

/-- To what a phrase is resolved does not depend on spans. -/
theorem Phrase.resolve_unspanned :
    ∀ p : Phrase, (p.unspanned.resolve names).toOption = (p.resolve names).toOption
  | .negation operand => by
    simp only [Phrase.unspanned, Phrase.resolve, toOption_map, operand.resolve_unspanned]
  | .capture name => by
    simp only [Phrase.unspanned, Phrase.resolve, toOption_map, lookupName_unspanned]
  | .range low high span => rangeExpr_unspanned low high span
  | .group alternatives => by
    simp only [Phrase.unspanned, Phrase.resolve, toOption_map, resolveAlternatives_unspanned alternatives]
  | .repetition alternatives => by
    simp only [Phrase.unspanned, Phrase.resolve, toOption_map, resolveAlternatives_unspanned alternatives]
  | .optional alternatives => by
    simp only [Phrase.unspanned, Phrase.resolve, toOption_map, resolveAlternatives_unspanned alternatives]
  | .finish => rfl
  | .literal character => by
    simp only [Phrase.unspanned, Phrase.resolve, toOption_map, character.text_unspanned]
  | .reference name => by
    simp only [Phrase.unspanned, Phrase.resolve, toOption_map, lookupName_unspanned]

theorem resolveElements_unspanned :
    ∀ es : List Element,
      (resolveElements names (unspannedElements es)).toOption = (resolveElements names es).toOption
  | [] => rfl
  | ⟨adjacent, p⟩ :: more => by
    simp only [unspannedElements, resolveElements, toOption_bind, p.resolve_unspanned,
      resolveElements_unspanned more]

theorem resolveAlternatives_unspanned :
    ∀ as : List (List Element),
      (resolveAlternatives names (unspannedAlternatives as)).toOption =
        (resolveAlternatives names as).toOption
  | [] => rfl
  | elements :: more => by
    simp only [unspannedAlternatives, resolveAlternatives, toOption_bind,
      resolveElements_unspanned elements, resolveAlternatives_unspanned more]

end

theorem Definition.resolve_unspanned (d : Definition) :
    (d.unspanned.resolve names).toOption = (d.resolve names).toOption := by
  simp only [Definition.resolve, Definition.unspanned, toOption_map, resolveAlternatives_unspanned]

theorem Definition.key_unspanned (d : Definition) : d.unspanned.key = d.key := by
  cases h : d.name <;> simp [Definition.key, Definition.unspanned, h, WrittenName.unspanned]

end

/-! ## Faults -/

/-- If there is a fault, then not that the notation is not followed. -/
def Readable {α : Type} (x : Except GrammarFault α) : Prop :=
  ∀ attempts, x ≠ .error (.unreadable attempts)

section

variable {α β : Type} {names : List String}

theorem readable_ok (a : α) : Readable (.ok a) := by
  intro attempts h
  cases h

theorem Readable.map {x : Except GrammarFault α} (h : Readable x) (f : α → β) :
    Readable (f <$> x) := by
  cases x with
  | ok a => exact readable_ok (f a)
  | error fault =>
    intro attempts heq
    cases heq
    exact h attempts rfl

theorem Readable.bind {x : Except GrammarFault α} {f : α → Except GrammarFault β} (h : Readable x)
    (hf : ∀ a, Readable (f a)) : Readable (x >>= f) := by
  cases x with
  | ok a => exact hf a
  | error fault =>
    intro attempts heq
    cases heq
    exact h attempts rfl

theorem WrittenCharacter.readable_text (c : WrittenCharacter) : Readable c.text := by
  intro attempts h
  unfold WrittenCharacter.text at h
  split at h
  · cases h
  · split at h <;> cases h

theorem WrittenCharacter.readable_bound (c : WrittenCharacter) : Readable c.bound := by
  apply c.readable_text.bind
  intro text attempts h
  split at h <;> cases h

theorem readable_lookupName (name : WrittenName) : Readable (lookupName names name) := by
  intro attempts h
  unfold lookupName at h
  split at h <;> cases h

theorem readable_rangeExpr (low : WrittenCharacter) (high : Option WrittenCharacter) (span : Span) :
    Readable (rangeExpr low high span) := by
  have hhigh : Readable (upperBound high) := by
    cases high with
    | none => exact readable_ok highestChar
    | some high => exact high.readable_bound
  apply low.readable_bound.bind
  intro a
  apply hhigh.bind
  intro b attempts h
  split at h <;> cases h

mutual

theorem Phrase.readable_resolve : ∀ p : Phrase, Readable (p.resolve names)
  | .negation operand => operand.readable_resolve.map _
  | .capture name => (readable_lookupName name).map _
  | .range low high span => readable_rangeExpr low high span
  | .group alternatives => (readable_resolveAlternatives alternatives).map _
  | .repetition alternatives => (readable_resolveAlternatives alternatives).map _
  | .optional alternatives => (readable_resolveAlternatives alternatives).map _
  | .finish => readable_ok _
  | .literal character => character.readable_text.map _
  | .reference name => (readable_lookupName name).map _

theorem readable_resolveElements : ∀ es : List Element, Readable (resolveElements names es)
  | [] => readable_ok _
  | ⟨_, p⟩ :: more =>
    p.readable_resolve.bind fun _ => (readable_resolveElements more).bind fun _ => readable_ok _

theorem readable_resolveAlternatives :
    ∀ as : List (List Element), Readable (resolveAlternatives names as)
  | [] => readable_ok _
  | elements :: more =>
    (readable_resolveElements elements).bind fun _ =>
      (readable_resolveAlternatives more).bind fun _ => readable_ok _

end

theorem Definition.readable_resolve (d : Definition) : Readable (d.resolve names) :=
  (readable_resolveAlternatives d.body).map _

theorem readable_resolveAll (ds : List Definition) : Readable (resolveAll names ds) := by
  induction ds with
  | nil => exact readable_ok []
  | cons d more ih => exact d.readable_resolve.bind fun _ => ih.bind fun _ => readable_ok _

end

end PegTree
