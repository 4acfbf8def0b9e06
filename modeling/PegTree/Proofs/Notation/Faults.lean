import PegTree.Proofs.Notation.Places

/-!
# Faults of bodies

What can be wrong in a body is wrong at one of its sites: a name that nothing has, a code that is no
character's, a bound of a range that is not one character, or bounds in the wrong order
(`Site.Offends`).  Definitions are resolved unless there is such an offence, and if there is, the one
that is reported stands in front of all others in the text (`resolveAll_eq_error_iff`).
-/

namespace PegTree

/-! ## Offences -/

/-- Why characters cannot bound a range. -/
inductive CharacterForm.Misfits : CharacterForm → CharacterFault → Prop
  | notScalar {digits : List Char} :
      (∀ x : Char, x.toNat ≠ hexNumber digits) → Misfits (.code digits) .notScalar
  | notSingle {body : List Char} : body.length ≠ 1 → Misfits (.quoted body) .notSingle

/-- What is wrong at a site, and the range of the text where it is wrong. -/
inductive Site.Offends (names : List String) : Site → GrammarFault → Span → Prop
  | undefined {n : WrittenName} :
      n.text ∉ names → Offends names (.name n) (.undefinedRule n.text n.span) n.span
  | notScalar {digits : List Char} {span : Span} :
      (∀ x : Char, x.toNat ≠ hexNumber digits) →
      Offends names (.character ⟨.code digits, span⟩) (.invalidCharacter .notScalar span) span
  | low {low : WrittenCharacter} {high : Option WrittenCharacter} {span : Span}
      {fault : CharacterFault} :
      low.form.Misfits fault →
      Offends names (.range low high span) (.invalidCharacter fault low.span) low.span
  | high {low high : WrittenCharacter} {span : Span} {fault : CharacterFault} :
      high.form.Misfits fault →
      Offends names (.range low (some high) span) (.invalidCharacter fault high.span) high.span
  | reversed {low high : WrittenCharacter} {span : Span} {a b : Char} :
      low.form.StandsFor [a] → high.form.StandsFor [b] → b < a →
      Offends names (.range low (some high) span) (.invalidCharacter .reversed span) span

/-- A fault at one of the sites, in front of everything else that is wrong at any of them. -/
def LeftmostOffence (names : List String) (sites : List Site) (fault : GrammarFault) : Prop :=
  ∃ s ∈ sites, ∃ place, s.Offends names fault place ∧
    ∀ t ∈ sites, ∀ fault' place', t.Offends names fault' place' →
      fault' = fault ∨ place.stop ≤ place'.start

/-! ## Characters and names -/

theorem scalar?_eq_none_iff {n : Nat} : scalar? n = none ↔ ∀ x : Char, x.toNat ≠ n := by
  rw [Option.eq_none_iff_forall_ne_some]
  exact forall_congr' fun x => not_congr scalar?_eq_some_iff

theorem WrittenCharacter.text_eq_error_iff {c : WrittenCharacter} {fault : GrammarFault} :
    c.text = .error fault ↔
      ∃ digits, c.form = .code digits ∧ (∀ x : Char, x.toNat ≠ hexNumber digits) ∧
        fault = .invalidCharacter .notScalar c.span := by
  obtain ⟨form, span⟩ := c
  cases form with
  | quoted body => simp [WrittenCharacter.text]
  | code digits =>
    simp only [WrittenCharacter.text, CharacterForm.code.injEq, exists_eq_left',
      ← scalar?_eq_none_iff]
    cases scalar? (hexNumber digits) <;> simp [eq_comm]

/-- Written characters stand for one text at most. -/
theorem CharacterForm.StandsFor.unique {form : CharacterForm} {text text' : List Char}
    (h : form.StandsFor text) (h' : form.StandsFor text') : text = text' := by
  have htext : ∀ {t}, form.StandsFor t → WrittenCharacter.text ⟨form, ⟨0, 0⟩⟩ = .ok t :=
    fun ht => WrittenCharacter.text_eq_ok_iff.mpr ht
  exact Except.ok.inj ((htext h).symm.trans (htext h'))

/-- What does not bound a range does not stand for one character. -/
theorem CharacterForm.Misfits.not_standsFor {form : CharacterForm} {misfit : CharacterFault}
    (h : form.Misfits misfit) (x : Char) : ¬ form.StandsFor [x] := by
  intro hx
  cases h with
  | notScalar hno =>
    obtain _ | hcode := hx
    exact hno x hcode
  | notSingle hne =>
    cases hx
    exact hne rfl

theorem CharacterForm.Misfits.unique {form : CharacterForm} {misfit misfit' : CharacterFault}
    (h : form.Misfits misfit) (h' : form.Misfits misfit') : misfit = misfit' := by
  cases h <;> cases h' <;> rfl

theorem WrittenCharacter.bound_eq_error_iff {c : WrittenCharacter} {fault : GrammarFault} :
    c.bound = .error fault ↔
      ∃ misfit, c.form.Misfits misfit ∧ fault = .invalidCharacter misfit c.span := by
  obtain ⟨form, span⟩ := c
  cases form with
  | quoted body =>
    by_cases hone : body.length = 1
    · obtain ⟨x, rfl⟩ := List.length_eq_one_iff.mp hone
      constructor
      · rintro ⟨⟩
      · rintro ⟨_, hmisfit, -⟩
        exact absurd .quoted (hmisfit.not_standsFor x)
    · have hbound : bound ⟨.quoted body, span⟩ = .error (.invalidCharacter .notSingle span) := by
        simp only [WrittenCharacter.bound, WrittenCharacter.text, bind, Except.bind]
        split
        · exact absurd rfl hone
        · rfl
      rw [hbound]
      constructor
      · rintro ⟨⟩
        exact ⟨_, .notSingle hone, rfl⟩
      · rintro ⟨_, ⟨⟩, rfl⟩
        rfl
  | code digits =>
    cases hx : scalar? (hexNumber digits) with
    | some x =>
      have hcode := scalar?_eq_some_iff.mp hx
      rw [bound_eq_ok_iff.mpr (.code hcode)]
      constructor
      · rintro ⟨⟩
      · rintro ⟨_, hmisfit, -⟩
        exact absurd (.code hcode) (hmisfit.not_standsFor x)
    | none =>
      have hbound : bound ⟨.code digits, span⟩ = .error (.invalidCharacter .notScalar span) := by
        simp only [WrittenCharacter.bound, WrittenCharacter.text, hx]
        rfl
      rw [hbound]
      constructor
      · rintro ⟨⟩
        exact ⟨_, .notScalar (scalar?_eq_none_iff.mp hx), rfl⟩
      · rintro ⟨_, ⟨⟩, rfl⟩
        rfl

theorem lookupName_eq_error_iff {names : List String} {n : WrittenName} {fault : GrammarFault} :
    lookupName names n = .error fault ↔
      n.text ∉ names ∧ fault = .undefinedRule n.text n.span := by
  unfold lookupName
  cases hfind : names.findIdx? (· == n.text) with
  | some id =>
    obtain ⟨hlt, hname, -⟩ := List.findIdx?_eq_some_iff_getElem.mp hfind
    have hmem : n.text ∈ names := by
      rw [← eq_of_beq hname]
      exact List.getElem_mem hlt
    simp [hmem]
  | none =>
    have hno : n.text ∉ names := by
      intro hmem
      have hne := List.findIdx?_eq_none_iff.mp hfind n.text hmem
      simp at hne
    simp only [Except.error.injEq, hno, not_false_eq_true, true_and]
    exact eq_comm

/-! ## Sites -/

/-- The fault that is reported for a site. -/
def Site.fault? (names : List String) : Site → Option GrammarFault
  | .name n => PegTree.fault? (lookupName names n)
  | .character c => PegTree.fault? c.text
  | .range low high span => PegTree.fault? (rangeExpr low high span)

section

variable {names : List String}

/-- Ranges are looked at from left to right: the lower bound, the upper one, then their order. -/
theorem rangeExpr_eq_error_iff {low : WrittenCharacter} {high : Option WrittenCharacter} {span : Span}
    {fault : GrammarFault} :
    rangeExpr low high span = .error fault ↔
      (∃ misfit, low.form.Misfits misfit ∧ fault = .invalidCharacter misfit low.span) ∨
      ∃ a w, low.form.StandsFor [a] ∧ high = some w ∧
        ((∃ misfit, w.form.Misfits misfit ∧ fault = .invalidCharacter misfit w.span) ∨
          ∃ b, w.form.StandsFor [b] ∧ b < a ∧ fault = .invalidCharacter .reversed span) := by
  simp only [← WrittenCharacter.bound_eq_error_iff, ← WrittenCharacter.bound_eq_ok_iff, rangeExpr]
  cases hlow : low.bound with
  | error fault' => simp [bind, Except.bind]
  | ok a =>
    cases high with
    | none => simp [bind, Except.bind, upperBound, le_highestChar]
    | some w =>
      cases hhigh : w.bound with
      | error fault' => simp [bind, Except.bind, upperBound, hhigh]
      | ok b =>
        by_cases hle : a ≤ b
        · simp [bind, Except.bind, upperBound, hhigh, hle, Char.not_lt.mpr hle]
        · simp [bind, Except.bind, upperBound, hhigh, hle, Char.not_le.mp hle, eq_comm]

/-- What is wrong at a site that stands in the text has a place inside it. -/
theorem Site.Offends.place {s : Site} {fault : GrammarFault} {place : Span} {c d : Cursor}
    (h : s.Offends names fault place) (hs : s.Stands c d) :
    c.offset ≤ place.start ∧ place.start < place.stop ∧ place.stop ≤ d.offset := by
  cases h with
  | undefined =>
    obtain ⟨ht⟩ := hs
    rw [ht.span_eq]
    exact ⟨Nat.le_refl _, ht.offset_lt, Nat.le_refl _⟩
  | notScalar =>
    obtain _ | ⟨ht⟩ := hs
    obtain rfl := ht.span_eq
    exact ⟨Nat.le_refl _, ht.offset_lt, Nat.le_refl _⟩
  | low =>
    cases hs with
    | range hlow hbetween hhigh =>
      rw [hlow.span_eq]
      exact ⟨Nat.le_refl _, hlow.offset_lt, (hbetween.trans hhigh.reaches).offset_le⟩
    | range_open hlow hbehind =>
      rw [hlow.span_eq]
      exact ⟨Nat.le_refl _, hlow.offset_lt, hbehind.offset_le⟩
  | high =>
    cases hs with
    | range hlow hbetween hhigh =>
      rw [hhigh.span_eq]
      exact ⟨(hlow.reaches.trans hbetween).offset_le, hhigh.offset_lt, Nat.le_refl _⟩
  | reversed =>
    cases hs with
    | range hlow hbetween hhigh =>
      have hbehind := (hbetween.trans hhigh.reaches).offset_le
      exact ⟨Nat.le_refl _, Nat.lt_of_lt_of_le hlow.offset_lt hbehind, Nat.le_refl _⟩

/-- What is reported for a site is wrong there, and stands in front of what else is. -/
theorem Site.first_offence {s : Site} {fault : GrammarFault} {c d : Cursor} (hs : s.Stands c d)
    (h : s.fault? names = some fault) :
    ∃ place, s.Offends names fault place ∧ ∀ fault' place', s.Offends names fault' place' →
      fault' = fault ∨ place.stop ≤ place'.start := by
  cases hs with
  | name =>
    obtain ⟨hno, rfl⟩ := lookupName_eq_error_iff.mp (fault?_eq_some_iff.mp h)
    refine ⟨_, .undefined hno, fun fault' place' h' => .inl ?_⟩
    cases h'
    rfl
  | @character _ w ht =>
    obtain ⟨form, span⟩ := w
    obtain ⟨digits, rfl, hno, rfl⟩ :=
      WrittenCharacter.text_eq_error_iff.mp (fault?_eq_some_iff.mp h)
    refine ⟨_, .notScalar hno, fun fault' place' h' => .inl ?_⟩
    cases h'
    rfl
  | range hlow hbetween hhigh =>
    rcases rangeExpr_eq_error_iff.mp (fault?_eq_some_iff.mp h) with
      ⟨misfit, hmisfit, rfl⟩ | ⟨x, w, hx, hw, ⟨misfit, hmisfit, rfl⟩ | ⟨y, hy, hlt, rfl⟩⟩
    · refine ⟨_, .low hmisfit, fun fault' place' h' => ?_⟩
      cases h' with
      | low hmisfit' => exact .inl (by rw [hmisfit'.unique hmisfit])
      | high =>
        refine .inr ?_
        rw [hlow.span_eq, hhigh.span_eq]
        exact hbetween.offset_le
      | reversed hx => exact absurd hx (hmisfit.not_standsFor _)
    · cases hw
      refine ⟨_, .high hmisfit, fun fault' place' h' => .inl ?_⟩
      cases h' with
      | low hmisfit' => exact absurd hx (hmisfit'.not_standsFor _)
      | high hmisfit' => rw [hmisfit'.unique hmisfit]
      | reversed _ hy => exact absurd hy (hmisfit.not_standsFor _)
    · cases hw
      refine ⟨_, .reversed hx hy hlt, fun fault' place' h' => .inl ?_⟩
      cases h' with
      | low hmisfit => exact absurd hx (hmisfit.not_standsFor _)
      | high hmisfit => exact absurd hy (hmisfit.not_standsFor _)
      | reversed => rfl
  | range_open =>
    rcases rangeExpr_eq_error_iff.mp (fault?_eq_some_iff.mp h) with
      ⟨misfit, hmisfit, rfl⟩ | ⟨x, w, hx, hw, -⟩
    · refine ⟨_, .low hmisfit, fun fault' place' h' => .inl ?_⟩
      cases h' with
      | low hmisfit' => rw [hmisfit'.unique hmisfit]
    · cases hw

/-- Nothing is reported for a site only if nothing is wrong there. -/
theorem Site.Offends.fault?_ne_none {s : Site} {fault : GrammarFault} {place : Span}
    (h : s.Offends names fault place) : s.fault? names ≠ none := by
  intro hnone
  cases s with
  | name n =>
    obtain ⟨id, hid⟩ := fault?_eq_none_iff.mp hnone
    cases h with
    | undefined hno => cases (lookupName_eq_error_iff.mpr ⟨hno, rfl⟩).symm.trans hid
  | character c =>
    obtain ⟨text, htext⟩ := fault?_eq_none_iff.mp hnone
    cases h with
    | notScalar hno =>
      obtain _ | hcode := WrittenCharacter.text_eq_ok_iff.mp htext
      exact hno _ hcode
  | range low high span =>
    obtain ⟨e, he⟩ := fault?_eq_none_iff.mp hnone
    have hlowers : Lowers names (.range low high span) e := rangeExpr_eq_ok_iff.mp he
    cases h with
    | low hmisfit =>
      obtain _ | _ | ⟨hx, -, -⟩ | ⟨hx⟩ := hlowers
      · exact hmisfit.not_standsFor _ hx
      · exact hmisfit.not_standsFor _ hx
    | high hmisfit =>
      obtain _ | _ | ⟨-, hy, -⟩ := hlowers
      exact hmisfit.not_standsFor _ hy
    | reversed hx hy hlt =>
      obtain _ | _ | ⟨hx', hy', hle⟩ := hlowers
      cases hx.unique hx'
      cases hy.unique hy'
      exact Char.not_lt.mpr hle hlt

/-! ## Rows of sites -/

variable {sites : List Site} {fault : GrammarFault} {c d : Cursor}

/-- What is wrong in a row is wrong somewhere behind its beginning. -/
theorem Row.place_of_offends (h : Row Site.Stands c sites d) {s : Site} (hs : s ∈ sites) {place : Span}
    (hoffends : s.Offends names fault place) :
    c.offset ≤ place.start ∧ place.start < place.stop := by
  obtain ⟨a, b, hreach, hstands⟩ := h.exists_stands Site.Stands.reaches hs
  obtain ⟨hstart, hlt, -⟩ := hoffends.place hstands
  exact ⟨Nat.le_trans hreach.offset_le hstart, hlt⟩

/-- The first fault that is reported for a site of a row stands in front of all others. -/
theorem leftmostOffence_of_findSome? (h : Row Site.Stands c sites d)
    (hfirst : sites.findSome? (Site.fault? names) = some fault) :
    LeftmostOffence names sites fault := by
  induction h with
  | nil => cases hfirst
  | @cons _ _ _ _ s more _ hs hmore ih =>
    cases hfault : s.fault? names with
    | some fault' =>
      rw [List.findSome?_cons, hfault] at hfirst
      cases hfirst
      obtain ⟨place, hoffends, hothers⟩ := s.first_offence hs hfault
      refine ⟨s, List.mem_cons_self, place, hoffends, fun t ht fault' place' ht' => ?_⟩
      rcases List.mem_cons.mp ht with rfl | ht
      · exact hothers fault' place' ht'
      · -- it ends with the site, and the others begin behind the site
        have hstop := (hoffends.place hs).2.2
        have hstart := (hmore.place_of_offends ht ht').1
        exact .inr (Nat.le_trans hstop hstart)
    | none =>
      rw [List.findSome?_cons, hfault] at hfirst
      obtain ⟨s', hs', place, hoffends, hothers⟩ := ih hfirst
      refine ⟨s', List.mem_cons_of_mem _ hs', place, hoffends, fun t ht fault' place' ht' => ?_⟩
      rcases List.mem_cons.mp ht with rfl | ht
      · exact absurd hfault ht'.fault?_ne_none
      · exact hothers t ht fault' place' ht'

/-- Only one fault stands in front of all others. -/
theorem LeftmostOffence.unique (h : Row Site.Stands c sites d) {fault' : GrammarFault}
    (hleft : LeftmostOffence names sites fault) (hleft' : LeftmostOffence names sites fault') :
    fault = fault' := by
  obtain ⟨s, hs, place, hoffends, hothers⟩ := hleft
  obtain ⟨s', hs', place', hoffends', hothers'⟩ := hleft'
  rcases hothers s' hs' fault' place' hoffends' with heq | hle
  · exact heq.symm
  rcases hothers' s hs fault place hoffends with heq | hle'
  · exact heq
  have hlt := (h.place_of_offends hs hoffends).2
  have hlt' := (h.place_of_offends hs' hoffends').2
  omega

theorem findSome?_fault?_eq_none_iff (h : Row Site.Stands c sites d) :
    sites.findSome? (Site.fault? names) = none ↔
      ∀ s ∈ sites, ∀ fault place, ¬ s.Offends names fault place := by
  rw [List.findSome?_eq_none_iff]
  constructor
  · intro hnone s hs fault place hoffends
    exact hoffends.fault?_ne_none (hnone s hs)
  · intro hno s hs
    obtain ⟨a, b, -, hstands⟩ := h.exists_stands Site.Stands.reaches hs
    rw [Option.eq_none_iff_forall_ne_some]
    intro fault hfault
    obtain ⟨place, hoffends, -⟩ := s.first_offence hstands hfault
    exact hno s hs fault place hoffends

theorem findSome?_fault?_eq_some_iff (h : Row Site.Stands c sites d) :
    sites.findSome? (Site.fault? names) = some fault ↔ LeftmostOffence names sites fault := by
  constructor
  · exact leftmostOffence_of_findSome? h
  · intro hleft
    cases hfirst : sites.findSome? (Site.fault? names) with
    | none =>
      obtain ⟨s, hs, place, hoffends, -⟩ := hleft
      exact absurd hoffends ((findSome?_fault?_eq_none_iff h).mp hfirst s hs fault place)
    | some fault' => rw [(leftmostOffence_of_findSome? h hfirst).unique h hleft]

/-! ## Resolving -/

mutual

/-- The fault for which a phrase is not resolved is the first one of its sites. -/
theorem Phrase.fault?_resolve :
    ∀ p : Phrase, fault? (p.resolve names) = p.sites.findSome? (Site.fault? names)
  | .negation operand => by
    rw [Phrase.resolve, fault?_map, Phrase.fault?_resolve operand, Phrase.sites]
  | .capture name => by
    rw [Phrase.resolve, fault?_map, Phrase.sites, List.findSome?_singleton, Site.fault?]
  | .range low high span => by
    rw [Phrase.resolve, Phrase.sites, List.findSome?_singleton, Site.fault?]
  | .group alternatives => by
    rw [Phrase.resolve, fault?_map, fault?_resolveAlternatives alternatives, Phrase.sites]
  | .repetition alternatives => by
    rw [Phrase.resolve, fault?_map, fault?_resolveAlternatives alternatives, Phrase.sites]
  | .optional alternatives => by
    rw [Phrase.resolve, fault?_map, fault?_resolveAlternatives alternatives, Phrase.sites]
  | .finish => rfl
  | .literal character => by
    rw [Phrase.resolve, fault?_map, Phrase.sites, List.findSome?_singleton, Site.fault?]
  | .reference name => by
    rw [Phrase.resolve, fault?_map, Phrase.sites, List.findSome?_singleton, Site.fault?]

theorem fault?_resolveElements :
    ∀ es : List Element,
      fault? (resolveElements names es) = (sitesOfElements es).findSome? (Site.fault? names)
  | [] => rfl
  | ⟨adjacent, p⟩ :: more => by
    rw [resolveElements, fault?_both, sitesOfElements, List.findSome?_append,
      Phrase.fault?_resolve p, fault?_resolveElements more]

theorem fault?_resolveAlternatives :
    ∀ as : List (List Element),
      fault? (resolveAlternatives names as) = (sitesOfAlternatives as).findSome? (Site.fault? names)
  | [] => rfl
  | elements :: more => by
    rw [resolveAlternatives, fault?_both, sitesOfAlternatives, List.findSome?_append,
      fault?_resolveElements elements, fault?_resolveAlternatives more]

end

theorem fault?_resolveAll (ds : List Definition) :
    fault? (resolveAll names ds) = (ds.flatMap Definition.sites).findSome? (Site.fault? names) := by
  induction ds with
  | nil => rfl
  | cons d more ih =>
    rw [resolveAll, fault?_both, List.flatMap_cons, List.findSome?_append, ih, Definition.resolve,
      fault?_map, fault?_resolveAlternatives, Definition.sites]

variable {ds : List Definition}

/-- Of several faults in definitions that stand in a text the leftmost one is reported. -/
theorem resolveAll_eq_error_iff (h : Row Definition.Stands c ds d) :
    resolveAll names ds = .error fault ↔
      LeftmostOffence names (ds.flatMap Definition.sites) fault := by
  rw [← fault?_eq_some_iff, fault?_resolveAll, findSome?_fault?_eq_some_iff (row_sites h)]

/-- Definitions are resolved if nothing is wrong at any of their sites. -/
theorem exists_resolveAll_iff (h : Row Definition.Stands c ds d) :
    (∃ resolved, resolveAll names ds = .ok resolved) ↔
      ∀ s ∈ ds.flatMap Definition.sites, ∀ fault place, ¬ s.Offends names fault place := by
  rw [← fault?_eq_none_iff, fault?_resolveAll, findSome?_fault?_eq_none_iff (row_sites h)]

end

end PegTree
