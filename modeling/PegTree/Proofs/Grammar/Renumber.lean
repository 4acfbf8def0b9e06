import PegTree.Proofs.Grammar.Cycle
import PegTree.Proofs.Grammar.Mention

/-!
# Grammars with other numbers

The id of a rule is its place in the list of rules, so a grammar whose rules stand at other places
mentions them by other ids.  `g.RenumberedBy σ g'` says that `g'` has every rule of `g` at the place that
`σ` gives, with every mention moved along, and the same skip rule; it may have more rules.

Both see the same in a rule: whether it may match nothing (`RenumberedBy.knows_eq`) and where it leads
(`RenumberedBy.leads_iff`).  So no cycle comes up unless it leads through a rule that is new
(`RenumberedBy.not_cyclic`).
-/

namespace PegTree

/-! ## Expressions -/

mutual

/-- The expression with every mention of a rule moved. -/
def Expr.renumber (σ : RuleId → RuleId) : Expr → Expr
  | .empty => .empty
  | .literal text => .literal text
  | .range low high => .range low high
  | .endOfInput => .endOfInput
  | .rule id => .rule (σ id)
  | .capture id => .capture (σ id)
  | .sequence terms => .sequence (renumberTerms σ terms)
  | .choice alternatives => .choice (renumberAll σ alternatives)
  | .repetition body => .repetition (body.renumber σ)
  | .optional body => .optional (body.renumber σ)
  | .negation body => .negation (body.renumber σ)

/-- The elements with every mention of a rule moved. -/
def renumberTerms (σ : RuleId → RuleId) : List Term → List Term
  | [] => []
  | ⟨adjacent, e⟩ :: terms => ⟨adjacent, e.renumber σ⟩ :: renumberTerms σ terms

/-- The alternatives with every mention of a rule moved. -/
def renumberAll (σ : RuleId → RuleId) : List Expr → List Expr
  | [] => []
  | e :: alternatives => e.renumber σ :: renumberAll σ alternatives

end

section

variable {σ : RuleId → RuleId}

mutual

/-- Nothing happens to an expression of which no mention is moved. -/
theorem Expr.renumber_eq_self :
    ∀ e : Expr, (∀ x ∈ e.mentions, σ x.rule = x.rule) → e.renumber σ = e
  | .empty, _ | .literal _, _ | .range _ _, _ | .endOfInput, _ => rfl
  | .rule id, h => congrArg Expr.rule (h ⟨id, false⟩ List.mem_cons_self)
  | .capture id, h => congrArg Expr.capture (h ⟨id, true⟩ List.mem_cons_self)
  | .sequence terms, h => congrArg Expr.sequence (renumberTerms_eq_self terms h)
  | .choice alternatives, h => congrArg Expr.choice (renumberAll_eq_self alternatives h)
  | .repetition body, h => congrArg Expr.repetition (Expr.renumber_eq_self body h)
  | .optional body, h => congrArg Expr.optional (Expr.renumber_eq_self body h)
  | .negation body, h => congrArg Expr.negation (Expr.renumber_eq_self body h)

theorem renumberTerms_eq_self :
    ∀ terms : List Term, (∀ x ∈ mentionsOfTerms terms, σ x.rule = x.rule) →
      renumberTerms σ terms = terms
  | [], _ => rfl
  | ⟨adjacent, e⟩ :: terms, h => by
    rw [renumberTerms, Expr.renumber_eq_self e fun x hx => h x (List.mem_append_left _ hx),
      renumberTerms_eq_self terms fun x hx => h x (List.mem_append_right _ hx)]

theorem renumberAll_eq_self :
    ∀ alternatives : List Expr, (∀ x ∈ mentionsOfAll alternatives, σ x.rule = x.rule) →
      renumberAll σ alternatives = alternatives
  | [], _ => rfl
  | e :: alternatives, h => by
    rw [renumberAll, Expr.renumber_eq_self e fun x hx => h x (List.mem_append_left _ hx),
      renumberAll_eq_self alternatives fun x hx => h x (List.mem_append_right _ hx)]

end

/-! ## What is known of rules -/

section

variable {known known' : RuleId → Bool}

mutual

theorem Expr.nullable_renumber (hknown : ∀ id, known' (σ id) = known id) :
    ∀ e : Expr, (e.renumber σ).nullable known' = e.nullable known
  | .empty | .literal _ | .range _ _ | .endOfInput => rfl
  | .rule id | .capture id => hknown id
  | .sequence terms => allNullable_renumber hknown terms
  | .choice alternatives => anyNullable_renumber hknown alternatives
  | .repetition _ | .optional _ | .negation _ => rfl

theorem allNullable_renumber (hknown : ∀ id, known' (σ id) = known id) :
    ∀ terms : List Term, allNullable known' (renumberTerms σ terms) = allNullable known terms
  | [] => rfl
  | ⟨adjacent, e⟩ :: terms => by
    rw [renumberTerms, allNullable, allNullable, Expr.nullable_renumber hknown e,
      allNullable_renumber hknown terms]

theorem anyNullable_renumber (hknown : ∀ id, known' (σ id) = known id) :
    ∀ alternatives : List Expr,
      anyNullable known' (renumberAll σ alternatives) = anyNullable known alternatives
  | [] => rfl
  | e :: alternatives => by
    rw [renumberAll, anyNullable, anyNullable, Expr.nullable_renumber hknown e,
      anyNullable_renumber hknown alternatives]

end

mutual

theorem Expr.leadingCalls_renumber (hknown : ∀ id, known' (σ id) = known id) :
    ∀ e : Expr, (e.renumber σ).leadingCalls known' = (e.leadingCalls known).map σ
  | .empty | .literal _ | .range _ _ | .endOfInput | .rule _ | .capture _ => rfl
  | .sequence terms => leadingOfTerms_renumber hknown terms
  | .choice alternatives => leadingOfAlternatives_renumber hknown alternatives
  | .repetition body | .optional body | .negation body => Expr.leadingCalls_renumber hknown body

theorem leadingOfTerms_renumber (hknown : ∀ id, known' (σ id) = known id) :
    ∀ terms : List Term,
      leadingOfTerms known' (renumberTerms σ terms) = (leadingOfTerms known terms).map σ
  | [] => rfl
  | ⟨adjacent, e⟩ :: terms => by
    rw [renumberTerms, leadingOfTerms, leadingOfTerms, Expr.leadingCalls_renumber hknown e,
      Expr.nullable_renumber hknown e, leadingOfTerms_renumber hknown terms, List.map_append]
    split <;> rfl

theorem leadingOfAlternatives_renumber (hknown : ∀ id, known' (σ id) = known id) :
    ∀ alternatives : List Expr,
      leadingOfAlternatives known' (renumberAll σ alternatives) =
        (leadingOfAlternatives known alternatives).map σ
  | [] => rfl
  | e :: alternatives => by
    rw [renumberAll, leadingOfAlternatives, leadingOfAlternatives, Expr.leadingCalls_renumber hknown e,
      leadingOfAlternatives_renumber hknown alternatives, List.map_append]

end

end

end

/-! ## Grammars -/

namespace Grammar

/-- Every rule of `g` is in `g'` at the place that `σ` gives, and there is none where `g` has none. -/
structure RenumberedBy (g : Grammar) (σ : RuleId → RuleId) (g' : Grammar) : Prop where
  injective : Function.Injective σ
  rule : ∀ {id r}, g.rules[id]? = some r →
    ∃ span, g'.rules[σ id]? = some ⟨r.name, r.body.renumber σ, span⟩
  missing : ∀ {id}, g.rules[id]? = none → g'.rules[σ id]? = none
  skip : g'.skip = g.skip.map (Expr.renumber σ)

/-- Where names are written does not matter. -/
theorem RenumberedBy.congr {g g' g'' : Grammar} {σ : RuleId → RuleId} (h : g.RenumberedBy σ g')
    (hsame : g''.unspanned = g'.unspanned) : g.RenumberedBy σ g'' := by
  have hget : ∀ id : RuleId, g''.rules[id]?.map Rule.unspanned = g'.rules[id]?.map Rule.unspanned := by
    intro id
    rw [← getElem?_unspanned, hsame, getElem?_unspanned]
  have hskip : g''.unspanned.skip = g'.unspanned.skip := by rw [hsame]
  refine ⟨h.injective, ?_, ?_, hskip.trans h.skip⟩
  · intro id r hr
    obtain ⟨span, hr'⟩ := h.rule hr
    have hr'' := hget (σ id)
    rw [hr', Option.map_some, Option.map_eq_some_iff] at hr''
    obtain ⟨r'', hr'', heq⟩ := hr''
    cases r''
    cases heq
    exact ⟨_, hr''⟩
  · intro id hnone
    have hnone' := hget (σ id)
    rwa [h.missing hnone, Option.map_none, Option.map_eq_none_iff] at hnone'

/-- Every grammar has its own rules at their places. -/
theorem renumberedBy_id (g : Grammar) : g.RenumberedBy id g := by
  refine ⟨Function.injective_id, fun {id r} hr => ⟨r.nameSpan, ?_⟩, fun hr => hr, ?_⟩
  · rw [r.body.renumber_eq_self fun _ _ => rfl]
    exact hr
  · cases g.skip with
    | none => rfl
    | some body => rw [Option.map_some, body.renumber_eq_self fun _ _ => rfl]

/-- A rule is found by its name. -/
theorem ruleId?_eq_some_iff {g : Grammar} (hnames : (g.rules.map Rule.name).Nodup) {name : String}
    {id : RuleId} : g.ruleId? name = some id ↔ ∃ r, g.rules[id]? = some r ∧ r.name = name := by
  rw [ruleId?, List.findIdx?_eq_some_iff_getElem]
  constructor
  · rintro ⟨hlt, hname, -⟩
    exact ⟨_, List.getElem?_eq_getElem hlt, eq_of_beq hname⟩
  · rintro ⟨r, hr, rfl⟩
    obtain ⟨hlt, rfl⟩ := List.getElem?_eq_some_iff.mp hr
    refine ⟨hlt, beq_self_eq_true _, fun j hj hsame => ?_⟩
    -- an earlier rule has another name
    have hne := List.pairwise_iff_getElem.mp hnames j id (by simp; omega) (by simpa using hlt) hj
    simp only [List.getElem_map] at hne
    exact hne (eq_of_beq hsame)

/-- Every rule is found by the name that it has. -/
theorem ruleId?_name {g : Grammar} (hnames : (g.rules.map Rule.name).Nodup) {id : RuleId}
    (hid : id < g.size) : g.ruleId? (g.name id) = some id := by
  obtain ⟨r, hr⟩ := g.exists_rule hid
  have hname : g.name id = r.name := by rw [name, hr]; rfl
  exact (ruleId?_eq_some_iff hnames).mpr ⟨r, hr, hname.symm⟩

namespace RenumberedBy

variable {g g' : Grammar} {σ : RuleId → RuleId}

theorem name_eq (h : g.RenumberedBy σ g') (id : RuleId) : g'.name (σ id) = g.name id := by
  unfold name
  cases hr : g.rules[id]? with
  | none => rw [h.missing hr]
  | some r =>
    obtain ⟨span, hr'⟩ := h.rule hr
    rw [hr']
    rfl

/-- A rule that is at its new place was at its old one. -/
theorem exists_rule (h : g.RenumberedBy σ g') {id : RuleId} {r' : Rule}
    (hr' : g'.rules[σ id]? = some r') :
    ∃ r, g.rules[id]? = some r ∧ r'.name = r.name ∧ r'.body = r.body.renumber σ := by
  cases hr : g.rules[id]? with
  | none => simp [h.missing hr] at hr'
  | some r =>
    obtain ⟨span, hr''⟩ := h.rule hr
    cases hr'.symm.trans hr''
    exact ⟨r, rfl, rfl, rfl⟩

/-- A name that was found is found at its new place. -/
theorem ruleId?_eq (h : g.RenumberedBy σ g') (hsurj : Function.Surjective σ)
    (hnames : (g.rules.map Rule.name).Nodup) (hnames' : (g'.rules.map Rule.name).Nodup)
    (name : String) : g'.ruleId? name = (g.ruleId? name).map σ := by
  ext id'
  obtain ⟨id, rfl⟩ := hsurj id'
  have hiff : (g.ruleId? name).map σ = some (σ id) ↔ g.ruleId? name = some id := by
    simp [h.injective.eq_iff]
  rw [hiff, ruleId?_eq_some_iff hnames, ruleId?_eq_some_iff hnames']
  constructor
  · rintro ⟨r', hr', hname⟩
    obtain ⟨r, hr, hsame, -⟩ := h.exists_rule hr'
    exact ⟨r, hr, hsame.symm.trans hname⟩
  · rintro ⟨r, hr, hname⟩
    obtain ⟨span, hr'⟩ := h.rule hr
    exact ⟨_, hr', hname⟩

/-- What is known of the renumbered rules is closed for those of before. -/
theorem closed (h : g.RenumberedBy σ g') : g.Closed fun id => g'.nullableTable.knows (σ id) := by
  intro id r hr hbody
  obtain ⟨span, hr'⟩ := h.rule hr
  refine g'.nullableTable_closed _ _ hr' ?_
  exact (Expr.nullable_renumber (fun _ => rfl) r.body).trans hbody

open scoped Classical in
/-- What is known of the rules of before is closed for the renumbered ones; of a new rule everything may
be known. -/
theorem closed_image (h : g.RenumberedBy σ g') :
    g'.Closed fun id' => decide (∀ id, σ id = id' → g.nullableTable.knows id = true) := by
  have hknown : ∀ id, decide (∀ other, σ other = σ id → g.nullableTable.knows other = true) =
      g.nullableTable.knows id := by
    intro id
    simp [h.injective.eq_iff]
  intro id' r' hr' hbody
  rw [decide_eq_true_iff]
  rintro id rfl
  obtain ⟨r, hr, -, heq⟩ := h.exists_rule hr'
  rw [heq, Expr.nullable_renumber hknown] at hbody
  exact g.nullableTable_closed id r hr hbody

/-- The same rules may match nothing. -/
theorem knows_eq (h : g.RenumberedBy σ g') (id : RuleId) :
    g'.nullableTable.knows (σ id) = g.nullableTable.knows id := by
  -- each table says no more than any closed one
  have hsub : g'.MayBeEmpty (.rule (σ id)) → g.nullableTable.knows id = true := by
    classical
    intro hempty
    have hknown := hempty.nullable h.closed_image
    exact of_decide_eq_true hknown id rfl
  have hsup : g.MayBeEmpty (.rule id) → g'.nullableTable.knows (σ id) = true :=
    fun hempty => hempty.nullable h.closed
  rw [Bool.eq_iff_iff]
  exact ⟨fun hk => hsub (Expr.nullable_iff.mp hk), fun hk => hsup (Expr.nullable_iff.mp hk)⟩

/-- A rule leads to the new places of those that it led to. -/
theorem leads_iff (h : g.RenumberedBy σ g') {id next' : RuleId} :
    g'.Leads (σ id) next' ↔ ∃ next, next' = σ next ∧ g.Leads id next := by
  constructor
  · rintro ⟨r', hr', hleads⟩
    obtain ⟨r, hr, -, hbody⟩ := h.exists_rule hr'
    rw [hbody, ← Expr.mem_leadingCalls_iff, Expr.leadingCalls_renumber h.knows_eq] at hleads
    obtain ⟨next, hnext, rfl⟩ := List.mem_map.mp hleads
    exact ⟨next, rfl, r, hr, Expr.mem_leadingCalls_iff.mp hnext⟩
  · rintro ⟨next, rfl, r, hr, hleads⟩
    obtain ⟨span, hr'⟩ := h.rule hr
    refine ⟨_, hr', Expr.mem_leadingCalls_iff.mp ?_⟩
    rw [Expr.leadingCalls_renumber h.knows_eq]
    exact List.mem_map_of_mem (Expr.mem_leadingCalls_iff.mpr hleads)

/-- A walk from a rule of before goes where it went before. -/
theorem walk (h : g.RenumberedBy σ g') {id other : RuleId}
    (hwalk : Relation.TransGen g'.Leads (σ id) other) :
    ∃ next, other = σ next ∧ Relation.TransGen g.Leads id next := by
  induction hwalk with
  | single hstep =>
    obtain ⟨next, rfl, hnext⟩ := h.leads_iff.mp hstep
    exact ⟨next, rfl, .single hnext⟩
  | tail _ hstep ih =>
    obtain ⟨between, rfl, hbetween⟩ := ih
    obtain ⟨next, rfl, hnext⟩ := h.leads_iff.mp hstep
    exact ⟨next, rfl, hbetween.tail hnext⟩

/-- Where every leading call is one of a rule of before, no cycle comes up. -/
theorem not_cyclic (h : g.RenumberedBy σ g')
    (hold : ∀ {id next'}, g'.Leads id next' → ∃ next, next' = σ next) (hno : ¬ g.Cyclic) :
    ¬ g'.Cyclic := by
  rintro ⟨id', hwalk⟩
  -- a rule on a cycle is called by the one in front of it
  obtain ⟨before, -, hlast⟩ := Relation.TransGen.tail'_iff.mp hwalk
  obtain ⟨id, rfl⟩ := hold hlast
  obtain ⟨next, hsame, hwalk⟩ := h.walk hwalk
  exact hno ⟨id, by rwa [← h.injective hsame] at hwalk⟩

end RenumberedBy

/-! ## One rule more -/

/-- The grammar with another rule at the end. -/
def snoc (g : Grammar) (r : Rule) : Grammar :=
  { g with rules := g.rules ++ [r] }

/-- Leaves a place free behind the first `n`. -/
def gap (n : Nat) (id : RuleId) : RuleId :=
  if id < n then id else id + 1

theorem gap_of_lt {n : Nat} {id : RuleId} (h : id < n) : gap n id = id :=
  if_pos h

theorem gap_injective (n : Nat) : Function.Injective (gap n) := by
  intro (i : Nat) (j : Nat) (h : (if i < n then i else i + 1) = if j < n then j else j + 1)
  show (i : Nat) = j
  split at h <;> split at h <;> omega

variable {g : Grammar}

/-- A grammar that has the rules of `g` at the same places, and none behind the place next to them. -/
theorem renumberedBy_gap {g' : Grammar} (hg : g.Resolved)
    (hrules : ∀ id < g.size, g'.rules[id]? = g.rules[id]?)
    (hmissing : ∀ id, g.size ≤ id → g'.rules[id + 1]? = none) (hskip : g'.skip = g.skip) :
    g.RenumberedBy (gap g.size) g' := by
  have hstays : ∀ e ∈ g.bodies, e.renumber (gap g.size) = e := fun e he =>
    e.renumber_eq_self fun x hx => gap_of_lt (hg e he x hx)
  refine ⟨gap_injective _, fun {id r} hr => ?_, fun {id} hr => ?_, ?_⟩
  · have hid : id < g.size := (List.getElem?_eq_some_iff.mp hr).1
    rw [gap_of_lt hid, hrules id hid, hr, hstays _ (body_mem_bodies hr)]
    exact ⟨r.nameSpan, rfl⟩
  · have hid : g.size ≤ id := List.getElem?_eq_none_iff.mp hr
    rw [gap, if_neg (Nat.not_lt.mpr hid)]
    exact hmissing id hid
  · rw [hskip]
    cases hbody : g.skip with
    | none => rfl
    | some e => rw [Option.map_some, hstays e (skip_mem_bodies hbody)]

theorem renumberedBy_self (hg : g.Resolved) : g.RenumberedBy (gap g.size) g :=
  renumberedBy_gap hg (fun _ _ => rfl)
    (fun _ hid => List.getElem?_eq_none_iff.mpr (Nat.le_succ_of_le hid)) rfl

theorem renumberedBy_snoc (hg : g.Resolved) (r : Rule) : g.RenumberedBy (gap g.size) (g.snoc r) := by
  refine renumberedBy_gap hg (fun id hid => List.getElem?_append_left hid) (fun id hid => ?_) rfl
  rw [List.getElem?_eq_none_iff, snoc, List.length_append, List.length_singleton]
  exact Nat.succ_le_succ hid

/-- A rule that only calls rules of before makes no cycle. -/
theorem not_cyclic_snoc (hg : g.Resolved) {r : Rule} (hr : r.body.Within g.size) (hno : ¬ g.Cyclic) :
    ¬ (g.snoc r).Cyclic := by
  refine (renumberedBy_snoc hg r).not_cyclic (fun {id next'} hleads => ?_) hno
  obtain ⟨r', hr', hnext⟩ := hleads
  have hwithin : r'.body.Within g.size := by
    rcases List.mem_append.mp (List.mem_of_getElem? hr') with hin | hin
    · exact hg _ (List.mem_append_left _ (List.mem_map_of_mem hin))
    · rwa [List.mem_singleton.mp hin]
  exact ⟨next', (gap_of_lt (hwithin.leading _ next' (Expr.mem_leadingCalls_iff.mpr hnext))).symm⟩

end Grammar

end PegTree
