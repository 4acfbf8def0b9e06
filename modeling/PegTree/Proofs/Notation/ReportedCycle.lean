import PegTree.Proofs.Notation.Image

/-!
# Reported cycles

The search for left recursion is exact (`leftRecursion_reports_cycle`): the rules of a text are refused
exactly if some rule leads back to itself, and the report names the rules of a cycle one after the other,
no more and no less.  The search knows rules by their numbers and the report by their names.  Names of
rules are different, so that the one says as much as the other, and there is no blank in a name, so that
the names can be read off the report again.
-/

namespace PegTree

/-! ## Reports -/

/-- What stands between the arrows of a text. -/
def splitAtArrows : List Char → List (List Char)
  | ' ' :: '-' :: '>' :: ' ' :: cs => [] :: splitAtArrows cs
  | c :: cs => (splitAtArrows cs).modifyHead (c :: ·)
  | [] => [[]]

/-- The names in the report of a cycle. -/
def namesInReport (report : String) : List String :=
  (splitAtArrows report.toList).map String.ofList

/-- An arrow begins with a blank, so none begins in a name. -/
theorem splitAtArrows_append {cs : List Char} (h : ' ' ∉ cs) (rest : List Char) :
    splitAtArrows (cs ++ rest) = (splitAtArrows rest).modifyHead (cs ++ ·) := by
  induction cs with
  | nil => exact (congrFun List.modifyHead_id _).symm
  | cons c cs ih =>
    obtain ⟨hc, hcs⟩ := not_or.mp (mt List.mem_cons.mpr h)
    have hstep : splitAtArrows (c :: (cs ++ rest)) = (splitAtArrows (cs ++ rest)).modifyHead (c :: ·) := by
      rw [splitAtArrows]
      rintro cs' rfl
      exact absurd rfl hc
    rw [List.cons_append, hstep, ih hcs, List.modifyHead_modifyHead]
    rfl

/-- The names of a cycle can be read off its report. -/
theorem namesInReport_reportedCycle {names : List String} (hne : names ≠ [])
    (h : ∀ name ∈ names, ' ' ∉ name.toList) :
    namesInReport (GrammarFault.reportedCycle names) = names := by
  have hparts : splitAtArrows (GrammarFault.reportedCycle names).toList = names.map String.toList := by
    rw [GrammarFault.reportedCycle]
    induction names with
    | nil => exact absurd rfl hne
    | cons name more ih =>
      obtain ⟨hname, hmore⟩ := List.forall_mem_cons.mp h
      cases more with
      | nil => simpa [splitAtArrows] using splitAtArrows_append hname []
      | cons next more =>
        have hrest := ih (List.cons_ne_nil _ _) hmore
        rw [String.intercalate_cons_cons, String.toList_append, String.toList_append, List.append_assoc,
          splitAtArrows_append hname]
        show List.modifyHead _ ([] :: splitAtArrows (" -> ".intercalate (next :: more)).toList) = _
        rw [hrest]
        simp
  rw [namesInReport, hparts, List.map_map]
  simp

theorem Identifier.not_mem_blank {name : String} (h : Identifier name) : ' ' ∉ name.toList := by
  intro hin
  exact absurd (h.le_toNat hin) (by decide)

/-! ## Cycles of names -/

namespace Grammar

variable {g : Grammar}

/-- A rule of the first name may call one of the second where it starts. -/
def NameLeads (g : Grammar) (name next : String) : Prop :=
  ∃ i j, g.ruleId? name = some i ∧ g.ruleId? next = some j ∧ g.Leads i j

/-- The names of the rules on a way from a rule back to it, to which the first rule that leads into any
cycle leads. -/
structure NamesCycle (g : Grammar) (name : String) (names : List String) : Prop where
  two_le_length : 2 ≤ names.length
  head : names.head? = some name
  last : names.getLast? = some name
  rules : ∀ n ∈ names, n ∈ g.rules.map Rule.name
  distinct : names.dropLast.Nodup
  steps : names.IsChain g.NameLeads
  reached : ∃ first id, g.LeadsIntoCycle first ∧ (∀ earlier < first, ¬ g.LeadsIntoCycle earlier) ∧
    g.ruleId? name = some id ∧ Relation.ReflTransGen g.Leads first id

theorem Leads.lt_size {id next : RuleId} (h : g.Leads id next) : id < g.size := by
  obtain ⟨r, hr, -⟩ := h
  exact (List.getElem?_eq_some_iff.mp hr).1

theorem Leads.next_lt_size (hg : g.Resolved) {id next : RuleId} (h : g.Leads id next) :
    next < g.size :=
  lt_of_leadingCalls hg h.lt_size (mem_leadingCalls_iff.mpr h)

theorem Leads.nameLeads (hg : g.Resolved) (hnames : (g.rules.map Rule.name).Nodup) {id next : RuleId}
    (h : g.Leads id next) : g.NameLeads (g.name id) (g.name next) :=
  ⟨id, next, ruleId?_name hnames h.lt_size, ruleId?_name hnames (h.next_lt_size hg), h⟩

theorem name_mem_names {id : RuleId} (hid : id < g.size) : g.name id ∈ g.rules.map Rule.name := by
  obtain ⟨r, hr⟩ := g.exists_rule hid
  refine List.mem_map.mpr ⟨r, List.mem_of_getElem? hr, ?_⟩
  rw [name, hr]
  rfl

/-- Where names are different the cycle that is found is one of names. -/
theorem namesCycle_of_firstCycle? (hg : g.Resolved) (hnames : (g.rules.map Rule.name).Nodup)
    {cycle : List RuleId} (h : g.firstCycle? = some cycle) :
    ∃ name, g.NamesCycle name (cycle.map g.name) := by
  obtain ⟨first, x, hwalk, hreach, hfirst⟩ := exists_first_of_firstCycle? hg h
  have hback := hwalk.transGen
  have hsteps := hwalk.steps
  rw [leads_eq] at hback hsteps
  obtain ⟨between, hcycle⟩ := hwalk.closed
  -- all rules of the cycle are there, so their names are different
  have hx : x < g.size := by
    obtain ⟨next, hnext, -⟩ := Relation.TransGen.head'_iff.mp hback
    exact hnext.lt_size
  have hbelow : ∀ id ∈ cycle, id < g.size := by
    refine List.IsChain.induction _ _ hsteps (fun _ _ hstep _ => hstep.next_lt_size hg) ?_
    intro hne
    simpa [hcycle] using hx
  have hinj : ∀ a ∈ cycle.dropLast, ∀ b ∈ cycle.dropLast, g.name a = g.name b → a = b := by
    intro a ha b hb hname
    have ha' := ruleId?_name hnames (hbelow a (List.dropLast_subset _ ha))
    have hb' := ruleId?_name hnames (hbelow b (List.dropLast_subset _ hb))
    exact Option.some.inj (ha'.symm.trans (hname ▸ hb'))
  refine ⟨g.name x, ⟨?_, ?_, ?_, ?_, ?_, ?_, first, x, ?_, hfirst, ruleId?_name hnames hx, hreach⟩⟩
  · simp [hcycle]
  · simp [hcycle]
  · rw [List.getLast?_map, hcycle, ← List.cons_append, List.getLast?_concat]
    rfl
  · intro n hn
    obtain ⟨id, hid, rfl⟩ := List.mem_map.mp hn
    exact name_mem_names (hbelow id hid)
  · rw [← List.map_dropLast]
    exact hwalk.distinct.map_on hinj
  · exact (List.isChain_map _).mpr (hsteps.imp fun _ _ hstep => hstep.nameLeads hg hnames)
  · exact ⟨x, hreach, hback⟩

/-- The check for left recursion fails exactly if there is a cycle. -/
theorem checkLeftRecursion_fails_iff (hg : g.Resolved) :
    (∃ fault, g.checkLeftRecursion = .error fault) ↔ g.Cyclic := by
  rw [← firstCycle?_isSome_iff hg, checkLeftRecursion]
  cases g.firstCycle? <;> simp

end Grammar

open Grammar in
/-- Rules in which nothing else is wrong are refused exactly if there is a cycle of leading calls, and then
with a cycle of such calls: the names in the report are those of its rules, the one that the report is
about comes first and again at the end, and no other twice. -/
theorem leftRecursion_reports_cycle {text : List Char} {ds : List Definition}
    {resolved : List (Definition × Expr)} (hread : read text = .ok ds)
    (hdistinct : checkDistinct ds = .ok ())
    (hresolved : resolveAll (ds.filterMap Definition.key) ds = .ok resolved) :
    let g := ofResolved resolved
    (∀ id next, g.Leads id next ↔ next ∈ g.leadingCalls g.nullableTable id) ∧
      ((∃ fault, g.checkLeftRecursion = .error fault) ↔ ∃ id, Relation.TransGen g.Leads id id) ∧
      ∀ fault, g.checkLeftRecursion = .error fault → ∃ name names span,
        fault = .leftRecursion names span ∧
        (∀ source, (fault.diagnostic source).message =
          "rule `" ++ name ++ "` is left-recursive: " ++ GrammarFault.reportedCycle names) ∧
        namesInReport (GrammarFault.reportedCycle names) = names ∧ g.NamesCycle name names := by
  intro g
  have hkeys := checkDistinct_eq_ok_iff.mp hdistinct
  have hlowered : g.LoweredFrom ds := loweredFrom_of_resolveAll hkeys hresolved
  have hg : g.Resolved := resolved_of_resolveAll hresolved
  have hidentifiers := hlowered.identifiers (standsWell_of_read hread [])
  refine ⟨fun id next => mem_leadingCalls_iff.symm, checkLeftRecursion_fails_iff hg, ?_⟩
  intro fault hfault
  obtain ⟨cycle, span, hcycle, rfl⟩ := checkLeftRecursion_eq_error hfault
  obtain ⟨name, hnames⟩ := namesCycle_of_firstCycle? hg hlowered.nodup_rules hcycle
  refine ⟨name, _, span, rfl, fun source => ?_, namesInReport_reportedCycle ?_ ?_, hnames⟩
  · have hhead : (cycle.map g.name).headD "" = name := by
      rw [List.headD_eq_head?_getD, hnames.head, Option.getD_some]
    rw [← hhead]
    rfl
  · rintro hnil
    simpa [hnil] using hnames.head
  · exact fun n hn => (hidentifiers n (hnames.rules n hn)).not_mem_blank

/-- Three rules, of which the first leads into a cycle of the other two. -/
def stemText : List Char :=
  "a = b; b = ['x'] c; c = b 'y' | 'z';".toList

open Grammar in
theorem leftRecursion_reports_cycle_stem :
    ∃ g : Grammar, g.checkLeftRecursion = .error (.leftRecursion ["b", "c", "b"] ⟨7, 8⟩) ∧
      g.NamesCycle "b" ["b", "c", "b"] := by
  have hchecked : (do
      let ds ← read stemText
      checkDistinct ds
      let resolved ← resolveAll (ds.filterMap Definition.key) ds
      .ok (ofResolved resolved).checkLeftRecursion) =
        Except.ok (Except.error (.leftRecursion ["b", "c", "b"] ⟨7, 8⟩)) := by
    decide +kernel
  simp only [bind_eq_ok_iff] at hchecked
  obtain ⟨ds, hread, ⟨⟩, hdistinct, resolved, hresolved, hleft⟩ := hchecked
  replace hleft := Except.ok.inj hleft
  obtain ⟨-, -, hreport⟩ := leftRecursion_reports_cycle hread hdistinct hresolved
  obtain ⟨name, names, span, hfault, -, -, hcycle⟩ := hreport _ hleft
  cases hfault
  obtain rfl : "b" = name := Option.some.inj hcycle.head
  exact ⟨_, hleft, hcycle⟩

end PegTree
