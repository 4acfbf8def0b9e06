import PegTree.Proofs.Except
import PegTree.Proofs.Grammar.Mention
import PegTree.Grammar.Compile

/-!
# Ranks of rules

Where the search for a cycle of leading calls finds none, it has settled all rules in an order in which
the leading calls of a rule come before the rule.  The place of a rule in that order is its rank:
below the number of rules, and lower for everything that the rule may call where it starts
(`Grammar.exists_ranked`).

The search carries a path and a list of settled rules.  Its bound is never used up: the rules of the
path are different, so there are never more of them than rules.
-/

namespace PegTree

/-! ## Settled rules -/

/-- Rules in the order in which they were settled, the last one in front: all different, and what a rule
calls was settled before it. -/
def Settled (calls : RuleId → List RuleId) : List RuleId → Prop
  | [] => True
  | id :: done => id ∉ done ∧ (∀ next ∈ calls id, next ∈ done) ∧ Settled calls done

/-- How many rules were settled before a rule. -/
def rankIn (done : List RuleId) (id : RuleId) : Nat :=
  match done with
  | [] => 0
  | x :: done => if x = id then done.length else rankIn done id

namespace Settled

variable {calls : RuleId → List RuleId} {done : List RuleId}

theorem nodup (h : Settled calls done) : done.Nodup := by
  induction done with
  | nil => exact .nil
  | cons id done ih => exact List.nodup_cons.mpr ⟨h.1, ih h.2.2⟩

theorem rankIn_lt {id : RuleId} (h : id ∈ done) : rankIn done id < done.length := by
  induction done with
  | nil => cases h
  | cons x done ih =>
    simp only [rankIn, List.length_cons]
    split
    · omega
    · next hne =>
      have := ih ((List.mem_cons.mp h).resolve_left (Ne.symm hne))
      omega

theorem next_mem (h : Settled calls done) {id next : RuleId} (hid : id ∈ done)
    (hnext : next ∈ calls id) : next ∈ done := by
  induction done with
  | nil => cases hid
  | cons x done ih =>
    obtain ⟨-, hcalls, hdone⟩ := h
    rcases List.mem_cons.mp hid with rfl | hid
    · exact List.mem_cons_of_mem _ (hcalls next hnext)
    · exact List.mem_cons_of_mem _ (ih hdone hid)

/-- What a settled rule calls has a lower rank. -/
theorem rankIn_next (h : Settled calls done) {id next : RuleId} (hid : id ∈ done)
    (hnext : next ∈ calls id) : rankIn done next < rankIn done id := by
  induction done with
  | nil => cases hid
  | cons x done ih =>
    obtain ⟨hx, hcalls, hdone⟩ := h
    by_cases hxid : x = id
    · -- the rule settled last: its calls are further down
      subst hxid
      have hmem := hcalls next hnext
      have hne : x ≠ next := fun he => hx (he ▸ hmem)
      simpa [rankIn, hne] using rankIn_lt hmem
    · have hmem := (List.mem_cons.mp hid).resolve_left (Ne.symm hxid)
      have hne : x ≠ next := fun he => hx (he ▸ next_mem hdone hmem hnext)
      simpa [rankIn, hxid, hne] using ih hdone hmem

end Settled

/-! ## The search -/

/-- What the search makes of the settled rules when it meets no cycle: more settled rules, none of them
from the path. -/
structure Settles (calls : RuleId → List RuleId) (n : Nat) (path done done' : List RuleId) :
    Prop where
  settled : Settled calls done'
  below : ∀ x ∈ done', x < n
  kept : ∀ x ∈ done, x ∈ done'
  path : ∀ x ∈ path, x ∈ done' → x ∈ done

section

variable {calls : RuleId → List RuleId} {n : Nat} {path done done' : List RuleId}

/-- Searching from several rules in turn. -/
theorem foldlM_settles {search : List RuleId → RuleId → Except (List RuleId) (List RuleId)}
    {nexts : List RuleId} (hnexts : ∀ next ∈ nexts, next < n)
    (hsearch : ∀ {done done' next}, next < n → Settled calls done → (∀ x ∈ done, x < n) →
      search done next = .ok done' → Settles calls n path done done' ∧ next ∈ done')
    (hdone : Settled calls done) (hbelow : ∀ x ∈ done, x < n)
    (h : nexts.foldlM search done = .ok done') :
    Settles calls n path done done' ∧ ∀ next ∈ nexts, next ∈ done' := by
  induction nexts generalizing done with
  | nil =>
    cases h
    exact ⟨⟨hdone, hbelow, fun _ hx => hx, fun _ _ hx => hx⟩, by simp⟩
  | cons next nexts ih =>
    obtain ⟨between, hfirst, hrest⟩ := bind_eq_ok_iff.mp h
    obtain ⟨hgrown, hnext⟩ := hsearch (hnexts next List.mem_cons_self) hdone hbelow hfirst
    obtain ⟨hmore, hall⟩ := ih (fun x hx => hnexts x (List.mem_cons_of_mem _ hx))
      hgrown.settled hgrown.below hrest
    refine ⟨⟨hmore.settled, hmore.below, fun x hx => hmore.kept x (hgrown.kept x hx),
      fun x hx hin => hgrown.path x hx (hmore.path x hx hin)⟩, ?_⟩
    simpa using ⟨hmore.kept next hnext, hall⟩

/-- A search that meets no cycle settles the rule that it starts from. -/
theorem searchCycle_settles (hcalls : ∀ id < n, ∀ next ∈ calls id, next < n) (bound : Nat)
    {path done done' : List RuleId} {id : RuleId} (hpath : path.Nodup) (hlt : ∀ x ∈ path, x < n)
    (hbound : n < path.length + bound) (hid : id < n) (hdone : Settled calls done)
    (hbelow : ∀ x ∈ done, x < n) (h : searchCycle calls bound path done id = .ok done') :
    Settles calls n path done done' ∧ id ∈ done' := by
  induction bound generalizing path done done' id with
  | zero =>
    -- more rules on the path than there are
    have hlen : path.length ≤ (List.range n).length :=
      hpath.length_le_of_subset fun x hx => List.mem_range.mpr (hlt x hx)
    simp only [List.length_range] at hlen
    omega
  | succ bound ih =>
    rw [searchCycle] at h
    split at h
    · next hin =>
      cases h
      exact ⟨⟨hdone, hbelow, fun _ hx => hx, fun _ _ hx => hx⟩, by simpa using hin⟩
    · next hout =>
      split at h
      · cases h
      · next hfresh =>
        simp only [List.contains_eq_mem, decide_eq_true_eq] at hout hfresh
        split at h
        · next between hfold =>
          -- all leading calls are settled and the rule is not, as it was on their path
          cases h
          have hpath' : (id :: path).Nodup := List.nodup_cons.mpr ⟨hfresh, hpath⟩
          have hlt' : ∀ x ∈ id :: path, x < n := by simpa using ⟨hid, hlt⟩
          obtain ⟨hgrown, hall⟩ := foldlM_settles (hcalls id hid)
            (fun hnext hd hb hs =>
              ih hpath' hlt' (by simp only [List.length_cons]; omega) hnext hd hb hs)
            hdone hbelow hfold
          have hnot : id ∉ between := fun hin => hout (hgrown.path id List.mem_cons_self hin)
          refine ⟨⟨⟨hnot, hall, hgrown.settled⟩, by simpa using ⟨hid, hgrown.below⟩,
            fun x hx => List.mem_cons_of_mem _ (hgrown.kept x hx), fun x hx hin => ?_⟩,
            List.mem_cons_self⟩
          have hne : x ≠ id := fun he => hfresh (he ▸ hx)
          exact hgrown.path x (List.mem_cons_of_mem _ hx) ((List.mem_cons.mp hin).resolve_left hne)
        · cases h

end

/-! ## Leading calls -/

mutual

/-- A rule that may be called where an expression starts is mentioned in it. -/
theorem Expr.mem_mentions_of_leadingCalls {known : RuleId → Bool} {id : RuleId} :
    ∀ e : Expr, id ∈ e.leadingCalls known → ∃ captured, ⟨id, captured⟩ ∈ e.mentions
  | .empty, h | .literal _, h | .range _ _, h | .endOfInput, h => by
    simp [Expr.leadingCalls] at h
  | .rule _, h => ⟨false, by simpa [Expr.leadingCalls, Expr.mentions] using h⟩
  | .capture _, h => ⟨true, by simpa [Expr.leadingCalls, Expr.mentions] using h⟩
  | .sequence terms, h => mem_mentionsOfTerms terms h
  | .choice alternatives, h => mem_mentionsOfAll alternatives h
  | .repetition body, h => Expr.mem_mentions_of_leadingCalls body h
  | .optional body, h => Expr.mem_mentions_of_leadingCalls body h
  | .negation body, h => Expr.mem_mentions_of_leadingCalls body h

theorem mem_mentionsOfTerms {known : RuleId → Bool} {id : RuleId} :
    ∀ terms : List Term, id ∈ leadingOfTerms known terms →
      ∃ captured, ⟨id, captured⟩ ∈ mentionsOfTerms terms
  | [], h => by simp [leadingOfTerms] at h
  | ⟨_, e⟩ :: terms, h => by
    rw [leadingOfTerms] at h
    rcases List.mem_append.mp h with h | h
    · obtain ⟨captured, hm⟩ := Expr.mem_mentions_of_leadingCalls e h
      exact ⟨captured, List.mem_append_left _ hm⟩
    · split at h
      · obtain ⟨captured, hm⟩ := mem_mentionsOfTerms terms h
        exact ⟨captured, List.mem_append_right _ hm⟩
      · cases h

theorem mem_mentionsOfAll {known : RuleId → Bool} {id : RuleId} :
    ∀ alternatives : List Expr, id ∈ leadingOfAlternatives known alternatives →
      ∃ captured, ⟨id, captured⟩ ∈ mentionsOfAll alternatives
  | [], h => by simp [leadingOfAlternatives] at h
  | e :: alternatives, h => by
    rw [leadingOfAlternatives] at h
    rcases List.mem_append.mp h with h | h
    · obtain ⟨captured, hm⟩ := Expr.mem_mentions_of_leadingCalls e h
      exact ⟨captured, List.mem_append_left _ hm⟩
    · obtain ⟨captured, hm⟩ := mem_mentionsOfAll alternatives h
      exact ⟨captured, List.mem_append_right _ hm⟩

end

/-- Leading calls are calls. -/
theorem Expr.Within.leading {n : Nat} {e : Expr} (he : e.Within n) (known : RuleId → Bool) :
    ∀ id ∈ e.leadingCalls known, id < n := by
  intro id hid
  obtain ⟨captured, hm⟩ := Expr.mem_mentions_of_leadingCalls e hid
  exact he _ hm

namespace Grammar

variable {g : Grammar}

theorem leadingCalls_of_rule {table : NullableTable} {id : RuleId} {r : Rule}
    (hr : g.rules[id]? = some r) : g.leadingCalls table id = r.body.leadingCalls table.knows := by
  simp [leadingCalls, hr]

theorem lt_of_leadingCalls (hg : g.Resolved) {table : NullableTable} {id next : RuleId}
    (hid : id < g.size) (hnext : next ∈ g.leadingCalls table id) : next < g.size := by
  obtain ⟨r, hr⟩ := exists_rule hid
  rw [leadingCalls_of_rule hr] at hnext
  exact (hg _ (body_mem_bodies hr)).leading _ next hnext

/-- How the rules are ranked: below their number, and above all that they may call where they start. -/
structure Ranked (g : Grammar) (rank : RuleId → Nat) : Prop where
  lt_size : ∀ id < g.size, rank id < g.size
  leading : ∀ id r, g.rules[id]? = some r →
    ∀ next ∈ r.body.leadingCalls g.nullableTable.knows, rank next < rank id

/-- The list of edges holds the leading calls of each rule. -/
theorem edges_eq (g : Grammar) (id : RuleId) :
    ((List.range g.size).map (g.leadingCalls g.nullableTable))[id]?.getD [] =
      g.leadingCalls g.nullableTable id := by
  by_cases hid : id < g.size
  · simp [hid]
  · have hnone : g.rules[id]? = none := List.getElem?_eq_none_iff.mpr (Nat.le_of_not_lt hid)
    simp [hid, leadingCalls, hnone]

/-- The search over the leading calls, from each rule in declaration order. -/
theorem firstCycle?_eq (g : Grammar) :
    g.firstCycle? = fault? ((List.range g.size).foldlM
      (searchCycle (g.leadingCalls g.nullableTable) (g.size + 1) []) []) := by
  simp only [firstCycle?, edges_eq]
  cases (List.range g.size).foldlM
    (searchCycle (g.leadingCalls g.nullableTable) (g.size + 1) []) [] <;> rfl

/-- Searching from rules that lead to no cycle settles them. -/
theorem settled_of_search (hg : g.Resolved) {ids done : List RuleId} (hids : ∀ id ∈ ids, id < g.size)
    (h : ids.foldlM (searchCycle (g.leadingCalls g.nullableTable) (g.size + 1) []) [] = .ok done) :
    Settled (g.leadingCalls g.nullableTable) done ∧ (∀ x ∈ done, x < g.size) ∧
      ∀ id ∈ ids, id ∈ done := by
  obtain ⟨hgrown, hall⟩ := foldlM_settles hids
    (fun hnext hd hb hs => searchCycle_settles (fun id hid next hn => g.lt_of_leadingCalls hg hid hn)
      (g.size + 1) .nil (by simp) (by simp) hnext hd hb hs)
    (by trivial) (by simp) h
  exact ⟨hgrown.settled, hgrown.below, hall⟩

/-- Without a cycle of leading calls the rules can be ranked. -/
theorem exists_ranked (hg : g.Resolved) (h : g.firstCycle? = none) : ∃ rank, g.Ranked rank := by
  rw [firstCycle?_eq] at h
  obtain ⟨done, hdone⟩ := fault?_eq_none_iff.mp h
  obtain ⟨hsettled, hbelow, hall⟩ := settled_of_search hg (by simp) hdone
  have hmem : ∀ id < g.size, id ∈ done := fun id hid => hall id (by simpa using hid)
  -- settled rules are different and below the number of rules, so they are not too many
  have hlen : done.length ≤ g.size := by
    have hsub : done ⊆ List.range g.size := fun x hx => List.mem_range.mpr (hbelow x hx)
    simpa using hsettled.nodup.length_le_of_subset hsub
  refine ⟨rankIn done, ⟨?_, ?_⟩⟩
  · intro id hid
    exact Nat.lt_of_lt_of_le (Settled.rankIn_lt (hmem id hid)) hlen
  · intro id r hr next hnext
    have hid : id < g.size := (List.getElem?_eq_some_iff.mp hr).1
    refine hsettled.rankIn_next (hmem id hid) ?_
    rw [leadingCalls_of_rule hr]
    exact hnext

end Grammar

end PegTree
