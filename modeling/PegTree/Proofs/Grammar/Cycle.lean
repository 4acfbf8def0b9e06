import Mathlib.Data.List.Chain
import Mathlib.Data.List.Nodup
import Mathlib.Logic.Relation
import PegTree.Proofs.Grammar.Leading
import PegTree.Proofs.Grammar.Ranking
import PegTree.Proofs.Grammar.Spans

/-!
# Cycles of leading calls

The search for a cycle answers one exactly if the graph of leading calls has one
(`Grammar.firstCycle?_isSome_iff`).  Every rule on the path of the search leads to the rule that is being
looked at, so a rule that is met again leads to itself.  Where the search meets no cycle it ranks the
rules, and a rule with a rank cannot lead to itself.
-/

namespace PegTree

/-- A rule that a walk over leading calls takes back to itself. -/
def Grammar.Cyclic (g : Grammar) : Prop :=
  ∃ id, Relation.TransGen g.Leads id id

section

variable {calls : RuleId → List RuleId}

/-- A search from several rules in turn fails in one of them, with what those before it have settled. -/
theorem exists_of_foldlM_eq_error
    {search : List RuleId → RuleId → Except (List RuleId) (List RuleId)} {nexts done cycle : List RuleId}
    (h : nexts.foldlM search done = .error cycle) :
    ∃ before next behind done', nexts = before ++ next :: behind ∧
      before.foldlM search done = .ok done' ∧ search done' next = .error cycle := by
  induction nexts generalizing done with
  | nil => cases h
  | cons next nexts ih =>
    rw [List.foldlM_cons] at h
    cases hfirst : search done next with
    | error fault =>
      rw [hfirst] at h
      cases h
      exact ⟨[], next, nexts, done, rfl, rfl, hfirst⟩
    | ok between =>
      rw [hfirst] at h
      obtain ⟨before, other, behind, done', rfl, hbefore, hsearch⟩ := ih h
      refine ⟨next :: before, other, behind, done', rfl, ?_, hsearch⟩
      rw [List.foldlM_cons, hfirst]
      exact hbefore

/-- A walk over calls that comes back to the rule where it began, and to no rule twice before. -/
structure ClosedWalk (calls : RuleId → List RuleId) (x : RuleId) (cycle : List RuleId) : Prop where
  closed : ∃ between, cycle = x :: (between ++ [x])
  distinct : cycle.dropLast.Nodup
  steps : cycle.IsChain fun a b => b ∈ calls a

/-- A walk goes from its first rule to its last. -/
theorem transGen_of_isChain {edge : RuleId → RuleId → Prop} {a b : RuleId} {between : List RuleId}
    (h : (a :: (between ++ [b])).IsChain edge) : Relation.TransGen edge a b := by
  induction between generalizing a with
  | nil => exact .single (List.isChain_cons_cons.mp h).1
  | cons c between ih =>
    obtain ⟨hstep, hrest⟩ := List.isChain_cons_cons.mp h
    exact .head hstep (ih hrest)

theorem ClosedWalk.transGen {x : RuleId} {cycle : List RuleId} (h : ClosedWalk calls x cycle) :
    Relation.TransGen (fun a b => b ∈ calls a) x x := by
  obtain ⟨between, rfl⟩ := h.closed
  exact transGen_of_isChain h.steps

/-- The part of a path from a rule on closes to a walk: the stem that led to the rule is left out. -/
theorem closedWalk_closeCycle {path : List RuleId} {id : RuleId} (hpath : path.Nodup)
    (hsteps : (id :: path).IsChain fun a b => a ∈ calls b) (hin : id ∈ path) :
    ClosedWalk calls id (closeCycle path id) := by
  obtain ⟨recent, stem, rfl, hrecent⟩ := List.eq_append_cons_of_mem hin
  have hbetween : (recent ++ id :: stem).takeWhile (· != id) = recent := by
    have hne : ∀ x ∈ recent, (x != id) = true := by
      intro x hx
      simpa using fun he : x = id => hrecent (he ▸ hx)
    rw [List.takeWhile_append_of_pos hne]
    simp
  rw [closeCycle, hbetween]
  refine ⟨⟨recent.reverse, rfl⟩, ?_, ?_⟩
  · have hdrop : (id :: (recent.reverse ++ [id])).dropLast = id :: recent.reverse := by
      rw [← List.cons_append, List.dropLast_concat]
    rw [hdrop, List.nodup_cons, List.mem_reverse, List.nodup_reverse]
    exact ⟨hrecent, hpath.of_append_left⟩
  · -- the path has its newest rule in front, the walk its oldest
    have hback : (id :: (recent.reverse ++ [id])).reverse = id :: (recent ++ [id]) := by simp
    rw [← List.isChain_reverse, hback]
    refine hsteps.infix (List.IsPrefix.isInfix ⟨stem, ?_⟩)
    simp

/-- Where the search fails it has met a closed walk that can be reached from where it started.  The path,
newest rule in front, is a walk to the rule that is looked at. -/
theorem closedWalk_of_searchCycle {bound : Nat} {path done cycle : List RuleId} {id : RuleId}
    (hpath : path.Nodup) (hsteps : (id :: path).IsChain fun a b => a ∈ calls b)
    (h : searchCycle calls bound path done id = .error cycle) :
    ∃ x, Relation.ReflTransGen (fun a b => b ∈ calls a) id x ∧ ClosedWalk calls x cycle := by
  induction bound generalizing path done id with
  | zero => cases h
  | succ bound ih =>
    rw [searchCycle] at h
    split at h
    · cases h
    · split at h
      · next hagain =>
        cases h
        exact ⟨id, .refl, closedWalk_closeCycle hpath hsteps (by simpa using hagain)⟩
      · next hfresh =>
        split at h
        · cases h
        · next fault hfold =>
          cases h
          obtain ⟨before, next, behind, done', hcalls, -, hsearch⟩ := exists_of_foldlM_eq_error hfold
          have hnext : next ∈ calls id := by simp [hcalls]
          have hpath' : (id :: path).Nodup := List.nodup_cons.mpr ⟨by simpa using hfresh, hpath⟩
          obtain ⟨x, hreach, hwalk⟩ := ih hpath' (List.isChain_cons_cons.mpr ⟨hnext, hsteps⟩) hsearch
          exact ⟨x, .head hnext hreach, hwalk⟩

namespace Settled

variable {done : List RuleId}

/-- Calls lead from settled rules to settled rules of lower rank. -/
theorem rankIn_lt_of_transGen (h : Settled calls done) {id next : RuleId} (hid : id ∈ done)
    (hwalk : Relation.TransGen (fun a b => b ∈ calls a) id next) :
    next ∈ done ∧ rankIn done next < rankIn done id := by
  induction hwalk with
  | single hstep => exact ⟨h.next_mem hid hstep, h.rankIn_next hid hstep⟩
  | tail _ hstep ih => exact ⟨h.next_mem ih.1 hstep, Nat.lt_trans (h.rankIn_next ih.1 hstep) ih.2⟩

/-- No walk from a settled rule meets a rule that leads back to itself. -/
theorem not_transGen (h : Settled calls done) {id x : RuleId} (hid : id ∈ done)
    (hreach : Relation.ReflTransGen (fun a b => b ∈ calls a) id x) :
    ¬ Relation.TransGen (fun a b => b ∈ calls a) x x := by
  intro hcycle
  have hx : x ∈ done := by
    rcases Relation.reflTransGen_iff_eq_or_transGen.mp hreach with rfl | hwalk
    · exact hid
    · exact (h.rankIn_lt_of_transGen hid hwalk).1
  exact Nat.lt_irrefl _ (h.rankIn_lt_of_transGen hx hcycle).2

end Settled

end

namespace Grammar

variable {g : Grammar}

theorem Ranked.lt_of_leads {rank : RuleId → Nat} (h : g.Ranked rank) {id next : RuleId}
    (hleads : g.Leads id next) : rank next < rank id := by
  obtain ⟨r, hr, hnext⟩ := hleads
  exact h.leading id r hr next (Expr.mem_leadingCalls_iff.mpr hnext)

/-- Along leading calls the rank falls, so that none of them lead back. -/
theorem Ranked.not_cyclic {rank : RuleId → Nat} (h : g.Ranked rank) : ¬ g.Cyclic := by
  have hfalls : ∀ {id next : RuleId}, Relation.TransGen g.Leads id next → rank next < rank id := by
    intro id next hwalk
    induction hwalk with
    | single hstep => exact h.lt_of_leads hstep
    | tail _ hstep ih => exact Nat.lt_trans (h.lt_of_leads hstep) ih
  rintro ⟨id, hwalk⟩
  exact Nat.lt_irrefl _ (hfalls hwalk)

/-- In a range stands in front of a number all that is smaller. -/
theorem mem_of_range_eq {n first id : Nat} {before behind : List Nat}
    (h : List.range n = before ++ first :: behind) (hlt : id < first) : id ∈ before := by
  have hsorted : (before ++ first :: behind).Pairwise (· < ·) := h ▸ List.pairwise_lt_range
  have hfirst : first < n := List.mem_range.mp (h ▸ by simp)
  have hin : id ∈ before ++ first :: behind := h ▸ List.mem_range.mpr (Nat.lt_trans hlt hfirst)
  rw [List.pairwise_append, List.pairwise_cons] at hsorted
  rcases List.mem_append.mp hin with hin | hin
  · exact hin
  · rcases List.mem_cons.mp hin with rfl | hin
    · exact absurd hlt (Nat.lt_irrefl _)
    · exact absurd hlt (Nat.lt_asymm (hsorted.2.1.1 id hin))

/-- The listed leading calls are the edges of the graph. -/
theorem leads_eq (g : Grammar) :
    (fun id next => next ∈ g.leadingCalls g.nullableTable id) = g.Leads := by
  funext id next
  exact propext mem_leadingCalls_iff

/-- Rules from which a walk leads into a cycle. -/
def LeadsIntoCycle (g : Grammar) (id : RuleId) : Prop :=
  ∃ x, Relation.ReflTransGen g.Leads id x ∧ Relation.TransGen g.Leads x x

/-- The cycle that is found is a closed walk, and it is found from the first rule that leads into any. -/
theorem exists_first_of_firstCycle? (hg : g.Resolved) {cycle : List RuleId}
    (h : g.firstCycle? = some cycle) :
    ∃ first x, ClosedWalk (g.leadingCalls g.nullableTable) x cycle ∧
      Relation.ReflTransGen g.Leads first x ∧ ∀ id < first, ¬ g.LeadsIntoCycle id := by
  rw [firstCycle?_eq, fault?_eq_some_iff] at h
  obtain ⟨before, first, behind, done, hrange, hbefore, hsearch⟩ := exists_of_foldlM_eq_error h
  obtain ⟨x, hreach, hwalk⟩ := closedWalk_of_searchCycle .nil (.singleton _) hsearch
  rw [leads_eq] at hreach
  refine ⟨first, x, hwalk, hreach, ?_⟩
  rintro id hid ⟨y, hy, hback⟩
  -- the rules in front have been settled, so none of them leads into a cycle
  have hbelow : ∀ id ∈ before, id < g.size := by
    intro id hin
    exact List.mem_range.mp (hrange ▸ List.mem_append_left _ hin)
  obtain ⟨hsettled, -, hall⟩ := settled_of_search hg hbelow hbefore
  rw [← leads_eq] at hy hback
  exact hsettled.not_transGen (hall id (mem_of_range_eq hrange hid)) hy hback

/-- A cycle is found exactly if there is one. -/
theorem firstCycle?_isSome_iff (hg : g.Resolved) : g.firstCycle?.isSome ↔ g.Cyclic := by
  constructor
  · intro h
    obtain ⟨cycle, hcycle⟩ := Option.isSome_iff_exists.mp h
    obtain ⟨-, x, hwalk, -⟩ := exists_first_of_firstCycle? hg hcycle
    have hback := hwalk.transGen
    rw [leads_eq] at hback
    exact ⟨x, hback⟩
  · intro hcyclic
    rw [Option.isSome_iff_ne_none]
    intro hnone
    obtain ⟨rank, hrank⟩ := exists_ranked hg hnone
    exact hrank.not_cyclic hcyclic

/-! ## Spans -/

theorem resolved_unspanned_iff : g.unspanned.Resolved ↔ g.Resolved := by
  have hbodies : g.unspanned.bodies = g.bodies := by
    simp only [bodies, unspanned, List.map_map]
    rfl
  rw [Resolved, Resolved, hbodies, size_unspanned]

/-- Where names are written makes no cycle. -/
theorem cyclic_congr {g' : Grammar} (hg : g.Resolved) (h : g'.unspanned = g.unspanned) :
    g'.Cyclic ↔ g.Cyclic := by
  have hg' : g'.Resolved := by rwa [← resolved_unspanned_iff, h, resolved_unspanned_iff]
  rw [← firstCycle?_isSome_iff hg', ← firstCycle?_isSome_iff hg, ← firstCycle?_unspanned g', h,
    firstCycle?_unspanned]

end Grammar

end PegTree
