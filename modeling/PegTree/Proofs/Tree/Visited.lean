import Mathlib.Data.List.Basic
import PegTree.Tree.Basic

/-!
# Nodes in document order

A tree is visited node by node, a node in front of what is below it and its children one after the other.
Every node is visited once, and those with smaller paths come first (`documentOrder_visited`); a path is
smaller than those that go on from it.

The depths in this order, with the rule of each node and the value of each leaf, are all that there is to a
tree but its ranges: the tree can be put together from them again (`unspanned_eq_of_headings`).
-/

namespace PegTree

namespace Tree

/-! ## Paths -/

mutual

/-- The nodes of a tree in document order, each behind the path that leads to it. -/
def visited : Tree → List (List Nat × Tree)
  | leaf r s v => [([], leaf r s v)]
  | branch r s children => ([], branch r s children) :: visitedBelow 0 children

/-- The nodes of several children, the first of which has the index `i`. -/
def visitedBelow (i : Nat) : List Tree → List (List Nat × Tree)
  | [] => []
  | t :: ts => t.visited.map (fun x => (i :: x.1, x.2)) ++ visitedBelow (i + 1) ts

end

mutual

/-- What is visited is what the paths lead to. -/
theorem mem_visited_iff {path : List Nat} {u : Tree} :
    ∀ {t : Tree}, (path, u) ∈ t.visited ↔ t.descend? path = some u
  | leaf r s v => by
    rw [visited, List.mem_singleton]
    cases path with
    | nil => simp [descend?, eq_comm]
    | cons i path => simp [descend?, children]
  | branch r s cs => by
    rw [visited, List.mem_cons, mem_visitedBelow_iff]
    cases path with
    | nil => simp [descend?, eq_comm]
    | cons i path =>
      rw [descend?]
      cases hchild : cs[i]? with
      | none => simp [children, hchild]
      | some child => simp [children, hchild]

theorem mem_visitedBelow_iff {path : List Nat} {u : Tree} {i : Nat} :
    ∀ {ts : List Tree}, (path, u) ∈ visitedBelow i ts ↔
      ∃ j more child, path = (i + j) :: more ∧ ts[j]? = some child ∧ child.descend? more = some u
  | [] => by simp [visitedBelow]
  | t :: ts => by
    rw [visitedBelow, List.mem_append, List.mem_map, mem_visitedBelow_iff]
    constructor
    · rintro (⟨⟨more, v⟩, hin, heq⟩ | ⟨j, more, child, rfl, hchild, hmore⟩)
      · obtain ⟨rfl, rfl⟩ := Prod.mk.inj heq
        exact ⟨0, more, t, rfl, rfl, mem_visited_iff.mp hin⟩
      · exact ⟨j + 1, more, child, by rw [Nat.add_right_comm, Nat.add_assoc], hchild, hmore⟩
    · rintro ⟨j, more, child, rfl, hchild, hmore⟩
      cases j with
      | zero =>
        obtain rfl := Option.some.inj hchild
        exact .inl ⟨(more, u), mem_visited_iff.mpr hmore, rfl⟩
      | succ j => exact .inr ⟨j, more, child, by rw [Nat.add_right_comm, Nat.add_assoc], hchild, hmore⟩

end

/-- The paths to what is below a node begin with the index of a child. -/
theorem exists_of_mem_visitedBelow {x : List Nat × Tree} {i : Nat} {ts : List Tree}
    (h : x ∈ visitedBelow i ts) : ∃ j more, x.1 = (i + j) :: more := by
  obtain ⟨j, more, -, hpath, -⟩ := mem_visitedBelow_iff.mp h
  exact ⟨j, more, hpath⟩

mutual

/-- Smaller paths come first. -/
theorem pairwise_visited : ∀ t : Tree, t.visited.Pairwise fun x y => x.1 < y.1
  | leaf r s v => List.pairwise_singleton _ _
  | branch r s children => by
    refine List.pairwise_cons.mpr ⟨?_, pairwise_visitedBelow 0 children⟩
    intro x hx
    obtain ⟨j, more, hpath⟩ := exists_of_mem_visitedBelow hx
    rw [hpath]
    exact List.nil_lt_cons _ _

theorem pairwise_visitedBelow (i : Nat) :
    ∀ ts : List Tree, (visitedBelow i ts).Pairwise fun x y => x.1 < y.1
  | [] => .nil
  | t :: ts => by
    refine List.pairwise_append.mpr ⟨?_, pairwise_visitedBelow (i + 1) ts, ?_⟩
    · refine List.pairwise_map.mpr ((pairwise_visited t).imp fun {x y} hlt => ?_)
      exact List.cons_lt_cons_iff.mpr (.inr ⟨rfl, hlt⟩)
    · intro x hx y hy
      obtain ⟨z, -, rfl⟩ := List.mem_map.mp hx
      obtain ⟨j, more, hpath⟩ := exists_of_mem_visitedBelow hy
      rw [hpath]
      exact List.cons_lt_cons_iff.mpr (.inl (by omega))

end

/-- The nodes of a tree, each behind the path that leads to it, in document order. -/
structure DocumentOrder (t : Tree) (nodes : List (List Nat × Tree)) : Prop where
  ordered : nodes.Pairwise fun x y => x.1 < y.1
  mem_iff : ∀ path u, (path, u) ∈ nodes ↔ t.descend? path = some u

theorem documentOrder_visited (t : Tree) : t.DocumentOrder t.visited :=
  ⟨pairwise_visited t, fun _ _ => mem_visited_iff⟩

/-! ## Headings -/

/-- What an outline says of a node: how deep it is, its rule and, for a leaf, the value. -/
@[ext]
structure Heading where
  depth : Nat
  rule : RuleId
  value? : Option String

/-- The heading of a node behind the path to it, if the tree begins at a depth. -/
def heading (depth : Nat) (x : List Nat × Tree) : Heading :=
  ⟨depth + x.1.length, x.2.rule, x.2.value?⟩

/-- The headings of a tree in document order, the first at the given depth. -/
def headings (depth : Nat) (t : Tree) : List Heading :=
  t.visited.map (heading depth)

/-- The headings of children in document order, the first of them at the given depth. -/
def headingsBelow (depth : Nat) : List Tree → List Heading
  | [] => []
  | t :: ts => t.headings depth ++ headingsBelow depth ts

theorem map_heading_visitedBelow (depth i : Nat) (ts : List Tree) :
    (visitedBelow i ts).map (heading depth) = headingsBelow (depth + 1) ts := by
  induction ts generalizing i with
  | nil => rfl
  | cons t ts ih =>
    have hhead : heading depth ∘ (fun x => (i :: x.1, x.2)) = heading (depth + 1) := by
      funext x
      show Heading.mk (depth + (x.1.length + 1)) _ _ = Heading.mk (depth + 1 + x.1.length) _ _
      rw [Nat.add_right_comm, Nat.add_assoc]
    rw [visitedBelow, List.map_append, List.map_map, ih, hhead, headingsBelow, headings]

@[simp]
theorem headings_leaf (depth : Nat) (r : RuleId) (s : Span) (v : String) :
    (leaf r s v).headings depth = [⟨depth, r, some v⟩] :=
  rfl

@[simp]
theorem headings_branch (depth : Nat) (r : RuleId) (s : Span) (children : List Tree) :
    (branch r s children).headings depth = ⟨depth, r, none⟩ :: headingsBelow (depth + 1) children := by
  rw [← map_heading_visitedBelow depth 0]
  rfl

mutual

/-- There is a heading for every node. -/
theorem length_headings (depth : Nat) : ∀ t : Tree, (t.headings depth).length = t.nodes
  | leaf r s v => rfl
  | branch r s children => by
    rw [headings_branch, List.length_cons, length_headingsBelow (depth + 1) children, nodes, Nat.add_comm]

theorem length_headingsBelow (depth : Nat) :
    ∀ ts : List Tree, (headingsBelow depth ts).length = nodesOf ts
  | [] => rfl
  | t :: ts => by
    rw [headingsBelow, List.length_append, length_headings depth t, length_headingsBelow depth ts, nodesOf]

end

/-! ## Trees from headings -/

mutual

/-- A tree with its ranges forgotten. -/
def unspanned : Tree → Tree
  | leaf r _ v => leaf r ⟨0, 0⟩ v
  | branch r _ children => branch r ⟨0, 0⟩ (unspannedEach children)

/-- Several trees with their ranges forgotten. -/
def unspannedEach : List Tree → List Tree
  | [] => []
  | t :: ts => t.unspanned :: unspannedEach ts

end

/-- Whether headings begin with one that is less deep than `depth`, if there are any. -/
def Above (depth : Nat) (headings : List Heading) : Prop :=
  ∀ x ∈ headings.head?, x.depth < depth

theorem exists_headings_eq_cons (depth : Nat) (t : Tree) :
    ∃ more, t.headings depth = ⟨depth, t.rule, t.value?⟩ :: more := by
  cases t with
  | leaf r s v => exact ⟨_, rfl⟩
  | branch r s children => exact ⟨_, headings_branch depth r s children⟩

theorem not_above_headings (depth : Nat) (t : Tree) (rest : List Heading) :
    ¬ Above depth (t.headings depth ++ rest) := by
  obtain ⟨more, hheads⟩ := exists_headings_eq_cons depth t
  intro h
  rw [hheads] at h
  exact Nat.lt_irrefl depth (h _ rfl)

/-- Behind the headings of a tree come those of the next child or, above, what is behind the parent. -/
theorem above_succ_headingsBelow {depth : Nat} {rest : List Heading} (h : Above depth rest) (ts : List Tree) :
    Above (depth + 1) (headingsBelow depth ts ++ rest) := by
  intro x hx
  cases ts with
  | nil => exact Nat.lt_succ_of_lt (h x hx)
  | cons t ts =>
    obtain ⟨more, hheads⟩ := exists_headings_eq_cons depth t
    rw [headingsBelow, hheads] at hx
    obtain rfl := Option.some.inj hx
    exact Nat.lt_succ_self depth

mutual

/-- The headings of a tree end where one comes that is not deeper than the first; so they say what the tree
is, whatever stands behind them. -/
theorem unspanned_eq_of_headings_append {depth : Nat} {rest rest' : List Heading}
    (hrest : Above (depth + 1) rest) (hrest' : Above (depth + 1) rest') :
    ∀ {t u : Tree}, t.headings depth ++ rest = u.headings depth ++ rest' →
      t.unspanned = u.unspanned ∧ rest = rest'
  | leaf r s v, leaf r' s' v', h => by
    obtain ⟨hhead, hmore⟩ := List.cons.inj h
    obtain ⟨-, rfl, hv⟩ := Heading.mk.inj hhead
    obtain rfl := Option.some.inj hv
    exact ⟨rfl, hmore⟩
  | leaf r s v, branch r' s' cs', h => by
    rw [headings_branch] at h
    cases (Heading.mk.inj (List.cons.inj h).1).2.2
  | branch r s cs, leaf r' s' v', h => by
    rw [headings_branch] at h
    cases (Heading.mk.inj (List.cons.inj h).1).2.2
  | branch r s cs, branch r' s' cs', h => by
    rw [headings_branch, headings_branch] at h
    obtain ⟨hhead, hmore⟩ := List.cons.inj h
    obtain ⟨-, rfl, -⟩ := Heading.mk.inj hhead
    obtain ⟨hcs, hbehind⟩ := unspannedEach_eq_of_headingsBelow_append hrest hrest' hmore
    exact ⟨by rw [unspanned, unspanned, hcs], hbehind⟩

theorem unspannedEach_eq_of_headingsBelow_append {depth : Nat} {rest rest' : List Heading}
    (hrest : Above depth rest) (hrest' : Above depth rest') :
    ∀ {ts us : List Tree}, headingsBelow depth ts ++ rest = headingsBelow depth us ++ rest' →
      unspannedEach ts = unspannedEach us ∧ rest = rest'
  | [], [], h => ⟨rfl, h⟩
  | [], u :: us, h => by
    rw [headingsBelow, headingsBelow, List.nil_append, List.append_assoc] at h
    rw [h] at hrest
    exact absurd hrest (not_above_headings depth u _)
  | t :: ts, [], h => by
    rw [headingsBelow, headingsBelow, List.nil_append, List.append_assoc] at h
    rw [← h] at hrest'
    exact absurd hrest' (not_above_headings depth t _)
  | t :: ts, u :: us, h => by
    rw [headingsBelow, headingsBelow, List.append_assoc, List.append_assoc] at h
    obtain ⟨ht, hmore⟩ := unspanned_eq_of_headings_append (above_succ_headingsBelow hrest ts)
      (above_succ_headingsBelow hrest' us) h
    obtain ⟨hts, hbehind⟩ := unspannedEach_eq_of_headingsBelow_append hrest hrest' hmore
    exact ⟨by rw [unspannedEach, unspannedEach, ht, hts], hbehind⟩

end

theorem unspanned_eq_of_headings {depth : Nat} {t u : Tree} (h : t.headings depth = u.headings depth) :
    t.unspanned = u.unspanned := by
  have hnone : Above (depth + 1) [] := fun x hx => nomatch hx
  refine (unspanned_eq_of_headings_append hnone hnone ?_).1
  rw [h]

end Tree

end PegTree
