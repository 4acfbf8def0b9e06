import PegTree.Proofs.Tree.Leaves
import PegTree.Proofs.Tree.Proper
import PegTree.Proofs.Tree.Visited

/-!
# The walk meets the leaves in document order

The walk over the leaves keeps a stack of trees and is asked for one leaf after the other.  However a tree is
built, being asked again and again it comes to an end, and what it has met until then are the leaves from
left to right: those that a recursion over the tree lists, which are the leaves among the nodes in document
order (`leaves_in_document_order`).

In a tree that a parse returns no leaf begins before the one in front of it has ended, because siblings lie
one behind the other and what is below a node lies inside its range.
-/

namespace PegTree

namespace Tree

mutual

/-- The leaves of a tree from left to right. -/
def leavesInOrder : Tree → List Tree
  | leaf r s v => [leaf r s v]
  | branch _ _ children => leavesInOrderEach children

/-- The leaves of several trees, one tree after the other. -/
def leavesInOrderEach : List Tree → List Tree
  | [] => []
  | t :: ts => t.leavesInOrder ++ leavesInOrderEach ts

end

theorem leavesInOrderEach_eq_flatMap (ts : List Tree) :
    leavesInOrderEach ts = ts.flatMap leavesInOrder := by
  induction ts with
  | nil => rfl
  | cons t ts ih => rw [leavesInOrderEach, List.flatMap_cons, ih]

/-! ## The walk -/

/-- Asked again and again from a stack on, the walk meets these leaves and then comes to an end. -/
inductive Meets : List Tree → List Tree → Prop
  | done {stack} : nextLeaf? stack = none → Meets stack []
  | next {stack pending t met} :
      nextLeaf? stack = some (t, pending) → Meets pending met → Meets stack (t :: met)

theorem meets_leavesOf (stack : List Tree) : Meets stack (leavesOf stack) := by
  fun_induction leavesOf stack with
  | case1 stack h => exact .done h
  | case2 stack t pending h ih => exact .next h ih

theorem Meets.eq_leavesOf {stack met : List Tree} (h : Meets stack met) : met = leavesOf stack := by
  induction h with
  | done hnext => rw [leavesOf_of_none hnext]
  | next hnext _ ih => rw [leavesOf_of_some hnext, ih]

theorem meets_iff {stack met : List Tree} : Meets stack met ↔ met = leavesOf stack := by
  constructor
  · exact Meets.eq_leavesOf
  · rintro rfl
    exact meets_leavesOf stack

mutual

/-- A tree that is alone on the stack is walked like the recursion goes. -/
theorem leaves_eq_leavesInOrder : ∀ t : Tree, t.leaves = t.leavesInOrder
  | leaf r s v => by rw [leaves, leavesOf_leaf, leavesOf_nil, leavesInOrder]
  | branch r s children => by
    rw [leaves, leavesOf_branch, List.append_nil, leavesOf_eq_leavesInOrderEach children, leavesInOrder]

theorem leavesOf_eq_leavesInOrderEach : ∀ ts : List Tree, leavesOf ts = leavesInOrderEach ts
  | [] => leavesOf_nil
  | t :: ts => by
    rw [← List.singleton_append, leavesOf_append, leavesOf_eq_leavesInOrderEach ts]
    exact congrArg (· ++ _) (leaves_eq_leavesInOrder t)

end

/-! ## Leaves among the nodes -/

mutual

theorem leavesInOrder_eq_visited :
    ∀ t : Tree, t.leavesInOrder = (t.visited.filter fun x => x.2.isLeaf).map Prod.snd
  | leaf r s v => rfl
  | branch r s children => by
    rw [leavesInOrder, visited, leavesInOrderEach_eq_visitedBelow 0 children]
    rfl

theorem leavesInOrderEach_eq_visitedBelow (i : Nat) :
    ∀ ts : List Tree,
      leavesInOrderEach ts = ((visitedBelow i ts).filter fun x => x.2.isLeaf).map Prod.snd
  | [] => rfl
  | t :: ts => by
    rw [leavesInOrderEach, visitedBelow, List.filter_append, List.map_append,
      leavesInOrder_eq_visited t, leavesInOrderEach_eq_visitedBelow (i + 1) ts, List.filter_map,
      List.map_map]
    rfl

end

/-! ## Where leaves lie -/

/-- Leaves that lie inside a range, one behind the other. -/
structure InLine (range : Span) (leaves : List Tree) : Prop where
  inside : ∀ u ∈ leaves,
    range.start ≤ u.span.start ∧ u.span.start ≤ u.span.stop ∧ u.span.stop ≤ range.stop
  ordered : leaves.Pairwise fun u v => u.span.stop ≤ v.span.start

/-- The leaves of a well-formed tree lie inside its range, one behind the other. -/
theorem WellFormed.inLine {g : Grammar} {text : List Char} {t : Tree} (h : t.WellFormed g text) :
    InLine t.span t.leavesInOrder := by
  induction h with
  | leaf hcovers =>
    refine ⟨?_, List.pairwise_singleton _ _⟩
    intro u hu
    obtain rfl := List.mem_singleton.mp hu
    exact ⟨Nat.le_refl _, hcovers.start_le_stop, Nat.le_refl _⟩
  | @branch rule span children value _ _ hinside hordered _ _ ih =>
    rw [leavesInOrder, leavesInOrderEach_eq_flatMap]
    constructor
    · intro u hu
      obtain ⟨t, ht, hleaf⟩ := List.mem_flatMap.mp hu
      obtain ⟨hstart, hle, hstop⟩ := (ih t ht).inside u hleaf
      obtain ⟨hbegin, hend⟩ := hinside t ht
      exact ⟨Nat.le_trans hbegin hstart, hle, Nat.le_trans hstop hend⟩
    · refine List.pairwise_flatMap.mpr ⟨fun t ht => (ih t ht).ordered, ?_⟩
      refine hordered.imp_of_mem fun {t u} ht hu hbehind x hx y hy => ?_
      calc x.span.stop ≤ t.span.stop := ((ih t ht).inside x hx).2.2
        _ ≤ u.span.start := hbehind
        _ ≤ y.span.start := ((ih u hu).inside y hy).1

end Tree

/-- Whatever the shape of a tree, the walk over its leaves meets these and no others and comes to an end:
the leaves that the recursion over the tree lists from left to right, which are the leaves among the nodes
in document order, each node behind a path of its own.  If a parse has returned the tree, each leaf ends
before the later ones begin or where they begin. -/
theorem leaves_in_document_order (t : Tree) :
    ((∀ met, Tree.Meets [t] met ↔ met = t.leaves) ∧ t.leaves = t.leavesInOrder ∧
      t.DocumentOrder t.visited ∧ t.leaves = (t.visited.filter fun x => x.2.isLeaf).map Prod.snd) ∧
    ∀ (b : Builder) (p : Parser) (source : Source), b.build = .ok p → p.parse source = .ok t →
      (∀ u ∈ t.leaves, u.span.start ≤ u.span.stop) ∧
      t.leaves.Pairwise fun u v => u.span.stop ≤ v.span.start := by
  have hwalk := t.leaves_eq_leavesInOrder
  refine ⟨⟨fun met => Tree.meets_iff, hwalk, t.documentOrder_visited, ?_⟩, ?_⟩
  · rw [hwalk, t.leavesInOrder_eq_visited]
  · intro b p source hp ht
    obtain ⟨-, -, -, hwell⟩ := parse_wellFormed hp ht
    rw [hwalk]
    exact ⟨fun u hu => (hwell.inLine.inside u hu).2.1, hwell.inLine.ordered⟩

/-- Nested lists of which one has a branch without children in front: what is left of it are the leaves. -/
theorem leaves_in_document_order_nested :
    Tree.Meets [.branch 0 ⟨0, 6⟩ [.branch 0 ⟨0, 0⟩ [], nestedTree]]
        [.leaf 1 ⟨1, 2⟩ "\"", .leaf 1 ⟨3, 4⟩ "\n"] ∧
      nestedBuilder.build = .ok nestedParser ∧
      nestedParser.parse ⟨"input", "[\"[\n]]"⟩ = .ok nestedTree ∧
      nestedTree.leaves.Pairwise fun u v => u.span.stop ≤ v.span.start := by
  obtain ⟨⟨hmeets, hleaves, -, -⟩, -⟩ :=
    leaves_in_document_order (.branch 0 ⟨0, 6⟩ [.branch 0 ⟨0, 0⟩ [], nestedTree])
  obtain ⟨-, hparsed⟩ := leaves_in_document_order nestedTree
  refine ⟨(hmeets _).mpr ?_, build_nestedBuilder, parse_nestedTree,
    (hparsed _ _ _ build_nestedBuilder parse_nestedTree).2⟩
  rw [hleaves]
  rfl

end PegTree
