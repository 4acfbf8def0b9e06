import PegTree.Proofs.Text.Quoted
import PegTree.Proofs.Tree.Proper
import PegTree.Proofs.Tree.Visited
import PegTree.Tree.Outline

/-!
# Outlines are faithful

An outline has one line for each node in document order, and trees of one parser that have the same outline
differ in nothing but their ranges (`outline_faithful`).

A line says what its heading is: the blanks in front say how deep the node is, the name goes up to the next
blank, and the quoted text of a leaf can be read back (`Tree.Heading.line_inj`).  No line feed stands in a
line, since names are identifiers and control characters are written as escapes; so the outline says what its
lines are, and these say what the tree is.
-/

namespace PegTree

namespace Tree

/-! ## Lines -/

/-- What is written of a leaf behind its name. -/
def Heading.suffix (r : Heading) : List Char :=
  match r.value? with
  | none => []
  | some value => ' ' :: (quotedText value).toList

/-- The line of a heading. -/
def Heading.line (name : RuleId → String) (r : Heading) : List Char :=
  List.replicate (2 * r.depth) ' ' ++ ((name r.rule).toList ++ r.suffix)

/-- The lines of a tree in document order, the first at the given depth. -/
def lines (name : RuleId → String) (depth : Nat) (t : Tree) : List (List Char) :=
  (t.headings depth).map (Heading.line name)

/-- The lines of several trees. -/
def linesBelow (name : RuleId → String) (depth : Nat) (ts : List Tree) : List (List Char) :=
  (headingsBelow depth ts).map (Heading.line name)

mutual

/-- An outline is the lines of its tree. -/
theorem toList_outlineFrom (name : RuleId → String) (depth : Nat) :
    ∀ t : Tree, (t.outlineFrom name depth).toList = unlines (t.lines name depth)
  | leaf r s v => by
    simp [outlineFrom, indentation, lines, Heading.line, Heading.suffix, unlines_cons]
  | branch r s children => by
    rw [outlineFrom, String.toList_append, toList_outlineFromEach name (depth + 1) children, lines,
      headings_branch, List.map_cons, unlines_cons]
    simp [indentation, linesBelow, Heading.line, Heading.suffix]

theorem toList_outlineFromEach (name : RuleId → String) (depth : Nat) :
    ∀ ts : List Tree, (outlineFromEach name depth ts).toList = unlines (linesBelow name depth ts)
  | [] => rfl
  | t :: ts => by
    have happend : linesBelow name depth (t :: ts) = t.lines name depth ++ linesBelow name depth ts :=
      List.map_append
    rw [outlineFromEach, String.toList_append, toList_outlineFrom name depth t,
      toList_outlineFromEach name depth ts, happend, unlines_append]

end

theorem Heading.head_suffix (r : Heading) {x : Char} {more : List Char} (h : r.suffix = x :: more) :
    x = ' ' := by
  rw [suffix] at h
  cases hvalue : r.value? with
  | none =>
    rw [hvalue] at h
    cases h
  | some value =>
    rw [hvalue] at h
    exact (List.cons.inj h).1.symm

theorem Heading.value?_inj {r r' : Heading} (h : r.suffix = r'.suffix) : r.value? = r'.value? := by
  rw [suffix, suffix] at h
  cases hvalue : r.value? with
  | none =>
    cases hvalue' : r'.value? with
    | none => rfl
    | some value' => simp [hvalue, hvalue'] at h
  | some value =>
    cases hvalue' : r'.value? with
    | none => simp [hvalue, hvalue'] at h
    | some value' =>
      rw [hvalue, hvalue'] at h
      rw [quotedText_injective (String.toList_inj.mp (List.cons.inj h).2)]

/-- A line tells which heading it is of. -/
theorem Heading.line_inj {n : Nat} {name : RuleId → String} (hname : RuleNames n name) {r r' : Heading}
    (hr : r.rule < n) (hr' : r'.rule < n) (h : r.line name = r'.line name) : r = r' := by
  have hblanks : ∀ k, ∀ x ∈ List.replicate k ' ', (x == ' ') = true := by
    intro k x hx
    rw [List.eq_of_mem_replicate hx]
    rfl
  have hsuffix : ∀ r : Heading, ∀ x more, r.suffix = x :: more → (x != ' ') = false := by
    intro r x more hx
    rw [r.head_suffix hx]
    rfl
  -- the blanks end where the name begins, and the name at the next blank
  obtain ⟨hdepth, hrest⟩ := append_inj_of_stop (hblanks _) (hblanks _)
    (fun _ _ => hname.head_ne_blank hr) (fun _ _ => hname.head_ne_blank hr') h
  obtain ⟨hnames, hvalues⟩ := append_inj_of_stop (fun _ => hname.ne_blank hr)
    (fun _ => hname.ne_blank hr') (hsuffix r) (hsuffix r') hrest
  have hlength := congrArg List.length hdepth
  rw [List.length_replicate, List.length_replicate] at hlength
  have hrule := hname.inj _ hr _ hr' (String.toList_inj.mp hnames)
  exact Heading.ext (Nat.eq_of_mul_eq_mul_left (by decide) hlength) hrule (Heading.value?_inj hvalues)

theorem Heading.clean_suffix (r : Heading) : Clean r.suffix := by
  have hblank : Clean [' '] := by decide
  rw [suffix]
  cases r.value? with
  | none => exact fun x hx => nomatch hx
  | some value => exact hblank.append (clean_quotedText value)

/-- There are no control characters in a line. -/
theorem Heading.clean_line {name : RuleId → String} (hname : ∀ id, Clean (name id).toList) (r : Heading) :
    Clean (r.line name) :=
  (clean_replicate _).append ((hname r.rule).append r.clean_suffix)

/-- The lines of an outline are those of its tree. -/
theorem linesOf_outline {name : RuleId → String} (hname : ∀ id, Clean (name id).toList) (t : Tree) :
    linesOf (t.outline name).toList = t.lines name 0 := by
  have hnewline : ∀ line ∈ t.lines name 0, '\n' ∉ line := by
    intro line hline
    obtain ⟨r, -, rfl⟩ := List.mem_map.mp hline
    exact (r.clean_line hname).not_mem (by decide)
  rw [outline, toList_outlineFrom]
  exact linesOf_unlines hnewline

/-- The headings of a tree are the same as those of another if their lines are. -/
theorem headings_inj {n : Nat} {name : RuleId → String} (hname : RuleNames n name)
    {headings headings' : List Heading}
    (hheads : ∀ r ∈ headings, r.rule < n) (hheads' : ∀ r ∈ headings', r.rule < n)
    (h : headings.map (Heading.line name) = headings'.map (Heading.line name)) : headings = headings' := by
  induction headings generalizing headings' with
  | nil => exact (List.map_eq_nil_iff.mp h.symm).symm
  | cons r headings ih =>
    cases headings' with
    | nil => cases h
    | cons r' headings' =>
      obtain ⟨hline, hmore⟩ := List.cons.inj h
      obtain ⟨hr, hrest⟩ := List.forall_mem_cons.mp hheads
      obtain ⟨hr', hrest'⟩ := List.forall_mem_cons.mp hheads'
      rw [Heading.line_inj hname hr hr' hline, ih hrest hrest' hmore]

end Tree

/-! ## Outlines -/

/-- The lines of an outline are those of the nodes in document order, one for each.  A tree of the same
parser with the same outline has the same nodes, but perhaps for their ranges. -/
theorem outline_faithful {b : Builder} {p : Parser} {source : Source} {t : Tree} (hp : b.build = .ok p)
    (ht : p.parse source = .ok t) :
    (t.DocumentOrder t.visited ∧
      (t.outline p.ruleName).toList = unlines (t.visited.map fun x => (Tree.heading 0 x).line p.ruleName) ∧
      linesOf (t.outline p.ruleName).toList = t.visited.map (fun x => (Tree.heading 0 x).line p.ruleName) ∧
      (linesOf (t.outline p.ruleName).toList).length = t.nodes) ∧
    ∀ (source' : Source) (u : Tree), p.parse source' = .ok u →
      u.outline p.ruleName = t.outline p.ruleName → u.unspanned = t.unspanned := by
  have hname := Builder.clean_ruleName hp
  have hlines : t.lines p.ruleName 0 = t.visited.map fun x => (Tree.heading 0 x).line p.ruleName :=
    List.map_map
  refine ⟨⟨t.documentOrder_visited, ?_, ?_, ?_⟩, ?_⟩
  · rw [← hlines]
    exact Tree.toList_outlineFrom p.ruleName 0 t
  · rw [← hlines]
    exact Tree.linesOf_outline hname t
  · rw [Tree.linesOf_outline hname, Tree.lines, List.length_map, Tree.length_headings]
  · intro source' u hu houtline
    have hsame : u.lines p.ruleName 0 = t.lines p.ruleName 0 := by
      rw [← Tree.linesOf_outline hname, ← Tree.linesOf_outline hname, houtline]
    have hheads := Tree.headings_inj (Builder.ruleNames_of_build hp)
      (Builder.proper_of_parse hp hu).rule_lt_of_mem_headings
      (Builder.proper_of_parse hp ht).rule_lt_of_mem_headings hsame
    exact Tree.unspanned_eq_of_headings hheads

/-- The outline of nested lists, and what else may have the same. -/
theorem outline_faithful_nested :
    nestedBuilder.build = .ok nestedParser ∧
      nestedParser.parse ⟨"input", "[\"[\n]]"⟩ = .ok nestedTree ∧
      nestedTree.outline nestedParser.ruleName = "list\n  item \"\\\"\"\n  list\n    item \"\\n\"\n" ∧
      nestedTree.DocumentOrder [([], nestedTree), ([0], .leaf 1 ⟨1, 2⟩ "\""),
        ([1], .branch 0 ⟨2, 5⟩ [.leaf 1 ⟨3, 4⟩ "\n"]), ([1, 0], .leaf 1 ⟨3, 4⟩ "\n")] ∧
      (linesOf (nestedTree.outline nestedParser.ruleName).toList).length = 4 ∧
      ∀ (source : Source) (u : Tree), nestedParser.parse source = .ok u →
        u.outline nestedParser.ruleName = nestedTree.outline nestedParser.ruleName →
        u.unspanned = nestedTree.unspanned := by
  obtain ⟨⟨horder, -, -, hlength⟩, hsame⟩ := outline_faithful build_nestedBuilder parse_nestedTree
  exact ⟨build_nestedBuilder, parse_nestedTree, by decide +kernel, horder, hlength, hsame⟩

end PegTree
