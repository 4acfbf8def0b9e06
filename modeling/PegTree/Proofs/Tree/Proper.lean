import PegTree.Proofs.Notation.ReportedCycle
import PegTree.Proofs.Text.Lines
import PegTree.Proofs.Tree.Visited
import PegTree.Proofs.Tree.WellFormed

/-!
# Trees and their names

What those who write trees may rely on.  The nodes of a tree that a parser returns stand for rules of its
grammar, and a node without children is a leaf (`Builder.proper_of_parse`).  The names of the rules tell
them apart (`Builder.ruleNames_of_build`), and a name holds letters and digits only: nothing that could be
taken for a blank, a quote, a line feed or the begin of an escape sequence (`Builder.clean_ruleName`).
-/

namespace PegTree

/-! ## Nodes -/

/-- A tree whose nodes stand for the first `n` rules, and whose branches have children. -/
inductive Tree.Proper (n : Nat) : Tree → Prop
  | leaf {rule : RuleId} {span : Span} {value : String} :
      rule < n → Proper n (.leaf rule span value)
  | branch {rule : RuleId} {span : Span} {children : List Tree} :
      rule < n → children ≠ [] → (∀ t ∈ children, Proper n t) → Proper n (.branch rule span children)

theorem Tree.Proper.rule_lt {n : Nat} {t : Tree} (h : t.Proper n) : t.rule < n := by
  cases h with
  | leaf hrule => exact hrule
  | branch hrule => exact hrule

/-- What is below a node of such a tree is such a tree. -/
theorem Tree.Proper.of_descend? {n : Nat} {path : List Nat} {t u : Tree} (h : t.Proper n)
    (hu : t.descend? path = some u) : u.Proper n := by
  induction path generalizing t with
  | nil =>
    obtain rfl := Option.some.inj hu
    exact h
  | cons i path ih =>
    rw [Tree.descend?] at hu
    cases hchild : t.children[i]? with
    | none =>
      rw [hchild] at hu
      cases hu
    | some child =>
      rw [hchild] at hu
      refine ih ?_ hu
      cases h with
      | leaf => cases hchild
      | branch _ _ hchildren => exact hchildren child (List.mem_of_getElem? hchild)

theorem Tree.Proper.rule_lt_of_mem_headings {n : Nat} {t : Tree} (h : t.Proper n) {depth : Nat} :
    ∀ r ∈ t.headings depth, r.rule < n := by
  intro r hr
  obtain ⟨⟨path, u⟩, hu, rfl⟩ := List.mem_map.mp hr
  exact (h.of_descend? (Tree.mem_visited_iff.mp hu)).rule_lt

theorem Grammar.Captures.lt_size {g : Grammar} (hg : g.Resolved) {id : RuleId} (h : g.Captures id) :
    id < g.size := by
  obtain ⟨e, he, hin⟩ := h
  exact hg e he _ hin

theorem Tree.WellFormed.proper {g : Grammar} (hg : g.Resolved) {text : List Char} {t : Tree}
    (h : t.WellFormed g text) (hrule : t.rule < g.size) : t.Proper g.size := by
  induction h with
  | leaf => exact .leaf hrule
  | branch _ hne _ _ hcaptured _ ih =>
    refine .branch hrule hne ?_
    intro u hu
    exact ih u hu ((hcaptured u hu).lt_size hg)

/-! ## Names -/

/-- Names that tell the first `n` rules apart. -/
structure RuleNames (n : Nat) (name : RuleId → String) : Prop where
  identifier : ∀ id < n, Identifier (name id)
  inj : ∀ i < n, ∀ j < n, name i = name j → i = j

namespace RuleNames

variable {n : Nat} {name : RuleId → String}

theorem ne_blank (h : RuleNames n name) {id : RuleId} (hid : id < n) {x : Char}
    (hx : x ∈ (name id).toList) : (x != ' ') = true := by
  refine bne_iff_ne.mpr ?_
  rintro rfl
  exact absurd ((h.identifier id hid).le_toNat hx) (by decide)

/-- A text that begins with a name does not begin with a blank. -/
theorem head_ne_blank (h : RuleNames n name) {id : RuleId} (hid : id < n) {rest more : List Char} {x : Char}
    (hx : (name id).toList ++ rest = x :: more) : (x == ' ') = false := by
  obtain ⟨first, others, hname, -⟩ := h.identifier id hid
  have hne := h.ne_blank hid (x := first) (by rw [hname]; exact List.mem_cons_self)
  rw [hname] at hx
  rw [← (List.cons.inj hx).1]
  exact beq_eq_false_iff_ne.mpr (bne_iff_ne.mp hne)

end RuleNames

theorem Grammar.name_eq_empty {g : Grammar} {id : RuleId} (h : ¬ id < g.size) : g.name id = "" := by
  rw [name, List.getElem?_eq_none (Nat.le_of_not_lt h)]
  rfl

namespace Builder

variable {b : Builder} {p : Parser}

theorem wellFormed_of_build (hp : b.build = .ok p) : p.grammar.WellFormed :=
  Grammar.wellFormed_of_compile (build_eq_ok hp).1

/-- The tree that a parse returns is one of rules that are there. -/
theorem proper_of_parse (hp : b.build = .ok p) {source : Source} {t : Tree}
    (ht : p.parse source = .ok t) : t.Proper p.grammar.size := by
  obtain ⟨hcompile, -, hentries, -⟩ := build_eq_ok hp
  obtain ⟨entry, hentry, stop, captures, hmatches, rfl⟩ := matches_of_parse hp ht
  have hon : Cursor.On source.text.toList (.start source.text.toList) := .refl _
  have hwell : (Tree.ofMatch entry (.start source.text.toList) stop captures).WellFormed p.grammar
      source.text.toList :=
    Tree.wellFormed_ofMatch entry hon hmatches.reaches (hmatches.laidFrom (Expr.of_rule _ _) hon)
  refine hwell.proper (Grammar.resolved_of_compile hcompile) ?_
  rw [Tree.rule_ofMatch]
  exact lt_of_resolveEntries hentries entry hentry

theorem ruleNames_of_build (hp : b.build = .ok p) : RuleNames p.grammar.size p.ruleName := by
  have hwell := wellFormed_of_build hp
  constructor
  · intro id hid
    exact hwell.identifiers _ (Grammar.name_mem_names hid)
  · intro i hi j hj h
    have hid : some i = some j := by
      rw [← Grammar.ruleId?_name hwell.names hi, ← Grammar.ruleId?_name hwell.names hj]
      exact congrArg p.grammar.ruleId? h
    exact Option.some.inj hid

theorem clean_ruleName (hp : b.build = .ok p) (id : RuleId) : Clean (p.ruleName id).toList := by
  intro x hx
  by_cases hid : id < p.grammar.size
  · exact Nat.le_trans (by decide) (((ruleNames_of_build hp).identifier id hid).le_toNat hx)
  · rw [Parser.ruleName, Grammar.name_eq_empty hid] at hx
    cases hx

end Builder

/-! ## Lists in brackets -/

/-- The description of a parser for lists in brackets, the items of which are lists or other characters. -/
def nestedBuilder : Builder where
  text := "list = '[' \x7b@list | @item\x7d ']'; item = !'[' !']' \\x00..$;"
  entries := ["list"]

/-- What `nestedBuilder` builds. -/
def nestedParser : Parser where
  grammar :=
    { rules :=
        [⟨"list", .sequence [⟨false, .literal "["⟩, ⟨false, .repetition (.choice [.capture 0, .capture 1])⟩,
          ⟨false, .literal "]"⟩], ⟨0, 4⟩⟩,
        ⟨"item", .sequence [⟨false, .negation (.literal "[")⟩, ⟨false, .negation (.literal "]")⟩,
          ⟨false, .range '\x00' highestChar⟩], ⟨32, 36⟩⟩]
      skip := none }
  entries := [0]
  full := false
  maxDepth := defaultMaxDepth

/-- A quote and, in brackets, a line feed. -/
def nestedTree : Tree :=
  .branch 0 ⟨0, 6⟩ [.leaf 1 ⟨1, 2⟩ "\"", .branch 0 ⟨2, 5⟩ [.leaf 1 ⟨3, 4⟩ "\n"]]

theorem build_nestedBuilder : nestedBuilder.build = .ok nestedParser :=
  toOption_eq_some_iff.mp (by decide +kernel)

theorem parse_nestedTree : nestedParser.parse ⟨"input", "[\"[\n]]"⟩ = .ok nestedTree :=
  toOption_eq_some_iff.mp (by decide +kernel)

end PegTree
