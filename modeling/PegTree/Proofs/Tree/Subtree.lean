import PegTree.Proofs.Match.Fuel
import PegTree.Proofs.Match.Invariant
import PegTree.Proofs.Match.Shift
import PegTree.Proofs.Parser.Entries

/-!
# Nodes stand on their own

A node of a tree was made by calling its rule at the place where the node begins.  Unless that was inside
the skip rule, the call depends on nothing but the characters ahead and the calls that were left: not on
what stands to the left, not on the rules around it, not on what had been tried before.  So a parse that
begins there with this rule gives the node again, with offsets counted from there
(`parse_reproduces_node`).

Inside the skip rule no skipping happens, and the same rule called from outside may match more.  Rules
that the skip rule can call are therefore left out.
-/

namespace PegTree

/-- Rules that the skip rule calls, directly or through others. -/
inductive Grammar.SkipReaches (g : Grammar) : RuleId → Prop
  | body {e : Expr} {x : Mention} : g.skip = some e → x ∈ e.mentions → SkipReaches g x.rule
  | rule {id : RuleId} {r : Rule} {x : Mention} :
      SkipReaches g id → g.rules[id]? = some r → x ∈ r.body.mentions → SkipReaches g x.rule

/-- A skip rule that calls nothing reaches nothing. -/
theorem Grammar.not_skipReaches {g : Grammar} (h : ∀ e, g.skip = some e → e.mentions = [])
    (id : RuleId) : ¬ g.SkipReaches id := by
  intro hid
  induction hid with
  | body he hx => simp [h _ he] at hx
  | rule _ _ _ ih => exact ih

/-- A node that was made by calling its rule outside the skip rule, at a place of the text and with no
more calls left than the limit allows. -/
def Tree.Called (g : Grammar) (limit : Nat) (text : List Char) (node : Tree) : Prop :=
  ∃ left ≤ limit, ∃ c stop ts log, c.On text ∧
    g.outcome left .plain node.rule c = .matched stop ts log ∧
    node = Tree.ofMatch node.rule c stop ts

/-- A tree in which every node was made by a call outside the skip rule, but for those of rules that the
skip rule can call. -/
def Tree.Traced (g : Grammar) (limit : Nat) (text : List Char) (t : Tree) : Prop :=
  ∀ path node, t.descend? path = some node →
    g.SkipReaches node.rule ∨ node.Called g limit text

@[simp]
theorem Tree.children_ofMatch (rule : RuleId) (c stop : Cursor) (ts : List Tree) :
    (Tree.ofMatch rule c stop ts).children = ts := by
  cases ts <;> rfl

/-- A match makes a traced tree of traced ones. -/
theorem Tree.Traced.ofMatch {g : Grammar} {limit : Nat} {text : List Char} {rule : RuleId}
    {c stop : Cursor} {ts : List Tree}
    (hroot : g.SkipReaches rule ∨ (Tree.ofMatch rule c stop ts).Called g limit text)
    (hts : ∀ t ∈ ts, t.Traced g limit text) : (Tree.ofMatch rule c stop ts).Traced g limit text := by
  rintro (_ | ⟨i, path⟩) node hnode
  · cases hnode
    simpa using hroot
  · rw [Tree.descend?, Tree.children_ofMatch] at hnode
    split at hnode
    · cases hnode
    · next child hchild => exact hts child (List.mem_of_getElem? hchild) path node hnode

namespace Grammar

variable {g : Grammar} {limit : Nat} {text : List Char}

/-- Captures of a call are traced, whether the call is made outside the skip rule or inside, where only
certain rules are called. -/
theorem outcome_traced (g : Grammar) {left : Nat} (hleft : left ≤ limit) {mode : Mode} {id : RuleId}
    (hid : mode = .skipping → g.SkipReaches id) {c : Cursor} (hc : c.On text) :
    (g.outcome left mode id c).Keeps text (Tree.Traced g limit text) := by
  induction left generalizing mode id c with
  | zero => exact hc.boundary
  | succ left ih =>
    have hle : left ≤ limit := Nat.le_of_succ_le hleft
    -- one mode after the other, because the rules that may be called differ
    have hskipping {rule : Option RuleId} {skip : Cursor → Outcome}
        (hskip : ∀ c, c.On text → (skip c).Keeps text (Tree.Traced g limit text)) :
        Frame.Keeps ⟨rule, skip, g.outcome left .skipping⟩ text (Tree.Traced g limit text)
          g.SkipReaches := by
      refine ⟨hskip, fun id c hid hc => ih hle (fun _ => hid) hc, ?_⟩
      intro id c stop ts log hid hc ho
      have hcall : g.outcome left .skipping id c = .matched stop ts log := ho
      have hkeeps := ih hle (fun _ : Mode.skipping = .skipping => hid) hc
      rw [hcall] at hkeeps
      exact .ofMatch (.inl hid) hkeeps.2.1
    have hplain (rule : Option RuleId) :
        (g.frame (g.outcome left) .plain rule).Keeps text (Tree.Traced g limit text)
          fun _ => True := by
      refine ⟨fun c hc => ?_, fun id c _ hc => ih hle (by simp) hc, ?_⟩
      · exact skipOutcome_keeps (fun body hbody x hx => .body hbody hx)
          (hskipping fun _ => Outcome.keeps_stay) .plain hc
      · intro id c stop ts log _ hc ho
        have hcall : g.outcome left .plain id c = .matched stop ts log := ho
        have hkeeps : (g.outcome left .plain id c).Keeps text (Tree.Traced g limit text) :=
          ih hle (by simp) hc
        rw [hcall] at hkeeps
        exact .ofMatch (.inr ⟨left, hle, c, stop, ts, log, hc, by simpa using hcall, by simp⟩)
          hkeeps.2.1
    rw [outcome]
    split
    · exact Outcome.keeps_failed_nil
    · next r hr =>
      cases mode with
      | plain => exact Expr.outcome_keeps (hplain (some id)) r.body (fun _ _ => trivial) false hc
      | skipping =>
        exact Expr.outcome_keeps (hskipping fun _ => Outcome.keeps_stay) r.body
          (fun x hx => .rule (hid rfl) hr hx) false hc

end Grammar

/-- A tree that a parse returns is traced, its root included. -/
theorem Parser.parse_traced {p : Parser} {source : Source} {t : Tree}
    (h : p.parse source = .ok t) : t.Traced p.grammar p.maxDepth source.text.toList := by
  obtain ⟨entry, -, stop, captures, log, hout, rfl⟩ := Parser.exists_entry_of_parse h
  have hon : Cursor.On source.text.toList (.start source.text.toList) := .refl _
  have hkeeps : (p.grammar.outcome p.maxDepth .plain entry (.start source.text.toList)).Keeps
      source.text.toList (Tree.Traced p.grammar p.maxDepth source.text.toList) :=
    p.grammar.outcome_traced (Nat.le_refl p.maxDepth) (by simp) hon
  rw [hout] at hkeeps
  refine .ofMatch (.inr ?_) hkeeps.2.1
  exact ⟨p.maxDepth, Nat.le_refl _, _, stop, captures, log, hon, by simpa using hout, by simp⟩

theorem Cursor.shift_start (c : Cursor) : (Cursor.start c.rest).shift c.offset = c := by
  simp [Cursor.shift, Cursor.start]

/-- A call does at the beginning of what is ahead what it does here. -/
theorem Grammar.outcome_start {g : Grammar} {left : Nat} {mode : Mode} {id : RuleId}
    {c stop : Cursor} {ts : List Tree} {log : List Miss}
    (h : g.outcome left mode id c = .matched stop ts log) :
    ∃ stop' ts' log', g.outcome left mode id (.start c.rest) = .matched stop' ts' log' ∧
      stop'.shift c.offset = stop ∧ shiftAll c.offset ts' = ts := by
  have hshift := g.outcome_shift c.offset left mode id (.start c.rest)
  rw [c.shift_start, h] at hshift
  cases ho : g.outcome left mode id (.start c.rest) with
  | overflow o | failed log' => simp [ho, Outcome.shift] at hshift
  | matched stop' ts' log' =>
    simp only [ho, Outcome.shift, Outcome.matched.injEq] at hshift
    exact ⟨stop', ts', log', rfl, hshift.1.symm, hshift.2.1.symm⟩

/-- The same parser with one entry, which need not match the whole text. -/
def Parser.only (p : Parser) (entry : RuleId) : Parser :=
  { p with entries := [entry], full := false }

/-- A parse with one entry that need not match the whole text returns the node of what its rule
matches. -/
theorem Parser.parse_only {p : Parser} {entry : RuleId} {text : List Char} {stop : Cursor}
    {ts : List Tree} {log : List Miss}
    (h : p.grammar.outcome p.maxDepth .plain entry (.start text) = .matched stop ts log)
    (name : String) :
    (p.only entry).parse ⟨name, String.ofList text⟩ =
      .ok (Tree.ofMatch entry (.start text) stop ts) := by
  have houtcome : (p.only entry).textOutcome ((p.only entry).grammar.outcome (p.only entry).maxDepth)
      text = .matched stop [Tree.ofMatch entry (.start text) stop ts] log := by
    simp [only, textOutcome, entriesOutcome, entryOutcome, h, Outcome.captured, Outcome.orElse]
  have hanswer := (p.only entry).parse_eq ⟨name, String.ofList text⟩
  simp only [String.toList_ofList, houtcome, Answers] at hanswer
  obtain ⟨t, ht, hparse⟩ := hanswer
  rw [hparse, List.singleton_inj.mp ht]

/-- Every node of a tree that a parse returns, but for nodes of rules that the skip rule can call, comes
of the text from its beginning on alone: a parse with this rule as the only entry, which need not match
the whole text, returns it for that text, with offsets counted from where the node begins. -/
theorem parse_reproduces_node {p : Parser} {source : Source} {t node : Tree} {path : List Nat}
    (ht : p.parse source = .ok t) (hnode : t.descend? path = some node)
    (hskip : ¬ p.grammar.SkipReaches node.rule) (name : String) :
    ∃ u, (p.only node.rule).parse
        ⟨name, String.ofList (dropBytes node.span.start source.text.toList)⟩ = .ok u ∧
      u.shift node.span.start = node := by
  obtain ⟨left, hleft, c, stop, ts, log, hc, ho, heq⟩ :=
    (Parser.parse_traced ht path node hnode).resolve_left hskip
  have hstart : node.span.start = c.offset := by rw [heq, Tree.span_ofMatch]
  obtain ⟨stop', ts', log', ho', rfl, rfl⟩ := Grammar.outcome_start ho
  -- the entry has all calls left that the limit allows
  have hall : p.grammar.outcome p.maxDepth .plain node.rule (.start c.rest) =
      .matched stop' ts' log' := by
    rw [← ho']
    exact p.grammar.outcome_kept hleft .plain node.rule (.start c.rest)
      (ho' ▸ Outcome.safe_matched _ _ _)
  refine ⟨Tree.ofMatch node.rule (.start c.rest) stop' ts', ?_, ?_⟩
  · rw [hstart, hc.dropBytes_offset]
    exact Parser.parse_only hall name
  · rw [hstart, ← Tree.ofMatch_shift, c.shift_start]
    exact heq.symm

/-- Letters in a row, with blanks in between. -/
def rowParser : Parser where
  grammar :=
    { rules := [⟨"row", .repetition (.capture 1), ⟨8, 11⟩⟩, ⟨"cell", .literal "b", ⟨22, 26⟩⟩]
      skip := some (.repetition (.literal " ")) }
  entries := [0]
  full := true
  maxDepth := defaultMaxDepth

/-- The second letter of `b b` alone. -/
theorem parse_reproduces_node_row :
    ∃ u, (rowParser.only 1).parse ⟨"cell", String.ofList (dropBytes 2 "b b".toList)⟩ = .ok u ∧
      u.shift 2 = .leaf 1 ⟨2, 3⟩ "b" := by
  have hparse : rowParser.parse ⟨"input", "b b"⟩ =
      .ok (.branch 0 ⟨0, 3⟩ [.leaf 1 ⟨0, 1⟩ "b", .leaf 1 ⟨2, 3⟩ "b"]) :=
    toOption_eq_some_iff.mp (by decide +kernel)
  have hskip : ¬ rowParser.grammar.SkipReaches 1 := by
    refine Grammar.not_skipReaches (fun e he => ?_) 1
    cases he
    rfl
  have hnode : (Tree.branch 0 ⟨0, 3⟩ [.leaf 1 ⟨0, 1⟩ "b", .leaf 1 ⟨2, 3⟩ "b"]).descend? [1] =
      some (.leaf 1 ⟨2, 3⟩ "b") := rfl
  exact parse_reproduces_node hparse hnode hskip "cell"

end PegTree
