import PegTree.Proofs.Match.Exactness
import PegTree.Proofs.Parser.Build
import PegTree.Proofs.Parser.Outcome
import PegTree.Proofs.Tree.Equality

/-!
# Trees are well formed

A node covers a range of the text.  A leaf holds the text of its range; a branch has children, which
lie inside its range one behind the other and stand for rules that some body captures.

What a match captures lies between its two ends (`Laid`), because captures of one part are laid behind
those of the part before, whichever branches were tried and given up in between.  From this every tree
that a parse returns is well formed (`parse_wellFormed`).
-/

namespace PegTree

/-- A range of a text, and what stands there. -/
def Span.Covers (s : Span) (text value : List Char) : Prop :=
  ∃ before behind, text = before ++ value ++ behind ∧
    s.start = utf8Width before ∧ s.stop = utf8Width (before ++ value)

theorem Span.Covers.start_le_stop {s : Span} {text value : List Char} (h : s.Covers text value) :
    s.start ≤ s.stop := by
  obtain ⟨before, behind, -, hstart, hstop⟩ := h
  rw [hstart, hstop, utf8Width_append]
  omega

theorem Span.Covers.stop_le {s : Span} {text value : List Char} (h : s.Covers text value) :
    s.stop ≤ utf8Width text := by
  obtain ⟨before, behind, rfl, -, hstop⟩ := h
  rw [hstop, utf8Width_append (before ++ value)]
  omega

/-- A well-formed tree over a text: ranges and values are those of the text, and below the root stand
only rules that the grammar captures. -/
inductive Tree.WellFormed (g : Grammar) (text : List Char) : Tree → Prop
  | leaf {rule : RuleId} {span : Span} {value : List Char} :
      span.Covers text value → WellFormed g text (.leaf rule span (String.ofList value))
  | branch {rule : RuleId} {span : Span} {children : List Tree} {value : List Char} :
      span.Covers text value → children ≠ [] →
      (∀ t ∈ children, span.start ≤ t.span.start ∧ t.span.stop ≤ span.stop) →
      children.Pairwise (fun t u => t.span.stop ≤ u.span.start) →
      (∀ t ∈ children, g.Captures t.rule) →
      (∀ t ∈ children, WellFormed g text t) →
      WellFormed g text (.branch rule span children)

theorem Tree.WellFormed.stop_le {g : Grammar} {text : List Char} {t : Tree}
    (h : t.WellFormed g text) : t.span.stop ≤ utf8Width text := by
  cases h with
  | leaf hcovers => exact hcovers.stop_le
  | branch hcovers => exact hcovers.stop_le

/-! ## What is captured between two places -/

/-- Trees that lie one behind the other between two offsets, well formed and captured by the
grammar. -/
structure Laid (g : Grammar) (text : List Char) (start stop : Nat) (ts : List Tree) : Prop where
  inside : ∀ t ∈ ts, start ≤ t.span.start ∧ t.span.stop ≤ stop
  ordered : ts.Pairwise fun t u => t.span.stop ≤ u.span.start
  captured : ∀ t ∈ ts, g.Captures t.rule
  wellFormed : ∀ t ∈ ts, t.WellFormed g text

namespace Laid

variable {g : Grammar} {text : List Char} {start middle stop : Nat} {ts us : List Tree}

theorem nil : Laid g text start stop [] :=
  ⟨by simp, by simp, by simp, by simp⟩

theorem append (hle : start ≤ middle) (hle' : middle ≤ stop) (h : Laid g text start middle ts)
    (h' : Laid g text middle stop us) : Laid g text start stop (ts ++ us) where
  inside t ht := by
    rcases List.mem_append.mp ht with ht | ht
    · have := h.inside t ht
      omega
    · have := h'.inside t ht
      omega
  ordered := by
    refine List.pairwise_append.mpr ⟨h.ordered, h'.ordered, fun t ht u hu => ?_⟩
    exact Nat.le_trans (h.inside t ht).2 (h'.inside u hu).1
  captured t ht := (List.mem_append.mp ht).elim (h.captured t) (h'.captured t)
  wellFormed t ht := (List.mem_append.mp ht).elim (h.wellFormed t) (h'.wellFormed t)

theorem singleton {t : Tree} (hstart : start ≤ t.span.start) (hstop : t.span.stop ≤ stop)
    (hg : g.Captures t.rule) (ht : t.WellFormed g text) : Laid g text start stop [t] :=
  ⟨by simpa using ⟨hstart, hstop⟩, by simp, by simpa using hg, by simpa using ht⟩

end Laid

theorem Cursor.On.covers {text value : List Char} {c stop : Cursor} (hc : c.On text)
    (h : c.Reads value stop) : Span.Covers ⟨c.offset, stop.offset⟩ text value := by
  obtain ⟨before, hrest, hoff⟩ := hc
  refine ⟨before, stop.rest, ?_, ?_, ?_⟩
  · rw [List.append_assoc, ← h.1]
    exact hrest
  · simpa [Cursor.start] using hoff
  · rw [h.2, hoff, utf8Width_append]
    simp [Cursor.start]

/-- Whether every capture in an expression is one of the grammar's. -/
def Expr.Of (g : Grammar) (e : Expr) : Prop :=
  ∀ x ∈ e.mentions, x.captured = true → g.Captures x.rule

theorem Grammar.body_of {g : Grammar} {e : Expr} (h : e ∈ g.bodies) : e.Of g := by
  rintro ⟨id, captured⟩ hx rfl
  exact ⟨e, h, hx⟩

theorem Expr.of_rule (g : Grammar) (id : RuleId) : (Expr.rule id).Of g := by
  simp [Expr.Of, Expr.mentions]

theorem Expr.of_capture {g : Grammar} {id : RuleId} : (Expr.capture id).Of g ↔ g.Captures id := by
  simp [Expr.Of, Expr.mentions]

theorem Expr.of_sequence_cons {g : Grammar} {t : Term} {terms : List Term} :
    (Expr.sequence (t :: terms)).Of g ↔ t.expr.Of g ∧ (Expr.sequence terms).Of g := by
  cases t
  simp only [Expr.Of, Expr.mentions, mentionsOfTerms, List.mem_append, or_imp, forall_and]

theorem Expr.of_choice_cons {g : Grammar} {e : Expr} {alternatives : List Expr} :
    (Expr.choice (e :: alternatives)).Of g ↔ e.Of g ∧ (Expr.choice alternatives).Of g := by
  simp only [Expr.Of, Expr.mentions, mentionsOfAll, List.mem_append, or_imp, forall_and]

/-- What a verdict has captured from a place on is laid out up to where it stops. -/
def Verdict.LaidFrom (g : Grammar) (text : List Char) (c : Cursor) : Verdict → Prop
  | fail => True
  | hit stop ts => Laid g text c.offset stop.offset ts

theorem Verdict.LaidFrom.after {g : Grammar} {text : List Char} {c next : Cursor} {ts : List Tree}
    {v : Verdict} (hnext : c.Reaches next) (hts : (hit next ts).LaidFrom g text c)
    (hv : v.Reached next) (h : v.LaidFrom g text next) : (v.after ts).LaidFrom g text c := by
  cases v with
  | fail => trivial
  | hit stop us => exact .append hnext.offset_le (Cursor.Reaches.offset_le hv) hts h

/-- A match that becomes a node. -/
theorem Tree.wellFormed_ofMatch {g : Grammar} {text : List Char} {c stop : Cursor} {ts : List Tree}
    (rule : RuleId) (hc : c.On text) (hstop : c.Reaches stop)
    (h : Laid g text c.offset stop.offset ts) :
    (Tree.ofMatch rule c stop ts).WellFormed g text := by
  obtain ⟨value, hvalue⟩ := hstop
  cases ts with
  | nil =>
    rw [Tree.ofMatch, hvalue.textTo]
    exact .leaf (hc.covers hvalue)
  | cons t ts =>
    exact .branch (hc.covers hvalue) (by simp) h.inside h.ordered h.captured h.wellFormed

@[simp]
theorem Tree.rule_ofMatch (rule : RuleId) (c stop : Cursor) (ts : List Tree) :
    (Tree.ofMatch rule c stop ts).rule = rule := by
  cases ts <;> rfl

@[simp]
theorem Tree.span_ofMatch (rule : RuleId) (c stop : Cursor) (ts : List Tree) :
    (Tree.ofMatch rule c stop ts).span = ⟨c.offset, stop.offset⟩ := by
  cases ts <;> rfl

theorem Laid.ofMatch {g : Grammar} {text : List Char} {c stop : Cursor} {ts : List Tree}
    {rule : RuleId} (hg : g.Captures rule) (hc : c.On text) (hstop : c.Reaches stop)
    (h : Laid g text c.offset stop.offset ts) :
    Laid g text c.offset stop.offset [Tree.ofMatch rule c stop ts] :=
  .singleton (by simp) (by simp) (by simpa using hg) (Tree.wellFormed_ofMatch rule hc hstop h)

/-- What an expression of a grammar captures is laid out between the ends of its match. -/
theorem Matches.laidFrom {g : Grammar} {text : List Char} {mode : Mode} {lead : Bool} {e : Expr}
    {c : Cursor} {v : Verdict} (h : Matches g mode lead e c v) (he : e.Of g) (hc : c.On text) :
    v.LaidFrom g text c := by
  -- captures of the parts lie one behind the other; a capture of its own covers those of its rule
  induction h with
  | empty | literal | range | endOfInput | sequence_nil | repetition_fail | repetition_idle
  | optional_fail | negation_hit => exact .nil
  | literal_fail | range_fail | endOfInput_fail | capture_fail | sequence_fail | choice_nil
  | negation_fail => trivial
  | rule hr _ ih => exact ih (Grammar.body_of (Grammar.body_mem_bodies hr)) hc
  | capture_leaf hrule ht ih =>
    have hleaf := Laid.ofMatch (Expr.of_capture.mp he) hc hrule.reaches (ih (Expr.of_rule g _) hc)
    rwa [Tree.ofMatch, ht.textTo] at hleaf
  | capture_branch hrule ih =>
    exact Laid.ofMatch (Expr.of_capture.mp he) hc hrule.reaches (ih (Expr.of_rule g _) hc)
  | lead_unskipped _ _ _ ih => exact ih he hc
  | lead_failed _ _ _ _ _ ih => exact ih he hc
  | lead_skipped _ hg hs hv ihs ih =>
    have hskip := Grammar.body_of (Grammar.skip_mem_bodies hg)
    exact .after hs.reaches (ihs hskip hc) hv.reached (ih he (hc.trans hs.reaches))
  | sequence_cons ht hv iht ih =>
    rw [Expr.of_sequence_cons] at he
    exact .after ht.reaches (iht he.1 hc) hv.reached (ih he.2 (hc.trans ht.reaches))
  | choice_first _ ih => exact ih (Expr.of_choice_cons.mp he).1 hc
  | choice_next _ _ _ ih => exact ih (Expr.of_choice_cons.mp he).2 hc
  | repetition_again hb _ hv ihb ih =>
    exact .after hb.reaches (ihb he hc) hv.reached (ih he (hc.trans hb.reaches))
  | optional_hit _ ih => exact ih he hc

/-! ## Parsing -/

/-- What a parse returns is the node of what an entry matches. -/
theorem Builder.matches_of_parse {b : Builder} {p : Parser} {source : Source} {t : Tree}
    (hp : b.build = .ok p) (ht : p.parse source = .ok t) :
    ∃ entry ∈ p.entries, ∃ stop captures,
      Matches p.grammar .plain false (.rule entry) (.start source.text.toList) (.hit stop captures) ∧
      t = Tree.ofMatch entry (.start source.text.toList) stop captures := by
  obtain ⟨hcompile, -, hentries, -⟩ := Builder.build_eq_ok hp
  have hresolved := Grammar.resolved_of_compile hcompile
  obtain ⟨entry, hentry, stop, captures, log, hout, htree⟩ := Parser.exists_entry_of_parse ht
  have hmatches : Matches p.grammar .plain false (.rule entry) (.start source.text.toList)
      (.hit stop captures) :=
    Grammar.outcome_matches hresolved p.maxDepth (Builder.lt_of_resolveEntries hentries _ hentry)
      (by rw [hout]; rfl)
  exact ⟨entry, hentry, stop, captures, hmatches, htree⟩

/-- The root of what a parse returns stands for an entry and begins where the text begins; it and all
nodes below are well formed. -/
theorem parse_wellFormed {b : Builder} {p : Parser} {source : Source} {t : Tree}
    (hp : b.build = .ok p) (ht : p.parse source = .ok t) :
    t.rule ∈ p.entries ∧ t.span.start = 0 ∧ t.span.stop ≤ utf8Width source.text.toList ∧
      t.WellFormed p.grammar source.text.toList := by
  obtain ⟨entry, hentry, stop, captures, hmatches, rfl⟩ := Builder.matches_of_parse hp ht
  have hon : Cursor.On source.text.toList (.start source.text.toList) := .refl _
  have hwell := Tree.wellFormed_ofMatch entry hon hmatches.reaches
    (hmatches.laidFrom (Expr.of_rule _ _) hon)
  refine ⟨by simpa using hentry, by simp [Cursor.start], hwell.stop_le, hwell⟩

/-- The node of `b` is below the only entry and inside its range. -/
theorem parse_wellFormed_pair :
    (Tree.branch 0 ⟨0, 3⟩ [.leaf 1 ⟨0, 1⟩ "b"]).rule ∈ pairParser.entries ∧
      (Tree.branch 0 ⟨0, 3⟩ [.leaf 1 ⟨0, 1⟩ "b"]).span.start = 0 ∧
      (Tree.branch 0 ⟨0, 3⟩ [.leaf 1 ⟨0, 1⟩ "b"]).span.stop ≤ utf8Width "b y ".toList ∧
      (Tree.branch 0 ⟨0, 3⟩ [.leaf 1 ⟨0, 1⟩ "b"]).WellFormed pairParser.grammar "b y ".toList := by
  have hparse : pairParser.parse ⟨"input", "b y "⟩ =
      .ok (.branch 0 ⟨0, 3⟩ [.leaf 1 ⟨0, 1⟩ "b"]) :=
    toOption_eq_some_iff.mp (by decide +kernel)
  exact parse_wellFormed build_pairBuilder hparse

end PegTree
