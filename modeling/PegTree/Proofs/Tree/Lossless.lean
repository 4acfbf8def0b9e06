import Mathlib.Logic.Relation
import PegTree.Proofs.Tree.Leaves
import PegTree.Proofs.Tree.WellFormed

/-!
# Trees that keep the whole text

Text is lost where a terminal is matched beside a capture: a branch holds the nodes captured inside it,
and the text between them nowhere.  A rule loses nothing if it captures nothing, so that its node is a
leaf, or if all text it matches is matched inside captures.  What counts are the parts an expression runs
in its own place (`Grammar.Exposes`): those outside lookaheads, which neither consume nor capture, behind
plain references but behind no capture.

If nothing is skipped and this holds of every rule that is captured on the way down, the texts of the
leaves are, one behind the other, the whole match (`leaves_spell_match`).
-/

namespace PegTree

/-! ## Exposed parts -/

/-- The terminals, references and captures that an expression may run outside lookaheads and outside
captures. -/
inductive Grammar.Exposes (g : Grammar) : Expr → Expr → Prop
  | here {e} : e.TakesSkip → Exposes g e e
  | rule {id r x} : g.rules[id]? = some r → Exposes g r.body x → Exposes g (.rule id) x
  | element {t terms x} : t ∈ terms → Exposes g t.expr x → Exposes g (.sequence terms) x
  | alternative {e alternatives x} :
      e ∈ alternatives → Exposes g e x → Exposes g (.choice alternatives) x
  | repetition {body x} : Exposes g body x → Exposes g (.repetition body) x
  | optional {body x} : Exposes g body x → Exposes g (.optional body) x

theorem Grammar.Exposes.behind {g : Grammar} {t : Term} {terms : List Term} {x : Expr}
    (h : g.Exposes (.sequence terms) x) : g.Exposes (.sequence (t :: terms)) x := by
  cases h with
  | here h => exact h.elim
  | element ht h => exact .element (List.mem_cons_of_mem _ ht) h

theorem Grammar.Exposes.otherwise {g : Grammar} {e : Expr} {alternatives : List Expr} {x : Expr}
    (h : g.Exposes (.choice alternatives) x) : g.Exposes (.choice (e :: alternatives)) x := by
  cases h with
  | here h => exact h.elim
  | alternative he h => exact .alternative (List.mem_cons_of_mem _ he) h

/-- Expressions that capture nothing. -/
def Expr.CaptureFree (g : Grammar) (e : Expr) : Prop :=
  ∀ id, ¬ g.Exposes e (.capture id)

/-- Expressions that match text inside captures only. -/
def Expr.Covered (g : Grammar) (e : Expr) : Prop :=
  (∀ text, g.Exposes e (.literal text) → text = "") ∧ ∀ low high, ¬ g.Exposes e (.range low high)

/-- The way down through captures: a rule itself, the rules it captures, those they capture, and so on. -/
def Grammar.CapturedBelow (g : Grammar) : RuleId → RuleId → Prop :=
  Relation.ReflTransGen fun id inner => g.Exposes (.rule id) (.capture inner)

/-- Rules that lose no text, and capture only such rules. -/
def Grammar.Lossless (g : Grammar) (id : RuleId) : Prop :=
  ∀ inner, g.CapturedBelow id inner → (Expr.rule inner).CaptureFree g ∨ (Expr.rule inner).Covered g

/-- Expressions that match text inside captures only, of rules that lose none. -/
structure Expr.KeepsText (g : Grammar) (e : Expr) : Prop where
  covered : e.Covered g
  captures : ∀ id, g.Exposes e (.capture id) → g.Lossless id

section

variable {g : Grammar} {e e' : Expr}

theorem Expr.CaptureFree.part (h : e.CaptureFree g)
    (hpart : ∀ x, g.Exposes e' x → g.Exposes e x) : e'.CaptureFree g :=
  fun id hid => h id (hpart _ hid)

theorem Expr.KeepsText.part (h : e.KeepsText g) (hpart : ∀ x, g.Exposes e' x → g.Exposes e x) :
    e'.KeepsText g where
  covered := ⟨fun text ht => h.covered.1 text (hpart _ ht),
    fun low high hr => h.covered.2 low high (hpart _ hr)⟩
  captures id hid := h.captures id (hpart _ hid)

/-- A lossless rule that is covered keeps its text, since what it captures is lossless as well. -/
theorem Grammar.Lossless.keepsText {id : RuleId} (h : g.Lossless id)
    (hcovered : (Expr.rule id).Covered g) : (Expr.rule id).KeepsText g where
  covered := hcovered
  captures _ hcapture inner hinner := h inner (.head hcapture hinner)

/-- A capture hides what its rule matches. -/
theorem Grammar.Lossless.keepsText_capture {id : RuleId} (h : g.Lossless id) :
    (Expr.capture id).KeepsText g where
  covered := ⟨fun _ ht => (nomatch ht), fun _ _ hr => (nomatch hr)⟩
  captures inner hinner := by
    cases hinner with
    | here => exact h

end

/-! ## Matches -/

section

variable {g : Grammar} {mode : Mode} {lead : Bool} {e : Expr} {c : Cursor}

/-- A verdict without captures. -/
def Verdict.Bare : Verdict → Prop
  | fail => True
  | hit _ ts => ts = []

theorem Verdict.Bare.after {ts : List Tree} {v : Verdict} (hts : ts = []) (hv : v.Bare) :
    (v.after ts).Bare := by
  subst hts
  rwa [Verdict.after_nil]

/-- Where no capture is exposed nothing is captured. -/
theorem Matches.bare {v : Verdict} (h : Matches g mode lead e c v) (hskip : g.skip = none)
    (he : e.CaptureFree g) : v.Bare := by
  induction h with
  | empty | literal | range | endOfInput | sequence_nil | repetition_fail | repetition_idle
  | optional_fail | negation_hit => rfl
  | literal_fail | range_fail | endOfInput_fail | capture_fail | sequence_fail | choice_nil
  | negation_fail => trivial
  | rule hr _ ih => exact ih (he.part fun _ => .rule hr)
  | capture_leaf | capture_branch => exact absurd (.here trivial) (he _)
  | lead_unskipped _ _ _ ih => exact ih he
  | lead_skipped _ hg | lead_failed _ hg => cases hskip.symm.trans hg
  | sequence_cons _ _ iht ih =>
    exact .after (iht (he.part fun _ => .element List.mem_cons_self))
      (ih (he.part fun _ => .behind))
  | choice_first _ ih => exact ih (he.part fun _ => .alternative List.mem_cons_self)
  | choice_next _ _ _ ih => exact ih (he.part fun _ => .otherwise)
  | repetition_again _ _ _ ihb ih => exact .after (ihb (he.part fun _ => .repetition)) (ih he)
  | optional_hit _ ih => exact ih (he.part fun _ => .optional)

/-- The captures spell all the text that is matched from a place on. -/
def Verdict.SpelledFrom (c : Cursor) : Verdict → Prop
  | fail => True
  | hit stop ts => c.Reads (Tree.spelled ts) stop

theorem Verdict.spelledFrom_stay : (hit c []).SpelledFrom c := by
  show c.Reads (Tree.spelled []) c
  rw [Tree.spelled_nil]
  exact .refl c

theorem Verdict.SpelledFrom.after {next : Cursor} {ts : List Tree} {v : Verdict}
    (hts : (hit next ts).SpelledFrom c) (hv : v.SpelledFrom next) : (v.after ts).SpelledFrom c := by
  cases v with
  | fail => trivial
  | hit stop us =>
    show c.Reads (Tree.spelled (ts ++ us)) stop
    rw [Tree.spelled_append]
    exact Cursor.Reads.append hts hv

/-- Where text is matched inside captures only, of rules that lose none, the captures spell the match. -/
theorem Matches.spelledFrom {v : Verdict} (h : Matches g mode lead e c v) (hskip : g.skip = none)
    (he : e.KeepsText g) : v.SpelledFrom c := by
  induction h with
  | empty | endOfInput | sequence_nil | repetition_fail | repetition_idle | optional_fail
  | negation_hit => exact Verdict.spelledFrom_stay
  | literal_fail | range_fail | endOfInput_fail | capture_fail | sequence_fail | choice_nil
  | negation_fail => trivial
  | @literal mode text c stop ht =>
    show c.Reads (Tree.spelled []) stop
    rw [he.covered.1 text (.here trivial)] at ht
    rwa [Tree.spelled_nil]
  | range => exact absurd (.here trivial) (he.covered.2 _ _)
  | rule hr _ ih => exact ih (he.part fun _ => .rule hr)
  | @capture_leaf mode id c stop text _ ht =>
    show c.Reads (Tree.spelled [.leaf id _ (String.ofList text)]) stop
    rwa [Tree.spelled_leaf, String.toList_ofList]
  | @capture_branch mode id c stop t ts hrule ih =>
    show c.Reads (Tree.spelled [.branch id _ (t :: ts)]) stop
    rw [Tree.spelled_branch]
    -- a rule that captures something is not free of captures, so it is covered
    have hlossless := he.captures id (.here trivial)
    rcases hlossless id .refl with hfree | hcovered
    · cases hrule.bare hskip hfree
    · exact ih (hlossless.keepsText hcovered)
  | lead_unskipped _ _ _ ih => exact ih he
  | lead_skipped _ hg | lead_failed _ hg => cases hskip.symm.trans hg
  | sequence_cons _ _ iht ih =>
    exact .after (iht (he.part fun _ => .element List.mem_cons_self))
      (ih (he.part fun _ => .behind))
  | choice_first _ ih => exact ih (he.part fun _ => .alternative List.mem_cons_self)
  | choice_next _ _ _ ih => exact ih (he.part fun _ => .otherwise)
  | repetition_again _ _ _ ihb ih => exact .after (ihb (he.part fun _ => .repetition)) (ih he)
  | optional_hit _ ih => exact ih (he.part fun _ => .optional)

end

/-! ## Parses -/

/-- If nothing is skipped, and neither the rule of the root nor any that is captured on the way down loses
text, the texts of the leaves are, one behind the other, the text that the root covers. -/
theorem leaves_spell_match {b : Builder} {p : Parser} {source : Source} {t : Tree}
    (hp : b.build = .ok p) (hskip : p.grammar.skip = none) (ht : p.parse source = .ok t)
    (hlossless : p.grammar.Lossless t.rule) :
    t.span.start = 0 ∧
      String.join (t.leaves.filterMap Tree.value?) =
        String.ofList (takeBytes t.span.stop source.text.toList) := by
  obtain ⟨entry, -, stop, captures, hmatches, rfl⟩ := Builder.matches_of_parse hp ht
  rw [Tree.rule_ofMatch] at hlossless
  have hspelled : Cursor.Reads (.start source.text.toList)
      (Tree.spelled [.ofMatch entry (.start source.text.toList) stop captures]) stop :=
    hmatches.capture.spelledFrom hskip hlossless.keepsText_capture
  refine ⟨by simp [Cursor.start], String.toList_inj.mp ?_⟩
  rw [String.toList_join, String.toList_ofList, Tree.span_ofMatch]
  exact hspelled.textTo.symm

/-- A parser that captures every character. -/
def characterBuilder : Builder where
  text := "text = \x7b@ch\x7d; ch = \\x00..$;"
  entries := ["text"]

/-- What `characterBuilder` builds. -/
def characterParser : Parser where
  grammar :=
    { rules := [⟨"text", .repetition (.capture 1), ⟨0, 4⟩⟩, ⟨"ch", .range '\x00' highestChar, ⟨14, 16⟩⟩]
      skip := none }
  entries := [0]
  full := false
  maxDepth := defaultMaxDepth

/-- The characters of a short text, one of them wider than a byte. -/
theorem leaves_spell_match_character :
    characterBuilder.build = .ok characterParser ∧ characterParser.grammar.skip = none ∧
      characterParser.parse ⟨"input", "hé"⟩ =
        .ok (.branch 0 ⟨0, 3⟩ [.leaf 1 ⟨0, 1⟩ "h", .leaf 1 ⟨1, 3⟩ "é"]) ∧
      characterParser.grammar.Lossless 0 ∧
      String.join ((Tree.branch 0 ⟨0, 3⟩
        [.leaf 1 ⟨0, 1⟩ "h", .leaf 1 ⟨1, 3⟩ "é"]).leaves.filterMap Tree.value?) =
          String.ofList (takeBytes 3 "hé".toList) := by
  have hbuild : characterBuilder.build = .ok characterParser :=
    toOption_eq_some_iff.mp (by decide +kernel)
  have hparse : characterParser.parse ⟨"input", "hé"⟩ =
      .ok (.branch 0 ⟨0, 3⟩ [.leaf 1 ⟨0, 1⟩ "h", .leaf 1 ⟨1, 3⟩ "é"]) :=
    toOption_eq_some_iff.mp (by decide +kernel)
  have hlossless : characterParser.grammar.Lossless 0 := by
    intro inner _
    match inner with
    | 0 =>
      -- the only part is the capture
      have hcapture : ∀ x, characterParser.grammar.Exposes (.rule 0) x → x = .rule 0 ∨ x = .capture 1 := by
        intro x hx
        cases hx with
        | here => exact .inl rfl
        | rule hr hx =>
          cases hr
          cases hx with
          | here h => exact h.elim
          | repetition hx =>
            cases hx
            exact .inr rfl
      exact .inr ⟨fun _ ht => by simpa using hcapture _ ht, fun _ _ hr => by simpa using hcapture _ hr⟩
    | 1 =>
      refine .inl fun id hid => ?_
      cases hid with
      | rule hr hid =>
        cases hr
        cases hid
    | id + 2 =>
      refine .inl fun id hid => ?_
      cases hid with
      | rule hr hid => cases hr
  exact ⟨hbuild, rfl, hparse, hlossless, (leaves_spell_match hbuild rfl hparse hlossless).2⟩

end PegTree
