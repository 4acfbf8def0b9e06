import PegTree.Parser.Basic
import PegTree.Proofs.Grammar.Equality
import PegTree.Proofs.Grammar.Resolved

/-!
# Built parsers

A parser that was built has the grammar of its text, and its entries are rules of that grammar.
-/

namespace PegTree

namespace Builder

/-- The ids of entry rules are those of rules that are there. -/
theorem lt_of_resolveEntries {g : Grammar} {names : List String} {ids : List RuleId}
    (h : resolveEntries g names = .ok ids) : ∀ id ∈ ids, id < g.size := by
  induction names generalizing ids with
  | nil =>
    cases h
    simp
  | cons name more ih =>
    rw [resolveEntries] at h
    split at h
    · cases h
    · next id hid =>
      obtain ⟨others, hothers, rfl⟩ := map_eq_ok_iff.mp h
      have hlt : id < g.size := (List.findIdx?_eq_some_iff_getElem.mp hid).1
      simpa using ⟨hlt, ih hothers⟩

/-- The names of the rules that ids stand for. -/
theorem names_of_resolveEntries {g : Grammar} {names : List String} {ids : List RuleId}
    (h : resolveEntries g names = .ok ids) :
    ids.map (fun id => g.rules[id]?.map Rule.name) = names.map some := by
  induction names generalizing ids with
  | nil =>
    cases h
    rfl
  | cons name more ih =>
    rw [resolveEntries] at h
    split at h
    · cases h
    · next id hid =>
      obtain ⟨others, hothers, rfl⟩ := map_eq_ok_iff.mp h
      obtain ⟨hlt, hname, -⟩ := List.findIdx?_eq_some_iff_getElem.mp hid
      rw [List.map_cons, List.map_cons, ih hothers, List.getElem?_eq_getElem hlt, Option.map_some,
        eq_of_beq hname]

theorem ruleId?_eq_none_iff {g : Grammar} {name : String} :
    g.ruleId? name = none ↔ name ∉ g.rules.map Rule.name := by
  simp [Grammar.ruleId?]

/-- The first entry rule that is not defined is reported. -/
theorem fault?_resolveEntries (g : Grammar) (names : List String) :
    fault? (resolveEntries g names) =
      (names.find? (· ∉ g.rules.map Rule.name)).map GrammarError.unknownEntry := by
  induction names with
  | nil => rfl
  | cons name more ih =>
    rw [resolveEntries]
    cases hid : g.ruleId? name with
    | none =>
      have hno := ruleId?_eq_none_iff.mp hid
      rw [List.find?_cons_of_pos (by simpa using hno)]
      rfl
    | some id =>
      have hin : name ∈ g.rules.map Rule.name := by
        refine Decidable.byContradiction fun hno => ?_
        rw [ruleId?_eq_none_iff.mpr hno] at hid
        cases hid
      rw [List.find?_cons_of_neg (by simpa using hin), ← ih]
      exact fault?_map _ _

theorem build_of_refused {b : Builder} {e : GrammarError} (h : Grammar.compile b.source = .error e) :
    b.build = .error e := by
  rw [build, h]
  rfl

theorem build_of_compile {b : Builder} {g : Grammar} (h : Grammar.compile b.source = .ok g) :
    b.build = if b.entries.isEmpty then .error .noEntry
      else (⟨g, ·, b.full, b.maxDepth⟩) <$> resolveEntries g b.entries := by
  simp only [build, h, bind, Except.bind]
  split
  · rfl
  · cases resolveEntries g b.entries <;> rfl

/-- How a parser is built. -/
theorem build_eq_ok {b : Builder} {p : Parser} (h : b.build = .ok p) :
    Grammar.compile b.source = .ok p.grammar ∧ b.entries ≠ [] ∧
      resolveEntries p.grammar b.entries = .ok p.entries ∧ p.full = b.full ∧
      p.maxDepth = b.maxDepth := by
  obtain ⟨g, hg, h⟩ := bind_eq_ok_iff.mp h
  split at h
  · cases h
  · next hne =>
    obtain ⟨ids, hids, h⟩ := bind_eq_ok_iff.mp h
    cases h
    exact ⟨hg, by simpa using hne, hids, rfl, rfl⟩

end Builder

deriving instance DecidableEq for Parser

/-- A parser for `pairText`. -/
def pairParser : Parser :=
  ⟨pairGrammar, [0], true, defaultMaxDepth⟩

/-- The description of `pairParser`. -/
def pairBuilder : Builder where
  text := pairText.text
  sourceName := pairText.name
  entries := ["a"]
  full := true

theorem build_pairBuilder : pairBuilder.build = .ok pairParser :=
  toOption_eq_some_iff.mp (by decide +kernel)

end PegTree
