import Mathlib.Data.List.Basic
import Mathlib.Data.String.Basic
import PegTree.Match.Furthest

/-!
# What the furthest failure is of a log

Noting misses one after the other keeps exactly what is said of the whole log (`Furthest.Sums`): the
largest offset, the expectations at that offset, each once and in ascending order, and the rule of the
first miss there that was inside one.  A log in two parts is summed up by what is known of each part.
-/

namespace PegTree

/-! ## Ascending lists without repeats -/

theorem mem_insertSorted {text other : String} {texts : List String} :
    other ∈ insertSorted text texts ↔ other = text ∨ other ∈ texts := by
  induction texts with
  | nil => simp [insertSorted]
  | cons first more ih =>
    rw [insertSorted]
    split
    · simp
    · split
      · next h => simp [h]
      · simp only [List.mem_cons, ih]
        tauto

theorem pairwise_insertSorted {text : String} {texts : List String}
    (h : texts.Pairwise (· < ·)) : (insertSorted text texts).Pairwise (· < ·) := by
  induction texts with
  | nil => simp [insertSorted]
  | cons first more ih =>
    obtain ⟨hfirst, hmore⟩ := List.pairwise_cons.mp h
    rw [insertSorted]
    split
    · next hlt =>
      refine List.pairwise_cons.mpr ⟨fun other hother => ?_, h⟩
      rcases List.mem_cons.mp hother with rfl | hother
      · exact hlt
      · exact String.lt_trans hlt (hfirst other hother)
    · next hle =>
      split
      · exact h
      · next hne =>
        refine List.pairwise_cons.mpr ⟨fun other hother => ?_, ih hmore⟩
        rcases mem_insertSorted.mp hother with rfl | hother
        · exact Std.lt_of_le_of_ne (String.not_lt.mp hle) (Ne.symm hne)
        · exact hfirst other hother

/-! ## Misses at an offset -/

/-- The rule of the first miss at an offset that was inside one. -/
def firstRuleAt (offset : Nat) (log : List Miss) : Option RuleId :=
  log.findSome? fun miss => if miss.offset = offset then miss.rule else none

theorem firstRuleAt_append (offset : Nat) (log more : List Miss) :
    firstRuleAt offset (log ++ more) = (firstRuleAt offset log <|> firstRuleAt offset more) := by
  simp only [firstRuleAt, List.findSome?_append, Option.orElse_eq_orElse, Option.orElse_eq_or]

theorem firstRuleAt_singleton (offset : Nat) (miss : Miss) :
    firstRuleAt offset [miss] = if miss.offset = offset then miss.rule else none := by
  simp only [firstRuleAt, List.findSome?_cons, List.findSome?_nil]
  split <;> simp_all

/-- A log that has no miss at an offset names no rule there. -/
theorem firstRuleAt_eq_none {offset : Nat} {log : List Miss}
    (h : ∀ miss ∈ log, miss.offset ≠ offset) : firstRuleAt offset log = none := by
  rw [firstRuleAt, List.findSome?_eq_none_iff]
  intro miss hmiss
  rw [if_neg (h miss hmiss)]

/-! ## Summing up -/

namespace Furthest

/-- The record is what there is to say of a log. -/
structure Sums (f : Furthest) (log : List Miss) : Prop where
  le : ∀ miss ∈ log, miss.offset ≤ f.offset
  attained : log = [] ∧ f.offset = 0 ∨ ∃ miss ∈ log, miss.offset = f.offset
  ascending : f.expected.Pairwise (· < ·)
  mem_expected : ∀ text,
    text ∈ f.expected ↔ ∃ miss ∈ log, miss.offset = f.offset ∧ miss.expected = text
  rule : f.rule = firstRuleAt f.offset log

namespace Sums

variable {f f' : Furthest} {log more : List Miss} {miss : Miss}

theorem nothing : Sums .nothing [] where
  le := by simp
  attained := .inl ⟨rfl, rfl⟩
  ascending := .nil
  mem_expected := by simp [Furthest.nothing]
  rule := rfl

/-- Nothing is known of a log at offsets behind the furthest. -/
theorem ne_of_lt (h : f.Sums log) {offset : Nat} (hlt : f.offset < offset) :
    ∀ miss ∈ log, miss.offset ≠ offset := by
  intro miss hmiss
  have := h.le miss hmiss
  omega

/-- One more miss. -/
theorem note (h : f.Sums log) (miss : Miss) : (f.note miss).Sums (log ++ [miss]) := by
  rcases Nat.lt_trichotomy miss.offset f.offset with hlt | heq | hgt
  · -- behind the furthest nothing changes
    have hnote : f.note miss = f := by rw [Furthest.note, if_pos hlt]
    rw [hnote]
    refine ⟨?_, .inr ?_, h.ascending, ?_, ?_⟩
    · simpa [or_imp, forall_and] using ⟨h.le, hlt.le⟩
    · rcases h.attained with ⟨-, hzero⟩ | ⟨other, hother, ho⟩
      · omega
      · exact ⟨other, List.mem_append_left _ hother, ho⟩
    · intro text
      have hne : miss.offset ≠ f.offset := Nat.ne_of_lt hlt
      simp [h.mem_expected, or_and_right, exists_or, hne]
    · rw [firstRuleAt_append, firstRuleAt_singleton, if_neg (Nat.ne_of_lt hlt), h.rule]
      simp
  · have hnote : f.note miss
        = ⟨f.offset, insertSorted miss.expected f.expected, f.rule <|> miss.rule⟩ := by
      rw [Furthest.note, if_neg (by omega), if_neg (by omega)]
    rw [hnote]
    refine ⟨?_, .inr ⟨miss, by simp, heq⟩, pairwise_insertSorted h.ascending, ?_, ?_⟩
    · simpa [or_imp, forall_and] using ⟨h.le, heq.le⟩
    · intro text
      simp only [mem_insertSorted, h.mem_expected, List.mem_append, List.mem_singleton,
        or_and_right, exists_or, exists_eq_left, heq, true_and]
      rw [or_comm, eq_comm]
    · rw [firstRuleAt_append, firstRuleAt_singleton, if_pos heq, h.rule]
  · -- all that was known before is behind this miss
    have hnote : f.note miss = ⟨miss.offset, [miss.expected], miss.rule⟩ := by
      rw [Furthest.note, if_neg (by omega), if_pos hgt]
    rw [hnote]
    have hbehind := h.ne_of_lt hgt
    refine ⟨?_, .inr ⟨miss, by simp, rfl⟩, List.pairwise_singleton _ _, ?_, ?_⟩
    · intro other hother
      rcases List.mem_append.mp hother with hother | hother
      · exact (h.le other hother).trans hgt.le
      · rw [List.mem_singleton.mp hother]
    · intro text
      have hno : ¬ ∃ other ∈ log, other.offset = miss.offset ∧ other.expected = text := by
        rintro ⟨other, hother, ho, -⟩
        exact hbehind other hother ho
      simp only [List.mem_append, List.mem_singleton, or_and_right, exists_or, hno, false_or,
        exists_eq_left, true_and]
      exact eq_comm
    · rw [firstRuleAt_append, firstRuleAt_singleton, if_pos rfl, firstRuleAt_eq_none hbehind]
      simp

/-- Noting the misses of a log in order sums it up. -/
theorem foldl_note (h : f.Sums log) (more : List Miss) :
    (more.foldl Furthest.note f).Sums (log ++ more) := by
  induction more generalizing f log with
  | nil => simpa using h
  | cons miss more ih => simpa using ih (h.note miss)

theorem of_log (log : List Miss) : (log.foldl Furthest.note .nothing).Sums log := by
  simpa using nothing.foldl_note log

/-! ## A log in two parts -/

variable {whole : Furthest}

/-- The whole log reaches as far as its parts. -/
theorem append_offset (h : f.Sums log) (h' : f'.Sums more) (hw : whole.Sums (log ++ more)) :
    whole.offset = max f.offset f'.offset := by
  have hle : max f.offset f'.offset ≤ whole.offset := by
    refine Nat.max_le.mpr ⟨?_, ?_⟩
    · rcases h.attained with ⟨-, hzero⟩ | ⟨miss, hmiss, ho⟩
      · omega
      · exact ho ▸ hw.le miss (List.mem_append_left _ hmiss)
    · rcases h'.attained with ⟨-, hzero⟩ | ⟨miss, hmiss, ho⟩
      · omega
      · exact ho ▸ hw.le miss (List.mem_append_right _ hmiss)
  refine Nat.le_antisymm ?_ hle
  rcases hw.attained with ⟨-, hzero⟩ | ⟨miss, hmiss, ho⟩
  · omega
  · rcases List.mem_append.mp hmiss with hmiss | hmiss
    · have := h.le miss hmiss
      omega
    · have := h'.le miss hmiss
      omega

/-- At the furthest offset of a larger log a part has either its own expectations or none. -/
theorem mem_expected_at (h : f.Sums log) {offset : Nat} (hle : f.offset ≤ offset) (text : String) :
    (∃ miss ∈ log, miss.offset = offset ∧ miss.expected = text) ↔
      f.offset = offset ∧ text ∈ f.expected := by
  rw [h.mem_expected]
  constructor
  · rintro ⟨miss, hmiss, ho, ht⟩
    have := h.le miss hmiss
    have heq : f.offset = offset := by omega
    exact ⟨heq, miss, hmiss, by omega, ht⟩
  · rintro ⟨rfl, h⟩
    exact h

/-- At the furthest offset of a larger log a part has either its own rule or none. -/
theorem firstRuleAt_eq (h : f.Sums log) {offset : Nat} (hle : f.offset ≤ offset) :
    firstRuleAt offset log = if f.offset = offset then f.rule else none := by
  split
  · next heq => rw [h.rule, heq]
  · next hne => exact firstRuleAt_eq_none (h.ne_of_lt (by omega))

/-- What was expected at the furthest offset was expected there in one of the parts. -/
theorem append_expected (h : f.Sums log) (h' : f'.Sums more) (hw : whole.Sums (log ++ more))
    (text : String) :
    text ∈ whole.expected ↔
      f.offset = whole.offset ∧ text ∈ f.expected ∨
      f'.offset = whole.offset ∧ text ∈ f'.expected := by
  have hoffset := append_offset h h' hw
  rw [hw.mem_expected, ← h.mem_expected_at (by omega), ← h'.mem_expected_at (by omega)]
  simp only [List.mem_append, or_and_right, exists_or]

/-- The rule is that of the first part which reaches the furthest offset inside one. -/
theorem append_rule (h : f.Sums log) (h' : f'.Sums more) (hw : whole.Sums (log ++ more)) :
    whole.rule = ((if f.offset = whole.offset then f.rule else none) <|>
      (if f'.offset = whole.offset then f'.rule else none)) := by
  have hoffset := append_offset h h' hw
  rw [hw.rule, firstRuleAt_append, h.firstRuleAt_eq (by omega), h'.firstRuleAt_eq (by omega)]

end Sums

end Furthest

end PegTree
