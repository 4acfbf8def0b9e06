import Mathlib.Data.List.Basic

/-!
# Lines

A text whose every line is ended by a line feed is its lines (`linesOf_unlines`), so such texts are the same
exactly if their lines are.  A text without control characters is a line.
-/

namespace PegTree

/-- Lines as one text, each ended by a line feed. -/
def unlines (lines : List (List Char)) : List Char :=
  lines.flatMap (· ++ ['\n'])

/-- The lines of a text; the last one need not be ended. -/
def linesOf : List Char → List (List Char)
  | [] => []
  | c :: cs =>
    if c = '\n' then [] :: linesOf cs
    else match linesOf cs with
      | [] => [[c]]
      | line :: more => (c :: line) :: more

/-- A text with so many blanks more in front of every line. -/
def indentLines (blanks : Nat) (text : List Char) : List Char :=
  unlines ((linesOf text).map (List.replicate blanks ' ' ++ ·))

@[simp]
theorem unlines_nil : unlines [] = [] :=
  rfl

theorem unlines_cons (line : List Char) (lines : List (List Char)) :
    unlines (line :: lines) = line ++ '\n' :: unlines lines := by
  rw [unlines, List.flatMap_cons, List.append_assoc]
  rfl

theorem unlines_append (lines more : List (List Char)) :
    unlines (lines ++ more) = unlines lines ++ unlines more :=
  List.flatMap_append

/-- A line is read up to its line feed. -/
theorem linesOf_append_newline {line : List Char} (h : '\n' ∉ line) (rest : List Char) :
    linesOf (line ++ '\n' :: rest) = line :: linesOf rest := by
  induction line with
  | nil => rfl
  | cons c line ih =>
    obtain ⟨hc, hline⟩ := not_or.mp (mt List.mem_cons.mpr h)
    rw [List.cons_append, linesOf, if_neg (Ne.symm hc), ih hline]

theorem linesOf_unlines {lines : List (List Char)} (h : ∀ line ∈ lines, '\n' ∉ line) :
    linesOf (unlines lines) = lines := by
  induction lines with
  | nil => rfl
  | cons line more ih =>
    obtain ⟨hline, hmore⟩ := List.forall_mem_cons.mp h
    rw [unlines_cons, linesOf_append_newline hline, ih hmore]

/-! ## Clean texts -/

/-- Whether a text is free of the control characters in front of the blank.  Such a text is one line, and no
escape sequence begins in it. -/
def Clean (text : List Char) : Prop :=
  ∀ x ∈ text, 0x20 ≤ x.toNat

instance (text : List Char) : Decidable (Clean text) :=
  List.decidableBAll (fun x : Char => 0x20 ≤ x.toNat) text

theorem Clean.not_mem {text : List Char} (h : Clean text) {x : Char} (hx : x.toNat < 0x20) : x ∉ text := by
  intro hin
  exact absurd (h x hin) (Nat.not_le_of_lt hx)

theorem Clean.append {text more : List Char} (h : Clean text) (hmore : Clean more) :
    Clean (text ++ more) := by
  intro x hx
  exact (List.mem_append.mp hx).elim (h x) (hmore x)

theorem clean_flatMap {text : List Char} {f : Char → List Char} (h : ∀ c, Clean (f c)) :
    Clean (text.flatMap f) := by
  intro x hx
  obtain ⟨c, -, hc⟩ := List.mem_flatMap.mp hx
  exact h c x hc

theorem clean_replicate (n : Nat) : Clean (List.replicate n ' ') := by
  intro x hx
  rw [List.eq_of_mem_replicate hx]
  decide

end PegTree
