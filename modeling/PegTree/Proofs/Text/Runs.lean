import Mathlib.Data.List.TakeWhile

/-!
# Runs of characters

A run ends where a character of another kind comes, or the text is over.  So a run can be cut off from what
stands behind it, and a text can be cut in one place only (`append_inj_of_stop`).
-/

namespace PegTree

section

variable {p : Char → Bool} {xs ys rest rest' : List Char}

theorem takeWhile_append_of_stop (hxs : ∀ x ∈ xs, p x = true)
    (hrest : ∀ x more, rest = x :: more → p x = false) : (xs ++ rest).takeWhile p = xs := by
  rw [List.takeWhile_append_of_pos hxs]
  cases rest with
  | nil => simp
  | cons x more => simp [hrest x more rfl]

theorem dropWhile_append_of_stop (hxs : ∀ x ∈ xs, p x = true)
    (hrest : ∀ x more, rest = x :: more → p x = false) : (xs ++ rest).dropWhile p = rest := by
  have hboth := List.takeWhile_append_dropWhile (p := p) (l := xs ++ rest)
  rw [takeWhile_append_of_stop hxs hrest] at hboth
  exact List.append_cancel_left hboth

/-- Every text begins with a run, which may be empty. -/
theorem exists_run (p : Char → Bool) (text : List Char) : ∃ run rest, text = run ++ rest ∧ (∀ x ∈ run, p x = true) ∧
    ∀ x more, rest = x :: more → p x = false := by
  refine ⟨text.takeWhile p, text.dropWhile p, List.takeWhile_append_dropWhile.symm,
    fun x hx => List.mem_takeWhile_imp hx, fun x more hrest => ?_⟩
  have hhead := List.head?_dropWhile_not p text
  rw [hrest] at hhead
  exact hhead

/-- Where a run ends is a matter of the text alone. -/
theorem append_inj_of_stop (hxs : ∀ x ∈ xs, p x = true) (hys : ∀ x ∈ ys, p x = true)
    (hrest : ∀ x more, rest = x :: more → p x = false)
    (hrest' : ∀ x more, rest' = x :: more → p x = false) (h : xs ++ rest = ys ++ rest') :
    xs = ys ∧ rest = rest' := by
  refine ⟨?_, ?_⟩
  · rw [← takeWhile_append_of_stop hxs hrest, h, takeWhile_append_of_stop hys hrest']
  · rw [← dropWhile_append_of_stop hxs hrest, h, dropWhile_append_of_stop hys hrest']

end

end PegTree
