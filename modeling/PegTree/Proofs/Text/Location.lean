import Mathlib.Data.List.Induction
import PegTree.Proofs.Text.Lines
import PegTree.Proofs.Text.Reach
import PegTree.Text.Location

/-!
# Lines and columns tell offsets

A location is read off the characters in front of a place, but it can be read the other way as well: the
offset is that of so many whole lines and so many characters of the next one (`Location.StandsIn`).  Reading
on leads to a later column or to a later line, so places that differ have locations that differ, in the order
in which they stand in the text (`locations_tell_offsets`).

Both come of what the characters in front of a place are: whole lines, each with its line feed, and the
beginning of a line (`Location.exists_after_eq`).
-/

namespace PegTree

/-! ## Splitting at line feeds -/

theorem splitOn_unlines_append {lines : List (List Char)} (h : ∀ line ∈ lines, '\n' ∉ line) (rest : List Char) :
    (unlines lines ++ rest).splitOn '\n' = lines ++ rest.splitOn '\n' := by
  induction lines with
  | nil => rfl
  | cons line lines ih =>
    obtain ⟨hline, hlines⟩ := List.forall_mem_cons.mp h
    rw [unlines_cons, List.append_assoc, List.cons_append, List.splitOn_append_cons_self_of_not_mem hline,
      ih hlines, List.cons_append]

/-- The beginning of a line stands in front of what is left of that line. -/
theorem exists_splitOn_append_eq {start : List Char} (h : '\n' ∉ start) (rest : List Char) :
    ∃ more lines, (start ++ rest).splitOn '\n' = (start ++ more) :: lines := by
  induction start with
  | nil => exact List.exists_cons_of_ne_nil (List.splitOn_ne_nil '\n' rest)
  | cons c start ih =>
    obtain ⟨hc, hstart⟩ := not_or.mp (mt List.mem_cons.mpr h)
    obtain ⟨more, lines, hlines⟩ := ih hstart
    refine ⟨more, lines, ?_⟩
    rw [List.cons_append, List.splitOn_cons_eq_if_modifyHead, if_neg (by simpa using Ne.symm hc), hlines]
    rfl

namespace Location

/-! ## Offsets -/

theorem offset_foldl_advance (l : Location) (cs : List Char) :
    (cs.foldl advance l).offset = l.offset + utf8Width cs := by
  induction cs generalizing l with
  | nil => simp [utf8Width]
  | cons c cs ih =>
    have hstep : (l.advance c).offset = l.offset + c.utf8Size := by
      unfold advance
      split <;> rfl
    rw [List.foldl_cons, ih, hstep, utf8Width, Nat.add_assoc]

theorem offset_after (before : List Char) : (after before).offset = utf8Width before := by
  rw [after, offset_foldl_advance]
  exact Nat.zero_add _

/-- Between two characters nothing has to be moved back. -/
theorem locate?_append (before behind : List Char) :
    locate? (before ++ behind) (utf8Width before) = some (after before) := by
  have hle : utf8Width before ≤ utf8Width (before ++ behind) := by
    rw [utf8Width_append]
    omega
  rw [locate?, near, takeBytes_utf8Width_append, offset_after, Nat.min_eq_left hle]
  exact if_pos rfl

/-- Past the end there is only the end. -/
theorem locate?_of_le {text : List Char} {offset : Nat} (h : utf8Width text ≤ offset) :
    locate? text offset = locate? text (utf8Width text) := by
  rw [locate?, locate?, near, near, takeBytes_of_utf8Width_le h, takeBytes_of_utf8Width_le (Nat.le_refl _),
    Nat.min_eq_right h, Nat.min_self]

/-! ## Lines and columns -/

/-- What is in front of a place is whole lines and the beginning of a line, and the location counts both: by
induction on the character read last. -/
theorem exists_after_eq (before : List Char) :
    ∃ lines start, before = unlines lines ++ start ∧ (∀ line ∈ lines, '\n' ∉ line) ∧ '\n' ∉ start ∧
      (after before).line = lines.length + 1 ∧ (after before).column = start.length + 1 := by
  induction before using List.reverseRecOn with
  | nil => exact ⟨[], [], rfl, by simp, by simp, rfl, rfl⟩
  | append_singleton before c ih =>
    obtain ⟨lines, start, htext, hlines, hstart, hline, hcolumn⟩ := ih
    have hafter : after (before ++ [c]) = (after before).advance c := by
      rw [after, after, List.foldl_append]
      rfl
    rw [hafter, advance]
    split
    · next hc =>
      -- a line feed ends the line that was begun
      refine ⟨lines ++ [start], [], ?_, ?_, by simp, ?_, rfl⟩
      · rw [unlines_append, unlines_cons, unlines_nil, htext, hc, List.append_assoc, List.append_nil]
      · intro line hmem
        rcases List.mem_append.mp hmem with hmem | hmem
        · exact hlines line hmem
        · exact List.mem_singleton.mp hmem ▸ hstart
      · rw [List.length_append, hline]
        rfl
    · next hc =>
      refine ⟨lines, start ++ [c], by rw [htext, List.append_assoc], hlines, ?_, hline, ?_⟩
      · simp [hstart, Ne.symm hc]
      · rw [List.length_append, hcolumn]
        rfl

/-- Where a location stands among lines: in front of it are so many lines, each with its line feed, and so
many characters of the next line. -/
structure StandsIn (l : Location) (lines : List (List Char)) : Prop where
  line_pos : 1 ≤ l.line
  column_pos : 1 ≤ l.column
  exists_line : ∃ line, lines[l.line - 1]? = some line ∧ l.column - 1 ≤ line.length ∧
    l.offset = utf8Width (unlines (lines.take (l.line - 1))) + utf8Width (line.take (l.column - 1))

theorem after_standsIn (before behind : List Char) :
    (after before).StandsIn ((before ++ behind).splitOn '\n') := by
  obtain ⟨lines, start, htext, hlines, hstart, hline, hcolumn⟩ := exists_after_eq before
  obtain ⟨more, rest, hrest⟩ := exists_splitOn_append_eq hstart behind
  have hsplit : (before ++ behind).splitOn '\n' = lines ++ (start ++ more) :: rest := by
    rw [htext, List.append_assoc, splitOn_unlines_append hlines, hrest]
  refine ⟨by omega, by omega, start ++ more, ?_, ?_, ?_⟩
  · rw [hsplit, hline, Nat.add_sub_cancel, List.getElem?_append_right (Nat.le_refl _), Nat.sub_self]
    rfl
  · rw [hcolumn, List.length_append]
    omega
  · rw [hsplit, hline, hcolumn, Nat.add_sub_cancel, Nat.add_sub_cancel, List.take_left, List.take_left,
      offset_after, htext, utf8Width_append]

/-! ## Order -/

/-- The order of locations: by the line, and in one line by the column. -/
def Precedes (l m : Location) : Prop :=
  l.line < m.line ∨ l.line = m.line ∧ l.column < m.column

theorem Precedes.trans {l m n : Location} (h : l.Precedes m) (h' : m.Precedes n) : l.Precedes n := by
  unfold Precedes at *
  omega

theorem precedes_advance (l : Location) (c : Char) : l.Precedes (l.advance c) := by
  rw [advance]
  split
  · exact .inl (Nat.lt_succ_self _)
  · exact .inr ⟨rfl, Nat.lt_succ_self _⟩

theorem precedes_foldl_advance (l : Location) {cs : List Char} (h : cs ≠ []) :
    l.Precedes (cs.foldl advance l) := by
  induction cs generalizing l with
  | nil => exact absurd rfl h
  | cons c cs ih =>
    rw [List.foldl_cons]
    cases cs with
    | nil => exact l.precedes_advance c
    | cons d cs => exact (l.precedes_advance c).trans (ih (l.advance c) (List.cons_ne_nil d cs))

theorem after_precedes (before : List Char) {more : List Char} (h : more ≠ []) :
    (after before).Precedes (after (before ++ more)) := by
  rw [after, after, List.foldl_append]
  exact precedes_foldl_advance _ h

/-- What is located at a boundary is what is read off the characters in front of it. -/
theorem locate?_eq_some_of_boundary {text : List Char} {offset : Nat} (h : Boundary text offset) :
    ∃ before behind, text = before ++ behind ∧ offset = utf8Width before ∧
      locate? text offset = some (after before) := by
  obtain ⟨before, behind, rfl, rfl⟩ := h.exists_split
  exact ⟨before, behind, rfl, rfl, locate?_append before behind⟩

/-- A later boundary has a later location. -/
theorem precedes_of_lt {text : List Char} {offset offset' : Nat} {l l' : Location}
    (h : Boundary text offset) (h' : Boundary text offset') (hlt : offset < offset')
    (hl : locate? text offset = some l) (hl' : locate? text offset' = some l') : l.Precedes l' := by
  obtain ⟨before, behind, htext, hoffset, hbefore⟩ := locate?_eq_some_of_boundary h
  obtain ⟨before', behind', htext', hoffset', hbefore'⟩ := locate?_eq_some_of_boundary h'
  obtain rfl := Option.some.inj (hbefore.symm.trans hl)
  obtain rfl := Option.some.inj (hbefore'.symm.trans hl')
  obtain ⟨more, hmore, -⟩ | ⟨more, hmore, -⟩ := List.append_eq_append_iff.mp (htext.symm.trans htext')
  · have hne : more ≠ [] := by
      rintro rfl
      rw [List.append_nil] at hmore
      rw [hoffset, hoffset', hmore] at hlt
      exact Nat.lt_irrefl _ hlt
    rw [hmore]
    exact after_precedes before hne
  · rw [hoffset, hoffset', hmore, utf8Width_append] at hlt
    omega

end Location

/-- Every boundary of a text has a location, and the offset is that of the lines in front of it with their
line feeds and of the characters in front of it in its line.  Of two boundaries the later one has the later
location, so no two have the same line and column.  Past the end there is only the location of the end. -/
theorem locations_tell_offsets (text : List Char) :
    (∀ offset, Boundary text offset → ∃ l, Location.locate? text offset = some l ∧ l.offset = offset ∧
      l.StandsIn (text.splitOn '\n')) ∧
    (∀ offset offset' l l', Boundary text offset → Boundary text offset' → offset < offset' →
      Location.locate? text offset = some l → Location.locate? text offset' = some l' → l.Precedes l') ∧
    (∀ offset offset' l l', Boundary text offset → Boundary text offset' →
      Location.locate? text offset = some l → Location.locate? text offset' = some l' →
      l.line = l'.line → l.column = l'.column → offset = offset') ∧
    ∀ offset, utf8Width text ≤ offset →
      Location.locate? text offset = Location.locate? text (utf8Width text) := by
  refine ⟨fun offset h => ?_, fun _ _ _ _ => Location.precedes_of_lt, ?_, fun _ => Location.locate?_of_le⟩
  · obtain ⟨before, behind, rfl, hoffset, hlocate⟩ := Location.locate?_eq_some_of_boundary h
    exact ⟨.after before, hlocate, by rw [Location.offset_after, hoffset], Location.after_standsIn before behind⟩
  · intro offset offset' l l' h h' hl hl' hline hcolumn
    rcases Nat.lt_trichotomy offset offset' with hlt | heq | hgt
    · have hbefore := Location.precedes_of_lt h h' hlt hl hl'
      unfold Location.Precedes at hbefore
      omega
    · exact heq
    · have hbefore := Location.precedes_of_lt h' h hgt hl' hl
      unfold Location.Precedes at hbefore
      omega

/-- Behind a line feed and characters of several bytes, at the end of a line and on the empty last line. -/
theorem locations_tell_offsets_wide :
    (∃ l, Location.locate? "ä\nb中\n".toList 7 = some l ∧ l.line = 2 ∧ l.column = 3 ∧
      l.StandsIn ["ä".toList, "b中".toList, []]) ∧
    Location.Precedes ⟨7, 2, 3⟩ ⟨8, 3, 1⟩ ∧
    Location.locate? "ä\nb中\n".toList 30 = some ⟨8, 3, 1⟩ := by
  have hline : Boundary "ä\nb中\n".toList 7 := boundary_append "ä\nb中".toList ['\n']
  have hend : Boundary "ä\nb中\n".toList 8 := boundary_append "ä\nb中\n".toList []
  obtain ⟨hstands, hprecedes, -, hpast⟩ := locations_tell_offsets "ä\nb中\n".toList
  obtain ⟨l, hl, -, hlines⟩ := hstands 7 hline
  have hl' : Location.locate? "ä\nb中\n".toList 7 = some ⟨7, 2, 3⟩ := by decide
  obtain rfl := Option.some.inj (hl.symm.trans hl')
  refine ⟨⟨_, hl, rfl, rfl, hlines⟩, ?_, ?_⟩
  · exact hprecedes 7 8 _ _ hline hend (by decide) hl (by decide)
  · rw [hpast 30 (by decide)]
    decide

end PegTree
