import PegTree.Text.Cursor

/-!
# Places that can be reached

A place is reached from another by reading on over a text that stands there.  The offset then grows by
exactly the bytes of that text, so of two places in one text the offset says everything: what stands
between them, whether anything does, and whether they are the same.
-/

namespace PegTree

/-! ## Bytes -/

theorem utf8Width_eq_zero {cs : List Char} : utf8Width cs = 0 ↔ cs = [] := by
  cases cs with
  | nil => simp [utf8Width]
  | cons c cs =>
    have := c.utf8Size_pos
    simp only [utf8Width, reduceCtorEq, iff_false]
    omega

theorem takeBytes_utf8Width_append (cs ds : List Char) :
    takeBytes (utf8Width cs) (cs ++ ds) = cs := by
  induction cs with
  | nil =>
    cases ds with
    | nil => rfl
    | cons d ds => simp [takeBytes, utf8Width, Nat.ne_of_gt d.utf8Size_pos]
  | cons c cs ih => simp [takeBytes, utf8Width, ih]

theorem dropBytes_utf8Width_append (cs ds : List Char) :
    dropBytes (utf8Width cs) (cs ++ ds) = ds := by
  have h := takeBytes_append_dropBytes (utf8Width cs) (cs ++ ds)
  rw [takeBytes_utf8Width_append] at h
  exact List.append_cancel_left h

theorem takeBytes_of_utf8Width_le {n : Nat} {cs : List Char} (h : utf8Width cs ≤ n) : takeBytes n cs = cs := by
  induction cs generalizing n with
  | nil => rfl
  | cons c cs ih =>
    rw [utf8Width] at h
    rw [takeBytes, if_pos (by omega), ih (by omega)]

namespace Cursor

/-! ## Reaching a place -/

/-- Reading on over `text` leads from one place to the other. -/
def Reads (c : Cursor) (text : List Char) (d : Cursor) : Prop :=
  c.rest = text ++ d.rest ∧ d.offset = c.offset + utf8Width text

/-- The other place is reached by reading on. -/
def Reaches (c d : Cursor) : Prop :=
  ∃ text, c.Reads text d

theorem Reads.refl (c : Cursor) : c.Reads [] c := by
  simp [Reads, utf8Width]

theorem Reads.append {c d e : Cursor} {s t : List Char} (h : c.Reads s d) (h' : d.Reads t e) :
    c.Reads (s ++ t) e := by
  refine ⟨?_, ?_⟩
  · rw [h.1, h'.1, List.append_assoc]
  · rw [h'.2, h.2, utf8Width_append, Nat.add_assoc]

theorem Reads.split {c e : Cursor} {s t : List Char} (h : c.Reads (s ++ t) e) :
    ∃ d, c.Reads s d ∧ d.Reads t e := by
  refine ⟨⟨c.offset + utf8Width s, t ++ e.rest⟩, ⟨?_, rfl⟩, rfl, ?_⟩
  · rw [h.1, List.append_assoc]
  · rw [h.2, utf8Width_append, Nat.add_assoc]

theorem Reaches.refl (c : Cursor) : c.Reaches c :=
  ⟨[], .refl c⟩

theorem Reaches.trans {c d e : Cursor} (h : c.Reaches d) (h' : d.Reaches e) : c.Reaches e := by
  obtain ⟨s, hs⟩ := h
  obtain ⟨t, ht⟩ := h'
  exact ⟨s ++ t, hs.append ht⟩

theorem Reaches.offset_le {c d : Cursor} (h : c.Reaches d) : c.offset ≤ d.offset := by
  obtain ⟨text, -, ho⟩ := h
  omega

/-- The same offset is the same place. -/
theorem Reaches.eq_of_offset_le {c d : Cursor} (h : c.Reaches d) (hle : d.offset ≤ c.offset) :
    d = c := by
  obtain ⟨text, hr, ho⟩ := h
  have hempty : text = [] := utf8Width_eq_zero.mp (by omega)
  subst hempty
  cases c
  cases d
  simp_all [utf8Width]

/-- Reading on over some text leads further. -/
theorem Reads.offset_lt {c d : Cursor} {text : List Char} (h : c.Reads text d) (hne : text ≠ []) :
    c.offset < d.offset := by
  have hwidth : utf8Width text ≠ 0 := mt utf8Width_eq_zero.mp hne
  rw [h.2]
  omega

/-- Going further leaves fewer characters ahead. -/
theorem Reaches.length_lt {c d : Cursor} (h : c.Reaches d) (hlt : c.offset < d.offset) :
    d.rest.length < c.rest.length := by
  obtain ⟨text, hr, ho⟩ := h
  have hne : text ≠ [] := by
    rintro rfl
    simp [utf8Width] at ho
    omega
  have hpos : 0 < text.length := List.length_pos_iff.mpr hne
  rw [hr, List.length_append]
  omega

/-- One text leads to one place. -/
theorem Reads.stop_eq {c d d' : Cursor} {text : List Char} (h : c.Reads text d)
    (h' : c.Reads text d') : d = d' := by
  have hrest : d.rest = d'.rest := List.append_cancel_left (h.1.symm.trans h'.1)
  cases d
  cases d'
  simp_all [Reads]

/-- Between two places stands one text. -/
theorem Reads.text_eq {c d : Cursor} {text text' : List Char} (h : c.Reads text d)
    (h' : c.Reads text' d) : text = text' :=
  List.append_cancel_right (h.1.symm.trans h'.1)

theorem Reads.textTo {c d : Cursor} {text : List Char} (h : c.Reads text d) :
    c.textTo d = text := by
  rw [Cursor.textTo, h.1, h.2, Nat.add_sub_cancel_left, takeBytes_utf8Width_append]

/-- A place of a text. -/
def On (text : List Char) (c : Cursor) : Prop :=
  (Cursor.start text).Reaches c

theorem On.start (text : List Char) : (Cursor.start text).On text :=
  .refl _

theorem On.trans {text : List Char} {c d : Cursor} (hc : c.On text) (h : c.Reaches d) :
    d.On text :=
  Reaches.trans hc h

/-- A place splits the text. -/
theorem On.exists_split {text : List Char} {c : Cursor} (h : c.On text) :
    ∃ before, text = before ++ c.rest ∧ c.offset = utf8Width before := by
  obtain ⟨before, htext, hoffset⟩ := h
  exact ⟨before, htext, by simpa [Cursor.start] using hoffset⟩

/-- A place of a text is not behind its end. -/
theorem On.offset_le {text : List Char} {c : Cursor} (h : c.On text) :
    c.offset ≤ utf8Width text := by
  obtain ⟨before, htext, hoffset⟩ := h.exists_split
  have hwidth := congrArg utf8Width htext
  rw [utf8Width_append] at hwidth
  omega

/-- What is ahead of a place is what is left of the text from its offset on. -/
theorem On.dropBytes_offset {text : List Char} {c : Cursor} (h : c.On text) :
    dropBytes c.offset text = c.rest := by
  obtain ⟨before, htext, hoffset⟩ := h.exists_split
  rw [htext, hoffset, dropBytes_utf8Width_append]

/-- Only the end has the width of the text as its offset. -/
theorem On.offset_eq_iff {text : List Char} {c : Cursor} (h : c.On text) :
    c.offset = utf8Width text ↔ c.rest = [] := by
  obtain ⟨before, htext, hoffset⟩ := h.exists_split
  rw [← utf8Width_eq_zero, hoffset, htext, utf8Width_append]
  omega

/-! ## Steps -/

theorem reads_advance (c : Cursor) (n : Nat) : c.Reads (c.rest.take n) (c.advance n) :=
  ⟨(List.take_append_drop n c.rest).symm, rfl⟩

theorem Reads.advance_eq {c d : Cursor} {text : List Char} (h : c.Reads text d) :
    c.advance text.length = d := by
  have hadvance := c.reads_advance text.length
  rw [h.1, List.take_left] at hadvance
  exact hadvance.stop_eq h

theorem dropPrefix?_eq_some {c d : Cursor} {text : List Char} :
    c.dropPrefix? text = some d ↔ c.Reads text d := by
  unfold dropPrefix? Reads
  constructor
  · intro h
    split at h
    · next hp =>
      obtain ⟨rest, hrest⟩ := List.isPrefixOf_iff_prefix.mp hp
      obtain rfl := Option.some.inj h
      simp [← hrest]
    · simp at h
  · rintro ⟨hr, ho⟩
    cases d
    simp_all

theorem dropPrefix?_eq_none {c : Cursor} {text : List Char} :
    c.dropPrefix? text = none ↔ ∀ rest, c.rest ≠ text ++ rest := by
  rw [Option.eq_none_iff_forall_ne_some]
  constructor
  · intro h rest hr
    exact h ⟨c.offset + utf8Width text, rest⟩ (dropPrefix?_eq_some.mpr ⟨hr, rfl⟩)
  · intro h d hd
    exact h d.rest (dropPrefix?_eq_some.mp hd).1

theorem next?_eq_some {c d : Cursor} {x : Char} : c.next? = some (x, d) ↔ c.Reads [x] d := by
  unfold next? Reads
  cases hc : c.rest with
  | nil => simp
  | cons y rest =>
    cases d
    simp only [Option.some.injEq, Prod.mk.injEq, mk.injEq, List.cons_append, List.nil_append,
      List.cons.injEq, utf8Width]
    grind

end Cursor

/-! ## Boundaries -/

/-- An offset of the text at which no character is cut. -/
def Boundary (text : List Char) (offset : Nat) : Prop :=
  ∃ c : Cursor, c.On text ∧ c.offset = offset

theorem Cursor.On.boundary {text : List Char} {c : Cursor} (hc : c.On text) :
    Boundary text c.offset :=
  ⟨c, hc, rfl⟩

/-- An offset at which no character is cut splits the text. -/
theorem Boundary.exists_split {text : List Char} {offset : Nat} (h : Boundary text offset) :
    ∃ before behind, text = before ++ behind ∧ offset = utf8Width before := by
  obtain ⟨c, hc, rfl⟩ := h
  obtain ⟨before, htext, hoffset⟩ := hc.exists_split
  exact ⟨before, c.rest, htext, hoffset⟩

theorem Boundary.zero (text : List Char) : Boundary text 0 :=
  ⟨.start text, .start text, rfl⟩

theorem boundary_append (before behind : List Char) :
    Boundary (before ++ behind) (utf8Width before) :=
  ⟨⟨utf8Width before, behind⟩, ⟨before, rfl, (Nat.zero_add _).symm⟩, rfl⟩

theorem Boundary.offset_le {text : List Char} {offset : Nat} (h : Boundary text offset) :
    offset ≤ utf8Width text := by
  obtain ⟨c, hc, rfl⟩ := h
  exact hc.offset_le

end PegTree
