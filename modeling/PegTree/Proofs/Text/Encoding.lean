import Mathlib.Data.List.Forall2

/-!
# Well-formed UTF-8

`Utf8.rows` is the table of well-formed characters: a row for each kind, with the bounds of every byte.  The
bounds of a second byte leave out overlong forms, surrogates and what is above U+10FFFF.  What fits a row is
the bytes of one character and the other way round (`isCharacter_encodeChar`, `encodeChar_codePoint`), so the
well-formed bytes are those of texts (`wellFormed_iff`).

The first byte says of which row a character is (`row_unique`).  So no character begins with another one, and
where characters stand one behind the other the bytes say which they are.
-/

namespace PegTree

namespace Utf8

/-! ## Well-formed bytes -/

/-- The bounds of a byte that goes on with a character. -/
def continuation : Nat × Nat :=
  (0x80, 0xBF)

/-- The well-formed characters: a row for each kind, with the bounds of every byte. -/
def rows : List (List (Nat × Nat)) :=
  [[(0x00, 0x7F)],
    [(0xC2, 0xDF), continuation],
    [(0xE0, 0xE0), (0xA0, 0xBF), continuation],
    [(0xE1, 0xEC), continuation, continuation],
    [(0xED, 0xED), (0x80, 0x9F), continuation],
    [(0xEE, 0xEF), continuation, continuation],
    [(0xF0, 0xF0), (0x90, 0xBF), continuation, continuation],
    [(0xF1, 0xF3), continuation, continuation, continuation],
    [(0xF4, 0xF4), (0x80, 0x8F), continuation, continuation]]

/-- A byte is within bounds. -/
def Within (bounds : Nat × Nat) (b : UInt8) : Prop :=
  bounds.1 ≤ b.toNat ∧ b.toNat ≤ bounds.2

/-- Bytes are within the bounds of a row, one by one. -/
abbrev Fits : List (Nat × Nat) → List UInt8 → Prop :=
  List.Forall₂ Within

/-- The bytes of one character. -/
def IsCharacter (bytes : List UInt8) : Prop :=
  ∃ row ∈ rows, Fits row bytes

/-- The first bytes of a character, but not all of them. -/
def BeginsCharacter (bytes : List UInt8) : Prop :=
  bytes ≠ [] ∧ ∃ more, more ≠ [] ∧ IsCharacter (bytes ++ more)

/-- The bytes of characters, one behind the other. -/
inductive WellFormed : List UInt8 → Prop
  | nil : WellFormed []
  | character {bytes more : List UInt8} : IsCharacter bytes → WellFormed more → WellFormed (bytes ++ more)

/-! ## Code points -/

/-- The bits of the code point that the first byte holds. -/
def leadBits (b : UInt8) : Nat :=
  if b.toNat < 0x80 then b.toNat
  else if b.toNat < 0xE0 then b.toNat - 0xC0
  else if b.toNat < 0xF0 then b.toNat - 0xE0
  else b.toNat - 0xF0

/-- A code point with the six bits of one more byte. -/
def joinBits (code : Nat) (b : UInt8) : Nat :=
  code * 64 + (b.toNat - 0x80)

/-- The code point that the bytes of a character hold. -/
def codePoint : List UInt8 → Nat
  | [] => 0
  | b :: more => more.foldl joinBits (leadBits b)

theorem toNat_ofNat_of_valid {n : Nat} (h : n.isValidChar) : (Char.ofNat n).val.toNat = n := by
  rw [Char.ofNat, dif_pos h]
  rfl

theorem ofNat_eq_byte {n : Nat} {b : UInt8} (h : n = b.toNat) : UInt8.ofNat n = b := by
  rw [h, UInt8.ofNat_toNat]

theorem joinBits_eq (code : Nat) (b : UInt8) : joinBits code b = code * 64 + (b.toNat - 0x80) :=
  rfl

theorem leadBits_two {b : UInt8} (h : 0x80 ≤ b.toNat) (h' : b.toNat < 0xE0) : leadBits b = b.toNat - 0xC0 := by
  rw [leadBits, if_neg (Nat.not_lt_of_le h), if_pos h']

theorem leadBits_three {b : UInt8} (h : 0xE0 ≤ b.toNat) (h' : b.toNat < 0xF0) : leadBits b = b.toNat - 0xE0 := by
  rw [leadBits, if_neg (by omega), if_neg (Nat.not_lt_of_le h), if_pos h']

theorem leadBits_four {b : UInt8} (h : 0xF0 ≤ b.toNat) : leadBits b = b.toNat - 0xF0 := by
  rw [leadBits, if_neg (by omega), if_neg (by omega), if_neg (Nat.not_lt_of_le h)]

theorem encodeChar_one {a : UInt8} (ha : a.toNat ≤ 0x7F) :
    String.utf8EncodeChar (Char.ofNat (leadBits a)) = [a] := by
  have hcode : leadBits a = a.toNat := by
    rw [leadBits, if_pos (by omega)]
  have hvalid : (leadBits a).isValidChar := .inl (by omega)
  rw [String.utf8EncodeChar, toNat_ofNat_of_valid hvalid, if_pos (by omega), ofNat_eq_byte hcode]

theorem encodeChar_two {a b : UInt8} (ha : 0xC2 ≤ a.toNat) (ha' : a.toNat ≤ 0xDF) (hb : 0x80 ≤ b.toNat)
    (hb' : b.toNat ≤ 0xBF) :
    String.utf8EncodeChar (Char.ofNat (joinBits (leadBits a) b)) = [a, b] := by
  have hlead := leadBits_two (b := a) (by omega) (by omega)
  have hcode : joinBits (leadBits a) b = (a.toNat - 0xC0) * 64 + (b.toNat - 0x80) := by
    rw [joinBits_eq, hlead]
  have hvalid : (joinBits (leadBits a) b).isValidChar := .inl (by omega)
  rw [String.utf8EncodeChar, toNat_ofNat_of_valid hvalid, hcode, if_neg (by omega), if_pos (by omega),
    ofNat_eq_byte (b := a) (by omega), ofNat_eq_byte (b := b) (by omega)]

theorem encodeChar_three {a b c : UInt8} (ha : 0xE0 ≤ a.toNat) (ha' : a.toNat ≤ 0xEF) (hb : 0x80 ≤ b.toNat)
    (hb' : b.toNat ≤ 0xBF) (hc : 0x80 ≤ c.toNat) (hc' : c.toNat ≤ 0xBF)
    (hlong : a.toNat = 0xE0 → 0xA0 ≤ b.toNat) (hsurrogate : a.toNat = 0xED → b.toNat ≤ 0x9F) :
    String.utf8EncodeChar (Char.ofNat (joinBits (joinBits (leadBits a) b) c)) = [a, b, c] := by
  have hlead := leadBits_three ha (by omega)
  have hcode : joinBits (joinBits (leadBits a) b) c =
      ((a.toNat - 0xE0) * 64 + (b.toNat - 0x80)) * 64 + (c.toNat - 0x80) := by
    rw [joinBits_eq, joinBits_eq, hlead]
  have hvalid : (joinBits (joinBits (leadBits a) b) c).isValidChar := by
    rw [hcode, Nat.isValidChar]
    omega
  rw [String.utf8EncodeChar, toNat_ofNat_of_valid hvalid, hcode, if_neg (by omega), if_neg (by omega), if_pos (by omega),
    ofNat_eq_byte (b := a) (by omega), ofNat_eq_byte (b := b) (by omega), ofNat_eq_byte (b := c) (by omega)]

theorem encodeChar_four {a b c d : UInt8} (ha : 0xF0 ≤ a.toNat) (ha' : a.toNat ≤ 0xF4) (hb : 0x80 ≤ b.toNat)
    (hb' : b.toNat ≤ 0xBF) (hc : 0x80 ≤ c.toNat) (hc' : c.toNat ≤ 0xBF) (hd : 0x80 ≤ d.toNat)
    (hd' : d.toNat ≤ 0xBF) (hlong : a.toNat = 0xF0 → 0x90 ≤ b.toNat) (hlast : a.toNat = 0xF4 → b.toNat ≤ 0x8F) :
    String.utf8EncodeChar (Char.ofNat (joinBits (joinBits (joinBits (leadBits a) b) c) d)) = [a, b, c, d] := by
  have hlead := leadBits_four ha
  have hcode : joinBits (joinBits (joinBits (leadBits a) b) c) d =
      (((a.toNat - 0xF0) * 64 + (b.toNat - 0x80)) * 64 + (c.toNat - 0x80)) * 64 + (d.toNat - 0x80) := by
    rw [joinBits_eq, joinBits_eq, joinBits_eq, hlead]
  have hvalid : (joinBits (joinBits (joinBits (leadBits a) b) c) d).isValidChar := .inr (by omega)
  rw [String.utf8EncodeChar, toNat_ofNat_of_valid hvalid, hcode, if_neg (by omega), if_neg (by omega), if_neg (by omega),
    ofNat_eq_byte (b := a) (by omega), ofNat_eq_byte (b := b) (by omega), ofNat_eq_byte (b := c) (by omega),
    ofNat_eq_byte (b := d) (by omega)]

theorem within_ofNat {low high n : Nat} (hlow : low ≤ n) (hhigh : n ≤ high) (h : high < 256) :
    Within (low, high) (UInt8.ofNat n) := by
  have hn : (UInt8.ofNat n).toNat = n := UInt8.toNat_ofNat_of_lt' (Nat.lt_of_le_of_lt hhigh h)
  exact ⟨by rw [hn]; exact hlow, by rw [hn]; exact hhigh⟩

theorem continues_ofNat (n : Nat) : Within continuation (UInt8.ofNat (n % 0x40 + 0x80)) :=
  within_ofNat (by omega) (by omega) (by omega)

theorem isCharacter_encodeChar (c : Char) : IsCharacter (String.utf8EncodeChar c) := by
  have hvalid : c.val.toNat < 0xD800 ∨ 0xDFFF < c.val.toNat ∧ c.val.toNat < 0x110000 := c.valid
  fun_cases String.utf8EncodeChar c with
  | case1 v h =>
    refine ⟨[(0x00, 0x7F)], by decide, .cons (within_ofNat (Nat.zero_le _) h (by omega)) .nil⟩
  | case2 v h h' =>
    refine ⟨[(0xC2, 0xDF), continuation], by decide, .cons ?_ (.cons (continues_ofNat _) .nil)⟩
    exact within_ofNat (by omega) (by omega) (by omega)
  | case3 v h h' h'' =>
    have hmore := continues_ofNat v
    rcases Nat.lt_or_ge v 0x1000 with hlow | hlow
    · refine ⟨[(0xE0, 0xE0), (0xA0, 0xBF), continuation], by decide, .cons ?_ (.cons ?_ (.cons hmore .nil))⟩
      · exact within_ofNat (by omega) (by omega) (by omega)
      · exact within_ofNat (by omega) (by omega) (by omega)
    rcases Nat.lt_or_ge v 0xD000 with hmid | hmid
    · refine ⟨[(0xE1, 0xEC), continuation, continuation], by decide,
        .cons ?_ (.cons (continues_ofNat _) (.cons hmore .nil))⟩
      exact within_ofNat (by omega) (by omega) (by omega)
    rcases hvalid with hbelow | habove
    · refine ⟨[(0xED, 0xED), (0x80, 0x9F), continuation], by decide, .cons ?_ (.cons ?_ (.cons hmore .nil))⟩
      · exact within_ofNat (by omega) (by omega) (by omega)
      · exact within_ofNat (by omega) (by omega) (by omega)
    · refine ⟨[(0xEE, 0xEF), continuation, continuation], by decide,
        .cons ?_ (.cons (continues_ofNat _) (.cons hmore .nil))⟩
      exact within_ofNat (by omega) (by omega) (by omega)
  | case4 v h h' h'' =>
    have hmore := continues_ofNat v
    have hmiddle := continues_ofNat (v / 64)
    rcases Nat.lt_or_ge v 0x40000 with hlow | hlow
    · refine ⟨[(0xF0, 0xF0), (0x90, 0xBF), continuation, continuation], by decide,
        .cons ?_ (.cons ?_ (.cons hmiddle (.cons hmore .nil)))⟩
      · exact within_ofNat (by omega) (by omega) (by omega)
      · exact within_ofNat (by omega) (by omega) (by omega)
    rcases Nat.lt_or_ge v 0x100000 with hmid | hmid
    · refine ⟨[(0xF1, 0xF3), continuation, continuation, continuation], by decide,
        .cons ?_ (.cons (continues_ofNat _) (.cons hmiddle (.cons hmore .nil)))⟩
      exact within_ofNat (by omega) (by omega) (by omega)
    · refine ⟨[(0xF4, 0xF4), (0x80, 0x8F), continuation, continuation], by decide,
        .cons ?_ (.cons ?_ (.cons hmiddle (.cons hmore .nil)))⟩
      · exact within_ofNat (by omega) (by omega) (by omega)
      · exact within_ofNat (by omega) (by omega) (by omega)

theorem encodeChar_codePoint {bytes : List UInt8} (h : IsCharacter bytes) :
    String.utf8EncodeChar (Char.ofNat (codePoint bytes)) = bytes := by
  obtain ⟨row, hrow, hfits⟩ := h
  simp only [rows, List.mem_cons, List.not_mem_nil, or_false] at hrow
  rcases hrow with rfl | rfl | rfl | rfl | rfl | rfl | rfl | rfl | rfl
  · obtain _ | ⟨ha, _ | _⟩ := hfits
    exact encodeChar_one ha.2
  · obtain _ | ⟨ha, _ | ⟨hb, _ | _⟩⟩ := hfits
    exact encodeChar_two ha.1 ha.2 hb.1 hb.2
  iterate 4
    · obtain _ | ⟨ha, _ | ⟨hb, _ | ⟨hc, _ | _⟩⟩⟩ := hfits
      simp only [Within, continuation] at ha hb hc
      apply encodeChar_three <;> omega
  iterate 3
    · obtain _ | ⟨ha, _ | ⟨hb, _ | ⟨hc, _ | ⟨hd, _ | _⟩⟩⟩⟩ := hfits
      simp only [Within, continuation] at ha hb hc hd
      apply encodeChar_four <;> omega

/-! ## Telling characters apart -/

/-- The first byte of a character says of which kind it is. -/
theorem row_unique {bounds bounds' : Nat × Nat} {left left' : List (Nat × Nat)} {b : UInt8}
    (hrow : bounds :: left ∈ rows) (hrow' : bounds' :: left' ∈ rows) (h : Within bounds b)
    (h' : Within bounds' b) : bounds :: left = bounds' :: left' := by
  have hapart : ∀ row ∈ rows, ∀ row' ∈ rows, row = row' ∨ (row.headD (0, 0)).2 < (row'.headD (0, 0)).1 ∨
      (row'.headD (0, 0)).2 < (row.headD (0, 0)).1 := by
    decide
  rcases hapart _ hrow _ hrow' with heq | hlt | hlt
  · exact heq
  · exact absurd (Nat.le_trans h'.1 h.2) (Nat.not_le_of_lt hlt)
  · exact absurd (Nat.le_trans h.1 h'.2) (Nat.not_le_of_lt hlt)

theorem ne_nil_of_mem_rows {row : List (Nat × Nat)} (h : row ∈ rows) : row ≠ [] := by
  have hall : ∀ row ∈ rows, row ≠ [] := by decide
  exact hall row h

theorem IsCharacter.exists_cons {bytes : List UInt8} (h : IsCharacter bytes) :
    ∃ bounds left b more, bounds :: left ∈ rows ∧ bytes = b :: more ∧ Within bounds b ∧ Fits left more := by
  obtain ⟨row, hrow, hfits⟩ := h
  cases hfits with
  | nil => exact absurd rfl (ne_nil_of_mem_rows hrow)
  | cons hb hmore => exact ⟨_, _, _, _, hrow, rfl, hb, hmore⟩

theorem IsCharacter.ne_nil {bytes : List UInt8} (h : IsCharacter bytes) : bytes ≠ [] := by
  obtain ⟨-, -, b, more, -, rfl, -⟩ := h.exists_cons
  exact List.cons_ne_nil b more

/-- No character begins with another one. -/
theorem IsCharacter.eq_of_begins {first second bytes : List UInt8} (h : IsCharacter first)
    (h' : IsCharacter second) (hbegins : first <+: bytes) (hbegins' : second <+: bytes) : first = second := by
  obtain ⟨bounds, left, b, more, hrow, rfl, hb, hmore⟩ := h.exists_cons
  obtain ⟨bounds', left', b', more', hrow', rfl, hb', hmore'⟩ := h'.exists_cons
  obtain ⟨rest, hrest⟩ := hbegins
  obtain ⟨rest', hrest'⟩ := hbegins'
  obtain ⟨rfl, htail⟩ := List.cons.inj (hrest.trans hrest'.symm)
  obtain ⟨rfl, rfl⟩ := List.cons.inj (row_unique hrow hrow' hb hb')
  have hlength : more.length = more'.length := hmore.length_eq.symm.trans hmore'.length_eq
  rw [(List.append_inj htail hlength).1]

/-- Bytes that lie in the bounds of the first bytes of a row begin a character. -/
theorem beginsCharacter_of_fits {done left : List (Nat × Nat)} {bytes : List UInt8}
    (hrow : done ++ left ∈ rows) (hleft : left ≠ []) (hfits : Fits done bytes) (hne : bytes ≠ []) :
    BeginsCharacter bytes := by
  have hbounds : ∀ row ∈ rows, ∀ bounds ∈ row, bounds.1 ≤ bounds.2 ∧ bounds.2 < 256 := by decide
  have hmore : Fits left (left.map fun bounds => UInt8.ofNat bounds.1) := by
    refine List.forall₂_map_right_iff.mpr (List.forall₂_same.mpr fun bounds hmem => ?_)
    obtain ⟨hle, hlt⟩ := hbounds _ hrow bounds (List.mem_append_right done hmem)
    exact within_ofNat (Nat.le_refl _) hle hlt
  refine ⟨hne, left.map fun bounds => UInt8.ofNat bounds.1, ?_, _, hrow, List.rel_append hfits hmore⟩
  exact mt List.map_eq_nil_iff.mp hleft

/-- A byte out of bounds ends all hope for a character. -/
theorem not_isCharacter_of_not_within {done left : List (Nat × Nat)} {bounds : Nat × Nat} {bytes : List UInt8}
    {b : UInt8} (hrow : done ++ bounds :: left ∈ rows) (hfits : Fits done bytes) (hne : bytes ≠ [])
    (hb : ¬ Within bounds b) (more : List UInt8) : ¬ IsCharacter (bytes ++ b :: more) := by
  intro h
  obtain ⟨bounds', left', a, rest, hrow', hbytes, ha, hrest⟩ := h.exists_cons
  cases hfits with
  | nil => exact hne rfl
  | @cons bounds₀ a₀ done bytes ha₀ hfits =>
    obtain ⟨rfl, rfl⟩ := List.cons.inj hbytes
    obtain ⟨rfl, rfl⟩ := List.cons.inj (row_unique hrow hrow' ha₀ ha)
    have hdrop := List.forall₂_drop_append (done ++ bounds :: left) bytes (b :: more) hrest
    rw [← hfits.length_eq, List.drop_left] at hdrop
    cases hdrop with
    | cons hwithin _ => exact hb hwithin

/-! ## Texts -/

/-- The bytes of a text. -/
def encode (text : List Char) : List UInt8 :=
  text.flatMap String.utf8EncodeChar

theorem encode_cons (c : Char) (text : List Char) :
    encode (c :: text) = String.utf8EncodeChar c ++ encode text :=
  List.flatMap_cons

theorem encodeChar_injective {c d : Char} (h : String.utf8EncodeChar c = String.utf8EncodeChar d) : c = d := by
  have hbytes : [c].utf8Encode = [d].utf8Encode := by
    rw [List.utf8Encode_singleton, List.utf8Encode_singleton, h]
  have hread := congrArg (ByteArray.utf8DecodeChar? · 0) hbytes
  simpa using hread

theorem ofNat_codePoint (c : Char) : Char.ofNat (codePoint (String.utf8EncodeChar c)) = c :=
  encodeChar_injective (encodeChar_codePoint (isCharacter_encodeChar c))

/-- What is well-formed is the bytes of a text. -/
theorem wellFormed_iff {bytes : List UInt8} : WellFormed bytes ↔ ∃ text, encode text = bytes := by
  constructor
  · intro h
    induction h with
    | nil => exact ⟨[], rfl⟩
    | @character first more hfirst _ ih =>
      obtain ⟨text, htext⟩ := ih
      exact ⟨Char.ofNat (codePoint first) :: text, by rw [encode_cons, encodeChar_codePoint hfirst, htext]⟩
  · rintro ⟨text, rfl⟩
    induction text with
    | nil => exact .nil
    | cons c text ih =>
      rw [encode_cons]
      exact .character (isCharacter_encodeChar c) ih

end Utf8

end PegTree
