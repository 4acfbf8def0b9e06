import PegTree.Notation.Blanks
import PegTree.Notation.Resolve
import PegTree.Proofs.Text.Lines
import PegTree.Proofs.Text.Runs
import PegTree.Text.Quoted

/-!
# Quoted texts can be read back

Whatever a text holds, no control character is left between its quotes (`clean_quotedText`), and
the text is the only one that is quoted in this way (`quotedText_injective`).

An escape begins with a backslash and says itself where it ends: a letter comes next, or digits between
braces.  So the first character can be read off what is written (`readEscaped_escaped`) and the rest is what
was written for the others.  What the tables of characters say does not matter for that: it only matters
that backslashes and quotes are never written as they are.
-/

namespace PegTree

/-! ## Hexadecimal digits -/

theorem hexValue_digitChar {d : Nat} (h : d < 16) : hexValue d.digitChar = d := by
  have hall : ∀ d < 16, hexValue d.digitChar = d := by decide
  exact hall d h

theorem isHexDigit_digitChar {d : Nat} (h : d < 16) : isHexDigit d.digitChar = true := by
  have hall : ∀ d < 16, isHexDigit d.digitChar = true := by decide
  exact hall d h

/-- The digits of a number, by induction on how many more there are than the last. -/
theorem hexNumber_toDigits (n : Nat) : hexNumber (Nat.toDigits 16 n) = n := by
  induction n using Nat.strongRecOn with
  | ind n ih =>
    rcases Nat.lt_or_ge n 16 with hlt | hge
    · rw [Nat.toDigits_of_lt_base hlt]
      show 0 * 16 + hexValue n.digitChar = n
      rw [hexValue_digitChar hlt]
      omega
    · have hdigit : n % 16 < 16 := Nat.mod_lt n (by decide)
      have hmore := ih (n / 16) (by omega)
      rw [hexNumber] at hmore
      rw [Nat.toDigits_of_base_le (by decide) hge, hexNumber, List.foldl_append, hmore]
      show n / 16 * 16 + hexValue (n % 16).digitChar = n
      rw [hexValue_digitChar hdigit]
      omega

theorem isHexDigit_of_mem_toDigits {n : Nat} {x : Char} (h : x ∈ Nat.toDigits 16 n) :
    isHexDigit x = true := by
  induction n using Nat.strongRecOn with
  | ind n ih =>
    rcases Nat.lt_or_ge n 16 with hlt | hge
    · rw [Nat.toDigits_of_lt_base hlt, List.mem_singleton] at h
      rw [h]
      exact isHexDigit_digitChar hlt
    · rw [Nat.toDigits_of_base_le (by decide) hge, List.mem_append, List.mem_singleton] at h
      rcases h with h | rfl
      · exact ih (n / 16) (by omega) h
      · exact isHexDigit_digitChar (Nat.mod_lt n (by decide))

/-! ## Characters -/

/-- The character that a letter stands for behind a backslash. -/
def unescaped (letter : Char) : Char :=
  if letter = '0' then '\x00'
  else if letter = 't' then '\t'
  else if letter = 'r' then '\r'
  else if letter = 'n' then '\n'
  else letter

/-- The character that is written in front of a text, and what is behind it. -/
def readEscaped : List Char → Option (Char × List Char)
  | [] => none
  | c :: rest =>
    if c ≠ '\\' then some (c, rest)
    else match rest with
      | [] => none
      | letter :: rest =>
        if letter ≠ 'u' then some (unescaped letter, rest)
        else
          let digits := rest.tail.takeWhile isHexDigit
          some (Char.ofNat (hexNumber digits), (rest.tail.dropWhile isHexDigit).tail)

/-- The three ways in which a character is written. -/
theorem escaped_cases (c : Char) :
    (∃ letter, escaped '"' c = ['\\', letter] ∧ unescaped letter = c ∧ letter ≠ 'u' ∧
      Clean ['\\', letter]) ∨
    escaped '"' c = hexEscape c ∨
    (escaped '"' c = [c] ∧ c ≠ '\\' ∧ isPrintable c = true) := by
  unfold escaped
  split
  · next h => exact .inl ⟨'0', rfl, h.symm, by decide, by decide⟩
  split
  · next h => exact .inl ⟨'t', rfl, h.symm, by decide, by decide⟩
  split
  · next h => exact .inl ⟨'r', rfl, h.symm, by decide, by decide⟩
  split
  · next h => exact .inl ⟨'n', rfl, h.symm, by decide, by decide⟩
  split
  · next h => exact .inl ⟨'\\', rfl, h.symm, by decide, by decide⟩
  split
  · next h => exact .inl ⟨'"', rfl, h.symm, by decide, by decide⟩
  split
  · exact .inr (.inl rfl)
  · next hbackslash _ hshown =>
    rw [Bool.or_eq_true, not_or, Bool.not_eq_true', Bool.not_eq_false] at hshown
    exact .inr (.inr ⟨rfl, hbackslash, hshown.2⟩)

theorem readEscaped_hexEscape (c : Char) (rest : List Char) :
    readEscaped (hexEscape c ++ rest) = some (c, rest) := by
  have hdigits : ∀ x ∈ Nat.toDigits 16 c.toNat, isHexDigit x = true := fun _ => isHexDigit_of_mem_toDigits
  have hbrace : ∀ x more, '\x7d' :: rest = x :: more → isHexDigit x = false := by
    intro x more h
    rw [← (List.cons.inj h).1]
    rfl
  have htext :
      hexEscape c ++ rest = '\\' :: 'u' :: '\x7b' :: (Nat.toDigits 16 c.toNat ++ '\x7d' :: rest) := by
    simp [hexEscape]
  rw [htext]
  show some (Char.ofNat (hexNumber (List.takeWhile isHexDigit _)), (List.dropWhile isHexDigit _).tail) = _
  rw [List.tail_cons, takeWhile_append_of_stop hdigits hbrace, dropWhile_append_of_stop hdigits hbrace,
    hexNumber_toDigits, Char.ofNat_toNat, List.tail_cons]

/-- What is written for a character says which it is and where it ends. -/
theorem readEscaped_escaped (c : Char) (rest : List Char) :
    readEscaped (escaped '"' c ++ rest) = some (c, rest) := by
  obtain ⟨letter, htext, hc, hletter, -⟩ | htext | ⟨htext, hc, -⟩ := escaped_cases c
  · rw [htext, ← hc]
    exact if_pos hletter
  · rw [htext]
    exact readEscaped_hexEscape c rest
  · rw [htext]
    exact if_pos hc

/-- What is written for a character does not begin with a quote. -/
theorem quote_cons_ne (us : List Char) (c : Char) (rest : List Char) :
    '"' :: us ≠ escaped '"' c ++ rest := by
  intro h
  have hread : some ('"', us) = some (c, rest) := by
    rw [← readEscaped_escaped c rest, ← h]
    rfl
  obtain ⟨rfl, -⟩ := Prod.mk.inj (Option.some.inj hread)
  exact absurd (List.cons.inj h).1 (by decide)

/-- A text is known by what is written for it up to the quote behind it: by induction on the text. -/
theorem flatMap_escaped_append_inj {text other us vs : List Char}
    (h : text.flatMap (escaped '"') ++ '"' :: us = other.flatMap (escaped '"') ++ '"' :: vs) :
    text = other ∧ us = vs := by
  induction text generalizing other with
  | nil =>
    cases other with
    | nil => exact ⟨rfl, (List.cons.inj h).2⟩
    | cons d other =>
      rw [List.flatMap_cons, List.append_assoc] at h
      exact absurd h (quote_cons_ne us d _)
  | cons c text ih =>
    cases other with
    | nil =>
      rw [List.flatMap_cons, List.append_assoc] at h
      exact absurd h.symm (quote_cons_ne vs c _)
    | cons d other =>
      have hread := congrArg readEscaped h
      rw [List.flatMap_cons, List.flatMap_cons, List.append_assoc, List.append_assoc,
        readEscaped_escaped, readEscaped_escaped] at hread
      obtain ⟨hcd, hrest⟩ := Prod.mk.inj (Option.some.inj hread)
      obtain ⟨htext, hus⟩ := ih hrest
      exact ⟨by rw [hcd, htext], hus⟩

/-! ## Texts -/

theorem toList_quotedText (s : String) :
    (quotedText s).toList = '"' :: (s.toList.flatMap (escaped '"') ++ ['"']) := by
  rw [quotedText, String.toList_ofList]
  rfl

theorem quotedText_injective {s t : String} (h : quotedText s = quotedText t) : s = t := by
  have htext := congrArg String.toList h
  rw [toList_quotedText, toList_quotedText] at htext
  exact String.toList_inj.mp (flatMap_escaped_append_inj (List.cons.inj htext).2).1

/-- A control character is not printable. -/
theorem le_toNat_of_isPrintable {c : Char} (h : isPrintable c = true) : 0x20 ≤ c.toNat := by
  refine Nat.le_of_not_lt fun hlt => ?_
  have hholds : CodeRanges.holds c.toNat unprintable = true := by
    rw [unprintable, CodeRanges.holds, if_neg (by omega), Bool.or_eq_true]
    exact .inl (decide_eq_true (by omega))
  rw [isPrintable, hholds] at h
  cases h

theorem le_toNat_of_isHexDigit {x : Char} (h : isHexDigit x = true) : 0x20 ≤ x.toNat := by
  rw [isHexDigit, Bool.or_eq_true, Bool.or_eq_true, Bool.and_eq_true, Bool.and_eq_true] at h
  rcases h with (h | ⟨h, -⟩) | ⟨h, -⟩
  · have hzero : '0'.toNat ≤ x.toNat := (Char.isDigit_iff_toNat.mp h).1
    exact Nat.le_trans (by decide) hzero
  · have ha : 'a'.toNat ≤ x.toNat := of_decide_eq_true h
    exact Nat.le_trans (by decide) ha
  · have hA : 'A'.toNat ≤ x.toNat := of_decide_eq_true h
    exact Nat.le_trans (by decide) hA

theorem clean_hexEscape (c : Char) : Clean (hexEscape c) := by
  have hopen : Clean ['\\', 'u', '\x7b'] := by decide
  have hclose : Clean ['\x7d'] := by decide
  have hdigits : Clean (Nat.toDigits 16 c.toNat) := by
    intro x hx
    exact le_toNat_of_isHexDigit (isHexDigit_of_mem_toDigits hx)
  exact (hopen.append hdigits).append hclose

theorem clean_escaped (c : Char) : Clean (escaped '"' c) := by
  obtain ⟨letter, htext, -, -, hletter⟩ | htext | ⟨htext, -, hc⟩ := escaped_cases c
  · rw [htext]
    exact hletter
  · rw [htext]
    exact clean_hexEscape c
  · rw [htext]
    intro x hx
    rw [List.mem_singleton.mp hx]
    exact le_toNat_of_isPrintable hc

/-- There are no control characters in what is shown of a text. -/
theorem clean_quotedText (s : String) : Clean (quotedText s).toList := by
  have hquote : Clean ['"'] := by decide
  rw [toList_quotedText]
  exact hquote.append ((clean_flatMap clean_escaped).append hquote)

end PegTree
