import PegTree.Proofs.Text.Quoted
import PegTree.Tree.Json

/-!
# JSON texts can be read back

A value is written without blanks, its text holds no control characters (`Value.clean_compact`), and it can
be read back from its text (`read?_compact`).

In a list the closing bracket or a comma tells where an item ends, and a number ends where no more digits
come; so an item can be read off whatever text it stands in front of, if only that does not begin with a
digit.  The reader is given as many steps as the text has characters: every item of a list is shorter than
the list.
-/

namespace PegTree

namespace Json

/-! ## Values -/

mutual

/-- A value as it is met in the trees that are written: there are no fractions and no truth values. -/
inductive Value where
  | number (n : Nat)
  | text (s : String)
  | array (items : List Value)
  | object (fields : List Field)

/-- A field of an object. -/
structure Field where
  key : String
  value : Value

end

mutual

/-- The text of a value. -/
def Value.compact : Value → String
  | .number n => Json.number n
  | .text s => Json.text s
  | .array items => Json.array (compactItems items)
  | .object fields => Json.object (compactFields fields)

/-- The texts of items. -/
def compactItems : List Value → List String
  | [] => []
  | v :: items => v.compact :: compactItems items

/-- The texts of fields. -/
def compactFields : List Field → List String
  | [] => []
  | ⟨key, v⟩ :: fields => Json.field key v.compact :: compactFields fields

end

/-- The text of a field. -/
def Field.compact (f : Field) : String :=
  Json.field f.key f.value.compact

theorem compactItems_eq_map (items : List Value) : compactItems items = items.map Value.compact := by
  induction items with
  | nil => rfl
  | cons v items ih => rw [compactItems, ih, List.map_cons]

theorem compactFields_eq_map (fields : List Field) : compactFields fields = fields.map Field.compact := by
  induction fields with
  | nil => rfl
  | cons f fields ih =>
    cases f
    rw [compactFields, ih, List.map_cons, Field.compact]

/-! ## Strings -/

/-- The character that a letter stands for behind a backslash. -/
def unescaped (letter : Char) : Char :=
  if letter = 'b' then '\x08'
  else if letter = 'f' then '\x0c'
  else if letter = 'n' then '\n'
  else if letter = 'r' then '\r'
  else if letter = 't' then '\t'
  else letter

/-- The character that is written in front of a text, and what is behind it. -/
def readCharacter : List Char → Option (Char × List Char)
  | [] => none
  | c :: rest =>
    if c ≠ '\\' then some (c, rest)
    else match rest with
      | [] => none
      | letter :: rest =>
        if letter ≠ 'u' then some (unescaped letter, rest)
        else some (Char.ofNat (hexNumber (rest.take 4)), rest.drop 4)

/-- The characters of a string up to the closing quote, and what is behind it, in so many steps. -/
def readCharacters : Nat → List Char → Option (List Char × List Char)
  | 0, _ => none
  | left + 1, text =>
    if text.head? = some '"' then some ([], text.tail)
    else match readCharacter text with
      | none => none
      | some (c, rest) => (readCharacters left rest).map (Prod.map (c :: ·) id)

/-- The three ways in which a character is written. -/
theorem escaped_cases (c : Char) :
    (∃ letter, escaped c = ['\\', letter] ∧ unescaped letter = c ∧ letter ≠ 'u' ∧
      Clean ['\\', letter]) ∨
    (escaped c = ['\\', 'u', '0', '0', Nat.digitChar (c.toNat / 16), Nat.digitChar (c.toNat % 16)] ∧
      c.toNat < 0x20) ∨
    (escaped c = [c] ∧ c ≠ '"' ∧ c ≠ '\\' ∧ 0x20 ≤ c.toNat) := by
  unfold escaped
  split
  · next h => exact .inl ⟨'"', rfl, h.symm, by decide, by decide⟩
  split
  · next h => exact .inl ⟨'\\', rfl, h.symm, by decide, by decide⟩
  split
  · next h => exact .inl ⟨'b', rfl, h.symm, by decide, by decide⟩
  split
  · next h => exact .inl ⟨'f', rfl, h.symm, by decide, by decide⟩
  split
  · next h => exact .inl ⟨'n', rfl, h.symm, by decide, by decide⟩
  split
  · next h => exact .inl ⟨'r', rfl, h.symm, by decide, by decide⟩
  split
  · next h => exact .inl ⟨'t', rfl, h.symm, by decide, by decide⟩
  split
  · next h => exact .inr (.inl ⟨rfl, h⟩)
  · next hquote hbackslash _ _ _ _ _ h =>
    exact .inr (.inr ⟨rfl, hquote, hbackslash, Nat.le_of_not_lt h⟩)

theorem hexNumber_two {n : Nat} (h : n < 0x20) :
    hexNumber ['0', '0', Nat.digitChar (n / 16), Nat.digitChar (n % 16)] = n := by
  have hhigh := hexValue_digitChar (d := n / 16) (by omega)
  have hlow := hexValue_digitChar (d := n % 16) (by omega)
  show ((0 * 16 + 0) * 16 + hexValue (Nat.digitChar (n / 16))) * 16 + hexValue (Nat.digitChar (n % 16)) = n
  rw [hhigh, hlow]
  omega

theorem readCharacter_escaped (c : Char) (rest : List Char) :
    readCharacter (escaped c ++ rest) = some (c, rest) := by
  obtain ⟨letter, htext, hc, hletter, -⟩ | ⟨htext, hc⟩ | ⟨htext, -, hc, -⟩ := escaped_cases c
  · rw [htext, ← hc]
    exact if_pos hletter
  · rw [htext]
    show some (Char.ofNat (hexNumber ['0', '0', Nat.digitChar (c.toNat / 16), Nat.digitChar (c.toNat % 16)]),
      rest) = _
    rw [hexNumber_two hc, Char.ofNat_toNat]
  · rw [htext]
    exact if_pos hc

/-- What is written for a character is something, and does not begin with a quote. -/
theorem exists_escaped_eq (c : Char) : ∃ x more, escaped c = x :: more ∧ x ≠ '"' := by
  obtain ⟨letter, htext, -⟩ | ⟨htext, -⟩ | ⟨htext, hc, -⟩ := escaped_cases c
  · exact ⟨_, _, htext, by decide⟩
  · exact ⟨_, _, htext, by decide⟩
  · exact ⟨_, _, htext, hc⟩

/-- A string is read up to its closing quote. -/
theorem readCharacters_append {left : Nat} {text : List Char} (hleft : (text.flatMap escaped).length < left)
    (rest : List Char) : readCharacters left (text.flatMap escaped ++ '"' :: rest) = some (text, rest) := by
  induction text generalizing left with
  | nil =>
    obtain ⟨left, rfl⟩ := Nat.exists_eq_add_of_lt hleft
    rfl
  | cons c text ih =>
    obtain ⟨x, more, htext, hx⟩ := exists_escaped_eq c
    have hhead : (escaped c ++ (text.flatMap escaped ++ '"' :: rest)).head? ≠ some '"' := by
      rw [htext]
      exact fun h => hx (Option.some.inj h)
    rw [List.flatMap_cons, List.length_append, htext, List.length_cons] at hleft
    obtain ⟨left, rfl⟩ : ∃ k, left = k + 1 := ⟨left - 1, by omega⟩
    rw [List.flatMap_cons, List.append_assoc, readCharacters, if_neg hhead, readCharacter_escaped]
    show (readCharacters left _).map (Prod.map (c :: ·) id) = _
    rw [ih (by omega)]
    rfl

theorem toList_text (s : String) : (Json.text s).toList = '"' :: (s.toList.flatMap escaped ++ ['"']) := by
  rw [Json.text, String.toList_ofList]
  rfl

/-! ## Lists -/

/-- Whether no digit stands where a text begins. -/
def Stops (rest : List Char) : Prop :=
  ∀ x more, rest = x :: more → x.isDigit = false

section

variable {α : Type}

/-- Items with commas in between up to a closing bracket, and what is behind it, in so many steps. -/
def readItems (item : List Char → Option (α × List Char)) (close : Char) :
    Nat → List Char → Option (List α × List Char)
  | 0, _ => none
  | left + 1, text =>
    match item text with
    | some (a, c :: rest) =>
      if c = close then some ([a], rest)
      else if c = ',' then (readItems item close left rest).map (Prod.map (a :: ·) id)
      else none
    | _ => none

/-- A list that may be empty. -/
def readList (item : List Char → Option (α × List Char)) (close : Char) (left : Nat) (text : List Char) :
    Option (List α × List Char) :=
  if text.head? = some close then some ([], text.tail) else readItems item close left text

theorem toList_intercalate_cons_cons (s t : String) (more : List String) :
    (",".intercalate (s :: t :: more)).toList = s.toList ++ ',' :: (",".intercalate (t :: more)).toList := by
  rw [String.intercalate_cons_cons, String.toList_append, String.toList_append, List.append_assoc]
  rfl

/-- An item is no longer than the list, and there are no more items than characters and one. -/
theorem length_le_intercalate (texts : List String) :
    texts.length ≤ (",".intercalate texts).toList.length + 1 ∧
      ∀ t ∈ texts, t.toList.length ≤ (",".intercalate texts).toList.length := by
  match texts with
  | [] => simp
  | [s] => simp [String.intercalate_singleton]
  | s :: t :: more =>
    obtain ⟨hcount, hitems⟩ := length_le_intercalate (t :: more)
    rw [List.length_cons] at hcount
    rw [toList_intercalate_cons_cons, List.length_append, List.length_cons, List.length_cons,
      List.length_cons]
    refine ⟨by omega, ?_⟩
    intro u hu
    rcases List.mem_cons.mp hu with rfl | hu
    · omega
    · have := hitems u hu
      omega

variable {item : List Char → Option (α × List Char)} {write : α → String} {close : Char}

/-- Items are read one after the other: by induction on the steps. -/
theorem readItems_intercalate (hclose : close.isDigit = false) (hcomma : close ≠ ',') (rest : List Char)
    {left : Nat} {items : List α} (hne : items ≠ []) (hleft : items.length ≤ left)
    (hitem : ∀ a ∈ items, ∀ rest, Stops rest → item ((write a).toList ++ rest) = some (a, rest)) :
    readItems item close left ((",".intercalate (items.map write)).toList ++ close :: rest) =
      some (items, rest) := by
  induction left generalizing items with
  | zero => exact absurd (List.eq_nil_of_length_eq_zero (Nat.le_zero.mp hleft)) hne
  | succ left ih =>
    have hstop : Stops (close :: rest) := by
      intro x more hx
      rw [← (List.cons.inj hx).1]
      exact hclose
    match items with
    | [a] =>
      have ha := hitem a List.mem_cons_self _ hstop
      rw [List.map_cons, List.map_nil, String.intercalate_singleton, readItems, ha]
      exact if_pos rfl
    | a :: b :: more =>
      have hstop' : ∀ us, Stops (',' :: us) := by
        intro us x more hx
        rw [← (List.cons.inj hx).1]
        rfl
      have ha := hitem a List.mem_cons_self _ (hstop' ((",".intercalate ((b :: more).map write)).toList ++
        close :: rest))
      have hmore := ih (List.cons_ne_nil b more) (Nat.le_of_succ_le_succ hleft)
        (fun c hc => hitem c (List.mem_cons_of_mem _ hc))
      rw [List.map_cons, List.map_cons, toList_intercalate_cons_cons, List.append_assoc, List.cons_append,
        ← List.map_cons, readItems, ha]
      show (if ',' = close then _ else if ',' = ',' then _ else _) = _
      rw [if_neg (Ne.symm hcomma), if_pos rfl, hmore]
      rfl

theorem readList_intercalate (hclose : close.isDigit = false) (hcomma : close ≠ ',') (rest : List Char)
    {left : Nat} {items : List α} (hleft : items.length ≤ left)
    (hhead : ∀ a ∈ items, ∃ x more, (write a).toList = x :: more ∧ x ≠ close)
    (hitem : ∀ a ∈ items, ∀ rest, Stops rest → item ((write a).toList ++ rest) = some (a, rest)) :
    readList item close left ((",".intercalate (items.map write)).toList ++ close :: rest) =
      some (items, rest) := by
  match items with
  | [] =>
    rw [List.map_nil, String.intercalate_nil]
    exact if_pos rfl
  | a :: more =>
    have hne : ((",".intercalate ((a :: more).map write)).toList ++ close :: rest).head? ≠ some close := by
      obtain ⟨x, others, hx, hxne⟩ := hhead a List.mem_cons_self
      cases more with
      | nil =>
        rw [List.map_cons, List.map_nil, String.intercalate_singleton, hx]
        exact fun h => hxne (Option.some.inj h)
      | cons b more =>
        rw [List.map_cons, List.map_cons, toList_intercalate_cons_cons, hx]
        exact fun h => hxne (Option.some.inj h)
    rw [readList, if_neg hne]
    exact readItems_intercalate hclose hcomma rest (List.cons_ne_nil _ _) hleft hitem

end

/-! ## Reading values -/

/-- A field, and what is behind it. -/
def readField (value : List Char → Option (Value × List Char)) (left : Nat) (text : List Char) :
    Option (Field × List Char) :=
  match readCharacters left text.tail with
  | some (key, ':' :: rest) => (value rest).map (Prod.map (Field.mk (String.ofList key)) id)
  | _ => none

/-- The value that a text begins with, and what is behind it, in so many steps. -/
def readValue : Nat → List Char → Option (Value × List Char)
  | 0, _ => none
  | _ + 1, [] => none
  | left + 1, c :: rest =>
    if c = '"' then (readCharacters left rest).map (Prod.map (fun cs => .text (String.ofList cs)) id)
    else if c = '[' then (readList (readValue left) ']' left rest).map (Prod.map .array id)
    else if c = '\x7b' then
      (readList (readField (readValue left) left) '\x7d' left rest).map (Prod.map .object id)
    else if c.isDigit then
      some (.number (Nat.ofDigitChars 10 ((c :: rest).takeWhile Char.isDigit) 0),
        (c :: rest).dropWhile Char.isDigit)
    else none

/-- The value of a text. -/
def read? (text : String) : Option Value :=
  match readValue (text.toList.length + 1) text.toList with
  | some (v, []) => some v
  | _ => none

theorem toList_array (items : List Value) :
    (Value.array items).compact.toList =
      '[' :: ((",".intercalate (items.map Value.compact)).toList ++ [']']) := by
  rw [Value.compact, Json.array, compactItems_eq_map, String.toList_append, String.toList_append]
  rfl

theorem toList_object (fields : List Field) :
    (Value.object fields).compact.toList =
      '\x7b' :: ((",".intercalate (fields.map Field.compact)).toList ++ ['\x7d']) := by
  rw [Value.compact, Json.object, compactFields_eq_map, String.toList_append, String.toList_append]
  rfl

theorem toList_field (f : Field) :
    f.compact.toList =
      '"' :: (f.key.toList.flatMap escaped ++ '"' :: ':' :: f.value.compact.toList) := by
  rw [Field.compact, Json.field, String.toList_append, String.toList_append, toList_text]
  simp

theorem length_value_lt (f : Field) : f.value.compact.toList.length < f.compact.toList.length := by
  rw [toList_field, List.length_cons, List.length_append, List.length_cons, List.length_cons]
  omega

theorem toList_number (n : Nat) : (Value.number n).compact.toList = Nat.toDigits 10 n := by
  rw [Value.compact, Json.number]
  exact Nat.toList_repr

/-- The text of a value is not empty and does not begin like the end of a list. -/
theorem exists_compact_eq (v : Value) : ∃ x more, v.compact.toList = x :: more ∧ x ≠ ']' := by
  cases v with
  | number n =>
    rw [toList_number]
    obtain ⟨x, more, hdigits⟩ := List.exists_cons_of_ne_nil (Nat.toDigits_ne_nil (n := n) (b := 10))
    refine ⟨x, more, hdigits, ?_⟩
    rintro rfl
    have hdigit := Nat.isDigit_of_mem_toDigits (by decide) (by decide)
      (show ']' ∈ Nat.toDigits 10 n by rw [hdigits]; exact List.mem_cons_self)
    exact absurd hdigit (by decide)
  | text s => exact ⟨_, _, toList_text s, by decide⟩
  | array items => exact ⟨_, _, toList_array items, by decide⟩
  | object fields => exact ⟨_, _, toList_object fields, by decide⟩

theorem readField_compact {value : List Char → Option (Value × List Char)} {left : Nat} {f : Field}
    {rest : List Char} (hleft : f.compact.toList.length ≤ left)
    (hvalue : value (f.value.compact.toList ++ rest) = some (f.value, rest)) :
    readField value left (f.compact.toList ++ rest) = some (f, rest) := by
  rw [toList_field, List.length_cons, List.length_append] at hleft
  have hkey : readCharacters left
      (f.key.toList.flatMap escaped ++ '"' :: ':' :: (f.value.compact.toList ++ rest)) =
        some (f.key.toList, ':' :: (f.value.compact.toList ++ rest)) :=
    readCharacters_append (by omega) _
  have htext : (f.compact.toList ++ rest).tail =
      f.key.toList.flatMap escaped ++ '"' :: ':' :: (f.value.compact.toList ++ rest) := by
    rw [toList_field]
    simp
  rw [readField, htext, hkey]
  show (value (f.value.compact.toList ++ rest)).map _ = _
  rw [hvalue]
  show some (Field.mk (String.ofList f.key.toList) f.value, rest) = _
  rw [String.ofList_toList]
  cases f
  rfl

/-- A number is read up to its last digit. -/
theorem readValue_number {left n : Nat} (hleft : 0 < left) {rest : List Char} (hrest : Stops rest) :
    readValue left (Nat.toDigits 10 n ++ rest) = some (.number n, rest) := by
  have hall : ∀ x ∈ Nat.toDigits 10 n, x.isDigit = true :=
    fun _ hx => Nat.isDigit_of_mem_toDigits (by decide) (by decide) hx
  have htake := takeWhile_append_of_stop hall hrest
  have hdrop := dropWhile_append_of_stop hall hrest
  obtain ⟨left, rfl⟩ := Nat.exists_eq_add_of_lt hleft
  obtain ⟨x, more, hdigits⟩ := List.exists_cons_of_ne_nil (Nat.toDigits_ne_nil (n := n) (b := 10))
  have hx : x.isDigit = true := hall x (by rw [hdigits]; exact List.mem_cons_self)
  have hne : ∀ y : Char, y.isDigit = false → x ≠ y := by
    rintro y hy rfl
    cases hx.symm.trans hy
  rw [hdigits, List.cons_append] at htake hdrop
  rw [hdigits, List.cons_append, Nat.zero_add, readValue, if_neg (hne _ rfl), if_neg (hne _ rfl),
    if_neg (hne _ rfl), if_pos hx, htake, hdrop, ← hdigits,
    Nat.ofDigitChars_toDigits (by decide) (by decide)]

/-- A value is read off its text, whatever stands behind it: by induction on the steps. -/
theorem readValue_compact {left : Nat} {v : Value} (hleft : v.compact.toList.length < left)
    {rest : List Char} (hrest : Stops rest) : readValue left (v.compact.toList ++ rest) = some (v, rest) := by
  induction left generalizing v rest with
  | zero => exact absurd hleft (Nat.not_lt_zero _)
  | succ left ih =>
    cases v with
    | number n =>
      rw [toList_number]
      exact readValue_number (Nat.succ_pos left) hrest
    | text s =>
      have htext : (Value.text s).compact.toList = '"' :: (s.toList.flatMap escaped ++ ['"']) := toList_text s
      rw [htext, List.length_cons, List.length_append, List.length_singleton] at hleft
      have hread : readCharacters left (s.toList.flatMap escaped ++ '"' :: rest) = some (s.toList, rest) :=
        readCharacters_append (by omega) rest
      rw [htext, List.cons_append, List.append_assoc]
      show (readCharacters left (s.toList.flatMap escaped ++ '"' :: rest)).map _ = _
      rw [hread]
      show some (Value.text (String.ofList s.toList), rest) = _
      rw [String.ofList_toList]
    | array items =>
      rw [toList_array, List.length_cons, List.length_append, List.length_singleton] at hleft
      obtain ⟨hcount, hitems⟩ := length_le_intercalate (items.map Value.compact)
      rw [List.length_map] at hcount
      have hread : readList (readValue left) ']' left
          ((",".intercalate (items.map Value.compact)).toList ++ ']' :: rest) = some (items, rest) := by
        apply readList_intercalate rfl (by decide) rest (by omega)
        · intro v _
          exact exists_compact_eq v
        · intro v hv behind hstop
          have hlength := hitems v.compact (List.mem_map_of_mem hv)
          exact ih (by omega) hstop
      rw [toList_array, List.cons_append, List.append_assoc]
      show (readList (readValue left) ']' left (_ ++ ']' :: rest)).map _ = _
      rw [hread]
      rfl
    | object fields =>
      rw [toList_object, List.length_cons, List.length_append, List.length_singleton] at hleft
      obtain ⟨hcount, hfields⟩ := length_le_intercalate (fields.map Field.compact)
      rw [List.length_map] at hcount
      have hread : readList (readField (readValue left) left) '\x7d' left
          ((",".intercalate (fields.map Field.compact)).toList ++ '\x7d' :: rest) = some (fields, rest) := by
        apply readList_intercalate rfl (by decide) rest (by omega)
        · intro f _
          exact ⟨_, _, toList_field f, by decide⟩
        · intro f hf behind hstop
          have hlength := hfields f.compact (List.mem_map_of_mem hf)
          have hvalue := length_value_lt f
          exact readField_compact (by omega) (ih (by omega) hstop)
      rw [toList_object, List.cons_append, List.append_assoc]
      show (readList (readField (readValue left) left) '\x7d' left (_ ++ '\x7d' :: rest)).map _ = _
      rw [hread]
      rfl

theorem read?_compact (v : Value) : read? v.compact = some v := by
  have hstop : Stops [] := fun x more h => nomatch h
  have hread := readValue_compact (Nat.lt_succ_self v.compact.toList.length) hstop
  rw [List.append_nil] at hread
  rw [read?, hread]

/-! ## Control characters -/

theorem clean_append {s t : String} (hs : Clean s.toList) (ht : Clean t.toList) : Clean (s ++ t).toList := by
  rw [String.toList_append]
  exact hs.append ht

theorem clean_intercalate {texts : List String} (h : ∀ t ∈ texts, Clean t.toList) :
    Clean (",".intercalate texts).toList := by
  match texts with
  | [] => exact fun x hx => nomatch hx
  | [s] =>
    rw [String.intercalate_singleton]
    exact h s List.mem_cons_self
  | s :: t :: more =>
    have hcomma : Clean [','] := by decide
    have hmore := clean_intercalate fun u hu => h u (List.mem_cons_of_mem _ hu)
    rw [toList_intercalate_cons_cons]
    exact (h s List.mem_cons_self).append (hcomma.append hmore)

theorem clean_escaped (c : Char) : Clean (escaped c) := by
  obtain ⟨letter, htext, -, -, hletter⟩ | ⟨htext, hc⟩ | ⟨htext, -, -, hc⟩ := escaped_cases c
  · rw [htext]
    exact hletter
  · have hopen : Clean ['\\', 'u', '0', '0'] := by decide
    have hdigits : Clean [Nat.digitChar (c.toNat / 16), Nat.digitChar (c.toNat % 16)] := by
      intro x hx
      rcases List.mem_pair.mp hx with rfl | rfl
      · exact le_toNat_of_isHexDigit (isHexDigit_digitChar (by omega))
      · exact le_toNat_of_isHexDigit (isHexDigit_digitChar (by omega))
    rw [htext]
    exact hopen.append hdigits
  · rw [htext]
    intro x hx
    rw [List.mem_singleton.mp hx]
    exact hc

theorem clean_text (s : String) : Clean (Json.text s).toList := by
  have hquote : Clean ['"'] := by decide
  rw [toList_text]
  exact hquote.append ((clean_flatMap clean_escaped).append hquote)

theorem clean_number (n : Nat) : Clean (Json.number n).toList := by
  intro x hx
  have hx : x ∈ Nat.toDigits 10 n := by rwa [← Nat.toList_repr]
  have hzero : '0'.toNat ≤ x.toNat :=
    (Char.isDigit_iff_toNat.mp (Nat.isDigit_of_mem_toDigits (by decide) (by decide) hx)).1
  exact Nat.le_trans (by decide) hzero

theorem clean_field {key value : String} (h : Clean value.toList) : Clean (Json.field key value).toList :=
  clean_append (clean_append (clean_text key) (by decide)) h

theorem clean_array {items : List String} (h : ∀ t ∈ items, Clean t.toList) :
    Clean (Json.array items).toList :=
  clean_append (clean_append (by decide) (clean_intercalate h)) (by decide)

theorem clean_object {fields : List String} (h : ∀ t ∈ fields, Clean t.toList) :
    Clean (Json.object fields).toList :=
  clean_append (clean_append (by decide) (clean_intercalate h)) (by decide)

mutual

theorem Value.clean_compact : ∀ v : Value, Clean v.compact.toList
  | .number n => clean_number n
  | .text s => clean_text s
  | .array items => clean_array (clean_compactItems items)
  | .object fields => clean_object (clean_compactFields fields)

theorem clean_compactItems : ∀ items : List Value, ∀ t ∈ compactItems items, Clean t.toList
  | [], _, ht => nomatch ht
  | v :: items, t, ht =>
    (List.mem_cons.mp ht).elim (fun h => h ▸ v.clean_compact) (clean_compactItems items t)

theorem clean_compactFields : ∀ fields : List Field, ∀ t ∈ compactFields fields, Clean t.toList
  | [], _, ht => nomatch ht
  | ⟨_, v⟩ :: fields, t, ht =>
    (List.mem_cons.mp ht).elim (fun h => h ▸ clean_field v.clean_compact) (clean_compactFields fields t)

end

end Json

end PegTree
