import PegTree.Notation.Blanks
import PegTree.Notation.Phrase
import PegTree.Proofs.Text.Runs

/-!
# Splitting a text into tokens

The tokens of the notation are names, quoted texts and character codes, the two dots of a range and
the signs of one character.  `Splits` says how a text is made of them: blanks and comments may stand
anywhere between two tokens, and a name is as long as it can be.

A text splits in at most one way (`Splits.unique`), because what a token is shows in its first
character and where it ends in what follows.  Blanks in front make no difference: where
`Cursor.skipBlanks` has passed them, a token begins or the text ends (`Splits.head`).
-/

namespace PegTree

/-! ## Tokens -/

/-- A token of the notation. -/
inductive Token where
  | name (text : String)
  | character (form : CharacterForm)
  /-- The two dots between the bounds of a range. -/
  | dots
  | sign (c : Char)
deriving DecidableEq, Repr

/-- The signs of one character. -/
def signs : List Char :=
  ['=', ';', '|', '#', '!', '@', '(', ')', '\x7b', '\x7d', '[', ']', '$']

/-- How a token is written. -/
inductive Token.Spelled : Token → List Char → Prop
  | name {x : Char} {xs : List Char} :
      beginsName x = true → (∀ y ∈ xs, continuesName y = true) →
      Spelled (.name (String.ofList (x :: xs))) (x :: xs)
  | quoted {quote : Char} {body : List Char} :
      quote = '\'' ∨ quote = '"' → quote ∉ body →
      Spelled (.character (.quoted body)) (quote :: (body ++ [quote]))
  | code {kind : Char} {digits : List Char} :
      kind = 'x' ∧ digits.length = 2 ∨ kind = 'u' ∧ digits.length = 4 →
      (∀ y ∈ digits, isHexDigit y = true) →
      Spelled (.character (.code digits)) ('\\' :: kind :: digits)
  | dots : Spelled .dots ['.', '.']
  | sign {c : Char} : c ∈ signs → Spelled (.sign c) [c]

/-- Whether a token may end where `rest` is ahead: no character that continues a name follows one. -/
def Token.EndsBefore : Token → List Char → Prop
  | .name _, rest => ∀ x more, rest = x :: more → continuesName x = false
  | _, _ => True

/-- How a text splits into tokens. -/
inductive Splits : List Char → List Token → Prop
  | done : Splits [] []
  | blank {c : Char} {rest : List Char} {ts : List Token} :
      isBlank c = true → Splits rest ts → Splits (c :: rest) ts
  | comment {body rest : List Char} {ts : List Token} :
      '\n' ∉ body → (rest = [] ∨ ∃ more, rest = '\n' :: more) → Splits rest ts →
      Splits ('/' :: '/' :: (body ++ rest)) ts
  | token {t : Token} {text rest : List Char} {ts : List Token} :
      t.Spelled text → t.EndsBefore rest → Splits rest ts → Splits (text ++ rest) (t :: ts)

/-! ## Blanks -/

/-- Neither a blank nor a comment comes next. -/
def Bare (cs : List Char) : Prop :=
  ∀ x rest, cs = x :: rest → isBlank x = false ∧ ¬ (x = '/' ∧ rest.head? = some '/')

theorem bare_behindBlanks (comment : Bool) (offset : Nat) (cs : List Char) :
    Bare (behindBlanks comment offset cs).rest := by
  fun_induction behindBlanks comment offset cs with
  | case1 => intro x rest h; cases h
  | case2 comment offset c cs h ih | case3 comment offset c cs h hblank ih => exact ih
  | case4 comment offset c cs h hblank hslash ih => exact ih
  | case5 comment offset c cs h hblank hslash =>
    intro x rest hx
    obtain ⟨rfl, rfl⟩ := List.cons.inj hx
    exact ⟨by simpa using hblank, by simpa using hslash⟩

theorem behindBlanks_bare {cs : List Char} (h : Bare cs) (offset : Nat) :
    behindBlanks false offset cs = ⟨offset, cs⟩ := by
  cases cs with
  | nil => rfl
  | cons x rest =>
    obtain ⟨hblank, hslash⟩ := h x rest rfl
    simp only [behindBlanks, hblank, Bool.false_and, Bool.false_eq_true, if_false, Bool.and_eq_true,
      beq_iff_eq, hslash]

theorem length_behindBlanks_le (comment : Bool) (offset : Nat) (cs : List Char) :
    (behindBlanks comment offset cs).rest.length ≤ cs.length := by
  fun_induction behindBlanks comment offset cs with
  | case1 => exact Nat.le_refl _
  | case2 _ _ _ _ _ ih | case3 _ _ _ _ _ _ ih | case4 _ _ _ _ _ _ _ ih =>
    simp only [List.length_cons]
    omega
  | case5 => exact Nat.le_refl _

/-- Inside a comment everything up to its end is passed. -/
theorem behindBlanks_comment {body rest : List Char} (hbody : '\n' ∉ body)
    (hrest : rest = [] ∨ ∃ more, rest = '\n' :: more) (offset : Nat) :
    (behindBlanks true offset (body ++ rest)).rest =
      (behindBlanks false (offset + utf8Width body) rest).rest := by
  induction body generalizing offset with
  | nil =>
    rcases hrest with rfl | ⟨more, rfl⟩
    · rfl
    · simp [behindBlanks, isBlank, utf8Width]
  | cons c body ih =>
    simp only [List.mem_cons, not_or] at hbody
    have hne : (c != '\n') = true := by simpa using Ne.symm hbody.1
    simp only [List.cons_append, behindBlanks, hne, Bool.and_self, if_true, ih hbody.2, utf8Width,
      Nat.add_assoc]

/-- What a token begins with. -/
theorem Token.Spelled.eq_cons {t : Token} {text : List Char} (h : t.Spelled text) :
    ∃ x xs, text = x :: xs ∧ isBlank x = false ∧ x ≠ '/' := by
  cases h with
  | @name x xs hx hxs =>
    refine ⟨x, xs, rfl, ?_, ?_⟩
    · rw [Bool.eq_false_iff]
      intro hblank
      simp only [isBlank, Bool.or_eq_true, beq_iff_eq] at hblank
      rcases hblank with ((rfl | rfl) | rfl) | rfl <;> simp [beginsName] at hx
    · rintro rfl
      simp [beginsName] at hx
  | quoted hquote => rcases hquote with rfl | rfl <;> exact ⟨_, _, rfl, by decide, by decide⟩
  | code => exact ⟨_, _, rfl, by decide, by decide⟩
  | dots => exact ⟨_, _, rfl, by decide, by decide⟩
  | sign hc =>
    have hall : signs.all (fun c => !isBlank c && c != '/') = true := by decide
    exact ⟨_, _, rfl, by simpa using List.all_eq_true.mp hall _ hc⟩

theorem Token.Spelled.bare {t : Token} {text : List Char} (h : t.Spelled text) (rest : List Char) :
    Bare (text ++ rest) := by
  obtain ⟨x, xs, rfl, hblank, hslash⟩ := h.eq_cons
  intro y more heq
  obtain ⟨rfl, -⟩ := List.cons.inj heq
  exact ⟨hblank, fun hno => hslash hno.1⟩

namespace Splits

variable {cs rest : List Char} {ts us : List Token}

/-- Passing blanks does not change what follows. -/
theorem behind (h : Splits cs ts) (offset : Nat) :
    Splits (behindBlanks false offset cs).rest ts := by
  induction h generalizing offset with
  | done => exact .done
  | blank hblank _ ih =>
    simp only [behindBlanks, hblank, Bool.false_and, Bool.false_eq_true, if_false, if_true]
    exact ih _
  | @comment body rest ts hbody hrest _ ih =>
    have hslash : '\n' ∉ '/' :: body := by simpa using hbody
    show Splits (behindBlanks true (offset + '/'.utf8Size) (('/' :: body) ++ rest)).rest ts
    rw [behindBlanks_comment hslash hrest]
    exact ih _
  | token ht hends hrest ih =>
    rw [behindBlanks_bare (ht.bare _)]
    exact .token ht hends hrest

/-- What follows blanks follows with the blanks in front; in the middle of a comment, it follows the end
of the comment. -/
theorem of_behind {comment : Bool} {offset : Nat}
    (h : Splits (behindBlanks comment offset cs).rest ts) :
    if comment then
      ∃ body rest, cs = body ++ rest ∧ '\n' ∉ body ∧ (rest = [] ∨ ∃ more, rest = '\n' :: more) ∧
        Splits rest ts
    else Splits cs ts := by
  fun_induction behindBlanks comment offset cs with
  | case1 comment offset =>
    cases comment with
    | true => exact ⟨[], [], rfl, by simp, .inl rfl, h⟩
    | false => exact h
  | case2 comment offset c cs hcomment ih =>
    simp only [Bool.and_eq_true, bne_iff_ne, ne_eq] at hcomment
    obtain ⟨body, rest, rfl, hbody, hrest, hsplits⟩ := ih h
    rw [if_pos hcomment.1]
    exact ⟨c :: body, rest, rfl, by simpa using ⟨Ne.symm hcomment.2, hbody⟩, hrest, hsplits⟩
  | case3 comment offset c cs hcomment hblank ih =>
    -- a blank that does not belong to a comment; in a comment that is the line feed behind it
    have hsplits : Splits (c :: cs) ts := .blank hblank (ih h)
    cases comment with
    | false => exact hsplits
    | true =>
      have hc : c = '\n' := by simpa using hcomment
      exact ⟨[], c :: cs, rfl, by simp, .inr ⟨cs, by rw [hc]⟩, hsplits⟩
  | case4 comment offset c cs hcomment hblank hslash ih =>
    simp only [Bool.and_eq_true, beq_iff_eq] at hslash
    obtain ⟨rfl, hhead⟩ := hslash
    obtain rfl : comment = false := by simpa using hcomment
    obtain ⟨body, rest, rfl, hbody, hrest, hsplits⟩ := ih h
    -- the second slash is read as the first character inside the comment
    cases body with
    | nil => rcases hrest with rfl | ⟨more, rfl⟩ <;> simp at hhead
    | cons x body =>
      obtain rfl : x = '/' := by simpa using hhead
      have hbody' : '\n' ∉ body := fun hin => hbody (List.mem_cons_of_mem _ hin)
      exact .comment hbody' hrest hsplits
  | case5 comment offset c cs hcomment hblank hslash =>
    cases comment with
    | false => exact h
    | true =>
      obtain rfl : c = '\n' := by simpa using hcomment
      exact absurd rfl hblank

/-- What comes where no blanks are ahead: the end of the text or a token. -/
theorem head (h : Splits cs ts) (hbare : Bare cs) :
    cs = [] ∧ ts = [] ∨
      ∃ t text rest us, cs = text ++ rest ∧ ts = t :: us ∧ t.Spelled text ∧ t.EndsBefore rest ∧
        Splits rest us := by
  cases h with
  | done => exact .inl ⟨rfl, rfl⟩
  | blank hblank => simp [(hbare _ _ rfl).1] at hblank
  | comment => exact absurd ⟨rfl, rfl⟩ (hbare _ _ rfl).2
  | token ht hends hrest => exact .inr ⟨_, _, _, _, rfl, rfl, ht, hends, hrest⟩

end Splits

/-! ## One way to split -/

/-- The token that a text begins with, if it begins with one, and what is behind it. -/
def readToken : List Char → Option (Token × List Char)
  | [] => none
  | x :: xs =>
    if beginsName x then
      some (.name (String.ofList (x :: xs.takeWhile continuesName)), xs.dropWhile continuesName)
    else if x = '\'' ∨ x = '"' then
      some (.character (.quoted (xs.takeWhile (· != x))), (xs.dropWhile (· != x)).tail)
    else if x = '\\' then
      let n := if xs.head? = some 'x' then 2 else 4
      some (.character (.code (xs.tail.take n)), xs.tail.drop n)
    else if x = '.' then some (.dots, xs.tail)
    else some (.sign x, xs)

/-- Every token is the one that its text begins with, whatever it may be followed by. -/
theorem Token.Spelled.read {t : Token} {text rest : List Char} (h : t.Spelled text)
    (hends : t.EndsBefore rest) : readToken (text ++ rest) = some (t, rest) := by
  cases h with
  | @name x xs hx hxs =>
    have htake := takeWhile_append_of_stop hxs hends
    have hdrop := dropWhile_append_of_stop hxs hends
    simp only [List.cons_append, readToken, hx, if_true, htake, hdrop]
  | @quoted quote body hquote hbody =>
    have hne : beginsName quote = false := by rcases hquote with rfl | rfl <;> decide
    have hall : ∀ x ∈ body, (x != quote) = true := by
      intro x hx
      simpa using fun heq : x = quote => hbody (heq ▸ hx)
    have hstop : ∀ x more, quote :: rest = x :: more → (x != quote) = false := by
      intro x more heq
      rw [(List.cons.inj heq).1, bne_self_eq_false]
    have htake := takeWhile_append_of_stop hall hstop
    have hdrop := dropWhile_append_of_stop hall hstop
    simp only [List.cons_append, List.append_assoc, List.nil_append, readToken, hne,
      Bool.false_eq_true, if_false, hquote, if_true, htake, hdrop, List.tail_cons]
  | @code kind digits hkind hdigits =>
    rcases hkind with ⟨rfl, hlen⟩ | ⟨rfl, hlen⟩ <;>
      simp [readToken, beginsName, ← hlen]
  | dots => rfl
  | @sign c hc =>
    have hall : signs.all (fun c => !beginsName c && !(c == '\'' || c == '"') && c != '\\' && c != '.') =
        true := by decide
    have hc := List.all_eq_true.mp hall c hc
    simp only [Bool.and_eq_true, Bool.not_eq_true', Bool.or_eq_false_iff, bne_iff_ne, beq_eq_false_iff_ne,
      ← not_or] at hc
    obtain ⟨⟨⟨hname, hquote⟩, hcode⟩, hdots⟩ := hc
    simp only [List.cons_append, List.nil_append, readToken, hname, Bool.false_eq_true, if_false,
      hquote, hcode, hdots]

theorem Token.Spelled.append_ne_nil {t : Token} {text : List Char} (h : t.Spelled text)
    (rest : List Char) : text ++ rest ≠ [] := by
  obtain ⟨x, xs, rfl, -, -⟩ := h.eq_cons
  simp

/-- A text splits in one way only. -/
theorem Splits.unique {cs : List Char} {ts us : List Token} (h : Splits cs ts) (h' : Splits cs us) :
    ts = us := by
  have hbare := bare_behindBlanks false 0 cs
  rcases (h.behind 0).head hbare with
    ⟨hnil, rfl⟩ | ⟨t, text, rest, ts, hcs, rfl, ht, hends, hrest⟩ <;>
  rcases (h'.behind 0).head hbare with
    ⟨hnil', rfl⟩ | ⟨t', text', rest', us, hcs', rfl, ht', hends', hrest'⟩
  · rfl
  · exact absurd (hcs'.symm.trans hnil) (ht'.append_ne_nil rest')
  · exact absurd (hcs.symm.trans hnil') (ht.append_ne_nil rest)
  · -- the first tokens are both the one that the text begins with
    have hread := ht.read hends
    rw [← hcs, hcs', ht'.read hends'] at hread
    cases hread
    rw [hrest.unique hrest']
termination_by cs.length
decreasing_by
  -- a token has at least one character
  obtain ⟨x, xs, htext, -, -⟩ := ht.eq_cons
  have hle := length_behindBlanks_le false 0 cs
  rw [hcs, htext, List.length_append, List.length_cons] at hle
  omega

end PegTree
