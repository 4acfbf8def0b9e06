import PegTree.Proofs.Notation.Derivation
import PegTree.Proofs.Notation.Token

/-!
# Writing tokens

A token can be written if its text is one of the notation: a name has only letters, digits and
underscores, a quoted text lacks one of the two quotes, a character code has two digits or four.  Written
with a blank behind each, such tokens make up a text that splits into just these tokens
(`splits_writeTokens`).
-/

namespace PegTree

namespace Token

/-- Whether there is a text for the token. -/
def writable : Token → Bool
  | .name text =>
    match text.toList with
    | [] => false
    | x :: xs => beginsName x && xs.all continuesName
  | .character (.quoted body) => !(body.contains '\'' && body.contains '"')
  | .character (.code digits) => (digits.length == 2 || digits.length == 4) && digits.all isHexDigit
  | .dots => true
  | .sign c => signs.contains c

/-- Between quotes there may be any text that lacks one of them. -/
theorem writable_quoted_iff {body : List Char} :
    (character (.quoted body)).writable = true ↔ ¬ ('\'' ∈ body ∧ '"' ∈ body) := by
  rw [Decidable.not_and_iff_not_or_not]
  simp [writable]

/-- A single character is not both quotes. -/
theorem not_both_quotes_singleton (x : Char) : ¬ ('\'' ∈ [x] ∧ '"' ∈ [x]) := by
  rintro ⟨hsingle, hdouble⟩
  cases (List.mem_singleton.mp hsingle).trans (List.mem_singleton.mp hdouble).symm

/-- A text for a token that can be written. -/
def written : Token → List Char
  | .name text => text.toList
  | .character (.quoted body) =>
    let quote := if body.contains '\'' then '"' else '\''
    quote :: (body ++ [quote])
  | .character (.code digits) => '\\' :: (if digits.length == 2 then 'x' else 'u') :: digits
  | .dots => ['.', '.']
  | .sign c => [c]

theorem spelled_written {t : Token} (h : t.writable = true) : t.Spelled t.written := by
  cases t with
  | name text =>
    cases htext : text.toList with
    | nil => simp [writable, htext] at h
    | cons x xs =>
      simp only [writable, htext, Bool.and_eq_true, List.all_eq_true] at h
      have hspelled := Spelled.name h.1 h.2
      rwa [← htext, String.ofList_toList] at hspelled
  | character form =>
    cases form with
    | quoted body =>
      by_cases hquote : body.contains '\'' = true
      · simp only [writable, hquote, Bool.true_and, Bool.not_eq_true'] at h
        simpa only [written, hquote, if_true] using
          Spelled.quoted (.inr rfl) (by simpa using h)
      · simpa only [written, hquote, Bool.false_eq_true, if_false] using
          Spelled.quoted (.inl rfl) (by simpa using hquote)
    | code digits =>
      simp only [writable, Bool.and_eq_true, Bool.or_eq_true, beq_iff_eq, List.all_eq_true] at h
      refine .code ?_ h.2
      rcases h.1 with hlen | hlen <;> simp [hlen]
  | dots => exact .dots
  | sign c => exact .sign (by simpa [writable] using h)

theorem Spelled.writable {t : Token} {text : List Char} (h : t.Spelled text) : t.writable = true := by
  cases h with
  | name hx hxs => simpa [Token.writable, hx] using hxs
  | quoted hquote hbody =>
    rcases hquote with rfl | rfl <;> simp [Token.writable, hbody]
  | code hkind hdigits =>
    simp only [Token.writable, Bool.and_eq_true, List.all_eq_true]
    rcases hkind with ⟨-, hlen⟩ | ⟨-, hlen⟩ <;> simpa [hlen] using hdigits
  | dots => rfl
  | sign hc => simpa [Token.writable] using hc

end Token

/-- A text of tokens, with a blank behind each. -/
def writeTokens : List Token → List Char
  | [] => []
  | t :: ts => t.written ++ ' ' :: writeTokens ts

theorem splits_writeTokens {ts : List Token} (h : ts.all Token.writable = true) :
    Splits (writeTokens ts) ts := by
  induction ts with
  | nil => exact .done
  | cons t ts ih =>
    rw [List.all_cons, Bool.and_eq_true] at h
    have hends : t.EndsBefore (' ' :: writeTokens ts) := by
      cases t with
      | name text =>
        intro x more hx
        obtain ⟨rfl, -⟩ := List.cons.inj hx
        rfl
      | character form | dots | sign c => trivial
    exact .token (Token.spelled_written h.1) hends (.blank rfl (ih h.2))

/-- A source of tokens. -/
def writtenSource (ts : List Token) : Source :=
  ⟨"grammar", String.ofList (writeTokens ts)⟩

theorem splits_writtenSource {ts : List Token} (h : ts.all Token.writable = true) :
    Splits (writtenSource ts).text.toList ts := by
  rw [writtenSource, String.toList_ofList]
  exact splits_writeTokens h

/-- The tokens of a text can be written. -/
theorem Splits.writable {cs : List Char} {ts : List Token} (h : Splits cs ts) :
    ts.all Token.writable = true := by
  induction h with
  | done => rfl
  | blank _ _ ih | comment _ _ _ ih => exact ih
  | token ht _ _ ih => rw [List.all_cons, ht.writable, ih, Bool.and_self]

end PegTree
