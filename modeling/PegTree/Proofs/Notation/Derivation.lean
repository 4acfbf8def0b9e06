import PegTree.Notation.Resolve
import PegTree.Proofs.Notation.Token

/-!
# The notation as a context-free grammar

`Derives node ts us` says that a part of the notation can be read from the front of the tokens `ts`, with
`us` left behind it:

    grammar    = definition*
    definition = name? "=" choice ";"
    choice     = sequence ("|" sequence)*
    sequence   = term term*
    term       = "#"? prefixed
    prefixed   = "!" prefixed | "@" name | character ".." (character | "$") | "(" choice ")"
               | "{" choice "}" | "[" choice "]" | "$" | character | name

The rules are taken as context-free ones: no alternative goes before another and no repetition has to
go on.  What is left behind does not matter for what is derived (`Derives.contextFree`).  A derivation
says nothing about spans; what is written without them is what `unspanned` leaves.

`Lowers` says which expression a phrase stands for.
-/

namespace PegTree

/-! ## Derivations -/

/-- A part of the notation that is made of other parts. -/
inductive Node where
  | grammar (definitions : List Definition)
  | definition (d : Definition)
  | choice (alternatives : Alternatives)
  /-- What comes behind the first alternative. -/
  | alternatives (more : Alternatives)
  | sequence (elements : List Element)
  /-- What comes behind the first element. -/
  | elements (more : List Element)
  | element (e : Element)
  | phrase (p : Phrase)

/-- How parts of the notation are read from the front of a list of tokens. -/
inductive Derives : Node → List Token → List Token → Prop
  | grammar_nil {ts} : Derives (.grammar []) ts ts
  | grammar_cons {d ds ts us vs} :
      Derives (.definition d) ts us → Derives (.grammar ds) us vs →
      Derives (.grammar (d :: ds)) ts vs
  | named {name nameSpan body span ts us} :
      Derives (.choice body) ts (.sign ';' :: us) →
      Derives (.definition ⟨some ⟨name, nameSpan⟩, body, span⟩) (.name name :: .sign '=' :: ts) us
  | unnamed {body span ts us} :
      Derives (.choice body) ts (.sign ';' :: us) →
      Derives (.definition ⟨none, body, span⟩) (.sign '=' :: ts) us
  | choice {es more ts us vs} :
      Derives (.sequence es) ts us → Derives (.alternatives more) us vs →
      Derives (.choice (es :: more)) ts vs
  | alternatives_nil {ts} : Derives (.alternatives []) ts ts
  | alternatives_cons {es more ts us vs} :
      Derives (.sequence es) ts us → Derives (.alternatives more) us vs →
      Derives (.alternatives (es :: more)) (.sign '|' :: ts) vs
  | sequence {e more ts us vs} :
      Derives (.element e) ts us → Derives (.elements more) us vs →
      Derives (.sequence (e :: more)) ts vs
  | elements_nil {ts} : Derives (.elements []) ts ts
  | elements_cons {e more ts us vs} :
      Derives (.element e) ts us → Derives (.elements more) us vs →
      Derives (.elements (e :: more)) ts vs
  | plain {p ts us} : Derives (.phrase p) ts us → Derives (.element ⟨false, p⟩) ts us
  | adjacent {p ts us} :
      Derives (.phrase p) ts us → Derives (.element ⟨true, p⟩) (.sign '#' :: ts) us
  | negation {p ts us} :
      Derives (.phrase p) ts us → Derives (.phrase (.negation p)) (.sign '!' :: ts) us
  | capture {name span us} :
      Derives (.phrase (.capture ⟨name, span⟩)) (.sign '@' :: .name name :: us) us
  | range {low lowSpan high highSpan span us} :
      Derives (.phrase (.range ⟨low, lowSpan⟩ (some ⟨high, highSpan⟩) span))
        (.character low :: .dots :: .character high :: us) us
  | range_open {low lowSpan span us} :
      Derives (.phrase (.range ⟨low, lowSpan⟩ none span))
        (.character low :: .dots :: .sign '$' :: us) us
  | group {alternatives ts us} :
      Derives (.choice alternatives) ts (.sign ')' :: us) →
      Derives (.phrase (.group alternatives)) (.sign '(' :: ts) us
  | repetition {alternatives ts us} :
      Derives (.choice alternatives) ts (.sign '\x7d' :: us) →
      Derives (.phrase (.repetition alternatives)) (.sign '\x7b' :: ts) us
  | optional {alternatives ts us} :
      Derives (.choice alternatives) ts (.sign ']' :: us) →
      Derives (.phrase (.optional alternatives)) (.sign '[' :: ts) us
  | finish {us} : Derives (.phrase .finish) (.sign '$' :: us) us
  | literal {form span us} :
      Derives (.phrase (.literal ⟨form, span⟩)) (.character form :: us) us
  | reference {name span us} :
      Derives (.phrase (.reference ⟨name, span⟩)) (.name name :: us) us

/-- A part is made of tokens of its own, whatever is left behind them. -/
theorem Derives.contextFree {node : Node} {ts us : List Token} (h : Derives node ts us) :
    ∃ own, ts = own ++ us ∧ ∀ vs, Derives node (own ++ vs) vs := by
  induction h with
  | grammar_nil => exact ⟨[], rfl, fun _ => .grammar_nil⟩
  | alternatives_nil => exact ⟨[], rfl, fun _ => .alternatives_nil⟩
  | elements_nil => exact ⟨[], rfl, fun _ => .elements_nil⟩
  | grammar_cons _ _ ihd ih =>
    obtain ⟨first, rfl, hfirst⟩ := ihd
    obtain ⟨others, rfl, hothers⟩ := ih
    refine ⟨first ++ others, by simp, ?_⟩
    intro vs
    rw [List.append_assoc]
    exact .grammar_cons (hfirst _) (hothers vs)
  | choice _ _ ihs ih =>
    obtain ⟨first, rfl, hfirst⟩ := ihs
    obtain ⟨others, rfl, hothers⟩ := ih
    refine ⟨first ++ others, by simp, ?_⟩
    intro vs
    rw [List.append_assoc]
    exact .choice (hfirst _) (hothers vs)
  | alternatives_cons _ _ ihs ih =>
    obtain ⟨first, rfl, hfirst⟩ := ihs
    obtain ⟨others, rfl, hothers⟩ := ih
    refine ⟨.sign '|' :: (first ++ others), by simp, ?_⟩
    intro vs
    rw [List.cons_append, List.append_assoc]
    exact .alternatives_cons (hfirst _) (hothers vs)
  | sequence _ _ ihe ih =>
    obtain ⟨first, rfl, hfirst⟩ := ihe
    obtain ⟨others, rfl, hothers⟩ := ih
    refine ⟨first ++ others, by simp, ?_⟩
    intro vs
    rw [List.append_assoc]
    exact .sequence (hfirst _) (hothers vs)
  | elements_cons _ _ ihe ih =>
    obtain ⟨first, rfl, hfirst⟩ := ihe
    obtain ⟨others, rfl, hothers⟩ := ih
    refine ⟨first ++ others, by simp, ?_⟩
    intro vs
    rw [List.append_assoc]
    exact .elements_cons (hfirst _) (hothers vs)
  | @named name _ _ _ _ _ _ ih =>
    obtain ⟨body, rfl, hbody⟩ := ih
    exact ⟨.name name :: .sign '=' :: (body ++ [.sign ';']), by simp,
      fun vs => by simpa using Derives.named (hbody (.sign ';' :: vs))⟩
  | unnamed _ ih =>
    obtain ⟨body, rfl, hbody⟩ := ih
    exact ⟨.sign '=' :: (body ++ [.sign ';']), by simp,
      fun vs => by simpa using Derives.unnamed (hbody (.sign ';' :: vs))⟩
  | plain _ ih =>
    obtain ⟨own, rfl, hown⟩ := ih
    exact ⟨own, rfl, fun vs => .plain (hown vs)⟩
  | adjacent _ ih =>
    obtain ⟨own, rfl, hown⟩ := ih
    exact ⟨.sign '#' :: own, rfl, fun vs => .adjacent (hown vs)⟩
  | negation _ ih =>
    obtain ⟨own, rfl, hown⟩ := ih
    exact ⟨.sign '!' :: own, rfl, fun vs => .negation (hown vs)⟩
  | @capture name => exact ⟨[.sign '@', .name name], rfl, fun _ => .capture⟩
  | @range low _ high => exact ⟨[.character low, .dots, .character high], rfl, fun _ => .range⟩
  | @range_open low => exact ⟨[.character low, .dots, .sign '$'], rfl, fun _ => .range_open⟩
  | group _ ih =>
    obtain ⟨body, rfl, hbody⟩ := ih
    exact ⟨.sign '(' :: (body ++ [.sign ')']), by simp,
      fun vs => by simpa using Derives.group (hbody (.sign ')' :: vs))⟩
  | repetition _ ih =>
    obtain ⟨body, rfl, hbody⟩ := ih
    exact ⟨.sign '\x7b' :: (body ++ [.sign '\x7d']), by simp,
      fun vs => by simpa using Derives.repetition (hbody (.sign '\x7d' :: vs))⟩
  | optional _ ih =>
    obtain ⟨body, rfl, hbody⟩ := ih
    exact ⟨.sign '[' :: (body ++ [.sign ']']), by simp,
      fun vs => by simpa using Derives.optional (hbody (.sign ']' :: vs))⟩
  | finish => exact ⟨[.sign '$'], rfl, fun _ => .finish⟩
  | @literal form => exact ⟨[.character form], rfl, fun _ => .literal⟩
  | @reference name => exact ⟨[.name name], rfl, fun _ => .reference⟩

/-! ## Spans -/

/-- A name without its place. -/
def WrittenName.unspanned (n : WrittenName) : WrittenName :=
  ⟨n.text, ⟨0, 0⟩⟩

/-- Characters without their place. -/
def WrittenCharacter.unspanned (c : WrittenCharacter) : WrittenCharacter :=
  ⟨c.form, ⟨0, 0⟩⟩

mutual

/-- A phrase without any places. -/
def Phrase.unspanned : Phrase → Phrase
  | .negation operand => .negation operand.unspanned
  | .capture name => .capture name.unspanned
  | .range low high _ => .range low.unspanned (high.map (·.unspanned)) ⟨0, 0⟩
  | .group alternatives => .group (unspannedAlternatives alternatives)
  | .repetition alternatives => .repetition (unspannedAlternatives alternatives)
  | .optional alternatives => .optional (unspannedAlternatives alternatives)
  | .finish => .finish
  | .literal character => .literal character.unspanned
  | .reference name => .reference name.unspanned

/-- Elements without any places. -/
def unspannedElements : List Element → List Element
  | [] => []
  | ⟨adjacent, p⟩ :: more => ⟨adjacent, p.unspanned⟩ :: unspannedElements more

/-- Alternatives without any places. -/
def unspannedAlternatives : List (List Element) → List (List Element)
  | [] => []
  | es :: more => unspannedElements es :: unspannedAlternatives more

end

/-- An element without any places. -/
def Element.unspanned (e : Element) : Element :=
  ⟨e.adjacent, e.phrase.unspanned⟩

theorem unspannedElements_cons (e : Element) (more : List Element) :
    unspannedElements (e :: more) = e.unspanned :: unspannedElements more := by
  cases e
  rfl

/-- A definition without any places. -/
def Definition.unspanned (d : Definition) : Definition :=
  ⟨d.name.map (·.unspanned), unspannedAlternatives d.body, ⟨0, 0⟩⟩

/-! ## Lowering -/

/-- The text that written characters stand for. -/
inductive CharacterForm.StandsFor : CharacterForm → List Char → Prop
  | quoted {body} : StandsFor (.quoted body) body
  | code {digits x} : x.toNat = hexNumber digits → StandsFor (.code digits) [x]

mutual

/-- The expression that a phrase stands for, by the names of the rules. -/
inductive Lowers (names : List String) : Phrase → Expr → Prop
  | negation {p e} : Lowers names p e → Lowers names (.negation p) (.negation e)
  | capture {name span id} :
      names[id]? = some name → Lowers names (.capture ⟨name, span⟩) (.capture id)
  | range {low lowSpan high highSpan span a b} :
      low.StandsFor [a] → high.StandsFor [b] → a ≤ b →
      Lowers names (.range ⟨low, lowSpan⟩ (some ⟨high, highSpan⟩) span) (.range a b)
  | range_open {low lowSpan span a} :
      low.StandsFor [a] → Lowers names (.range ⟨low, lowSpan⟩ none span) (.range a highestChar)
  | group {alternatives e} :
      LowersChoice names alternatives e → Lowers names (.group alternatives) e
  | repetition {alternatives e} :
      LowersChoice names alternatives e → Lowers names (.repetition alternatives) (.repetition e)
  | optional {alternatives e} :
      LowersChoice names alternatives e → Lowers names (.optional alternatives) (.optional e)
  | finish : Lowers names .finish .endOfInput
  | nothing {form span} : form.StandsFor [] → Lowers names (.literal ⟨form, span⟩) .empty
  | literal {form span text} :
      form.StandsFor text → text ≠ [] →
      Lowers names (.literal ⟨form, span⟩) (.literal (String.ofList text))
  | reference {name span id} :
      names[id]? = some name → Lowers names (.reference ⟨name, span⟩) (.rule id)

/-- One alternative stands for itself. -/
inductive LowersChoice (names : List String) : Alternatives → Expr → Prop
  | one {es e} : LowersSequence names es e → LowersChoice names [es] e
  | many {alternatives es} :
      alternatives.length ≠ 1 → LowersAll names alternatives es →
      LowersChoice names alternatives (.choice es)

/-- The expressions of several alternatives. -/
inductive LowersAll (names : List String) : Alternatives → List Expr → Prop
  | nil : LowersAll names [] []
  | cons {es more e others} :
      LowersSequence names es e → LowersAll names more others →
      LowersAll names (es :: more) (e :: others)

/-- One element without a mark stands for itself. -/
inductive LowersSequence (names : List String) : List Element → Expr → Prop
  | one {p e} : Lowers names p e → LowersSequence names [⟨false, p⟩] e
  | many {es terms} :
      (∀ p, es ≠ [⟨false, p⟩]) → LowersTerms names es terms →
      LowersSequence names es (.sequence terms)

/-- The terms of several elements. -/
inductive LowersTerms (names : List String) : List Element → List Term → Prop
  | nil : LowersTerms names [] []
  | cons {adjacent p more e terms} :
      Lowers names p e → LowersTerms names more terms →
      LowersTerms names (⟨adjacent, p⟩ :: more) (⟨adjacent, e⟩ :: terms)

end

end PegTree
