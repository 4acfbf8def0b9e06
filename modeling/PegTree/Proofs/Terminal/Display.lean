import PegTree.Proofs.Tree.Outline
import PegTree.Terminal.Status

/-!
# Coloured outlines are outlines

A tree on the terminal looks like its outline, at any depth: without colours it is the outline with more
blanks in front of each line, and the colours are gone if the escape sequences are deleted
(`display_agrees_with_outline`).

Deleting them would spoil what is shown if an escape character stood in it.  None does: there is none in a
name, and in a quoted text it is written as an escape of another kind.  What may be put together is said by
`ErasesTo`: a text loses its escape sequences whatever stands behind it.
-/

namespace PegTree

/-! ## Escape sequences -/

/-- What is behind the escape sequence for a style that a text begins with, if it begins with one. -/
def behindEscape? : List Char → Option (List Char)
  | '\x1b' :: '[' :: more =>
    match more.dropWhile (· != 'm') with
    | [] => none
    | _ :: rest => some rest
  | _ => none

theorem length_lt_of_behindEscape? {text rest : List Char} (h : behindEscape? text = some rest) :
    rest.length < text.length := by
  unfold behindEscape? at h
  split at h
  · next more =>
    have hle : (more.dropWhile (· != 'm')).length ≤ more.length := (List.dropWhile_suffix _).length_le
    split at h
    · cases h
    · next hdrop =>
      obtain rfl := Option.some.inj h
      rw [hdrop, List.length_cons] at hle
      show _ < more.length + 1 + 1
      omega
  · cases h

/-- A text without its escape sequences for styles. -/
def eraseEscapes (text : List Char) : List Char :=
  match _h : behindEscape? text with
  | some rest => eraseEscapes rest
  | none =>
    match text with
    | [] => []
    | c :: more => c :: eraseEscapes more
termination_by text.length
decreasing_by
  · exact length_lt_of_behindEscape? _h
  · exact Nat.lt_succ_self _

@[simp]
theorem eraseEscapes_nil : eraseEscapes [] = [] := by
  rw [eraseEscapes]
  rfl

theorem eraseEscapes_cons_of_ne {c : Char} (h : c ≠ '\x1b') (rest : List Char) :
    eraseEscapes (c :: rest) = c :: eraseEscapes rest := by
  have hnone : behindEscape? (c :: rest) = none := by
    unfold behindEscape?
    split
    · next heq => exact absurd (List.cons.inj heq).1 h
    · rfl
  rw [eraseEscapes]
  split
  · next hsome => cases hnone.symm.trans hsome
  · rfl

theorem eraseEscapes_append {text : List Char} (h : '\x1b' ∉ text) (rest : List Char) :
    eraseEscapes (text ++ rest) = text ++ eraseEscapes rest := by
  induction text with
  | nil => rfl
  | cons c cs ih =>
    obtain ⟨hc, hcs⟩ := not_or.mp (mt List.mem_cons.mpr h)
    rw [List.cons_append, eraseEscapes_cons_of_ne (Ne.symm hc), ih hcs, List.cons_append]

theorem behindEscape?_escape {parameter : List Char} (h : 'm' ∉ parameter) (rest : List Char) :
    behindEscape? ('\x1b' :: '[' :: (parameter ++ 'm' :: rest)) = some rest := by
  have hparameter : ∀ x ∈ parameter, (x != 'm') = true := by
    intro x hx
    refine bne_iff_ne.mpr ?_
    rintro rfl
    exact h hx
  have hstop : ∀ x more, 'm' :: rest = x :: more → (x != 'm') = false := by
    intro x more heq
    rw [(List.cons.inj heq).1, bne_self_eq_false]
  show (match List.dropWhile (· != 'm') (parameter ++ 'm' :: rest) with
    | [] => none
    | _ :: rest => some rest) = _
  rw [dropWhile_append_of_stop hparameter hstop]

/-! ## What is left of a text -/

/-- A text loses its escape sequences, whatever stands behind it. -/
def ErasesTo (text plain : String) : Prop :=
  ∀ rest, eraseEscapes (text.toList ++ rest) = plain.toList ++ eraseEscapes rest

namespace ErasesTo

theorem append {text text' plain plain' : String} (h : ErasesTo text plain) (h' : ErasesTo text' plain') :
    ErasesTo (text ++ text') (plain ++ plain') := by
  intro rest
  rw [String.toList_append, String.toList_append, List.append_assoc, List.append_assoc, h, h']

theorem empty : ErasesTo "" "" :=
  fun _ => rfl

/-- Without control characters nothing is lost. -/
theorem of_clean {text : String} (h : Clean text.toList) : ErasesTo text text :=
  fun rest => eraseEscapes_append (h.not_mem (by decide)) rest

theorem newline : ErasesTo "\n" "\n" :=
  fun rest => eraseEscapes_cons_of_ne (by decide) rest

theorem escape {parameter : List Char} (h : 'm' ∉ parameter) : ErasesTo (Coloring.escape parameter) "" := by
  intro rest
  have htext : (Coloring.escape parameter).toList ++ rest =
      '\x1b' :: '[' :: (parameter ++ 'm' :: rest) := by
    simp [Coloring.escape]
  have hbehind := behindEscape?_escape h rest
  rw [htext, eraseEscapes]
  split
  · next hsome =>
    obtain rfl := Option.some.inj (hbehind.symm.trans hsome)
    rfl
  · next hnone => cases hbehind.symm.trans hnone

theorem reset (coloring : Coloring) : ErasesTo coloring.reset "" := by
  cases coloring with
  | plain => exact empty
  | ansi => exact escape (by decide)

theorem style (coloring : Coloring) (bold : Bool) (color : Color) :
    ErasesTo (coloring.style bold color) "" := by
  cases coloring with
  | plain => exact empty
  | ansi =>
    have hbold : ErasesTo (if bold then Coloring.escape ['1'] else "") "" := by
      cases bold with
      | false => exact empty
      | true => exact escape (by decide)
    have hcolor : ErasesTo (Coloring.escape ['3', color.digit]) "" := by
      cases color <;> exact escape (by decide)
    exact (append (append (escape (by decide)) hbold) hcolor)

end ErasesTo

/-! ## Displayed trees -/

namespace Tree

mutual

/-- Without colours the lines of a tree are those of its outline. -/
theorem display_plain (name : RuleId → String) (depth : Nat) :
    ∀ t : Tree, t.display .plain name depth = t.outlineFrom name depth
  | .leaf r s v => by simp [display, outlineFrom, Coloring.style, Coloring.reset]
  | .branch r s children => by
    simp [display, outlineFrom, Coloring.style, Coloring.reset,
      displayEach_plain name (depth + 1) children]

theorem displayEach_plain (name : RuleId → String) (depth : Nat) :
    ∀ ts : List Tree, displayEach .plain name depth ts = outlineFromEach name depth ts
  | [] => rfl
  | t :: ts => by
    rw [displayEach, outlineFromEach, display_plain name depth t, displayEach_plain name depth ts]

end

/-- A line at a depth is that of the tree alone with blanks in front. -/
theorem line_heading (name : RuleId → String) (depth : Nat) (x : List Nat × Tree) :
    (heading depth x).line name = List.replicate (2 * depth) ' ' ++ (heading 0 x).line name := by
  have hblanks : 2 * (depth + x.1.length) = 2 * depth + 2 * (0 + x.1.length) := by omega
  show List.replicate (2 * (depth + x.1.length)) ' ' ++ _ =
    List.replicate (2 * depth) ' ' ++ (List.replicate (2 * (0 + x.1.length)) ' ' ++ _)
  rw [hblanks, List.replicate_add, List.append_assoc]
  rfl

/-- Further in, an outline has more blanks in front of each line. -/
theorem toList_outlineFrom_eq_indentLines {name : RuleId → String} (hname : ∀ id, Clean (name id).toList)
    (depth : Nat) (t : Tree) :
    (t.outlineFrom name depth).toList = indentLines (2 * depth) (t.outline name).toList := by
  rw [toList_outlineFrom, indentLines, linesOf_outline hname, lines, lines, headings, headings,
    List.map_map, List.map_map, List.map_map]
  apply congrArg unlines
  apply List.map_congr_left
  intro x _
  exact line_heading name depth x

/-- What is left of a name in its colour, and of the blanks in front. -/
theorem namedErasesTo (coloring : Coloring) (depth : Nat) {name : String} (h : Clean name.toList) :
    ErasesTo (indentation depth ++ coloring.style false .cyan ++ name ++ coloring.reset)
      (indentation depth ++ "" ++ name ++ "") := by
  have hindent : ErasesTo (indentation depth) (indentation depth) := by
    apply ErasesTo.of_clean
    rw [indentation, String.toList_ofList]
    exact clean_replicate _
  exact ((hindent.append (.style coloring false .cyan)).append (.of_clean h)).append (.reset coloring)

mutual

/-- What is left of a coloured tree is the tree without colours. -/
theorem display_erasesTo {name : RuleId → String} (hname : ∀ id, Clean (name id).toList)
    (coloring : Coloring) (depth : Nat) :
    ∀ t : Tree, ErasesTo (t.display coloring name depth) (t.display .plain name depth)
  | .leaf r s v => by
    have hblank : ErasesTo " " " " := .of_clean (by decide)
    have hnamed := namedErasesTo coloring depth (hname r)
    have hvalue := ((hnamed.append (.style coloring false .green)).append hblank).append
      (.of_clean (clean_quotedText v))
    exact (hvalue.append (.reset coloring)).append .newline
  | .branch r s children => by
    have hnamed := namedErasesTo coloring depth (hname r)
    exact (hnamed.append .newline).append (displayEach_erasesTo hname coloring (depth + 1) children)

theorem displayEach_erasesTo {name : RuleId → String} (hname : ∀ id, Clean (name id).toList)
    (coloring : Coloring) (depth : Nat) :
    ∀ ts : List Tree, ErasesTo (displayEach coloring name depth ts) (displayEach .plain name depth ts)
  | [] => .empty
  | t :: ts => (display_erasesTo hname coloring depth t).append (displayEach_erasesTo hname coloring depth ts)

end

end Tree

/-! ## Agreement -/

/-- A tree that is displayed without colours is its outline, further in with more blanks in front of each
line; and a tree that is displayed in colours loses them with its escape sequences.  There is no escape
character in a name or in a quoted text. -/
theorem display_agrees_with_outline {b : Builder} {p : Parser} (hp : b.build = .ok p) (t : Tree)
    (depth : Nat) :
    t.display .plain p.ruleName 0 = t.outline p.ruleName ∧
      (t.display .plain p.ruleName depth).toList =
        indentLines (2 * depth) (t.outline p.ruleName).toList ∧
      eraseEscapes (t.display .ansi p.ruleName depth).toList = (t.display .plain p.ruleName depth).toList ∧
      (∀ id, '\x1b' ∉ (p.ruleName id).toList) ∧ ∀ value, '\x1b' ∉ (quotedText value).toList := by
  have hname := Builder.clean_ruleName hp
  refine ⟨t.display_plain p.ruleName 0, ?_, ?_, ?_, ?_⟩
  · rw [Tree.display_plain]
    exact Tree.toList_outlineFrom_eq_indentLines hname depth t
  · have herased := Tree.display_erasesTo hname .ansi depth t []
    rwa [List.append_nil, eraseEscapes_nil, List.append_nil] at herased
  · intro id
    exact (hname id).not_mem (by decide)
  · intro value
    exact (clean_quotedText value).not_mem (by decide)

/-- Nested lists in colours, at a depth of one. -/
theorem display_agrees_with_outline_nested :
    nestedBuilder.build = .ok nestedParser ∧
      (nestedTree.display .plain nestedParser.ruleName 1).toList =
        indentLines 2 (nestedTree.outline nestedParser.ruleName).toList ∧
      eraseEscapes (nestedTree.display .ansi nestedParser.ruleName 1).toList =
        "  list\n    item \"\\\"\"\n    list\n      item \"\\n\"\n".toList := by
  have hplain : nestedTree.display .plain nestedParser.ruleName 1 =
      "  list\n    item \"\\\"\"\n    list\n      item \"\\n\"\n" := by
    decide +kernel
  obtain ⟨-, hindent, herased, -⟩ := display_agrees_with_outline build_nestedBuilder nestedTree 1
  exact ⟨build_nestedBuilder, hindent, herased.trans (congrArg String.toList hplain)⟩

end PegTree
