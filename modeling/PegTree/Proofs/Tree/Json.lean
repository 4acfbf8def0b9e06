import Mathlib.Data.List.Forall2
import PegTree.Proofs.Json.Reading
import PegTree.Proofs.Tree.Proper

/-!
# Trees can be told from their JSON

The JSON text of a tree is one line from which, given the names of the rules, the tree can be read back with
all that belongs to it (`json_lossless`).

A tree is written by way of a value (`Tree.toJson_eq_compact`), and the value is read back from the text.
The object of a node has a field for the value or one for the children, but not both: a leaf has its value
even if that is empty, and a branch of a parser has children.  Names tell the rules apart, so that the rule
of a node can be looked up by its name.
-/

namespace PegTree

namespace Tree

/-! ## Trees as values -/

/-- A span as a value. -/
def spanValue (s : Span) : Json.Value :=
  .object [⟨"end", .number s.stop⟩, ⟨"start", .number s.start⟩]

mutual

/-- A tree as a value. -/
def toValue (name : RuleId → String) : Tree → Json.Value
  | leaf r s v => .object [⟨"rule", .text (name r)⟩, ⟨"span", spanValue s⟩, ⟨"value", .text v⟩]
  | branch r s children =>
    let own := [⟨"rule", .text (name r)⟩, ⟨"span", spanValue s⟩]
    match toValues name children with
    | [] => .object own
    | items => .object (⟨"children", .array items⟩ :: own)

/-- Several trees as values. -/
def toValues (name : RuleId → String) : List Tree → List Json.Value
  | [] => []
  | t :: ts => t.toValue name :: toValues name ts

end

mutual

/-- What is written for a tree is the text of its value. -/
theorem toJson_eq_compact (name : RuleId → String) : ∀ t : Tree, t.toJson name = (t.toValue name).compact
  | leaf r s v => rfl
  | branch r s children => by
    rw [toJson, toValue, toJsonEach_eq_compactItems name children]
    cases toValues name children with
    | nil => rfl
    | cons v items => rfl

theorem toJsonEach_eq_compactItems (name : RuleId → String) :
    ∀ ts : List Tree, toJsonEach name ts = Json.compactItems (toValues name ts)
  | [] => rfl
  | t :: ts => by
    rw [toJsonEach, toValues, Json.compactItems, toJson_eq_compact name t, toJsonEach_eq_compactItems name ts]

end

theorem toValue_branch (name : RuleId → String) (r : RuleId) (s : Span) {children : List Tree}
    (h : children ≠ []) :
    (branch r s children).toValue name =
      .object [⟨"children", .array (toValues name children)⟩, ⟨"rule", .text (name r)⟩,
        ⟨"span", spanValue s⟩] := by
  obtain ⟨t, ts, rfl⟩ := List.exists_cons_of_ne_nil h
  rfl

theorem forall₂_toValues {name : RuleId → String} {R : Json.Value → Tree → Prop} {ts : List Tree}
    (h : ∀ t ∈ ts, R (t.toValue name) t) : List.Forall₂ R (toValues name ts) ts := by
  induction ts with
  | nil => exact .nil
  | cons t ts ih =>
    obtain ⟨ht, hts⟩ := List.forall_mem_cons.mp h
    exact .cons ht (ih hts)

end Tree

/-! ## Fields -/

namespace Json.Value

/-- The keys of an object in order. -/
def keys : Value → List String
  | object fields => fields.map Field.key
  | _ => []

/-- The value of a field of an object. -/
def get? (v : Value) (key : String) : Option Value :=
  match v with
  | object fields => (fields.find? (·.key == key)).map Field.value
  | _ => none

/-- The object of a node holds its rule, its span and either the value of a leaf or the objects of the
children, of which there are some. -/
inductive Describes (name : RuleId → String) : Value → Tree → Prop
  | leaf {v : Value} {r : RuleId} {s : Span} {value : String} :
      v.keys = ["rule", "span", "value"] →
      v.get? "rule" = some (.text (name r)) → v.get? "span" = some (Tree.spanValue s) →
      v.get? "value" = some (.text value) →
      Describes name v (.leaf r s value)
  | branch {v : Value} {r : RuleId} {s : Span} {children : List Tree} {items : List Value} :
      v.keys = ["children", "rule", "span"] →
      v.get? "rule" = some (.text (name r)) → v.get? "span" = some (Tree.spanValue s) →
      v.get? "children" = some (.array items) → items ≠ [] → List.Forall₂ (Describes name) items children →
      Describes name v (.branch r s children)

end Json.Value

namespace Tree

theorem describes_toValue {name : RuleId → String} {n : Nat} {t : Tree} (h : t.Proper n) :
    (t.toValue name).Describes name t := by
  induction h with
  | leaf => exact .leaf rfl rfl rfl rfl
  | @branch r s children _ hne _ ih =>
    have hitems : toValues name children ≠ [] := by
      obtain ⟨t, ts, rfl⟩ := List.exists_cons_of_ne_nil hne
      exact List.cons_ne_nil _ _
    rw [toValue_branch name r s hne]
    exact .branch rfl rfl rfl rfl hitems (forall₂_toValues ih)

/-! ## Trees from values -/

/-- The span that a value is. -/
def spanOf? : Json.Value → Option Span
  | .object [⟨stopKey, .number stop⟩, ⟨startKey, .number start⟩] =>
    if [stopKey, startKey] = ["end", "start"] then some ⟨start, stop⟩ else none
  | _ => none

mutual

/-- The tree that a value is, given the names of the rules in order. -/
def ofValue? (names : List String) : Json.Value → Option Tree
  | .object [⟨childrenKey, .array items⟩, ⟨ruleKey, .text rule⟩, ⟨spanKey, range⟩] =>
    if [childrenKey, ruleKey, spanKey] = ["children", "rule", "span"] then do
      let id ← names.idxOf? rule
      let s ← spanOf? range
      let children ← ofValues? names items
      return branch id s children
    else none
  | .object [⟨ruleKey, .text rule⟩, ⟨spanKey, range⟩, ⟨valueKey, .text value⟩] =>
    if [ruleKey, spanKey, valueKey] = ["rule", "span", "value"] then do
      let id ← names.idxOf? rule
      let s ← spanOf? range
      return leaf id s value
    else none
  | _ => none

/-- The trees that several values are. -/
def ofValues? (names : List String) : List Json.Value → Option (List Tree)
  | [] => some []
  | v :: items => do
    let t ← ofValue? names v
    let ts ← ofValues? names items
    return t :: ts

end

/-- The tree that a JSON text is, given the names of the rules in order. -/
def ofJson? (names : List String) (text : String) : Option Tree :=
  (Json.read? text).bind (ofValue? names)

theorem spanOf?_spanValue (s : Span) : spanOf? (spanValue s) = some s := by
  rw [spanValue, spanOf?, if_pos rfl]

theorem ofValues?_toValues {name : RuleId → String} {names : List String} {ts : List Tree}
    (h : ∀ t ∈ ts, ofValue? names (t.toValue name) = some t) :
    ofValues? names (toValues name ts) = some ts := by
  induction ts with
  | nil => rfl
  | cons t ts ih =>
    obtain ⟨ht, hts⟩ := List.forall_mem_cons.mp h
    rw [toValues, ofValues?, ht, ih hts]
    rfl

/-- A tree is told from its value. -/
theorem ofValue?_toValue {name : RuleId → String} {names : List String} {n : Nat}
    (hnames : ∀ id < n, names.idxOf? (name id) = some id) {t : Tree} (h : t.Proper n) :
    ofValue? names (t.toValue name) = some t := by
  induction h with
  | @leaf r s v hr =>
    rw [toValue, ofValue?, if_pos rfl, hnames r hr, spanOf?_spanValue]
    rfl
  | @branch r s children hr hne _ ih =>
    rw [toValue_branch name r s hne, ofValue?, if_pos rfl, hnames r hr, spanOf?_spanValue,
      ofValues?_toValues ih]
    rfl

theorem ofJson?_toJson {name : RuleId → String} {names : List String} {n : Nat}
    (hnames : ∀ id < n, names.idxOf? (name id) = some id) {t : Tree} (h : t.Proper n) :
    ofJson? names (t.toJson name) = some t := by
  rw [ofJson?, toJson_eq_compact, Json.read?_compact]
  exact ofValue?_toValue hnames h

end Tree

/-! ## JSON of parses -/

/-- A rule is found at the place of its name. -/
theorem Builder.idxOf?_ruleName {b : Builder} {p : Parser} (hp : b.build = .ok p) {id : RuleId}
    (hid : id < p.grammar.size) : (p.grammar.rules.map Rule.name).idxOf? (p.ruleName id) = some id := by
  rw [List.idxOf?, List.findIdx?_map]
  exact Grammar.ruleId?_name (wellFormed_of_build hp).names hid

/-- The JSON of a tree is one line.  It is the text of objects with a rule, a span and either a value or
children, one for each node, and the tree can be read back from it with the names of the rules.  So trees of
one parser that have the same JSON are the same. -/
theorem json_lossless {b : Builder} {p : Parser} {source : Source} {t : Tree} (hp : b.build = .ok p)
    (ht : p.parse source = .ok t) :
    Clean (t.toJson p.ruleName).toList ∧
      (∃ v, Json.read? (t.toJson p.ruleName) = some v ∧ v.compact = t.toJson p.ruleName ∧
        v.Describes p.ruleName t) ∧
      Tree.ofJson? (p.grammar.rules.map Rule.name) (t.toJson p.ruleName) = some t ∧
      ∀ (source' : Source) (u : Tree), p.parse source' = .ok u →
        u.toJson p.ruleName = t.toJson p.ruleName → u = t := by
  have hdecode : ∀ {source : Source} {u : Tree}, p.parse source = .ok u →
      Tree.ofJson? (p.grammar.rules.map Rule.name) (u.toJson p.ruleName) = some u := by
    intro source u hu
    exact Tree.ofJson?_toJson (fun _ => Builder.idxOf?_ruleName hp) (Builder.proper_of_parse hp hu)
  have hvalue := Tree.toJson_eq_compact p.ruleName t
  refine ⟨?_, ⟨t.toValue p.ruleName, ?_, hvalue.symm, ?_⟩, hdecode ht, ?_⟩
  · rw [hvalue]
    exact Json.Value.clean_compact _
  · rw [hvalue]
    exact Json.read?_compact _
  · exact Tree.describes_toValue (Builder.proper_of_parse hp ht)
  · intro source' u hu hsame
    have hboth := hdecode hu
    rw [hsame, hdecode ht] at hboth
    exact (Option.some.inj hboth).symm

/-- Nested lists and the names of their rules. -/
theorem json_lossless_nested :
    nestedBuilder.build = .ok nestedParser ∧ nestedParser.parse ⟨"input", "[\"[\n]]"⟩ = .ok nestedTree ∧
      nestedTree.toJson nestedParser.ruleName =
        "\x7b\"children\":[" ++
            "\x7b\"rule\":\"item\",\"span\":\x7b\"end\":2,\"start\":1\x7d,\"value\":\"\\\"\"\x7d," ++
            "\x7b\"children\":[" ++
              "\x7b\"rule\":\"item\",\"span\":\x7b\"end\":4,\"start\":3\x7d,\"value\":\"\\n\"\x7d]," ++
            "\"rule\":\"list\",\"span\":\x7b\"end\":5,\"start\":2\x7d\x7d]," ++
          "\"rule\":\"list\",\"span\":\x7b\"end\":6,\"start\":0\x7d\x7d" ∧
      Clean (nestedTree.toJson nestedParser.ruleName).toList ∧
      Tree.ofJson? ["list", "item"] (nestedTree.toJson nestedParser.ruleName) = some nestedTree ∧
      ∀ (source : Source) (u : Tree), nestedParser.parse source = .ok u →
        u.toJson nestedParser.ruleName = nestedTree.toJson nestedParser.ruleName → u = nestedTree := by
  obtain ⟨hclean, -, hdecode, hsame⟩ := json_lossless build_nestedBuilder parse_nestedTree
  exact ⟨build_nestedBuilder, parse_nestedTree, by decide +kernel, hclean, hdecode, hsame⟩

end PegTree
