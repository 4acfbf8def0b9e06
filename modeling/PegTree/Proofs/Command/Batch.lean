import Mathlib.Data.List.Forall2
import PegTree.Proofs.Command.Codes
import PegTree.Proofs.Parser.Build
import PegTree.Proofs.Terminal.Display

/-!
# Runs of `parse` as batches

Running `parse` is working through a list of items in order up to the first that fails
(`runProgram_parse`).  The items are the files that stand for the paths, path by path, and a path that
cannot be discovered is an item that fails when its turn has come.  What an item does is said by
`ParseRequest.Yields` without a word on transcripts: it prints a block or it fails.  A run that has failed
reports the code for the cause of its failure.

Transcripts make that come about: they are put one behind the other associatively, so loops of loops are
one loop over all items.
-/

namespace PegTree

/-! ## Transcripts -/

namespace Transcript

variable {α β : Type}

/-- What is left of an item that printed a block or failed. -/
def ofYield : Except Failure String → Transcript
  | .ok block => print block
  | .error f => fail f

theorem ofYield_injective : Function.Injective ofYield := by
  intro y y' h
  cases y with
  | error f =>
    cases y' with
    | error f' =>
      cases h
      rfl
    | ok block' => cases h
  | ok block =>
    cases y' with
    | error f' => cases h
    | ok block' =>
      cases h
      rfl

@[simp] theorem empty_andThen (next : Unit → Transcript) : empty.andThen next = next () := by
  simp [empty, andThen]

theorem andThen_of_failed {t : Transcript} (h : t.failure.isSome) (next : Unit → Transcript) :
    t.andThen next = t := by
  obtain ⟨f, hf⟩ := Option.isSome_iff_exists.mp h
  rw [andThen, hf]

theorem andThen_of_not_failed {t : Transcript} (h : t.failure = none) (next : Unit → Transcript) :
    t.andThen next = ⟨t.text ++ (next ()).text, (next ()).failure⟩ := by
  rw [andThen, h]

theorem andThen_assoc (t : Transcript) (next after : Unit → Transcript) :
    (t.andThen next).andThen after = t.andThen fun _ => (next ()).andThen after := by
  cases t with
  | mk text failure =>
    cases failure with
    | some f => rfl
    | none =>
      cases hnext : next () with
      | mk more failure =>
        cases failure with
        | some f => simp [andThen, hnext]
        | none => simp [andThen, hnext, String.append_assoc]

theorem forEach_append (items more : List α) (f : α → Transcript) :
    forEach (items ++ more) f = (forEach items f).andThen fun _ => forEach more f := by
  induction items with
  | nil => simp [forEach]
  | cons a items ih => rw [List.cons_append, forEach, forEach, ih, andThen_assoc]

theorem forEach_map (items : List β) (g : β → α) (f : α → Transcript) :
    forEach (items.map g) f = forEach items (f ∘ g) := by
  induction items with
  | nil => rfl
  | cons b items ih => rw [List.map_cons, forEach, forEach, ih]; rfl

/-- A loop in a loop is one loop. -/
theorem forEach_flatMap (items : List β) (g : β → List α) (f : α → Transcript) :
    forEach (items.flatMap g) f = forEach items fun b => forEach (g b) f := by
  induction items with
  | nil => rfl
  | cons b items ih => rw [List.flatMap_cons, forEach_append, forEach, ih]

/-- How a list of items ends: with none of them left, or with the first of those left, which fails. -/
inductive Ends (R : α → Except Failure String → Prop) : List α → Option Failure → Prop
  | all : Ends R [] none
  | failed {a : α} {more : List α} {f : Failure} : R a (.error f) → Ends R (a :: more) (some f)

/-- Working through items prints the blocks of those in front of the first that fails. -/
theorem forEach_prints {R : α → Except Failure String → Prop} {f : α → Transcript}
    (hf : ∀ a, ∃ y, R a y ∧ f a = ofYield y) (items : List α) :
    ∃ done rest blocks, items = done ++ rest ∧ List.Forall₂ (fun a block => R a (.ok block)) done blocks ∧
      (forEach items f).text = String.join blocks ∧ Ends R rest (forEach items f).failure := by
  induction items with
  | nil => exact ⟨[], [], [], rfl, .nil, rfl, .all⟩
  | cons a items ih =>
    obtain ⟨y, hy, ha⟩ := hf a
    rw [forEach, ha]
    cases y with
    | error failure => exact ⟨[], a :: items, [], rfl, .nil, rfl, .failed hy⟩
    | ok block =>
      obtain ⟨done, rest, blocks, rfl, hdone, htext, hrest⟩ := ih
      refine ⟨a :: done, rest, block :: blocks, rfl, .cons hy hdone, ?_, ?_⟩
      · rw [ofYield, andThen_of_not_failed rfl, String.join_cons, ← htext]
        rfl
      · rw [ofYield, andThen_of_not_failed rfl]
        exact hrest

/-- The code of a run that ends with its items is that of the first item left, which has failed. -/
theorem Ends.code?_eq {R : α → Except Failure String → Prop} {rest : List α} {report : Report}
    (h : Ends R rest report.failure) (hunique : ∀ {a y y'}, R a y → R a y' → y = y') :
    (rest = [] → report.code? = none) ∧
      ∀ a more f, rest = a :: more → R a (.error f) → report.code? = some f.cause.code := by
  rw [Report.code?_eq]
  generalize report.failure = failure at h
  cases h with
  | all => exact ⟨fun _ => rfl, by rintro a more f ⟨⟩⟩
  | failed hfailed =>
    refine ⟨by rintro ⟨⟩, ?_⟩
    rintro a more f ⟨⟩ hf
    cases hunique hfailed hf
    rfl

theorem forEach_failure_eq_none_iff {items : List α} {f : α → Transcript} :
    (forEach items f).failure = none ↔ ∀ a ∈ items, (f a).failure = none := by
  induction items with
  | nil => simp [forEach, empty]
  | cons a items ih =>
    rw [forEach, List.forall_mem_cons, ← ih]
    cases hfailure : (f a).failure with
    | some e => simp [andThen, hfailure]
    | none => simp [andThen, hfailure]

end Transcript

/-! ## Printed trees -/

/-- The outline of a tree as it is printed. -/
def Tree.printed (coloring : Coloring) (name : RuleId → String) (t : Tree) : String :=
  match coloring with
  | .plain => t.outline name
  | .ansi => t.display .ansi name 0

theorem Tree.display_eq_printed (coloring : Coloring) (name : RuleId → String) (t : Tree) :
    t.display coloring name 0 = t.printed coloring name := by
  cases coloring with
  | plain => exact Tree.display_plain name 0 t
  | ansi => rfl

/-! ## Items -/

/-- Nothing goes wrong with a file: it can be read, and parsed unless it is empty. -/
def FileView.Passes (view : FileView) (p : Parser) (path : String) : Prop :=
  ∃ text, view.readText path = .ok text ∧ (text ≠ "" → ∃ t, p.parse ⟨path, text⟩ = .ok t)

namespace ParseRequest

variable (r : ParseRequest) (coloring : Coloring) (view : FileView)

/-- The items of one path: the files that it stands for, or why there are none. -/
def itemsAt (root : String) : List (Except SourceError String) :=
  match view.discover r.selection root with
  | .ok paths => paths.map .ok
  | .error e => [.error e]

/-- The items of all paths, in the order of the paths. -/
def items : List (Except SourceError String) :=
  r.paths.flatMap (r.itemsAt view)

/-- What an item prints, or how it fails. -/
inductive Yields (p : Parser) : Except SourceError String → Except Failure String → Prop
  | undiscovered {e : SourceError} : Yields p (.error e) (.error (.source e))
  | unreadable {path : String} {e : SourceError} :
      view.readText path = .error e → Yields p (.ok path) (.error (.source e))
  | skipped {path : String} :
      view.readText path = .ok "" →
      Yields p (.ok path) (.ok (statusLine coloring "skipped" .yellow (path ++ " (empty)")))
  | refused {path text : String} {e : ParseError} :
      view.readText path = .ok text → text ≠ "" → p.parse ⟨path, text⟩ = .error e →
      Yields p (.ok path) (.error (.parse e))
  | json {path text : String} {t : Tree} :
      r.json = true → view.readText path = .ok text → text ≠ "" → p.parse ⟨path, text⟩ = .ok t →
      Yields p (.ok path) (.ok (t.toJson p.ruleName ++ "\n"))
  | outline {path text : String} {t : Tree} :
      r.json = false → view.readText path = .ok text → text ≠ "" → p.parse ⟨path, text⟩ = .ok t →
      Yields p (.ok path)
        (.ok (statusLine coloring "parsed" .green path ++ t.printed coloring p.ruleName))

/-- Works on an item. -/
def runItem (p : Parser) (item : Except SourceError String) : Transcript :=
  .ofResult item .source (r.runFile coloring view p)

variable {r coloring view} {p : Parser}

/-- What an item yields is what is left of it. -/
theorem Yields.runItem_eq {item : Except SourceError String} {y : Except Failure String}
    (h : r.Yields coloring view p item y) : r.runItem coloring view p item = .ofYield y := by
  cases h with
  | undiscovered => rfl
  | unreadable hread =>
    rw [runItem, Transcript.ofResult, runFile, hread]
    rfl
  | skipped hread =>
    rw [runItem, Transcript.ofResult, runFile, hread]
    rfl
  | refused hread hne hparse =>
    simp only [runItem, Transcript.ofResult, runFile, hread, String.isEmpty_iff, hne, if_false, hparse]
    rfl
  | json hjson hread hne hparse =>
    simp only [runItem, Transcript.ofResult, runFile, hread, String.isEmpty_iff, hne, if_false, hparse,
      treeBlock, hjson, if_true]
    rfl
  | outline hjson hread hne hparse =>
    simp only [runItem, Transcript.ofResult, runFile, hread, String.isEmpty_iff, hne, if_false, hparse,
      treeBlock, hjson, Bool.false_eq_true, Tree.display_eq_printed]
    rfl

/-- Every item yields something, and that is what is left of it. -/
theorem exists_yields (item : Except SourceError String) :
    ∃ y, r.Yields coloring view p item y ∧ r.runItem coloring view p item = .ofYield y := by
  suffices h : ∃ y, r.Yields coloring view p item y from h.imp fun _ hy => ⟨hy, hy.runItem_eq⟩
  cases item with
  | error e => exact ⟨_, .undiscovered⟩
  | ok path =>
    cases hread : view.readText path with
    | error e => exact ⟨_, .unreadable hread⟩
    | ok text =>
      by_cases hne : text = ""
      · subst hne
        exact ⟨_, .skipped hread⟩
      · cases hparse : p.parse ⟨path, text⟩ with
        | error e => exact ⟨_, .refused hread hne hparse⟩
        | ok t =>
          cases hjson : r.json with
          | true => exact ⟨_, .json hjson hread hne hparse⟩
          | false => exact ⟨_, .outline hjson hread hne hparse⟩

/-- An item yields one thing only: what is left of it tells a block from a failure. -/
theorem Yields.unique {item : Except SourceError String} {y y' : Except Failure String}
    (h : r.Yields coloring view p item y) (h' : r.Yields coloring view p item y') : y = y' :=
  Transcript.ofYield_injective (h.runItem_eq.symm.trans h'.runItem_eq)

theorem runPath_eq (root : String) :
    r.runPath coloring view p root = .forEach (r.itemsAt view root) (r.runItem coloring view p) := by
  rw [runPath, itemsAt]
  cases view.discover r.selection root with
  | error e => rfl
  | ok paths =>
    simp only [Transcript.ofResult, Transcript.forEach_map]
    rfl

/-- The loops over paths and over files are one loop over items. -/
theorem forEach_runPath_eq :
    .forEach r.paths (r.runPath coloring view p) =
      Transcript.forEach (r.items view) (r.runItem coloring view p) := by
  rw [items, Transcript.forEach_flatMap]
  exact congrArg _ (funext runPath_eq)

/-- An item prints a block exactly if it is a file with which nothing goes wrong. -/
theorem Yields.prints_iff {item : Except SourceError String} {y : Except Failure String}
    (h : r.Yields coloring view p item y) :
    (∃ block, y = .ok block) ↔ ∃ path, item = .ok path ∧ view.Passes p path := by
  cases h with
  | undiscovered => exact iff_of_false (by rintro ⟨_, ⟨⟩⟩) (by rintro ⟨_, ⟨⟩, -⟩)
  | unreadable hread =>
    refine iff_of_false (by rintro ⟨_, ⟨⟩⟩) ?_
    rintro ⟨path, ⟨⟩, text, htext, -⟩
    cases hread.symm.trans htext
  | refused hread hne hparse =>
    refine iff_of_false (by rintro ⟨_, ⟨⟩⟩) ?_
    rintro ⟨path, ⟨⟩, text, htext, hall⟩
    cases hread.symm.trans htext
    obtain ⟨t, ht⟩ := hall hne
    cases hparse.symm.trans ht
  | skipped hread => exact iff_of_true ⟨_, rfl⟩ ⟨_, rfl, _, hread, fun hne => absurd rfl hne⟩
  | json _ hread _ hparse | outline _ hread _ hparse =>
    exact iff_of_true ⟨_, rfl⟩ ⟨_, rfl, _, hread, fun _ => ⟨_, hparse⟩⟩

theorem runItem_failure_eq_none_iff {item : Except SourceError String} :
    (r.runItem coloring view p item).failure = none ↔ ∃ path, item = .ok path ∧ view.Passes p path := by
  obtain ⟨y, hy, heq⟩ := @exists_yields r coloring view p item
  rw [← hy.prints_iff, heq]
  cases y with
  | error f => simp [Transcript.ofYield, Transcript.fail]
  | ok block => simp [Transcript.ofYield, Transcript.print]

/-- Nothing fails exactly if all paths can be discovered and nothing goes wrong with their files. -/
theorem forEach_items_failure_eq_none_iff :
    (Transcript.forEach (r.items view) (r.runItem coloring view p)).failure = none ↔
      ∀ root ∈ r.paths, ∃ files, view.discover r.selection root = .ok files ∧
        ∀ path ∈ files, view.Passes p path := by
  simp only [Transcript.forEach_failure_eq_none_iff, runItem_failure_eq_none_iff, items,
    List.forall_mem_flatMap]
  refine forall₂_congr fun root _ => ?_
  rw [itemsAt]
  cases view.discover r.selection root with
  | error e => simp
  | ok files => simp

/-! ## Runs -/

theorem run_of_unreadable {e : SourceError} (h : view.readText r.grammar = .error e) :
    r.run coloring view = .fail (.source e) := by
  rw [run, h]
  rfl

theorem run_of_build {text : String} (h : view.readText r.grammar = .ok text) :
    r.run coloring view = .ofResult (r.builder text).build .grammar fun p =>
      .forEach (r.items view) (r.runItem coloring view p) := by
  simp only [run, h, Transcript.ofResult, forEach_runPath_eq]

theorem run_withPaths (r : ParseRequest) (paths : List String) :
    { r with paths := paths }.run coloring view =
      .ofResult (view.readText r.grammar) .source fun text =>
        .ofResult (r.builder text).build .grammar fun p =>
          .forEach paths (r.runPath coloring view p) := rfl

/-- More paths at the end are worked through behind the others. -/
theorem run_append (r : ParseRequest) (coloring : Coloring) (view : FileView) (first second : List String) :
    { r with paths := first ++ second }.run coloring view =
      ({ r with paths := first }.run coloring view).andThen fun _ =>
        { r with paths := second }.run coloring view := by
  simp only [run_withPaths]
  cases view.readText r.grammar with
  | error e => rfl
  | ok text =>
    simp only [Transcript.ofResult]
    cases (r.builder text).build with
    | error e => rfl
    | ok p => exact Transcript.forEach_append first second _

end ParseRequest

/-- One run behind another: if the first fails it is all there is, else its output stands in front. -/
def Report.before (first second : Report) : Report :=
  if first.exitCode = 0 then ⟨second.exitCode, first.output ++ second.output, second.failure⟩ else first

theorem Report.ofTranscript_andThen (t u : Transcript) :
    ofTranscript (t.andThen fun _ => u) = (ofTranscript t).before (ofTranscript u) := by
  cases hfailure : t.failure with
  | none => simp [Transcript.andThen_of_not_failed hfailure, before, ofTranscript, hfailure]
  | some f => simp [Transcript.andThen_of_failed (Option.isSome_of_eq_some hfailure), before, ofTranscript,
      hfailure]

theorem runProgram_eq {coloring : Coloring} {view : FileView} {arguments : List String} {r : ParseRequest}
    (h : Command.ofArguments arguments = some (.parse r)) :
    runProgram coloring view arguments = .ofTranscript (r.run coloring view) := by
  rw [runProgram, h]

/-- Running `parse` ends at once, with the code of the error, if there is no grammar text or no parser.  Else
the items of the paths are worked through in order up to the first that fails; the output is what those in
front of it have printed, and the code is that of its failure.  The run succeeds exactly if every path can
be discovered, every file read and all but the empty ones parsed.  A run with more paths at the end is the
run without them and behind it, unless that fails, the run with only them. -/
theorem runProgram_parse {arguments : List String} {r : ParseRequest}
    (harguments : Command.ofArguments arguments = some (.parse r)) (coloring : Coloring) (view : FileView) :
    let report := runProgram coloring view arguments
    (∀ e, view.readText r.grammar = .error e →
        report = ⟨1, "", some (.source e)⟩ ∧ report.code? = some e.cause.code) ∧
      (∀ text e, view.readText r.grammar = .ok text → (r.builder text).build = .error e →
        report = ⟨1, "", some (.grammar e)⟩ ∧ report.code? = some e.cause.code) ∧
      (∀ text p, view.readText r.grammar = .ok text → (r.builder text).build = .ok p →
        (∃ done rest blocks, r.items view = done ++ rest ∧
          List.Forall₂ (fun item block => r.Yields coloring view p item (.ok block)) done blocks ∧
          report.output = String.join blocks ∧
          Transcript.Ends (r.Yields coloring view p) rest report.failure ∧
          (rest = [] → report.code? = none) ∧
          ∀ item more f, rest = item :: more → r.Yields coloring view p item (.error f) →
            report.code? = some f.cause.code) ∧
        report.exitCode = (if report.failure.isSome then 1 else 0) ∧
        (report.exitCode = 0 ↔ ∀ root ∈ r.paths, ∃ files, view.discover r.selection root = .ok files ∧
          ∀ path ∈ files, view.Passes p path)) ∧
      ∀ first second argumentsFirst argumentsSecond, r.paths = first ++ second →
        Command.ofArguments argumentsFirst = some (.parse { r with paths := first }) →
        Command.ofArguments argumentsSecond = some (.parse { r with paths := second }) →
        report = (runProgram coloring view argumentsFirst).before
          (runProgram coloring view argumentsSecond) := by
  intro report
  have hreport : report = .ofTranscript (r.run coloring view) := runProgram_eq harguments
  refine ⟨fun e hread => ?_, fun text e hread hbuild => ?_, fun text p hread hbuild => ?_, ?_⟩
  · have hfails : report = ⟨1, "", some (.source e)⟩ := by
      rw [hreport, ParseRequest.run_of_unreadable hread]
      rfl
    exact ⟨hfails, by rw [hfails, Report.code?_eq]; rfl⟩
  · have hfails : report = ⟨1, "", some (.grammar e)⟩ := by
      rw [hreport, ParseRequest.run_of_build hread, hbuild]
      rfl
    exact ⟨hfails, by rw [hfails, Report.code?_eq]; rfl⟩
  · rw [ParseRequest.run_of_build hread, hbuild, Transcript.ofResult] at hreport
    refine ⟨?_, ?_, ?_⟩
    · obtain ⟨done, rest, blocks, hitems, hdone, htext, hends⟩ :=
        Transcript.forEach_prints (@ParseRequest.exists_yields r coloring view p) (r.items view)
      rw [hreport]
      refine ⟨done, rest, blocks, hitems, hdone, htext, hends, ?_⟩
      exact Transcript.Ends.code?_eq hends ParseRequest.Yields.unique
    · rw [hreport]
      rfl
    · rw [← @ParseRequest.forEach_items_failure_eq_none_iff r coloring view p, hreport]
      simp [Report.ofTranscript]
  · intro first second argumentsFirst argumentsSecond hpaths hfirst hsecond
    have happend := r.run_append coloring view first second
    rw [← hpaths] at happend
    rw [hreport, happend, Report.ofTranscript_andThen, runProgram_eq hfirst, runProgram_eq hsecond]

/-- A grammar, and a folder with a text and a file of nothing but a byte-order mark. -/
def pairFiles : FileView :=
  .ofLoaded [("g", .file pairText.text.toUTF8.toList),
    ("d", .folder ⟨[("none.txt", .file [0xEF, 0xBB, 0xBF]), ("b.txt", .file "b x".toUTF8.toList)]⟩)]

theorem runProgram_parse_pair :
    let report := runProgram .plain pairFiles ["parse", "-g", "g", "-e", "a", "d", "lost", "d"]
    report = ⟨1, "  parsed d/b.txt\na\n  b \"b\"\n skipped d/none.txt (empty)\n",
        some (.source (.missingRoot "lost"))⟩ ∧
      report.code? = some "rulecraft::source::walk" := by
  have hall : Command.ofArguments ["parse", "-g", "g", "-e", "a", "d", "lost", "d"] =
      some (.parse ⟨"g", ["a"], false, false, "txt", [], ["d", "lost", "d"]⟩) := by
    decide +kernel
  have hfirst : Command.ofArguments ["parse", "-g", "g", "-e", "a", "d"] =
      some (.parse ⟨"g", ["a"], false, false, "txt", [], ["d"]⟩) := by
    decide +kernel
  have hsecond : Command.ofArguments ["parse", "-g", "g", "-e", "a", "lost", "d"] =
      some (.parse ⟨"g", ["a"], false, false, "txt", [], ["lost", "d"]⟩) := by
    decide +kernel
  obtain ⟨-, -, -, happend⟩ := runProgram_parse hall .plain pairFiles
  intro report
  rw [show report = _ from happend ["d"] ["lost", "d"] _ _ rfl hfirst hsecond]
  decide +kernel

end PegTree
