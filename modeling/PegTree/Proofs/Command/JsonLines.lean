import PegTree.Proofs.Command.Batch
import PegTree.Proofs.Tree.Json

/-!
# Runs that print JSON lines

With `json` a run of `parse` is to print JSON lines: every line is the object of the tree of one file, in the
order of the files.  It does so exactly as long as none of the files it comes to is empty
(`json_lines_iff`): for an empty file it prints the same status line as without `json`, and that is no JSON.
-/

namespace PegTree

/-! ## Lines of texts one behind the other -/

theorem linesOf_ne_nil {text : List Char} (h : text ≠ []) : linesOf text ≠ [] := by
  obtain ⟨c, cs, rfl⟩ := List.exists_cons_of_ne_nil h
  rw [linesOf]
  split
  · exact List.cons_ne_nil _ _
  · split <;> exact List.cons_ne_nil _ _

/-- The first line begins like the text. -/
theorem exists_linesOf_cons {c : Char} (h : c ≠ '\n') (cs : List Char) :
    ∃ line more, linesOf (c :: cs) = (c :: line) :: more := by
  rw [linesOf, if_neg h]
  split
  · exact ⟨_, _, rfl⟩
  · exact ⟨_, _, rfl⟩

/-- Behind the end of a line other lines begin. -/
theorem linesOf_append {text : List Char} (hend : ∃ start, text = start ++ ['\n']) (rest : List Char) :
    linesOf (text ++ rest) = linesOf text ++ linesOf rest := by
  obtain ⟨start, rfl⟩ := hend
  induction start with
  | nil => rfl
  | cons c start ih =>
    simp only [List.cons_append, linesOf]
    split
    · rw [ih, List.cons_append]
    · rw [ih]
      obtain ⟨line, more, hlines⟩ := List.exists_cons_of_ne_nil
        (linesOf_ne_nil (List.append_ne_nil_of_right_ne_nil start (List.cons_ne_nil '\n' [])))
      rw [hlines]
      rfl

/-! ## Lines that answer for files -/

/-- The line is one complete JSON object, the tree of a file. -/
def FileView.Answers (view : FileView) (p : Parser) (path : String) (line : List Char) : Prop :=
  ∃ text t v, view.readText path = .ok text ∧ p.parse ⟨path, text⟩ = .ok t ∧
    Json.read? (String.ofList line) = some v ∧ v.compact.toList = line ∧ v.Describes p.ruleName t ∧
    Tree.ofJson? (p.grammar.rules.map Rule.name) (String.ofList line) = some t

variable {view : FileView} {p : Parser}

theorem Json.Value.Describes.exists_object {name : RuleId → String} {v : Json.Value} {t : Tree}
    (h : v.Describes name t) : ∃ fields, v = .object fields := by
  have hrule : v.get? "rule" ≠ none := by
    cases h with
    | leaf hkeys hrule | branch hkeys hrule =>
      rw [hrule]
      exact Option.some_ne_none _
  cases v with
  | object fields => exact ⟨fields, rfl⟩
  | _ => exact absurd rfl hrule

/-- The line of a tree begins with the brace of an object. -/
theorem FileView.Answers.exists_cons {path : String} {line : List Char} (h : view.Answers p path line) :
    ∃ more, line = '\x7b' :: more := by
  obtain ⟨text, t, v, -, -, -, rfl, hdescribes, -⟩ := h
  obtain ⟨fields, rfl⟩ := hdescribes.exists_object
  exact ⟨_, Json.toList_object fields⟩

theorem FileView.answers_toJson {b : Builder} (hp : b.build = .ok p) {path text : String} {t : Tree}
    (hread : view.readText path = .ok text) (hparse : p.parse ⟨path, text⟩ = .ok t) :
    view.Answers p path (t.toJson p.ruleName).toList := by
  have hproper := Builder.proper_of_parse hp hparse
  refine ⟨text, t, t.toValue p.ruleName, hread, hparse, ?_, ?_, Tree.describes_toValue hproper, ?_⟩
  · rw [String.ofList_toList, Tree.toJson_eq_compact]
    exact Json.read?_compact _
  · rw [Tree.toJson_eq_compact]
  · rw [String.ofList_toList]
    exact Tree.ofJson?_toJson (fun _ => Builder.idxOf?_ruleName hp) hproper

theorem exists_brace_of_answers {files : List String} {lines : List (List Char)}
    (h : List.Forall₂ (view.Answers p) files lines) : ∀ line ∈ lines, ∃ more, line = '\x7b' :: more := by
  induction h with
  | nil => exact List.forall_mem_nil _
  | cons hline _ ih => exact List.forall_mem_cons.mpr ⟨hline.exists_cons, ih⟩

/-! ## Blocks -/

namespace ParseRequest

variable {r : ParseRequest} {coloring : Coloring}

/-- Every block is whole lines. -/
theorem Yields.exists_append_newline {item : Except SourceError String} {block : String} (hjson : r.json = true)
    (h : r.Yields coloring view p item (.ok block)) : ∃ start, block.toList = start ++ ['\n'] := by
  cases h with
  | skipped => exact ⟨_, String.toList_append⟩
  | json => exact ⟨_, String.toList_append⟩
  | outline hplain => cases hplain.symm.trans hjson

/-- The lines that have been printed are the lines of the blocks. -/
theorem linesOf_join_blocks {items : List (Except SourceError String)} {blocks : List String} (hjson : r.json = true)
    (h : List.Forall₂ (fun item block => r.Yields coloring view p item (.ok block)) items blocks) :
    linesOf (String.join blocks).toList = blocks.flatMap fun block => linesOf block.toList := by
  induction h with
  | nil => rfl
  | cons hfirst _ ih =>
    rw [String.join_cons, String.toList_append, linesOf_append (hfirst.exists_append_newline hjson), ih,
      List.flatMap_cons]

/-- The line for an empty file does not begin with a brace. -/
theorem exists_linesOf_skippedLine (coloring : Coloring) (path : String) :
    ∃ c line more, linesOf (skippedLine coloring path).toList = (c :: line) :: more ∧ c ≠ '\x7b' := by
  have hfirst : ∃ c more, (skippedLine coloring path).toList = c :: more ∧ c ≠ '\n' ∧ c ≠ '\x7b' := by
    simp only [skippedLine, statusLine, String.toList_append]
    cases coloring with
    | plain => exact ⟨' ', _, rfl, by decide, by decide⟩
    | ansi => exact ⟨'\x1b', _, rfl, by decide, by decide⟩
  obtain ⟨c, cs, htext, hnewline, hbrace⟩ := hfirst
  obtain ⟨line, more, hlines⟩ := exists_linesOf_cons hnewline cs
  exact ⟨c, line, more, by rw [htext, hlines], hbrace⟩

/-- What has printed are files with which nothing goes wrong. -/
theorem exists_paths_of_yields {items : List (Except SourceError String)} {blocks : List String}
    (h : List.Forall₂ (fun item block => r.Yields coloring view p item (.ok block)) items blocks) :
    ∃ paths, items = paths.map .ok ∧ (∀ path ∈ paths, view.Passes p path) ∧
      List.Forall₂ (fun path block => r.Yields coloring view p (.ok path) (.ok block)) paths blocks := by
  induction h with
  | nil => exact ⟨[], rfl, List.forall_mem_nil _, .nil⟩
  | cons hfirst _ ih =>
    obtain ⟨path, rfl, hpasses⟩ := hfirst.prints_iff.mp ⟨_, rfl⟩
    obtain ⟨paths, rfl, hall, hmore⟩ := ih
    exact ⟨path :: paths, rfl, List.forall_mem_cons.mpr ⟨hpasses, hall⟩, .cons hfirst hmore⟩

/-- If all lines begin with a brace, no file was empty. -/
theorem not_empty_of_braces {paths blocks : List String}
    (h : List.Forall₂ (fun path block => r.Yields coloring view p (.ok path) (.ok block)) paths blocks)
    (hbraces : ∀ line ∈ blocks.flatMap fun block => linesOf block.toList, ∃ more, line = '\x7b' :: more) :
    ∀ path ∈ paths, view.readText path ≠ .ok "" := by
  induction h with
  | nil => exact List.forall_mem_nil _
  | @cons path block paths blocks hfirst _ ih =>
    rw [List.flatMap_cons, List.forall_mem_append] at hbraces
    refine List.forall_mem_cons.mpr ⟨fun hempty => ?_, ih hbraces.2⟩
    cases hfirst with
    | skipped hread =>
      obtain ⟨c, line, more, hlines, hc⟩ := exists_linesOf_skippedLine coloring path
      obtain ⟨rest, hrest⟩ := hbraces.1 (c :: line) (by rw [skippedLine] at hlines; rw [hlines]; exact List.mem_cons_self)
      exact hc (List.cons.inj hrest).1
    | json _ hread hne | outline _ hread hne => exact hne (Except.ok.inj (hread.symm.trans hempty))

/-- If no file was empty, every file has a line that answers for it. -/
theorem answers_of_not_empty {b : Builder} (hp : b.build = .ok p) (hjson : r.json = true) {paths blocks : List String}
    (h : List.Forall₂ (fun path block => r.Yields coloring view p (.ok path) (.ok block)) paths blocks)
    (hne : ∀ path ∈ paths, view.readText path ≠ .ok "") :
    List.Forall₂ (view.Answers p) paths (blocks.flatMap fun block => linesOf block.toList) := by
  induction h with
  | nil => exact .nil
  | @cons path block paths blocks hfirst _ ih =>
    obtain ⟨hpath, hpaths⟩ := List.forall_mem_cons.mp hne
    cases hfirst with
    | skipped hread => exact absurd hread hpath
    | outline hplain => cases hplain.symm.trans hjson
    | @json _ text t _ hread _ hparse =>
      have hclean : Clean (t.toJson p.ruleName).toList := by
        rw [Tree.toJson_eq_compact]
        exact Json.Value.clean_compact _
      rw [List.flatMap_cons, String.toList_append]
      show List.Forall₂ _ _ (linesOf ((t.toJson p.ruleName).toList ++ '\n' :: []) ++ _)
      rw [linesOf_append_newline (hclean.not_mem (by decide))]
      exact .cons (FileView.answers_toJson hp hread hparse) (ih hpaths)

end ParseRequest

/-! ## Runs -/

/-- With `json`, nothing is printed if there is no parser.  Else the items of the paths are worked through in
order up to the first that fails, and every line that is printed is one complete JSON object, the tree of one
file, in the order of the files, exactly if no file that has been worked on is empty; then each of them has its
line. -/
theorem json_lines_iff {arguments : List String} {r : ParseRequest}
    (harguments : Command.ofArguments arguments = some (.parse r)) (hjson : r.json = true) (coloring : Coloring)
    (view : FileView) :
    let report := runProgram coloring view arguments
    ((¬ ∃ text p, view.readText r.grammar = .ok text ∧ (r.builder text).build = .ok p) → report.output = "") ∧
      ∀ text p, view.readText r.grammar = .ok text → (r.builder text).build = .ok p →
        ∃ done rest, r.items view = done.map .ok ++ rest ∧ (∀ path ∈ done, view.Passes p path) ∧
          Transcript.Ends (r.Yields coloring view p) rest report.failure ∧
          ((∃ files, files.Sublist done ∧ List.Forall₂ (view.Answers p) files (linesOf report.output.toList)) ↔
            ∀ path ∈ done, view.readText path ≠ .ok "") ∧
          ((∀ path ∈ done, view.readText path ≠ .ok "") →
            List.Forall₂ (view.Answers p) done (linesOf report.output.toList)) := by
  intro report
  have hreport : report = .ofTranscript (r.run coloring view) := runProgram_eq harguments
  refine ⟨fun hno => ?_, fun text p hread hbuild => ?_⟩
  · rw [hreport]
    cases hread : view.readText r.grammar with
    | error e =>
      rw [ParseRequest.run_of_unreadable hread]
      rfl
    | ok text =>
      cases hbuild : (r.builder text).build with
      | error e =>
        rw [ParseRequest.run_of_build hread, hbuild]
        rfl
      | ok p => exact absurd ⟨text, p, hread, hbuild⟩ hno
  · rw [ParseRequest.run_of_build hread, hbuild, Transcript.ofResult] at hreport
    obtain ⟨items, rest, blocks, hitems, hyields, houtput, hends⟩ :=
      Transcript.forEach_prints (@ParseRequest.exists_yields r coloring view p) (r.items view)
    obtain ⟨done, rfl, hpasses, hdone⟩ := ParseRequest.exists_paths_of_yields hyields
    have hlines : linesOf report.output.toList = blocks.flatMap fun block => linesOf block.toList := by
      have htext : report.output = String.join blocks := by
        rw [hreport]
        exact houtput
      rw [htext]
      exact ParseRequest.linesOf_join_blocks hjson hyields
    have hall (hne : ∀ path ∈ done, view.readText path ≠ .ok "") :
        List.Forall₂ (view.Answers p) done (linesOf report.output.toList) := by
      rw [hlines]
      exact ParseRequest.answers_of_not_empty hbuild hjson hdone hne
    refine ⟨done, rest, hitems, hpasses, ?_, ⟨?_, fun hne => ⟨done, .refl done, hall hne⟩⟩, hall⟩
    · rw [hreport]
      exact hends
    · rintro ⟨files, -, hanswers⟩
      rw [hlines] at hanswers
      exact ParseRequest.not_empty_of_braces hdone (exists_brace_of_answers hanswers)

theorem json_lines_iff_pair :
    Command.ofArguments ["parse", "-g", "g", "-e", "a", "--json", "d/b.txt", "d/b.txt"] =
        some (.parse ⟨"g", ["a"], false, true, "txt", [], ["d/b.txt", "d/b.txt"]⟩) ∧
      List.Forall₂ (pairFiles.Answers { pairParser with full := false }) ["d/b.txt", "d/b.txt"]
        (linesOf (runProgram .plain pairFiles
          ["parse", "-g", "g", "-e", "a", "--json", "d/b.txt", "d/b.txt"]).output.toList) := by
  have harguments : Command.ofArguments ["parse", "-g", "g", "-e", "a", "--json", "d/b.txt", "d/b.txt"] =
      some (.parse ⟨"g", ["a"], false, true, "txt", [], ["d/b.txt", "d/b.txt"]⟩) := by
    decide +kernel
  have hread : pairFiles.readText "g" = .ok pairText.text := toOption_eq_some_iff.mp (by decide +kernel)
  have hbuild : (ParseRequest.builder ⟨"g", ["a"], false, true, "txt", [], ["d/b.txt", "d/b.txt"]⟩
      pairText.text).build = .ok { pairParser with full := false } :=
    toOption_eq_some_iff.mp (by decide +kernel)
  have hfailure : (runProgram .plain pairFiles
      ["parse", "-g", "g", "-e", "a", "--json", "d/b.txt", "d/b.txt"]).failure = none := by
    decide +kernel
  have htext : pairFiles.readText "d/b.txt" = .ok "b x" := toOption_eq_some_iff.mp (by decide +kernel)
  obtain ⟨-, hall⟩ := json_lines_iff harguments rfl .plain pairFiles
  obtain ⟨done, rest, hitems, -, hends, -, hlines⟩ := hall _ _ hread hbuild
  rw [hfailure] at hends
  cases hends
  have hdone : done = ["d/b.txt", "d/b.txt"] := by
    rw [List.append_nil] at hitems
    have hmap : ["d/b.txt", "d/b.txt"].map (Except.ok : String → Except SourceError String) = done.map .ok := hitems
    exact (List.map_injective_iff.mpr (fun a b h => Except.ok.inj h) hmap).symm
  subst hdone
  refine ⟨harguments, hlines fun path hpath => ?_⟩
  simp only [List.mem_cons, List.not_mem_nil, or_false, or_self] at hpath
  subst hpath
  rw [htext]
  exact fun h => absurd (Except.ok.inj h) (by decide)

/-- Behind the line of a tree stands a line that is no JSON. -/
theorem json_lines_broken_by_empty_file :
    runProgram .plain pairFiles ["parse", "-g", "g", "-e", "a", "--json", "d"] =
        ⟨0, "\x7b\"children\":[\x7b\"rule\":\"b\",\"span\":\x7b\"end\":1,\"start\":0\x7d,\"value\":\"b\"\x7d]," ++
          "\"rule\":\"a\",\"span\":\x7b\"end\":3,\"start\":0\x7d\x7d\n skipped d/none.txt (empty)\n", none⟩ ∧
      " skipped d/none.txt (empty)".toList ∈
        linesOf (runProgram .plain pairFiles ["parse", "-g", "g", "-e", "a", "--json", "d"]).output.toList ∧
      Json.read? " skipped d/none.txt (empty)" = none :=
  ⟨by decide +kernel, by decide +kernel, rfl⟩

end PegTree
