import PegTree.Files.Source
import PegTree.Proofs.Files.Layout
import PegTree.Proofs.Text.ByteOrder
import PegTree.Proofs.Text.Runs
import Mathlib.Data.List.Lex
import Mathlib.Data.List.Sort
import Mathlib.Data.String.Basic
import Mathlib.Tactic.Tauto

/-!
# Which files are found

`discover_exact` says which files are found below a folder and in which order.  Which names are wanted is said
by `Selection.Wants` on the characters of a name.  The order is that of `pathBytes`: name by name, and each name
by its bytes, which is the order of its characters.
-/

namespace PegTree

/-! ## Names that are wanted -/

/-- A capital ASCII letter and the small one. -/
def IsCapitalOf (capital small : Char) : Prop :=
  'A' ≤ capital ∧ capital ≤ 'Z' ∧ small.toNat = capital.toNat + 32

/-- The same character but for the case of an ASCII letter. -/
def SameLetter (c d : Char) : Prop :=
  c = d ∨ IsCapitalOf c d ∨ IsCapitalOf d c

theorem toNat_toLower (c : Char) :
    c.toLower.toNat = if 65 ≤ c.toNat ∧ c.toNat ≤ 90 then c.toNat + 32 else c.toNat := by
  by_cases h : 65 ≤ c.toNat ∧ c.toNat ≤ 90
  · have hlower : c.toLower.val = c.val + 32 := congrArg Char.val (dif_pos h)
    have hsum : (c.val + 32).toNat = (c.val.toNat + 32) % 2 ^ 32 := UInt32.toNat_add c.val 32
    have hle : c.val.toNat ≤ 90 := h.2
    rw [if_pos h, Char.toNat, hlower, hsum]
    exact Nat.mod_eq_of_lt (by omega)
  · have hlower : c.toLower = c := dif_neg h
    rw [if_neg h, hlower]

theorem toLower_eq_toLower_iff {c d : Char} : c.toLower = d.toLower ↔ SameLetter c d := by
  have hcapital (a : Char) : 'A' ≤ a ∧ a ≤ 'Z' ↔ 65 ≤ a.toNat ∧ a.toNat ≤ 90 := Iff.rfl
  rw [SameLetter, IsCapitalOf, IsCapitalOf, ← and_assoc, ← and_assoc, hcapital, hcapital, ← Char.toNat_inj,
    ← Char.toNat_inj, toNat_toLower, toNat_toLower]
  split_ifs <;> omega

theorem equalIgnoringCase_iff {a b : List Char} : equalIgnoringCase a b = true ↔ List.Forall₂ SameLetter a b := by
  have hsame : SameLetter = fun c d => c.toLower = d.toLower := by
    funext c d
    exact propext toLower_eq_toLower_iff.symm
  rw [equalIgnoringCase, beq_iff_eq, hsame, ← List.forall₂_eq_eq_eq, List.forall₂_map_left_iff,
    List.forall₂_map_right_iff]

/-- An extension is what stands behind the last dot, where something stands in front of that. -/
theorem fileExtension?_eq_some_iff {name own : List Char} :
    fileExtension? name = some own ↔ ∃ stem, stem ≠ [] ∧ name = stem ++ '.' :: own ∧ '.' ∉ own := by
  constructor
  · intro h
    obtain ⟨run, rest, htext, hrun, hrest⟩ := exists_run (· != '.') name.reverse
    have hname : name = rest.reverse ++ run.reverse := by
      rw [← List.reverse_append, ← htext, List.reverse_reverse]
    rw [fileExtension?, htext, takeWhile_append_of_stop hrun hrest] at h
    split at h
    · rename_i hlength
      obtain rfl := Option.some.inj h
      cases rest with
      | nil => simp [hname] at hlength
      | cons x more =>
        obtain rfl : x = '.' := by simpa using hrest x more rfl
        refine ⟨more.reverse, fun hnil => ?_, by simp [hname], fun hdot => ?_⟩
        · simp [hname, List.reverse_eq_nil_iff.mp hnil] at hlength
        · simpa using hrun '.' (List.mem_reverse.mp hdot)
    · cases h
  · rintro ⟨stem, hstem, rfl, hown⟩
    have hrun : ∀ x ∈ own.reverse, (x != '.') = true := fun x hx => by
      simpa using ne_of_mem_of_not_mem (List.mem_reverse.mp hx) hown
    have htake : (stem ++ '.' :: own).reverse.takeWhile (· != '.') = own.reverse := by
      rw [List.reverse_append, List.reverse_cons, List.append_assoc]
      exact takeWhile_append_of_stop hrun (by rintro x more ⟨⟩; rfl)
    have hlength : 0 < stem.length := List.length_pos_of_ne_nil hstem
    rw [fileExtension?, htake, if_pos (by simp; omega), List.reverse_reverse]

/-- A file name ends in a dot and an extension, behind something else.  Dots in front of the extension that is
asked for are not looked at, and neither is case. -/
def HasExtension (extension name : String) : Prop :=
  ∃ stem own dots bare, stem ≠ [] ∧ name.toList = stem ++ '.' :: own ∧ '.' ∉ own ∧
    extension.toList = List.replicate dots '.' ++ bare ∧ bare.head? ≠ some '.' ∧ List.Forall₂ SameLetter bare own

/-- What is asked of the name of a file: it has the extension and none of the endings that are left out. -/
structure Selection.Wants (s : Selection) (name : String) : Prop where
  extension : HasExtension s.extension name
  kept : ∀ ending ∈ s.exclude, ¬ ending.toList <:+ name.toList

theorem dropWhile_dots_eq_iff {text bare : List Char} :
    text.dropWhile (· == '.') = bare ↔ ∃ dots, text = List.replicate dots '.' ++ bare ∧ bare.head? ≠ some '.' := by
  constructor
  · rintro rfl
    obtain ⟨run, rest, rfl, hrun, hrest⟩ := exists_run (· == '.') text
    have hdots : ∀ x ∈ run, x = '.' := fun x hx => by simpa using hrun x hx
    rw [dropWhile_append_of_stop hrun hrest]
    refine ⟨run.length, by rw [← List.eq_replicate_of_mem hdots], fun hhead => ?_⟩
    obtain ⟨more, rfl⟩ := List.head?_eq_some_iff.mp hhead
    simpa using hrest '.' more rfl
  · rintro ⟨dots, rfl, hhead⟩
    refine dropWhile_append_of_stop (fun x hx => ?_) fun x more hmore => ?_
    · rw [List.eq_of_mem_replicate hx]
      rfl
    · subst hmore
      simpa using hhead

theorem hasExtension_iff {extension name : String} :
    hasExtension extension name = true ↔ HasExtension extension name := by
  rw [hasExtension, Option.any_eq_true]
  constructor
  · rintro ⟨own, hown, hsame⟩
    obtain ⟨stem, hstem, hname, hdot⟩ := fileExtension?_eq_some_iff.mp hown
    obtain ⟨dots, hdots, hhead⟩ := dropWhile_dots_eq_iff.mp (rfl : extension.toList.dropWhile (· == '.') = _)
    exact ⟨stem, own, dots, _, hstem, hname, hdot, hdots, hhead, equalIgnoringCase_iff.mp hsame⟩
  · rintro ⟨stem, own, dots, bare, hstem, hname, hdot, hdots, hhead, hsame⟩
    refine ⟨own, fileExtension?_eq_some_iff.mpr ⟨stem, hstem, hname, hdot⟩, ?_⟩
    rw [dropWhile_dots_eq_iff.mpr ⟨dots, hdots, hhead⟩]
    exact equalIgnoringCase_iff.mpr hsame

/-- What is selected are the files of names that are wanted. -/
theorem Selection.admits_iff {s : Selection} {path : List String} :
    s.admits path = true ↔ ∃ above name, path = above ++ [name] ∧ s.Wants name := by
  have hkept (name : String) :
      (!endsWithAny s.exclude name) = true ↔ ∀ ending ∈ s.exclude, ¬ ending.toList <:+ name.toList := by
    simp [endsWithAny, ← List.isSuffixOf_iff_suffix]
  have hwants (name : String) :
      (hasExtension s.extension name && !endsWithAny s.exclude name) = true ↔ s.Wants name := by
    rw [Bool.and_eq_true, hasExtension_iff, hkept]
    exact ⟨fun ⟨h, h'⟩ => ⟨h, h'⟩, fun ⟨h, h'⟩ => ⟨h, h'⟩⟩
  rw [Selection.admits]
  cases hlast : path.getLast? with
  | none =>
    rw [List.getLast?_eq_none_iff] at hlast
    simp [hlast]
  | some last =>
    obtain ⟨above, rfl⟩ := List.getLast?_eq_some_iff.mp hlast
    refine (hwants last).trans ⟨fun h => ⟨above, last, rfl, h⟩, ?_⟩
    rintro ⟨above', name, heq, h⟩
    obtain ⟨-, heq⟩ := List.append_inj' heq rfl
    cases heq
    exact h

/-! ## The order of paths -/

theorem pathLE_iff {p q : List String} : pathLE p q = true ↔ p ≤ q := by
  rw [le_iff_lt_or_eq]
  fun_induction pathLE p q with
  | case1 q =>
    cases q with
    | nil => simp
    | cons b q => exact iff_of_true rfl (.inl (List.nil_lt_cons b q))
  | case2 a p => simp
  | case3 a p b q ih =>
    simp only [Bool.or_eq_true, Bool.and_eq_true, decide_eq_true_eq, beq_iff_eq, List.cons_lt_cons_iff,
      List.cons.injEq, ih]
    tauto

theorem insertPath_eq_orderedInsert (path : List String) (paths : List (List String)) :
    insertPath path paths = paths.orderedInsert (· ≤ ·) path := by
  induction paths with
  | nil => rfl
  | cons other paths ih => simp only [insertPath, List.orderedInsert, pathLE_iff, ih]

theorem sortPaths_eq_insertionSort (paths : List (List String)) :
    sortPaths paths = paths.insertionSort (· ≤ ·) := by
  induction paths with
  | nil => rfl
  | cons path paths ih =>
    show insertPath path (sortPaths paths) = _
    rw [ih, insertPath_eq_orderedInsert, List.insertionSort_cons]

/-- What is found below a folder are the wanted names of what stands as a file there. -/
theorem Selection.mem_below_iff {s : Selection} {f : Folder} (h : f.Proper) {below : List String} :
    below ∈ s.below f ↔ (∃ bytes, (Entry.folder f).kindAt? below = some (.file bytes)) ∧
      ∃ above name, below = above ++ [name] ∧ s.Wants name := by
  rw [Selection.below, sortPaths_eq_insertionSort, (List.perm_insertionSort _ _).mem_iff, List.mem_filter,
    Selection.admits_iff, List.mem_map]
  refine and_congr_left fun _ => ⟨?_, ?_⟩
  · rintro ⟨⟨below, bytes⟩, hmem, rfl⟩
    exact ⟨bytes, (Entry.Proper.mem_files_iff h).mp hmem⟩
  · rintro ⟨bytes, hkind⟩
    exact ⟨(below, bytes), (Entry.Proper.mem_files_iff h).mpr hkind, rfl⟩

/-- Paths are found in ascending order, and none twice. -/
theorem Selection.pairwise_below (s : Selection) {f : Folder} (h : f.Proper) : (s.below f).Pairwise (· < ·) := by
  have hle : (s.below f).Pairwise (· ≤ ·) := by
    rw [Selection.below, sortPaths_eq_insertionSort]
    exact List.pairwise_insertionSort _ _
  have hne : (s.below f).Pairwise (· ≠ ·) := by
    rw [Selection.below, sortPaths_eq_insertionSort]
    exact (List.perm_insertionSort _ _).nodup_iff.mpr ((Entry.Proper.nodup_files h).filter _)
  exact (hle.and hne).imp fun hboth => lt_of_le_of_ne hboth.1 hboth.2

/-- In folders that hold the same, the same is found. -/
theorem Selection.below_eq_of_alike (s : Selection) {f g : Folder} (hf : f.Proper) (hg : g.Proper) (h : f.Alike g) :
    s.below f = s.below g := by
  have hascending := s.pairwise_below hf
  have hascending' := s.pairwise_below hg
  have hperm : (s.below f).Perm (s.below g) := by
    refine (List.perm_ext_iff_of_nodup (hascending.imp ne_of_lt) (hascending'.imp ne_of_lt)).mpr fun below => ?_
    rw [Selection.mem_below_iff hf, Selection.mem_below_iff hg, h below]
  exact hperm.eq_of_pairwise (fun p q _ _ hlt hgt => absurd hgt (lt_asymm hlt)) hascending hascending'

/-! ## Paths below a root -/

/-- The components of a path that lead on, each as its bytes. -/
def pathBytes (path : String) : List (List UInt8) :=
  ((Folder.components path).filter fun name => name ≠ "" ∧ name ≠ ".").map fun name => Utf8.encode name.toList

theorem components_intercalate {below : List String} (hne : below ≠ []) (h : ∀ name ∈ below, IsName name) :
    (((['/'] : List Char).intercalate (below.map String.toList)).splitOn '/').map String.ofList = below := by
  rw [List.splitOn_intercalate]
  · rw [List.map_map]
    exact List.map_id'' (fun name => String.ofList_toList) below
  · intro name hname
    obtain ⟨n, hn, rfl⟩ := List.mem_map.mp hname
    exact (h n hn).no_slash
  · exact mt List.map_eq_nil_iff.mp hne

/-- The components of a path below a root are those of the root, but for an empty one at its end, and then the
names below. -/
theorem components_pathBelow (root : String) : ∃ front,
    (Folder.components root = front ∨ Folder.components root = front ++ [""]) ∧
      ∀ below, below ≠ [] → (∀ name ∈ below, IsName name) →
        Folder.components (pathBelow root below) = front ++ below := by
  by_cases hslash : root.toList.getLast? = some '/'
  · obtain ⟨start, hstart⟩ := List.getLast?_eq_some_iff.mp hslash
    refine ⟨(start.splitOn '/').map String.ofList, .inr ?_, fun below hne hnames => ?_⟩
    · rw [Folder.components, hstart, List.splitOn_append_cons_self, List.map_append]
      rfl
    · rw [Folder.components, pathBelow, if_pos hslash]
      simp only [String.append_empty, String.toList_append, String.toList_intercalate, hstart, List.append_assoc,
        List.cons_append, List.nil_append]
      rw [List.splitOn_append_cons_self, List.map_append]
      exact congrArg _ (components_intercalate hne hnames)
  · refine ⟨Folder.components root, .inl rfl, fun below hne hnames => ?_⟩
    rw [Folder.components, pathBelow, if_neg hslash]
    simp only [String.toList_append, String.toList_intercalate, List.append_assoc]
    show ((root.toList ++ '/' :: _).splitOn '/').map String.ofList = _
    rw [List.splitOn_append_cons_self, List.map_append]
    exact congrArg _ (components_intercalate hne hnames)

/-- Below a folder that a root names, a path names what stands there. -/
theorem kind_resolve?_pathBelow {top f : Folder} {root : String} (h : top.resolve? root = some (.folder f))
    {below : List String} (hne : below ≠ []) (hnames : ∀ name ∈ below, IsName name) :
    (top.resolve? (pathBelow root below)).map Entry.kind = (Entry.folder f).kindAt? below := by
  obtain ⟨front, hfront, hbelow⟩ := components_pathBelow root
  rw [Folder.resolve?] at h
  split at h
  · rename_i hhead
    have hhead' : (pathBelow root below).toList.head?.any (· != '/') = true := by
      obtain ⟨c, hc, hslash⟩ := (Option.any_eq_true _ _).mp hhead
      obtain ⟨more, hmore⟩ := List.head?_eq_some_iff.mp hc
      simpa [pathBelow, hmore] using hslash
    have hwalk : Folder.follow [] (.folder top) front = some (.folder f) := by
      rcases hfront with hfront | hfront
      · rw [← hfront]
        exact h
      · rw [hfront] at h
        exact Folder.follow_append_empty h
    obtain ⟨outer, houter⟩ := Folder.exists_follow_append hwalk
    rw [Folder.resolve?, if_pos hhead', hbelow below hne hnames, houter, Folder.follow_kind hnames]
  · cases h

/-- Paths below a root are in the order of what stands below it. -/
theorem pathBytes_pathBelow_lt (root : String) {p q : List String} (hp : p ≠ []) (hpnames : ∀ name ∈ p, IsName name)
    (hq : q ≠ []) (hqnames : ∀ name ∈ q, IsName name) (h : p < q) :
    pathBytes (pathBelow root p) < pathBytes (pathBelow root q) := by
  have hkept {below : List String} (hnames : ∀ name ∈ below, IsName name) :
      (below.filter fun name => name ≠ "" ∧ name ≠ ".") = below := by
    refine List.filter_eq_self.mpr fun name hname => ?_
    exact decide_eq_true ⟨(hnames name hname).ne_empty, (hnames name hname).ne_here⟩
  obtain ⟨front, -, hbelow⟩ := components_pathBelow root
  rw [pathBytes, pathBytes, hbelow p hp hpnames, hbelow q hq hqnames, List.filter_append, List.filter_append,
    List.map_append, List.map_append, hkept hpnames, hkept hqnames]
  refine List.append_left_lt (List.map_lt (fun a b hab => ?_) h)
  exact Utf8.encode_lt_encode (String.lt_iff_toList_lt.mp hab)

/-! ## What is found -/

theorem FileView.discover_of_folder {view : FileView} {root : String} {f : Folder} (h : view root = some (.folder f))
    (s : Selection) : view.discover s root = .ok ((s.below f).map (pathBelow root)) := by
  rw [FileView.discover, h]

/-- In file systems that hold the same, the same is found. -/
theorem discover_of_alike {top other f : Folder} {root : String} (htop : top.Proper) (hother : other.Proper)
    (h : top.Alike other) (hroot : top.resolve? root = some (.folder f)) (s : Selection) :
    FileView.discover other.resolve? s root = .ok ((s.below f).map (pathBelow root)) := by
  have hrel := h.resolve? root
  rw [hroot] at hrel
  generalize hfound : other.resolve? root = found at hrel
  cases hrel with
  | @some e e' halike =>
    obtain ⟨g, rfl, hfg⟩ := halike.exists_folder
    rw [FileView.discover_of_folder hfound, s.below_eq_of_alike (htop.resolve? hroot) (hother.resolve? hfound) hfg]

/-- Where a root names a folder, the files that are found are in strictly ascending order, and they are just the
files at any depth below it whose names are wanted.  Neither the order in which folders list their entries nor
the order in which files and folders have been laid out makes a difference. -/
theorem discover_exact {top f : Folder} {root : String} (hproper : top.Proper)
    (hroot : top.resolve? root = some (.folder f)) (s : Selection) :
    ∃ files, FileView.discover top.resolve? s root = .ok files ∧
      files.Pairwise (fun path path' => pathBytes path < pathBytes path') ∧
      (∀ path, path ∈ files ↔ ∃ above name bytes, path = pathBelow root (above ++ [name]) ∧
        (∀ n ∈ above ++ [name], IsName n) ∧ top.resolve? path = some (.file bytes) ∧ s.Wants name) ∧
      (∀ other, top.Relisted other → FileView.discover other.resolve? s root = .ok files) ∧
      ∀ items items' other, CanLayOut items → (layOut items).Relisted top → items'.Perm items →
        (layOut items').Relisted other → FileView.discover other.resolve? s root = .ok files := by
  have hfolder : f.Proper := hproper.resolve? hroot
  have hwanted {below : List String} (hbelow : below ∈ s.below f) :
      below ≠ [] ∧ ∀ name ∈ below, IsName name := by
    obtain ⟨⟨bytes, hkind⟩, above, name, rfl, -⟩ := (s.mem_below_iff hfolder).mp hbelow
    exact ⟨List.concat_ne_nil name above, hfolder.isName_of_kindAt? hkind⟩
  refine ⟨_, FileView.discover_of_folder hroot s, ?_, fun path => ?_, fun other hother => ?_,
    fun items items' other hitems hlisted hperm hother => ?_⟩
  · refine List.pairwise_map.mpr ((s.pairwise_below hfolder).imp_of_mem fun {p q} hp hq hlt => ?_)
    exact pathBytes_pathBelow_lt root (hwanted hp).1 (hwanted hp).2 (hwanted hq).1 (hwanted hq).2 hlt
  · rw [List.mem_map]
    constructor
    · rintro ⟨below, hbelow, rfl⟩
      obtain ⟨hne, hnames⟩ := hwanted hbelow
      obtain ⟨⟨bytes, hkind⟩, above, name, rfl, hwants⟩ := (s.mem_below_iff hfolder).mp hbelow
      rw [← kind_resolve?_pathBelow hroot hne hnames] at hkind
      obtain ⟨e, he, hfile⟩ := Option.map_eq_some_iff.mp hkind
      obtain rfl := Entry.kind_eq_file_iff.mp hfile
      exact ⟨above, name, bytes, rfl, hnames, he, hwants⟩
    · rintro ⟨above, name, bytes, rfl, hnames, hfile, hwants⟩
      have hkind := kind_resolve?_pathBelow hroot (List.concat_ne_nil name above) hnames
      rw [hfile] at hkind
      exact ⟨_, (s.mem_below_iff hfolder).mpr ⟨⟨bytes, hkind.symm⟩, above, name, rfl, hwants⟩, rfl⟩
  · exact discover_of_alike hproper (hother.proper hproper) (hother.alike hproper) hroot s
  · have hitems' : CanLayOut items' := hitems.mono hperm.subset
    have halike : top.Alike other :=
      ((hlisted.alike hitems.proper).symm.trans (hitems.alike hperm).symm).trans (hother.alike hitems'.proper)
    exact discover_of_alike hproper (hother.proper hitems'.proper) halike hroot s

/-- Files in and below a folder, some of them not wanted, and a folder with the name of a file. -/
def mixedItems : List Item :=
  [.file ["d", "a.txt"] [], .folder ["d", "e.txt"], .file ["d", "a", "b.TXT"] [], .file ["d", "00_names.txt"] [],
    .file ["d", "a b.txt"] [], .file ["d", ".txt"] []]

/-- What lies in a folder stands in front of what is called like it with something more, whatever has been laid
out first. -/
theorem discover_exact_mixed :
    (layOut mixedItems).Proper ∧
      (layOut mixedItems).resolve? "d/" = some (.folder ((layOut mixedItems).subfolder "d")) ∧
      FileView.discover (layOut mixedItems.reverse).resolve? ⟨"..Txt", ["names.txt"]⟩ "d/" =
        .ok ["d/a/b.TXT", "d/a b.txt", "d/a.txt"] := by
  have hitems : CanLayOut mixedItems := by decide
  have hreverse : CanLayOut mixedItems.reverse := by decide
  have hroot : (layOut mixedItems).resolve? "d/" = some (.folder ((layOut mixedItems).subfolder "d")) := rfl
  obtain ⟨files, hfiles, -, -, -, horder⟩ := discover_exact hitems.proper hroot ⟨"..Txt", ["names.txt"]⟩
  obtain rfl : files = ["d/a/b.TXT", "d/a b.txt", "d/a.txt"] :=
    Except.ok.inj (hfiles.symm.trans rfl)
  refine ⟨hitems.proper, hroot, ?_⟩
  exact horder mixedItems mixedItems.reverse _ hitems hitems.proper.relisted_self (List.reverse_perm mixedItems)
    hreverse.proper.relisted_self

end PegTree
