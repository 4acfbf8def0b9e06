import PegTree.Proofs.Files.Contents
import Mathlib.Data.List.Induction
import Mathlib.Tactic.SplitIfs

/-!
# Laying out files and folders

Files and folders are laid out one after the other in an empty folder.  What a single one changes is said place
by place (`kindAt?_addFile`, `kindAt?_addFolder`).  If no file stands in the way of another item, the files in
the end are the ones that have been laid out (`CanLayOut.kindAt?_eq_file_iff`), and folders are where items need
them (`CanLayOut.kindAt?_eq_folder_iff`); so the order does not matter (`CanLayOut.alike`).
-/

namespace PegTree

/-! ## Putting an entry into a folder -/

theorem lookup_putEntry (entries : List (String × Entry)) (name : String) (e : Entry) (other : String) :
    (putEntry name e entries).lookup other = if other = name then some e else entries.lookup other := by
  induction entries with
  | nil =>
    rw [putEntry, List.lookup_cons, List.lookup_nil]
    split <;> simp_all
  | cons x entries ih =>
    obtain ⟨first, old⟩ := x
    rw [putEntry]
    split
    · subst first
      simp only [List.lookup_cons]
      split <;> simp_all
    · simp only [List.lookup_cons, ih]
      split <;> simp_all

theorem Folder.find?_put (f : Folder) (name : String) (e : Entry) (other : String) :
    (f.put name e).find? other = if other = name then some e else f.find? other :=
  lookup_putEntry f.entries name e other

theorem mem_putEntry {entries : List (String × Entry)} {name : String} {e : Entry} {x : String × Entry}
    (h : x ∈ putEntry name e entries) : x = (name, e) ∨ x ∈ entries := by
  induction entries with
  | nil => exact .inl (List.mem_singleton.mp h)
  | cons y entries ih =>
    obtain ⟨first, old⟩ := y
    rw [putEntry] at h
    split at h
    · exact (List.mem_cons.mp h).imp_right (List.mem_cons_of_mem _)
    · rcases List.mem_cons.mp h with rfl | hmem
      · exact .inr List.mem_cons_self
      · exact (ih hmem).imp_right (List.mem_cons_of_mem _)

theorem nodup_putEntry {entries : List (String × Entry)} (h : (entries.map Prod.fst).Nodup) (name : String)
    (e : Entry) : ((putEntry name e entries).map Prod.fst).Nodup := by
  induction entries with
  | nil => exact List.nodup_singleton name
  | cons y entries ih =>
    obtain ⟨first, old⟩ := y
    obtain ⟨hfirst, hmore⟩ := List.nodup_cons.mp h
    rw [putEntry]
    split
    · subst first
      exact h
    · rename_i hne
      refine List.nodup_cons.mpr ⟨fun hmem => ?_, ih hmore⟩
      obtain ⟨x, hx, heq⟩ := List.mem_map.mp hmem
      rcases mem_putEntry hx with rfl | hx
      · exact hne heq.symm
      · exact hfirst (List.mem_map.mpr ⟨x, hx, heq⟩)

theorem Folder.Proper.put {f : Folder} (h : f.Proper) {name : String} (hname : IsName name) {e : Entry}
    (he : e.Proper) : (f.put name e).Proper := by
  cases h with
  | @folder entries hdistinct hnames hentries =>
    refine .folder (nodup_putEntry hdistinct name e) (fun x hx => ?_) fun x hx => ?_
    · rcases mem_putEntry hx with rfl | hx
      · exact hname
      · exact hnames x hx
    · rcases mem_putEntry hx with rfl | hx
      · exact he
      · exact hentries x hx

theorem Folder.proper_empty : Folder.empty.Proper :=
  .folder List.nodup_nil (List.forall_mem_nil _) (List.forall_mem_nil _)

@[simp] theorem Folder.kindAt?_empty_cons (name : String) (more : List String) :
    (Entry.folder Folder.empty).kindAt? (name :: more) = none :=
  rfl

theorem Folder.Proper.subfolder {f : Folder} (h : f.Proper) (name : String) : (f.subfolder name).Proper := by
  rw [Folder.subfolder]
  split
  · rename_i g hfind
    exact (h.of_find? hfind).2
  · exact proper_empty

/-- Behind a name stands what stands below the folder of that name. -/
theorem Folder.kindAt?_subfolder (f : Folder) (name : String) {more : List String} (h : more ≠ []) :
    (Entry.folder (f.subfolder name)).kindAt? more = (Entry.folder f).kindAt? (name :: more) := by
  obtain ⟨next, more, rfl⟩ := List.exists_cons_of_ne_nil h
  rw [Entry.kindAt?_folder_cons f, Folder.subfolder]
  cases f.find? name with
  | none => rfl
  | some e => cases e <;> rfl

/-! ## Putting a file or a folder in below -/

theorem Folder.Proper.addFile {f : Folder} (h : f.Proper) {path : List String} (hpath : ∀ name ∈ path, IsName name)
    (bytes : List UInt8) : (f.addFile path bytes).Proper := by
  fun_induction Folder.addFile f path bytes with
  | case1 f => exact h
  | case2 f name => exact h.put (hpath name List.mem_cons_self) (.file _)
  | case3 f name more _ ih =>
    obtain ⟨hname, hmore⟩ := List.forall_mem_cons.mp hpath
    exact h.put hname (ih (h.subfolder name) hmore)

theorem Folder.Proper.addFolder {f : Folder} (h : f.Proper) {path : List String}
    (hpath : ∀ name ∈ path, IsName name) : (f.addFolder path).Proper := by
  fun_induction Folder.addFolder f path with
  | case1 f => exact h
  | case2 f name more ih =>
    obtain ⟨hname, hmore⟩ := List.forall_mem_cons.mp hpath
    exact h.put hname (ih (h.subfolder name) hmore)

/-- A file that is put in stands at its path, folders stand before it, nothing behind it, and elsewhere is what
was there. -/
theorem Folder.kindAt?_addFile (f : Folder) {path : List String} (h : path ≠ []) (bytes : List UInt8)
    (place : List String) : (Entry.folder (f.addFile path bytes)).kindAt? place =
      if place = path then some (.file bytes) else if place <+: path then some .folder
      else if path <+: place then none else (Entry.folder f).kindAt? place := by
  fun_induction Folder.addFile f path bytes generalizing place with
  | case1 f => exact absurd rfl h
  | case2 f name =>
    cases place with
    | nil => simp [Entry.kind]
    | cons first place =>
      rw [Entry.kindAt?_folder_cons, Folder.find?_put, Entry.kindAt?_folder_cons]
      by_cases hname : first = name
      · subst first
        cases place <;> simp [Entry.kind]
      · simp [hname, Ne.symm hname]
  | case3 f name more hmore ih =>
    have hne : more ≠ [] := hmore
    cases place with
    | nil => simp [Entry.kind]
    | cons first place =>
      rw [Entry.kindAt?_folder_cons, Folder.find?_put]
      by_cases hname : first = name
      · subst first
        cases place with
        | nil => simp [Entry.kind, Ne.symm hne]
        | cons next place =>
          rw [if_pos rfl, Option.bind_some, ih hne, Folder.kindAt?_subfolder f name (List.cons_ne_nil _ _)]
          simp [List.cons_prefix_cons]
      · rw [Entry.kindAt?_folder_cons]
        simp [hname, Ne.symm hname]

/-- Folders stand where a folder that is put in stands and before it, and elsewhere is what was there. -/
theorem Folder.kindAt?_addFolder (f : Folder) (path place : List String) :
    (Entry.folder (f.addFolder path)).kindAt? place =
      if place <+: path then some .folder else (Entry.folder f).kindAt? place := by
  fun_induction Folder.addFolder f path generalizing place with
  | case1 f => cases place <;> simp [Entry.kind]
  | case2 f name more ih =>
    cases place with
    | nil => simp [Entry.kind]
    | cons first place =>
      rw [Entry.kindAt?_folder_cons, Folder.find?_put]
      by_cases hname : first = name
      · subst first
        rw [if_pos rfl, Option.bind_some, ih]
        cases place with
        | nil => simp
        | cons next place =>
          rw [Folder.kindAt?_subfolder f name (List.cons_ne_nil _ _)]
          simp [List.cons_prefix_cons]
      · rw [Entry.kindAt?_folder_cons]
        simp [hname]

/-! ## Laying out -/

/-- Something that is laid out: a file with its bytes, or a folder. -/
inductive Item where
  | file (path : List String) (bytes : List UInt8)
  | folder (path : List String)
deriving DecidableEq, Repr

namespace Item

/-- Whether an item is a file. -/
def isFile : Item → Bool
  | .file _ _ => true
  | .folder _ => false

/-- Where an item is laid out. -/
def path : Item → List String
  | .file path _ => path
  | .folder path => path

/-- A folder with an item laid out below it; the folders on the way appear as needed. -/
def layIn (f : Folder) : Item → Folder
  | .file path bytes => f.addFile path bytes
  | .folder path => f.addFolder path

/-- Where an item needs a folder: on the way to a file, and down to a folder. -/
def Opens (item : Item) (place : List String) : Prop :=
  place <+: item.path ∧ ∀ bytes, item ≠ .file place bytes

end Item

/-- What comes of items that are laid out one after the other in an empty folder. -/
def layOut (items : List Item) : Folder :=
  items.foldl Item.layIn Folder.empty

/-- Items that can be laid out together: files stand below the root, and where a file stands is nothing else,
and nothing below. -/
structure CanLayOut (items : List Item) : Prop where
  named : ∀ item ∈ items, ∀ name ∈ item.path, IsName name
  below : ∀ file ∈ items, file.isFile → file.path ≠ []
  apart : ∀ file ∈ items, file.isFile → ∀ item ∈ items, file.path <+: item.path → item = file

instance (items : List Item) : Decidable (CanLayOut items) :=
  decidable_of_iff ((∀ item ∈ items, ∀ name ∈ item.path, IsName name) ∧
      (∀ file ∈ items, file.isFile → file.path ≠ []) ∧
      ∀ file ∈ items, file.isFile → ∀ item ∈ items, file.path <+: item.path → item = file)
    ⟨fun ⟨hnamed, hbelow, hapart⟩ => ⟨hnamed, hbelow, hapart⟩, fun h => ⟨h.1, h.2, h.3⟩⟩

variable {items items' : List Item}

theorem layOut_append_singleton (items : List Item) (item : Item) :
    layOut (items ++ [item]) = item.layIn (layOut items) := by
  rw [layOut, List.foldl_append]
  rfl

theorem CanLayOut.mono (h : CanLayOut items) (hsub : items' ⊆ items) : CanLayOut items' where
  named := fun item hitem => h.named item (hsub hitem)
  below := fun file hmem => h.below file (hsub hmem)
  apart := fun file hmem hfile item hitem => h.apart file (hsub hmem) hfile item (hsub hitem)

theorem CanLayOut.proper (h : CanLayOut items) : (layOut items).Proper := by
  induction items using List.reverseRecOn with
  | nil => exact Folder.proper_empty
  | append_singleton items item ih =>
    have hbefore := ih (h.mono (List.subset_append_left items [item]))
    have hnames := h.named item (List.mem_append_right items (List.mem_singleton.mpr rfl))
    rw [layOut_append_singleton]
    cases item with
    | file path bytes => exact hbefore.addFile hnames bytes
    | folder path => exact hbefore.addFolder hnames

/-- No item needs a folder where a file stands. -/
theorem CanLayOut.not_opens (h : CanLayOut items) {path : List String} {bytes : List UInt8}
    (hfile : .file path bytes ∈ items) {item : Item} (hitem : item ∈ items) : ¬ item.Opens path := by
  rintro ⟨hbegins, hne⟩
  exact hne bytes (h.apart _ hfile rfl item hitem hbegins)

/-- The files are the ones that have been laid out. -/
theorem CanLayOut.kindAt?_eq_file_iff (h : CanLayOut items) (place : List String) (bytes : List UInt8) :
    (Entry.folder (layOut items)).kindAt? place = some (.file bytes) ↔ .file place bytes ∈ items := by
  induction items using List.reverseRecOn with
  | nil =>
    cases place with
    | nil => simp [layOut, Entry.kind]
    | cons name more => simp [layOut]
  | append_singleton items item ih =>
    have hbefore := ih (h.mono (List.subset_append_left items [item]))
    have hlast : item ∈ items ++ [item] := List.mem_append_right items (List.mem_singleton.mpr rfl)
    have hmem : Item.file place bytes ∈ items ++ [item] ↔
        (Entry.folder (layOut items)).kindAt? place = some (.file bytes) ∨ Item.file place bytes = item := by
      rw [hbefore, List.mem_append, List.mem_singleton]
    rw [layOut_append_singleton]
    cases item with
    | file path bytes' =>
      have hpath : path ≠ [] := h.below _ hlast rfl
      rw [Item.layIn, Folder.kindAt?_addFile _ hpath]
      split_ifs with heq hbefore hbehind
      · subst heq
        constructor
        · intro hkind
          cases hkind
          exact hlast
        · intro hfile
          cases h.apart _ hfile rfl _ hlast (List.prefix_refl place)
          rfl
      · refine iff_of_false (fun hkind => by cases hkind) fun hfile => ?_
        cases h.apart _ hfile rfl _ hlast hbefore
        exact heq rfl
      · refine iff_of_false (fun hkind => by cases hkind) fun hfile => ?_
        cases h.apart _ hlast rfl _ hfile hbehind
        exact heq rfl
      · rw [hmem, or_iff_left]
        intro hsame
        cases hsame
        exact heq rfl
    | folder path =>
      rw [Item.layIn, Folder.kindAt?_addFolder]
      split_ifs with hbefore
      · refine iff_of_false (fun hkind => by cases hkind) fun hfile => ?_
        cases h.apart _ hfile rfl _ hlast hbefore
      · rw [hmem, or_iff_left]
        intro hsame
        cases hsame

/-- Folders are at the root and where items need them. -/
theorem CanLayOut.kindAt?_eq_folder_iff (h : CanLayOut items) (place : List String) :
    (Entry.folder (layOut items)).kindAt? place = some .folder ↔ place = [] ∨ ∃ item ∈ items, item.Opens place := by
  induction items using List.reverseRecOn with
  | nil =>
    cases place with
    | nil => simp [layOut, Entry.kind]
    | cons name more => simp [layOut]
  | append_singleton items item ih =>
    have hfolder := ih (h.mono (List.subset_append_left items [item]))
    have hlast : item ∈ items ++ [item] := List.mem_append_right items (List.mem_singleton.mpr rfl)
    have hopens : (∃ i ∈ items ++ [item], i.Opens place) ↔ (∃ i ∈ items, i.Opens place) ∨ item.Opens place := by
      simp only [List.mem_append, List.mem_singleton, or_and_right, exists_or, exists_eq_left]
    rw [layOut_append_singleton]
    cases item with
    | file path bytes =>
      have hpath : path ≠ [] := h.below _ hlast rfl
      rw [Item.layIn, Folder.kindAt?_addFile _ hpath]
      split_ifs with heq hbefore hbehind
      · subst heq
        refine iff_of_false (fun hkind => by cases hkind) ?_
        rintro (hnil | ⟨item, hitem, hopen⟩)
        · exact hpath hnil
        · exact h.not_opens hlast hitem hopen
      · refine iff_of_true rfl (.inr ⟨_, hlast, hbefore, fun bytes' hsame => ?_⟩)
        cases hsame
        exact heq rfl
      · refine iff_of_false (fun hkind => by cases hkind) ?_
        rintro (rfl | ⟨item, hitem, hbegins, -⟩)
        · exact hbefore (List.nil_prefix)
        · cases h.apart _ hlast rfl item hitem (hbehind.trans hbegins)
          exact hbefore hbegins
      · rw [hfolder, hopens, or_iff_left (a := ∃ i ∈ items, i.Opens place)]
        exact fun hopen => hbefore hopen.1
    | folder path =>
      rw [Item.layIn, Folder.kindAt?_addFolder]
      split_ifs with hbefore
      · exact iff_of_true rfl (.inr ⟨_, hlast, hbefore, fun bytes hsame => by cases hsame⟩)
      · rw [hfolder, hopens, or_iff_left (a := ∃ i ∈ items, i.Opens place)]
        exact fun hopen => hbefore hopen.1

/-- The order in which items are laid out does not matter. -/
theorem CanLayOut.alike (h : CanLayOut items) (hperm : items'.Perm items) : (layOut items').Alike (layOut items) := by
  have h' : CanLayOut items' := h.mono hperm.subset
  intro place
  refine Option.ext fun k => ?_
  cases k with
  | file bytes => rw [h'.kindAt?_eq_file_iff, h.kindAt?_eq_file_iff, hperm.mem_iff]
  | folder => simp only [h'.kindAt?_eq_folder_iff, h.kindAt?_eq_folder_iff, hperm.mem_iff]

end PegTree
