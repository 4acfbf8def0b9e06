import PegTree.Files.Folder
import Mathlib.Data.List.Forall2
import Mathlib.Data.List.Infix
import Mathlib.Data.List.Nodup
import Mathlib.Data.Option.Basic

/-!
# What a folder holds

`Entry.kindAt?` says what stands where names lead from an entry: a file with its bytes, a folder, or nothing.
On names that is what following a path gives (`follow_kind`).  Folders that hold the same everywhere are
`Alike`, and then no path can tell them apart (`Alike.resolve?`).

The folders of a file system are `Proper`: the names in a folder are names and are distinct.  There the order
in which a folder lists its entries does not matter (`Entry.Relisted.alike`), and its files are what stands as
a file somewhere below (`Entry.Proper.mem_files_iff`).
-/

namespace PegTree

/-- What an entry may be called. -/
structure IsName (name : String) : Prop where
  ne_empty : name ≠ ""
  ne_here : name ≠ "."
  ne_up : name ≠ ".."
  no_slash : '/' ∉ name.toList

instance (name : String) : Decidable (IsName name) :=
  decidable_of_iff (name ≠ "" ∧ name ≠ "." ∧ name ≠ ".." ∧ '/' ∉ name.toList)
    ⟨fun ⟨hempty, hhere, hup, hslash⟩ => ⟨hempty, hhere, hup, hslash⟩, fun h => ⟨h.1, h.2, h.3, h.4⟩⟩

/-! ## Where names lead -/

/-- What stands at a place: a file with its bytes, or a folder. -/
inductive Kind where
  | file (bytes : List UInt8)
  | folder
deriving DecidableEq, Repr

/-- What an entry is. -/
def Entry.kind : Entry → Kind
  | .file bytes => .file bytes
  | .folder _ => .folder

/-- What stands where names lead from an entry. -/
def Entry.kindAt? : Entry → List String → Option Kind
  | e, [] => some e.kind
  | .file _, _ :: _ => none
  | .folder f, name :: more => (f.find? name).bind fun e => e.kindAt? more

theorem Entry.kind_eq_file_iff {e : Entry} {bytes : List UInt8} : e.kind = .file bytes ↔ e = .file bytes := by
  cases e <;> simp [Entry.kind]

@[simp] theorem Entry.kindAt?_nil (e : Entry) : e.kindAt? [] = some e.kind := by
  cases e <;> rfl

@[simp] theorem Entry.kindAt?_file_cons (bytes : List UInt8) (name : String) (more : List String) :
    (Entry.file bytes).kindAt? (name :: more) = none :=
  rfl

theorem Entry.kindAt?_folder_cons (f : Folder) (name : String) (more : List String) :
    (Entry.folder f).kindAt? (name :: more) = (f.find? name).bind fun e => e.kindAt? more :=
  rfl

namespace Folder

/-- Where one component leads from a folder: the folders around the new place, and what is there. -/
def step? (above : List Folder) (f : Folder) (name : String) : Option (List Folder × Entry) :=
  if name = "" ∨ name = "." then some (above, .folder f)
  else if name = ".." then above.head?.map fun outer => (above.tail, .folder outer)
  else (f.find? name).map fun e => (f :: above, e)

/-- A path is followed one component at a time. -/
theorem follow_cons (above : List Folder) (f : Folder) (name : String) (more : List String) :
    follow above (.folder f) (name :: more) = (step? above f name).bind fun (above, e) => follow above e more := by
  rw [follow.eq_def, step?]
  simp only
  split
  · rfl
  split
  · cases above <;> rfl
  · cases f.find? name <;> rfl

/-- A name leads from a folder to what is called so there. -/
theorem step?_of_isName {name : String} (h : IsName name) (above : List Folder) (f : Folder) :
    step? above f name = (f.find? name).map fun e => (f :: above, e) := by
  rw [step?, if_neg (not_or.mpr ⟨h.ne_empty, h.ne_here⟩), if_neg h.ne_up]

/-- Following names leads to what stands there, wherever the walk came from. -/
theorem follow_kind {below : List String} (h : ∀ name ∈ below, IsName name) (above : List Folder) (e : Entry) :
    (follow above e below).map Entry.kind = e.kindAt? below := by
  induction below generalizing above e with
  | nil => rw [follow, Entry.kindAt?_nil, Option.map_some]
  | cons name more ih =>
    obtain ⟨hname, hmore⟩ := List.forall_mem_cons.mp h
    cases e with
    | file bytes => rfl
    | folder f =>
      rw [follow_cons, step?_of_isName hname, Entry.kindAt?_folder_cons]
      cases f.find? name with
      | none => rfl
      | some next => exact ih hmore (f :: above) next

/-- A walk that has come to a folder goes on from there. -/
theorem exists_follow_append {path : List String} {above : List Folder} {e : Entry} {f : Folder}
    (h : follow above e path = some (.folder f)) :
    ∃ outer, ∀ more, follow above e (path ++ more) = follow outer (.folder f) more := by
  induction path generalizing above e with
  | nil =>
    rw [follow] at h
    obtain rfl := Option.some.inj h
    exact ⟨above, fun more => rfl⟩
  | cons name path ih =>
    cases e with
    | file bytes => cases h
    | folder g =>
      rw [follow_cons] at h
      obtain ⟨⟨above', next⟩, hstep, hnext⟩ := Option.bind_eq_some_iff.mp h
      obtain ⟨outer, houter⟩ := ih hnext
      refine ⟨outer, fun more => ?_⟩
      rw [List.cons_append, follow_cons, hstep]
      exact houter more

/-- An empty component at the end leads nowhere else. -/
theorem follow_append_empty {path : List String} {above : List Folder} {e e' : Entry}
    (h : follow above e (path ++ [""]) = some e') : follow above e path = some e' := by
  induction path generalizing above e with
  | nil =>
    cases e with
    | file bytes => cases h
    | folder f => exact h
  | cons name path ih =>
    cases e with
    | file bytes => cases h
    | folder f =>
      rw [List.cons_append, follow_cons] at h
      obtain ⟨⟨above', next⟩, hstep, hnext⟩ := Option.bind_eq_some_iff.mp h
      rw [follow_cons, hstep]
      exact ih hnext

end Folder

/-! ## Folders that hold the same -/

/-- The same stands everywhere below two entries. -/
def Entry.Alike (e e' : Entry) : Prop :=
  ∀ below, e.kindAt? below = e'.kindAt? below

/-- The same stands everywhere below two folders. -/
abbrev Folder.Alike (f g : Folder) : Prop :=
  (Entry.folder f).Alike (.folder g)

theorem Entry.Alike.kind_eq {e e' : Entry} (h : e.Alike e') : e.kind = e'.kind := by
  have hnil := h []
  rw [Entry.kindAt?_nil, Entry.kindAt?_nil] at hnil
  exact Option.some.inj hnil

theorem Entry.Alike.exists_folder {f : Folder} {e : Entry} (h : (Entry.folder f).Alike e) :
    ∃ g, e = .folder g ∧ f.Alike g := by
  cases e with
  | file bytes => cases h.kind_eq
  | folder g => exact ⟨g, rfl, h⟩

theorem Entry.Alike.symm {e e' : Entry} (h : e.Alike e') : e'.Alike e :=
  fun below => (h below).symm

theorem Entry.Alike.trans {e e' e'' : Entry} (h : e.Alike e') (h' : e'.Alike e'') : e.Alike e'' :=
  fun below => (h below).trans (h' below)

/-- What is called the same in folders that hold the same holds the same. -/
theorem Folder.Alike.find? {f g : Folder} (h : f.Alike g) (name : String) :
    Option.Rel Entry.Alike (f.find? name) (g.find? name) := by
  have hname (more : List String) :
      ((f.find? name).bind fun e => e.kindAt? more) = (g.find? name).bind fun e => e.kindAt? more :=
    h (name :: more)
  generalize f.find? name = found at hname ⊢
  generalize g.find? name = found' at hname ⊢
  have hnil := hname []
  cases found <;> cases found' <;> simp only [Option.bind_none, Option.bind_some, Entry.kindAt?_nil] at hnil
  · exact .none
  · cases hnil
  · cases hnil
  · exact .some hname

/-- Two walks stand at places where the same stands, within folders that hold the same. -/
def Abreast (walk walk' : List Folder × Entry) : Prop :=
  List.Forall₂ Folder.Alike walk.1 walk'.1 ∧ walk.2.Alike walk'.2

theorem Folder.Alike.step? {above above' : List Folder} {f g : Folder}
    (habove : List.Forall₂ Folder.Alike above above') (h : f.Alike g) (name : String) :
    Option.Rel Abreast (Folder.step? above f name) (Folder.step? above' g name) := by
  rw [Folder.step?, Folder.step?]
  split
  · exact .some ⟨habove, h⟩
  split
  · cases habove with
    | nil => exact .none
    | cons houter habove => exact .some ⟨habove, houter⟩
  · have hfind := h.find? name
    generalize f.find? name = found at hfind ⊢
    generalize g.find? name = found' at hfind ⊢
    cases hfind with
    | none => exact .none
    | some hnext => exact .some ⟨.cons h habove, hnext⟩

/-- Walks that stand abreast come to places where the same stands. -/
theorem Abreast.follow {above above' : List Folder} {e e' : Entry} (h : Abreast (above, e) (above', e'))
    (path : List String) : Option.Rel Entry.Alike (Folder.follow above e path) (Folder.follow above' e' path) := by
  induction path generalizing above above' e e' with
  | nil => exact .some h.2
  | cons name path ih =>
    obtain ⟨habove, hentry⟩ := h
    cases e with
    | file bytes =>
      cases e' with
      | file bytes' => exact .none
      | folder g => cases hentry.kind_eq
    | folder f =>
      obtain ⟨g, rfl, hfg⟩ := hentry.exists_folder
      rw [Folder.follow_cons, Folder.follow_cons]
      have hstep := Folder.Alike.step? habove hfg name
      generalize Folder.step? above f name = walk at hstep ⊢
      generalize Folder.step? above' g name = walk' at hstep ⊢
      cases hstep with
      | none => exact .none
      | some habreast => exact ih habreast

/-- A path names the same in folders that hold the same. -/
theorem Folder.Alike.resolve? {f g : Folder} (h : f.Alike g) (path : String) :
    Option.Rel Entry.Alike (f.resolve? path) (g.resolve? path) := by
  rw [Folder.resolve?, Folder.resolve?]
  split
  · exact Abreast.follow ⟨.nil, h⟩ _
  · exact .none

/-! ## Folders of a file system -/

/-- As it is in a file system: what is in a folder has distinct names. -/
inductive Entry.Proper : Entry → Prop
  | file (bytes : List UInt8) : Proper (.file bytes)
  | folder {entries : List (String × Entry)} (hdistinct : (entries.map Prod.fst).Nodup)
      (hnames : ∀ x ∈ entries, IsName x.1) (hentries : ∀ x ∈ entries, x.2.Proper) : Proper (.folder ⟨entries⟩)

/-- As it is in a file system: what is in a folder has distinct names. -/
abbrev Folder.Proper (f : Folder) : Prop :=
  (Entry.folder f).Proper

theorem lookup_eq_some_iff_mem {entries : List (String × Entry)} (h : (entries.map Prod.fst).Nodup) {name : String}
    {e : Entry} : entries.lookup name = some e ↔ (name, e) ∈ entries := by
  rw [List.lookup_eq_some_iff]
  constructor
  · rintro ⟨before, behind, rfl, -⟩
    exact List.mem_append_right before List.mem_cons_self
  · intro hmem
    obtain ⟨before, behind, rfl⟩ := List.append_of_mem hmem
    refine ⟨before, behind, rfl, fun x hx => ?_⟩
    rw [List.map_append, List.map_cons, List.nodup_append] at h
    have hne := h.2.2 x.1 (List.mem_map_of_mem hx) name List.mem_cons_self
    simpa using Ne.symm hne

theorem Folder.Proper.distinct {f : Folder} (h : f.Proper) : (f.entries.map Prod.fst).Nodup := by
  cases h with
  | folder hdistinct hnames hentries => exact hdistinct

theorem Folder.Proper.find?_eq_some_iff {f : Folder} (h : f.Proper) {name : String} {e : Entry} :
    f.find? name = some e ↔ (name, e) ∈ f.entries :=
  lookup_eq_some_iff_mem h.distinct

theorem Folder.Proper.of_find? {f : Folder} (h : f.Proper) {name : String} {e : Entry}
    (hfind : f.find? name = some e) : IsName name ∧ e.Proper := by
  have hmem := h.find?_eq_some_iff.mp hfind
  cases h with
  | folder hdistinct hnames hentries => exact ⟨hnames _ hmem, hentries _ hmem⟩

/-- Only names lead somewhere. -/
theorem Entry.Proper.isName_of_kindAt? {e : Entry} (h : e.Proper) {below : List String} {k : Kind}
    (hkind : e.kindAt? below = some k) : ∀ name ∈ below, IsName name := by
  induction below generalizing e with
  | nil => exact List.forall_mem_nil _
  | cons name more ih =>
    cases e with
    | file bytes => cases hkind
    | folder f =>
      rw [Entry.kindAt?_folder_cons] at hkind
      obtain ⟨next, hfind, hnext⟩ := Option.bind_eq_some_iff.mp hkind
      obtain ⟨hname, hproper⟩ := Folder.Proper.of_find? h hfind
      exact List.forall_mem_cons.mpr ⟨hname, ih hproper hnext⟩

/-- What a path leads to is as it is in a file system if the walk starts in one. -/
theorem Entry.Proper.follow {e : Entry} (h : e.Proper) {above : List Folder} (habove : ∀ f ∈ above, f.Proper)
    {path : List String} {e' : Entry} (hfollow : Folder.follow above e path = some e') : e'.Proper := by
  induction path generalizing above e with
  | nil =>
    obtain rfl := Option.some.inj hfollow
    exact h
  | cons name path ih =>
    cases e with
    | file bytes => cases hfollow
    | folder f =>
      rw [Folder.follow_cons] at hfollow
      obtain ⟨⟨above', next⟩, hstep, hnext⟩ := Option.bind_eq_some_iff.mp hfollow
      rw [Folder.step?] at hstep
      split at hstep
      · obtain ⟨rfl, rfl⟩ := Prod.mk.inj (Option.some.inj hstep)
        exact ih h habove hnext
      split at hstep
      · cases above with
        | nil => cases hstep
        | cons outer above =>
          obtain ⟨rfl, rfl⟩ := Prod.mk.inj (Option.some.inj hstep)
          obtain ⟨houter, habove⟩ := List.forall_mem_cons.mp habove
          exact ih houter habove hnext
      · obtain ⟨e, hfind, heq⟩ := Option.map_eq_some_iff.mp hstep
        obtain ⟨rfl, rfl⟩ := Prod.mk.inj heq
        exact ih (Folder.Proper.of_find? h hfind).2 (List.forall_mem_cons.mpr ⟨h, habove⟩) hnext

theorem Folder.Proper.resolve? {f : Folder} (h : f.Proper) {path : String} {e : Entry}
    (hresolve : f.resolve? path = some e) : e.Proper := by
  rw [Folder.resolve?] at hresolve
  split at hresolve
  · exact Entry.Proper.follow h (List.forall_mem_nil _) hresolve
  · cases hresolve

/-! ## Listing in another order -/

/-- The same entries, but a folder may list them in another order.  The `pairs` are what is called the same in
two folders. -/
inductive Entry.Relisted : Entry → Entry → Prop
  | file (bytes : List UInt8) : Relisted (.file bytes) (.file bytes)
  | folder {entries others : List (String × Entry)} (pairs : List (String × Entry × Entry))
      (hentries : entries.Perm (pairs.map fun t => (t.1, t.2.1)))
      (hothers : others.Perm (pairs.map fun t => (t.1, t.2.2)))
      (hpairs : ∀ t ∈ pairs, t.2.1.Relisted t.2.2) : Relisted (.folder ⟨entries⟩) (.folder ⟨others⟩)

/-- The same entries, listed in another order here and in the folders below. -/
abbrev Folder.Relisted (f g : Folder) : Prop :=
  (Entry.folder f).Relisted (.folder g)

theorem Entry.Proper.relisted_self {e : Entry} (h : e.Proper) : e.Relisted e := by
  induction h with
  | file bytes => exact .file bytes
  | @folder entries _ _ _ ih =>
    refine .folder (entries.map fun x => (x.1, x.2, x.2)) ?_ ?_ fun t ht => ?_
    · rw [List.map_map]
      exact .of_eq (List.map_id' entries).symm
    · rw [List.map_map]
      exact .of_eq (List.map_id' entries).symm
    · obtain ⟨x, hx, rfl⟩ := List.mem_map.mp ht
      exact ih x hx

theorem map_fst_perm_of_pairs {entries : List (String × Entry)} {pairs : List (String × Entry × Entry)}
    {side : Entry × Entry → Entry} (h : entries.Perm (pairs.map fun t => (t.1, side t.2))) :
    (entries.map Prod.fst).Perm (pairs.map Prod.fst) := by
  have hnames := h.map Prod.fst
  rw [List.map_map] at hnames
  exact hnames

theorem Entry.Relisted.proper {e e' : Entry} (h : e.Relisted e') (hproper : e.Proper) : e'.Proper := by
  induction h with
  | file bytes => exact hproper
  | @folder entries others pairs hentries hothers _ ih =>
    cases hproper with
    | folder hdistinct hnames hbelow =>
      have hmem {t : String × Entry × Entry} (ht : t ∈ pairs) : (t.1, t.2.1) ∈ entries :=
        hentries.mem_iff.mpr (List.mem_map_of_mem ht)
      refine .folder ?_ (fun x hx => ?_) fun x hx => ?_
      · exact ((map_fst_perm_of_pairs hothers).trans (map_fst_perm_of_pairs hentries).symm).nodup_iff.mpr hdistinct
      · obtain ⟨t, ht, rfl⟩ := List.mem_map.mp (hothers.mem_iff.mp hx)
        exact hnames (t.1, t.2.1) (hmem ht)
      · obtain ⟨t, ht, rfl⟩ := List.mem_map.mp (hothers.mem_iff.mp hx)
        exact ih t ht (hbelow _ (hmem ht))

/-- The order in which entries are listed does not matter. -/
theorem Entry.Relisted.alike {e e' : Entry} (h : e.Relisted e') (hproper : e.Proper) : e.Alike e' := by
  induction h with
  | file bytes => exact fun below => rfl
  | @folder entries others pairs hentries hothers hpairs ih =>
    have hproper' : Folder.Proper ⟨others⟩ := (Relisted.folder pairs hentries hothers hpairs).proper hproper
    have hbelow : ∀ t ∈ pairs, t.2.1.Alike t.2.2 := by
      intro t ht
      have hmem : (t.1, t.2.1) ∈ entries := hentries.mem_iff.mpr (List.mem_map_of_mem ht)
      exact ih t ht (Folder.Proper.of_find? hproper ((Folder.Proper.find?_eq_some_iff hproper).mpr hmem)).2
    intro below
    cases below with
    | nil => rfl
    | cons name more =>
      refine Option.ext fun k => ?_
      simp only [Entry.kindAt?_folder_cons, Option.bind_eq_some_iff, Folder.Proper.find?_eq_some_iff hproper,
        Folder.Proper.find?_eq_some_iff hproper', hentries.mem_iff, hothers.mem_iff, List.mem_map]
      constructor
      · rintro ⟨e, ⟨t, ht, heq⟩, hkind⟩
        obtain ⟨rfl, rfl⟩ := Prod.mk.inj heq
        exact ⟨t.2.2, ⟨t, ht, rfl⟩, (hbelow t ht more).symm.trans hkind⟩
      · rintro ⟨e, ⟨t, ht, heq⟩, hkind⟩
        obtain ⟨rfl, rfl⟩ := Prod.mk.inj heq
        exact ⟨t.2.1, ⟨t, ht, rfl⟩, (hbelow t ht more).trans hkind⟩

/-! ## The files below -/

theorem mem_filesOf {entries : List (String × Entry)} {below : List String} {bytes : List UInt8} :
    (below, bytes) ∈ filesOf entries ↔
      ∃ name e more, (name, e) ∈ entries ∧ below = name :: more ∧ (more, bytes) ∈ e.files := by
  induction entries with
  | nil => simp [filesOf]
  | cons x entries ih =>
    obtain ⟨name, e⟩ := x
    rw [filesOf, List.mem_append, ih, List.mem_map]
    constructor
    · rintro (⟨⟨more, bytes'⟩, hmem, heq⟩ | ⟨name', e', more, hmem, hmore⟩)
      · obtain ⟨rfl, rfl⟩ := Prod.mk.inj heq
        exact ⟨name, e, more, List.mem_cons_self, rfl, hmem⟩
      · exact ⟨name', e', more, List.mem_cons_of_mem _ hmem, hmore⟩
    · rintro ⟨name', e', more, hmem, rfl, hmore⟩
      rcases List.mem_cons.mp hmem with heq | hmem
      · obtain ⟨rfl, rfl⟩ := Prod.mk.inj heq
        exact .inl ⟨(more, bytes), hmore, rfl⟩
      · exact .inr ⟨name', e', more, hmem, rfl, hmore⟩

theorem mem_folder_files {f : Folder} {below : List String} {bytes : List UInt8} :
    (below, bytes) ∈ (Entry.folder f).files ↔
      ∃ name e more, (name, e) ∈ f.entries ∧ below = name :: more ∧ (more, bytes) ∈ e.files := by
  obtain ⟨entries⟩ := f
  exact mem_filesOf

/-- The files are what stands as a file somewhere below. -/
theorem Entry.Proper.mem_files_iff {e : Entry} (h : e.Proper) {below : List String} {bytes : List UInt8} :
    (below, bytes) ∈ e.files ↔ e.kindAt? below = some (.file bytes) := by
  induction below generalizing e with
  | nil =>
    cases e with
    | file bytes' => simp [Entry.files, Entry.kind, eq_comm]
    | folder f => simp [mem_folder_files, Entry.kind]
  | cons name more ih =>
    cases e with
    | file bytes' => simp [Entry.files]
    | folder f =>
      rw [mem_folder_files, Entry.kindAt?_folder_cons, Option.bind_eq_some_iff]
      constructor
      · rintro ⟨name, e, more, hmem, heq, hmore⟩
        obtain ⟨rfl, rfl⟩ := List.cons.inj heq
        have hfind := (Folder.Proper.find?_eq_some_iff h).mpr hmem
        exact ⟨e, hfind, (ih (Folder.Proper.of_find? h hfind).2).mp hmore⟩
      · rintro ⟨e, hfind, hmore⟩
        have hmem := (Folder.Proper.find?_eq_some_iff h).mp hfind
        exact ⟨name, e, more, hmem, rfl, (ih (Folder.Proper.of_find? h hfind).2).mpr hmore⟩

theorem nodup_filesOf {entries : List (String × Entry)} (h : (entries.map Prod.fst).Nodup)
    (hbelow : ∀ x ∈ entries, (x.2.files.map Prod.fst).Nodup) : ((filesOf entries).map Prod.fst).Nodup := by
  induction entries with
  | nil => exact List.nodup_nil
  | cons x entries ih =>
    obtain ⟨name, e⟩ := x
    obtain ⟨hname, hmore⟩ := List.nodup_cons.mp h
    obtain ⟨hfirst, hrest⟩ := List.forall_mem_cons.mp hbelow
    rw [filesOf, List.map_append, List.map_map, List.nodup_append]
    refine ⟨?_, ih hmore hrest, ?_⟩
    · have hcons := hfirst.map (List.cons_injective (a := name))
      rw [List.map_map] at hcons
      exact hcons
    · -- a path that begins with this name leads into no other entry
      intro path hpath other hother heq
      obtain ⟨⟨more, bytes⟩, -, rfl⟩ := List.mem_map.mp hpath
      obtain ⟨⟨below, bytes'⟩, hmem, rfl⟩ := List.mem_map.mp hother
      obtain ⟨name', e', more', hentry, hbelow, -⟩ := mem_filesOf.mp hmem
      obtain ⟨rfl, -⟩ := List.cons.inj (heq.trans hbelow)
      exact hname (List.mem_map.mpr ⟨_, hentry, rfl⟩)

/-- No file is listed twice. -/
theorem Entry.Proper.nodup_files {e : Entry} (h : e.Proper) : (e.files.map Prod.fst).Nodup := by
  induction h with
  | file bytes => exact List.nodup_singleton []
  | folder hdistinct _ _ ih => exact nodup_filesOf hdistinct ih

end PegTree
