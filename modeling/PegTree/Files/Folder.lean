/-!
# Files and folders

A `Folder` is what a program sees of a file system: named entries, each a file with its bytes or
another folder.  A path is followed one component at a time.  Empty components and `.` stay where
they are and `..` goes back to where the walk came from, but each of them needs a folder to stand in,
so a path that goes through a file, or ends in a slash behind one, names nothing.
-/

namespace PegTree

mutual

/-- What a path may name. -/
inductive Entry where
  | file (bytes : List UInt8)
  | folder (f : Folder)

/-- Entries with their names. -/
structure Folder where
  entries : List (String × Entry)

end

/-- Entries with an entry put in, in the place of one of the same name. -/
def putEntry (name : String) (e : Entry) : List (String × Entry) → List (String × Entry)
  | [] => [(name, e)]
  | (other, old) :: more =>
    if other = name then (name, e) :: more else (other, old) :: putEntry name e more

namespace Folder

/-- The folder without entries. -/
def empty : Folder :=
  ⟨[]⟩

/-- The entry of a name. -/
def find? (f : Folder) (name : String) : Option Entry :=
  f.entries.lookup name

/-- The folder of a name, the empty one if there is no such folder. -/
def subfolder (f : Folder) (name : String) : Folder :=
  match f.find? name with
  | some (.folder g) => g
  | _ => empty

/-! ## Building -/

/-- The folder with an entry put in, in the place of one of the same name. -/
def put (f : Folder) (name : String) (e : Entry) : Folder :=
  ⟨putEntry name e f.entries⟩

/-- The folder with a file put in below it; the folders on the way appear as needed. -/
def addFile (f : Folder) (path : List String) (bytes : List UInt8) : Folder :=
  match path with
  | [] => f
  | [name] => f.put name (.file bytes)
  | name :: more => f.put name (.folder ((f.subfolder name).addFile more bytes))

/-- The folder with a folder put in below it; what is there already stays. -/
def addFolder (f : Folder) (path : List String) : Folder :=
  match path with
  | [] => f
  | name :: more => f.put name (.folder ((f.subfolder name).addFolder more))

/-! ## Following paths -/

/-- The components of a path. -/
def components (path : String) : List String :=
  (path.toList.splitOn '/').map String.ofList

/-- Follows components from an entry; `above` are the folders around it, the nearest in front. -/
def follow (above : List Folder) (e : Entry) : List String → Option Entry
  | [] => some e
  | name :: more =>
    match e with
    | .file _ => none
    | .folder f =>
      if name = "" ∨ name = "." then follow above e more
      else if name = ".." then
        -- back to where the walk came from
        match above with
        | [] => none
        | outer :: above => follow above (.folder outer) more
      else
        match f.find? name with
        | none => none
        | some next => follow (f :: above) next more

/-- What a path names, seen from the folder.  The empty path names nothing, and neither does a path
from a root above the folder. -/
def resolve? (f : Folder) (path : String) : Option Entry :=
  if path.toList.head?.any (· != '/') then follow [] (.folder f) (components path) else none

end Folder

/-! ## What lies below -/

mutual

/-- The files at and below an entry, each with the components that lead to it. -/
def Entry.files : Entry → List (List String × List UInt8)
  | .file bytes => [([], bytes)]
  | .folder f => f.files

/-- The files below a folder, each with the components that lead to it. -/
def Folder.files : Folder → List (List String × List UInt8)
  | ⟨entries⟩ => filesOf entries

/-- The files at and below named entries. -/
def filesOf : List (String × Entry) → List (List String × List UInt8)
  | [] => []
  | (name, e) :: more => (e.files.map fun (path, bytes) => (name :: path, bytes)) ++ filesOf more

end

end PegTree
