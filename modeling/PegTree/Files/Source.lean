import PegTree.Diagnostic
import PegTree.Files.Folder
import PegTree.Text.Utf8

/-!
# Finding and reading texts

A text is read from a file as UTF-8, without the byte-order mark that some editors put in front.
Where a folder is given in the place of a file, all files below it are meant whose names have a given
extension and none of some endings, in the order of their paths: component by component, and each
component by its bytes, so that what lies in a folder stands together.
-/

namespace PegTree

/-- What a path names; the view of the file system that is handed to a program. -/
abbrev FileView :=
  String → Option Entry

/-- Why a text cannot be had. -/
inductive SourceError where
  /-- There is no such file. -/
  | unreadable (path : String)
  /-- The file is not UTF-8. -/
  | badEncoding (path : String) (fault : Utf8.Fault)
  /-- There is neither such a file nor such a folder. -/
  | missingRoot (root : String)
deriving DecidableEq, Repr

/-- How an error is reported. -/
def SourceError.diagnostic : SourceError → Diagnostic
  | .unreadable path =>
    ⟨"failed to read `" ++ path ++ "`", "rulecraft::source::read", none, [], none⟩
  | .badEncoding path _ =>
    ⟨"`" ++ path ++ "` is not valid UTF-8", "rulecraft::source::encoding", none, [], none⟩
  | .missingRoot root =>
    ⟨"failed to walk `" ++ root ++ "`", "rulecraft::source::walk", none, [], none⟩

namespace FileView

/-! ## Reading -/

/-- The text of a file. -/
def readText (view : FileView) (path : String) : Except SourceError String :=
  match view path with
  | some (.file bytes) =>
    match Utf8.decode (Utf8.stripMark bytes) with
    | .ok text => .ok (String.ofList text)
    | .error fault => .error (.badEncoding path fault)
  | _ => .error (.unreadable path)

end FileView

/-! ## Names of files -/

/-- What follows the last dot of a file name; none if there is no dot or only one in front. -/
def fileExtension? (name : List Char) : Option (List Char) :=
  -- a dot in front of everything begins a hidden name, no extension
  let ending := name.reverse.takeWhile (· != '.')
  if ending.length + 1 < name.length then some ending.reverse else none

/-- Whether two texts are equal but for the case of ASCII letters. -/
def equalIgnoringCase (a b : List Char) : Bool :=
  a.map Char.toLower == b.map Char.toLower

/-- Whether a file name has the extension, which may be given with dots in front. -/
def hasExtension (extension : String) (name : String) : Bool :=
  (fileExtension? name.toList).any
    (equalIgnoringCase (extension.toList.dropWhile (· == '.')))

/-- Whether a file name ends with one of the texts. -/
def endsWithAny (endings : List String) (name : String) : Bool :=
  endings.any fun ending => ending.toList.isSuffixOf name.toList

/-- Whether a path comes before another or is the same, component by component. -/
def pathLE : List String → List String → Bool
  | [], _ => true
  | _ :: _, [] => false
  | a :: as, b :: bs => a < b || (a == b && pathLE as bs)

/-- Puts a path into a list of paths in ascending order. -/
def insertPath (path : List String) : List (List String) → List (List String)
  | [] => [path]
  | other :: more =>
    if pathLE path other then path :: other :: more else other :: insertPath path more

/-- Paths in ascending order. -/
def sortPaths (paths : List (List String)) : List (List String) :=
  paths.foldr insertPath []

/-! ## Discovery -/

/-- Which files below a folder are meant. -/
structure Selection where
  extension : String
  /-- Endings of the names of files that are left out. -/
  exclude : List String
deriving DecidableEq, Repr

/-- Whether the file at a path is meant. -/
def Selection.admits (s : Selection) (path : List String) : Bool :=
  match path.getLast? with
  | none => false
  | some name => hasExtension s.extension name && !endsWithAny s.exclude name

/-- The paths of the files below a folder that are meant, in order. -/
def Selection.below (s : Selection) (f : Folder) : List (List String) :=
  sortPaths ((f.files.map Prod.fst).filter s.admits)

/-- The path of something below a root. -/
def pathBelow (root : String) (path : List String) : String :=
  let separator := if root.toList.getLast? = some '/' then "" else "/"
  root ++ separator ++ "/".intercalate path

namespace FileView

/-- The files that a root stands for: itself if it is a file, and what is meant below it if it is a
folder. -/
def discover (view : FileView) (s : Selection) (root : String) :
    Except SourceError (List String) :=
  match view root with
  | some (.file _) => .ok [root]
  | some (.folder f) => .ok ((s.below f).map (pathBelow root))
  | none => .error (.missingRoot root)

/-- The view of entries that have been loaded from given paths: those paths, and the paths of the
files below them. -/
def ofLoaded (loaded : List (String × Entry)) : FileView := fun path =>
  let below := loaded.flatMap fun (root, e) =>
    match e with
    | .file _ => []
    | .folder f => f.files.map fun (path, bytes) => (pathBelow root path, Entry.file bytes)
  (loaded ++ below).lookup path

end FileView

end PegTree
