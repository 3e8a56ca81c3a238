import Shading.Source.Header

/-! Headers in a tree of files. Paths are followed part by part, so every part but the last has to be a
directory; writing a file makes the directories that its path goes through. -/
namespace Shading.Source

namespace FileTree

/-- A directory that is there before anything is written. -/
inductive Base where
  /-- So many levels above the root of the tree; level zero is the root. -/
  | above (levels : Nat)
  /-- The directory that absolute paths start from. -/
  | top
  deriving DecidableEq, Repr

def Base.up : Base → Base
  | .above levels => .above (levels + 1)
  | .top => .top

/-- Names to go down from a base. -/
structure Place where
  base : Base := .above 0
  names : List String := []
  deriving DecidableEq, Repr

namespace Place

def step (p : Place) : PathPart → Place
  | .root => ⟨.top, []⟩
  | .here => p
  | .up => if p.names.isEmpty then ⟨p.base.up, []⟩ else { p with names := p.names.dropLast }
  | .name n => { p with names := p.names ++ [n] }

def walk (p : Place) (parts : List PathPart) : Place := parts.foldl step p

def visits (p : Place) : List PathPart → List Place
  | [] => [p]
  | part :: rest => p :: (p.step part).visits rest

def path (p : Place) : String :=
  match p.base with
  | .above levels => "/".intercalate (List.replicate levels ".." ++ p.names)
  | .top => "/" ++ "/".intercalate p.names

end Place

end FileTree

structure FileTree where
  /-- The newest entry of a place counts. -/
  files : List (FileTree.Place × List UInt8) := []
  /-- Directories that were made. -/
  dirs : List FileTree.Place := []
  deriving Repr

namespace FileTree

/-- Writes a file, after making the directories on the way to it. -/
def add (t : FileTree) (path : String) (data : List UInt8) : FileTree :=
  let parts := Path.parts path
  { files := (Place.walk {} parts, data) :: t.files
    dirs := Place.visits {} parts.dropLast ++ t.dirs }

def file? (t : FileTree) (p : Place) : Option (List UInt8) := t.files.lookup p

def isDir (t : FileTree) (p : Place) : Bool := p.names.isEmpty || t.dirs.contains p

/-- The place that parts lead to, if every place on the way is a directory and something is there. -/
def follow (t : FileTree) (p : Place) : List PathPart → Option Place
  | [] => if (t.file? p).isSome || t.isDir p then some p else none
  | part :: rest => if t.isDir p then t.follow (p.step part) rest else none

def endsLikeDir (path : String) : Bool :=
  match path.toList.reverse with
  | '/' :: _ | '.' :: '/' :: _ => true
  | _ => false

/-- What stands at a path. -/
inductive Entry where
  | file (place : Place) (data : List UInt8)
  | dir

def entry? (t : FileTree) (path : String) : Option Entry :=
  match t.follow {} (Path.parts path) with
  | none => none
  | some place =>
    match t.file? place with
    | some data => if endsLikeDir path then none else some (.file place data)
    | none => some .dir

def Entry.header? (name : String) : Entry → Option Header
  | .file place data => if data.isEmpty then none else some ⟨name, place.path, data⟩
  | .dir => none

/-- The directory that a path lies in. A path that is not absolute starts below the root of the tree,
where a leading `.` names nothing; the root itself lies in the directory above it. -/
def parent (path : String) : String :=
  if path.toList.head? = some '/' then Path.parent path
  else if Path.parts ("/" ++ path) = [.root] then ".."
  else String.ofList ((Path.parent ("/" ++ path)).toList.drop 1)

def beside (t : FileTree) (name asking : String) : Lookup :=
  let path := Path.join (parent asking) name
  match t.entry? path with
  | none => ⟨none, [.error asking 0 ("failed to retrieve file statistics for " ++ path)]⟩
  | some e =>
    match e.header? name with
    | some h => ⟨some h, []⟩
    | none => ⟨none, [.error asking 0 (path ++ " is not a valid file")]⟩

def system (t : FileTree) (dirs : List String) (name : String) : Lookup :=
  ⟨dirs.findSome? fun dir => (t.entry? (Path.join dir name)).bind (Entry.header? name), []⟩

def library (t : FileTree) (dirs : List String) : Library :=
  ⟨t.beside, fun name _ => t.system dirs name⟩

end FileTree

end Shading.Source
