import Shading.Diagnostic
import Shading.Text.Path
import Shading.Text.Utf8

/-! Where included text comes from. A library of headers answers two questions: the header that a
file finds beside itself, and the one that the search directories hold. -/
namespace Shading.Source

/-- A header that was found. -/
structure Header where
  /-- As the directive spells it. -/
  name : String
  path : String
  data : List UInt8
  deriving DecidableEq, Repr

def Header.text (h : Header) : List Char := Text.ofUtf8Lossy h.data

/-- The answer to a question, and what was said about it. -/
structure Lookup where
  found : Option Header
  log : Log := []

/-- A source of headers. Both questions name the header and the file that asks. -/
structure Library where
  beside : (name asking : String) → Lookup
  system : (name asking : String) → Lookup

/-- The header of an `#include`: in quotes it may also come from the search directories. -/
def Library.find (l : Library) (quoted : Bool) (name asking : String) : Lookup :=
  if quoted then
    let near := l.beside name asking
    match near.found with
    | some _ => near
    | none =>
      let far := l.system name asking
      ⟨far.found, near.log ++ far.log⟩
  else l.system name asking

def besidePath (name asking : String) : String := Path.join (Path.parent asking) name

/-- Headers kept in memory. -/
structure HeaderStore where
  files : List (String × String) := []
  /-- Search directories in order, each with its headers. -/
  dirs : List (String × List (String × String)) := []
  deriving Repr

namespace HeaderStore

def addFile (s : HeaderStore) (path text : String) : HeaderStore :=
  { s with files := (path, text) :: s.files }

/-- Adds a header to a search directory, which keeps its place if it is known. -/
def addSystem (s : HeaderStore) (dir name text : String) : HeaderStore :=
  let known := s.dirs.any fun d => Path.same d.1 dir
  let dirs :=
    if known then
      s.dirs.map fun d => if Path.same d.1 dir then (d.1, (name, text) :: d.2) else d
    else s.dirs ++ [(dir, [(name, text)])]
  { s with dirs := dirs }

def nonempty? (text : Option String) : Option String := text.filter fun t => !t.isEmpty

def beside (s : HeaderStore) (name asking : String) : Lookup :=
  let path := besidePath name asking
  match nonempty? ((s.files.find? fun f => Path.same f.1 path).map (·.2)) with
  | some text => ⟨some ⟨name, path, Text.utf8 text⟩, []⟩
  | none => ⟨none, [.error asking 0 (path ++ " is not a valid file")]⟩

def system (s : HeaderStore) (name : String) : Lookup :=
  let found := s.dirs.findSome? fun (dir, files) =>
    (nonempty? (files.lookup name)).map fun text => ⟨name, Path.join dir name, Text.utf8 text⟩
  ⟨found, []⟩

def library (s : HeaderStore) : Library := ⟨s.beside, fun name _ => s.system name⟩

end HeaderStore

end Shading.Source
