import Shading.Source.Expansion
import Shading.Stage
import Shading.Surface.ItemParser

/-! From the text of one stage to its written program. -/
namespace Shading
open Reporting

/-- The text of one stage, with the directives that the compiler puts before it. -/
structure StageSource where
  stage : Stage
  file : String
  text : String
  preamble : String := "#extension GL_GOOGLE_include_directive : require\n"
  deriving DecidableEq, Repr

def StageSource.withDefines (u : StageSource) (defines : List (String × String)) : StageSource :=
  { u with preamble := u.preamble ++ String.join (defines.map fun (name, value) =>
      "#define " ++ name ++ " " ++ value ++ "\n") }

/-- A unit that was read. -/
structure WrittenUnit where
  file : String
  stage : Stage
  expansion : Source.Expansion
  items : List Surface.Item

namespace WrittenUnit

def version (u : WrittenUnit) : Nat := u.expansion.version

def es (u : WrittenUnit) : Bool := u.expansion.es

def locate (u : WrittenUnit) (span : Span) : String × Nat := u.expansion.locate span.start

end WrittenUnit

def Source.Fault.frontError : Source.Fault → FrontError
  | .at file line cause => .located ⟨file, line, cause.message⟩
  | .headerNotFound name asking line => .headerNotFound name asking line

namespace StageSource

def expand (u : StageSource) (lib : Source.Library) : Reporting FrontError Source.Expansion := do
  let (result, log) := Source.run lib u.preamble u.text u.file
  reportAll log
  match result with
  | .error fault => throw fault.frontError
  | .ok e =>
    note .trace ("preprocessed " ++ u.file ++ ": " ++ toString e.map.starts.size ++ " lines, version " ++
      toString e.version ++ (if e.es then " es" else ""))
    return e

/-- The items of a unit. Errors are placed by file and line. -/
def read (u : StageSource) (lib : Source.Library) : Reporting FrontError WrittenUnit := do
  let e ← u.expand lib
  match Surface.parse e.text with
  | .error fault =>
    let (file, line) := e.locate fault.span.start
    throw (.located ⟨file, line, fault.message⟩)
  | .ok items =>
    note .debug ("parsed " ++ u.file ++ " (" ++ u.stage.name ++ " stage): " ++
      toString items.length ++ " top-level items")
    return ⟨u.file, u.stage, e, items⟩

end StageSource

end Shading
