import Shading.Linked.Location
import Shading.Linked.Merge
import Shading.Linked.Register
import Shading.Typed.Check

/-! Linking: checked units become one program, and its interface gets locations. -/
namespace Shading
open Reporting Typed

/-- A program that can run, with what its units said. -/
structure Linked where
  program : Program
  log : Log
  deriving Repr

inductive LinkError where
  /-- The units do not fit each other. -/
  | merge (cause : Linked.Cause)
  /-- The interface cannot be placed. -/
  | place (fault : Linked.PlaceFault)

/-- Reports the fault that ends it. -/
def link (units : List Checked) : Reporting LinkError Linked := do
  match Linked.merge (units.map Checked.program) with
  | .error f =>
    report (.error f.file f.line f.cause.message)
    throw (.merge f.cause)
  | .ok p =>
    match Linked.placeInterface p with
    | .error f =>
      report (.error p.file 0 f.message)
      throw (.place f)
    | .ok p =>
      note .debug ("linked " ++ p.file ++ " (" ++ p.stage.name ++ "): " ++
        toString p.globals.length ++ " globals, " ++ toString p.functions.length ++ " functions")
      return ⟨p, units.flatMap Checked.log⟩

end Shading
