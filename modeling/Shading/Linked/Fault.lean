import Shading.Typed.Tree

/-! Why checked units do not make one program. -/
namespace Shading.Linked
open Typed

inductive Cause where
  | noUnits
  | stageMismatch (expected found : Stage)
  | mixedProfiles
  | localSizeMismatch (a b : WorkGroup)
  | globalMismatch (name : String) (expected found : Ty)
  /-- Two units give a global different places; `what` is its location or its binding. -/
  | placeMismatch (name what : String) (expected found : Nat)
  | secondInit (name : String)
  | overloadReturn (name : String)
  | secondBody (signature : String)
  | noEntry
  | recursion (caller callee : String)
  | noBody (callee : String)
  deriving Repr

def Cause.message : Cause → String
  | .noUnits => "no translation units to link"
  | .stageMismatch expected found =>
    "stage mismatch: expected " ++ expected.name ++ ", found " ++ found.name
  | .mixedProfiles => "cannot mix ES and desktop profiles"
  | .localSizeMismatch a b => "local_size mismatch: " ++ a.text ++ " vs " ++ b.text
  | .globalMismatch name expected found =>
    "'" ++ name ++ "' : type or storage mismatch between units ('" ++ expected.text ++ "' vs '" ++
      found.text ++ "')"
  | .placeMismatch name what expected found =>
    "'" ++ name ++ "' : " ++ what ++ " mismatch between units (" ++ toString expected ++ " vs " ++
      toString found ++ ")"
  | .secondInit name => "'" ++ name ++ "' : multiple initializers"
  | .overloadReturn name =>
    "'" ++ name ++ "' : overloaded functions must have the same return type"
  | .secondBody signature => "'" ++ signature ++ "' : function already has a body"
  | .noEntry => "Missing entry point: Each stage requires one entry point"
  | .recursion caller callee => "Recursion detected: " ++ caller ++ " calling " ++ callee
  | .noBody callee => "No function definition (body) found: " ++ callee

structure Fault where
  file : String
  line : Nat
  cause : Cause
  deriving Repr

end Shading.Linked
