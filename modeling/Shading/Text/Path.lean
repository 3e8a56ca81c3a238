/-! Slash-separated file paths. Two paths are the same place when their parts agree: a repeated or
trailing slash and a `.` inside a path name nothing, a leading `.` is a part of its own. -/
namespace Shading

/-- One part of a path. -/
inductive PathPart where
  | root
  | here
  | up
  | name (text : String)
  deriving DecidableEq, Repr

namespace Path

def pieces : List Char → List (List Char)
  | [] => [[]]
  | c :: cs =>
    if c = '/' then [] :: pieces cs
    else match pieces cs with
      | [] => [[c]]
      | p :: ps => (c :: p) :: ps

def isPart (piece : List Char) : Bool := piece != [] && piece != ['.']

def splitHead : List Char → List Char × List Char
  | '/' :: rest => (['/'], rest)
  | '.' :: '/' :: rest => (['.'], '/' :: rest)
  | ['.'] => (['.'], [])
  | text => ([], text)

def parts (path : String) : List PathPart :=
  let (head, body) := splitHead path.toList
  let first := match head with
    | ['/'] => [PathPart.root]
    | ['.'] => [PathPart.here]
    | _ => []
  first ++ (pieces body).filterMap fun piece =>
    if isPart piece then
      some (if piece = ['.', '.'] then .up else .name (String.ofList piece))
    else none

def ends (start : Nat) : List (List Char) → List Nat
  | [] => []
  | piece :: rest =>
    let stop := start + piece.length
    if isPart piece then stop :: ends (stop + 1) rest else ends (stop + 1) rest

/-- The directory a path lies in: its text up to the end of the part before the last one. -/
def parent (path : String) : String :=
  let (head, body) := splitHead path.toList
  match (ends 0 (pieces body)).reverse with
  | [] => ""
  | [_] => String.ofList head
  | _ :: stop :: _ => String.ofList (head ++ body.take stop)

def join (base path : String) : String :=
  if path.toList.head? = some '/' ∨ base.isEmpty then path
  else if base.toList.getLast? = some '/' then base ++ path
  else base ++ "/" ++ path

def same (a b : String) : Bool := parts a = parts b

end Path

end Shading
