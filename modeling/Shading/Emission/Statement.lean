import Shading.Emission.Name
import Shading.Emission.Term

/-! Statements of the text as trees, and how they are written. -/
namespace Shading.Emission
open Bytecode

/-- A variable of a function. -/
structure Local where
  id : Id
  ty : Ty
  name : String
  deriving Repr

/-- What is done by an expression, which may also stand as the step of a loop. -/
inductive Action where
  /-- A store through a pointer. -/
  | assign (pointer : Id) (target value : Term)
  | run (call : Term)
  deriving Repr

inductive Stmt where
  /-- The declaration of a variable, with its first value if that is stored at once. -/
  | local_ (l : Local) (value : Option Term)
  /-- A name for a value. -/
  | value (id : Id) (ty : Ty) (name : String) (value : Term)
  | act (a : Action)
  | if_ (cond : Term) (yes : List Stmt)
  | ifElse (cond : Term) (yes no : List Stmt)
  | loop (init : Option (Local × Term)) (cond : Option Term) (steps : List Action) (body : List Stmt)
  | doWhile (body : List Stmt) (cond : Term)
  /-- Leaves the loop unless the condition holds. -/
  | exit (cond : Term)
  /-- The declaration of a flag, which is not raised. -/
  | flag (name : String)
  | raise (name : String)
  /-- What is done if a flag is raised. -/
  | resume (name : String) (body : List Stmt)
  | return_ (value : Option Term)
  | discard
  | break_
  | continue_
  deriving Repr

namespace Action

def text : Action → String
  | .assign _ target value => target.text ++ " = " ++ value.text
  | .run call => call.text

end Action

def Local.text (l : Local) (value : Option Term) : String :=
  declaration l.ty l.name ++ (match value with
    | some v => " = " ++ v.text
    | none => "")

/-- The head of a loop over its three parts, of which each may be missing. -/
def forHead (init cond step : String) : String :=
  if step.isEmpty then
    if cond.isEmpty then "for (" ++ init ++ ";;)" else "for (" ++ init ++ "; " ++ cond ++ ";)"
  else "for (" ++ init ++ "; " ++ cond ++ "; " ++ step ++ ")"

def loopHead (init : Option (Local × Term)) (cond : Option Term) (steps : List Action) : String :=
  match init, cond, steps with
  | none, some c, [] => "while (" ++ c.text ++ ")"
  | _, _, _ =>
    forHead ((init.map fun (l, v) => l.text (some v)).getD "") ((cond.map Term.text).getD "")
      (", ".intercalate (steps.map Action.text))

def line (depth : Nat) (text : String) : String :=
  String.ofList (List.replicate (4 * depth) ' ') ++ text ++ "\n"

def braced (depth : Nat) (head body close : String) : String :=
  line depth head ++ line depth "\x7b" ++ body ++ line depth close

mutual

def Stmt.text (depth : Nat) : Stmt → String
  | .local_ l value => line depth (l.text value ++ ";")
  | .value _ ty name value => line depth (declaration ty name ++ " = " ++ value.text ++ ";")
  | .act a => line depth (a.text ++ ";")
  | .if_ cond yes => braced depth ("if (" ++ cond.text ++ ")") (textOf (depth + 1) yes) "\x7d"
  | .ifElse cond yes no =>
    braced depth ("if (" ++ cond.text ++ ")") (textOf (depth + 1) yes) "\x7d" ++
      braced depth "else" (textOf (depth + 1) no) "\x7d"
  | .loop init cond steps body =>
    braced depth (loopHead init cond steps) (textOf (depth + 1) body) "\x7d"
  | .doWhile body cond =>
    braced depth "do" (textOf (depth + 1) body) ("\x7d while (" ++ cond.text ++ ");")
  | .exit cond => line depth ("if (" ++ (Phrase.unary .not cond.phrase).text ++ ") break;")
  | .flag name => line depth ("bool " ++ name ++ " = false;")
  | .raise name => line depth (name ++ " = true;")
  | .resume name body => braced depth ("if (" ++ name ++ ")") (textOf (depth + 1) body) "\x7d"
  | .return_ none => line depth "return;"
  | .return_ (some value) => line depth ("return " ++ value.text ++ ";")
  | .discard => line depth "discard;"
  | .break_ => line depth "break;"
  | .continue_ => line depth "continue;"

def textOf (depth : Nat) : List Stmt → String
  | [] => ""
  | s :: ss => s.text depth ++ textOf depth ss

end

end Shading.Emission
