import Shading.Typed.Tree

/-! Names and what they mean, in scopes that shadow each other. -/
namespace Shading.Typed

inductive Meaning where
  | variable (v : VarRef) (ty : Ty)
  /-- A scalar constant, known at its declaration. -/
  | constant (c : Const)
  deriving DecidableEq, Repr

/-- Whether a variable may be written. -/
inductive Access where
  | plain
  | const
  | uniform
  | input
  deriving DecidableEq, Repr

namespace Access

def isReadOnly (a : Access) : Bool := a != .plain

def refusal : Access → String
  | .plain => ""
  | .const => "can't modify a const"
  | .uniform => "can't modify a uniform"
  | .input => "can't modify shader input"

end Access

abbrev Scope := List (String × Meaning)

/-- The open scopes; the outermost one is always there. -/
structure Scopes where
  inner : List Scope := []
  outermost : Scope := []
  deriving Repr

namespace Scopes

def depth (s : Scopes) : Nat := s.inner.length + 1

def push (s : Scopes) : Scopes := { s with inner := [] :: s.inner }

def pop (s : Scopes) : Scopes := { s with inner := s.inner.tail }

def newest (s : Scopes) : Scope := s.inner.headD s.outermost

def inInnermost (s : Scopes) (name : String) : Bool := (s.newest.lookup name).isSome

def bind (s : Scopes) (name : String) (m : Meaning) : Scopes :=
  match s.inner with
  | [] => { s with outermost := (name, m) :: s.outermost }
  | scope :: rest => { s with inner := ((name, m) :: scope) :: rest }

def declare? (s : Scopes) (name : String) (m : Meaning) : Option Scopes :=
  if s.inInnermost name then none else some (s.bind name m)

def lookup? (s : Scopes) (name : String) : Option Meaning :=
  (s.inner ++ [s.outermost]).findSome? fun scope => scope.lookup name

end Scopes

end Shading.Typed
