/-! How values enter and leave stages and functions. -/
namespace Shading

/-- How a value between two stages is interpolated. -/
inductive Interpolation where
  | flat
  | smooth
  | noperspective
  | centroid
  deriving DecidableEq, Repr

namespace Interpolation

def all : List Interpolation := [.flat, .smooth, .noperspective, .centroid]

def text : Interpolation → String
  | .flat => "flat"
  | .smooth => "smooth"
  | .noperspective => "noperspective"
  | .centroid => "centroid"

def code : Interpolation → Nat
  | .flat => 0
  | .smooth => 1
  | .noperspective => 2
  | .centroid => 3

def ofCode? (n : Nat) : Option Interpolation := all[n]?

@[simp] theorem ofCode?_code (i : Interpolation) : ofCode? i.code = some i := by cases i <;> rfl

end Interpolation

/-- Which way a parameter's value goes. -/
inductive Passing where
  | in_
  | out
  | inout
  deriving DecidableEq, Repr

def Passing.text : Passing → String
  | .in_ => "in"
  | .out => "out"
  | .inout => "inout"

end Shading
