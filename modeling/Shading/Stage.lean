/-! The stages of the graphics pipeline and the resources each of them may use. -/
namespace Shading

inductive Stage where
  | vertex
  | fragment
  | compute
  deriving DecidableEq, Repr, Inhabited

namespace Stage

def all : List Stage := [.vertex, .fragment, .compute]

def name : Stage → String
  | .vertex => "vertex"
  | .fragment => "fragment"
  | .compute => "compute"

def letter : Stage → Char
  | .vertex => 'v'
  | .fragment => 'f'
  | .compute => 'c'

def ofLetter? (c : Char) : Option Stage := all.find? fun s => s.letter == c

def code : Stage → Nat
  | .vertex => 0
  | .fragment => 1
  | .compute => 2

def ofCode? (n : Nat) : Option Stage := all[n]?

@[simp] theorem ofCode?_code (s : Stage) : ofCode? s.code = some s := by cases s <;> rfl

@[simp] theorem ofLetter?_letter (s : Stage) : ofLetter? s.letter = some s := by cases s <;> rfl

/-- What a program of one stage may use. -/
structure Limits where
  /-- Scalar components of all uniforms that are not samplers. -/
  uniformComponents : Nat
  /-- Samplers, each element of an array counted. -/
  textureUnits : Nat
  /-- Locations of the inputs; zero is no limit. -/
  inputLocations : Nat
  /-- Locations of the outputs; zero is no limit. -/
  outputLocations : Nat
  workGroup : Option (Nat × Nat × Nat)
  deriving DecidableEq, Repr

def limits : Stage → Limits
  | .vertex => ⟨4096, 32, 64, 16, none⟩
  | .fragment => ⟨4096, 32, 32, 32, none⟩
  | .compute => ⟨1024, 16, 0, 0, some (1024, 1024, 64)⟩

end Stage

end Shading
