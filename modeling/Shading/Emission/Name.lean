import Shading.Bytecode.Instruction
import Shading.Emission.Target

/-! Names in the text. -/
namespace Shading.Emission
open Bytecode

def isNameChar (c : Char) : Bool := c.isAlphanum || c == '_'

def isFree (used : List String) (name : String) : Bool :=
  !name.isEmpty && !Target.isReserved name && !used.contains name && name.toList.all isNameChar &&
    !name.toList.head?.any Char.isDigit

def ownName (id : Id) : String := "_" ++ toString id.toNat

/-- A name for an id: the one that readers know, with the id behind it if need be, else one made of the
id alone. -/
def freshName (used : List String) (id : Id) (known : Option String) : String :=
  match known with
  | none => ownName id
  | some name =>
    if isFree used name then name
    else if isFree used (name ++ ownName id) then name ++ ownName id
    else ownName id

def flagName (n : Nat) : String := "_lf" ++ toString n

def freshFlag (used : List String) : String :=
  (((List.range (used.length + 1)).map flagName).find? (· ∉ used)).getD "_lf"

def declaration (ty : Ty) (name : String) : String := ty.baseName ++ " " ++ name ++ ty.suffix

end Shading.Emission
