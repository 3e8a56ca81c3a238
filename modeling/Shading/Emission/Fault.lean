import Shading.Bytecode.Instruction
import Shading.Emission.Target

/-! Why a module has no text. -/
namespace Shading.Emission
open Bytecode

inductive Fault where
  | undecodable (f : Bytecode.Fault)
  | target (f : Target.Fault)
  | noEntry
  | noType (id : Id)
  | untyped (id : Id)
  | noPointer (id : Id)
  | noScalar (id : Id)
  | vectorOfNoScalar
  | columnNoVector
  | badDim
  | badSamplerKind
  | badStorage (code : UInt32)
  | badParamMode (code : UInt32)
  | paramOutside
  | strayEnd
  | paramNoPointer (id : Id)
  | unknownVar (code : UInt32)
  | functionStorage (id : Id)
  | fragmentOutput (ty : Ty) (t : Target)
  | unknownInterpolation (code : UInt32)
  | noInterpolation (keyword : String) (t : Target)
  | expected (wanted : Opcode) (found : Option Opcode)
  | unbalanced (function : String)
  | undefined (id : Id)
  | badBinary
  | badUnary
  | noOperator (symbol : String) (t : Target)
  | arrayConstructor (t : Target)
  | badComponent
  | badVectorIndex
  | badFunction
  | unknownFunction (id : Id)
  | unexpected (op : Opcode)
  | tailWithoutCondition
  | notIndexable (ty : Ty)

namespace Fault

def mark (id : Id) : String := "%" ++ toString id.toNat

def message : Fault → String
  | .undecodable f => f.message
  | .target f => f.message
  | .noEntry => "module has no entry point"
  | .noType id => mark id ++ " is not a type"
  | .untyped id => mark id ++ " has no type"
  | .noPointer id => mark id ++ " is not a pointer"
  | .noScalar id => "constant " ++ mark id ++ " is not a scalar"
  | .vectorOfNoScalar => "vector of a non-scalar type"
  | .columnNoVector => "matrix column is not a vector"
  | .badDim => "bad sampler dimension"
  | .badSamplerKind => "bad sampler kind"
  | .badStorage code => "bad storage class " ++ toString code.toNat
  | .badParamMode code => "bad parameter mode " ++ toString code.toNat
  | .paramOutside => "parameter outside of a function"
  | .strayEnd => "stray FunctionEnd"
  | .paramNoPointer id => "parameter " ++ mark id ++ " is not a pointer"
  | .unknownVar code => "unknown builtin variable " ++ toString code.toNat
  | .functionStorage id => "global " ++ mark id ++ " has function storage"
  | .fragmentOutput ty t =>
    "fragment output of type '" ++ ty.text ++ "' cannot be expressed in " ++ t.text
  | .unknownInterpolation code => "unknown interpolation qualifier code " ++ toString code.toNat
  | .noInterpolation keyword t =>
    "interpolation qualifier '" ++ keyword ++ "' is not available in " ++ t.text
  | .expected wanted found =>
    "expected " ++ wanted.name ++ ", found " ++ (match found with
      | some op => op.name
      | none => "end of function")
  | .unbalanced function => "unbalanced control flow in function '" ++ function ++ "'"
  | .undefined id => mark id ++ " is used before it is defined"
  | .badBinary => "bad binary operator"
  | .badUnary => "bad unary operator"
  | .noOperator symbol t => "operator '" ++ symbol ++ "' is not available in " ++ t.text
  | .arrayConstructor t => "array constructors are not available in " ++ t.text
  | .badComponent => "bad swizzle component"
  | .badVectorIndex => "bad vector index"
  | .badFunction => "bad builtin function"
  | .unknownFunction id => "call to unknown function " ++ mark id
  | .unexpected op => "unexpected " ++ op.name ++ " inside a function"
  | .tailWithoutCondition => "do-while loop without a condition"
  | .notIndexable ty => "cannot index a value of type '" ++ ty.text ++ "'"

end Fault

def ofTarget {α : Type} : Except Target.Fault α → Except Fault α := Except.mapError .target

def require {α : Type} (f : Fault) : Option α → Except Fault α
  | some a => .ok a
  | none => .error f

theorem require_eq_ok {α : Type} {e : Fault} {o : Option α} {a : α} :
    require e o = .ok a ↔ o = some a := by
  cases o <;> simp [require]

end Shading.Emission
