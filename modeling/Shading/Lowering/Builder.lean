import Shading.Bytecode.Module
import Shading.Typed.Tree

/-! A module that is being built: fresh ids, and types and constants that are declared once. -/
namespace Shading.Lowering
open Bytecode

/-- Why a program has no bytecode. -/
inductive Fault where
  | noEntry
  | noDefinition (signature : String)
  | undeclaredFunction (signature : String)
  | unknownGlobal (name : String)
  | undeclaredLocal (index : Nat)
  | unknownLocal (index : Nat)
  | unknownParam (index : Nat)
  | tailWithoutCondition
  | noStep (ty : Ty)
  | dynamicIndex
  | componentOutOfRange
  | notWritable (ty : Ty)
  | noSwizzle (ty : Ty)
  | encoding (f : Bytecode.Fault)
  /-- The module has this to be said of it. -/
  | invalid (finding : String)
  deriving DecidableEq, Repr

def Fault.message : Fault → String
  | .noEntry => "program has no entry point"
  | .noDefinition s => "no definition for function '" ++ s ++ "'"
  | .undeclaredFunction s => "call to undeclared function '" ++ s ++ "'"
  | .unknownGlobal name => "'" ++ name ++ "' : unknown global variable"
  | .undeclaredLocal i => "local #" ++ toString i ++ " used before its declaration"
  | .unknownLocal i => "unknown local #" ++ toString i
  | .unknownParam i => "unknown parameter #" ++ toString i
  | .tailWithoutCondition => "do-while loop without a condition"
  | .noStep ty => "cannot increment a value of type '" ++ ty.text ++ "'"
  | .dynamicIndex => "dynamic index into a swizzled l-value"
  | .componentOutOfRange => "swizzle component out of range"
  | .notWritable ty => "expression of type '" ++ ty.text ++ "' is not an l-value"
  | .noSwizzle ty => "cannot swizzle a value of type '" ++ ty.text ++ "'"
  | .encoding f => f.message
  | .invalid finding => "produced invalid bytecode: " ++ finding

/-- The variables of the function that is being lowered. -/
structure Frame where
  declared : List Typed.Local := []
  params : List Id := []
  /-- Ids of the locals whose declarations were met, the newest first. -/
  locals : List (Nat × Id) := []

structure State where
  nextId : Id := 1
  names : Array Instruction := #[]
  decorations : Array Instruction := #[]
  /-- Types, constants and global variables. -/
  decls : Array Instruction := #[]
  code : Array Instruction := #[]
  types : List (Ty × Id) := []
  pointers : List ((StorageClass × Id) × Id) := []
  functionTypes : List (List Id × Id) := []
  constants : List ((Scalar × UInt32) × Id) := []
  globals : List (String × Id × StorageClass) := []
  functions : List (String × Id) := []
  frame : Frame := {}

abbrev Lower := StateT State (Except Fault)

def fresh : Lower Id := modifyGet fun s => (s.nextId, { s with nextId := s.nextId + 1 })

def declare (op : Opcode) (operands : List UInt32) : Lower Unit :=
  modify fun s => { s with decls := s.decls.push ⟨op, operands⟩ }

def emit (op : Opcode) (operands : List UInt32) : Lower Unit :=
  modify fun s => { s with code := s.code.push ⟨op, operands⟩ }

def addName (target : Id) (text : String) : Lower Unit :=
  if text.isEmpty then pure ()
  else modify fun s => { s with names := s.names.push (.named target text) }

def decorate (target : Id) (d : Decoration) (value : Nat) : Lower Unit :=
  modify fun s => { s with
    decorations := s.decorations.push ⟨.decorate, [target, .ofNat d.code, .ofNat value]⟩ }

def cachedTy (t : Ty) (make : Lower (Opcode × List UInt32)) : Lower Id := do
  match (← get).types.lookup t with
  | some id => return id
  | none =>
    let (op, operands) ← make
    let id ← fresh
    declare op (id :: operands)
    modify fun s => { s with types := (t, id) :: s.types }
    return id

def scalarId (k : Scalar) : Lower Id :=
  cachedTy (.scalar k) (pure (match k with
    | .bool => (.typeBool, [])
    | .int => (.typeInt, [1])
    | .uint => (.typeInt, [0])
    | .float => (.typeFloat, [])))

def vectorId (k : Scalar) (n : Nat) : Lower Id :=
  cachedTy (.vector k n) do return (.typeVector, [← scalarId k, .ofNat n])

def tyId : Ty → Lower Id
  | .void => cachedTy .void (pure (.typeVoid, []))
  | .scalar k => scalarId k
  | .vector k n => vectorId k n
  | .matrix c r => cachedTy (.matrix c r) do return (.typeMatrix, [← vectorId .float r, .ofNat c])
  | .sampler s =>
    cachedTy (.sampler s) (pure (.typeSampler,
      [.ofNat s.dim.code, if s.shadow then 1 else 0, .ofNat s.kind.code]))
  | .array e n => cachedTy (.array e n) do return (.typeArray, [← tyId e, .ofNat n])

def pointerId (storage : StorageClass) (pointee : Id) : Lower Id := do
  match (← get).pointers.lookup (storage, pointee) with
  | some id => return id
  | none =>
    let id ← fresh
    declare .typePointer [id, .ofNat storage.code, pointee]
    modify fun s => { s with pointers := ((storage, pointee), id) :: s.pointers }
    return id

def functionTyId (types : List Id) : Lower Id := do
  match (← get).functionTypes.lookup types with
  | some id => return id
  | none =>
    let id ← fresh
    declare .typeFunction (id :: types)
    modify fun s => { s with functionTypes := (types, id) :: s.functionTypes }
    return id

/-- Constants are told apart by their kinds and words. -/
def constantId (c : Const) : Lower Id := do
  match (← get).constants.lookup (c.kind, c.bits) with
  | some id => return id
  | none =>
    let ty ← tyId c.ty
    let id ← fresh
    declare .constant [ty, id, c.bits]
    modify fun s => { s with constants := ((c.kind, c.bits), id) :: s.constants }
    return id

def value (op : Opcode) (ty : Ty) (operands : List UInt32) : Lower Id := do
  let t ← tyId ty
  let id ← fresh
  emit op (t :: id :: operands)
  return id

def localVariable (ty : Ty) : Lower Id := do
  let p ← pointerId .function (← tyId ty)
  let id ← fresh
  emit .var [p, id, .ofNat StorageClass.function.code]
  return id

end Shading.Lowering
