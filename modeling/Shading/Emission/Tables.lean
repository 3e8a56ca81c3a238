import Shading.Bytecode.Module
import Shading.Const
import Shading.Emission.Fault

/-! What a module says of its ids: types, constants, names, decorations, globals and functions. -/
namespace Shading.Emission
open Bytecode

structure Param where
  ptrTy : Id
  id : Id
  mode : ParamMode
  deriving Repr

structure Function where
  id : Id
  returnTy : Id
  params : List Param := []
  /-- What stands between the last parameter and the end. -/
  body : List Instruction := []
  deriving Repr

abbrev Table (α : Type) := List (Id × α)

structure Tables where
  types : Table Ty := []
  /-- Pointer types and what they point to. -/
  pointers : Table Id := []
  constants : Table Const := []
  /-- The type and the parts of a constant that is no scalar. -/
  composites : Table (Id × List Id) := []
  /-- In the order of the code; the first name of an id counts. -/
  names : Table String := []
  decorations : List (Id × Decoration × UInt32) := []
  /-- The types of results. -/
  resultTypes : Table Id := []
  globals : List (Id × StorageClass) := []
  functions : List Function := []
  entry : Option Id := none
  localSize : Option (UInt32 × UInt32 × UInt32) := none
  /-- The function whose end was not met yet. -/
  current : Option Function := none

namespace Tables

def ty (t : Tables) (id : Id) : Except Fault Ty := require (.noType id) (t.types.lookup id)

def valueTy (t : Tables) (id : Id) : Except Fault Ty := do
  t.ty (← require (.untyped id) (t.resultTypes.lookup id))

def pointee (t : Tables) (id : Id) : Except Fault Ty := do
  t.ty (← require (.noPointer id) ((t.resultTypes.lookup id).bind fun p => t.pointers.lookup p))

def decoration? (t : Tables) (id : Id) (d : Decoration) : Option UInt32 :=
  (t.decorations.find? fun (target, kind, _) => target == id && kind == d).map fun (_, _, v) => v

def size (w : UInt32) : Nat := w.toNat % 256

/-- The type that an instruction declares, unless it is one of pointers or functions. -/
def declaredTy [Beyond] (t : Tables) (i : Instruction) : Except Fault (Option Ty) :=
  match i.op with
  | .typeVoid => .ok (some .void)
  | .typeBool => .ok (some .bool)
  | .typeInt => .ok (some (if i.operand 1 ≠ 0 then .int else .uint))
  | .typeFloat => .ok (some .float)
  | .typeVector => do
    let kind ← require .vectorOfNoScalar (← t.ty (i.operand 1)).kind?
    return some (.vector kind (size (i.operand 2)))
  | .typeMatrix => do
    let rows ← require .columnNoVector (← t.ty (i.operand 1)).vectorSize?
    return some (.matrix (size (i.operand 2)) rows)
  | .typeSampler => do
    let dim ← require .badDim (Dim.ofCode? (i.operand 1).toNat)
    let kind ← require .badSamplerKind (Scalar.ofCode? (i.operand 3).toNat)
    return some (.sampler ⟨dim, i.operand 2 != 0, kind⟩)
  | .typeArray => do
    return some (.array (← t.ty (i.operand 1)) (i.operand 2).toNat)
  | _ => .ok none

def pointing? [Beyond] (i : Instruction) : Option (Id × Id) :=
  if i.op = .typePointer then some (i.operand 0, i.operand 2) else none

def addTy (t : Tables) (id : Id) : Option Ty → Tables
  | some type => { t with types := (id, type) :: t.types.filter fun (other, _) => other != id }
  | none => t

def declareTy [Beyond] (t : Tables) (i : Instruction) : Except Fault Tables := do
  let t := t.addTy (i.operand 0) (← t.declaredTy i)
  return { t with pointers := (pointing? i).toList ++ t.pointers }

def addToBody (t : Tables) (i : Instruction) : Tables :=
  { t with current := t.current.map fun f => { f with body := f.body ++ [i] } }

/-- What one instruction says, whether or not it stands in a function. -/
def learn [Beyond] (t : Tables) (i : Instruction) : Except Fault Tables :=
  match i.op with
  | .entryPoint => .ok { t with entry := some (i.operand 0) }
  | .localSize => .ok { t with localSize := some (i.operand 0, i.operand 1, i.operand 2) }
  | .debugName =>
    .ok (match i.text? with
      | some text => { t with names := t.names ++ [(i.operand 0, text)] }
      | none => t)
  | .decorate =>
    .ok (match Decoration.ofCode? (i.operand 1).toNat with
      | some d => { t with decorations := t.decorations ++ [(i.operand 0, d, i.operand 2)] }
      | none => t)
  | .constant => do
    let kind ← require (.noScalar (i.operand 1)) (← t.ty (i.operand 0)).kind?
    return { t with constants := (i.operand 1, .ofBits kind (i.operand 2)) :: t.constants }
  | .constantComposite =>
    .ok { t with
      composites := (i.operand 1, i.operand 0, i.operandsFrom 2) :: t.composites }
  | .var =>
    if t.current.isNone then do
      let storage ← require (.badStorage (i.operand 2)) (StorageClass.ofCode? (i.operand 2).toNat)
      return { t with globals := t.globals ++ [(i.operand 1, storage)] }
    else .ok t
  | op => if op.isType then t.declareTy i else .ok t

def typing? (i : Instruction) : Option (Id × Id) :=
  match i.resultType?, i.result? with
  | some ty, some id => some (id, ty)
  | _, _ => none

def typed (t : Tables) (i : Instruction) : Tables :=
  { t with resultTypes := (typing? i).toList ++ t.resultTypes }

/-- One more instruction of the module. -/
def scan [Beyond] (t : Tables) (i : Instruction) : Except Fault Tables :=
  let t := t.typed i
  match i.op with
  | .function => .ok { t with current := some { id := i.operand 1, returnTy := i.operand 0 } }
  | .functionParameter =>
    match t.current with
    | none => .error .paramOutside
    | some f => do
      let mode ← require (.badParamMode (i.operand 2)) (ParamMode.ofCode? (i.operand 2).toNat)
      let param := ⟨i.operand 0, i.operand 1, mode⟩
      return { t with current := some { f with params := f.params ++ [param], body := [] } }
  | .functionEnd =>
    match t.current with
    | none => .error .strayEnd
    | some f => .ok { t with functions := t.functions ++ [f], current := none }
  | _ => do return (← t.learn i).addToBody i

def ofCode [Beyond] (target : Target) (code : List Instruction) : Except Fault (Tables × Id) := do
  let t ← code.foldlM scan {}
  let entry ← require .noEntry t.entry
  t.types.reverse.forM fun (_, type) => ofTarget (target.checkTy type)
  return (t, entry)

end Tables

end Shading.Emission
