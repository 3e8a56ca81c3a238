import Shading.Bytecode.Pass.Basic
import Shading.Const

/-! Computes scalar operations on constants, and choices with a constant condition. -/
namespace Shading.Bytecode.Pass

/-- What is known of the code so far; in each list the newest entry counts. -/
structure Folding where
  kinds : List (Id × Scalar) := []
  constants : List (Id × Const) := []
  /-- The constant of a type and a word. -/
  interned : List ((Id × UInt32) × Id) := []
  /-- Results that are other ids now. -/
  replaced : List (Id × Id) := []
  added : List Instruction := []
  nextId : Id

namespace Folding

def rename (s : Folding) (i : Instruction) : Instruction :=
  renameIds (fun id => if some id = i.result? then id else (s.replaced.lookup id).getD id) i

/-- Notes the scalar types and constants that are declared. -/
def learn [Beyond] (s : Folding) (i : Instruction) : Folding :=
  match i.op, i.reach with
  | .typeBool, id :: _ => { s with kinds := (id, .bool) :: s.kinds }
  | .typeFloat, id :: _ => { s with kinds := (id, .float) :: s.kinds }
  | .typeInt, id :: sign :: _ =>
    { s with kinds := (id, if sign ≠ 0 then .int else .uint) :: s.kinds }
  | .constant, ty :: id :: bits :: _ =>
    match s.kinds.lookup ty with
    | none => s
    | some kind =>
      { s with
        constants := (id, .ofBits kind bits) :: s.constants
        interned := if (s.interned.lookup (ty, bits)).isSome then s.interned
          else ((ty, bits), id) :: s.interned }
  | _, _ => s

/-- The value of an operation on constants. -/
def eval? [Beyond] (s : Folding) (i : Instruction) : Option Const :=
  match i.op, i.reach with
  | .binary, _ :: _ :: op :: l :: r :: _ => do
    Const.binary? (← BinaryOp.ofCode? op.toNat) (← s.constants.lookup l) (← s.constants.lookup r)
  | .unary, _ :: _ :: op :: x :: _ => do
    Const.unary? (← UnaryOp.ofCode? op.toNat) (← s.constants.lookup x)
  | .construct, ty :: _ :: x :: _ =>
    if i.operands.length = 3 then do
      let kind ← s.kinds.lookup ty
      return (← s.constants.lookup x).cast kind
    else none
  | _, _ => none

/-- What a choice with a constant condition chooses. -/
def chosen? [Beyond] (s : Folding) (i : Instruction) : Option Id :=
  match i.op, i.reach with
  | .select, _ :: _ :: c :: a :: b :: _ =>
    match s.constants.lookup c with
    | some (.bool cond) => some (if cond then a else b)
    | _ => none
  | _, _ => none

def intern (s : Folding) (ty : Id) (c : Const) : Id × Folding :=
  match s.interned.lookup (ty, c.bits) with
  | some id => (id, s)
  | none =>
    (s.nextId, { s with
      interned := ((ty, c.bits), s.nextId) :: s.interned
      added := s.added ++ [⟨.constant, [ty, s.nextId, c.bits]⟩]
      nextId := s.nextId + 1 })

def replace (s : Folding) (result value : Id) : Folding :=
  { s with replaced := (result, value) :: s.replaced }

/-- One instruction, if it is still needed. -/
def step [Beyond] (s : Folding) (i : Instruction) : Option Instruction × Folding :=
  let i := s.rename i
  let s := s.learn i
  match s.chosen? i with
  | some id => (none, s.replace (i.operand 1) id)
  | none =>
    match s.eval? i with
    | none => (some i, s)
    | some c =>
      if s.kinds.lookup (i.operand 0) = some c.kind then
        let (id, s) := s.intern (i.operand 0) c
        (none, { s with constants := (id, c) :: s.constants }.replace (i.operand 1) id)
      else (some i, s)

def run [Beyond] (s : Folding) : List Instruction → List Instruction × Folding
  | [] => ([], s)
  | i :: rest =>
    let (kept, s) := s.step i
    let (code, s) := s.run rest
    (kept.toList ++ code, s)

end Folding

def insertConstants (added : List Instruction) : List Instruction → List Instruction
  | [] => added
  | i :: rest => if i.op = .function then added ++ i :: rest else i :: insertConstants added rest

def foldScalars [Beyond] (code : List Instruction) : Result :=
  let (kept, s) := ({ nextId := maxId code + 1 } : Folding).run code
  if s.added.isEmpty then .ok { code := kept }
  else .ok ⟨insertConstants s.added kept,
    some ("folded " ++ toString (s.replaced.map Prod.fst).eraseDups.length ++ " values into " ++
      toString s.added.length ++ " new constants")⟩

end Shading.Bytecode.Pass
