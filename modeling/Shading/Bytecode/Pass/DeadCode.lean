import Shading.Bytecode.Pass.Basic

/-! Deletes computations that nothing uses, and local variables that are only written. -/
namespace Shading.Bytecode.Pass

def isLocal (i : Instruction) : Bool :=
  i.op == .var && i.operands[2]? == some (.ofNat StorageClass.function.code)

def uses (code : List Instruction) : List Id :=
  (code.filter fun i => i.op != .debugName).flatMap Instruction.references

def storeTargets [Beyond] (code : List Instruction) : List Id :=
  (code.filter fun i => i.op == .store).map fun i => i.operand 0

def deadLocals (used targets : List Id) (code : List Instruction) : List Id :=
  (results (code.filter isLocal)).filter fun id => used.count id == targets.count id

def needed [Beyond] (used dead : List Id) (i : Instruction) : Bool :=
  if i.op = .store then !dead.contains (i.operand 0)
  else
    match i.result? with
    | none => true
    | some id => if isLocal i then !dead.contains id else !(i.op.isPure && used.count id == 0)

def sweep [Beyond] (code : List Instruction) : List Instruction :=
  let used := uses code
  code.filter (needed used (deadLocals used (storeTargets code) code))

def sweepAll [Beyond] (code : List Instruction) : List Instruction :=
  if _shrinks : (sweep code).length < code.length then sweepAll (sweep code) else code
termination_by code.length

def dropDeadCode [Beyond] (code : List Instruction) : Result :=
  let kept := sweepAll code
  if kept.length = code.length then .ok { code }
  else .ok ⟨dropStaleAnnotations kept,
    some ("removed " ++ toString (code.length - kept.length) ++ " dead instructions")⟩

end Shading.Bytecode.Pass
