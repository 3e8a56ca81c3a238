import Shading.Bytecode.Pass.Basic

/-! Deletes what stands after a terminator in its block. -/
namespace Shading.Bytecode.Pass

def endsBlock : Opcode → Bool
  | .orElse | .endIf | .loopCondition | .loopContinue | .endLoop | .functionEnd => true
  | _ => false

mutual

def keepReached : List Instruction → List Instruction
  | [] => []
  | i :: rest => i :: if i.op.isTerminator then skipBlock 0 rest else keepReached rest

def skipBlock (depth : Nat) : List Instruction → List Instruction
  | [] => []
  | i :: rest =>
    match i.op, depth with
    | .ifThen, _ | .loop, _ => skipBlock (depth + 1) rest
    | .endIf, d + 1 | .endLoop, d + 1 => skipBlock d rest
    | op, 0 => if endsBlock op then i :: keepReached rest else skipBlock 0 rest
    | _, d + 1 => skipBlock (d + 1) rest

end

def dropUnreachable (code : List Instruction) : Result :=
  let kept := keepReached code
  if kept.length = code.length then .ok { code }
  else
    let pruned := dropStaleAnnotations kept
    .ok ⟨pruned, some ("removed " ++ toString (code.length - pruned.length) ++
      " unreachable instructions")⟩

end Shading.Bytecode.Pass
