import Shading.Bytecode.Pass.Basic

/-! Drops the names of local variables and parameters, and numbers ids in the order of their
definitions. -/
namespace Shading.Bytecode.Pass

def localIds (ps : List Part) : List Id :=
  results ((ps.filterMap Part.function?).flatMap fun f =>
    f.code.filter fun i => i.op == .var || i.op == .functionParameter)

def dropLocalNames (code : List Instruction) : Result := do
  let locals := localIds (← parts code)
  return { code := code.filter fun i =>
    !(i.op == .debugName && i.operands.head?.any (locals.contains ·)) }

def firstRepeated? : List Id → List Id → Option Id
  | _, [] => none
  | seen, id :: rest => if id ∈ seen then some id else firstRepeated? (id :: seen) rest

def number (ids : List Id) (id : Id) : Id :=
  match ids.idxOf? id with
  | some n => .ofNat (n + 1)
  | none => id

def renumber (code : List Instruction) : Result :=
  match firstRepeated? [] (results code) with
  | some id => .error (.redefined id)
  | none => .ok { code := code.map (renameIds (number (results code))) }

end Shading.Bytecode.Pass
