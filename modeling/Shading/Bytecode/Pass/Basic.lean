import Shading.Bytecode.Instruction

/-! What the passes over bytecode share: how they fail, the functions of a module, and the annotations
that go with deleted ids. -/
namespace Shading.Bytecode.Pass

inductive Fault where
  | noEntry
  | noFunctionId
  | nestedFunction (index : Nat)
  | strayEnd (index : Nat)
  | openFunction
  | redefined (id : Id)
  deriving DecidableEq, Repr

def Fault.message : Fault → String
  | .noEntry => "module has no entry point"
  | .noFunctionId => "function without a result id"
  | .nestedFunction index => "nested function at instruction " ++ toString index
  | .strayEnd index => "stray FunctionEnd at instruction " ++ toString index
  | .openFunction => "unterminated function"
  | .redefined id => "%" ++ toString id.toNat ++ " is defined more than once"

/-- Code after a pass, and what the pass tells of its work. -/
structure Outcome where
  code : List Instruction
  note : Option String := none
  deriving Repr

abbrev Result := Except Fault Outcome

/-- The code of one function, from its head to its end. -/
structure FunctionCode where
  id : Id
  code : List Instruction
  deriving Repr

/-- Code is made of functions and of what stands outside of them. -/
inductive Part where
  | outside (i : Instruction)
  | function (f : FunctionCode)
  deriving Repr

namespace Part

def code : Part → List Instruction
  | .outside i => [i]
  | .function f => f.code

def function? : Part → Option FunctionCode
  | .outside _ => none
  | .function f => some f

end Part

def partsFrom : Nat → Option FunctionCode → List Instruction → Except Fault (List Part)
  | _, none, [] => .ok []
  | _, some _, [] => .error .openFunction
  | index, none, i :: rest =>
    match i.op with
    | .function =>
      match i.result? with
      | none => .error .noFunctionId
      | some id => partsFrom (index + 1) (some ⟨id, [i]⟩) rest
    | .functionEnd => .error (.strayEnd index)
    | _ => (partsFrom (index + 1) none rest).map (.outside i :: ·)
  | index, some f, i :: rest =>
    match i.op with
    | .function => .error (if i.result?.isNone then .noFunctionId else .nestedFunction index)
    | .functionEnd =>
      (partsFrom (index + 1) none rest).map (.function { f with code := f.code ++ [i] } :: ·)
    | _ => partsFrom (index + 1) (some { f with code := f.code ++ [i] }) rest

def parts (code : List Instruction) : Except Fault (List Part) := partsFrom 0 none code

def results (code : List Instruction) : List Id := code.filterMap Instruction.result?

/-- Names and decorations of ids that are defined, and all else. -/
def dropStaleAnnotations (code : List Instruction) : List Instruction :=
  let defined := results code
  code.filter fun i =>
    match i.op with
    | .debugName | .decorate => (i.operands.head?).any (defined.contains ·)
    | _ => true

def maxId (code : List Instruction) : Id := (results code).foldl max 0

def renameIds (f : Id → Id) (i : Instruction) : Instruction :=
  { i with
    operands := i.operands.mapIdx fun p w =>
      if i.refersAt p ∨ some p = i.resultPosition? then f w else w }

end Shading.Bytecode.Pass
