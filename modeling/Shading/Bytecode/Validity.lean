import Shading.Bytecode.Module

/-! Which modules are well formed: every id is defined once and before its use, types are types and
pointers are pointers, annotations have targets, and control constructs nest. -/
namespace Shading.Bytecode

/-- What can be wrong with one instruction. -/
inductive Flaw where
  | unreadable (f : Fault)
  | outsideBound (id bound : Id)
  | redefined (id : Id)
  | noTarget (op : Opcode) (id : Id)
  | entryNoFunction
  | decoratesNoVariable (id : Id)
  | unknownDecoration (code : UInt32)
  | malformedName
  | usedBeforeDefined (op : Opcode) (id : Id)
  | noType (id : Id)
  | noPointerType (op : Opcode)
  | badStorage
  | localOutside
  | globalInside
  | loadNoPointer (id : Id)
  | storeNoPointer (id : Id)
  | chainNoPointer
  | callsNoFunction (id : Id)
  | declaredInside (op : Opcode)
  | nestedFunction
  | endOutside
  | openConstruct
  | outsideBody (op : Opcode)
  | strayElse
  | strayEndIf
  | strayCondition
  | strayContinue
  | strayEndLoop
  | strayJump (op : Opcode)
  | openFunction
  | entryCount (n : Nat)
  deriving DecidableEq, Repr

namespace Flaw

def mark (id : Id) : String := "%" ++ toString id.toNat

def message : Flaw → String
  | .unreadable f => f.message
  | .outsideBound id bound => mark id ++ " is outside the id bound " ++ toString bound.toNat
  | .redefined id => mark id ++ " is defined more than once"
  | .noTarget op id => op.name ++ " targets undefined " ++ mark id
  | .entryNoFunction => "entry point is not a function"
  | .decoratesNoVariable id => "decoration target " ++ mark id ++ " is not a variable"
  | .unknownDecoration code => "unknown decoration " ++ toString code.toNat
  | .malformedName => "malformed name string"
  | .usedBeforeDefined op id => op.name ++ " uses " ++ mark id ++ " before its definition"
  | .noType id => "result type " ++ mark id ++ " is not a type"
  | .noPointerType op => op.name ++ " must have a pointer result type"
  | .badStorage => "invalid storage class"
  | .localOutside => "function-local variable outside a function"
  | .globalInside => "global variable inside a function"
  | .loadNoPointer id => "Load from non-pointer " ++ mark id
  | .storeNoPointer id => "Store to non-pointer " ++ mark id
  | .chainNoPointer => "access chain base is not a pointer"
  | .callsNoFunction id => "call target " ++ mark id ++ " is not a function"
  | .declaredInside op => op.name ++ " inside a function body"
  | .nestedFunction => "nested function definition"
  | .endOutside => "FunctionEnd outside a function"
  | .openConstruct => "unterminated control construct at function end"
  | .outsideBody op => op.name ++ " outside a function body"
  | .strayElse => "Else without a matching If"
  | .strayEndIf => "EndIf without a matching If"
  | .strayCondition => "LoopCondition outside a loop"
  | .strayContinue => "LoopContinue without a matching Loop"
  | .strayEndLoop => "EndLoop without a continue block"
  | .strayJump op => op.name ++ " outside a loop"
  | .openFunction => "function is not terminated by FunctionEnd"
  | .entryCount n => "expected one entry point, found " ++ toString n

end Flaw

structure Finding where
  /-- The position of an instruction. -/
  index : Nat
  flaw : Flaw
  deriving DecidableEq, Repr

def Finding.text (f : Finding) : String :=
  "instruction " ++ toString f.index ++ ": " ++ f.flaw.message

def definition? (code : List Instruction) (id : Id) : Option Instruction :=
  code.foldl (fun found i => if i.result? = some id then some i else found) none

def definedBy (code : List Instruction) (id : Id) (test : Opcode → Bool) : Bool :=
  (definition? code id).any fun i => test i.op

def Opcode.isPointer : Opcode → Bool
  | .var | .functionParameter | .accessChain => true
  | _ => false

def Opcode.isDeclaration (op : Opcode) : Bool :=
  op.isType || op = .constant || op = .constantComposite

def Opcode.isNote : Opcode → Bool
  | .debugName | .entryPoint | .decorate => true
  | _ => false

/-- An open control construct. -/
inductive Construct where
  | ifThen
  | orElse
  | loop
  /-- What runs before the next turn of a loop. -/
  | continuing
  deriving DecidableEq, Repr

def Construct.isLoop : Construct → Bool
  | .loop | .continuing => true
  | _ => false

/-- Where in a module an instruction stands. -/
structure Nesting where
  inFunction : Bool := false
  /-- The open constructs, the innermost first. -/
  stack : List Construct := []
  deriving DecidableEq, Repr

namespace Nesting

/-- A control instruction inside of a function. -/
def control (n : Nesting) (op : Opcode) : List Flaw × Nesting :=
  match op, n.stack with
  | .ifThen, s => ([], { n with stack := .ifThen :: s })
  | .orElse, .ifThen :: s => ([], { n with stack := .orElse :: s })
  | .orElse, _ => ([.strayElse], n)
  | .endIf, .ifThen :: s | .endIf, .orElse :: s => ([], { n with stack := s })
  | .endIf, s => ([.strayEndIf], { n with stack := s.tail })
  | .loop, s => ([], { n with stack := .loop :: s })
  | .loopCondition, .loop :: _ | .loopCondition, .continuing :: _ => ([], n)
  | .loopCondition, _ => ([.strayCondition], n)
  | .loopContinue, .loop :: s => ([], { n with stack := .continuing :: s })
  | .loopContinue, _ => ([.strayContinue], n)
  | .endLoop, .continuing :: s => ([], { n with stack := s })
  | .endLoop, s => ([.strayEndLoop], { n with stack := s.tail })
  | .breakLoop, s | .continueLoop, s => (if s.any Construct.isLoop then [] else [.strayJump op], n)
  | _, _ => ([], n)

/-- What is wrong with the place of an instruction, and the place of the next one. -/
def step (n : Nesting) (op : Opcode) : List Flaw × Nesting :=
  if op.isDeclaration then (if n.inFunction then [.declaredInside op] else [], n)
  else
    match op with
    | .function => (if n.inFunction then [.nestedFunction] else [], ⟨true, []⟩)
    | .functionEnd =>
      ((if n.inFunction then [] else [.endOutside]) ++
        (if n.stack.isEmpty then [] else [.openConstruct]), ⟨false, []⟩)
    | .var | .source | .localSize | .nop => ([], n)
    | _ => if n.inFunction then n.control op else ([.outsideBody op], n)

end Nesting

/-- Ids are below the bound and defined once. -/
def definitionFindings (bound : Id) : Nat → List Id → List Instruction → List Finding
  | _, _, [] => []
  | index, seen, i :: rest =>
    match i.result? with
    | none => definitionFindings bound (index + 1) seen rest
    | some id =>
      (if id = 0 ∨ bound ≤ id then [⟨index, .outsideBound id bound⟩] else []) ++
        (if id ∈ seen then [⟨index, .redefined id⟩] else []) ++
        definitionFindings bound (index + 1) (id :: seen) rest

def annotationFlaws (code : List Instruction) (i : Instruction) : List Flaw :=
  let target := i.operand 0
  match definition? code target with
  | none => [.noTarget i.op target]
  | some d =>
    match i.op with
    | .entryPoint => if d.op = .function then [] else [.entryNoFunction]
    | .decorate =>
      (if d.op = .var then [] else [.decoratesNoVariable target]) ++
        (if (Decoration.ofCode? i.decorationCode.toNat).isSome then []
          else [.unknownDecoration i.decorationCode])
    | _ => if i.text?.isSome then [] else [.malformedName]

def referenceFlaws (defined : List Id) (i : Instruction) : List Flaw :=
  (i.references.filter (· ∉ defined)).map (Flaw.usedBeforeDefined i.op)

def typeFlaws (code : List Instruction) (i : Instruction) : List Flaw :=
  match i.resultType? with
  | none => []
  | some t =>
    if !definedBy code t Opcode.isType then [.noType t]
    else if i.op.isPointer && !definedBy code t (· == .typePointer) then [.noPointerType i.op]
    else []

def operandFlaws [Beyond] (code : List Instruction) (inFunction : Bool) (i : Instruction) : List Flaw :=
  match i.op with
  | .var =>
    match i.storage? with
    | none => [.badStorage]
    | some .function => if inFunction then [] else [.localOutside]
    | some _ => if inFunction then [.globalInside] else []
  | .load =>
    if definedBy code (i.operand 2) Opcode.isPointer then [] else [.loadNoPointer (i.operand 2)]
  | .store =>
    if definedBy code (i.operand 0) Opcode.isPointer then [] else [.storeNoPointer (i.operand 0)]
  | .accessChain =>
    if definedBy code (i.operand 2) Opcode.isPointer then [] else [.chainNoPointer]
  | .call =>
    if definedBy code (i.operand 2) (· == .function) then [] else [.callsNoFunction (i.operand 2)]
  | _ => []

def orderFindings [Beyond] (code : List Instruction) :
    Nat → List Id → Nesting → List Instruction → List Finding
  | index, _, n, [] => if n.inFunction then [⟨index, .openFunction⟩] else []
  | index, defined, n, i :: rest =>
    if i.op.isNote then
      (annotationFlaws code i).map (Finding.mk index) ++
        orderFindings code (index + 1) defined n rest
    else
      let (nestingFlaws, n') := n.step i.op
      (referenceFlaws defined i ++ typeFlaws code i ++ operandFlaws code n.inFunction i ++
          nestingFlaws).map (Finding.mk index) ++
        orderFindings code (index + 1) (i.result?.toList ++ defined) n' rest

def entryFindings (code : List Instruction) : List Finding :=
  let n := code.countP fun i => i.op == .entryPoint
  if n = 1 then [] else [⟨0, .entryCount n⟩]

def findings [Beyond] (bound : Id) (code : List Instruction) : List Finding :=
  definitionFindings bound 0 [] code ++ orderFindings code 0 [] {} code ++ entryFindings code

/-- All that is wrong with a module. -/
def Module.findings [Beyond] (m : Module) : List Finding :=
  match m.header, m.instructions with
  | .ok h, .ok code => Bytecode.findings h.bound code
  | .error f, _ => [⟨0, .unreadable f⟩]
  | _, .error f => [⟨0, .unreadable f⟩]

end Shading.Bytecode
