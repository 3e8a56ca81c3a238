/-! The operations of the portable bytecode, and the enumerations that their operands hold. -/
namespace Shading.Bytecode

inductive Opcode where
  | nop
  /-- Target and text: a name for readers. -/
  | debugName
  /-- The function that a stage runs. -/
  | entryPoint
  /-- The size of a work group. -/
  | localSize
  /-- Target, decoration and value. -/
  | decorate
  /-- Version and profile of the source. -/
  | source
  | typeVoid
  | typeBool
  /-- Result, and whether the integers have a sign. -/
  | typeInt
  | typeFloat
  /-- Result, component and count. -/
  | typeVector
  /-- Result, column and count of columns. -/
  | typeMatrix
  /-- Result, shape, depth comparison and kind. -/
  | typeSampler
  /-- Result, element and length. -/
  | typeArray
  /-- Result, returned type and parameters. -/
  | typeFunction
  /-- Result, storage and pointee. -/
  | typePointer
  /-- Type, result and the word of a scalar. -/
  | constant
  /-- Type, result and parts. -/
  | constantComposite
  /-- Pointer type, result and storage. -/
  | var
  /-- Returned type, result and function type. -/
  | function
  /-- Pointer type, result and mode. -/
  | functionParameter
  | functionEnd
  /-- Type, result and pointer. -/
  | load
  /-- Pointer and value. -/
  | store
  /-- Type, result, base pointer and indices. -/
  | accessChain
  /-- Type, result, operator and two values. -/
  | binary
  /-- Type, result, operator and a value. -/
  | unary
  /-- Type, result and parts. -/
  | construct
  /-- Type, result, vector and component numbers. -/
  | swizzle
  /-- Type, result, composite and index. -/
  | extract
  /-- Type, result, condition and two values. -/
  | select
  /-- Type, result, function code and arguments. -/
  | builtin
  /-- Type, result, function and arguments. -/
  | call
  /-- Condition. -/
  | ifThen
  | orElse
  | endIf
  /-- Zero tests at the head, one at the tail. -/
  | loop
  /-- The condition of going on. -/
  | loopCondition
  /-- Begins what runs before the next turn. -/
  | loopContinue
  | endLoop
  | breakLoop
  | continueLoop
  | ret
  /-- Value. -/
  | retValue
  | kill
  deriving DecidableEq, Repr

namespace Opcode

def all : List Opcode :=
  [.nop, .debugName, .entryPoint, .localSize, .decorate, .source, .typeVoid, .typeBool, .typeInt,
    .typeFloat, .typeVector, .typeMatrix, .typeSampler, .typeArray, .typeFunction, .typePointer,
    .constant, .constantComposite, .var, .function, .functionParameter, .functionEnd, .load, .store,
    .accessChain, .binary, .unary, .construct, .swizzle, .extract, .select, .builtin, .call, .ifThen,
    .orElse, .endIf, .loop, .loopCondition, .loopContinue, .endLoop, .breakLoop, .continueLoop, .ret,
    .retValue, .kill]

def code : Opcode → Nat
  | .nop => 0
  | .debugName => 1
  | .entryPoint => 2
  | .localSize => 3
  | .decorate => 4
  | .source => 5
  | .typeVoid => 10
  | .typeBool => 11
  | .typeInt => 12
  | .typeFloat => 13
  | .typeVector => 14
  | .typeMatrix => 15
  | .typeSampler => 16
  | .typeArray => 17
  | .typeFunction => 18
  | .typePointer => 19
  | .constant => 20
  | .constantComposite => 21
  | .var => 22
  | .function => 30
  | .functionParameter => 31
  | .functionEnd => 32
  | .load => 40
  | .store => 41
  | .accessChain => 42
  | .binary => 43
  | .unary => 44
  | .construct => 45
  | .swizzle => 46
  | .extract => 47
  | .select => 48
  | .builtin => 49
  | .call => 50
  | .ifThen => 60
  | .orElse => 61
  | .endIf => 62
  | .loop => 63
  | .loopCondition => 64
  | .loopContinue => 65
  | .endLoop => 66
  | .breakLoop => 67
  | .continueLoop => 68
  | .ret => 69
  | .retValue => 70
  | .kill => 71

def ofCode? (n : Nat) : Option Opcode := all.find? fun op => op.code == n

@[simp] theorem ofCode?_code (op : Opcode) : ofCode? op.code = some op := by cases op <;> rfl

theorem code_lt (op : Opcode) : op.code < UInt16.size := by cases op <;> decide

def name : Opcode → String
  | .nop => "Nop"
  | .debugName => "Name"
  | .entryPoint => "EntryPoint"
  | .localSize => "LocalSize"
  | .decorate => "Decorate"
  | .source => "Source"
  | .typeVoid => "TypeVoid"
  | .typeBool => "TypeBool"
  | .typeInt => "TypeInt"
  | .typeFloat => "TypeFloat"
  | .typeVector => "TypeVector"
  | .typeMatrix => "TypeMatrix"
  | .typeSampler => "TypeSampler"
  | .typeArray => "TypeArray"
  | .typeFunction => "TypeFunction"
  | .typePointer => "TypePointer"
  | .constant => "Constant"
  | .constantComposite => "ConstantComposite"
  | .var => "Variable"
  | .function => "Function"
  | .functionParameter => "FunctionParameter"
  | .functionEnd => "FunctionEnd"
  | .load => "Load"
  | .store => "Store"
  | .accessChain => "AccessChain"
  | .binary => "Binary"
  | .unary => "Unary"
  | .construct => "Construct"
  | .swizzle => "Swizzle"
  | .extract => "Extract"
  | .select => "Select"
  | .builtin => "Builtin"
  | .call => "FunctionCall"
  | .ifThen => "If"
  | .orElse => "Else"
  | .endIf => "EndIf"
  | .loop => "Loop"
  | .loopCondition => "LoopCondition"
  | .loopContinue => "LoopContinue"
  | .endLoop => "EndLoop"
  | .breakLoop => "Break"
  | .continueLoop => "Continue"
  | .ret => "Return"
  | .retValue => "ReturnValue"
  | .kill => "Kill"

def ofName? (s : String) : Option Opcode := all.find? fun op => op.name == s

def isType : Opcode → Bool
  | .typeVoid | .typeBool | .typeInt | .typeFloat | .typeVector | .typeMatrix | .typeSampler
  | .typeArray | .typeFunction | .typePointer => true
  | _ => false

/-- The first operand is the type of the result. -/
def hasResultType : Opcode → Bool
  | .constant | .constantComposite | .var | .function | .functionParameter | .load | .accessChain
  | .binary | .unary | .construct | .swizzle | .extract | .select | .builtin | .call => true
  | _ => false

def hasResult (op : Opcode) : Bool := op.isType || op.hasResultType

def isTerminator : Opcode → Bool
  | .breakLoop | .continueLoop | .ret | .retValue | .kill => true
  | _ => false

def isPure : Opcode → Bool
  | .load | .accessChain | .binary | .unary | .construct | .swizzle | .extract | .select
  | .builtin => true
  | _ => false

/-- An instruction with fewer operands cannot be read. -/
def minOperands : Opcode → Nat
  | .nop | .functionEnd | .orElse | .endIf | .loopContinue | .endLoop | .breakLoop | .continueLoop
  | .ret | .kill => 0
  | .entryPoint | .ifThen | .loop | .loopCondition | .retValue | .typeVoid | .typeBool
  | .typeFloat => 1
  | .debugName | .store | .typeInt | .source | .typeFunction | .constantComposite
  | .construct => 2
  | .localSize | .decorate | .typeVector | .typeMatrix | .typeArray | .typePointer | .var | .function
  | .functionParameter | .load | .constant | .accessChain | .swizzle | .builtin | .call => 3
  | .typeSampler | .unary | .extract => 4
  | .binary | .select => 5

end Opcode

/-- Where a variable lives. -/
inductive StorageClass where
  | uniform
  | input
  | output
  | priv
  /-- A local variable or a parameter. -/
  | function
  deriving DecidableEq, Repr

namespace StorageClass

def all : List StorageClass := [.uniform, .input, .output, .priv, .function]

def code : StorageClass → Nat
  | .uniform => 0
  | .input => 1
  | .output => 2
  | .priv => 3
  | .function => 4

def ofCode? (n : Nat) : Option StorageClass := all[n]?

@[simp] theorem ofCode?_code (s : StorageClass) : ofCode? s.code = some s := by cases s <;> rfl

end StorageClass

inductive Decoration where
  | location
  | binding
  /-- Its value is the code of a built-in variable. -/
  | builtin
  | interpolation
  | invariant
  deriving DecidableEq, Repr

namespace Decoration

def all : List Decoration := [.location, .binding, .builtin, .interpolation, .invariant]

def code : Decoration → Nat
  | .location => 0
  | .binding => 1
  | .builtin => 2
  | .interpolation => 3
  | .invariant => 4

def ofCode? (n : Nat) : Option Decoration := all[n]?

@[simp] theorem ofCode?_code (d : Decoration) : ofCode? d.code = some d := by cases d <;> rfl

end Decoration

/-- How a parameter is passed. -/
inductive ParamMode where
  | in_
  | out
  | inout
  | constIn
  deriving DecidableEq, Repr

namespace ParamMode

def all : List ParamMode := [.in_, .out, .inout, .constIn]

def code : ParamMode → Nat
  | .in_ => 0
  | .out => 1
  | .inout => 2
  | .constIn => 3

def ofCode? (n : Nat) : Option ParamMode := all[n]?

@[simp] theorem ofCode?_code (m : ParamMode) : ofCode? m.code = some m := by cases m <;> rfl

end ParamMode

end Shading.Bytecode
