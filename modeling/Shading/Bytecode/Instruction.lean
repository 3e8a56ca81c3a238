import Shading.Bytecode.Opcode
import Shading.Bytes
import Shading.Text.Utf8

/-! Instructions: an operation with word operands, of which some are the ids of other instructions'
results. They have a form in words and one for readers. -/
namespace Shading.Bytecode
open Text

abbrev Id := UInt32

/-- Why words are not a module, or a module has no words. Offsets count words from the start. -/
inductive Fault where
  | badMagic (word : UInt32)
  | unsupportedVersion (word : UInt32)
  | truncatedHeader
  | unknownStage (code : UInt32)
  | truncated (offset : Nat)
  | zeroWordCount (offset : Nat)
  | unknownOpcode (code offset : Nat)
  | missingOperands (op : Opcode) (offset : Nat)
  | tooLong (op : Opcode) (words : Nat)
  | invalidString
  | misaligned (bytes : Nat)
  deriving DecidableEq, Repr

def Fault.message : Fault → String
  | .badMagic w => "bad magic number 0x" ++ Bytes.hex 8 w.toNat
  | .unsupportedVersion w => "unsupported bytecode version 0x" ++ Bytes.hex 8 w.toNat
  | .truncatedHeader => "module header is truncated"
  | .unknownStage c => "unknown stage code " ++ toString c.toNat
  | .truncated o => "truncated instruction at word " ++ toString o
  | .zeroWordCount o => "zero word count at word " ++ toString o
  | .unknownOpcode c o => "unknown opcode " ++ toString c ++ " at word " ++ toString o
  | .missingOperands op o => op.name ++ " at word " ++ toString o ++ " is missing operands"
  | .tooLong op n => op.name ++ " is too long (" ++ toString n ++ " words)"
  | .invalidString => "invalid string literal"
  | .misaligned n => "byte length " ++ toString n ++ " is not a multiple of 4"

def encodeText (s : String) : List UInt32 :=
  let bytes := utf8 s
  Bytes.toWords (bytes ++ List.replicate (4 - bytes.length % 4) 0)

/-- The text before the first zero byte. -/
def decodeText (ws : List UInt32) : Except Fault String :=
  let bytes := Bytes.ofWords ws
  if bytes.contains 0 then
    match ofUtf8? (bytes.takeWhile (· != 0)) with
    | some s => .ok s
    | none => .error .invalidString
  else .error .invalidString

/-- Words that lie behind the operands of every instruction. None do when modules are read; with others
there, a read past the operands would show. -/
class Beyond where
  words : List UInt32

instance : Beyond := ⟨[]⟩

structure Instruction where
  op : Opcode
  operands : List UInt32
  deriving DecidableEq, Repr

namespace Instruction

def named (target : Id) (text : String) : Instruction := ⟨.debugName, target :: encodeText text⟩

def wordCount (i : Instruction) : Nat := i.operands.length + 1

def reach [Beyond] (i : Instruction) : List UInt32 := i.operands ++ Beyond.words

def operand [Beyond] (i : Instruction) (n : Nat) : UInt32 := i.reach.getD n 0

/-- The operands from a place on; a place that is not among them or at their end is one of the words behind. -/
def operandsFrom [Beyond] (i : Instruction) (n : Nat) : List UInt32 :=
  if n ≤ i.operands.length then i.operands.drop n else i.reach.drop n

@[simp] theorem reach_eq (i : Instruction) : i.reach = i.operands := i.operands.append_nil

theorem operand_eq (i : Instruction) (n : Nat) : i.operand n = i.operands.getD n 0 := by
  rw [operand,reach_eq]

theorem operandsFrom_eq (i : Instruction) (n : Nat) : i.operandsFrom n = i.operands.drop n := by
  rw [operandsFrom,reach_eq,ite_self]

def firstWord (i : Instruction) : UInt32 := .ofNat (i.wordCount * UInt16.size + i.op.code)

def encode (i : Instruction) : Except Fault (List UInt32) :=
  if i.wordCount < UInt16.size then .ok (i.firstWord :: i.operands)
  else .error (.tooLong i.op i.wordCount)

/-- The instruction that begins with word `w` at `offset`. -/
def decode (offset : Nat) (w : UInt32) (rest : List UInt32) : Except Fault Instruction :=
  let count := w.toNat / UInt16.size
  let code := w.toNat % UInt16.size
  if count = 0 then .error (.zeroWordCount offset)
  else
    match Opcode.ofCode? code with
    | none => .error (.unknownOpcode code offset)
    | some op =>
      if rest.length < count - 1 then .error (.truncated offset)
      else if count - 1 < op.minOperands then .error (.missingOperands op offset)
      else .ok ⟨op, rest.take (count - 1)⟩

def resultType? (i : Instruction) : Option Id :=
  if i.op.hasResultType then i.operands[0]? else none

def resultPosition? (i : Instruction) : Option Nat :=
  if i.op.hasResultType then some 1 else if i.op.isType then some 0 else none

def result? (i : Instruction) : Option Id := i.resultPosition?.bind fun p => i.operands[p]?

/-- Whether the operand at a position is an id of another instruction; a result's type is one. -/
def refersAt (i : Instruction) (p : Nat) : Bool :=
  match i.op with
  | .nop | .localSize | .source | .orElse | .endIf | .loop | .loopContinue | .endLoop | .breakLoop
  | .continueLoop | .ret | .kill | .functionEnd | .typeVoid | .typeBool | .typeInt | .typeFloat
  | .typeSampler => false
  | .debugName | .entryPoint | .decorate | .ifThen | .loopCondition | .retValue | .constant | .var
  | .functionParameter => p == 0
  | .typeVector | .typeMatrix | .typeArray => p == 1
  | .typePointer => p == 2
  | .function | .load | .swizzle => p == 0 || p == 2
  | .store => p == 0 || p == 1
  | .unary => p == 0 || p == 3
  | .binary => p == 0 || p == 3 || p == 4
  | .extract => p == 0 || p == 2 || p == 3
  | .select => p == 0 || p == 2 || p == 3 || p == 4
  | .typeFunction => 1 ≤ p
  | .constantComposite | .construct | .accessChain | .call => p == 0 || 2 ≤ p
  | .builtin => p == 0 || 3 ≤ p

def references (i : Instruction) : List Id :=
  (i.operands.zipIdx.filter fun (_, p) => i.refersAt p).map Prod.fst

/-- The storage of a variable. -/
def storage? (i : Instruction) : Option StorageClass := i.operands[2]?.bind fun w => StorageClass.ofCode? w.toNat

/-- The code of a decoration; where none is given, one that stands for none. -/
def decorationCode (i : Instruction) : UInt32 := i.operands[1]?.getD 0xffffffff

/-- The function that is called. -/
def callee? (i : Instruction) : Option Id := if i.op = .call then i.operands[2]? else none

def text? (i : Instruction) : Option String :=
  match i.op, i.operands with
  | .debugName, _ :: ws => (decodeText ws).toOption
  | _, _ => none

/-- Ids are marked, the result stands in front. -/
def listing (i : Instruction) : String :=
  match i.text? with
  | some s => "Name %" ++ toString (i.operand 0).toNat ++ " \"" ++ s ++ "\""
  | none =>
    let head := match i.result? with
      | some r => "%" ++ toString r.toNat ++ " = "
      | none => ""
    let words := i.operands.mapIdx fun p w =>
      if some p = i.resultPosition? then ""
      else (if i.refersAt p then " %" else " ") ++ toString w.toNat
    head ++ i.op.name ++ String.join words

end Instruction

end Shading.Bytecode
