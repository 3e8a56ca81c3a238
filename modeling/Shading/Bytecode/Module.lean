import Shading.Bytecode.Instruction
import Shading.Stage

/-! A bytecode module: a header of five words and the words of its instructions. -/
namespace Shading.Bytecode

structure Header where
  version : UInt32
  generator : UInt32
  /-- All ids are less. -/
  bound : UInt32
  stage : Stage
  deriving DecidableEq, Repr

namespace Header

def magic : UInt32 := 0x58534c47

def currentVersion : UInt32 := 0x00010000

def length : Nat := 5

def new (stage : Stage) (bound : UInt32) : Header := ⟨currentVersion, 0, bound, stage⟩

def words (h : Header) : List UInt32 :=
  [magic, h.version, h.generator, h.bound, .ofNat h.stage.code]

end Header

structure Module where
  words : List UInt32
  deriving DecidableEq, Repr

namespace Module

def empty : Module := ⟨[]⟩

def assemble (h : Header) (code : List Instruction) : Except Fault Module := do
  let parts ← code.mapM Instruction.encode
  return ⟨h.words ++ parts.flatten⟩

def header (m : Module) : Except Fault Header :=
  match m.words with
  | magic :: version :: generator :: bound :: stage :: _ =>
    if magic ≠ Header.magic then .error (.badMagic magic)
    else if version >>> 16 ≠ Header.currentVersion >>> 16 then .error (.unsupportedVersion version)
    else
      match Stage.ofCode? stage.toNat with
      | none => .error (.unknownStage stage)
      | some s => .ok ⟨version, generator, bound, s⟩
  | _ => .error .truncatedHeader

def ofWords (ws : List UInt32) : Except Fault Module := do
  let m : Module := ⟨ws⟩
  discard m.header
  return m

def decodeFrom (offset : Nat) : List UInt32 → Except Fault (List Instruction)
  | [] => .ok []
  | w :: rest => do
    let i ← Instruction.decode offset w rest
    let more ← decodeFrom (offset + i.wordCount) (rest.drop i.operands.length)
    return i :: more
termination_by ws => ws.length
decreasing_by exact Nat.lt_succ_of_le (rest.length_drop ▸ Nat.sub_le _ _)

def instructions (m : Module) : Except Fault (List Instruction) := do
  discard m.header
  decodeFrom Header.length (m.words.drop Header.length)

def bytes (m : Module) : List UInt8 := Bytes.ofWords m.words

def ofBytes (bs : List UInt8) : Except Fault Module :=
  if bs.length % 4 ≠ 0 then .error (.misaligned bs.length) else ofWords (Bytes.toWords bs)

def listing (m : Module) : Except Fault String := do
  let h ← m.header
  let code ← m.instructions
  let first := "; version " ++ toString (h.version >>> 16).toNat ++ "." ++
    toString (h.version >>> 8 &&& 0xff).toNat ++ ", bound " ++ toString h.bound.toNat ++
    ", stage " ++ h.stage.name
  return String.join ((first :: code.map Instruction.listing).map (· ++ "\n"))

end Module

end Shading.Bytecode
