import Shading.Text.Utf8
import Shading.Uniform

/-! The compiled artifact: the uniform table and the emitted text. Its bytes are the number of
uniforms, the uniforms, the length of the text, the text and a zero, with all numbers little-endian. -/
namespace Shading

structure Artifact where
  uniforms : UniformTable
  source : String
  deriving DecidableEq, Repr

/-- Why an artifact has no bytes, bytes are no artifact, or bytes did not reach their sink. -/
inductive Artifact.Fault where
  | tooManyUniforms (count : Nat)
  | sourceTooLarge
  | nameTooLong (name : String)
  | truncated
  | nameNotText
  | unknownKind (code : Nat)
  | sourceNotText
  | noFinalZero
  | trailing (bytes : Nat)
  /-- What the sink said. -/
  | sink (message : String)
  deriving DecidableEq, Repr

namespace Artifact
open Text

def Fault.message : Fault → String
  | .tooManyUniforms n => toString n ++ " uniforms do not fit the table"
  | .sourceTooLarge => "emitted source is too large"
  | .nameTooLong name => "uniform name '" ++ name ++ "' is longer than 255 bytes"
  | .truncated => "artifact is truncated"
  | .nameNotText => "uniform name is not UTF-8"
  | .unknownKind c => "unknown uniform type " ++ toString c
  | .sourceNotText => "emitted source is not UTF-8"
  | .noFinalZero => "missing trailing zero byte"
  | .trailing n => toString n ++ " unexpected bytes after the artifact"
  | .sink message => message

def encodeUniform (u : Uniform) : Except Fault (List UInt8) :=
  let name := utf8 u.name
  if name.length < 256 then
    .ok (UInt8.ofNat name.length :: name ++ [UInt8.ofNat u.kind.code] ++
      Bytes.ofWords [u.count, u.register, u.registers, u.texComponent, u.texDimension])
  else .error (.nameTooLong u.name)

def encode (a : Artifact) : Except Fault (List UInt8) := do
  let source := utf8 a.source
  if UInt16.size ≤ a.uniforms.length then throw (.tooManyUniforms a.uniforms.length)
  if UInt32.size ≤ source.length then throw .sourceTooLarge
  let uniforms ← a.uniforms.mapM encodeUniform
  return Bytes.ofHalf (.ofNat a.uniforms.length) ++ uniforms.flatten ++
    Bytes.ofWord (.ofNat source.length) ++ source ++ [0]

/-! Each reader gives a value from the front of the bytes, and the bytes after it. -/

def readByte : List UInt8 → Except Fault (UInt8 × List UInt8)
  | b :: rest => .ok (b, rest)
  | [] => .error .truncated

def readHalf : List UInt8 → Except Fault (UInt16 × List UInt8)
  | a :: b :: rest => .ok (Bytes.half a b, rest)
  | _ => .error .truncated

def readWord : List UInt8 → Except Fault (UInt32 × List UInt8)
  | a :: b :: c :: d :: rest => .ok (Bytes.word a b c d, rest)
  | _ => .error .truncated

def readText (length : Nat) (onError : Fault) (bs : List UInt8) : Except Fault (String × List UInt8) :=
  if bs.length < length then .error .truncated
  else
    match ofUtf8? (bs.take length) with
    | some s => .ok (s, bs.drop length)
    | none => .error onError

def readUniform (bs : List UInt8) : Except Fault (Uniform × List UInt8) := do
  let (length, bs) ← readByte bs
  let (name, bs) ← readText length.toNat .nameNotText bs
  let (code, bs) ← readByte bs
  let some kind := UniformKind.ofCode? code.toNat | throw (.unknownKind code.toNat)
  let (count, bs) ← readWord bs
  let (register, bs) ← readWord bs
  let (registers, bs) ← readWord bs
  let (texComponent, bs) ← readWord bs
  let (texDimension, bs) ← readWord bs
  return (⟨name, kind, count, register, registers, texComponent, texDimension⟩, bs)

def readUniforms : Nat → List UInt8 → Except Fault (UniformTable × List UInt8)
  | 0, bs => .ok ([], bs)
  | n + 1, bs => do
    let (u, bs) ← readUniform bs
    let (us, bs) ← readUniforms n bs
    return (u :: us, bs)

/-- The artifact that the bytes hold, with none missing and none left. -/
def decode (bs : List UInt8) : Except Fault Artifact := do
  let (count, bs) ← readHalf bs
  let (uniforms, bs) ← readUniforms count.toNat bs
  let (length, bs) ← readWord bs
  let (source, bs) ← readText length.toNat .sourceNotText bs
  let (final, bs) ← readByte bs
  if final ≠ 0 then throw .noFinalZero
  if !bs.isEmpty then throw (.trailing bs.length)
  return ⟨uniforms, source⟩

/-- Bytes that a sink took, and whether it took them all. -/
structure Delivery where
  taken : List UInt8
  outcome : Except Fault Unit

/-- A place for bytes. It takes those that it is given from the front on, and all of them if it does not
fail. -/
structure Sink where
  write : List UInt8 → Delivery
  takes_front : ∀ bs, (write bs).taken <+: bs
  takes_all : ∀ bs, (write bs).outcome = .ok () → (write bs).taken = bs

def Sink.closing (capacity : Option Nat) : Sink where
  write bs :=
    match capacity with
    | none => ⟨bs, .ok ()⟩
    | some n => ⟨bs.take n, if bs.length ≤ n then .ok () else .error (.sink "closed")⟩
  takes_front bs := by
    cases capacity with
    | none => exact List.prefix_rfl
    | some n => exact List.take_prefix n bs
  takes_all bs ok := by
    cases capacity with
    | none => rfl
    | some n =>
      refine List.take_of_length_le (Decidable.byContradiction fun longer => ?_)
      simp [longer] at ok

def deliverTo (a : Artifact) (sink : Sink) : Delivery :=
  match a.encode with
  | .error e => ⟨[], .error e⟩
  | .ok bs => sink.write bs

def deliver (a : Artifact) (capacity : Option Nat) : Delivery := a.deliverTo (.closing capacity)

end Artifact

end Shading
