import Shading.Text.Json
import Shading.Ty

/-! The uniforms of a program as a loader sees them: categories, register ranges and texture
shapes. -/
namespace Shading

/-- What a loader can bind. -/
inductive UniformKind where
  | sampler
  | vec4
  | mat3
  | mat4
  /-- Has registers all the same. -/
  | unknown
  deriving DecidableEq, Repr

namespace UniformKind

def all : List UniformKind := [.sampler, .vec4, .mat3, .mat4, .unknown]

def name : UniformKind → String
  | .sampler => "Sampler"
  | .vec4 => "Vec4"
  | .mat3 => "Mat3"
  | .mat4 => "Mat4"
  | .unknown => "Unknown"

def ofName? (s : String) : Option UniformKind := all.find? fun k => k.name == s

def code : UniformKind → Nat
  | .sampler => 0
  | .vec4 => 1
  | .mat3 => 2
  | .mat4 => 3
  | .unknown => 4

def ofCode? (n : Nat) : Option UniformKind := all[n]?

@[simp] theorem ofCode?_code (k : UniformKind) : ofCode? k.code = some k := by cases k <;> rfl

theorem code_of_ofCode? {n : Nat} {k : UniformKind} (h : ofCode? n = some k) : k.code = n := by
  match n, h with
  | 0, h | 1, h | 2, h | 3, h | 4, h => cases h; rfl

theorem code_lt (k : UniformKind) : k.code < 256 := by cases k <;> decide

def ofTy : Ty → UniformKind
  | .sampler _ => .sampler
  | .vector .float 4 => .vec4
  | .matrix 3 3 => .mat3
  | .matrix 4 4 => .mat4
  | _ => .unknown

end UniformKind

structure Uniform where
  name : String
  kind : UniformKind
  count : UInt32
  register : UInt32
  registers : UInt32
  /-- What a texel is made of; zero for what is no sampler. -/
  texComponent : UInt32
  /-- The shape of the texture; zero for what is no sampler. -/
  texDimension : UInt32
  deriving DecidableEq, Repr

def Sampler.componentCode (s : Sampler) : UInt32 :=
  if s.shadow then 3
  else
    match s.kind with
    | .int => 1
    | .uint => 2
    | _ => 0

def Dim.loaderCode : Dim → UInt32
  | .d2 => 1
  | .d2Array => 2
  | .cube => 3
  | .d3 => 5

namespace Uniform

def ofTy (name : String) (base : Ty) (count register : Nat) : Uniform where
  name := name
  kind := .ofTy base
  count := .ofNat count
  register := .ofNat register
  registers := .ofNat count
  texComponent := match base with
    | .sampler s => s.componentCode
    | _ => 0
  texDimension := match base with
    | .sampler s => s.dim.loaderCode
    | _ => 0

def json (u : Uniform) : Text.Json :=
  .object [(some "name", .text u.name), (some "type", .text u.kind.name),
    (some "count", .natural u.count.toNat), (some "regIndex", .natural u.register.toNat),
    (some "regCount", .natural u.registers.toNat),
    (some "texComponent", .natural u.texComponent.toNat),
    (some "texDimension", .natural u.texDimension.toNat)]

end Uniform

abbrev UniformTable := List Uniform

namespace UniformTable

def get? (t : UniformTable) (name : String) : Option Uniform := t.find? fun u => u.name == name

def registerCount (t : UniformTable) : Nat :=
  match t.getLast? with
  | some u => min countLimit (u.register.toNat + u.registers.toNat)
  | none => 0

/-- The ranges follow each other from `first` on, one register for each value. -/
def contiguousFrom (first : Nat) : UniformTable → Bool
  | [] => true
  | u :: t =>
    u.register.toNat = first && u.registers = u.count &&
      first + u.registers.toNat ≤ countLimit && contiguousFrom (first + u.registers.toNat) t

def isContiguous (t : UniformTable) : Bool := contiguousFrom 0 t

def json (t : UniformTable) : String :=
  (Text.Json.object [(some "uniforms", .array (t.map Uniform.json))]).pretty

end UniformTable

end Shading
