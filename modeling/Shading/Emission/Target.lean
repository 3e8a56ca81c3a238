import Shading.Builtin.Func
import Shading.Builtin.Var

/-! The dialect that text is written for: a language version and a profile, what they offer, and how
they spell what they offer. -/
namespace Shading.Emission
open Builtin

structure Target where
  version : Nat
  /-- The profile for embedded systems. -/
  es : Bool
  deriving DecidableEq, Repr

/-- What a target lacks. -/
inductive Target.Fault where
  | noVersion (t : Target)
  | notIn (what : String) (t : Target)
  | needsModern (type : Ty)
  | noCompute (t : Target)

namespace Target

def text (t : Target) : String := toString t.version ++ (if t.es then " es" else "")

def profileBit : UInt32 := 0x80000000

def packed (t : Target) : UInt32 :=
  if t.es then .ofNat t.version ||| profileBit else .ofNat t.version

def ofPacked (w : UInt32) : Target := ⟨(w &&& ~~~profileBit).toNat, w &&& profileBit != 0⟩

def Fault.message : Fault → String
  | .noVersion t => "unsupported target version " ++ t.text
  | .notIn what t => "'" ++ what ++ "' is not available in " ++ t.text
  | .needsModern type => "'" ++ type.text ++ "' requires GLSL 130 or ESSL 300"
  | .noCompute t => "compute shaders require GLSL 430 or ESSL 310, not " ++ t.text

def versions (es : Bool) : List Nat :=
  if es then [100, 300, 310, 320]
  else [110, 120, 130, 140, 150, 330, 400, 410, 420, 430, 440, 450, 460]

def select (version : Nat) (es : Bool) : Except Fault Target :=
  if version ∈ versions es then .ok ⟨version, es⟩ else .error (.noVersion ⟨version, es⟩)

def atLeast (t : Target) (desktop embedded : Nat) : Bool :=
  (if t.es then embedded else desktop) ≤ t.version

def isLegacy (t : Target) : Bool := !t.atLeast 130 300

def hasAttributeLocations (t : Target) : Bool := t.atLeast 330 300

def hasVaryingLocations (t : Target) : Bool := t.atLeast 410 310

def hasUniformLocations (t : Target) : Bool := t.atLeast 430 310

def hasBinding (t : Target) : Bool := t.atLeast 420 310

def supportsCompute (t : Target) : Bool := t.atLeast 430 310

def hasInterpolation (t : Target) : Bool := !t.isLegacy

def versionLine (t : Target) : String :=
  "#version " ++ toString t.version ++ (if t.es ∧ 300 ≤ t.version then " es" else "")

def reservedWords : List String :=
  ["attribute", "const", "uniform", "varying", "buffer", "shared", "coherent", "volatile", "restrict",
    "readonly", "writeonly", "layout", "centroid", "flat", "smooth", "noperspective", "patch",
    "sample", "break", "continue", "do", "for", "while", "switch", "case", "default", "if", "else",
    "subroutine", "in", "out", "inout", "float", "double", "int", "void", "bool", "true", "false",
    "invariant", "precise", "discard", "return", "mat2", "mat3", "mat4", "vec2", "vec3", "vec4",
    "ivec2", "ivec3", "ivec4", "bvec2", "bvec3", "bvec4", "uint", "uvec2", "uvec3", "uvec4", "lowp",
    "mediump", "highp", "precision", "sampler2D", "sampler3D", "samplerCube", "sampler2DShadow",
    "sampler2DArray", "isampler2D", "usampler2D", "struct", "main", "input", "output", "texture",
    "asm", "class", "union", "enum", "typedef", "template", "this", "goto", "inline", "noinline",
    "public", "static", "extern", "external", "interface", "long", "short", "half", "fixed",
    "unsigned", "superp", "filter", "sizeof", "cast", "namespace", "using", "active", "common",
    "partition"]

def hasDoubleUnderscore : List Char → Bool
  | '_' :: '_' :: _ => true
  | _ :: cs => hasDoubleUnderscore cs
  | [] => false

def isReserved (name : String) : Bool :=
  ['g', 'l', '_'].isPrefixOf name.toList || hasDoubleUnderscore name.toList ||
    reservedWords.contains name

def checkSampler (t : Target) (s : Sampler) : Except Fault Unit :=
  if s.kind ≠ .float then .error (.notIn s.name t)
  else
    match s.dim with
    | .d2Array => .error (.notIn "sampler2DArray" t)
    | .d3 => if t.es then .error (.notIn "sampler3D" t) else .ok ()
    | _ => if s.shadow ∧ t.es then .error (.notIn s.name t) else .ok ()

/-- Whether the target has a type; dialects with integers and all matrices have them all. -/
def checkTy (t : Target) (type : Ty) : Except Fault Unit :=
  if t.isLegacy then
    match type.base with
    | .scalar .uint | .vector .uint _ => .error (.needsModern type)
    | .matrix c r => if c ≠ r then .error (.notIn type.text t) else .ok ()
    | .sampler s => t.checkSampler s
    | _ => .ok ()
  else .ok ()

def checkVar (t : Target) (v : Var) : Except Fault Unit :=
  let missing := match v with
    | .vertexId | .instanceId => t.isLegacy
    | .fragDepth => t.es && t.version < 300
    | _ => false
  if missing then .error (.notIn v.name t) else .ok ()

/-- The stem of a lookup's name in a legacy dialect. -/
def legacyStem? (s : Sampler) : Option String :=
  match s.dim, s.shadow with
  | .d2, false => some "texture2D"
  | .d2, true => some "shadow2D"
  | .cube, false => some "textureCube"
  | .d3, false => some "texture3D"
  | _, _ => none

/-- A function's spelling: its name, and what follows the call. A legacy lookup is named after the
sampler, and its comparison comes in the first component of a vector. -/
def funcName (t : Target) (f : Func) (sampler : Option Sampler) (stage : Stage) :
    Except Fault (String × String) :=
  let missing := Fault.notIn f.name t
  let lookup (ending : String) : Except Fault (String × String) := do
    let some s := sampler | throw missing
    t.checkSampler s
    let some stem := legacyStem? s | throw missing
    if f = .textureProj ∧ s.dim = .cube then throw missing
    return (stem ++ ending, if s.shadow then ".r" else "")
  if t.isLegacy then
    match f with
    | .texelFetch | .textureSize | .trunc | .round | .inverse | .determinant => .error missing
    | .transpose => if t.es ∨ t.version < 120 then .error missing else .ok (f.name, "")
    | .texture => lookup ""
    | .textureLod => lookup (if t.es ∧ stage = .fragment then "LodEXT" else "Lod")
    | .textureProj => lookup "Proj"
    | _ => .ok (f.name, "")
  else .ok (f.name, "")

/-- The extension that a function needs. Vertex lookups with a level are part of every dialect. -/
def funcExtension? (t : Target) (f : Func) (stage : Stage) : Option String :=
  if t.es ∧ t.version = 100 ∧ f.fragmentOnly then some "GL_OES_standard_derivatives"
  else if f = .textureLod ∧ stage = .fragment ∧ t.isLegacy then
    some (if t.es then "GL_EXT_shader_texture_lod" else "GL_ARB_shader_texture_lod")
  else none

def checkStage (t : Target) (stage : Stage) : Except Fault Unit :=
  if stage = .compute ∧ !t.supportsCompute then .error (.noCompute t) else .ok ()

end Target

end Shading.Emission
