import Shading.Ty

/-! The functions of the shading language that no program defines, and the argument types they
accept. -/
namespace Shading.Builtin

inductive Func where
  | radians
  | degrees
  | sin
  | cos
  | tan
  | asin
  | acos
  | atan
  | pow
  | exp
  | log
  | exp2
  | log2
  | sqrt
  | inverseSqrt
  | abs
  | sign
  | floor
  | ceil
  | trunc
  | round
  | fract
  | mod
  | min
  | max
  | clamp
  | mix
  | step
  | smoothStep
  | length
  | distance
  | dot
  | cross
  | normalize
  | reflect
  | refract
  | faceForward
  | matrixCompMult
  | transpose
  | determinant
  | inverse
  | lessThan
  | lessThanEqual
  | greaterThan
  | greaterThanEqual
  | equal
  | notEqual
  | any
  | all
  | not
  | dFdx
  | dFdy
  | fwidth
  | texture
  | textureLod
  | textureProj
  | texelFetch
  | textureSize
  deriving DecidableEq, Repr

namespace Func

def name : Func → String
  | .radians => "radians"
  | .degrees => "degrees"
  | .sin => "sin"
  | .cos => "cos"
  | .tan => "tan"
  | .asin => "asin"
  | .acos => "acos"
  | .atan => "atan"
  | .pow => "pow"
  | .exp => "exp"
  | .log => "log"
  | .exp2 => "exp2"
  | .log2 => "log2"
  | .sqrt => "sqrt"
  | .inverseSqrt => "inversesqrt"
  | .abs => "abs"
  | .sign => "sign"
  | .floor => "floor"
  | .ceil => "ceil"
  | .trunc => "trunc"
  | .round => "round"
  | .fract => "fract"
  | .mod => "mod"
  | .min => "min"
  | .max => "max"
  | .clamp => "clamp"
  | .mix => "mix"
  | .step => "step"
  | .smoothStep => "smoothstep"
  | .length => "length"
  | .distance => "distance"
  | .dot => "dot"
  | .cross => "cross"
  | .normalize => "normalize"
  | .reflect => "reflect"
  | .refract => "refract"
  | .faceForward => "faceforward"
  | .matrixCompMult => "matrixCompMult"
  | .transpose => "transpose"
  | .determinant => "determinant"
  | .inverse => "inverse"
  | .lessThan => "lessThan"
  | .lessThanEqual => "lessThanEqual"
  | .greaterThan => "greaterThan"
  | .greaterThanEqual => "greaterThanEqual"
  | .equal => "equal"
  | .notEqual => "notEqual"
  | .any => "any"
  | .all => "all"
  | .not => "not"
  | .dFdx => "dFdx"
  | .dFdy => "dFdy"
  | .fwidth => "fwidth"
  | .texture => "texture"
  | .textureLod => "textureLod"
  | .textureProj => "textureProj"
  | .texelFetch => "texelFetch"
  | .textureSize => "textureSize"

/-- In the order of their codes. -/
def table : List Func :=
  [.radians, .degrees, .sin, .cos, .tan, .asin, .acos, .atan, .pow, .exp, .log, .exp2, .log2, .sqrt,
    .inverseSqrt, .abs, .sign, .floor, .ceil, .trunc, .round, .fract, .mod, .min, .max, .clamp, .mix,
    .step, .smoothStep, .length, .distance, .dot, .cross, .normalize, .reflect, .refract,
    .faceForward, .matrixCompMult, .transpose, .determinant, .inverse, .lessThan, .lessThanEqual,
    .greaterThan, .greaterThanEqual, .equal, .notEqual, .any, .all, .not, .dFdx, .dFdy, .fwidth,
    .texture, .textureLod, .textureProj, .texelFetch, .textureSize]

def code (f : Func) : Nat := table.idxOf f

def ofCode? (n : Nat) : Option Func := table[n]?

@[simp] theorem ofCode?_code (f : Func) : ofCode? f.code = some f := by cases f <;> rfl

/-- Names of older dialects, each for textures of one shape. -/
def dimensioned : List (String × Func × Dim) :=
  [("texture2D", .texture, .d2), ("texture2DLod", .textureLod, .d2),
    ("texture2DProj", .textureProj, .d2), ("textureCube", .texture, .cube),
    ("textureCubeLod", .textureLod, .cube), ("texture3D", .texture, .d3),
    ("texture3DLod", .textureLod, .d3), ("texture3DProj", .textureProj, .d3)]

/-- The function of a name, with the texture shape that the name asks for. -/
def lookup? (name : String) : Option (Func × Option Dim) :=
  match dimensioned.lookup name with
  | some (f, d) => some (f, some d)
  | none => (table.find? fun f => f.name == name).map fun f => (f, none)

def fragmentOnly : Func → Bool
  | .dFdx | .dFdy | .fwidth => true
  | _ => false

def isTexture : Func → Bool
  | .texture | .textureLod | .textureProj | .texelFetch | .textureSize => true
  | _ => false

/-- Takes one float or vector of floats and keeps its shape. -/
def isFloatMap : Func → Bool
  | .radians | .degrees | .sin | .cos | .tan | .asin | .acos | .atan | .exp | .log | .exp2 | .log2
  | .sqrt | .inverseSqrt | .floor | .ceil | .trunc | .round | .fract | .normalize | .dFdx | .dFdy
  | .fwidth => true
  | _ => false

def scalarOf (of t : Ty) : Bool := t.isScalar && t.kind? == of.kind?

def isProjective (s : Sampler) (coord : Ty) : Bool :=
  match s.dim with
  | .d2 => coord = .vec 3 || coord = .vec 4
  | .d3 => coord = .vec 4
  | _ => false

/-- Whether the function accepts arguments of these types. -/
def accepts (f : Func) (args : List Ty) : Bool :=
  match f, args with
  | .abs, [x] | .sign, [x] => x.isOf .float || x.isOf .int
  | .atan, [y, x] => y.isOf .float && y = x
  | .pow, [a, b] | .reflect, [a, b] | .distance, [a, b] | .dot, [a, b] => a.isOf .float && a = b
  | .mod, [x, y] => x.isOf .float && (x = y || y = .float)
  | .min, [x, y] | .max, [x, y] => x.isScalarOrVector && x.isNumeric && (x = y || scalarOf x y)
  | .clamp, [x, lo, hi] =>
    x.isScalarOrVector && x.isNumeric && (x = lo && x = hi || scalarOf x lo && scalarOf x hi)
  | .mix, [x, y, a] => x.isOf .float && x = y && (a = x || a = .float)
  | .step, [edge, x] => x.isOf .float && (edge = x || edge = .float)
  | .smoothStep, [e₀, e₁, x] =>
    x.isOf .float && (e₀ = x && e₁ = x || e₀ = .float && e₁ = .float)
  | .length, [x] => x.isOf .float
  | .cross, [a, b] => a = .vec 3 && b = .vec 3
  | .refract, [i, n, eta] => i.isOf .float && i = n && eta = .float
  | .faceForward, [n, i, r] => n.isOf .float && n = i && n = r
  | .matrixCompMult, [a, b] => a.isMatrix && a = b
  | .transpose, [.matrix _ _] => true
  | .determinant, [.matrix c r] | .inverse, [.matrix c r] => c = r
  | .lessThan, [a, b] | .lessThanEqual, [a, b] | .greaterThan, [a, b] | .greaterThanEqual, [a, b] =>
    a.isVector && a.isNumeric && a = b
  | .equal, [a, b] | .notEqual, [a, b] => a.isVector && a = b
  | .any, [.vector k _] | .all, [.vector k _] | .not, [.vector k _] => k = .bool
  | .texture, [.sampler s, coord] => coord = .vec s.coordSize
  | .texture, [.sampler s, coord, bias] => !s.shadow && coord = .vec s.coordSize && bias = .float
  | .textureLod, [.sampler s, coord, lod] => !s.shadow && coord = .vec s.coordSize && lod = .float
  | .textureProj, [.sampler s, coord] => !s.shadow && isProjective s coord
  | .texelFetch, [.sampler s, coord, lod] =>
    !s.shadow && s.dim != .cube && coord = .vector .int s.texelSize && lod = .int
  | .textureSize, [.sampler _, lod] => lod = .int
  | f, [x] => f.isFloatMap && x.isOf .float
  | _, _ => false

/-- The result for arguments that are accepted. Most functions keep the type of one argument. -/
def resultOf (f : Func) (args : List Ty) : Ty :=
  match f, args with
  | .length, _ | .distance, _ | .dot, _ | .determinant, _ => .float
  | .transpose, .matrix c r :: _ => .matrix r c
  | .lessThan, a :: _ | .lessThanEqual, a :: _ | .greaterThan, a :: _ | .greaterThanEqual, a :: _
  | .equal, a :: _ | .notEqual, a :: _ => (a.withKind? .bool).getD .bool
  | .any, _ | .all, _ => .bool
  | .step, [_, x] | .smoothStep, [_, _, x] => x
  | .texture, .sampler s :: _ | .textureLod, .sampler s :: _ | .textureProj, .sampler s :: _ =>
    s.sampleTy
  | .texelFetch, .sampler s :: _ => .vector s.kind 4
  | .textureSize, .sampler s :: _ => .vector .int s.texelSize
  | _, a :: _ => a
  | _, [] => .void

def result? (f : Func) (args : List Ty) : Option Ty :=
  if f.accepts args then some (f.resultOf args) else none

def noOverload (f : Func) (args : List Ty) : String :=
  "'" ++ f.name ++ "' : no matching overloaded function found for (" ++
    ", ".intercalate (args.map Ty.text) ++ ")"

def resolve (f : Func) (args : List Ty) : Except String Ty :=
  match f.result? args with
  | some t => .ok t
  | none => .error (f.noOverload args)

end Func

end Shading.Builtin
