/-! The types of the shading language and the questions that checking, lowering and printing ask of
them. -/
namespace Shading

/-- The kind of one component. -/
inductive Scalar where
  | bool
  | int
  | uint
  | float
  deriving DecidableEq, Repr

namespace Scalar

def all : List Scalar := [.bool, .int, .uint, .float]

def name : Scalar → String
  | .bool => "bool"
  | .int => "int"
  | .uint => "uint"
  | .float => "float"

def initial : Scalar → String
  | .bool => "b"
  | .int => "i"
  | .uint => "u"
  | .float => ""

def isInteger : Scalar → Bool
  | .int | .uint => true
  | .bool | .float => false

def isNumeric (k : Scalar) : Bool := k != .bool

def code : Scalar → Nat
  | .bool => 0
  | .int => 1
  | .uint => 2
  | .float => 3

def ofCode? (n : Nat) : Option Scalar := all[n]?

@[simp] theorem ofCode?_code (k : Scalar) : ofCode? k.code = some k := by cases k <;> rfl

end Scalar

/-- The shape of a texture. -/
inductive Dim where
  | d2
  | d3
  | cube
  | d2Array
  deriving DecidableEq, Repr

namespace Dim

def all : List Dim := [.d2, .d3, .cube, .d2Array]

def name : Dim → String
  | .d2 => "2D"
  | .d3 => "3D"
  | .cube => "Cube"
  | .d2Array => "2DArray"

def code : Dim → Nat
  | .d2 => 0
  | .d3 => 1
  | .cube => 2
  | .d2Array => 3

def ofCode? (n : Nat) : Option Dim := all[n]?

@[simp] theorem ofCode?_code (d : Dim) : ofCode? d.code = some d := by cases d <;> rfl

end Dim

structure Sampler where
  dim : Dim
  /-- Compares a depth in place of giving texels. -/
  shadow : Bool := false
  kind : Scalar := .float
  deriving DecidableEq, Repr

namespace Sampler

def coordSize (s : Sampler) : Nat := if s.dim = .d2 ∧ s.shadow = false then 2 else 3

def texelSize (s : Sampler) : Nat :=
  match s.dim with
  | .d2 | .cube => 2
  | .d3 | .d2Array => 3

def name (s : Sampler) : String :=
  s.kind.initial ++ "sampler" ++ s.dim.name ++ (if s.shadow then "Shadow" else "")

end Sampler

def countLimit : Nat := UInt32.size - 1

def mulCount (m n : Nat) : Nat := min countLimit (m * n)

inductive Ty where
  | void
  | scalar (kind : Scalar)
  | vector (kind : Scalar) (size : Nat)
  /-- A matrix of floats. -/
  | matrix (columns rows : Nat)
  | sampler (s : Sampler)
  | array (element : Ty) (size : Nat)
  deriving DecidableEq, Repr

namespace Ty

abbrev bool : Ty := .scalar .bool

abbrev int : Ty := .scalar .int

abbrev uint : Ty := .scalar .uint

abbrev float : Ty := .scalar .float

abbrev vec (n : Nat) : Ty := .vector .float n

def ofSize (k : Scalar) (n : Nat) : Ty := if n = 1 then .scalar k else .vector k n

def isVoid : Ty → Bool
  | .void => true
  | _ => false

def isScalar : Ty → Bool
  | .scalar _ => true
  | _ => false

def isVector : Ty → Bool
  | .vector .. => true
  | _ => false

def isMatrix : Ty → Bool
  | .matrix .. => true
  | _ => false

def isSampler : Ty → Bool
  | .sampler _ => true
  | _ => false

def isArray : Ty → Bool
  | .array .. => true
  | _ => false

def isScalarOrVector (t : Ty) : Bool := t.isScalar || t.isVector

def kind? : Ty → Option Scalar
  | .scalar k | .vector k _ => some k
  | .matrix .. => some .float
  | _ => none

def isNumeric (t : Ty) : Bool := t.kind?.any Scalar.isNumeric

def isInteger : Ty → Bool
  | .scalar k | .vector k _ => k.isInteger
  | _ => false

def isOf (k : Scalar) : Ty → Bool
  | .scalar j | .vector j _ => j == k
  | _ => false

def components : Ty → Nat
  | .scalar _ => 1
  | .vector _ n => n
  | .matrix c r => c * r
  | _ => 0

def vectorSize? : Ty → Option Nat
  | .scalar _ => some 1
  | .vector _ n => some n
  | _ => none

def withKind? (k : Scalar) : Ty → Option Ty
  | .scalar _ => some (.scalar k)
  | .vector _ n => some (.vector k n)
  | .matrix c r => if k = .float then some (.matrix c r) else none
  | _ => none

def element? : Ty → Option Ty
  | .array e _ => some e
  | .vector k _ => some (.scalar k)
  | .matrix _ r => some (vec r)
  | _ => none

def indexBound? : Ty → Option Nat
  | .array _ n | .vector _ n => some n
  | .matrix c _ => some c
  | _ => none

def base : Ty → Ty
  | .array e _ => e.base
  | t => t

def count : Ty → Nat
  | .array e n => mulCount n e.count
  | _ => 1

def slots : Ty → Nat
  | .array e n => mulCount n e.slots
  | .matrix c _ => c
  | _ => 1

def dims : Ty → List Nat
  | .array e n => n :: e.dims
  | _ => []

def ofDims (base : Ty) : List Nat → Ty
  | [] => base
  | n :: ns => .array (ofDims base ns) n

theorem ofDims_base_dims (t : Ty) : ofDims t.base t.dims = t := by
  induction t with
  | array e n ih => simp [base,dims,ofDims,ih]
  | _ => rfl

def suffix (t : Ty) : String := String.join (t.dims.map fun n => "[" ++ toString n ++ "]")

/-- The name without array sizes. -/
def baseName : Ty → String
  | .void => "void"
  | .scalar k => k.name
  | .vector k n => k.initial ++ "vec" ++ toString n
  | .matrix c r => if c = r then "mat" ++ toString c else "mat" ++ toString c ++ "x" ++ toString r
  | .sampler s => s.name
  | .array e _ => e.baseName

def text (t : Ty) : String := t.baseName ++ t.suffix

/-- Every type that has a name of its own. -/
def named : List Ty :=
  [.void, bool, int, uint, float] ++
  ([.float, .int, .uint, .bool].flatMap fun k => [2, 3, 4].map (Ty.vector k)) ++
  ([2, 3, 4].flatMap fun c => [2, 3, 4].map (Ty.matrix c)) ++
  [.sampler ⟨.d2, false, .float⟩, .sampler ⟨.d3, false, .float⟩, .sampler ⟨.cube, false, .float⟩,
    .sampler ⟨.d2Array, false, .float⟩, .sampler ⟨.d2, true, .float⟩,
    .sampler ⟨.d2, false, .int⟩, .sampler ⟨.d2, false, .uint⟩]

def spellings : List (String × Ty) :=
  named.map (fun t => (t.baseName, t)) ++
  [2, 3, 4].map fun n => ("mat" ++ toString n ++ "x" ++ toString n, .matrix n n)

def ofName? (name : String) : Option Ty := spellings.lookup name

end Ty

def Sampler.sampleTy (s : Sampler) : Ty := if s.shadow then .float else .vector s.kind 4

end Shading
